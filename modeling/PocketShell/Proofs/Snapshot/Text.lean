import PocketShell.Proofs.Json.RoundTrip
import PocketShell.Proofs.Json.Size
import PocketShell.Proofs.Snapshot.Accepted
import PocketShell.Proofs.Time.Rfc3339
import PocketShell.Proofs.Tree.Sound
import PocketShell.Snapshot.Text

/-!
# Entries survive being written

Entries whose times can be written have a text. If they are the entries of a tree, and the text is
one that a machine of 64 bits can hold, they are read back from it: the positions and sizes that it
names are not larger than the text itself, so each of them fits a word.
-/

namespace PocketShell.Snapshot

open Json (Value Plain)

/-! ## The members of an entry -/

/-- The members of an entry after its kind, with its times as they are written. -/
def Entry.members (entry : Entry) (created updated : String) : Fields :=
  parentMember entry.parent ++
    [("name", .string entry.name), ("createdAt", .string created),
      ("updatedAt", .string updated), ("permissions", .string entry.attributes.permissions),
      ("owner", .string entry.attributes.owner)] ++
    entry.body.members

/-- The names that the members of an entry of this kind may bear. -/
def Body.fields : Body → List String
  | directory => commonFields
  | file .. => commonFields ++ ["content", "size"]

theorem toJson?_eq_some {entry : Entry} {value : Value} :
    entry.toJson? = some value ↔
      ∃ created updated, Time.Rfc3339.write? entry.attributes.created = some created ∧
        Time.Rfc3339.write? entry.attributes.updated = some updated ∧
          value = .object (("type", .string entry.body.kind) :: entry.members created updated) := by
  simp only [Entry.toJson?, bind, pure, Option.bind_eq_some_iff, Option.some.injEq,
    @eq_comm _ value]
  constructor
  · rintro ⟨created, hcreated, updated, hupdated, rfl⟩
    exact ⟨created, updated, hcreated, hupdated, rfl⟩
  · rintro ⟨created, updated, hcreated, hupdated, rfl⟩
    exact ⟨created, hcreated, updated, hupdated, rfl⟩

/-- Reading the members of an entry looks each of them up. -/
theorem decode?_members (entry : Entry) {created updated : String}
    (hcreated : Time.Rfc3339.write? entry.attributes.created = some created)
    (hupdated : Time.Rfc3339.write? entry.attributes.updated = some updated) :
    (entry.members created updated).decode? entry.body.kind = some entry := by
  obtain ⟨parent, name, ⟨createdAt, updatedAt, permissions, owner⟩, body⟩ := entry
  generalize hfields : Entry.members _ _ _ = fields
  have hparent : fields.parent? = some parent := by
    subst hfields; cases parent <;> cases body <;> rfl
  have hname : fields.text? "name" = some name := by
    subst hfields; cases parent <;> cases body <;> rfl
  have hcreatedAt : fields.text? "createdAt" = some created := by
    subst hfields; cases parent <;> cases body <;> rfl
  have hupdatedAt : fields.text? "updatedAt" = some updated := by
    subst hfields; cases parent <;> cases body <;> rfl
  have hpermissions : fields.text? "permissions" = some permissions := by
    subst hfields; cases parent <;> cases body <;> rfl
  have howner : fields.text? "owner" = some owner := by
    subst hfields; cases parent <;> cases body <;> rfl
  have hbody : fields.body? body.kind = some body := by
    subst hfields; cases parent <;> cases body <;> rfl
  simp only [Fields.decode?, Fields.stamp?, hparent, hname, hcreatedAt, hupdatedAt, hpermissions,
    howner, hbody, bind, pure, Option.bind_some, Time.Rfc3339.read?_write? hcreated,
    Time.Rfc3339.read?_write? hupdated]

/-- An entry is read back from its value. -/
theorem ofJson?_toJson? {entry : Entry} {value : Value} (h : entry.toJson? = some value) :
    Entry.ofJson? value = some entry := by
  obtain ⟨created, updated, hcreated, hupdated, rfl⟩ := toJson?_eq_some.1 h
  have hkind : kind? (("type", .string entry.body.kind) :: entry.members created updated) =
      some entry.body.kind := by
    obtain ⟨parent, name, attributes, body⟩ := entry
    cases parent <;> cases body <;> rfl
  have hfields : fieldsOf? entry.body.kind = some entry.body.fields := by
    obtain ⟨parent, name, attributes, body⟩ := entry
    cases body <;> rfl
  have hselect : Fields.select? (("type", .string entry.body.kind) :: entry.members created updated)
      entry.body.fields = some (entry.members created updated) := by
    obtain ⟨parent, name, attributes, body⟩ := entry
    cases parent <;> cases body <;> rfl
  simp only [Entry.ofJson?, hkind, hfields, hselect, bind, Option.bind_some,
    decode?_members entry hcreated hupdated]

/-! ## Lists of entries -/

theorem exists_write? {entries : List Entry}
    (h : ∀ entry ∈ entries, entry.attributes.Timed fun stamp => Time.Rfc3339.isWritable stamp) :
    ∃ text, write? entries = some text := by
  suffices ∃ values, entries.mapM Entry.toJson? = some values by
    obtain ⟨values, hvalues⟩ := this
    exact ⟨_, by rw [write?, hvalues]; rfl⟩
  induction entries with
  | nil => exact ⟨[], rfl⟩
  | cons entry rest ih =>
    obtain ⟨⟨hcreated, hupdated⟩, hrest⟩ := List.forall_mem_cons.1 h
    obtain ⟨values, hvalues⟩ := ih hrest
    have hvalue := toJson?_eq_some.2
      ⟨_, _, Time.Rfc3339.write?_eq_some.2 ⟨hcreated, rfl⟩,
        Time.Rfc3339.write?_eq_some.2 ⟨hupdated, rfl⟩, rfl⟩
    exact ⟨_ :: values, by rw [List.mapM_cons, hvalue, hvalues]; rfl⟩

theorem mapM_ofJson? {entries : List Entry} {values : List Value}
    (h : entries.mapM Entry.toJson? = some values) :
    values.mapM Entry.ofJson? = some entries ∧ values.length = entries.length ∧
      ∀ value ∈ values, ∃ entry ∈ entries, entry.toJson? = some value := by
  induction entries generalizing values with
  | nil => cases h; exact ⟨rfl, rfl, by simp⟩
  | cons entry rest ih =>
    simp only [List.mapM_cons, bind, pure, Option.bind_eq_some_iff, Option.some.injEq] at h
    obtain ⟨value, hvalue, values, hvalues, rfl⟩ := h
    obtain ⟨hread, hlength, hall⟩ := ih hvalues
    refine ⟨?_, by simp [hlength], ?_⟩
    · rw [List.mapM_cons, ofJson?_toJson? hvalue, hread]
      rfl
    · intro other hother
      rcases List.mem_cons.1 hother with rfl | hother
      · exact ⟨entry, by simp, hvalue⟩
      · obtain ⟨found, hfound, heq⟩ := hall other hother
        exact ⟨found, List.mem_cons_of_mem _ hfound, heq⟩

/-! ## Texts that fit a machine -/

/-- The number of octets that a machine of 64 bits can address. -/
def addressable : Nat := 0x10000000000000000

theorem fitsWord_of_lt {n : Nat} (h : n < addressable) : Json.fitsWord n := by
  unfold addressable at h
  simp only [Json.fitsWord, Bool.and_eq_true, decide_eq_true_eq]
  omega

theorem plain_of_toJson? {entry : Entry} {value : Value} (levels : Nat)
    (h : entry.toJson? = some value)
    (hparent : ∀ parent, entry.parent = some parent → parent < addressable)
    (hsize : ∀ content size, entry.body = .file content size → size < addressable) :
    Plain (levels + 1) value := by
  obtain ⟨created, updated, -, -, rfl⟩ := toJson?_eq_some.1 h
  refine .object fun member hmember => ?_
  simp only [Entry.members, List.mem_cons, List.mem_append, List.not_mem_nil, or_false] at hmember
  rcases hmember with rfl | (hmember | rfl | rfl | rfl | rfl | rfl) | hmember
  · exact .string _
  · cases hposition : entry.parent with
    | none => rw [hposition] at hmember; cases hmember
    | some position =>
      rw [hposition] at hmember
      cases List.mem_singleton.1 hmember
      exact .integer (fitsWord_of_lt (hparent position hposition))
  iterate 5 exact .string _
  · cases hbody : entry.body with
    | directory => rw [hbody] at hmember; cases hmember
    | file content size =>
      rw [hbody] at hmember
      simp only [Body.members, List.mem_cons, List.not_mem_nil, or_false] at hmember
      rcases hmember with rfl | rfl
      · exact .string _
      · exact .integer (fitsWord_of_lt (hsize content size hbody))

/-- The content of a file is in the value of its entry. -/
theorem content_le_of_toJson? {entry : Entry} {value : Value} {content : String} {size : Nat}
    (h : entry.toJson? = some value) (hbody : entry.body = .file content size) :
    content.utf8ByteSize ≤ Json.octets (Json.writeValue value) := by
  obtain ⟨created, updated, -, -, rfl⟩ := toJson?_eq_some.1 h
  have hmember : ("content", Value.string content) ∈
      ("type", Value.string entry.body.kind) :: entry.members created updated := by
    simp [Entry.members, hbody, Body.members]
  calc
    content.utf8ByteSize ≤ Json.octets (Json.quote content) :=
      Json.utf8ByteSize_le_octets_quote content
    _ = Json.octets (Json.writeValue (.string content)) := by rw [Json.writeValue]
    _ ≤ _ := Json.octets_le_of_sublist (Json.sublist_object hmember)

theorem Accepted.parent_lt {entries : List Entry} (h : Accepted entries) {entry : Entry}
    (hentry : entry ∈ entries) {parent : Nat} (hparent : entry.parent = some parent) :
    parent < entries.length := by
  obtain ⟨position, hlt, rfl⟩ := List.getElem_of_mem hentry
  exact Nat.lt_trans (h.of_parent (List.getElem?_eq_getElem hlt) hparent).1 hlt

/-- Entries of a tree are read back from their text. -/
theorem Accepted.read?_write? {entries : List Entry} {text : String} (h : Accepted entries)
    (hwrite : write? entries = some text) (hfits : text.utf8ByteSize < addressable) :
    read? text = some entries := by
  obtain ⟨values, hvalues, rfl⟩ := Option.map_eq_some_iff.1 hwrite
  obtain ⟨hread, hlength, hall⟩ := mapM_ofJson? hvalues
  rw [Json.write, Json.utf8ByteSize_ofList] at hfits
  have hplain : Plain Json.maxNesting (.array values) := by
    refine .array fun value hvalue => ?_
    obtain ⟨entry, hentry, heq⟩ := hall value hvalue
    refine plain_of_toJson? _ heq (fun parent hparent => ?_) (fun content size hbody => ?_)
    · calc
        parent < entries.length := h.parent_lt hentry hparent
        _ = values.length := hlength.symm
        _ ≤ _ := Json.length_le_octets_array values
        _ < addressable := hfits
    · calc
        size = content.utf8ByteSize := h.sized entry hentry content size hbody
        _ ≤ _ := content_le_of_toJson? heq hbody
        _ ≤ _ := Json.octets_le_of_sublist (Json.sublist_array hvalue)
        _ < addressable := hfits
  rw [read?, Json.read?_write hplain]
  exact hread

end PocketShell.Snapshot
