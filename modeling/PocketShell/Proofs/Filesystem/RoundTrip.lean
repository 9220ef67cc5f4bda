import PocketShell.Proofs.Filesystem.Invariant
import PocketShell.Proofs.Snapshot.Preorder
import PocketShell.Proofs.Snapshot.Text

/-!
# Saving and restoring

Whatever a filesystem has been through, its tree has a snapshot, and any filesystem that restores
the snapshot has that tree, node for node. What makes it so is the invariant, held for the times
that can be written: those that the clock shows from the year 0000 to the year 9999, and all that a
snapshot may have brought in.
-/

namespace PocketShell

open Time (Stamp)

/-- A reading of a clock at UTC from the year 0000 to the year 9999. -/
def Time.Stamp.InCalendar (stamp : Stamp) : Prop :=
  stamp.offset = 0 ∧ 0 ≤ stamp.date.year ∧ stamp.date.year ≤ 9999

instance (stamp : Stamp) : Decidable stamp.InCalendar :=
  inferInstanceAs (Decidable (_ ∧ _ ∧ _))

theorem Time.Stamp.InCalendar.isWritable {stamp : Stamp} (h : stamp.InCalendar) :
    Time.Rfc3339.isWritable stamp := by
  rw [Time.Rfc3339.isWritable_iff, h.1]
  exact ⟨h.2.1, h.2.2, by decide, rfl⟩

/-! ## Snapshots of trees -/

namespace Snapshot

variable {root : Node}

theorem timed_encode {ok : Stamp → Prop} (hsound : root.Sound ok (Path.maxDepth + 1)) :
    ∀ entry ∈ encode root, entry.attributes.Timed ok := by
  intro entry hentry
  obtain ⟨position, hlt, rfl⟩ := List.getElem_of_mem hentry
  obtain ⟨_, node, hblock, _, hnode, -⟩ := exists_block hsound hlt
  rw [hblock.getElem_eq hlt, attributes_ofNode]
  exact hnode.timed

/-- A tree whose times can be written has a snapshot. -/
theorem exists_ofTree? (hsound : root.Sound (Time.Rfc3339.isWritable ·) (Path.maxDepth + 1)) :
    ∃ text, ofTree? root = some text :=
  exists_write? (timed_encode hsound)

/-- The snapshot of a sound tree denotes that tree. -/
theorem toTree_ofTree? {ok : Stamp → Prop} {text : String} (hname : root.name = rootName)
    (hdir : root.isDirectory) (hsound : root.Sound ok (Path.maxDepth + 1))
    (h : ofTree? root = some text) (hfits : text.utf8ByteSize < addressable) :
    toTree text = .ok root := by
  have hread := (accepted_encode hname hdir hsound).read?_write? h hfits
  rw [toTree, hread]
  exact decode_encode hname hdir hsound

end Snapshot

/-! ## Filesystems -/

namespace Filesystem

theorem Operation.Reads.mono {ok ok' : Stamp → Prop} {operation : Operation}
    (h : operation.Reads ok) (hok : ∀ stamp, ok stamp → ok' stamp) : operation.Reads ok' := by
  cases operation with
  | reset clock => exact fun n => hok _ (h n)
  | createDirectory | createFile | touch => exact hok _ h
  | changeDirectory | remove | restore => trivial

theorem serialize_eq_ok {fs : Filesystem} {text : String} :
    fs.serialize = .ok text ↔
      ∃ values, (Snapshot.encode fs.root).mapM Snapshot.Entry.toJson? = some values ∧
        Json.write (.array values) = text := by
  rw [serialize, Snapshot.ofTree?, Snapshot.write?]
  cases (Snapshot.encode fs.root).mapM Snapshot.Entry.toJson? <;> simp

/-- Any filesystem can restore what a sound one saves, and then saves the same. -/
theorem Sound.restore_serialize {fs : Filesystem} (h : fs.Sound (Time.Rfc3339.isWritable ·)) :
    ∃ text, fs.serialize = .ok text ∧
      (text.utf8ByteSize < Snapshot.addressable → ∀ other : Filesystem, ∃ restored,
        other.restore text = .ok restored ∧ restored.root = fs.root ∧ restored.working = [] ∧
          restored.serialize = .ok text) := by
  obtain ⟨text, htext⟩ := Snapshot.exists_ofTree? h.tree
  have hserialize : ∀ saved : Filesystem, saved.root = fs.root → saved.serialize = .ok text := by
    intro saved hroot
    rw [serialize, hroot, htext]
    rfl
  refine ⟨text, hserialize fs rfl, fun hfits other => ?_⟩
  have hroot := Snapshot.toTree_ofTree? h.root_name h.root_isDirectory h.tree htext hfits
  exact ⟨{ other with root := fs.root, working := [] }, restore_eq_ok.2 ⟨fs.root, hroot, rfl⟩, rfl,
    rfl, hserialize _ rfl⟩

/-- After any run of operations, under a clock that stays in the calendar, the filesystem can be
saved, and any other filesystem restores from the text the same tree and saves it as the same text.
The text is one that a machine of 64 bits can hold: the sizes in a larger one would not be read. -/
theorem restore_serialize_run {user : String} {clock : Nat → Stamp} {operations : List Operation}
    (huser : Path.isName user) (hclock : ∀ n, (clock n).InCalendar)
    (hnow : ∀ operation ∈ operations, operation.Reads Stamp.InCalendar) :
    ∃ text, ((startAt clock user).run operations).serialize = .ok text ∧
      (text.utf8ByteSize < Snapshot.addressable → ∀ other : Filesystem, ∃ restored,
        other.restore text = .ok restored ∧
          restored.root = ((startAt clock user).run operations).root ∧ restored.working = [] ∧
          restored.serialize = .ok text) := by
  have hstart : (startAt clock user).Sound (Time.Rfc3339.isWritable ·) :=
    sound_startAt (fun n => (hclock n).isWritable) huser
  have hsound := hstart.run (fun operation hmem => (hnow operation hmem).mono
    fun _ hstamp => hstamp.isWritable) fun _ _ => Time.Rfc3339.isWritable_of_read?
  exact hsound.restore_serialize

/-- Operations that clear the root of a new filesystem and leave a file in it. -/
def leaveNote : List Operation :=
  [.remove "bin" true, .remove "etc" true, .remove "home" true, .remove "tmp" true,
    .remove "usr" true, .remove "var" true, .createFile (.ofNanoseconds 1) "note" "a \"b\""]

/-- A filesystem with one file in it, restored in place of another. -/
theorem restore_serialize_guest :
    ∃ text, ((startAt (fun _ => .ofNanoseconds 0) "guest").run leaveNote).serialize = .ok text ∧
      ∃ restored, (startAt (fun _ => .ofNanoseconds 2) "other").restore text = .ok restored ∧
        restored.root = ((startAt (fun _ => .ofNanoseconds 0) "guest").run leaveNote).root ∧
        restored.working = [] ∧ restored.serialize = .ok text := by
  have hnow : ∀ operation ∈ leaveNote, operation.Reads Stamp.InCalendar := by
    simp only [leaveNote, List.forall_mem_cons, Operation.Reads, List.not_mem_nil, true_and]
    exact ⟨by decide, by simp⟩
  obtain ⟨text, htext, hrestore⟩ := restore_serialize_run (show Path.isName "guest" by decide)
    (fun _ => show (Stamp.ofNanoseconds 0).InCalendar by decide) hnow
  refine ⟨text, htext, hrestore ?_ _⟩
  have hsmall : ((Snapshot.encode ((startAt (fun _ => .ofNanoseconds 0) "guest").run
      leaveNote).root).mapM Snapshot.Entry.toJson?).all
        fun values => Json.octets (Json.writeValue (.array values)) < Snapshot.addressable := by
    rw [Snapshot.encode_eq]
    decide +kernel
  obtain ⟨values, hvalues, rfl⟩ := serialize_eq_ok.1 htext
  rw [hvalues] at hsmall
  rw [Json.write, Json.utf8ByteSize_ofList]
  simpa using hsmall

end Filesystem

end PocketShell
