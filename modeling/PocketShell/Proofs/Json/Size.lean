import PocketShell.Json.Writer

/-!
# The size of a written value

A text is at least as large as what it says: it has the text of every part in it, no text gets
smaller by being escaped, and an array takes an octet or more for each item.
-/

namespace PocketShell.Json

/-- The number of octets that the characters take. -/
def octets : List Char → Nat
  | [] => 0
  | c :: cs => c.utf8Size + octets cs

theorem octets_cons (c : Char) (cs : List Char) : octets (c :: cs) = c.utf8Size + octets cs := rfl

theorem octets_append (xs ys : List Char) : octets (xs ++ ys) = octets xs + octets ys := by
  induction xs with
  | nil => exact (Nat.zero_add _).symm
  | cons c xs ih => rw [List.cons_append, octets_cons, octets_cons, ih, Nat.add_assoc]

theorem utf8ByteSize_ofList (cs : List Char) : (String.ofList cs).utf8ByteSize = octets cs := by
  induction cs with
  | nil => rfl
  | cons c cs ih =>
    rw [String.ofList_cons, String.utf8ByteSize_append, String.utf8ByteSize_singleton, ih,
      octets_cons]

theorem octets_le_of_sublist {xs ys : List Char} (h : xs.Sublist ys) : octets xs ≤ octets ys := by
  induction h with
  | slnil => exact Nat.le_refl _
  | cons c _ ih => exact Nat.le_trans ih (octets_cons c _ ▸ Nat.le_add_left _ _)
  | cons_cons c _ ih => rw [octets_cons, octets_cons]; exact Nat.add_le_add_left ih _

theorem length_le_octets (cs : List Char) : cs.length ≤ octets cs := by
  induction cs with
  | nil => exact Nat.zero_le _
  | cons c cs ih =>
    have hpos := c.utf8Size_pos
    rw [octets_cons, List.length_cons]
    omega

/-! ## Strings -/

theorem utf8Size_le_octets_escape (c : Char) : c.utf8Size ≤ octets (escape c) := by
  unfold escape
  repeat' split
  all_goals try (subst c; decide)
  · have hlength := length_le_octets
      ['\\', 'u', '0', '0', hexDigit (c.toNat / 16), hexDigit (c.toNat % 16)]
    exact Nat.le_trans c.utf8Size_le_four (Nat.le_trans (Nat.le_add_left 4 2) hlength)
  · simp [octets]

theorem octets_le_octets_flatMap_escape (cs : List Char) :
    octets cs ≤ octets (cs.flatMap escape) := by
  induction cs with
  | nil => exact Nat.zero_le _
  | cons c cs ih =>
    have hc := utf8Size_le_octets_escape c
    rw [List.flatMap_cons, octets_append, octets_cons]
    omega

theorem utf8ByteSize_le_octets_quote (text : String) : text.utf8ByteSize ≤ octets (quote text) := by
  have hsublist : (text.toList.flatMap escape).Sublist (quote text) :=
    ((List.sublist_append_left _ _).cons _)
  calc
    text.utf8ByteSize = octets text.toList := by
      rw [← utf8ByteSize_ofList, String.ofList_toList]
    _ ≤ octets (text.toList.flatMap escape) := octets_le_octets_flatMap_escape _
    _ ≤ octets (quote text) := octets_le_of_sublist hsublist

/-! ## Arrays and objects -/

theorem sublist_writeItems {item : Value} {items : List Value} (h : item ∈ items) :
    (writeValue item).Sublist (writeItems items) := by
  induction items with
  | nil => cases h
  | cons first items ih =>
    rw [writeItems]
    refine .cons _ ?_
    rcases List.mem_cons.1 h with rfl | h
    · exact List.sublist_append_left _ _
    · exact (ih h).trans (List.sublist_append_right _ _)

theorem sublist_member (key : String) (value : Value) :
    (writeValue value).Sublist (quote key ++ ':' :: writeValue value) :=
  (List.sublist_cons_self _ _).trans (List.sublist_append_right _ _)

theorem sublist_writeMembers {key : String} {value : Value} {members : List (String × Value)}
    (h : (key, value) ∈ members) : (writeValue value).Sublist (writeMembers members) := by
  induction members with
  | nil => cases h
  | cons first members ih =>
    obtain ⟨other, others⟩ := first
    rw [writeMembers]
    refine .cons _ ?_
    rcases List.mem_cons.1 h with heq | h
    · cases heq
      exact (sublist_member key value).trans (List.sublist_append_left _ _)
    · exact (ih h).trans (List.sublist_append_right _ _)

theorem sublist_array {item : Value} {items : List Value} (h : item ∈ items) :
    (writeValue item).Sublist (writeValue (.array items)) := by
  cases items with
  | nil => cases h
  | cons first items =>
    rw [writeValue]
    refine (List.Sublist.trans ?_ (List.sublist_append_left _ _)).cons _
    rcases List.mem_cons.1 h with rfl | h
    · exact List.sublist_append_left _ _
    · exact (sublist_writeItems h).trans (List.sublist_append_right _ _)

theorem sublist_object {key : String} {value : Value} {members : List (String × Value)}
    (h : (key, value) ∈ members) : (writeValue value).Sublist (writeValue (.object members)) := by
  rcases members with - | ⟨⟨other, others⟩, members⟩
  · cases h
  · rw [writeValue]
    refine (List.Sublist.trans ?_ (List.sublist_append_left _ _)).cons _
    rcases List.mem_cons.1 h with heq | h
    · cases heq
      exact (sublist_member key value).trans (List.sublist_append_left _ _)
    · exact (sublist_writeMembers h).trans (List.sublist_append_right _ _)

theorem length_le_length_writeItems (items : List Value) :
    items.length ≤ (writeItems items).length := by
  induction items with
  | nil => exact Nat.zero_le _
  | cons item items ih =>
    simp only [writeItems, List.cons_append, List.length_cons, List.length_append]
    omega

theorem length_le_octets_array (items : List Value) :
    items.length ≤ octets (writeValue (.array items)) := by
  refine Nat.le_trans ?_ (length_le_octets _)
  cases items with
  | nil => exact Nat.zero_le _
  | cons item items =>
    have hle := length_le_length_writeItems items
    simp only [writeValue, List.length_cons, List.length_append]
    omega

end PocketShell.Json
