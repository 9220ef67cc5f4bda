import PocketShell.History
import Mathlib.Data.List.Nodup

/-!
# The history is a window on a log

Beside a history stands the log of all that was ever recorded, which forgets nothing, and a position
in it. The history holds the first lines of the log, each where it was recorded last; that it drops
repetitions and old lines each time, and not once at the end, makes no difference. Its cursor is
the position, counted from the line before the most recent one.
-/

namespace PocketShell.History

/-- Something that happens to a history. -/
inductive Event where
  | record (line : String)
  | navigate (direction : Direction)

/-- The history after an event. -/
def after (history : History) : Event → History
  | .record line => history.record line
  | .navigate direction => (history.navigate direction).1

/-- The history after some events, the first of them first. -/
def run (history : History) (events : List Event) : History :=
  events.foldl after history

/-! ## Lines by their last recording -/

/-- Among the recorded lines, the newest first, `line` stands somewhere before all of `other`. -/
def Newer (recorded : List String) (line other : String) : Prop :=
  ∃ later earlier, recorded = later ++ line :: earlier ∧ other ∉ later

/-- The lines are those recorded, each once, the one that was recorded last first. -/
structure ByLastRecording (recorded lines : List String) : Prop where
  nodup : lines.Nodup
  mem_iff : ∀ line, line ∈ lines ↔ line ∈ recorded
  newer : lines.Pairwise (Newer recorded)

/-- The recorded lines, each where it is met first. -/
def distinct : List String → List String
  | [] => []
  | line :: earlier => line :: (distinct earlier).erase line

theorem Newer.cons {recorded : List String} {line other : String} (h : Newer recorded line other)
    {first : String} (hne : first ≠ other) : Newer (first :: recorded) line other := by
  obtain ⟨later, earlier, rfl, hlater⟩ := h
  refine ⟨first :: later, earlier, rfl, ?_⟩
  rw [List.mem_cons]
  rintro (rfl | hmem)
  · exact hne rfl
  · exact hlater hmem

theorem byLastRecording_distinct (recorded : List String) :
    ByLastRecording recorded (distinct recorded) := by
  induction recorded with
  | nil => exact ⟨List.nodup_nil, fun line => Iff.rfl, List.Pairwise.nil⟩
  | cons line earlier ih =>
    have hnot : line ∉ (distinct earlier).erase line := ih.nodup.not_mem_erase
    refine ⟨List.nodup_cons.2 ⟨hnot, ih.nodup.erase line⟩, fun other => ?_, ?_⟩
    · by_cases hother : other = line
      · subst hother
        simp [distinct]
      · rw [distinct, List.mem_cons, List.mem_cons, List.mem_erase_of_ne hother, ih.mem_iff]
    · refine List.pairwise_cons.2 ⟨fun other _ => ⟨[], earlier, rfl, List.not_mem_nil⟩, ?_⟩
      refine (ih.newer.sublist List.erase_sublist).imp_of_mem fun _ hother hnewer => ?_
      exact hnewer.cons fun heq => hnot (heq ▸ hother)

/-- Two lines cannot both be the newer one. -/
theorem Newer.antisymm {recorded : List String} {line other : String}
    (h : Newer recorded line other) (h' : Newer recorded other line) : line = other := by
  obtain ⟨later, earlier, rfl, hlater⟩ := h
  obtain ⟨later', earlier', heq, hlater'⟩ := h'
  rcases List.append_eq_append_iff.1 heq with ⟨between, rfl, hrest⟩ | ⟨between, rfl, hrest⟩
  · cases between with
    | nil => exact (List.cons.inj hrest).1
    | cons first rest =>
      obtain ⟨rfl, -⟩ := List.cons.inj hrest
      simp at hlater'
  · cases between with
    | nil => exact (List.cons.inj hrest).1.symm
    | cons first rest =>
      obtain ⟨rfl, -⟩ := List.cons.inj hrest
      simp at hlater

/-- The order by the last recording leaves no choice. -/
theorem byLastRecording_iff {recorded lines : List String} :
    ByLastRecording recorded lines ↔ lines = distinct recorded := by
  have hdistinct := byLastRecording_distinct recorded
  constructor
  · intro h
    have hperm : lines.Perm (distinct recorded) :=
      (List.perm_ext_iff_of_nodup h.nodup hdistinct.nodup).2 fun line =>
        (h.mem_iff line).trans (hdistinct.mem_iff line).symm
    exact hperm.eq_of_pairwise (fun _ _ _ _ hnewer hother => hnewer.antisymm hother) h.newer
      hdistinct.newer
  · rintro rfl
    exact hdistinct

/-! ## The log -/

/-- All that was recorded, the newest first, and a position: zero before the newest line, and else
the number of the line that is shown. -/
structure Log where
  recorded : List String
  position : Nat

namespace Log

/-- The log before any line. -/
def empty : Log :=
  ⟨[], 0⟩

/-- The lines that a history keeps. -/
def lines (log : Log) : List String :=
  (distinct log.recorded).take limit

/-- The log after an event. -/
def after (log : Log) : Event → Log
  | .record line => ⟨line :: log.recorded, 0⟩
  | .navigate .up => { log with position := min (log.position + 1) log.lines.length }
  | .navigate .down => { log with position := log.position - 1 }

/-- The log after some events, the first of them first. -/
def run (log : Log) (events : List Event) : Log :=
  events.foldl after log

/-- What is shown at a position: nothing if nothing was ever recorded, the empty line at zero, and
else the line of that number, the most recent one being the first. -/
inductive Shows (log : Log) : Option String → Prop
  | nothing : log.recorded = [] → Shows log none
  | blank : log.recorded ≠ [] → log.position = 0 → Shows log (some "")
  | line {index : Nat} {line : String} : log.position = index + 1 →
    log.lines[index]? = some line → Shows log (some line)

theorem lines_eq_nil {log : Log} : log.lines = [] ↔ log.recorded = [] := by
  cases hrecorded : log.recorded <;> simp [lines, distinct, hrecorded, limit]

end Log

/-! ## Steps -/

/-- The cursor at a position. -/
def cursorAt : Nat → Option Nat
  | 0 => none
  | index + 1 => some index

/-- The history keeps the lines of the log, and its cursor stands at the position. -/
structure Follows (log : Log) (history : History) : Prop where
  lines : history.lines = log.lines
  position_le : log.position ≤ log.lines.length
  cursor : history.cursor = cursorAt log.position

/-- A line less does not show in a window that is one line longer. -/
theorem take_erase_take (n : Nat) (line : String) (lines : List String) :
    ((lines.take (n + 1)).erase line).take n = (lines.erase line).take n := by
  induction lines generalizing n with
  | nil => simp
  | cons first rest ih =>
    rw [List.take_succ_cons]
    by_cases hfirst : first = line
    · subst hfirst
      rw [List.erase_cons_head, List.erase_cons_head, List.take_take, Nat.min_self]
    · have hbeq : ¬(first == line) = true := by simpa using hfirst
      rw [List.erase_cons_tail hbeq, List.erase_cons_tail hbeq]
      cases n with
      | zero => rfl
      | succ n => rw [List.take_succ_cons, List.take_succ_cons, ih]

variable {log : Log} {history : History}

theorem Follows.record (h : Follows log history) (line : String) :
    Follows (log.after (.record line)) (history.record line) := by
  have hnodup : log.lines.Nodup :=
    (byLastRecording_distinct log.recorded).nodup.sublist (List.take_sublist ..)
  have hfilter : history.lines.filter (· != line) = log.lines.erase line := by
    rw [h.lines, hnodup.erase_eq_filter]
  refine ⟨?_, Nat.zero_le _, rfl⟩
  rw [History.record, hfilter, Log.after, Log.lines, Log.lines, distinct, limit,
    List.take_succ_cons, List.take_succ_cons, take_erase_take]

theorem moved_up {position : Nat} (hcursor : history.cursor = cursorAt position)
    (hlines : history.lines ≠ []) :
    history.moved .up = cursorAt (min (position + 1) history.lines.length) := by
  obtain ⟨n, hlength⟩ := Nat.exists_eq_add_one.2 (List.length_pos_iff.2 hlines)
  unfold moved
  rw [hcursor, hlength, Nat.add_min_add_right]
  cases position with
  | zero => rw [Nat.zero_min]; rfl
  | succ index => rfl

theorem moved_down {position : Nat} (hcursor : history.cursor = cursorAt position) :
    history.moved .down = cursorAt (position - 1) := by
  unfold moved
  rw [hcursor]
  rcases position with - | - | index <;> rfl

theorem navigate_of_nil (hlines : history.lines = []) (direction : Direction) :
    history.navigate direction = (history, none) := by
  rw [History.navigate, hlines]
  rfl

theorem navigate_of_ne_nil (hlines : history.lines ≠ []) (direction : Direction) :
    history.navigate direction = ({ history with cursor := history.moved direction },
      some (((history.moved direction).bind (history.lines[·]?)).getD "")) := by
  rw [History.navigate, if_neg (by simpa using hlines)]

theorem Follows.navigate (h : Follows log history) (direction : Direction) :
    Follows (log.after (.navigate direction)) (history.navigate direction).1 := by
  by_cases hlines : history.lines = []
  · have hnone : log.lines.length = 0 := by rw [← h.lines, hlines, List.length_nil]
    have hzero : log.position = 0 := Nat.le_zero.1 (hnone ▸ h.position_le)
    rw [navigate_of_nil hlines]
    cases direction with
    | up => exact ⟨h.lines, Nat.min_le_right _ _, by simp [Log.after, hnone, h.cursor, hzero]⟩
    | down => exact ⟨h.lines, by simp [Log.after, hzero], by simp [Log.after, h.cursor, hzero]⟩
  · rw [navigate_of_ne_nil hlines]
    cases direction with
    | up =>
      refine ⟨h.lines, Nat.min_le_right _ _, ?_⟩
      rw [Log.after, ← h.lines]
      exact moved_up h.cursor hlines
    | down => exact ⟨h.lines, Nat.le_trans (Nat.sub_le _ _) h.position_le, moved_down h.cursor⟩

theorem Follows.after (h : Follows log history) (event : Event) :
    Follows (log.after event) (history.after event) := by
  cases event with
  | record line => exact h.record line
  | navigate direction => exact h.navigate direction

theorem Follows.run (h : Follows log history) (events : List Event) :
    Follows (log.run events) (history.run events) := by
  induction events generalizing log history with
  | nil => exact h
  | cons event rest ih => exact ih (h.after event)

/-- A cursor stands at one of the lines. -/
theorem Follows.cursor_lt (h : Follows log history) {index : Nat}
    (hindex : history.cursor = some index) : index < history.lines.length := by
  have hcursor := h.cursor
  have hle := h.position_le
  rw [hindex] at hcursor
  cases hposition : log.position with
  | zero => rw [hposition] at hcursor; cases hcursor
  | succ last =>
    rw [hposition] at hcursor hle
    cases hcursor
    rw [h.lines]
    exact hle

/-- A key shows what stands at the position to which it leads. -/
theorem Follows.shows (h : Follows log history) (direction : Direction) :
    (log.after (.navigate direction)).Shows (history.navigate direction).2 := by
  have hafter := h.navigate direction
  have hrecorded : (log.after (.navigate direction)).recorded = log.recorded := by
    cases direction <;> rfl
  by_cases hlines : history.lines = []
  · rw [navigate_of_nil hlines]
    refine .nothing ?_
    rw [hrecorded, ← Log.lines_eq_nil, ← h.lines, hlines]
  · have hne : (log.after (.navigate direction)).recorded ≠ [] := by
      rw [hrecorded, ne_eq, ← Log.lines_eq_nil, ← h.lines]
      exact hlines
    rw [navigate_of_ne_nil hlines] at hafter ⊢
    have hcursor := hafter.cursor
    dsimp only at hcursor ⊢
    rw [hcursor]
    cases hposition : (log.after (.navigate direction)).position with
    | zero => exact .blank hne hposition
    | succ index =>
      have hlt : index < (log.after (.navigate direction)).lines.length := by
        have hle := hafter.position_le
        omega
      have hline := List.getElem?_eq_getElem hlt
      refine .line hposition ?_
      rw [hline, cursorAt, Option.bind_some, show history.lines = _ from hafter.lines, hline,
        Option.getD_some]

/-! ## Runs -/

/-- What a history shows is what its log says. -/
structure Refines (log : Log) (history : History) : Prop where
  /-- The lines of the log are those recorded, each once, by their last recording. -/
  byLastRecording : ∀ lines, ByLastRecording log.recorded lines ↔ lines = distinct log.recorded
  mostRecentFirst : history.mostRecentFirst = log.lines
  oldestFirst : history.oldestFirst = history.mostRecentFirst.reverse
  position_le : log.position ≤ history.mostRecentFirst.length
  cursor_lt : ∀ index, history.cursor = some index → index < history.mostRecentFirst.length
  /-- A key shows what stands at the position to which it leads. -/
  shows : ∀ direction, (log.after (.navigate direction)).Shows (history.navigate direction).2
  /-- Without any line a key changes nothing. -/
  unmoved : log.recorded = [] → ∀ direction, (history.navigate direction).1 = history

/-- A history that lines were recorded in and keys were pressed at, in any order, shows what the log
of these lines says. -/
theorem refines_run (events : List Event) :
    Refines (Log.empty.run events) (empty.run events) := by
  have hfollows : Follows (Log.empty.run events) (empty.run events) :=
    Follows.run ⟨rfl, Nat.le_refl 0, rfl⟩ events
  refine ⟨fun lines => byLastRecording_iff, hfollows.lines, rfl, ?_, ?_, hfollows.shows, ?_⟩
  · rw [mostRecentFirst, hfollows.lines]
    exact hfollows.position_le
  · exact fun index hindex => hfollows.cursor_lt hindex
  · intro hnone direction
    rw [navigate_of_nil (hfollows.lines.trans (Log.lines_eq_nil.2 hnone))]

/-- A line that is recorded again comes first, and the key up leads to it and then to the other. -/
example : (empty.run [.record "a", .record "b", .record "a", .navigate .up]).navigate .up =
    (⟨["a", "b"], some 1⟩, some "b") := by decide

end PocketShell.History
