import PocketShell.Change
import PocketShell.Proofs.Yields
import Mathlib.Logic.Basic

/-!
# Changes that leave nothing behind

A change is atomic if it leaves the state as it was whenever it fails. A change that only looks at
the state is steady, and one that cannot fail is sure: a change that looks first, and changes the
state last and surely, is atomic. Each of these is kept by sequencing, so that it is read off the
text of a change, and so is what a change keeps whether it fails or not, and what it answers with.
-/

namespace PocketShell.Change

variable {σ τ ε ε' α β : Type} {change : Change σ ε α} {next : α → Change σ ε β} {state : σ}

/-! ## What changes come to -/

@[simp] theorem run_reading (read : σ → Except ε α) :
    (reading read).run state = match read state with
      | .ok value => .ok value state
      | .error fault => .error fault state := rfl

theorem run_within (part : σ → τ) (replace : σ → τ → σ) (change : Change τ ε α) :
    (within part replace change).run state = match change.run (part state) with
      | .ok value changed => .ok value (replace state changed)
      | .error fault changed => .error fault (replace state changed) := rfl

@[simp] theorem result_modify (f : σ → σ) :
    (modify f : Change σ ε PUnit).result state = .ok (f state) := rfl

theorem result_bind :
    (change >>= next).result state = match change.run state with
      | .ok value changed => (next value).result changed
      | .error fault _ => .error fault := by
  rw [result, EStateM.run_bind]
  cases change.run state <;> rfl

@[simp] theorem result_get_bind (next : σ → Change σ ε β) :
    (get >>= next).result state = (next state).result state := rfl

/-- What is read first decides whether a change goes on. -/
@[simp] theorem result_reading_bind (read : σ → Except ε α) :
    (reading read >>= next).result state =
      read state >>= fun value => (next value).result state := by
  rw [result_bind, run_reading]
  cases read state <;> rfl

theorem result_eq_ok {changed : σ} :
    change.result state = .ok changed ↔ ∃ value, change.run state = .ok value changed := by
  rw [result]
  cases change.run state <;> simp

/-! ## Steady changes -/

/-- The change never changes the state. -/
def Steady (change : Change σ ε α) : Prop :=
  ∀ state, change.after state = state

theorem steady_pure (value : α) : Steady (pure value : Change σ ε α) := fun _ => rfl

theorem steady_throw (fault : ε) : Steady (throw fault : Change σ ε α) := fun _ => rfl

theorem steady_get : Steady (get : Change σ ε σ) := fun _ => rfl

theorem steady_reading (read : σ → Except ε α) : Steady (reading read) := by
  intro state
  rw [after, run_reading]
  cases read state <;> rfl

theorem after_bind :
    (change >>= next).after state = match change.run state with
      | .ok value changed => (next value).after changed
      | .error _ changed => changed := by
  rw [after, EStateM.run_bind]
  cases change.run state <;> rfl

theorem after_get_bind (next : σ → Change σ ε β) :
    (get >>= next).after state = (next state).after state := rfl

theorem after_reading_bind (read : σ → Except ε α) :
    (reading read >>= next).after state = match read state with
      | .ok value => (next value).after state
      | .error _ => state := by
  rw [after_bind, run_reading]
  cases read state <;> rfl

/-- Looking again afterwards changes nothing more. -/
theorem after_bind_steady (hnext : ∀ value, Steady (next value)) :
    (change >>= next).after state = change.after state := by
  rw [after_bind, after]
  cases change.run state with
  | ok value changed => exact hnext value changed
  | error fault changed => rfl

/-- The change never changes what `view` shows of the state. -/
def Keeps (view : σ → τ) (change : Change σ ε α) : Prop :=
  ∀ state, view (change.after state) = view state

theorem Steady.keeps (h : Steady change) (view : σ → τ) : Keeps view change :=
  fun state => congrArg view (h state)

theorem Keeps.bind {view : σ → τ} (h : Keeps view change)
    (hnext : ∀ value, Keeps view (next value)) : Keeps view (change >>= next) := by
  intro state
  have hstate := h state
  rw [after] at hstate
  rw [after_bind]
  cases hrun : change.run state with
  | ok value changed =>
    rw [hrun] at hstate
    exact (hnext value changed).trans hstate
  | error fault changed =>
    rw [hrun] at hstate
    exact hstate

theorem Steady.bind (h : Steady change) (hnext : ∀ value, Steady (next value)) :
    Steady (change >>= next) :=
  fun state => (after_bind_steady hnext).trans (h state)

@[simp] theorem after_adaptExcept (word : ε → ε') :
    Change.after (EStateM.adaptExcept word change : Change σ ε' α) state = change.after state := by
  rw [after, EStateM.run_adaptExcept, after]
  cases change.run state <;> rfl

@[simp] theorem after_within (part : σ → τ) (replace : σ → τ → σ) (change : Change τ ε α) :
    (within part replace change).after state = replace state (change.after (part state)) := by
  rw [after, run_within, after]
  cases change.run (part state) <;> rfl

/-! ## Sure changes -/

/-- The change never fails. -/
def Sure (change : Change σ ε α) : Prop :=
  ∀ state, ∃ value changed, change.run state = .ok value changed

theorem sure_pure (value : α) : Sure (pure value : Change σ ε α) :=
  fun state => ⟨value, state, rfl⟩

theorem sure_modify (f : σ → σ) : Sure (modify f : Change σ ε PUnit) :=
  fun state => ⟨⟨⟩, f state, rfl⟩

theorem Sure.bind (h : Sure change) (hnext : ∀ value, Sure (next value)) :
    Sure (change >>= next) := by
  intro state
  obtain ⟨value, changed, hrun⟩ := h state
  rw [EStateM.run_bind, hrun]
  exact hnext value changed

/-! ## Atomic changes -/

/-- The change leaves the state as it was whenever it fails. -/
def Atomic (change : Change σ ε α) : Prop :=
  ∀ state fault left, change.run state = .error fault left → left = state

theorem Steady.atomic (h : Steady change) : Atomic change := by
  intro state fault left hrun
  have hstate := h state
  rw [after, hrun] at hstate
  exact hstate

theorem Sure.atomic (h : Sure change) : Atomic change := by
  intro state fault left hrun
  obtain ⟨value, changed, hok⟩ := h state
  rw [hok] at hrun
  cases hrun

/-- Whoever looks first may fail later. -/
theorem Steady.bind_atomic (h : Steady change) (hnext : ∀ value, Atomic (next value)) :
    Atomic (change >>= next) := by
  intro state fault left hrun
  have hstate := h state
  rw [after] at hstate
  rw [EStateM.run_bind] at hrun
  cases hfirst : change.run state with
  | ok value changed =>
    rw [hfirst] at hrun hstate
    exact (hnext value changed fault left hrun).trans hstate
  | error cause changed =>
    rw [hfirst] at hrun hstate
    cases hrun
    exact hstate

/-- Whoever may have changed something must not fail later. -/
theorem Atomic.bind_sure (h : Atomic change) (hnext : ∀ value, Sure (next value)) :
    Atomic (change >>= next) := by
  intro state fault left hrun
  rw [EStateM.run_bind] at hrun
  cases hfirst : change.run state with
  | ok value changed =>
    obtain ⟨answer, final, hok⟩ := hnext value changed
    rw [hfirst] at hrun
    simp only [hok] at hrun
    cases hrun
  | error cause changed =>
    rw [hfirst] at hrun
    cases hrun
    exact h state _ _ hfirst

theorem Atomic.within {part : σ → τ} {replace : σ → τ → σ} {change : Change τ ε α}
    (h : Atomic change) (hsame : ∀ state, replace state (part state) = state) :
    Atomic (within part replace change) := by
  intro state fault left hrun
  rw [run_within] at hrun
  cases hpart : change.run (part state) with
  | ok value changed =>
    rw [hpart] at hrun
    cases hrun
  | error cause changed =>
    rw [hpart] at hrun
    cases hrun
    rw [h _ _ _ hpart, hsame]

theorem Atomic.adaptExcept (h : Atomic change) (word : ε → ε') :
    Atomic (EStateM.adaptExcept word change : Change σ ε' α) := by
  intro state fault left hrun
  rw [EStateM.run_adaptExcept] at hrun
  cases hchange : change.run state with
  | ok value changed =>
    rw [hchange] at hrun
    cases hrun
  | error cause changed =>
    rw [hchange] at hrun
    cases hrun
    exact h state _ _ hchange

/-- An atomic change that fails might as well not have been tried. -/
theorem Atomic.after_eq (h : Atomic change) :
    change.after state = match change.result state with
      | .ok changed => changed
      | .error _ => state := by
  rw [after, result]
  cases hrun : change.run state with
  | ok value changed => rfl
  | error fault left => exact h state fault left hrun

/-! ## What changes answer with -/

/-- At the state, the change answers with a value that is `good` or fails for a reason that is
`bad`. -/
structure Ends (good : α → Prop) (bad : ε → Prop) (change : Change σ ε α) (state : σ) : Prop where
  of_ok : ∀ {value changed}, change.run state = .ok value changed → good value
  of_error : ∀ {fault left}, change.run state = .error fault left → bad fault

section
variable {good : α → Prop} {bad : ε → Prop}

theorem ends_of_ok {value : α} {changed : σ} (hrun : change.run state = .ok value changed)
    (h : good value) : Ends good bad change state := by
  refine ⟨fun hok => ?_, fun herror => ?_⟩
  · rw [hrun] at hok
    cases hok
    exact h
  · rw [hrun] at herror
    cases herror

theorem ends_of_error {fault : ε} {left : σ} (hrun : change.run state = .error fault left)
    (h : bad fault) : Ends good bad change state := by
  refine ⟨fun hok => ?_, fun herror => ?_⟩
  · rw [hrun] at hok
    cases hok
  · rw [hrun] at herror
    cases herror
    exact h

theorem ends_trivial : Ends (fun _ => True) (fun _ => True) change state :=
  ⟨fun _ => trivial, fun _ => trivial⟩

theorem ends_pure {value : α} (h : good value) :
    Ends good bad (pure value : Change σ ε α) state :=
  ends_of_ok rfl h

theorem ends_throw {fault : ε} (h : bad fault) :
    Ends good bad (throw fault : Change σ ε α) state :=
  ends_of_error rfl h

theorem ends_modify {good : PUnit → Prop} (h : good ⟨⟩) (f : σ → σ) :
    Ends good bad (modify f : Change σ ε PUnit) state :=
  ends_of_ok rfl h

theorem ends_reading {read : σ → Except ε α} (h : Yields good bad (read state)) :
    Ends good bad (reading read) state := by
  cases hread : read state with
  | ok value =>
    rw [hread] at h
    exact ends_of_ok (by rw [run_reading, hread]) h
  | error fault =>
    rw [hread] at h
    exact ends_of_error (by rw [run_reading, hread]) h

theorem ends_get_bind {good : β → Prop} {next : σ → Change σ ε β}
    (h : Ends good bad (next state) state) : Ends good bad (get >>= next) state :=
  ⟨h.of_ok, h.of_error⟩

theorem Ends.mono {good' : α → Prop} {bad' : ε → Prop} (h : Ends good bad change state)
    (hgood : ∀ value, good value → good' value) (hbad : ∀ fault, bad fault → bad' fault) :
    Ends good' bad' change state :=
  ⟨fun hrun => hgood _ (h.of_ok hrun), fun hrun => hbad _ (h.of_error hrun)⟩

theorem Ends.bind {good' : β → Prop} (h : Ends good bad change state)
    (hnext : ∀ value, good value → ∀ state, Ends good' bad (next value) state) :
    Ends good' bad (change >>= next) state := by
  cases hrun : change.run state with
  | ok value changed =>
    have hlater := hnext value (h.of_ok hrun) changed
    cases hlast : (next value).run changed with
    | ok answer final =>
      exact ends_of_ok (by rw [EStateM.run_bind, hrun, ← hlast]) (hlater.of_ok hlast)
    | error fault left =>
      exact ends_of_error (by rw [EStateM.run_bind, hrun, ← hlast]) (hlater.of_error hlast)
  | error fault left => exact ends_of_error (by rw [EStateM.run_bind, hrun]) (h.of_error hrun)

theorem Ends.adaptExcept {bad' : ε' → Prop} {word : ε → ε'}
    (h : Ends good (fun fault => bad' (word fault)) change state) :
    Ends good bad' (EStateM.adaptExcept word change : Change σ ε' α) state := by
  cases hrun : change.run state with
  | ok value changed => exact ends_of_ok (by rw [EStateM.run_adaptExcept, hrun]) (h.of_ok hrun)
  | error fault left =>
    exact ends_of_error (by rw [EStateM.run_adaptExcept, hrun]) (h.of_error hrun)

theorem Ends.within {part : σ → τ} {replace : σ → τ → σ} {change : Change τ ε α}
    (h : Ends good bad change (part state)) : Ends good bad (within part replace change) state := by
  cases hrun : change.run (part state) with
  | ok value changed => exact ends_of_ok (by rw [run_within, hrun]) (h.of_ok hrun)
  | error fault left => exact ends_of_error (by rw [run_within, hrun]) (h.of_error hrun)

end

end PocketShell.Change
