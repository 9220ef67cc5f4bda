/-!
# Changes in place

A change works on a state in place, and answers with a value or fails. Nothing is taken back when it
fails: what it has done to the state by then stays done.
-/

namespace PocketShell

/-- Something that changes a state in place, and may fail. -/
abbrev Change (σ ε α : Type) : Type :=
  EStateM ε σ α

namespace Change

variable {σ τ ε α : Type}

/-- What looking at the state comes to. -/
def reading (read : σ → Except ε α) : Change σ ε α := fun state =>
  match read state with
  | .ok value => .ok value state
  | .error fault => .error fault state

/-- A change of a part of the state. -/
def within (part : σ → τ) (replace : σ → τ → σ) (change : Change τ ε α) : Change σ ε α :=
  fun state =>
    match change.run (part state) with
    | .ok value changed => .ok value (replace state changed)
    | .error fault changed => .error fault (replace state changed)

/-- The state after a change, whether it fails or not. -/
def after (change : Change σ ε α) (state : σ) : σ :=
  match change.run state with
  | .ok _ changed => changed
  | .error _ changed => changed

/-- The state after a change, unless it fails. -/
def result (change : Change σ ε α) (state : σ) : Except ε σ :=
  match change.run state with
  | .ok _ changed => .ok changed
  | .error fault _ => .error fault

end Change

end PocketShell
