import PocketShell.Proofs.Change

/-!
# Changes seen through a view

A view of the state leaves out some of it. A change is mirrored by one of the views when it makes no
difference whether the state is changed and then viewed, or viewed and then changed, and when the
answer of the one can be told from that of the other. Whatever a view leaves out plays no part in a
change that is mirrored.
-/

namespace PocketShell.Change

variable {σ τ σ' τ' ε ε' α β γ δ : Type} {view : σ → τ} {answer : α → β}
  {change : Change σ ε α} {image : Change τ ε β} {state : σ}

/-- A result, with its state viewed and its value turned into an answer. -/
def translate (view : σ → τ) (answer : α → β) : EStateM.Result ε σ α → EStateM.Result ε τ β
  | .ok value state => .ok (answer value) (view state)
  | .error fault state => .error fault (view state)

/-- At the state, `image` does to the view what `change` does to the state. -/
def Mirrors (view : σ → τ) (answer : α → β) (change : Change σ ε α) (image : Change τ ε β)
    (state : σ) : Prop :=
  image.run (view state) = translate view answer (change.run state)

theorem mirrors_pure (value : α) :
    Mirrors view answer (pure value : Change σ ε α) (pure (answer value)) state := rfl

theorem mirrors_throw (fault : ε) :
    Mirrors view answer (throw fault : Change σ ε α) (throw fault) state := rfl

theorem mirrors_modify {f : σ → σ} {g : τ → τ} (h : g (view state) = view (f state)) :
    Mirrors view id (modify f : Change σ ε PUnit) (modify g) state :=
  congrArg (EStateM.Result.ok PUnit.unit) h

theorem mirrors_reading {read : σ → Except ε α} {other : τ → Except ε β}
    (h : other (view state) = answer <$> read state) :
    Mirrors view answer (reading read) (reading other) state := by
  rw [Mirrors, run_reading, run_reading, h]
  cases read state <;> rfl

theorem mirrors_get_bind {next : σ → Change σ ε α} {other : τ → Change τ ε β}
    (h : Mirrors view answer (next state) (other (view state)) state) :
    Mirrors view answer (get >>= next) (get >>= other) state := h

theorem Mirrors.bind {answer' : γ → δ} {next : α → Change σ ε γ} {other : β → Change τ ε δ}
    (h : Mirrors view answer change image state)
    (hnext : ∀ value changed, Mirrors view answer' (next value) (other (answer value)) changed) :
    Mirrors view answer' (change >>= next) (image >>= other) state := by
  rw [Mirrors] at h ⊢
  rw [EStateM.run_bind, EStateM.run_bind, h]
  cases change.run state with
  | ok value changed => exact hnext value changed
  | error fault left => rfl

theorem Mirrors.adaptExcept (h : Mirrors view answer change image state) (word : ε → ε') :
    Mirrors view answer (EStateM.adaptExcept word change : Change σ ε' α)
      (EStateM.adaptExcept word image) state := by
  rw [Mirrors] at h ⊢
  rw [EStateM.run_adaptExcept, EStateM.run_adaptExcept, h]
  cases change.run state <;> rfl

/-- A change of a part of the state, of which there is a view as well. -/
theorem Mirrors.within {outer : σ' → τ'} {part : σ' → σ} {replace : σ' → σ → σ'}
    {part' : τ' → τ} {replace' : τ' → τ → τ'} {whole : σ'}
    (h : Mirrors view answer change image (part whole))
    (hpart : part' (outer whole) = view (part whole))
    (hreplace : ∀ changed, replace' (outer whole) (view changed) = outer (replace whole changed)) :
    Mirrors outer answer (within part replace change) (within part' replace' image) whole := by
  rw [Mirrors] at h ⊢
  rw [run_within, run_within, hpart, h]
  cases change.run (part whole) with
  | ok value changed => exact congrArg (EStateM.Result.ok _) (hreplace changed)
  | error fault left => exact congrArg (EStateM.Result.error _) (hreplace left)

/-- The view of what is left of a change is what is left of its image. -/
theorem Mirrors.after (h : Mirrors view answer change image state) :
    image.after (view state) = view (change.after state) := by
  rw [Change.after, h, Change.after]
  cases change.run state <;> rfl

end PocketShell.Change
