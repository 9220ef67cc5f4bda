/-!
# What a computation that may fail comes to

An outcome is described from both sides at once: what holds of a result, and what holds of a fault.
A loop keeps an invariant on its results, and every step of it that fails does so for the reason
given for the whole loop.
-/

namespace PocketShell

variable {α β ε : Type} {good : α → Prop} {bad : ε → Prop}

/-- The computation gives a result with `good` or fails with a fault that is `bad`. -/
def Yields (good : α → Prop) (bad : ε → Prop) : Except ε α → Prop
  | .ok a => good a
  | .error e => bad e

theorem Yields.mono {good' : α → Prop} {bad' : ε → Prop} {x : Except ε α} (h : Yields good bad x)
    (hgood : ∀ a, good a → good' a) (hbad : ∀ e, bad e → bad' e) : Yields good' bad' x := by
  cases x with
  | ok a => exact hgood a h
  | error e => exact hbad e h

theorem Yields.bind {good' : β → Prop} {x : Except ε α} {f : α → Except ε β}
    (h : Yields good bad x) (hf : ∀ a, good a → Yields good' bad (f a)) :
    Yields good' bad (x >>= f) := by
  cases x with
  | ok a => exact hf a h
  | error e => exact h

@[simp] theorem throw_eq_error (e : ε) : (throw e : Except ε α) = .error e := rfl

@[simp] theorem pure_eq_ok {a b : α} : (pure a : Except ε α) = .ok b ↔ a = b := by
  simp [pure, Except.pure]

/-- Two computations one after another give a result when both do. -/
theorem bind_eq_ok {x : Except ε α} {f : α → Except ε β} {b : β} :
    (x >>= f) = .ok b ↔ ∃ a, x = .ok a ∧ f a = .ok b := by
  cases x with
  | ok a =>
    constructor
    · intro h; exact ⟨a, rfl, h⟩
    · rintro ⟨_, ha, h⟩; cases ha; exact h
  | error e =>
    constructor
    · intro h; cases h
    · rintro ⟨_, ha, -⟩; cases ha

/-- From left to right, with an invariant on what has been passed. -/
theorem Yields.foldlM {f : α → β → Except ε α} {xs : List β} {start : α}
    (inv : List β → α → Prop) (hstart : inv [] start)
    (hstep : ∀ done x rest a, xs = done ++ x :: rest → inv done a →
      Yields (inv (done ++ [x])) bad (f a x)) :
    Yields (inv xs) bad (xs.foldlM f start) := by
  suffices ∀ rest done a, xs = done ++ rest → inv done a →
      Yields (inv xs) bad (rest.foldlM f a) from this xs [] start rfl hstart
  intro rest
  induction rest with
  | nil =>
    intro done a hxs ha
    rw [hxs, List.append_nil]
    exact ha
  | cons x rest ih =>
    intro done a hxs ha
    rw [List.foldlM_cons]
    exact (hstep done x rest a hxs ha).bind fun a' ha' => ih (done ++ [x]) a' (by simp [hxs]) ha'

/-- Down from `n` to zero, with an invariant on the number of steps that are left. -/
theorem Yields.foldrM_range {f : Nat → α → Except ε α} {n : Nat} {start : α}
    (inv : Nat → α → Prop) (hstart : inv n start)
    (hstep : ∀ k a, k < n → inv (k + 1) a → Yields (inv k) bad (f k a)) :
    Yields (inv 0) bad ((List.range n).foldrM f start) := by
  induction n generalizing start with
  | zero => exact hstart
  | succ n ih =>
    have hlast : ((List.range (n + 1)).foldrM f start) =
        f n start >>= fun a => (List.range n).foldrM f a := by
      simp [List.range_succ, List.foldrM_append]
    rw [hlast]
    exact (hstep n start (by omega) hstart).bind fun a ha =>
      ih ha fun k b hk hb => hstep k b (by omega) hb

theorem Yields.mapM {f : β → Except ε α} {g : β → α} {p : β → Prop} {xs : List β}
    (h : ∀ x ∈ xs, Yields (fun a => a = g x ∧ p x) bad (f x)) :
    Yields (fun ys => ys = xs.map g ∧ ∀ x ∈ xs, p x) bad (xs.mapM f) := by
  induction xs with
  | nil => exact ⟨rfl, by simp⟩
  | cons x xs ih =>
    rw [List.mapM_cons]
    refine (h x (by simp)).bind fun y hy => ?_
    refine (ih fun z hz => h z (List.mem_cons_of_mem _ hz)).bind fun ys hys => ?_
    refine ⟨by rw [hy.1, hys.1]; rfl, ?_⟩
    intro z hz
    rcases List.mem_cons.1 hz with rfl | hz
    · exact hy.2
    · exact hys.2 z hz

/-- A list of computations fails where one of them does. -/
theorem exists_of_mapM_eq_error {f : β → Except ε α} {xs : List β} {e : ε}
    (h : xs.mapM f = .error e) : ∃ x ∈ xs, f x = .error e := by
  induction xs with
  | nil => cases h
  | cons x rest ih =>
    rw [List.mapM_cons] at h
    cases hx : f x with
    | error fault =>
      rw [hx] at h
      cases h
      exact ⟨x, List.mem_cons_self, hx⟩
    | ok a =>
      cases hrest : rest.mapM f with
      | error fault =>
        rw [hx, hrest] at h
        cases h
        obtain ⟨y, hy, hfails⟩ := ih hrest
        exact ⟨y, List.mem_cons_of_mem _ hy, hfails⟩
      | ok values =>
        rw [hx, hrest] at h
        cases h

/-! ## Lists of optional values -/

section
variable {f : β → Option α} {xs : List β} {ys : List α}

theorem mapM_eq_none_iff : xs.mapM f = none ↔ ∃ x ∈ xs, f x = none := by
  induction xs with
  | nil => simp
  | cons x rest ih =>
    rw [List.mapM_cons]
    cases hx : f x with
    | none => simp [hx]
    | some y =>
      have hrest : (∃ z ∈ x :: rest, f z = none) ↔ rest.mapM f = none := by simp [hx, ih]
      rw [hrest]
      cases rest.mapM f <;> simp

/-- Each value comes from one of the list. -/
theorem mem_iff_of_mapM (h : xs.mapM f = some ys) {y : α} : y ∈ ys ↔ ∃ x ∈ xs, f x = some y := by
  induction xs generalizing ys with
  | nil =>
    cases h
    simp
  | cons x rest ih =>
    simp only [List.mapM_cons, bind, pure, Option.bind_eq_some_iff, Option.some.injEq] at h
    obtain ⟨first, hfirst, others, hothers, rfl⟩ := h
    simp [ih hothers, hfirst, eq_comm]

end

end PocketShell
