import Mathlib

/-!
# Computations that may fail

What a successful computation in `Except` says about its parts: the bind of two computations, a loop
of checks and a map.
-/

namespace Hypergrid
open List

namespace Checked
universe u v w
variable {ε : Type u} {α β : Type v}

/-- What a computation that succeeds has computed first. -/
theorem bind_ok {x : Except ε α} {f : α → Except ε β} {b : β} (h : (x >>= f) = .ok b) :
    ∃ a, x = .ok a ∧ f a = .ok b := by
  cases x with
  | error e => cases h
  | ok a => exact ⟨a, rfl, h⟩

theorem bind_ok_iff {x : Except ε α} {f : α → Except ε β} {b : β} :
    (x >>= f) = .ok b ↔ ∃ a, x = .ok a ∧ f a = .ok b :=
  ⟨bind_ok, fun ⟨_, hx, h⟩ => hx ▸ h⟩

/-- A mapped result comes from a result. -/
theorem map_ok_iff {x : Except ε α} {f : α → β} {b : β} :
    x.map f = .ok b ↔ ∃ a, x = .ok a ∧ f a = b := by
  cases x with
  | error e => simp [Except.map]
  | ok a => simp [Except.map]

/-- A check that passes. -/
theorem ite_error_ok_iff {p : Prop} [Decidable p] {e : ε} {x : Except ε α} {a : α} :
    (if p then .error e else x) = .ok a ↔ ¬p ∧ x = .ok a := by
  split_ifs with hp
  · simp [hp]
  · simp [hp]

/-- A loop that succeeds has checked every member. -/
theorem forM_ok {γ : Type w} {f : γ → Except ε PUnit} {xs : List γ}
    (h : forM xs f = .ok ⟨⟩) : ∀ x ∈ xs, f x = .ok ⟨⟩ := by
  induction xs with
  | nil => exact fun _ hx => absurd hx not_mem_nil
  | cons x xs ih =>
    rw [forM_cons] at h
    obtain ⟨_, hx, hrest⟩ := bind_ok h
    intro y hy
    rcases mem_cons.mp hy with rfl | hy
    · exact hx
    · exact ih hrest y hy

/-- The results stand at the places of what they were computed from. -/
theorem mapM_ok_places {γ : Type v} {f : γ → Except ε β} {xs : List γ} {ys : List β}
    (h : xs.mapM f = .ok ys) : ys.length = xs.length ∧
      ∀ (n : Nat) (x : γ) (y : β), xs[n]? = some x → ys[n]? = some y → f x = .ok y := by
  induction xs generalizing ys with
  | nil =>
    cases h
    exact ⟨rfl, fun n x y hx => absurd hx (by simp)⟩
  | cons x xs ih =>
    rw [mapM_cons] at h
    obtain ⟨y, hx, hrest⟩ := bind_ok h
    obtain ⟨ys', hxs, hys⟩ := bind_ok hrest
    cases hys
    obtain ⟨hlength, hplaces⟩ := ih hxs
    refine ⟨congrArg (· + 1) hlength, fun n x' y' hx' hy' => ?_⟩
    cases n with
    | zero =>
      cases hx'
      cases hy'
      exact hx
    | succ n => exact hplaces n x' y' hx' hy'

end Checked
end Hypergrid
