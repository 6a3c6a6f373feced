import Mathlib

/-!
# A loop that updates a map point by point

A loop visits points of a map in some order and replaces the value at each point by a function of
that value, which may fail.  Over distinct points the order does not matter.

* `visit_apply` : the value at every point after the loop.
* `visit_isSome_iff` : the loop fails exactly if it fails at some point.
-/

namespace Hypergrid
open List Function Option

namespace PointUpdate
universe u v
variable {ι : Type u} {α : Type v} [DecidableEq ι] (f : ι → α → Option α)

/-- The loop. -/
def visit : List ι → (ι → α) → Option (ι → α)
  | [], m => some m
  | i :: order, m => (f i (m i)).bind (fun a => visit order (Function.update m i a))

variable {f}

theorem visit_apply {order : List ι} (hnodup : order.Nodup) {m m' : ι → α}
    (h : visit f order m = some m') (j : ι) :
    if j ∈ order then f j (m j) = some (m' j) else m' j = m j := by
  induction order generalizing m with
  | nil =>
    simp only [visit, some.injEq] at h
    simp [h]
  | cons i order ih =>
    obtain ⟨hi, hnodup⟩ := nodup_cons.mp hnodup
    obtain ⟨a, ha, hrest⟩ := bind_eq_some_iff.mp h
    have hj := ih hnodup hrest
    by_cases hij : j = i
    · subst hij
      rw [if_neg hi, update_self] at hj
      rw [if_pos mem_cons_self, ha, hj]
    · rw [update_of_ne hij] at hj
      simp only [mem_cons, hij, false_or]
      exact hj

theorem visit_isSome_iff {order : List ι} (hnodup : order.Nodup) {m : ι → α} :
    (visit f order m).isSome = true ↔ ∀ i ∈ order, (f i (m i)).isSome = true := by
  induction order generalizing m with
  | nil => simp [visit]
  | cons i order ih =>
    obtain ⟨hi, hnodup⟩ := nodup_cons.mp hnodup
    rw [visit, forall_mem_cons]
    cases ha : f i (m i) with
    | none => simp
    | some a =>
      rw [bind_some, ih hnodup]
      simp only [isSome_some, true_and]
      refine forall₂_congr fun j hj => ?_
      have hji : j ≠ i := fun hji => hi (hji ▸ hj)
      rw [update_of_ne hji]

end PointUpdate
end Hypergrid
