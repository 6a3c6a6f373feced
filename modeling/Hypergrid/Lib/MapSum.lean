import Mathlib

/-!
# Sums over association lists

The sum of a weight over the entries of a finite map, and what inserting, erasing and
removing all entries with a property do to it.
-/

namespace Hypergrid
open List

namespace MapSum
universe u v
variable {α : Type u} [DecidableEq α] {β : Type v}
variable (f : α → β → Nat)

/-- The sum of a weight over the entries of a map. -/
def total (f : β → Nat) (s : AList (fun _ : α => β)) : Nat :=
  (s.entries.map (fun e => f e.2)).sum

/-- The weight of the entry at a key. -/
def weightAt (f : β → Nat) (s : AList (fun _ : α => β)) (k : α) : Nat :=
  ((s.lookup k).map f).getD 0

/-- The entries without those that have a property. -/
def retain (p : α → Bool) (s : AList (fun _ : α => β)) : AList (fun _ : α => β) :=
  ⟨s.entries.filter (fun e => p e.1), s.nodupKeys.sublist List.filter_sublist⟩

variable (s : AList (fun _ : α => β))

/-- The sum of a weight that depends on the key as well. -/
def weigh : Nat :=
  (s.entries.map (fun e => f e.1 e.2)).sum

/-- The weight of the entry at a key, for a weight that depends on the key. -/
def weighAt (k : α) : Nat :=
  ((s.lookup k).map (f k)).getD 0

theorem sum_kerase (k : α) (es : List ((_ : α) × β)) :
    ((es.kerase k).map (fun e => f e.1 e.2)).sum + ((es.dlookup k).map (f k)).getD 0 =
      (es.map (fun e => f e.1 e.2)).sum := by
  induction es with
  | nil => rfl
  | cons e es ih =>
    obtain ⟨k', v⟩ := e
    by_cases hk : k = k'
    · have herase : kerase k (⟨k', v⟩ :: es) = es := kerase_cons_eq hk
      subst hk
      rw [herase, dlookup_cons_eq]
      simp only [Option.map_some, Option.getD_some, map_cons, sum_cons]
      omega
    · rw [kerase_cons_ne hk, dlookup_cons_ne _ _ hk]
      simp only [map_cons, sum_cons]
      omega

theorem weigh_erase (k : α) : weigh f (s.erase k) + weighAt f s k = weigh f s :=
  sum_kerase f k s.entries

theorem weigh_insert (k : α) (v : β) :
    weigh f (s.insert k v) + weighAt f s k = weigh f s + f k v := by
  have hcons : weigh f (s.insert k v) = f k v + weigh f (s.erase k) := rfl
  have herase := weigh_erase f s k
  omega

theorem weigh_congr {f g : α → β → Nat} {s : AList (fun _ : α => β)}
    (h : ∀ k v, s.lookup k = some v → f k v = g k v) : weigh f s = weigh g s := by
  refine congrArg sum (map_congr_left fun e he => ?_)
  exact h e.1 e.2 (Option.mem_def.mp (AList.mem_lookup_iff.mpr he))

omit [DecidableEq α] in
theorem weigh_add (f g : α → β → Nat) (s : AList (fun _ : α => β)) :
    weigh (fun k v => f k v + g k v) s = weigh f s + weigh g s :=
  sum_map_add

omit [DecidableEq α] in
theorem weigh_sum {γ : Type u} (f : γ → α → β → Nat) (s : AList (fun _ : α => β)) (l : List γ) :
    weigh (fun k v => (l.map (fun c => f c k v)).sum) s = (l.map (fun c => weigh (f c) s)).sum := by
  induction l with
  | nil => simp [weigh]
  | cons c l ih =>
    simp only [map_cons, sum_cons]
    rw [weigh_add, ih]

theorem weigh_single (k : α) :
    weigh (fun k' v => if k' = k then f k' v else 0) s = weighAt f s k := by
  have hzero : weigh (fun k' v => if k' = k then f k' v else 0) (s.erase k) = 0 := by
    refine sum_eq_zero fun n hn => ?_
    obtain ⟨⟨k', v⟩, he, rfl⟩ := mem_map.mp hn
    have hne : k' ≠ k := by
      rintro rfl
      exact (AList.mem_erase.mp (AList.mem_keys.mpr (mem_map_of_mem he))).1 rfl
    exact if_neg hne
  rw [← weigh_erase _ s k, hzero, Nat.zero_add]
  unfold weighAt
  simp

theorem weigh_split (k : α) :
    weigh f s = weigh (fun k' v => if k' = k then 0 else f k' v) s + weighAt f s k := by
  rw [← weigh_single, ← weigh_add]
  refine weigh_congr fun k' v _ => ?_
  split_ifs <;> simp

theorem total_erase (f : β → Nat) (s : AList (fun _ : α => β)) (k : α) :
    total f (s.erase k) + weightAt f s k = total f s :=
  weigh_erase (fun _ => f) s k

theorem total_insert (f : β → Nat) (s : AList (fun _ : α => β)) (k : α) (v : β) :
    total f (s.insert k v) + weightAt f s k = total f s + f v :=
  weigh_insert (fun _ => f) s k v

theorem weightAt_le (f : β → Nat) (s : AList (fun _ : α => β)) (k : α) :
    weightAt f s k ≤ total f s := by
  have herase := total_erase f s k
  omega

omit [DecidableEq α] in
theorem total_retain (f : β → Nat) (p : α → Bool) (s : AList (fun _ : α => β)) :
    total f (retain p s) +
        ((s.entries.filter (fun e => !p e.1)).map (fun e => f e.2)).sum = total f s := by
  have hperm := (filter_append_perm (fun e : (_ : α) × β => p e.1) s.entries).map
    (fun e => f e.2)
  have hsum := hperm.sum_eq
  rw [map_append, sum_append] at hsum
  exact hsum

end MapSum
end Hypergrid
