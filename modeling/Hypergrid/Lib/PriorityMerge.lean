import Mathlib

/-!
# Sources with priorities

Several lists hold versions of keyed items.  A list has a rank: a version in a list of a higher rank
replaces those of the same key in lists of lower rank, and inside one list a later version replaces
an earlier one.  `Winner pool k x` says that `x` is the version of `k` that is left.

* `winner_dropKey_of_lt` : a key may be dropped from a list when a list of a higher rank has it too;
* `winner_dropKey_of_ne` : dropping a key from a list does not change the winners of other keys;
* `winner_of_only` : a key that one list has alone is won by its newest version there.

`winner_cons_of_lt` adds a list below all others.
-/

namespace Hypergrid
open List Finset

namespace PriorityMerge
universe u v
variable {α : Type u} {κ : Type v} [DecidableEq κ] (key : α → κ)

def versions (k : κ) (l : List α) : List α := l.filter (fun x => key x = k)

def newest (k : κ) (l : List α) : Option α := (versions key k l).getLast?

def dropKey (k : κ) (l : List α) : List α := l.filter (fun x => key x ≠ k)

/-- A list of versions with its rank. -/
structure Source (α : Type u) where
  rank : Nat
  items : List α

/-- The item is the newest version of the key in the list of the highest rank that has
the key. -/
def Winner (pool : List (Source α)) (k : κ) (x : α) : Prop :=
  ∃ p ∈ pool, newest key k p.items = some x ∧
    ∀ p' ∈ pool, (∃ y ∈ p'.items, key y = k) → p'.rank ≤ p.rank

section Newest
variable {key} {k : κ} {l r : List α} {x : α}

theorem mem_versions : x ∈ versions key k l ↔ x ∈ l ∧ key x = k := by
  simp [versions]

theorem versions_filter (chosen : κ → Bool) :
    versions key k (l.filter (fun x => chosen (key x))) =
      if chosen k = true then versions key k l else [] := by
  unfold versions
  rw [List.filter_filter]
  split_ifs with hk
  · refine List.filter_congr ?_
    intro x _
    by_cases hx : key x = k <;> simp [hx, hk]
  · refine filter_eq_nil_iff.mpr ?_
    intro x _
    by_cases hx : key x = k <;> simp [hx, hk]

theorem mem_of_newest (h : newest key k l = some x) : x ∈ l ∧ key x = k :=
  mem_versions.mp (mem_of_getLast? h)

theorem newest_isSome_iff : (newest key k l).isSome = true ↔ ∃ y ∈ l, key y = k := by
  rw [newest, getLast?_isSome]
  constructor
  · intro h
    obtain ⟨y, hy⟩ := exists_mem_of_ne_nil _ h
    exact ⟨y, mem_versions.mp hy⟩
  · rintro ⟨y, hy⟩ hnil
    have hmem : y ∈ versions key k l := mem_versions.mpr hy
    rw [hnil] at hmem
    simp at hmem

theorem newest_append : newest key k (l ++ r) = (newest key k r).or (newest key k l) := by
  simp only [newest, versions, filter_append, getLast?_append]

theorem newest_eq_none_iff : newest key k l = none ↔ ∀ y ∈ l, key y ≠ k := by
  rw [← Option.not_isSome_iff_eq_none, newest_isSome_iff]
  push Not
  rfl

theorem mem_dropKey : x ∈ dropKey key k l ↔ x ∈ l ∧ key x ≠ k := by
  simp [dropKey]

theorem newest_dropKey_of_ne {k' : κ} (h : k' ≠ k) :
    newest key k' (dropKey key k l) = newest key k' l := by
  unfold newest versions dropKey
  rw [List.filter_filter]
  congr 1
  apply List.filter_congr
  intro y _
  by_cases hy : key y = k'
  · simp [hy, h]
  · simp [hy]

end Newest

section Pool
variable {key} {k k' : κ} {p : Source α} {pool pool' : List (Source α)} {x : α}

theorem winner_congr (h : ∀ p, p ∈ pool ↔ p ∈ pool') :
    Winner key pool k x ↔ Winner key pool' k x := by
  unfold Winner
  simp only [h]

/-- A list takes no part when a list of a higher rank has the key too. -/
theorem winner_cons_of_outranked (hout : (∃ y ∈ p.items, key y = k) →
      ∃ q ∈ pool, p.rank < q.rank ∧ ∃ y ∈ q.items, key y = k) :
    Winner key (p :: pool) k x ↔ Winner key pool k x := by
  constructor
  · rintro ⟨r, hr, hnew, hmax⟩
    rcases mem_cons.mp hr with rfl | hr
    · obtain ⟨q, hq, hlt, hqk⟩ := hout ⟨x, mem_of_newest hnew⟩
      exact absurd (hmax q (mem_cons_of_mem _ hq) hqk) (not_le.mpr hlt)
    · exact ⟨r, hr, hnew, fun s hs => hmax s (mem_cons_of_mem _ hs)⟩
  · rintro ⟨r, hr, hnew, hmax⟩
    refine ⟨r, mem_cons_of_mem _ hr, hnew, fun s hs hsk => ?_⟩
    rcases mem_cons.mp hs with rfl | hs
    · obtain ⟨q, hq, hlt, hqk⟩ := hout hsk
      exact (le_of_lt hlt).trans (hmax q hq hqk)
    · exact hmax s hs hsk

theorem winner_cons_nil (hnil : p.items = []) : Winner key (p :: pool) k x ↔ Winner key pool k x :=
  winner_cons_of_outranked fun ⟨_, hy, _⟩ => absurd (hnil ▸ hy) not_mem_nil

theorem winner_dropKey_of_ne (hk : k' ≠ k) :
    Winner key ({ p with items := dropKey key k p.items } :: pool) k' x ↔
      Winner key (p :: pool) k' x := by
  have hhas (l : List α) : (∃ y ∈ dropKey key k l, key y = k') ↔ ∃ y ∈ l, key y = k' := by
    rw [← newest_isSome_iff, newest_dropKey_of_ne hk, newest_isSome_iff]
  unfold Winner
  simp only [List.mem_cons, exists_eq_or_imp, forall_eq_or_imp, newest_dropKey_of_ne hk, hhas]

theorem winner_dropKey_of_lt {q : Source α} (hq : q ∈ pool) (hlt : p.rank < q.rank)
    (hqk : ∃ y ∈ q.items, key y = k) :
    Winner key ({ p with items := dropKey key k p.items } :: pool) k' x ↔
      Winner key (p :: pool) k' x := by
  by_cases hk : k' = k
  · subst hk
    rw [winner_cons_of_outranked fun _ => ⟨q, hq, hlt, hqk⟩]
    refine winner_cons_of_outranked ?_
    rintro ⟨y, hy, hyk⟩
    exact absurd hyk (mem_dropKey.mp hy).2
  · exact winner_dropKey_of_ne hk

theorem winner_of_only (honly : ∀ q ∈ pool, ∀ y ∈ q.items, key y ≠ k) :
    Winner key (p :: pool) k x ↔ newest key k p.items = some x := by
  constructor
  · rintro ⟨q, hq, hnew, _⟩
    rcases mem_cons.mp hq with rfl | hq
    · exact hnew
    · obtain ⟨hx, hxk⟩ := mem_of_newest hnew
      exact absurd hxk (honly q hq x hx)
  · intro hnew
    refine ⟨p, mem_cons_self, hnew, ?_⟩
    rintro q hq ⟨y, hy, hyk⟩
    rcases mem_cons.mp hq with rfl | hq
    · exact le_refl _
    · exact absurd hyk (honly q hq y hy)

end Pool

section Lowest
variable {key} {k : κ} {x : α} {p : Source α} {pool : List (Source α)}

theorem exists_winner (hhas : ∃ q ∈ pool, ∃ y ∈ q.items, key y = k) : ∃ y, Winner key pool k y := by
  have hfinite : {q | q ∈ pool ∧ ∃ y ∈ q.items, key y = k}.Finite :=
    pool.finite_toSet.subset (fun _ hq => hq.1)
  obtain ⟨q, ⟨hq, hqk⟩, hmax⟩ := Set.exists_max_image _ Source.rank hfinite hhas
  obtain ⟨y, hy⟩ := Option.isSome_iff_exists.mp (newest_isSome_iff.mpr hqk)
  exact ⟨y, q, hq, hy, fun q' hq' hk => hmax q' ⟨hq', hk⟩⟩

/-- If the winners of a pool are the newest versions of a list, a source that ranks below
the pool comes before that list. -/
theorem winner_cons_of_lt {l : List α} (hlt : ∀ q ∈ pool, p.rank < q.rank)
    (hpool : ∀ y, Winner key pool k y ↔ newest key k l = some y) :
    Winner key (p :: pool) k x ↔ newest key k (p.items ++ l) = some x := by
  rw [newest_append]
  cases hl : newest key k l with
  | none =>
    -- the key is in no list of the pool, or one of its versions would win
    have hno : ∀ q ∈ pool, ∀ y ∈ q.items, key y ≠ k := by
      intro q hq y hy hyk
      obtain ⟨z, hz⟩ := exists_winner ⟨q, hq, y, hy, hyk⟩
      rw [hpool, hl] at hz
      cases hz
    exact winner_of_only hno
  | some z =>
    rw [Option.some_or, ← hl, ← hpool]
    obtain ⟨q, hq, hnew, _⟩ := (hpool z).mpr hl
    exact winner_cons_of_outranked fun _ => ⟨q, hq, hlt q hq, z, mem_of_newest hnew⟩

end Lowest

variable {key} {l : List α}

theorem versions_eq_newest {items : List α} (hnodup : (items.map key).Nodup)
    (hmem : ∀ y, y ∈ items ↔ newest key (key y) l = some y) (k : κ) :
    versions key k items = (newest key k l).toList := by
  have hin (y : α) : y ∈ versions key k items ↔ newest key k l = some y := by
    rw [mem_versions, hmem]
    constructor
    · rintro ⟨hy, rfl⟩
      exact hy
    · intro hy
      obtain ⟨_, rfl⟩ := mem_of_newest hy
      exact ⟨hy, rfl⟩
  cases hnew : newest key k l with
  | none =>
    refine eq_nil_iff_forall_not_mem.mpr ?_
    intro y hy
    rw [hin, hnew] at hy
    cases hy
  | some z =>
    refine perm_singleton.mp ?_
    refine (perm_ext_iff_of_nodup (hnodup.of_map.filter _) (nodup_singleton z)).mpr ?_
    intro y
    rw [← versions, hin, hnew, Option.some.injEq, List.mem_singleton]
    exact eq_comm

variable [Fintype κ]

theorem sum_map_eq_sum_versions (f : α → Nat) (l : List α) :
    (l.map f).sum = ∑ k, ((versions key k l).map f).sum := by
  induction l with
  | nil => simp [versions]
  | cons x l ih =>
    have hcons (k : κ) : ((versions key k (x :: l)).map f).sum =
        (if k = key x then f x else 0) + ((versions key k l).map f).sum := by
      by_cases hk : k = key x
      · simp [versions, hk]
      · simp [versions, hk, Ne.symm hk]
    simp only [hcons, Finset.sum_add_distrib, Finset.sum_ite_eq', Finset.mem_univ, if_true,
      List.map_cons, List.sum_cons, ih]

theorem sum_filter_eq_sum_versions (f : α → Nat) (chosen : κ → Bool) (l : List α) :
    ((l.filter (fun x => chosen (key x))).map f).sum =
      ∑ k with chosen k = true, ((versions key k l).map f).sum := by
  rw [@sum_map_eq_sum_versions _ _ _ key, sum_filter]
  refine sum_congr rfl ?_
  intro k _
  rw [versions_filter]
  split_ifs <;> simp

end PriorityMerge
end Hypergrid
