import Mathlib

/-!
# Closing a set by a worklist

A worklist keeps a set of visited nodes and a set of pending ones.  A round takes any pending
node; if it is new, it is visited, and those of its successors that are not visited yet become
pending.  The visit of a node may change a state and may fail.

* `run_spec` : with enough fuel, the worklist ends with the least closed set that contains the
  nodes it started from, whatever node each round takes.
* `selfContained_iff` : on a bipartite graph of keys and stores, the keys that the least closed
  set does not touch are the greatest set of keys that are not blocked and that share stores
  only among themselves.
-/

namespace Hypergrid
open Finset

namespace Worklist
universe u v w
variable {α : Type u} {σ : Type v}

def run [DecidableEq α] (next : Finset α → α) (visit : σ → α → Option (σ × Finset α)) :
    Nat → σ → Finset α → Finset α → Option (σ × Finset α)
  | 0, s, visited, pending => if pending = ∅ then some (s, visited) else none
  | fuel + 1, s, visited, pending =>
    if pending = ∅ then some (s, visited)
    else
      let x := next pending
      let pending := pending.erase x
      if x ∈ visited then run next visit fuel s visited pending
      else do
        let (s, succ) ← visit s x
        run next visit fuel s (insert x visited) (pending ∪ (succ \ insert x visited))

/-- The set contains the successors of its members. -/
def Closed (succ : α → Finset α) (W : Set α) : Prop := ∀ x ∈ W, ∀ y ∈ succ x, y ∈ W

/-- The least closed set that contains the nodes of `P`. -/
structure LeastClosed (succ : α → Finset α) (P : α → Prop) (V : Finset α) : Prop where
  start : ∀ x, P x → x ∈ V
  closed : ∀ x ∈ V, ∀ y ∈ succ x, y ∈ V
  least : ∀ W : Set α, Closed succ W → (∀ x, P x → x ∈ W) → ∀ x ∈ V, x ∈ W

theorem LeastClosed.empty (succ : α → Finset α) : LeastClosed succ (fun _ => False) ∅ where
  start := fun _ h => h.elim
  closed := fun _ h => absurd h (notMem_empty _)
  least := fun _ _ _ _ h => absurd h (notMem_empty _)

theorem LeastClosed.congr {succ : α → Finset α} {P Q : α → Prop} {V : Finset α}
    (h : LeastClosed succ P V) (hPQ : ∀ x, P x ↔ Q x) : LeastClosed succ Q V where
  start := fun x hx => h.start x ((hPQ x).mpr hx)
  closed := h.closed
  least := fun W hW hQ => h.least W hW (fun x hx => hQ x ((hPQ x).mp hx))

theorem LeastClosed.or_of_subset {succ : α → Finset α} {P Q : α → Prop} {V : Finset α}
    (h : LeastClosed succ P V) (hQ : ∀ x, Q x → x ∈ V) :
    LeastClosed succ (fun x => P x ∨ Q x) V where
  start := fun x hx => hx.elim (h.start x) (hQ x)
  closed := h.closed
  least := fun W hW hPQ => h.least W hW (fun x hx => hPQ x (.inl hx))

section Run
variable [DecidableEq α] {next : Finset α → α} {visit : σ → α → Option (σ × Finset α)}
  {succ : α → Finset α} {Inv : Finset α → σ → Prop} {U : Finset α}
variable {visited pending : Finset α} {P : α → Prop}

/-- What holds between two rounds: visited and pending nodes are reached from the start, and
the successors of the visited ones are visited or pending. -/
structure Between (succ : α → Finset α) (P : α → Prop) (U visited pending : Finset α) :
    Prop where
  inside : ∀ x, x ∈ visited ∨ x ∈ pending → x ∈ U
  fresh : ∀ x ∈ pending, x ∉ visited
  start : ∀ x, P x → x ∈ visited ∨ x ∈ pending
  closed : ∀ x ∈ visited, ∀ y ∈ succ x, y ∈ visited ∨ y ∈ pending
  least : ∀ W : Set α, Closed succ W → (∀ x, P x → x ∈ W) →
    ∀ x, x ∈ visited ∨ x ∈ pending → x ∈ W

theorem Between.step {x : α} (hsucc : ∀ x ∈ U, succ x ⊆ U) (h : Between succ P U visited pending)
    (hx : x ∈ pending) :
    Between succ P U (insert x visited)
      (pending.erase x ∪ (succ x \ insert x visited)) := by
  have hin : ∀ y, y ∈ visited ∨ y ∈ pending →
      y ∈ insert x visited ∨ y ∈ pending.erase x ∪ (succ x \ insert x visited) := by
    intro y hy
    rw [mem_union, mem_insert, mem_erase]
    tauto
  have hnew : ∀ y ∈ succ x,
      y ∈ insert x visited ∨ y ∈ pending.erase x ∪ (succ x \ insert x visited) := by
    intro y hy
    rw [mem_union, mem_sdiff]
    tauto
  have hout : ∀ y, y ∈ insert x visited ∨ y ∈ pending.erase x ∪ (succ x \ insert x visited) →
      (y ∈ visited ∨ y ∈ pending) ∨ y ∈ succ x := by
    intro y hy
    rw [mem_union, mem_insert, mem_erase, mem_sdiff] at hy
    rcases hy with (rfl | hy) | hy | hy
    · exact .inl (.inr hx)
    · exact .inl (.inl hy)
    · exact .inl (.inr hy.2)
    · exact .inr hy.1
  refine ⟨?_, ?_, fun y hy => hin y (h.start y hy), ?_, ?_⟩
  · intro y hy
    rcases hout y hy with hy | hy
    · exact h.inside y hy
    · exact hsucc x (h.inside x (.inr hx)) hy
  · intro y hy
    rw [mem_union, mem_erase, mem_sdiff] at hy
    rcases hy with ⟨hne, hy⟩ | ⟨_, hy⟩
    · rw [mem_insert, not_or]
      exact ⟨hne, h.fresh y hy⟩
    · exact hy
  · intro y hy z hz
    rcases mem_insert.mp hy with rfl | hy
    · exact hnew z hz
    · exact hin z (h.closed y hy z hz)
  · intro W hW hstart y hy
    rcases hout y hy with hy | hy
    · exact h.least W hW hstart y hy
    · exact hW x (h.least W hW hstart x (.inr hx)) y hy

variable (hnext : ∀ s : Finset α, s.Nonempty → next s ∈ s)
variable (hvisit : ∀ V s x, Inv V s → x ∈ U → x ∉ V →
  ∃ s', visit s x = some (s', succ x) ∧ Inv (insert x V) s')
variable (hsucc : ∀ x ∈ U, succ x ⊆ U)
include hnext hvisit hsucc

/-- With as much fuel as there are nodes left, the worklist ends, with the least closed set. -/
theorem run_of_between {fuel : Nat} {s : σ} (hinv : Inv visited s)
    (hbetween : Between succ P U visited pending) (hfuel : (U \ visited).card ≤ fuel) :
    ∃ s' V, run next visit fuel s visited pending = some (s', V) ∧ Inv V s' ∧
      LeastClosed succ P V := by
  have hdone : pending = ∅ → LeastClosed succ P visited := by
    intro hempty
    subst hempty
    exact ⟨fun x hx => (hbetween.start x hx).resolve_right (notMem_empty _),
      fun x hx y hy => (hbetween.closed x hx y hy).resolve_right (notMem_empty _),
      fun W hW hs x hx => hbetween.least W hW hs x (.inl hx)⟩
  induction fuel generalizing s visited pending with
  | zero =>
    have hempty : pending = ∅ := by
      by_contra hne
      obtain ⟨x, hx⟩ := nonempty_iff_ne_empty.mpr hne
      have hmem : x ∈ U \ visited :=
        mem_sdiff.mpr ⟨hbetween.inside x (.inr hx), hbetween.fresh x hx⟩
      rw [card_eq_zero.mp (Nat.le_zero.mp hfuel)] at hmem
      exact absurd hmem (notMem_empty _)
    exact ⟨s, visited, if_pos hempty, hinv, hdone hempty⟩
  | succ fuel ih =>
    by_cases hempty : pending = ∅
    · exact ⟨s, visited, if_pos hempty, hinv, hdone hempty⟩
    · have hx := hnext pending (nonempty_iff_ne_empty.mpr hempty)
      have hfresh := hbetween.fresh _ hx
      have hU := hbetween.inside _ (.inr hx)
      obtain ⟨s', hstep, hinv'⟩ := hvisit visited s _ hinv hU hfresh
      have hbetween' := hbetween.step hsucc hx
      have hfuel' : (U \ insert (next pending) visited).card ≤ fuel := by
        have herase : U \ insert (next pending) visited = (U \ visited).erase (next pending) := by
          ext y
          simp only [mem_sdiff, mem_insert, mem_erase]
          tauto
        rw [herase, card_erase_of_mem (mem_sdiff.mpr ⟨hU, hfresh⟩)]
        omega
      rw [run, if_neg hempty]
      rw [if_neg hfresh, hstep]
      refine ih hinv' hbetween' hfuel' ?_
      intro hempty'
      exact ⟨fun x hx => (hbetween'.start x hx).resolve_right (hempty' ▸ notMem_empty _),
        fun x hx y hy => (hbetween'.closed x hx y hy).resolve_right
          (hempty' ▸ notMem_empty _),
        fun W hW hs x hx => hbetween'.least W hW hs x (.inl hx)⟩

theorem run_spec {s : σ} {V pending : Finset α} (hinv : Inv V s) (hV : LeastClosed succ P V)
    (hVU : V ⊆ U) (hpending : pending ⊆ U) (hfresh : ∀ x ∈ pending, x ∉ V) :
    ∃ s' V', run next visit U.card s V pending = some (s', V') ∧ Inv V' s' ∧
      LeastClosed succ (fun x => P x ∨ x ∈ pending) V' := by
  refine run_of_between hnext hvisit hsucc hinv ?_ (card_le_card sdiff_subset)
  refine ⟨fun x hx => hx.elim (fun h => hVU h) (fun h => hpending h), hfresh,
    fun x hx => hx.imp_left (hV.start x), fun x hx y hy => .inl (hV.closed x hx y hy), ?_⟩
  rintro W hW hstart x (hx | hx)
  · exact hV.least W hW (fun y hy => hstart y (.inl hy)) x hx
  · exact hstart x (.inr hx)

end Run

variable {κ : Type w} {keys : κ → Prop} {stores : κ → Finset α} {blocked : κ → Prop}
  {succ : α → Finset α} {V : Finset α}

/-- A set of keys that are not blocked and that share stores only among themselves. -/
def SelfContained (keys : κ → Prop) (stores : κ → Finset α) (blocked : κ → Prop)
    (Z : Set κ) : Prop :=
  ∀ k ∈ Z, keys k ∧ ¬blocked k ∧
    ∀ k', keys k' → ∀ x ∈ stores k, x ∈ stores k' → k' ∈ Z

/-- The keys without a store in the least closed set are the greatest self-contained set. -/
theorem selfContained_iff
    (hsucc : ∀ x y, y ∈ succ x ↔ ∃ k, keys k ∧ x ∈ stores k ∧ y ∈ stores k)
    (hne : ∀ k, keys k → (stores k).Nonempty)
    (hV : LeastClosed succ (fun x => ∃ k, keys k ∧ blocked k ∧ x ∈ stores k) V) {k : κ}
    (hk : keys k) :
    (∀ x ∈ stores k, x ∉ V) ↔ ∃ Z, SelfContained keys stores blocked Z ∧ k ∈ Z := by
  constructor
  · intro hfree
    refine ⟨{k | keys k ∧ ∀ x ∈ stores k, x ∉ V}, ?_, hk, hfree⟩
    rintro k ⟨hk, hfree⟩
    refine ⟨hk, fun hblocked => ?_, fun k' hk' x hx hx' => ⟨hk', fun y hy hyV => ?_⟩⟩
    · obtain ⟨x, hx⟩ := hne k hk
      exact hfree x hx (hV.start x ⟨k, hk, hblocked, hx⟩)
    · exact hfree x hx (hV.closed y hyV x ((hsucc y x).mpr ⟨k', hk', hy, hx'⟩))
  · rintro ⟨Z, hZ, hkZ⟩ x hx hxV
    -- the stores of no key of `Z` form a closed set with the stores of the blocked keys
    refine hV.least {x | ∀ k ∈ Z, x ∉ stores k} ?_ ?_ x hxV k hkZ hx
    · intro y hy z hz k hkZ hzk
      obtain ⟨k', hk', hyk', hzk'⟩ := (hsucc y z).mp hz
      exact hy k' ((hZ k hkZ).2.2 k' hk' z hzk hzk') hyk'
    · rintro y ⟨k', hk', hblocked, hyk'⟩ k hkZ hyk
      exact (hZ k' ((hZ k hkZ).2.2 k' hk' y hyk hyk')).2.1 hblocked

end Worklist
end Hypergrid
