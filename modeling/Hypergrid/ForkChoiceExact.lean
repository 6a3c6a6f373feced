import Hypergrid.ForkChoiceLeaf
import Hypergrid.Lib.MapSum

/-!
# What the fork choice is for

The aggregates of a node in terms of the votes and of the subtree alone: the stake of the latest
votes in the subtree, the height of the subtree, the block that is reached by going to the deepest
child, and the block that is reached by going to the heaviest candidate child.

* `Exact` : the entries of all nodes are the ones of their subtrees.
* `exact_iff` : the entries are exact exactly if every entry is the one its children give and the
  stake voted on every node is that of the latest votes on it.
-/

namespace Hypergrid
open List

namespace HeaviestSubtreeForkChoice

variable {fc : HeaviestSubtreeForkChoice} {x c : SlotHashKey} {stakes : VoteStakes}

section Paths
variable {y z : SlotHashKey}

/-- The block is reached by taking the heaviest candidate child until there is none. -/
inductive BestPath (fc : HeaviestSubtreeForkChoice) : SlotHashKey → SlotHashKey → Prop
  | stop {x : SlotHashKey} : (∀ c ∈ fc.childrenOf x, ¬fc.Candidate c) → BestPath fc x x
  | child {x c y : SlotHashKey} : fc.HeaviestChild x c → BestPath fc c y → BestPath fc x y

/-- The block is reached by taking the deepest child until there is none. -/
inductive DeepestPath (fc : HeaviestSubtreeForkChoice) : SlotHashKey → SlotHashKey → Prop
  | stop {x : SlotHashKey} : fc.childrenOf x = [] → DeepestPath fc x x
  | child {x c y : SlotHashKey} : fc.DeepestChild x c → DeepestPath fc c y → DeepestPath fc x y

theorem HeaviestChild.unique (h : fc.HeaviestChild x y) (h' : fc.HeaviestChild x z) : y = z :=
  IsTop.unique h h'

theorem DeepestChild.unique (h : fc.DeepestChild x y) (h' : fc.DeepestChild x z) : y = z :=
  IsTop.unique h h'

theorem exists_deepestChild (h : fc.childrenOf x ≠ []) : ∃ c, fc.DeepestChild x c := by
  obtain ⟨c, hc⟩ := exists_mem_of_ne_nil _ h
  exact exists_isTop ⟨c, hc, trivial⟩

theorem BestPath.unique (h : fc.BestPath x y) (h' : fc.BestPath x z) : y = z := by
  induction h with
  | stop hnone =>
    cases h' with
    | stop _ => rfl
    | child hc _ => exact absurd hc.ok (hnone _ hc.mem)
  | child hc _ ih =>
    cases h' with
    | stop hnone => exact absurd hc.ok (hnone _ hc.mem)
    | child hc' hpath => exact ih (hc.unique hc' ▸ hpath)

theorem DeepestPath.unique (h : fc.DeepestPath x y) (h' : fc.DeepestPath x z) : y = z := by
  induction h with
  | stop hnil =>
    cases h' with
    | stop _ => rfl
    | child hc _ => exact absurd (hnil ▸ hc.mem) not_mem_nil
  | child hc _ ih =>
    cases h' with
    | stop hnil => exact absurd (hnil ▸ hc.mem) not_mem_nil
    | child hc' hpath => exact ih (hc.unique hc' ▸ hpath)

theorem DeepestChild.height_eq (h : fc.DeepestChild x c) :
    ((fc.childrenOf x).map fc.heightOf).foldr max 0 = fc.heightOf c := by
  have hle : ∀ d ∈ fc.childrenOf x, fc.heightOf d ≤ fc.heightOf c := by
    intro d hd
    by_cases hdc : d = c
    · rw [hdc]
    · rcases h.beats d hd trivial hdc with hlt | ⟨heq, _⟩
      · exact hlt.le
      · exact heq.le
  have hbound : ∀ l : List SlotHashKey, (∀ d ∈ l, fc.heightOf d ≤ fc.heightOf c) →
      (l.map fc.heightOf).foldr max 0 ≤ fc.heightOf c := by
    intro l hl
    induction l with
    | nil => exact Nat.zero_le _
    | cons d l ih =>
      exact max_le (hl d mem_cons_self) (ih fun d' hd' => hl d' (mem_cons_of_mem _ hd'))
  have hmem : ∀ l : List SlotHashKey, c ∈ l → fc.heightOf c ≤ (l.map fc.heightOf).foldr max 0 := by
    intro l hl
    induction l with
    | nil => exact absurd hl not_mem_nil
    | cons d l ih =>
      rcases mem_cons.mp hl with rfl | hl
      · exact le_max_left _ _
      · exact (ih hl).trans (le_max_right _ _)
  exact le_antisymm (hbound _ hle) (hmem _ h.mem)

end Paths

section Votes

def votesAt (stakes : VoteStakes) (votes : AList (fun _ : Pubkey => SlotHashKey))
    (x : SlotHashKey) : Nat :=
  MapSum.weigh (fun pubkey vote => if vote = x then stakes.stakeFor pubkey vote.slot else 0) votes

open Classical in
noncomputable def votesInSubtree (fc : HeaviestSubtreeForkChoice) (stakes : VoteStakes)
    (x : SlotHashKey) : Nat :=
  MapSum.weigh (fun pubkey vote =>
    if fc.InSubtree x vote then stakes.stakeFor pubkey vote.slot else 0) fc.latestVotes

open Classical in
theorem ite_inSubtree_eq (htree : fc.Tree) (x vote : SlotHashKey) (stake : Nat) :
    (if fc.InSubtree x vote then stake else 0) = (if vote = x then stake else 0) +
      ((fc.childrenOf x).map (fun c => if fc.InSubtree c vote then stake else 0)).sum := by
  have hother : ∀ c ∈ fc.childrenOf x, fc.InSubtree c vote → ∀ d ∈ fc.childrenOf x, d ≠ c →
      ¬fc.InSubtree d vote := by
    intro c hc hcv d hd hdc hdv
    exact hdc (htree.child_unique (htree.mem_children.mp hd) (htree.mem_children.mp hc) hdv hcv)
  by_cases hchild : ∃ c ∈ fc.childrenOf x, fc.InSubtree c vote
  · obtain ⟨c, hc, hcv⟩ := hchild
    have hparent := htree.mem_children.mp hc
    have hne : vote ≠ x := by
      rintro rfl
      exact htree.not_inSubtree_parent hparent hcv
    rw [if_pos ((InSubtree.of_parent hparent).trans hcv), if_neg hne, Nat.zero_add,
      sum_map_eq_nsmul_single c _ fun d hdc hd => if_neg (hother c hc hcv d hd hdc),
      count_eq_one_of_mem (htree.children_nodup x) hc, one_nsmul, if_pos hcv]
  · have hzero :
      ((fc.childrenOf x).map (fun c => if fc.InSubtree c vote then stake else 0)).sum = 0 := by
      refine sum_eq_zero fun n hn => ?_
      obtain ⟨c, hc, rfl⟩ := mem_map.mp hn
      exact if_neg fun hcv => hchild ⟨c, hc, hcv⟩
    rw [hzero, Nat.add_zero]
    refine if_congr ?_ rfl rfl
    constructor
    · intro hxv
      rcases inSubtree_iff_child.mp hxv with heq | ⟨c, hc, hcv⟩
      · exact heq.symm
      · exact absurd ⟨c, htree.mem_children.mpr hc, hcv⟩ hchild
    · rintro rfl
      exact .refl _

theorem votesInSubtree_eq (htree : fc.Tree) (x : SlotHashKey) :
    fc.votesInSubtree stakes x = votesAt stakes fc.latestVotes x +
      ((fc.childrenOf x).map (fc.votesInSubtree stakes)).sum := by
  unfold votesInSubtree votesAt
  rw [← MapSum.weigh_sum, ← MapSum.weigh_add]
  exact MapSum.weigh_congr fun pubkey vote _ => ite_inSubtree_eq htree x vote _

end Votes

variable {i : ForkInfo}

structure Exact (stakes : VoteStakes) (fc : HeaviestSubtreeForkChoice) : Prop where
  children_sum : ∀ {x i}, fc.info x = some i →
    fc.weightOf x = fc.votedAt x + ((fc.childrenOf x).map fc.weightOf).sum
  votes : ∀ {x i}, fc.info x = some i → fc.weightOf x = fc.votesInSubtree stakes x
  height : ∀ {x i}, fc.info x = some i →
    fc.heightOf x = ((fc.childrenOf x).map fc.heightOf).foldr max 0 + 1
  deepest : ∀ {x i}, fc.info x = some i → fc.DeepestPath x (fc.deepestOf x)
  best : ∀ {x}, fc.Candidate x → fc.BestPath x (fc.bestOf x)

/-- Every entry is the one that its children give, and the stake voted on a node is that of the
latest votes on it. -/
structure Consistent (stakes : VoteStakes) (fc : HeaviestSubtreeForkChoice) : Prop where
  localAt : ∀ {x i}, fc.info x = some i → fc.LocalAt x
  votedAt : ∀ {x i}, fc.info x = some i → fc.votedAt x = votesAt stakes fc.latestVotes x

theorem info_of_candidate (h : fc.Candidate x) : ∃ i, fc.info x = some i := by
  obtain ⟨i, hi, _⟩ := Option.map_eq_some_iff.mp h
  exact ⟨i, hi⟩

variable (htree : fc.Tree)
include htree

theorem Exact.localAt (h : fc.Exact stakes) (hi : fc.info x = some i) : fc.LocalAt x := by
  refine ⟨h.children_sum hi, fun hx hnone => ?_, fun {c} hx hc => ?_, fun hnil => ⟨?_, ?_⟩,
    fun {c} hc => ⟨?_, ?_⟩⟩
  · exact (h.best hx).unique (.stop hnone)
  · exact (h.best hx).unique (.child hc (h.best hc.ok))
  · exact (h.deepest hi).unique (.stop hnil)
  · rw [h.height hi, hnil]
    rfl
  · obtain ⟨j, hj⟩ := htree.linked.info hc.mem
    exact (h.deepest hi).unique (.child hc (h.deepest hj))
  · rw [h.height hi, hc.height_eq]

theorem Exact.consistent (h : fc.Exact stakes) : fc.Consistent stakes where
  localAt := h.localAt htree
  votedAt := by
    intro x i hi
    have hsum :
      (fc.childrenOf x).map fc.weightOf = (fc.childrenOf x).map (fc.votesInSubtree stakes) := by
      refine map_congr_left fun c hc => ?_
      obtain ⟨j, hj⟩ := htree.linked.info hc
      exact h.votes hj
    have hchildren := h.children_sum hi
    rw [h.votes hi, votesInSubtree_eq htree, hsum] at hchildren
    exact (Nat.add_right_cancel hchildren).symm

section Consistent
variable (h : fc.Consistent stakes)
include h

theorem Consistent.weightOf_eq (x : SlotHashKey) :
    (∃ i, fc.info x = some i) → fc.weightOf x = fc.votesInSubtree stakes x := by
  revert x
  refine htree.leaf_induction fun x ih hx => ?_
  obtain ⟨i, hi⟩ := hx
  have hsum :
    (fc.childrenOf x).map fc.weightOf = (fc.childrenOf x).map (fc.votesInSubtree stakes) :=
    map_congr_left fun c hc => ih c (htree.mem_children.mp hc) (htree.linked.info hc)
  rw [(h.localAt hi).stake, h.votedAt hi, hsum, votesInSubtree_eq htree]

theorem Consistent.deepestPath (x : SlotHashKey) :
    (∃ i, fc.info x = some i) → fc.DeepestPath x (fc.deepestOf x) := by
  revert x
  refine htree.leaf_induction fun x ih hx => ?_
  obtain ⟨i, hi⟩ := hx
  by_cases hnil : fc.childrenOf x = []
  · rw [((h.localAt hi).deepest_self hnil).1]
    exact .stop hnil
  · obtain ⟨c, hc⟩ := exists_deepestChild hnil
    rw [((h.localAt hi).deepest_child hc).1]
    exact .child hc (ih c (htree.mem_children.mp hc.mem) (htree.linked.info hc.mem))

theorem Consistent.bestPath (x : SlotHashKey) : fc.Candidate x → fc.BestPath x (fc.bestOf x) := by
  revert x
  refine htree.leaf_induction fun x ih hx => ?_
  obtain ⟨i, hi⟩ := info_of_candidate hx
  by_cases hchild : ∃ c ∈ fc.childrenOf x, fc.Candidate c
  · obtain ⟨c, hc⟩ : ∃ c, fc.HeaviestChild x c := exists_isTop hchild
    rw [(h.localAt hi).best_child hx hc]
    exact .child hc (ih c (htree.mem_children.mp hc.mem) hc.ok)
  · have hnone : ∀ c ∈ fc.childrenOf x, ¬fc.Candidate c := fun c hc hok => hchild ⟨c, hc, hok⟩
    rw [(h.localAt hi).best_self hx hnone]
    exact .stop hnone

theorem Consistent.exact : fc.Exact stakes where
  children_sum := fun hi => (h.localAt hi).stake
  votes := fun hi => h.weightOf_eq htree _ ⟨_, hi⟩
  height := by
    intro x i hi
    by_cases hnil : fc.childrenOf x = []
    · rw [((h.localAt hi).deepest_self hnil).2, hnil]
      rfl
    · obtain ⟨c, hc⟩ := exists_deepestChild hnil
      rw [((h.localAt hi).deepest_child hc).2, hc.height_eq]
  deepest := fun hi => h.deepestPath htree _ ⟨_, hi⟩
  best := fun hx => h.bestPath htree _ hx

end Consistent

/-- The aggregates are exact exactly if they are consistent from node to node. -/
theorem exact_iff : fc.Exact stakes ↔ fc.Consistent stakes :=
  ⟨fun h => h.consistent htree, fun h => h.exact htree⟩

end HeaviestSubtreeForkChoice
end Hypergrid
