import Hypergrid.ForkChoiceMarks

/-!
# Adding a leaf

`add_new_leaf_slot` puts a block below its parent and lets it become the best and the deepest block
of its ancestors.

* `addNewLeafSlot_added` : the leaf is added without a panic; the tree is the one with the new leaf
  attached, and of its entries only the best block, the deepest block and the height can change.
* `attach_tree`, `attach_flags` : the tree and its flags stay well formed.
-/

namespace Hypergrid
open ForkInfo List Option

/-- The part of an entry that a new leaf in its subtree does not change. -/
def ForkInfo.core (i : ForkInfo) : ForkInfo :=
  { i with height := 0, bestSlot := SlotHashKey.default, deepestSlot := SlotHashKey.default }

/-- An entry without its height and its deepest block. -/
def ForkInfo.exceptDeepest (i : ForkInfo) : ForkInfo :=
  { i with height := 0, deepestSlot := SlotHashKey.default }

/-- An entry without its best block. -/
def ForkInfo.exceptBest (i : ForkInfo) : ForkInfo := { i with bestSlot := SlotHashKey.default }

namespace HeaviestSubtreeForkChoice

variable {fc fc' : HeaviestSubtreeForkChoice} {leaf p x c : SlotHashKey} {i j : ForkInfo}

section Attach
variable {y : SlotHashKey}

/-- The tree with a leaf below the block `p`, before its ancestors hear of it. -/
def attach (fc : HeaviestSubtreeForkChoice) (leaf p : SlotHashKey) (i : ForkInfo) :
    HeaviestSubtreeForkChoice :=
  (fc.setInfo leaf (fc.newLeaf leaf (some p))).setInfo p
    { i with children := i.children.orderedInsert (· ≤ ·) leaf }

/-- A leaf that is not in the tree yet, with a parent that is and has a lower slot. -/
structure NewLeaf (fc : HeaviestSubtreeForkChoice) (leaf p : SlotHashKey)
    (i : ForkInfo) : Prop where
  absent : fc.info leaf = none
  info : fc.info p = some i
  lt : p.slot < leaf.slot

theorem NewLeaf.ne (h : fc.NewLeaf leaf p i) :
    p ≠ leaf := fun heq => absurd h.lt (heq ▸ lt_irrefl _)

/-- A node is not the new leaf. -/
theorem NewLeaf.ne_of_info (h : fc.NewLeaf leaf p i) (hx : fc.info x = some j) : x ≠ leaf := by
  rintro rfl
  exact absurd (h.absent.symm.trans hx) (by simp)

/-- The entry of the new leaf. -/
theorem info_attach_leaf (h : fc.NewLeaf leaf p i) :
    (fc.attach leaf p i).info leaf = some (fc.newLeaf leaf (some p)) := by
  rw [attach, info_setInfo_ne h.ne.symm, info_setInfo_self]

/-- Its parent has one child more. -/
theorem info_attach_parent :
    (fc.attach leaf p i).info p =
      some { i with children := i.children.orderedInsert (· ≤ ·) leaf } :=
  info_setInfo_self

/-- All other entries are the same. -/
theorem info_attach_other (hx : x ≠ leaf) (hp : x ≠ p) :
    (fc.attach leaf p i).info x = fc.info x := by
  rw [attach, info_setInfo_ne hp, info_setInfo_ne hx]

section NewLeaf
variable (h : fc.NewLeaf leaf p i)
include h

theorem sameEntry_attach (hx : x ≠ leaf) : fc.SameEntry (fc.attach leaf p i) x := by
  by_cases hp : x = p
  · subst hp
    exact .of_info h.info info_attach_parent rfl
  · exact .of_eq (info_attach_other hx hp)

theorem parent_attach_leaf : (fc.attach leaf p i).parent leaf = some p :=
  parent_of_info (info_attach_leaf h)

/-- The parents of the old nodes are the same. -/
theorem parent_attach (hx : x ≠ leaf) : (fc.attach leaf p i).parent x = fc.parent x := by
  by_cases hp : x = p
  · subst hp
    rw [parent_of_info info_attach_parent, parent_of_info h.info]
  · rw [parent, info_attach_other hx hp, parent]

theorem childrenOf_attach_leaf : (fc.attach leaf p i).childrenOf leaf = [] :=
  childrenOf_of_info (info_attach_leaf h)

theorem childrenOf_attach_parent :
    (fc.attach leaf p i).childrenOf p = (fc.childrenOf p).orderedInsert (· ≤ ·) leaf := by
  rw [childrenOf_of_info info_attach_parent, childrenOf_of_info h.info]

end NewLeaf

theorem childrenOf_attach_other (hx : x ≠ leaf) (hp : x ≠ p) :
    (fc.attach leaf p i).childrenOf x = fc.childrenOf x := by
  rw [childrenOf, children, info_attach_other hx hp, childrenOf, children]

theorem NewLeaf.parent_none (h : fc.NewLeaf leaf p i) : fc.parent leaf = none := by
  rw [parent, h.absent, bind_none]

variable (htree : fc.Tree) (h : fc.NewLeaf leaf p i)
include htree h

/-- No block has the new leaf as its parent. -/
theorem NewLeaf.not_parent : fc.parent x ≠ some leaf := by
  intro hx
  obtain ⟨j, hj⟩ := htree.info_of_parent hx
  exact absurd (h.absent.symm.trans hj) (by simp)

/-- Children and parents agree after the insertion. -/
theorem mem_childrenOf_attach :
    c ∈ (fc.attach leaf p i).childrenOf x ↔ (fc.attach leaf p i).parent c = some x := by
  by_cases hc : c = leaf
  · subst hc
    rw [parent_attach_leaf h, some.injEq]
    by_cases hx : x = c
    · subst hx
      rw [childrenOf_attach_leaf h]
      exact iff_of_false not_mem_nil h.ne
    · by_cases hp : x = p
      · subst hp
        rw [childrenOf_attach_parent h, mem_orderedInsert]
        exact iff_of_true (.inl rfl) rfl
      · rw [childrenOf_attach_other hx hp, htree.mem_children, h.parent_none]
        exact iff_of_false (by simp) (Ne.symm hp)
  · rw [parent_attach h hc, ← htree.mem_children]
    by_cases hx : x = leaf
    · subst hx
      rw [childrenOf_attach_leaf h, htree.mem_children]
      exact iff_of_false not_mem_nil (h.not_parent htree)
    · by_cases hp : x = p
      · subst hp
        rw [childrenOf_attach_parent h, mem_orderedInsert]
        exact or_iff_right hc
      · rw [childrenOf_attach_other hx hp]

/-- A tree with a new leaf is a tree. -/
theorem attach_tree : (fc.attach leaf p i).Tree where
  parent_lt := by
    intro x q hq
    by_cases hx : x = leaf
    · subst hx
      rw [parent_attach_leaf h] at hq
      exact some.inj hq ▸ h.lt
    · rw [parent_attach h hx] at hq
      exact htree.parent_lt hq
  mem_children := mem_childrenOf_attach htree h
  children_nodup := by
    intro x
    by_cases hx : x = leaf
    · subst hx
      rw [childrenOf_attach_leaf h]
      exact nodup_nil
    · by_cases hp : x = p
      · subst hp
        rw [childrenOf_attach_parent h, (perm_orderedInsert _ _ _).nodup_iff]
        refine nodup_cons.mpr ⟨fun hmem => ?_, htree.children_nodup x⟩
        rw [htree.mem_children, h.parent_none] at hmem
        exact absurd hmem (by simp)
      · rw [childrenOf_attach_other hx hp]
        exact htree.children_nodup x
  root_mem := by
    obtain ⟨j, hj⟩ := htree.root_mem
    by_cases hp : fc.treeRoot = p
    · have hroot : (fc.attach leaf p i).treeRoot = p := hp
      rw [hroot]
      exact ⟨_, info_attach_parent⟩
    · exact ⟨j, (info_attach_other (h.ne_of_info hj) hp).trans hj⟩
  root_iff := by
    intro x j hj
    by_cases hx : x = leaf
    · subst hx
      rw [info_attach_leaf h] at hj
      obtain rfl := some.inj hj
      refine iff_of_false (some_ne_none p) fun heq => ?_
      obtain ⟨k, hk⟩ := htree.root_mem
      exact h.ne_of_info hk heq.symm
    · by_cases hp : x = p
      · subst hp
        rw [info_attach_parent] at hj
        obtain rfl := some.inj hj
        have hroot := htree.root_iff h.info
        exact hroot
      · rw [info_attach_other hx hp] at hj
        exact htree.root_iff hj

/-- The subtrees of the old nodes have the same old nodes. -/
theorem inSubtree_attach (hy : y ≠ leaf) :
    (fc.attach leaf p i).InSubtree x y ↔ fc.InSubtree x y := by
  constructor
  · intro hxy
    induction hxy with
    | refl => exact .refl _
    | tail _ hparent ih =>
      rw [parent_attach h hy] at hparent
      exact (ih fun heq => h.not_parent htree (heq ▸ hparent)).tail hparent
  · intro hxy
    induction hxy with
    | refl => exact .refl _
    | tail _ hparent ih =>
      refine (ih fun heq => h.not_parent htree (heq ▸ hparent)).tail ?_
      exact (parent_attach h hy).trans hparent

/-- The new leaf is below its parent and the ancestors of its parent. -/
theorem inSubtree_attach_leaf :
    (fc.attach leaf p i).InSubtree x leaf ↔ x = leaf ∨ fc.InSubtree x p := by
  rw [inSubtree_iff_parent, parent_attach_leaf h]
  refine or_congr_right ?_
  rw [← inSubtree_attach htree h h.ne]
  simp

end Attach

/-- A check of all members of a list, one by one. -/
theorem allM_eq {f : SlotHashKey → Option Bool} {P : SlotHashKey → Prop} {l : List SlotHashKey}
    (h : ∀ a ∈ l, ∃ b, f a = some b ∧ (b = true ↔ P a)) :
    ∃ b, l.allM f = some b ∧ (b = true ↔ ∀ a ∈ l, P a) := by
  induction l with
  | nil => exact ⟨true, rfl, by simp⟩
  | cons a l ih =>
    obtain ⟨b, hb, hP⟩ := h a mem_cons_self
    obtain ⟨b', hb', hP'⟩ := ih fun a' ha' => h a' (mem_cons_of_mem _ ha')
    rw [allM, hb]
    cases b with
    | false =>
      refine ⟨false, rfl, iff_of_false (by simp) fun hall => ?_⟩
      exact absurd (hP.mpr (hall a mem_cons_self)) (by simp)
    | true =>
      refine ⟨b', hb', ?_⟩
      rw [hP', forall_mem_cons, and_iff_right (hP.mp rfl)]

/-- The comparison of two siblings by weight, for candidates. -/
theorem notBetterThan_eq (hx : fc.info x = some i) (k : SlotHashKey) :
    ∃ b, fc.notBetterThan (fc.weightOf k) k x = some b ∧
      (b = true ↔ (fc.Candidate x → ¬fc.Heavier x k)) := by
  refine ⟨!i.isCandidate || !decide (fc.weightOf k < i.stakeVotedSubtree ∨
    fc.weightOf k = i.stakeVotedSubtree ∧ x < k), ?_, ?_⟩
  · rw [notBetterThan, stakeVotedSubtree, isCandidate, hx]
    rfl
  · rw [Heavier, weightOf_of_info hx, Candidate, isCandidate, hx, map_some, some.injEq]
    cases i.isCandidate with
    | false => simp
    | true => rw [Bool.not_true, Bool.false_or, Bool.not_eq_true', decide_eq_false_iff_not,
        imp_iff_right rfl]

theorem Tree.children_eq (htree : fc.Tree) (hp : fc.parent x = some p) :
    fc.children p = some (fc.childrenOf p) := by
  obtain ⟨j, hj⟩ := htree.info_of_parent hp
  rw [childrenOf_of_info hj, children, hj, map_some]

theorem stakeVotedSubtree_eq (hi : fc.info x = some i) :
    fc.stakeVotedSubtree x = some (fc.weightOf x) := by
  rw [weightOf_of_info hi, stakeVotedSubtree, hi, map_some]

/-- A best child is one that no candidate among its siblings outweighs. -/
theorem isBestChild_eq (htree : fc.Tree) (hi : fc.info x = some i) (hp : fc.parent x = some p) :
    ∃ b, fc.isBestChild x = some b ∧
      (b = true ↔ ∀ c ∈ fc.childrenOf p, fc.Candidate c → ¬fc.Heavier c x) := by
  obtain ⟨b, hb, hiff⟩ := allM_eq (l := fc.childrenOf p)
    (f := fc.notBetterThan (fc.weightOf x) x) fun c hc => by
      obtain ⟨k, hk⟩ := htree.linked.info hc
      exact notBetterThan_eq hk x
  refine ⟨b, ?_, hiff⟩
  refine bind_eq_some_iff.mpr ⟨_, stakeVotedSubtree_eq hi, ?_⟩
  simp only [hp]
  exact bind_eq_some_iff.mpr ⟨_, htree.children_eq hp, hb⟩

/-- The comparison of two siblings by height. -/
theorem notDeeperThan_eq (hx : fc.info x = some i) (k : SlotHashKey) :
    ∃ b, fc.notDeeperThan (fc.heightOf k) (fc.weightOf k) k x = some b ∧
      (b = true ↔ ¬fc.Deeper x k) := by
  refine ⟨!decide (fc.heightOf k < i.height ∨ fc.heightOf k = i.height ∧
    (fc.weightOf k < i.stakeVotedSubtree ∨ fc.weightOf k = i.stakeVotedSubtree ∧ x < k)), ?_, ?_⟩
  · rw [notDeeperThan, stakeVotedSubtree, height, hx]
    rfl
  · rw [Deeper, Heavier, weightOf_of_info hx, heightOf_of_info hx, Bool.not_eq_true',
      decide_eq_false_iff_not]

/-- A deepest child is one that no sibling goes deeper than. -/
theorem isDeepestChild_eq (htree : fc.Tree) (hi : fc.info x = some i) (hp : fc.parent x = some p) :
    ∃ b, fc.isDeepestChild x = some b ∧ (b = true ↔ ∀ c ∈ fc.childrenOf p, ¬fc.Deeper c x) := by
  obtain ⟨b, hb, hiff⟩ := allM_eq (l := fc.childrenOf p)
    (f := fc.notDeeperThan (fc.heightOf x) (fc.weightOf x) x) fun c hc => by
      obtain ⟨k, hk⟩ := htree.linked.info hc
      exact notDeeperThan_eq hk x
  refine ⟨b, ?_, hiff⟩
  have hheight : fc.height x = some (fc.heightOf x) := by
    rw [heightOf_of_info hi, height, hi, map_some]
  refine bind_eq_some_iff.mpr ⟨_, stakeVotedSubtree_eq hi, ?_⟩
  refine bind_eq_some_iff.mpr ⟨_, hheight, ?_⟩
  simp only [hp]
  exact bind_eq_some_iff.mpr ⟨_, htree.children_eq hp, hb⟩

section Propagate
variable {fc'' : HeaviestSubtreeForkChoice}

/-- Two fork choices that agree on a part of every entry. -/
structure Agree {β : Type} (part : ForkInfo → β) (fc fc' : HeaviestSubtreeForkChoice) : Prop where
  entry : ∀ x, (fc'.info x).map part = (fc.info x).map part
  treeRoot : fc'.treeRoot = fc.treeRoot
  latestVotes : fc'.latestVotes = fc.latestVotes

namespace Agree

variable {β γ : Type} {part : ForkInfo → β}

theorem refl (fc : HeaviestSubtreeForkChoice) : Agree part fc fc := ⟨fun _ => rfl, rfl, rfl⟩

theorem trans (h : Agree part fc fc') (h' : Agree part fc' fc'') : Agree part fc fc'' :=
  ⟨fun x => (h'.entry x).trans (h.entry x), h'.treeRoot.trans h.treeRoot,
    h'.latestVotes.trans h.latestVotes⟩

/-- Agreement on a part is agreement on a part of it. -/
theorem map (h : Agree part fc fc') (f : β → γ) : Agree (fun i => f (part i)) fc fc' where
  entry := by
    intro x
    have hentry := congrArg (Option.map f) (h.entry x)
    rw [Option.map_map, Option.map_map] at hentry
    exact hentry
  treeRoot := h.treeRoot
  latestVotes := h.latestVotes

/-- Writing an entry with the same part keeps the agreement. -/
theorem setInfo (hx : fc.info x = some i) (hpart : part j = part i) :
    Agree part fc (fc.setInfo x j) where
  entry := by
    intro y
    rw [info_setInfo]
    split_ifs with hy
    · rw [hy, hx, map_some, map_some, hpart]
    · rfl
  treeRoot := rfl
  latestVotes := rfl

theorem info (h : Agree part fc fc') (hx : fc.info x = some i) :
    ∃ j, fc'.info x = some j ∧ part j = part i := by
  have hentry := h.entry x
  rw [hx, map_some, map_eq_some_iff] at hentry
  exact hentry

variable (h : Agree ForkInfo.core fc fc')
include h

theorem sameShape : fc.SameShape fc' := ⟨(h.map fun i => (i.parent, i.children)).entry, h.treeRoot⟩

theorem confirmed_iff : fc'.Confirmed x ↔ fc.Confirmed x := by
  have hentry := (h.map ForkInfo.isDuplicateConfirmed).entry x
  exact iff_of_eq (congrArg (· = some true) hentry)

theorem latest_eq : fc'.latestInvalidAncestor x = fc.latestInvalidAncestor x := by
  have hentry := congrArg (Option.bind · id) ((h.map ForkInfo.latestInvalidAncestor).entry x)
  rw [Option.bind_map, Option.bind_map] at hentry
  exact hentry

theorem weightOf_eq (x : SlotHashKey) : fc'.weightOf x = fc.weightOf x :=
  congrArg (·.getD 0) ((h.map ForkInfo.stakeVotedSubtree).entry x)

theorem votedAt_eq (x : SlotHashKey) : fc'.votedAt x = fc.votedAt x :=
  congrArg (·.getD 0) ((h.map stakeVotedAt).entry x)

/-- The candidates are the same. -/
theorem candidate_iff : fc'.Candidate x ↔ fc.Candidate x := by
  have hentry := (h.map ForkInfo.isCandidate).entry x
  exact iff_of_eq (congrArg (· = some true) hentry)

end Agree

variable {chain : List SlotHashKey}

/-- The ancestors of a block are its parent and the ancestors of its parent. -/
theorem ancestorIterator_cons (htree : fc.Tree) (hp : fc.parent x = some p) :
    fc.ancestorIterator x = p :: fc.ancestorIterator p := by
  rw [ancestorIterator, hp]
  exact dif_pos (htree.parent_lt hp)

theorem takeWhile_congr {f g : SlotHashKey → Bool} {l : List SlotHashKey}
    (h : ∀ a ∈ l, f a = g a) : l.takeWhile f = l.takeWhile g := by
  induction l with
  | nil => rfl
  | cons a l ih =>
    rw [takeWhile_cons, takeWhile_cons, h a mem_cons_self,
      ih fun a' ha' => h a' (mem_cons_of_mem _ ha')]

/-- The loop that spreads the best block stops at the first ancestor with another one. -/
theorem propagateBest_spec (leaf parentBest : SlotHashKey) (chain : List SlotHashKey)
    (hinfo : ∀ a ∈ chain, ∃ i, fc.info a = some i) (hnodup : chain.Nodup) :
    ∃ fc', propagateBest leaf parentBest chain fc = some fc' ∧ Agree exceptBest fc fc' ∧
      ∀ x, fc'.info x = if x ∈ chain.takeWhile (fun a => fc.bestOf a = parentBest) then
        (fc.info x).map (fun i => { i with bestSlot := leaf }) else fc.info x := by
  induction chain generalizing fc with
  | nil => exact ⟨fc, rfl, .refl fc, fun x => by simp⟩
  | cons a rest ih =>
    obtain ⟨i, hi⟩ := hinfo a mem_cons_self
    obtain ⟨ha, hrest⟩ := nodup_cons.mp hnodup
    have hbest : fc.bestOf a = i.bestSlot := bestOf_of_info hi
    by_cases heq : i.bestSlot = parentBest
    · have hother : ∀ b ∈ rest, (fc.setInfo a { i with bestSlot := leaf }).info b = fc.info b :=
        fun b hb => info_setInfo_ne fun h => ha (h ▸ hb)
      have hinfo' :
        ∀ b ∈ rest, ∃ i', (fc.setInfo a { i with bestSlot := leaf }).info b = some i' := by
        intro b hb
        rw [hother b hb]
        exact hinfo b (mem_cons_of_mem _ hb)
      obtain ⟨fc', hrun, hagree, hfc'⟩ := ih hinfo' hrest
      have hset : Agree exceptBest fc (fc.setInfo a { i with bestSlot := leaf }) :=
        Agree.setInfo hi rfl
      refine ⟨fc', ?_, hset.trans hagree, fun x => ?_⟩
      · refine bind_eq_some_iff.mpr ⟨i, hi, ?_⟩
        rw [if_pos heq]
        exact hrun
      · have htake : rest.takeWhile (fun b =>
            (fc.setInfo a { i with bestSlot := leaf }).bestOf b = parentBest) =
            rest.takeWhile (fun b => fc.bestOf b = parentBest) := by
          refine takeWhile_congr fun b hb => ?_
          rw [bestOf, bestSlot, hother b hb, bestOf, bestSlot]
        rw [hfc' x, htake, takeWhile_cons_of_pos (by simpa [hbest] using heq)]
        by_cases hx : x = a
        · subst hx
          have hnot : x ∉ rest.takeWhile (fun b => fc.bestOf b = parentBest) :=
            fun hmem => ha (takeWhile_subset _ hmem)
          rw [if_neg hnot, if_pos mem_cons_self, info_setInfo_self, hi, map_some]
        · rw [info_setInfo_ne hx]
          simp [hx]
    · refine ⟨fc, ?_, .refl fc, fun x => ?_⟩
      · refine bind_eq_some_iff.mpr ⟨i, hi, ?_⟩
        rw [if_neg heq]
      · rw [takeWhile_cons_of_neg (by simpa [hbest] using heq)]
        simp

/-- The list is the chain of the ancestors of a block, from its parent to the root. -/
def AncestorChain (fc : HeaviestSubtreeForkChoice) : SlotHashKey → List SlotHashKey → Prop
  | x, [] => fc.parent x = none
  | x, a :: rest => fc.parent x = some a ∧ fc.AncestorChain a rest

/-- The iterator is a chain of parents. -/
theorem ancestorIterator_chain (htree : fc.Tree) (x : SlotHashKey) :
    fc.AncestorChain x (fc.ancestorIterator x) := by
  fun_induction ancestorIterator fc x with
  | case1 x hx => exact hx
  | case2 x p hx _ ih => exact ⟨hx, ih⟩
  | case3 x p hx hlt => exact absurd (htree.parent_lt hx) hlt

theorem AncestorChain.congr (hshape : fc.SameShape fc')
    (h : fc.AncestorChain x chain) : fc'.AncestorChain x chain := by
  induction chain generalizing x with
  | nil => exact (hshape.parent_eq x).trans h
  | cons a rest ih => exact ⟨(hshape.parent_eq x).trans h.1, ih h.2⟩

/-- The members of a chain are ancestors. -/
theorem AncestorChain.mem (h : fc.AncestorChain x chain)
    {a : SlotHashKey} (ha : a ∈ chain) : ∃ p, fc.parent x = some p ∧ fc.InSubtree a p := by
  induction chain generalizing x with
  | nil => exact absurd ha not_mem_nil
  | cons b rest ih =>
    refine ⟨b, h.1, ?_⟩
    rcases mem_cons.mp ha with rfl | ha
    · exact .refl _
    · obtain ⟨p, hp, hap⟩ := ih h.2 ha
      exact hap.trans (.of_parent hp)

/-- No ancestor comes twice. -/
theorem AncestorChain.nodup (htree : fc.Tree) (h : fc.AncestorChain x chain) : chain.Nodup := by
  induction chain generalizing x with
  | nil => exact nodup_nil
  | cons b rest ih =>
    refine nodup_cons.mpr ⟨fun hb => ?_, ih h.2⟩
    obtain ⟨p, hp, hbp⟩ := h.2.mem hb
    exact htree.not_inSubtree_parent hp hbp

/-- The deepest slots are passed up without a panic, and nothing else changes. -/
theorem propagateDeepest_runs (chain : List SlotHashKey) (currentHeight : Nat) (htree : fc.Tree)
    (hchain : fc.AncestorChain c chain) (hc : fc.info c = some i) :
    ∃ fc', propagateDeepest leaf chain c currentHeight fc = some fc' ∧
      Agree exceptDeepest fc fc' := by
  induction chain generalizing fc c i currentHeight with
  | nil => exact ⟨fc, rfl, .refl fc⟩
  | cons a rest ih =>
    obtain ⟨b, hb, _⟩ := isDeepestChild_eq htree hc hchain.1
    cases b with
    | false => exact ⟨fc, bind_eq_some_iff.mpr ⟨false, hb, rfl⟩, .refl fc⟩
    | true =>
      obtain ⟨j, hj⟩ := htree.info_of_parent hchain.1
      have hset : Agree exceptDeepest fc
          (fc.setInfo a { j with deepestSlot := leaf, height := currentHeight + 1 }) :=
        Agree.setInfo hj rfl
      have hshape := Agree.sameShape (hset.map core)
      obtain ⟨fc', hrun, hagree⟩ := ih (currentHeight + 1) (hshape.tree htree)
        (hchain.2.congr hshape) info_setInfo_self
      refine ⟨fc', ?_, hset.trans hagree⟩
      refine bind_eq_some_iff.mpr ⟨true, hb, ?_⟩
      exact bind_eq_some_iff.mpr ⟨j, hj, hrun⟩

/-- The way of a new leaf: it is attached, spread as the best block if it is the best child, and
then spread as the deepest block. -/
structure LeafAdded (fc : HeaviestSubtreeForkChoice) (leaf p : SlotHashKey) (i : ForkInfo)
    (best fc' : HeaviestSubtreeForkChoice) : Prop where
  spread_best : ((∀ c ∈ (fc.attach leaf p i).childrenOf p,
      (fc.attach leaf p i).Candidate c → ¬(fc.attach leaf p i).Heavier c leaf) ∧
    propagateBest leaf i.bestSlot (p :: (fc.attach leaf p i).ancestorIterator p)
      (fc.attach leaf p i) = some best) ∨
    ((∃ c ∈ (fc.attach leaf p i).childrenOf p,
      (fc.attach leaf p i).Candidate c ∧ (fc.attach leaf p i).Heavier c leaf) ∧
    best = fc.attach leaf p i)
  spread_deepest :
    propagateDeepest leaf (p :: (fc.attach leaf p i).ancestorIterator p) leaf 1 best =
    some fc'
  agree_best : Agree ForkInfo.exceptBest (fc.attach leaf p i) best
  agree_deepest : Agree ForkInfo.exceptDeepest best fc'

/-- Adding a leaf changes best and deepest slots only, beside the new entry. -/
theorem LeafAdded.agree {best : HeaviestSubtreeForkChoice} (h : fc.LeafAdded leaf p i best fc') :
    Agree core (fc.attach leaf p i) fc' :=
  Agree.trans (h.agree_best.map core) (h.agree_deepest.map core)

/-- A new leaf is attached, and then made known to its ancestors. -/
theorem addNewLeafSlot_eq (h : fc.NewLeaf leaf p i) :
    fc.addNewLeafSlot leaf (some p) = (fc.attach leaf p i).propagateNewLeaf leaf p := by
  have habsent : fc.containsBlock leaf = false := by
    rw [containsBlock, h.absent]
    rfl
  have hinfo : (fc.setInfo leaf (fc.newLeaf leaf (some p))).info p = some i :=
    (info_setInfo_ne h.ne).trans h.info
  unfold addNewLeafSlot
  rw [habsent]
  simp only [Bool.false_eq_true, if_false, hinfo]
  rfl

variable (htree : fc.Tree) (h : fc.NewLeaf leaf p i)
include htree h

theorem attach_chain :
    (fc.attach leaf p i).AncestorChain leaf (p :: (fc.attach leaf p i).ancestorIterator p) := by
  have htree' := attach_tree htree h
  rw [← ancestorIterator_cons htree' (parent_attach_leaf h)]
  exact ancestorIterator_chain htree' leaf

theorem attach_chain_info {a : SlotHashKey}
    (ha : a ∈ p :: (fc.attach leaf p i).ancestorIterator p) :
    ∃ j, (fc.attach leaf p i).info a = some j := by
  have htree' := attach_tree htree h
  obtain ⟨q, hq, haq⟩ := (attach_chain htree h).mem ha
  exact htree'.info_of_inSubtree haq (htree'.info_of_parent hq)

/-- Adding a leaf does not panic. -/
theorem addNewLeafSlot_added :
    ∃ best fc', fc.addNewLeafSlot leaf (some p) = some fc' ∧ fc.LeafAdded leaf p i best fc' := by
  have htree' := attach_tree htree h
  have hchain := attach_chain htree h
  have hparentBest : (fc.attach leaf p i).bestSlot p = some i.bestSlot := by
    rw [bestSlot, info_attach_parent, map_some]
  obtain ⟨b, hb, hiff⟩ := isBestChild_eq htree' (info_attach_leaf h) (parent_attach_leaf h)
  have hdeepest : ∀ best, Agree core (fc.attach leaf p i) best → ∃ fc',
      propagateDeepest leaf (p :: (fc.attach leaf p i).ancestorIterator p) leaf 1 best = some fc' ∧
        Agree exceptDeepest best fc' := by
    intro best hagree
    obtain ⟨j, hj, _⟩ := hagree.info (info_attach_leaf h)
    exact propagateDeepest_runs _ 1 (hagree.sameShape.tree htree')
      (hchain.congr hagree.sameShape) hj
  rw [addNewLeafSlot_eq h]
  cases b with
  | false =>
    have hnot : ∃ c ∈ (fc.attach leaf p i).childrenOf p,
        (fc.attach leaf p i).Candidate c ∧ (fc.attach leaf p i).Heavier c leaf := by
      by_contra hnone
      refine absurd (hiff.mpr fun c hc hok hheavier => ?_) (by simp)
      exact hnone ⟨c, hc, hok, hheavier⟩
    obtain ⟨fc', hrun, hagree⟩ := hdeepest _ (.refl _)
    refine ⟨_, fc', ?_, .inr ⟨hnot, rfl⟩, hrun, .refl _, hagree⟩
    refine bind_eq_some_iff.mpr ⟨_, hparentBest, ?_⟩
    refine bind_eq_some_iff.mpr ⟨false, hb, ?_⟩
    exact hrun
  | true =>
    obtain ⟨best, hbest, hagree, _⟩ := propagateBest_spec leaf i.bestSlot _
      (fun a => attach_chain_info htree h) (hchain.nodup htree')
    obtain ⟨fc', hrun, hagree'⟩ := hdeepest best (hagree.map core)
    refine ⟨best, fc', ?_, .inl ⟨hiff.mp rfl, hbest⟩, hrun, hagree, hagree'⟩
    refine bind_eq_some_iff.mpr ⟨_, hparentBest, ?_⟩
    refine bind_eq_some_iff.mpr ⟨true, hb, ?_⟩
    exact bind_eq_some_iff.mpr ⟨best, hbest, hrun⟩

end Propagate

/-- The new leaf is not confirmed. -/
theorem confirmed_attach (h : fc.NewLeaf leaf p i) :
    (fc.attach leaf p i).Confirmed x ↔ fc.Confirmed x := by
  by_cases hx : x = leaf
  · subst hx
    rw [confirmed_of_info (info_attach_leaf h)]
    exact iff_of_false (by simp [newLeaf]) (not_confirmed_of_absent h.absent)
  · exact (sameEntry_attach h hx).confirmed

/-- The new leaf has the latest invalid ancestor of its parent. -/
theorem latest_attach_leaf (h : fc.NewLeaf leaf p i) :
    (fc.attach leaf p i).latestInvalidAncestor leaf = fc.latestInvalidAncestor p :=
  latestInvalidAncestor_of_info (info_attach_leaf h)

/-- The flags stay in order. -/
theorem attach_flags (htree : fc.Tree) (hflags : fc.Flags) (h : fc.NewLeaf leaf p i) :
    (fc.attach leaf p i).Flags := by
  refine ⟨fun {x} hx => ?_, fun {x q} hx hq => ?_, fun {x q s} hq hs => ?_, fun {x s} hs => ?_⟩
  · have hx' := (confirmed_attach h).mp hx
    have hne : x ≠ leaf := fun heq => not_confirmed_of_absent h.absent (heq ▸ hx')
    rw [(sameEntry_attach h hne).latest]
    exact hflags.confirmed_latest hx'
  · have hx' := (confirmed_attach h).mp hx
    have hne : x ≠ leaf := fun heq => not_confirmed_of_absent h.absent (heq ▸ hx')
    rw [parent_attach h hne] at hq
    exact (confirmed_attach h).mpr (hflags.confirmed_parent hx' hq)
  · by_cases hx : x = leaf
    · subst hx
      obtain rfl := some.inj ((parent_attach_leaf h).symm.trans hq)
      rw [(sameEntry_attach h h.ne).latest] at hs
      exact ⟨s, (latest_attach_leaf h).trans hs, le_rfl⟩
    · rw [parent_attach h hx] at hq
      rw [(sameEntry_attach h fun heq => h.not_parent htree (heq ▸ hq)).latest] at hs
      rw [(sameEntry_attach h hx).latest]
      exact hflags.latest_child hq hs
  · by_cases hx : x = leaf
    · subst hx
      rw [latest_attach_leaf h] at hs
      exact (hflags.latest_le hs).trans h.lt.le
    · rw [(sameEntry_attach h hx).latest] at hs
      exact hflags.latest_le hs

theorem Agree.flags (h : Agree core fc fc') (hflags : fc.Flags) : fc'.Flags :=
  SameFlags.flags ⟨fun _ => h.confirmed_iff, fun _ => h.latest_eq⟩ h.sameShape.parent_eq hflags

variable {root : SlotHashKey}

/-- The fork choice of one root. -/
def rootOnly (root : SlotHashKey) : HeaviestSubtreeForkChoice :=
  setInfo ⟨∅, ∅, root⟩ root (newLeaf ⟨∅, ∅, root⟩ root none)

theorem info_rootOnly (h : (rootOnly root).info x = some i) :
    x = root ∧ i = newLeaf ⟨∅, ∅, root⟩ root none := by
  rw [rootOnly, info_setInfo] at h
  split_ifs at h with hx
  · exact ⟨hx, (some.inj h).symm⟩
  · exact absurd (h.symm.trans (AList.lookup_empty x)) (by simp)

theorem parent_rootOnly (x p : SlotHashKey) : (rootOnly root).parent x ≠ some p := by
  intro hp
  obtain ⟨i, hi, hparent⟩ := exists_info_of_parent hp
  rw [(info_rootOnly hi).2] at hparent
  exact absurd hparent (by simp [newLeaf])

theorem childrenOf_rootOnly (x : SlotHashKey) : (rootOnly root).childrenOf x = [] := by
  rw [eq_nil_iff_forall_not_mem]
  intro c hc
  obtain ⟨i, hi⟩ := info_of_mem_childrenOf hc
  rw [childrenOf_of_info hi, (info_rootOnly hi).2] at hc
  exact not_mem_nil hc

/-- It is a tree. -/
theorem rootOnly_tree (root : SlotHashKey) : (rootOnly root).Tree where
  parent_lt := fun hp => absurd hp (parent_rootOnly _ _)
  mem_children := by
    intro x c
    rw [childrenOf_rootOnly]
    exact iff_of_false not_mem_nil (parent_rootOnly c x)
  children_nodup := by
    intro x
    rw [childrenOf_rootOnly]
    exact nodup_nil
  root_mem := ⟨_, info_setInfo_self⟩
  root_iff := by
    intro x i hi
    rw [(info_rootOnly hi).2]
    exact iff_of_true rfl (info_rootOnly hi).1

theorem rootOnly_latest (root x : SlotHashKey) :
    (rootOnly root).latestInvalidAncestor x = none := by
  by_contra hne
  obtain ⟨t, ht⟩ := ne_none_iff_exists'.mp hne
  obtain ⟨i, hi, hlatest⟩ := bind_eq_some_iff.mp ht
  rw [(info_rootOnly hi).2] at hlatest
  exact absurd hlatest (by simp [newLeaf])

end HeaviestSubtreeForkChoice
end Hypergrid
