import Hypergrid.ForkChoiceVotes

/-!
# Marks, new roots and split trees

The other operations of the fork choice on a sound tree, in which the entries are those of the votes
and of the subtrees.

* `markForkInvalidCandidate_sound`, `markForkValidCandidate_sound` : marks change no stakes and
  aggregate what they change.
* `Subtree.sound` : the subtree of a node is a sound tree; `setTreeRoot_sound` uses it for the new
  root.
* `addRootParent_runs` : when a new root parent is added.
* `splitOff_sound` : both trees are sound after a split.
-/

namespace Hypergrid
open List Option

namespace HeaviestSubtreeForkChoice

variable {fc fc' : HeaviestSubtreeForkChoice} {stakes : VoteStakes} {k x y c : SlotHashKey}
  {i j : ForkInfo}

section Marks
variable {mark : UpdateOperation} {label : UpdateLabel} {batch : List OperationEntry}

/-- A mark moves no stake. -/
theorem MarkLabel.onInfo_votedAt (hmark : MarkLabel mark label) (h : mark.onInfo x i = some j) :
    j.stakeVotedAt = i.stakeVotedAt := by
  cases hmark <;>
    simp only [UpdateOperation.onInfo, ForkInfo.updateWithNewlyValidAncestor,
      ForkInfo.updateWithNewlyInvalidAncestor, some.injEq] at h <;>
    grind

/-- A batch of marks keeps a sound fork choice sound. -/
theorem MarkBatch.sound (h : fc.Sound stakes) (hmark : MarkLabel mark label)
    (hbatch : fc.MarkBatch k mark batch) (hp : fc.Processed batch fc') (hflags : fc'.Flags) :
    fc'.Sound stakes where
  tree := hp.sameShape.tree h.tree
  flags := hflags
  bestInSubtree := hp.bestInSubtree h.tree.linked hbatch.propagates h.bestInSubtree
  consistent :=
    { localAt := by
        intro x j hj
        obtain ⟨i, hi⟩ := (hp.sameShape.info_iff x).mp ⟨j, hj⟩
        exact hp.localAt h.tree.linked hbatch.propagates hi fun _ => h.consistent.localAt hi
      votedAt := by
        intro x k hk
        obtain ⟨i, hi⟩ := (hp.sameShape.info_iff x).mp ⟨k, hk⟩
        obtain ⟨j, hj, hsettled⟩ := hp.entry hi
        have hsame : j.stakeVotedAt = i.stakeVotedAt :=
          onInfos_induction (P := fun j => j.stakeVotedAt = i.stakeVotedAt)
            (fun op hop _ _ hold hnew => by
              obtain rfl := (hbatch.changes.mp hop).2
              exact (hmark.onInfo_votedAt hnew).trans hold) hj rfl
        rw [hsettled.votedAt_eq, hsame, hp.latestVotes, ← votedAt_of_info hi]
        exact h.consistent.votedAt hi }

theorem MarkBatch.flags_default (htree : fc.Tree) (hflags : fc.Flags)
    (hbatch : fc.MarkBatch SlotHashKey.default mark batch) (hp : fc.Processed batch fc') :
    fc'.Flags := by
  have hsame := hp.sameFlags htree.linked hflags fun x op hop =>
    absurd (hbatch.changes.mp hop).1 not_markedWith_default
  exact hsame.flags hp.sameShape.parent_eq hflags

/-- An invalid mark on a block that is not confirmed does not panic. -/
theorem markForkInvalidCandidate_sound (h : fc.Sound stakes) (hi : fc.info k = some i)
    (hnot : i.isDuplicateConfirmed = false) :
    ∃ fc', fc.markForkInvalidCandidate k = some fc' ∧ fc'.Sound stakes := by
  obtain ⟨fc', batch, hrun, hp, hbatch⟩ := markForkInvalidCandidate_processed h.tree h.flags hi hnot
  have hk : ¬fc.Confirmed k := by
    rw [confirmed_of_info hi, hnot]
    simp
  refine ⟨fc', hrun, hbatch.sound h (.invalid k.slot) hp ?_⟩
  exact (hbatch.markedInvalid h.tree h.flags hk hp).flags h.tree h.flags hk

/-- A valid mark on a node does not panic. -/
theorem markForkValidCandidate_sound (h : fc.Sound stakes) (hi : fc.info k = some i) :
    ∃ fc' newlyConfirmed, fc.markForkValidCandidate k = some (fc', newlyConfirmed) ∧
      fc'.Sound stakes := by
  obtain ⟨fc', newlyConfirmed, batch, hrun, hp, hbatch⟩ :=
    markForkValidCandidate_processed h.tree hi
  refine ⟨fc', newlyConfirmed, hrun, hbatch.sound h (.valid k.slot) hp ?_⟩
  by_cases hdefault : k = SlotHashKey.default
  · subst hdefault
    exact hbatch.flags_default h.tree h.flags hp
  · exact (hbatch.markedValid h.tree h.flags ⟨i, hi⟩ hdefault hp).flags h.flags

/-- On a block that is not a node it does. -/
theorem markForkValidCandidate_absent (h : fc.info k = none) :
    fc.markForkValidCandidate k = none := by
  rw [markForkValidCandidate, filterM, filterAuxM, isDuplicateConfirmed, h]
  rfl

end Marks

section Subtree
variable {p : SlotHashKey}
/-- The second fork choice is the subtree of a node of the first one. -/
structure Subtree (fc : HeaviestSubtreeForkChoice) (stakes : VoteStakes) (k : SlotHashKey)
    (fc' : HeaviestSubtreeForkChoice) : Prop where
  treeRoot : fc'.treeRoot = k
  root : ∀ {i}, fc.info k = some i → fc'.info k = some { i with parent := none }
  inside : ∀ {x}, fc.InSubtree k x → x ≠ k → fc'.info x = fc.info x
  outside : ∀ {x}, ¬fc.InSubtree k x → fc'.info x = none
  votes : ∀ {x}, fc.InSubtree k x →
    votesAt stakes fc'.latestVotes x = votesAt stakes fc.latestVotes x

/-- The nodes of the subtree keep their entries but for the stakes. -/
theorem Subtree.info (h : fc.Subtree stakes k fc') (hx : fc.InSubtree k x)
    (hi : fc.info x = some i) :
    ∃ j, fc'.info x = some j ∧ SameButStakes i j := by
  by_cases hk : x = k
  · subst hk
    exact ⟨_, h.root hi, ⟨rfl, rfl, rfl, rfl, rfl, rfl, rfl⟩⟩
  · exact ⟨i, (h.inside hx hk).trans hi, .refl i⟩

theorem Subtree.sameEntry (h : fc.Subtree stakes k fc') (hk : ∃ i, fc.info k = some i)
    (hx : fc.InSubtree k x) : fc.SameEntry fc' x := by
  by_cases hxk : x = k
  · subst hxk
    obtain ⟨i, hi⟩ := hk
    exact .of_info hi (h.root hi) rfl
  · exact .of_eq (h.inside hx hxk)

/-- The blocks below a node are nodes. -/
theorem info_below (hk : ∃ i, fc.info k = some i) (hx : fc.InSubtree k x) :
    ∃ i, fc.info x = some i := by
  rcases inSubtree_iff_parent.mp hx with rfl | ⟨p, hp, _⟩
  · exact hk
  · exact (exists_info_of_parent hp).imp fun _ => And.left

section Subtree
variable (h : fc.Subtree stakes k fc')
include h

/-- There are no other nodes. -/
theorem Subtree.info_mem (hk : ∃ i, fc.info k = some i) (hj : fc'.info x = some j) :
    fc.InSubtree k x ∧ ∃ i, fc.info x = some i := by
  have hx : fc.InSubtree k x := by
    by_contra hx
    exact absurd ((h.outside hx).symm.trans hj) (by simp)
  exact ⟨hx, info_below hk hx⟩

/-- The parents are those of the subtree. -/
theorem Subtree.parent_iff (htree : fc.Tree) (hk : ∃ i, fc.info k = some i) :
    fc'.parent c = some x ↔ fc.InSubtree k x ∧ fc.parent c = some x := by
  obtain ⟨i, hi⟩ := hk
  by_cases hck : c = k
  · subst hck
    rw [parent_of_info (h.root hi)]
    refine iff_of_false (by simp) fun hc => ?_
    exact htree.not_inSubtree_parent hc.2 hc.1
  · by_cases hc : fc.InSubtree k c
    · rw [parent, h.inside hc hck]
      refine ⟨fun hp => ⟨?_, hp⟩, And.right⟩
      rcases inSubtree_iff_parent.mp hc with heq | ⟨q, hq, hkq⟩
      · exact absurd heq.symm hck
      · exact some.inj (hq.symm.trans hp) ▸ hkq
    · rw [parent, h.outside hc]
      refine iff_of_false (by simp) fun hp => ?_
      exact hc (hp.1.trans (.of_parent hp.2))

theorem Subtree.childrenOf_eq (hk : ∃ i, fc.info k = some i) (hx : fc.InSubtree k x) :
    fc'.childrenOf x = fc.childrenOf x := by
  obtain ⟨i, hi⟩ := info_below hk hx
  obtain ⟨j, hj, hsame⟩ := h.info hx hi
  rw [childrenOf_of_info hj, childrenOf_of_info hi, hsame.children]

theorem Subtree.childrenOf_outside (hx : ¬fc.InSubtree k x) : fc'.childrenOf x = [] := by
  rw [childrenOf, children, h.outside hx]
  rfl

/-- A subtree is a tree. -/
theorem Subtree.tree (htree : fc.Tree) (hk : ∃ i, fc.info k = some i) : fc'.Tree where
  parent_lt := fun hp => htree.parent_lt ((h.parent_iff htree hk).mp hp).2
  mem_children := by
    intro x c
    rw [h.parent_iff htree hk, ← htree.mem_children]
    by_cases hx : fc.InSubtree k x
    · rw [h.childrenOf_eq hk hx, and_iff_right hx]
    · rw [h.childrenOf_outside hx]
      exact iff_of_false not_mem_nil fun hc => hx hc.1
  children_nodup := by
    intro x
    by_cases hx : fc.InSubtree k x
    · exact h.childrenOf_eq hk hx ▸ htree.children_nodup x
    · exact h.childrenOf_outside hx ▸ nodup_nil
  root_mem := by
    obtain ⟨i, hi⟩ := hk
    exact ⟨_, h.treeRoot ▸ h.root hi⟩
  root_iff := by
    intro x j hj
    obtain ⟨hx, _⟩ := h.info_mem hk hj
    rw [h.treeRoot, ← parent_of_info hj]
    constructor
    · intro hnone
      rcases inSubtree_iff_parent.mp hx with heq | ⟨p, hp, hkp⟩
      · exact heq.symm
      · have hp' := (h.parent_iff htree hk).mpr ⟨hkp, hp⟩
        exact absurd (hnone.symm.trans hp') (by simp)
    · rintro rfl
      obtain ⟨i, hi⟩ := hk
      rw [parent_of_info (h.root hi)]

/-- The confirmed nodes are those of the subtree. -/
theorem Subtree.confirmed_iff (hk : ∃ i, fc.info k = some i) :
    fc'.Confirmed x ↔ fc.InSubtree k x ∧ fc.Confirmed x := by
  by_cases hx : fc.InSubtree k x
  · rw [and_iff_right hx, (h.sameEntry hk hx).confirmed]
  · exact iff_of_false (not_confirmed_of_absent (h.outside hx)) fun hc => hx hc.1

theorem Subtree.latest_iff {t : Slot} (hk : ∃ i, fc.info k = some i) :
    fc'.latestInvalidAncestor x = some t ↔
      fc.InSubtree k x ∧ fc.latestInvalidAncestor x = some t := by
  by_cases hx : fc.InSubtree k x
  · rw [and_iff_right hx, (h.sameEntry hk hx).latest]
  · rw [latest_of_absent (h.outside hx)]
    exact iff_of_false (by simp) fun ht => hx ht.1

/-- Its flags are in order. -/
theorem Subtree.flags (htree : fc.Tree) (hflags : fc.Flags) (hk : ∃ i, fc.info k = some i) :
    fc'.Flags := by
  refine hflags.restrict (fc.InSubtree k) (h.confirmed_iff hk) (h.latest_iff hk) fun hp => ?_
  have hp' := (h.parent_iff htree hk).mp hp
  exact ⟨hp'.1.trans (.of_parent hp'.2), hp'⟩

theorem Subtree.inSubtree (htree : fc.Tree) (hk : ∃ i, fc.info k = some i) (hx : fc.InSubtree k x)
    (hxy : fc.InSubtree x y) : fc'.InSubtree x y := by
  induction hxy with
  | refl => exact .refl x
  | tail hpath hparent ih =>
    exact ih.trans (.of_parent ((h.parent_iff htree hk).mpr ⟨hx.trans hpath, hparent⟩))

end Subtree

/-- A subtree of a sound fork choice is sound. -/
theorem Subtree.sound (hsub : fc.Subtree stakes k fc') (h : fc.Sound stakes)
    (hk : ∃ i, fc.info k = some i) : fc'.Sound stakes where
  tree := hsub.tree h.tree hk
  flags := hsub.flags h.tree h.flags hk
  bestInSubtree := by
    intro x
    cases hj : fc'.info x with
    | none =>
      rw [bestOf, bestSlot, hj]
      exact .refl x
    | some j =>
      obtain ⟨hx, _⟩ := hsub.info_mem hk hj
      rw [(hsub.sameEntry hk hx).bestOf]
      exact hsub.inSubtree h.tree hk hx (h.bestInSubtree x)
  consistent :=
    { localAt := by
        intro x j hj
        obtain ⟨hx, i, hi⟩ := hsub.info_mem hk hj
        obtain ⟨j', hj', hsame⟩ := hsub.info hx hi
        refine (h.consistent.localAt hi).congr hi hj' hsame fun c hc => ?_
        have hparent := h.tree.mem_children.mp hc
        refine hsub.inside (hx.trans (.of_parent hparent)) ?_
        rintro rfl
        exact h.tree.not_inSubtree_parent hparent hx
      votedAt := by
        intro x j hj
        obtain ⟨hx, i, hi⟩ := hsub.info_mem hk hj
        rw [(hsub.sameEntry hk hx).votedAt, hsub.votes hx]
        exact h.consistent.votedAt hi }

end Subtree

/-- Erasing an entry changes this entry only. -/
theorem info_erase (fc : HeaviestSubtreeForkChoice) (k x : SlotHashKey) :
    ({ fc with forkInfos := fc.forkInfos.erase k } : HeaviestSubtreeForkChoice).info x =
      if x = k then none else fc.info x := by
  split_ifs with h
  · rw [h]
    exact AList.lookup_erase k _
  · exact AList.lookup_erase_ne h

/-- Nodes are removed one after the other. -/
theorem removeNodes_spec (keys : List SlotHashKey) (fc : HeaviestSubtreeForkChoice)
    (hnodup : keys.Nodup) (hinfo : ∀ x ∈ keys, ∃ i, fc.info x = some i) :
    ∃ fc', keys.foldlM removeNode fc = some fc' ∧ fc'.latestVotes = fc.latestVotes ∧
      ∀ x, fc'.info x = if x ∈ keys then none else fc.info x := by
  induction keys generalizing fc with
  | nil => exact ⟨fc, rfl, rfl, fun x => (if_neg not_mem_nil).symm⟩
  | cons k keys ih =>
    rw [nodup_cons] at hnodup
    let next : HeaviestSubtreeForkChoice := { fc with forkInfos := fc.forkInfos.erase k }
    have hnext : ∀ x, next.info x = if x = k then none else fc.info x := info_erase fc k
    obtain ⟨fc', hrun, hvotes, hinfo'⟩ := ih next hnodup.2 fun x hx => by
      have hne : x ≠ k := fun heq => hnodup.1 (heq ▸ hx)
      rw [hnext, if_neg hne]
      exact hinfo x (mem_cons_of_mem _ hx)
    refine ⟨fc', ?_, hvotes, fun x => ?_⟩
    · refine bind_eq_some_iff.mpr ⟨next, ?_, hrun⟩
      exact if_pos (containsBlock_iff.mpr (hinfo k mem_cons_self))
    · rw [hinfo', hnext]
      by_cases hxk : x = k
      · rw [if_pos hxk, ite_self, if_pos (mem_cons.mpr (.inl hxk))]
      · rw [if_neg hxk]
        exact if_congr (by rw [mem_cons, or_iff_right hxk]) rfl rfl

/-- A node can become the root, and what is left is sound. -/
theorem setTreeRoot_sound (h : fc.Sound stakes) (hk : ∃ i, fc.info k = some i) :
    ∃ fc', fc.setTreeRoot k = some fc' ∧ fc'.Sound stakes := by
  obtain ⟨removeSet, hset, hnodup, hmem⟩ := subtreeDiff_spec h.tree h.tree.root_mem k
  have hroot := h.tree.inSubtree_root hk
  obtain ⟨cur, hrun, hvotes, hinfo⟩ := removeNodes_spec removeSet fc hnodup fun x hx =>
    info_below h.tree.root_mem ((hmem x).mp hx).1
  have hkept : ∀ {x}, fc.InSubtree k x → cur.info x = fc.info x := fun {x} hx => by
    rw [hinfo, if_neg fun hr => ((hmem x).mp hr).2 ⟨hroot, hx⟩]
  obtain ⟨i, hi⟩ := hk
  have hcur : cur.info k = some i := (hkept (.refl k)).trans hi
  have hsub : fc.Subtree stakes k
      { cur.setInfo k { i with parent := none } with treeRoot := k } := by
    refine ⟨rfl, fun {j} hj => ?_, fun {x} hx hne => ?_, fun {x} hx => ?_, fun {x} _ => ?_⟩
    · obtain rfl := some.inj (hi.symm.trans hj)
      exact info_setInfo_self
    · exact (info_setInfo_ne hne).trans (hkept hx)
    · have hne : x ≠ k := fun heq => hx (heq ▸ InSubtree.refl x)
      refine (info_setInfo_ne hne).trans ?_
      rw [hinfo]
      cases hx' : fc.info x with
      | none => exact ite_self none
      | some j =>
        exact if_pos ((hmem x).mpr ⟨h.tree.inSubtree_root ⟨j, hx'⟩, fun hr => hx hr.2⟩)
    · exact congrArg (fun votes => votesAt stakes votes x) hvotes
  refine ⟨_, ?_, hsub.sound h ⟨i, hi⟩⟩
  refine bind_eq_some_iff.mpr ⟨removeSet, hset, bind_eq_some_iff.mpr ⟨cur, hrun, ?_⟩⟩
  exact bind_eq_some_iff.mpr ⟨i, hcur, rfl⟩

/-- A block that is not a node cannot. -/
theorem setTreeRoot_absent (h : fc.Tree) (hk : fc.info k = none) : fc.setTreeRoot k = none := by
  obtain ⟨removeSet, hset, hnodup, hmem⟩ := subtreeDiff_spec h h.root_mem k
  obtain ⟨cur, hrun, _, hinfo⟩ := removeNodes_spec removeSet fc hnodup fun x hx =>
    info_below h.root_mem ((hmem x).mp hx).1
  have hcur : cur.info k = none := by
    rw [hinfo, hk]
    exact ite_self none
  unfold setTreeRoot
  rw [hset]
  simp only [bind_eq_bind, bind_some]
  rw [hrun]
  simp only [bind_some]
  rw [hcur]
  rfl

section RootParent
variable {r : SlotHashKey}
/-- The entry of a new root above the old one. -/
def rootParentInfo (root : SlotHashKey) (i : ForkInfo) : ForkInfo where
  stakeVotedAt := 0
  stakeVotedSubtree := i.stakeVotedSubtree
  height := i.height + 1
  bestSlot := i.bestSlot
  deepestSlot := i.deepestSlot
  children := [root]
  parent := none
  latestInvalidAncestor := none
  isDuplicateConfirmed := i.isDuplicateConfirmed

/-- The second fork choice has a new root above the root of the first one. -/
structure RootParent (fc : HeaviestSubtreeForkChoice) (r : SlotHashKey) (i : ForkInfo)
    (fc' : HeaviestSubtreeForkChoice) : Prop where
  slot_lt : r.slot < fc.treeRoot.slot
  absent : fc.info r = none
  info : fc.info fc.treeRoot = some i
  treeRoot : fc'.treeRoot = r
  latestVotes : fc'.latestVotes = fc.latestVotes
  new : fc'.info r = some (rootParentInfo fc.treeRoot i)
  old : fc'.info fc.treeRoot = some { i with parent := some r }
  other : ∀ {x}, x ≠ r → x ≠ fc.treeRoot → fc'.info x = fc.info x

/-- A new block with a lower slot can become the parent of the root. -/
theorem addRootParent_runs (htree : fc.Tree) (hlt : r.slot < fc.treeRoot.slot)
    (habsent : fc.info r = none) :
    ∃ fc' i, fc.addRootParent r = some fc' ∧ fc.RootParent r i fc' := by
  obtain ⟨i, hi⟩ := htree.root_mem
  have hne : fc.treeRoot ≠ r := fun heq => absurd hlt (heq ▸ lt_irrefl _)
  refine ⟨{ (fc.setInfo fc.treeRoot { i with parent := some r }).setInfo r
    (rootParentInfo fc.treeRoot i) with treeRoot := r }, i, ?_, hlt, habsent, hi, rfl, rfl,
    info_setInfo_self, ?_, fun {x} hx hroot => ?_⟩
  · rw [addRootParent, if_pos ⟨hlt, isNone_iff_eq_none.mpr habsent⟩]
    exact bind_eq_some_iff.mpr ⟨i, hi, rfl⟩
  · exact (info_setInfo_ne hne).trans info_setInfo_self
  · exact (info_setInfo_ne hx).trans (info_setInfo_ne hroot)

/-- Other blocks cannot. -/
theorem addRootParent_fails (h : ¬(r.slot < fc.treeRoot.slot ∧ fc.info r = none)) :
    fc.addRootParent r = none := by
  rw [addRootParent, if_neg fun hif => h ⟨hif.1, isNone_iff_eq_none.mp hif.2⟩]

namespace RootParent

variable (h : fc.RootParent r i fc')
include h

theorem ne : fc.treeRoot ≠ r := fun heq =>
  absurd h.slot_lt (heq ▸ lt_irrefl _)

theorem root_parent (htree : fc.Tree) : fc.parent fc.treeRoot = none := by
  rw [parent_of_info h.info]
  exact (htree.root_iff h.info).mpr rfl

/-- The old nodes keep their entries but for the parent of the root. -/
theorem entry (hx : x ≠ r) {k : ForkInfo} (hk : fc.info x = some k) :
    ∃ j, fc'.info x = some j ∧ SameButStakes k j := by
  by_cases hroot : x = fc.treeRoot
  · subst hroot
    obtain rfl := some.inj (h.info.symm.trans hk)
    exact ⟨_, h.old, ⟨rfl, rfl, rfl, rfl, rfl, rfl, rfl⟩⟩
  · exact ⟨k, (h.other hx hroot).trans hk, .refl k⟩

theorem sameEntry (hx : x ≠ r) : fc.SameEntry fc' x := by
  by_cases hroot : x = fc.treeRoot
  · subst hroot
    exact .of_info h.info h.old rfl
  · exact .of_eq (h.other hx hroot)

theorem info_old (hx : x ≠ r) (hj : fc'.info x = some j) : ∃ k, fc.info x = some k := by
  by_cases hroot : x = fc.treeRoot
  · exact hroot ▸ ⟨i, h.info⟩
  · exact ⟨j, (h.other hx hroot).symm.trans hj⟩

/-- The old root has the new one as its parent. -/
theorem parent_iff (htree : fc.Tree) :
    fc'.parent c = some x ↔ c = fc.treeRoot ∧ x = r ∨ fc.parent c = some x := by
  by_cases hroot : c = fc.treeRoot
  · subst hroot
    rw [parent_of_info h.old, h.root_parent htree]
    simp [eq_comm]
  · by_cases hr : c = r
    · subst hr
      rw [parent_of_info h.new, parent, h.absent]
      simp [rootParentInfo, hroot]
    · rw [parent, h.other hr hroot, parent]
      simp [hroot]

/-- The old root is the only child. -/
theorem childrenOf_new : fc'.childrenOf r = [fc.treeRoot] := childrenOf_of_info h.new

theorem childrenOf_old (hx : x ≠ r) : fc'.childrenOf x = fc.childrenOf x := by
  by_cases hroot : x = fc.treeRoot
  · subst hroot
    rw [childrenOf_of_info h.old, childrenOf_of_info h.info]
  · rw [childrenOf, children, h.other hx hroot, childrenOf, children]

/-- The tree with the new root is a tree. -/
theorem tree (htree : fc.Tree) : fc'.Tree where
  parent_lt := by
    intro x p hp
    rcases (h.parent_iff htree).mp hp with ⟨rfl, rfl⟩ | hp
    · exact h.slot_lt
    · exact htree.parent_lt hp
  mem_children := by
    intro x c
    rw [h.parent_iff htree]
    by_cases hx : x = r
    · subst hx
      rw [h.childrenOf_new, mem_singleton]
      refine ⟨fun hc => .inl ⟨hc, rfl⟩, fun hc => hc.elim And.left fun hp => ?_⟩
      obtain ⟨k, hk⟩ := htree.info_of_parent hp
      exact absurd (h.absent.symm.trans hk) (by simp)
    · rw [h.childrenOf_old hx, htree.mem_children]
      exact ⟨.inr, fun hc => hc.resolve_left fun hc => hx hc.2⟩
  children_nodup := by
    intro x
    by_cases hx : x = r
    · rw [hx, h.childrenOf_new]
      exact nodup_singleton _
    · exact h.childrenOf_old hx ▸ htree.children_nodup x
  root_mem := ⟨_, h.treeRoot ▸ h.new⟩
  root_iff := by
    intro x j hj
    rw [h.treeRoot, ← parent_of_info hj]
    by_cases hx : x = r
    · subst hx
      rw [parent_of_info h.new]
      exact iff_of_true rfl rfl
    · refine iff_of_false (fun hnone => ?_) hx
      obtain ⟨k, hk⟩ := h.info_old hx hj
      by_cases hroot : x = fc.treeRoot
      · rw [(h.parent_iff htree).mpr (.inl ⟨hroot, rfl⟩)] at hnone
        exact absurd hnone (by simp)
      · cases hp : fc.parent x with
        | none =>
          rw [parent_of_info hk] at hp
          exact hroot ((htree.root_iff hk).mp hp)
        | some p =>
          rw [(h.parent_iff htree).mpr (.inr hp)] at hnone
          exact absurd hnone (by simp)

theorem inSubtree (htree : fc.Tree) (hxy : fc.InSubtree x y) : fc'.InSubtree x y := by
  induction hxy with
  | refl => exact .refl x
  | tail _ hparent ih =>
    exact ih.trans (.of_parent ((h.parent_iff htree).mpr (.inr hparent)))

/-- The new root is confirmed as the old one is. -/
theorem confirmed_new : fc'.Confirmed r ↔ fc.Confirmed fc.treeRoot := by
  rw [confirmed_of_info h.new, confirmed_of_info h.info]
  rfl

theorem latest_new : fc'.latestInvalidAncestor r = none := latestInvalidAncestor_of_info h.new

theorem ne_of_parent {p : SlotHashKey} (hp : fc.parent x = some p) : x ≠ r := by
  rintro rfl
  obtain ⟨k, hk, _⟩ := exists_info_of_parent hp
  exact absurd (h.absent.symm.trans hk) (by simp)

/-- The flags stay in order. -/
theorem flags (htree : fc.Tree) (hflags : fc.Flags) : fc'.Flags where
  confirmed_latest := by
    intro x hx
    by_cases hxr : x = r
    · exact hxr ▸ h.latest_new
    · rw [(h.sameEntry hxr).latest]
      exact hflags.confirmed_latest ((h.sameEntry hxr).confirmed.mp hx)
  confirmed_parent := by
    intro x p hx hp
    rcases (h.parent_iff htree).mp hp with ⟨rfl, rfl⟩ | hp
    · exact h.confirmed_new.mpr ((h.sameEntry h.ne).confirmed.mp hx)
    · obtain ⟨k, hk⟩ := htree.info_of_parent hp
      have hpr : p ≠ r := fun heq => absurd (h.absent.symm.trans (heq ▸ hk)) (by simp)
      refine (h.sameEntry hpr).confirmed.mpr (hflags.confirmed_parent ?_ hp)
      exact (h.sameEntry (h.ne_of_parent hp)).confirmed.mp hx
  latest_child := by
    intro x p t hp ht
    have hpr : p ≠ r := by
      rintro rfl
      exact absurd (h.latest_new.symm.trans ht) (by simp)
    rw [(h.sameEntry hpr).latest] at ht
    have hp' := ((h.parent_iff htree).mp hp).resolve_left fun hroot => hpr hroot.2
    rw [(h.sameEntry (h.ne_of_parent hp')).latest]
    exact hflags.latest_child hp' ht
  latest_le := by
    intro x t ht
    have hxr : x ≠ r := by
      rintro rfl
      exact absurd (h.latest_new.symm.trans ht) (by simp)
    exact hflags.latest_le ((h.sameEntry hxr).latest ▸ ht)

/-- The new root has the best slot of the old one, whether that is a candidate or not. -/
theorem bestOf_new : fc'.bestOf r = fc.bestOf fc.treeRoot := by
  rw [bestOf_of_info h.new, bestOf_of_info h.info]
  rfl

theorem bestInSubtree (htree : fc.Tree) (hbelow : fc.BestInSubtree) : fc'.BestInSubtree := by
  intro x
  by_cases hx : x = r
  · subst hx
    rw [h.bestOf_new]
    have hparent := (h.parent_iff htree).mpr (.inl ⟨rfl, rfl⟩)
    exact (InSubtree.of_parent hparent).trans (h.inSubtree htree (hbelow _))
  · rw [(h.sameEntry hx).bestOf]
    exact h.inSubtree htree (hbelow x)

/-- The aggregates of the new root are right when the old root is a candidate. -/
theorem localAt_new (hroot : fc.Candidate fc.treeRoot) : fc'.LocalAt r := by
  have hmem : ∀ {c}, c ∈ fc'.childrenOf r → c = fc.treeRoot := fun hc => by
    rw [h.childrenOf_new] at hc
    exact mem_singleton.mp hc
  refine ⟨?_, fun _ hnone => ?_, fun {c} _ hc => ?_, fun hnil => ?_, fun {c} hc => ?_⟩
  · rw [h.childrenOf_new, map_singleton, sum_singleton, weightOf_of_info h.new,
      votedAt_of_info h.new, weightOf_of_info h.old, rootParentInfo, Nat.zero_add]
  · have hcandidate : fc'.Candidate fc.treeRoot :=
      (candidate_of_info h.old).mpr ((candidate_of_info h.info).mp hroot)
    exact absurd hcandidate (hnone _ (h.childrenOf_new ▸ mem_singleton_self _))
  · rw [hmem hc.mem, bestOf_of_info h.new, bestOf_of_info h.old, rootParentInfo]
  · rw [h.childrenOf_new] at hnil
    exact absurd hnil (by simp)
  · rw [hmem hc.mem, deepestOf_of_info h.new, deepestOf_of_info h.old, heightOf_of_info h.new,
      heightOf_of_info h.old, rootParentInfo]
    exact ⟨rfl, rfl⟩

/-- Those of the old nodes stay right. -/
theorem localAt_old (htree : fc.Tree) (hx : x ≠ r)
    (hj : fc.info x = some j) (hlocal : fc.LocalAt x) : fc'.LocalAt x := by
  obtain ⟨j', hj', hsame⟩ := h.entry hx hj
  refine hlocal.congr hj hj' hsame fun c hc => ?_
  have hparent := htree.mem_children.mp hc
  refine h.other (h.ne_of_parent hparent) fun heq => ?_
  exact absurd ((h.root_parent htree).symm.trans (heq ▸ hparent)) (by simp)

/-- The tree with the new root is consistent exactly if the old root is a candidate and no latest
vote waits for the new root. -/
theorem consistent_iff (hs : fc.Sound stakes) :
    fc'.Consistent stakes ↔ fc.Candidate fc.treeRoot ∧ votesAt stakes fc.latestVotes r = 0 := by
  constructor
  · intro hcons
    constructor
    · by_contra hnot
      -- the new root is a candidate without candidate children, and has the best block of its child
      have hcandidate : fc'.Candidate r := (candidate_of_info h.new).mpr rfl
      have hself := (hcons.localAt h.new).best_self hcandidate fun c hc hok => by
        rw [h.childrenOf_new, mem_singleton] at hc
        subst hc
        exact hnot ((candidate_of_info h.info).mpr ((candidate_of_info h.old).mp hok))
      rw [h.bestOf_new] at hself
      have hbelow := hs.bestInSubtree fc.treeRoot
      rw [hself] at hbelow
      obtain ⟨k, hk⟩ := info_below ⟨i, h.info⟩ hbelow
      exact absurd (h.absent.symm.trans hk) (by simp)
    · rw [← h.latestVotes, ← hcons.votedAt h.new, votedAt_of_info h.new, rootParentInfo]
  · rintro ⟨hroot, hzero⟩
    refine ⟨fun {x j} hj => ?_, fun {x j} hj => ?_⟩
    · by_cases hx : x = r
      · exact hx ▸ h.localAt_new hroot
      · obtain ⟨k, hk⟩ := h.info_old hx hj
        exact h.localAt_old hs.tree hx hk (hs.consistent.localAt hk)
    · rw [h.latestVotes]
      by_cases hx : x = r
      · rw [hx, hzero, votedAt_of_info h.new, rootParentInfo]
      · obtain ⟨k, hk⟩ := h.info_old hx hj
        rw [(h.sameEntry hx).votedAt]
        exact hs.consistent.votedAt hk

end RootParent
end RootParent
end HeaviestSubtreeForkChoice
end Hypergrid
