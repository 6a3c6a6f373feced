import Hypergrid.ForkChoiceRoots

/-!
# Splitting off a subtree

`split_off` takes a subtree out of the tree: the subtree is cut off its parent, the ancestors are
aggregated without it, and its nodes are moved to a tree of their own.

* `moveSubtree_spec` : the walk moves exactly the nodes of the subtree.
* `Pruned.sound`, `splitOff_sound` : the tree that is left and the tree that is split off are sound.
-/

namespace Hypergrid
open List Option AList

namespace HeaviestSubtreeForkChoice

variable {fc fc' : HeaviestSubtreeForkChoice} {k p x y c : SlotHashKey} {i : ForkInfo}
  {stakes : VoteStakes}

/-- The fork choice after the block is taken from the children of its parent. -/
def cut (fc : HeaviestSubtreeForkChoice) (p k : SlotHashKey) (i : ForkInfo) :
    HeaviestSubtreeForkChoice :=
  fc.setInfo p { i with children := i.children.erase k }

/-- The block has this parent with this entry. -/
structure ParentEntry (fc : HeaviestSubtreeForkChoice) (k p : SlotHashKey)
    (i : ForkInfo) : Prop where
  parent : fc.parent k = some p
  info : fc.info p = some i

theorem ParentEntry.mem (h : fc.ParentEntry k p i) (htree : fc.Tree) : k ∈ i.children := by
  rw [← childrenOf_of_info h.info]
  exact htree.mem_children.mpr h.parent

theorem info_cut_self : (fc.cut p k i).info p = some { i with children := i.children.erase k } :=
  info_setInfo_self

section ParentEntry
variable (h : fc.ParentEntry k p i)
include h

/-- The block itself still names its parent. -/
theorem parent_cut (x : SlotHashKey) : (fc.cut p k i).parent x = fc.parent x := by
  unfold cut parent
  rw [info_setInfo]
  split_ifs with hx
  · rw [hx, h.info]
    rfl
  · rfl

theorem inSubtree_cut : (fc.cut p k i).InSubtree = fc.InSubtree := by
  unfold InSubtree
  simp only [parent_cut h]

/-- The children are the same but for the block. -/
theorem childrenOf_cut (htree : fc.Tree) (x : SlotHashKey) :
    (fc.cut p k i).childrenOf x = (fc.childrenOf x).erase k := by
  by_cases hx : x = p
  · subst hx
    rw [childrenOf_of_info h.info, childrenOf_of_info info_cut_self]
  · have hk : k ∉ fc.childrenOf x := fun hmem =>
      hx (some.inj ((htree.mem_children.mp hmem).symm.trans h.parent))
    rw [erase_of_not_mem hk, cut, childrenOf, children, info_setInfo_ne hx, childrenOf, children]

theorem mem_childrenOf_cut (htree : fc.Tree) :
    c ∈ (fc.cut p k i).childrenOf x ↔ c ≠ k ∧ fc.parent c = some x := by
  rw [childrenOf_cut h htree, (htree.children_nodup x).mem_erase_iff, htree.mem_children]

/-- The lists of children stay linked. -/
theorem linked_cut (htree : fc.Tree) : (fc.cut p k i).Linked where
  parent := by
    intro x c hc
    rw [parent_cut h]
    exact ((mem_childrenOf_cut h htree).mp hc).2
  slot_lt := fun hc => htree.parent_lt ((mem_childrenOf_cut h htree).mp hc).2

theorem sameEntry_cut (x : SlotHashKey) : fc.SameEntry (fc.cut p k i) x := by
  by_cases hx : x = p
  · subst hx
    exact .of_info h.info info_cut_self rfl
  · exact .of_eq (info_setInfo_ne hx)

theorem sameFlags_cut : fc.SameFlags (fc.cut p k i) :=
  ⟨fun x => (sameEntry_cut h x).confirmed, fun x => (sameEntry_cut h x).latest⟩

theorem bestInSubtree_cut (hbelow : fc.BestInSubtree) : (fc.cut p k i).BestInSubtree := by
  intro x
  rw [inSubtree_cut h, (sameEntry_cut h x).bestOf]
  exact hbelow x

end ParentEntry

/-- The aggregates beside the ancestors of the block stay right. -/
theorem localAt_cut (htree : fc.Tree) {j : ForkInfo}
    (hj : fc.info x = some j) (hx : ¬fc.InSubtree x p) (hlocal : fc.LocalAt x) :
    (fc.cut p k i).LocalAt x := by
  have hxp : x ≠ p := fun heq => hx (heq ▸ InSubtree.refl x)
  refine hlocal.congr hj ((info_setInfo_ne hxp).trans hj) (.refl j) fun c hc => ?_
  refine info_setInfo_ne fun heq => hx ?_
  exact heq ▸ InSubtree.of_parent (htree.mem_children.mp hc)

section Batch
variable {batch : List OperationEntry}

/-- The batch aggregates the ancestors of a block and does nothing else. -/
structure AncestorBatch (fc : HeaviestSubtreeForkChoice) (p : SlotHashKey)
    (batch : List OperationEntry) : Prop where
  aggregated : ∀ {x}, AggregatedIn batch x ↔ fc.InSubtree x p
  changes : ∀ x, changesAt batch x = []

/-- The operations of a split are those of the ancestors of the block. -/
theorem ancestorBatch_insert (htree : fc.Tree) (hk : fc.parent k = some p) :
    Labelled (fc.insertAggregateOperations ∅ k) ∧
      fc.AncestorBatch p (descending (fc.insertAggregateOperations ∅ k)) := by
  have hempty := StakeBatch.empty fc
  obtain ⟨hmore, _⟩ := insertAggregateOperations_spec (k := k) htree hempty.labelled
    fun hx hp _ => hempty.closed hx hp
  refine ⟨hmore.labelled, fun {x} => ?_, fun x => ?_⟩
  · rw [aggregatedIn_descending hmore.labelled, hmore.aggregates, hk]
    simp [Aggregates]
  · refine eq_nil_iff_forall_not_mem.mpr fun op hop => ?_
    obtain ⟨hne, l, hl⟩ := mem_changesAt.mp hop
    have hlabel : l ≠ .aggregate := fun heq => hne ((hmore.labelled hl).mp heq)
    rw [hmore.other (o := (x, l)) hlabel, lookup_empty] at hl
    exact absurd hl (by simp)

theorem AncestorBatch.propagates (h : fc.AncestorBatch p batch)
    (hparent : ∀ x, fc'.parent x = fc.parent x) : fc'.Propagates batch where
  aggregated := by
    intro x q hx hq
    rw [hparent] at hq
    exact h.aggregated.mpr ((InSubtree.of_parent hq).trans (h.aggregated.mp hx))
  changed := fun {x _} hx => absurd (h.changes x) hx
  stakeOnly := by
    intro x _
    rw [h.changes]
    exact fun _ hop => absurd hop not_mem_nil

/-- They change no other entry. -/
theorem AncestorBatch.info_eq {cur : HeaviestSubtreeForkChoice} (h : fc.AncestorBatch p batch)
    (hp : cur.Processed batch fc') (hx : ¬fc.InSubtree x p) : fc'.info x = cur.info x := by
  cases hi : cur.info x with
  | none => exact hp.absent hi
  | some i =>
    obtain ⟨j, hj, hsettled⟩ := hp.entry hi
    rw [h.changes] at hj
    obtain rfl := some.inj hj
    exact hsettled.elim And.right fun hagg => absurd (h.aggregated.mp hagg.1) hx

/-- The tree whose subtree was cut off and whose ancestors were aggregated. -/
structure Trimmed (fc : HeaviestSubtreeForkChoice) (stakes : VoteStakes) (k p : SlotHashKey)
    (fc' : HeaviestSubtreeForkChoice) : Prop where
  treeRoot : fc'.treeRoot = fc.treeRoot
  latestVotes : fc'.latestVotes = fc.latestVotes
  info_iff : ∀ x, (∃ i, fc'.info x = some i) ↔ ∃ i, fc.info x = some i
  parent : ∀ x, fc'.parent x = fc.parent x
  mem_children : ∀ {x c}, c ∈ fc'.childrenOf x ↔ c ≠ k ∧ fc.parent c = some x
  children_nodup : ∀ x, (fc'.childrenOf x).Nodup
  inside : ∀ {x}, fc.InSubtree k x → fc'.info x = fc.info x
  sameFlags : fc.SameFlags fc'
  best : ∀ x, ¬fc.InSubtree k x → fc.InSubtree x (fc'.bestOf x) ∧ ¬fc.InSubtree k (fc'.bestOf x)
  localAt : ∀ {x i}, fc'.info x = some i → fc'.LocalAt x
  votedAt : ∀ {x i}, fc'.info x = some i → fc'.votedAt x = votesAt stakes fc.latestVotes x

variable (hs : fc.Sound stakes) (hentry : fc.ParentEntry k p i) (hbatch : fc.AncestorBatch p batch)
include hs hentry hbatch

/-- After them no best slot outside the subtree is in it. -/
theorem AncestorBatch.best_outside (hp : (fc.cut p k i).Processed batch fc')
    (hx : ¬fc.InSubtree k x) : ¬fc.InSubtree k (fc'.bestOf x) := by
  have hlinked := linked_cut hentry hs.tree
  have hbelow : fc'.BestInSubtree := hp.bestInSubtree hlinked
    (hbatch.propagates (parent_cut hentry)) (bestInSubtree_cut hentry hs.bestInSubtree)
  have hsub : fc'.InSubtree = fc.InSubtree := hp.sameShape.inSubtree_eq.trans (inSubtree_cut hentry)
  suffices hall : ∀ x, ¬fc.InSubtree k x → ¬fc.InSubtree k (fc'.bestOf x) from hall x hx
  refine hlinked.children_induction fun x ih hx => ?_
  by_cases hxp : fc.InSubtree x p
  · -- an ancestor has itself or the best block of one of the other children
    obtain ⟨j, hj⟩ := hs.tree.info_of_inSubtree hxp ⟨i, hentry.info⟩
    obtain ⟨j', hj'⟩ : ∃ j', (fc.cut p k i).info x = some j' := by
      rw [cut, info_setInfo]
      split_ifs
      · exact ⟨_, rfl⟩
      · exact ⟨j, hj⟩
    rcases hp.best_cases hlinked hj' (hbatch.aggregated.mpr hxp) with heq | ⟨c, hc, heq⟩
    · rw [heq]
      exact hx
    · rw [heq]
      obtain ⟨hck, hcx⟩ := (mem_childrenOf_cut hentry hs.tree).mp hc
      refine ih c hc fun hkc => ?_
      rcases inSubtree_iff_parent.mp hkc with rfl | ⟨q, hq, hkq⟩
      · exact hck rfl
      · exact hx (some.inj (hq.symm.trans hcx) ▸ hkq)
  · -- any other node has the whole subtree on one side
    intro hkb
    have hxb := hbelow x
    rw [hsub] at hxb
    rcases hs.tree.comparable hkb hxb with hkx | hxk
    · exact hx hkx
    · rcases inSubtree_iff_parent.mp hxk with rfl | ⟨q, hq, hxq⟩
      · exact hx (.refl x)
      · exact hxp (some.inj (hq.symm.trans hentry.parent) ▸ hxq)

/-- They trim the ancestors of the block. -/
theorem AncestorBatch.trimmed (hp : (fc.cut p k i).Processed batch fc') :
    fc.Trimmed stakes k p fc' := by
  have hlinked := linked_cut hentry hs.tree
  have hprop := hbatch.propagates (parent_cut hentry)
  have hsub : fc'.InSubtree = fc.InSubtree := hp.sameShape.inSubtree_eq.trans (inSubtree_cut hentry)
  have hiff : ∀ x, (∃ j, fc'.info x = some j) ↔ ∃ j, fc.info x = some j := by
    intro x
    rw [hp.sameShape.info_iff, cut, info_setInfo]
    split_ifs with hx
    · exact iff_of_true ⟨_, rfl⟩ (hx ▸ ⟨i, hentry.info⟩)
    · rfl
  have hflags := hp.sameFlags hlinked ((sameFlags_cut hentry).flags (parent_cut hentry) hs.flags)
    fun x op hop => absurd (hbatch.changes x ▸ hop) not_mem_nil
  refine ⟨hp.treeRoot, hp.latestVotes, hiff, fun x => ?_, fun {x c} => ?_, fun x => ?_,
    fun {x} hx => ?_, ⟨fun x => ?_, fun x => ?_⟩, fun x hx => ⟨?_, ?_⟩, fun {x j} hj => ?_,
    fun {x j} hj => ?_⟩
  · rw [hp.sameShape.parent_eq, parent_cut hentry]
  · rw [hp.sameShape.childrenOf_eq, mem_childrenOf_cut hentry hs.tree]
  · rw [hp.sameShape.childrenOf_eq, childrenOf_cut hentry hs.tree]
    exact (hs.tree.children_nodup x).erase k
  · have hxp : ¬fc.InSubtree x p :=
      fun hxp => hs.tree.not_inSubtree_parent hentry.parent (hx.trans hxp)
    rw [hbatch.info_eq hp hxp]
    exact info_setInfo_ne fun heq => hxp (heq ▸ InSubtree.refl x)
  · exact (hflags.confirmed x).trans ((sameFlags_cut hentry).confirmed x)
  · exact (hflags.latest x).trans ((sameFlags_cut hentry).latest x)
  · rw [← hsub]
    exact hp.bestInSubtree hlinked hprop (bestInSubtree_cut hentry hs.bestInSubtree) x
  · exact hbatch.best_outside hs hentry hp hx
  · obtain ⟨j', hj'⟩ := (hp.sameShape.info_iff x).mp ⟨j, hj⟩
    refine hp.localAt hlinked hprop hj' fun hnot => ?_
    obtain ⟨j₀, hj₀⟩ := (hiff x).mp ⟨j, hj⟩
    exact localAt_cut hs.tree hj₀ (fun hxp => hnot (hbatch.aggregated.mpr hxp))
      (hs.consistent.localAt hj₀)
  · obtain ⟨j', hj'⟩ := (hp.sameShape.info_iff x).mp ⟨j, hj⟩
    obtain ⟨j'', hchanges, hsettled⟩ := hp.entry hj'
    rw [hbatch.changes] at hchanges
    obtain rfl := some.inj hchanges
    obtain ⟨j₀, hj₀⟩ := (hiff x).mp ⟨j, hj⟩
    rw [hsettled.votedAt_eq, ← votedAt_of_info hj', (sameEntry_cut hentry x).votedAt]
    exact hs.consistent.votedAt hj₀

end Batch

section Move
variable {pending : List SlotHashKey}

/-- A pending block stands for itself and its children. -/
theorem covers_cons_iff (htree : fc.Tree) : fc.Covers (x :: pending) y ↔
    y = x ∨ fc.Covers ((fc.childrenOf x).reverse ++ pending) y := by
  constructor
  · rintro ⟨z, hz, hzy⟩
    rcases mem_cons.mp hz with rfl | hz
    · rcases inSubtree_iff_child.mp hzy with heq | ⟨c, hc, hcy⟩
      · exact .inl heq.symm
      · refine .inr ⟨c, mem_append_left _ (mem_reverse.mpr ?_), hcy⟩
        exact htree.mem_children.mpr hc
    · exact .inr ⟨z, mem_append_right _ hz, hzy⟩
  · rintro (rfl | hy)
    · exact ⟨y, mem_cons_self, .refl y⟩
    · exact covers_pop htree hy

/-- The loop of `split_off` moves what the pending blocks cover. -/
theorem moveSubtree_spec (htree : fc.Tree) (fuel : Nat) (pending : List SlotHashKey)
    (cur : HeaviestSubtreeForkChoice) (split : AList (fun _ : SlotHashKey => ForkInfo))
    (hcur : ∀ y, fc.Covers pending y → cur.info y = fc.info y)
    (hinfo : ∀ x ∈ pending, ∃ i, fc.info x = some i) (hsep : fc.Separate pending)
    (hfuel : (fc.covered pending).card ≤ fuel) :
    ∃ cur' split', moveSubtree fuel pending cur split = some (cur', split') ∧
      cur'.latestVotes = cur.latestVotes ∧ cur'.treeRoot = cur.treeRoot ∧
      (∀ y, fc.Covers pending y → cur'.info y = none ∧ split'.lookup y = fc.info y) ∧
      ∀ y, ¬fc.Covers pending y → cur'.info y = cur.info y ∧ split'.lookup y = split.lookup y := by
  have hnone {y : SlotHashKey} : ¬fc.Covers [] y := fun ⟨_, hz, _⟩ => not_mem_nil hz
  induction fuel generalizing pending cur split with
  | zero =>
    obtain rfl := eq_nil_of_covered hinfo hfuel
    exact ⟨cur, split, rfl, rfl, rfl, fun y hy => absurd hy hnone, fun _ _ => ⟨rfl, rfl⟩⟩
  | succ fuel ih =>
    cases pending with
    | nil => exact ⟨cur, split, rfl, rfl, rfl, fun y hy => absurd hy hnone, fun _ _ => ⟨rfl, rfl⟩⟩
    | cons x pending =>
      obtain ⟨i, hi⟩ := hinfo x mem_cons_self
      have hnot := not_covers_pop htree hsep
      have hcurx : cur.info x = some i := (hcur x ((covers_cons_iff htree).mpr (.inl rfl))).trans hi
      have hrest : i.children.reverse ++ pending = (fc.childrenOf x).reverse ++ pending := by
        rw [childrenOf_of_info hi]
      let next : HeaviestSubtreeForkChoice := { cur with forkInfos := cur.forkInfos.erase x }
      have hnext : ∀ {y}, y ≠ x → next.info y = cur.info y := fun {y} hy => by
        rw [info_erase cur x y, if_neg hy]
      have hne : ∀ {y}, fc.Covers ((fc.childrenOf x).reverse ++ pending) y → y ≠ x := by
        rintro y hy rfl
        exact hnot hy
      have hlt := card_covered_lt ⟨i, hi⟩ (fun y => covers_pop (y := y) htree) hnot
      obtain ⟨cur', split', hrun, hvotes, hroot, hin, hout⟩ :=
        ih ((fc.childrenOf x).reverse ++ pending) next (split.insert x i)
          (fun y hy => (hnext (hne hy)).trans (hcur y (covers_pop htree hy)))
          (fun y hy => by
            rcases mem_append.mp hy with hy | hy
            · exact htree.linked.info (mem_reverse.mp hy)
            · exact hinfo y (mem_cons_of_mem _ hy))
          (separate_pop htree hsep) (Nat.le_of_lt_succ (lt_of_lt_of_le hlt hfuel))
      refine ⟨cur', split', ?_, hvotes, hroot, fun y hy => ?_, fun y hy => ?_⟩
      · refine bind_eq_some_iff.mpr ⟨i, hcurx, ?_⟩
        rw [hrest]
        exact hrun
      · rcases (covers_cons_iff htree).mp hy with rfl | hy
        · obtain ⟨hcur', hsplit'⟩ := hout y hnot
          refine ⟨?_, ?_⟩
          · rw [hcur', info_erase cur y y, if_pos rfl]
          · rw [hsplit', lookup_insert, hi]
        · exact hin y hy
      · have hyx : y ≠ x := fun heq => hy ((covers_cons_iff htree).mpr (.inl heq))
        obtain ⟨hcur', hsplit'⟩ := hout y fun hy' => hy ((covers_cons_iff htree).mpr (.inr hy'))
        exact ⟨hcur'.trans (hnext hyx), hsplit'.trans (lookup_insert_ne hyx)⟩

/-- The votes that are kept weigh the same. -/
theorem votesAt_retainVotes (stakes : VoteStakes) (votes : AList (fun _ : Pubkey => SlotHashKey))
    {keep : SlotHashKey → Bool} (h : keep x = true) :
    votesAt stakes (retainVotes votes keep) x = votesAt stakes votes x := by
  have hsum : ∀ l : List (Sigma fun _ : Pubkey => SlotHashKey),
      ((l.filter (fun v => keep v.2)).map (fun v => voteStake stakes x v.1 v.2)).sum =
        (l.map (fun v => voteStake stakes x v.1 v.2)).sum := by
    intro l
    induction l with
    | nil => rfl
    | cons v l ih =>
      by_cases hkeep : keep v.2 = true
      · rw [filter_cons_of_pos (p := fun v : Sigma fun _ : Pubkey => SlotHashKey => keep v.2)
          hkeep, map_cons, sum_cons, ih, map_cons,
          sum_cons]
      · have hne : v.2 ≠ x := fun heq => hkeep (heq ▸ h)
        rw [filter_cons_of_neg (p := fun v : Sigma fun _ : Pubkey => SlotHashKey => keep v.2)
          hkeep, ih, map_cons, sum_cons, voteStake, if_neg hne,
          Nat.zero_add]
  exact hsum votes.entries

end Move

variable {trim rest : HeaviestSubtreeForkChoice}
variable {j : ForkInfo} {t : Slot}

/-- The third fork choice is the second one without the subtree of a block. -/
structure Pruned (fc : HeaviestSubtreeForkChoice) (stakes : VoteStakes) (k : SlotHashKey)
    (trim rest : HeaviestSubtreeForkChoice) : Prop where
  treeRoot : rest.treeRoot = fc.treeRoot
  inside : ∀ {x}, fc.InSubtree k x → rest.info x = none
  outside : ∀ {x}, ¬fc.InSubtree k x → rest.info x = trim.info x
  votes : ∀ {x i}, rest.info x = some i →
    votesAt stakes rest.latestVotes x = votesAt stakes fc.latestVotes x

/-- The parent of a block outside the subtree is outside. -/
theorem outside_parent (hc : ¬fc.InSubtree k c) (hp : fc.parent c = some x) : ¬fc.InSubtree k x :=
  fun hx => hc (hx.trans (.of_parent hp))

/-- So is a child, unless it is the block. -/
theorem outside_child (hx : ¬fc.InSubtree k x) (hp : fc.parent c = some x) (hne : c ≠ k) :
    ¬fc.InSubtree k c := by
  intro hc
  rcases inSubtree_iff_parent.mp hc with heq | ⟨q, hq, hkq⟩
  · exact hne heq.symm
  · exact hx (some.inj (hq.symm.trans hp) ▸ hkq)

namespace Pruned

section Pruned
variable (h : fc.Pruned stakes k trim rest)
include h

/-- The rest has the nodes outside the subtree. -/
theorem info_mem (hj : rest.info x = some j) : ¬fc.InSubtree k x ∧ trim.info x = some j := by
  have hx : ¬fc.InSubtree k x := fun hx => absurd ((h.inside hx).symm.trans hj) (by simp)
  exact ⟨hx, (h.outside hx).symm.trans hj⟩

/-- Their parents are the same. -/
theorem parent_iff (htrim : fc.Trimmed stakes k p trim) :
    rest.parent c = some x ↔ ¬fc.InSubtree k c ∧ fc.parent c = some x := by
  by_cases hc : fc.InSubtree k c
  · rw [parent, h.inside hc]
    exact iff_of_false (by simp) fun hp => hp.1 hc
  · rw [and_iff_right hc, ← htrim.parent, parent, h.outside hc, parent]

theorem childrenOf_outside (hx : ¬fc.InSubtree k x) : rest.childrenOf x = trim.childrenOf x := by
  rw [childrenOf, children, h.outside hx, childrenOf, children]

theorem childrenOf_inside (hx : fc.InSubtree k x) : rest.childrenOf x = [] := by
  rw [childrenOf, children, h.inside hx]
  rfl

end Pruned

/-- The root stays in the rest. -/
theorem root_outside (htree : fc.Tree) (hk : fc.parent k = some p) :
    ¬fc.InSubtree k fc.treeRoot := by
  intro hroot
  obtain ⟨i, hi, hp⟩ := exists_info_of_parent hk
  have heq := htree.eq_of_inSubtree hroot (htree.inSubtree_root ⟨i, hi⟩)
  exact absurd (((htree.root_iff hi).mpr heq).symm.trans hp) (by simp)

variable (h : fc.Pruned stakes k trim rest) (htrim : fc.Trimmed stakes k p trim)
include h htrim

/-- The rest is a tree. -/
theorem tree (htree : fc.Tree) (hk : fc.parent k = some p) : rest.Tree where
  parent_lt := fun hp => htree.parent_lt ((h.parent_iff htrim).mp hp).2
  mem_children := by
    intro x c
    rw [h.parent_iff htrim]
    by_cases hx : fc.InSubtree k x
    · rw [h.childrenOf_inside hx]
      exact iff_of_false not_mem_nil fun hc => outside_parent hc.1 hc.2 hx
    · rw [h.childrenOf_outside hx, htrim.mem_children]
      refine and_congr_left fun hc => ⟨fun hne => outside_child hx hc hne, ?_⟩
      rintro hout rfl
      exact hout (.refl c)
  children_nodup := by
    intro x
    by_cases hx : fc.InSubtree k x
    · exact h.childrenOf_inside hx ▸ nodup_nil
    · exact h.childrenOf_outside hx ▸ htrim.children_nodup x
  root_mem := by
    rw [h.treeRoot, h.outside (root_outside htree hk)]
    exact (htrim.info_iff _).mpr htree.root_mem
  root_iff := by
    intro x j hj
    obtain ⟨hx, htj⟩ := h.info_mem hj
    obtain ⟨i, hi⟩ := (htrim.info_iff x).mp ⟨j, htj⟩
    rw [h.treeRoot, ← htree.root_iff hi, ← parent_of_info htj, htrim.parent, parent_of_info hi]

theorem confirmed_iff : rest.Confirmed x ↔ ¬fc.InSubtree k x ∧ fc.Confirmed x := by
  by_cases hx : fc.InSubtree k x
  · exact iff_of_false (not_confirmed_of_absent (h.inside hx)) fun hc => hc.1 hx
  · rw [and_iff_right hx, ← htrim.sameFlags.confirmed, Confirmed, isDuplicateConfirmed,
      h.outside hx, Confirmed, isDuplicateConfirmed]

theorem latest_iff :
    rest.latestInvalidAncestor x = some t ↔
      ¬fc.InSubtree k x ∧ fc.latestInvalidAncestor x = some t := by
  by_cases hx : fc.InSubtree k x
  · rw [latest_of_absent (h.inside hx)]
    exact iff_of_false (by simp) fun ht => ht.1 hx
  · rw [and_iff_right hx, ← htrim.sameFlags.latest, latestInvalidAncestor, h.outside hx,
      latestInvalidAncestor]

/-- Its flags are in order. -/
theorem flags (hflags : fc.Flags) : rest.Flags := by
  refine hflags.restrict (fun x => ¬fc.InSubtree k x) (h.confirmed_iff htrim) (h.latest_iff htrim)
    fun hq => ?_
  obtain ⟨hout, hq⟩ := (h.parent_iff htrim).mp hq
  exact ⟨hout, outside_parent hout hq, hq⟩

theorem inSubtree (hxy : fc.InSubtree x y) (hy : ¬fc.InSubtree k y) : rest.InSubtree x y := by
  induction hxy with
  | refl => exact .refl x
  | tail _ hparent ih =>
    refine (ih (outside_parent hy hparent)).trans (.of_parent ?_)
    exact (h.parent_iff htrim).mpr ⟨hy, hparent⟩

/-- The rest of a sound fork choice is sound. -/
theorem sound (hs : fc.Sound stakes) (hk : fc.parent k = some p) : rest.Sound stakes where
  tree := h.tree htrim hs.tree hk
  flags := h.flags htrim hs.flags
  bestInSubtree := by
    intro x
    by_cases hx : fc.InSubtree k x
    · rw [bestOf, bestSlot, h.inside hx]
      exact .refl x
    · rw [bestOf, bestSlot, h.outside hx]
      exact h.inSubtree htrim (htrim.best x hx).1 (htrim.best x hx).2
  consistent :=
    { localAt := by
        intro x j hj
        obtain ⟨hx, htj⟩ := h.info_mem hj
        refine (htrim.localAt htj).congr htj hj (.refl j) fun c hc => ?_
        obtain ⟨hne, hparent⟩ := htrim.mem_children.mp hc
        exact h.outside (outside_child hx hparent hne)
      votedAt := by
        intro x j hj
        obtain ⟨hx, htj⟩ := h.info_mem hj
        rw [h.votes hj, ← htrim.votedAt htj, votedAt_of_info hj, votedAt_of_info htj] }

end Pruned

/-- A node with a parent can be split off, and both parts are sound. -/
theorem splitOff_sound (hs : fc.Sound stakes) (hk : fc.parent k = some p) :
    ∃ rest split, fc.splitOff k = some (rest, split) ∧ rest.Sound stakes ∧ split.Sound stakes := by
  obtain ⟨splitRoot, hsplitRoot, hparent⟩ := exists_info_of_parent hk
  obtain ⟨i, hi⟩ := hs.tree.info_of_parent hk
  have hentry : fc.ParentEntry k p i := ⟨hk, hi⟩
  have hroot : fc.treeRoot ≠ k := fun heq =>
    Pruned.root_outside hs.tree hk (heq ▸ InSubtree.refl _)
  obtain ⟨hlab, hbatch⟩ := ancestorBatch_insert hs.tree hk
  obtain ⟨trim, hrun, hp⟩ := processUpdateOperations_spec (linked_cut hentry hs.tree) hlab
    fun x j _ => by rw [hbatch.changes]; exact ⟨j, rfl⟩
  have htrim := hbatch.trimmed hs hentry hp
  have hcovers : ∀ {y}, fc.Covers [k] y ↔ fc.InSubtree k y := fun {y} => by
    unfold Covers
    simp
  obtain ⟨moved, entries, hmove, hvotes, hmovedRoot, hin, hout⟩ :=
    moveSubtree_spec hs.tree trim.forkInfos.entries.length [k] trim ∅
      (fun y hy => htrim.inside (hcovers.mp hy)) (by simpa using ⟨splitRoot, hsplitRoot⟩)
      (pairwise_singleton _ _) (card_covered_le fun x => (htrim.info_iff x).mpr)
  have hpout : ¬fc.InSubtree k p := hs.tree.not_inSubtree_parent hk
  obtain ⟨ip, hip⟩ := (htrim.info_iff p).mpr ⟨i, hi⟩
  have hmovedp : moved.info p = some ip := (hout p fun hy => hpout (hcovers.mp hy)).1.trans hip
  have herase : ip.children.erase k = ip.children := by
    refine erase_of_not_mem ?_
    rw [← childrenOf_of_info hip]
    exact fun hmem => (htrim.mem_children.mp hmem).1 rfl
  let left := moved.setInfo p { ip with children := ip.children.erase k }
  have hleft : ∀ x, left.info x = moved.info x := by
    intro x
    rw [info_setInfo, herase]
    split_ifs with hx
    · rw [hx, hmovedp]
    · rfl
  let entries' := entries.insert k { splitRoot with parent := none }
  refine ⟨{ left with latestVotes := retainVotes left.latestVotes left.containsBlock },
    { forkInfos := entries'
      latestVotes := retainVotes left.latestVotes (fun x => (entries'.lookup x).isSome)
      treeRoot := k }, ?_, ?_, ?_⟩
  · rw [splitOff, if_neg hroot]
    refine bind_eq_some_iff.mpr ⟨splitRoot, hsplitRoot, ?_⟩
    refine bind_eq_some_iff.mpr ⟨p, hparent, bind_eq_some_iff.mpr ⟨i, hi, ?_⟩⟩
    rw [if_neg (not_not.mpr (hentry.mem hs.tree))]
    refine bind_eq_some_iff.mpr ⟨trim, hrun, ?_⟩
    refine bind_eq_some_iff.mpr ⟨(moved, entries), hmove, ?_⟩
    exact bind_eq_some_iff.mpr ⟨ip, hmovedp, rfl⟩
  · have hpruned : fc.Pruned stakes k trim
        { left with latestVotes := retainVotes left.latestVotes left.containsBlock } := by
      refine ⟨hmovedRoot.trans htrim.treeRoot, fun {x} hx => ?_, fun {x} hx => ?_,
        fun {x j} hj => ?_⟩
      · exact (hleft x).trans (hin x (hcovers.mpr hx)).1
      · exact (hleft x).trans (hout x fun hy => hx (hcovers.mp hy)).1
      · have hkeep : left.containsBlock x = true := containsBlock_iff.mpr ⟨j, hj⟩
        refine (votesAt_retainVotes stakes _ hkeep).trans ?_
        exact congrArg (fun votes => votesAt stakes votes x) (hvotes.trans htrim.latestVotes)
    exact hpruned.sound htrim hs hk
  · have hlookup : ∀ {x}, fc.InSubtree k x → x ≠ k → entries'.lookup x = fc.info x := fun hx hne =>
      (lookup_insert_ne hne).trans (hin _ (hcovers.mpr hx)).2
    have hsub : fc.Subtree stakes k
        { forkInfos := entries'
          latestVotes := retainVotes left.latestVotes (fun x => (entries'.lookup x).isSome)
          treeRoot := k } := by
      refine ⟨rfl, fun {j} hj => ?_, fun {x} hx hne => hlookup hx hne, fun {x} hx => ?_,
        fun {x} hx => ?_⟩
      · obtain rfl := some.inj (hsplitRoot.symm.trans hj)
        exact lookup_insert _
      · have hne : x ≠ k := fun heq => hx (heq ▸ InSubtree.refl x)
        refine (lookup_insert_ne hne).trans ?_
        rw [(hout x fun hy => hx (hcovers.mp hy)).2, lookup_empty]
      · have hsome : (entries'.lookup x).isSome = true := by
          by_cases hne : x = k
          · rw [hne, lookup_insert]
            rfl
          · obtain ⟨j, hj⟩ := info_below ⟨splitRoot, hsplitRoot⟩ hx
            rw [hlookup hx hne, hj]
            rfl
        refine (votesAt_retainVotes stakes _ hsome).trans ?_
        exact congrArg (fun votes => votesAt stakes votes x) (hvotes.trans htrim.latestVotes)
    exact hsub.sound hs ⟨splitRoot, hsplitRoot⟩

/-- A block without a parent cannot. -/
theorem splitOff_fails (hk : fc.parent k = none) : fc.splitOff k = none := by
  unfold splitOff
  split_ifs
  · rfl
  · cases hi : fc.info k with
    | none => rfl
    | some i =>
      rw [parent_of_info hi] at hk
      simp [hk]

end HeaviestSubtreeForkChoice
end Hypergrid
