import Hypergrid.ForkChoiceAggregate

/-!
# Marking forks valid and invalid

The effect of `mark_fork_valid_candidate` and `mark_fork_invalid_candidate` on the flags of all
nodes, and what holds of the flags of a tree however it is marked.

* `MarkBatch.markedValid` : the marked block and its ancestors become confirmed and lose their
  latest invalid ancestor; its subtree loses the one that is not above the marked slot.
* `MarkBatch.markedInvalid` : in the subtree of the marked block the latest invalid ancestor is
  raised to the marked slot.
* `MarkedValid.flags`, `MarkedInvalid.flags` : both keep what holds of the flags of any tree.
-/

namespace Hypergrid
open List Option UpdateOperation ForkInfo

namespace HeaviestSubtreeForkChoice

variable {fc fc' : HeaviestSubtreeForkChoice} {x k : SlotHashKey} {s : Slot}
  {mark : UpdateOperation} {label : UpdateLabel} {batch : List OperationEntry} {i j : ForkInfo}

section Flags

/-- What holds of the flags of the nodes. -/
structure Flags (fc : HeaviestSubtreeForkChoice) : Prop where
  confirmed_latest : ∀ {x}, fc.Confirmed x → fc.latestInvalidAncestor x = none
  confirmed_parent : ∀ {x p}, fc.Confirmed x → fc.parent x = some p → fc.Confirmed p
  latest_child : ∀ {x p s}, fc.parent x = some p → fc.latestInvalidAncestor p = some s →
    ∃ s', fc.latestInvalidAncestor x = some s' ∧ s ≤ s'
  latest_le : ∀ {x s}, fc.latestInvalidAncestor x = some s → s ≤ x.slot

structure SameFlags (fc fc' : HeaviestSubtreeForkChoice) : Prop where
  confirmed : ∀ x, fc'.Confirmed x ↔ fc.Confirmed x
  latest : ∀ x, fc'.latestInvalidAncestor x = fc.latestInvalidAncestor x

variable {a b : SlotHashKey}

theorem Flags.restrict (h : fc.Flags) (keep : SlotHashKey → Prop)
    (hconfirmed : ∀ {x}, fc'.Confirmed x ↔ keep x ∧ fc.Confirmed x)
    (hlatest : ∀ {x s}, fc'.latestInvalidAncestor x = some s ↔
      keep x ∧ fc.latestInvalidAncestor x = some s)
    (hparent : ∀ {x p}, fc'.parent x = some p → keep x ∧ keep p ∧ fc.parent x = some p) :
    fc'.Flags where
  confirmed_latest := by
    intro x hx
    rw [eq_none_iff_forall_ne_some]
    intro s hs
    have hnone := h.confirmed_latest (hconfirmed.mp hx).2
    exact absurd (hnone.symm.trans (hlatest.mp hs).2) (by simp)
  confirmed_parent := by
    intro x p hx hp
    obtain ⟨_, hkeep, hp⟩ := hparent hp
    exact hconfirmed.mpr ⟨hkeep, h.confirmed_parent (hconfirmed.mp hx).2 hp⟩
  latest_child := by
    intro x p s hp hs
    obtain ⟨hkeep, _, hp⟩ := hparent hp
    obtain ⟨s', hs', hle⟩ := h.latest_child hp (hlatest.mp hs).2
    exact ⟨s', hlatest.mpr ⟨hkeep, hs'⟩, hle⟩
  latest_le := fun hs => h.latest_le (hlatest.mp hs).2

theorem SameFlags.flags (h : fc.SameFlags fc') (hparent : ∀ x, fc'.parent x = fc.parent x)
    (hflags : fc.Flags) : fc'.Flags :=
  hflags.restrict (fun _ => True) (by simp [h.confirmed]) (by simp [h.latest]) (by simp [hparent])

theorem Flags.confirmed_up (h : fc.Flags) (hab : fc.InSubtree a b) (hb : fc.Confirmed b) :
    fc.Confirmed a := by
  induction hab with
  | refl => exact hb
  | tail _ hparent ih => exact ih (h.confirmed_parent hb hparent)

theorem Flags.latest_down (h : fc.Flags) (hab : fc.InSubtree a b)
    (ha : fc.latestInvalidAncestor a = some s) :
    ∃ s', fc.latestInvalidAncestor b = some s' ∧ s ≤ s' := by
  induction hab with
  | refl => exact ⟨s, ha, le_rfl⟩
  | tail _ hparent ih =>
    obtain ⟨s', hs', hle⟩ := ih
    obtain ⟨s'', hs'', hle'⟩ := h.latest_child hparent hs'
    exact ⟨s'', hs'', hle.trans hle'⟩

end Flags

section Batch
variable {keys : List SlotHashKey} {ops : UpdateOperations}

/-- A mark and the label under which it is kept. -/
inductive MarkLabel : UpdateOperation → UpdateLabel → Prop
  | valid (slot : Slot) : MarkLabel (.markValid slot) (.markValid slot)
  | invalid (slot : Slot) : MarkLabel (.markInvalid slot) (.markInvalid slot)

theorem MarkLabel.ne (h : MarkLabel mark label) : mark ≠ .aggregate ∧ label ≠ .aggregate := by
  cases h <;> simp

/-- The batch marks and aggregates the nodes of a list and nothing else. -/
structure Marks (mark : UpdateOperation) (label : UpdateLabel) (keys : List SlotHashKey)
    (ops : UpdateOperations) : Prop where
  labelled : Labelled ops
  aggregates : ∀ {x}, Aggregates ops x ↔ x ∈ keys
  other : ∀ {x l op}, l ≠ .aggregate →
    (ops.lookup (x, l) = some op ↔ x ∈ keys ∧ l = label ∧ op = mark)

variable (hmark : MarkLabel mark label)
include hmark

theorem doInsertAggregateOperation_mark (hlab : Labelled ops) (h : ¬Aggregates ops x) :
    (doInsertAggregateOperation ops (some mark) x).2 =
      (ops.insert (x, label) mark).insert (x, .aggregate) .aggregate := by
  unfold doInsertAggregateOperation
  rw [lookup_aggregate_none hlab h]
  cases hmark <;> rfl

theorem Marks.step (h : Marks mark label keys ops) :
    Marks mark label (keys ++ [x]) (doInsertAggregateOperation ops (some mark) x).2 := by
  by_cases hx : Aggregates ops x
  · -- a node that is there already
    have hmem := h.aggregates.mp hx
    have hkeys : ∀ y, y ∈ keys ++ [x] ↔ y ∈ keys := by
      intro y
      rw [mem_append, mem_singleton]
      exact ⟨fun hy => hy.elim id fun heq => heq ▸ hmem, .inl⟩
    rw [doInsertAggregateOperation_of_aggregates hx]
    refine ⟨h.labelled, fun {y} => ?_, fun {y l op} hl => ?_⟩
    · rw [hkeys]
      exact h.aggregates
    · rw [hkeys]
      exact h.other hl
  · rw [doInsertAggregateOperation_mark hmark h.labelled hx]
    have hlab : Labelled (ops.insert (x, label) mark) :=
      labelled_insert h.labelled (iff_of_false hmark.ne.2 hmark.ne.1)
    have hinsert := aggregatesMore_insert hlab x
    refine ⟨hinsert.labelled, fun {y} => ?_, fun {y l op} hl => ?_⟩
    · have hne : (y, .aggregate) ≠ (x, label) := fun heq =>
        hmark.ne.2 (congrArg Prod.snd heq).symm
      rw [hinsert.aggregates, Aggregates, AList.lookup_insert_ne hne, mem_append, mem_singleton]
      exact or_congr_left h.aggregates
    · rw [hinsert.other (o := (y, l)) hl, mem_append, mem_singleton]
      by_cases hyl : (y, l) = (x, label)
      · obtain ⟨rfl, rfl⟩ := Prod.ext_iff.mp hyl
        simp [eq_comm]
      · rw [AList.lookup_insert_ne hyl, h.other hl]
        refine ⟨fun ⟨hy, hrest⟩ => ⟨.inl hy, hrest⟩, fun ⟨hy, hl', hop⟩ => ⟨?_, hl', hop⟩⟩
        exact hy.resolve_right fun heq => hyl (by rw [heq, hl'])

theorem insertMarks_marks (keys : List SlotHashKey) :
    Marks mark label keys (insertMarks mark keys) := by
  induction keys using reverseRec with
  | nil =>
    have hempty : ∀ o, (insertMarks mark []).lookup o = none := fun o => AList.lookup_empty o
    refine ⟨fun h => ?_, fun {x} => ?_, fun {x l op} _ => ?_⟩
    · rw [hempty] at h
      exact absurd h (by simp)
    · rw [Aggregates, hempty]
      simp
    · rw [hempty]
      simp
  | append_singleton keys x ih =>
    rw [insertMarks, foldl_append]
    exact ih.step hmark

end Batch

section Subtree
variable {p : SlotHashKey}
variable {marked : ForkInfo}

/-- The block lies in the subtree that is marked with `k`; the source takes the default key as the
place to stop, so nothing is marked with that key. -/
def MarkedWith (fc : HeaviestSubtreeForkChoice) (k x : SlotHashKey) : Prop :=
  fc.ReachesBefore SlotHashKey.default k x

/-- The batch marks the subtree of a block, and aggregates it and the ancestors of the block. -/
structure MarkBatch (fc : HeaviestSubtreeForkChoice) (k : SlotHashKey) (mark : UpdateOperation)
    (batch : List OperationEntry) : Prop where
  aggregated : ∀ {x}, AggregatedIn batch x ↔
    fc.MarkedWith k x ∨ ∃ p, fc.parent k = some p ∧ fc.InSubtree x p
  changes : ∀ {x op}, op ∈ changesAt batch x ↔ fc.MarkedWith k x ∧ op = mark

theorem markedWith_iff (htree : fc.Tree) (hk : k ≠ SlotHashKey.default) :
    fc.MarkedWith k x ↔ fc.InSubtree k x := by
  refine ⟨And.left, fun h => ⟨h, fun hdefault => ?_⟩⟩
  exact absurd (htree.slot_lt hdefault.1 hk) (Nat.not_lt_zero _)

theorem not_markedWith_default : ¬fc.MarkedWith SlotHashKey.default x := not_reachesBefore_self

theorem MarkedWith.parent (h : fc.MarkedWith k x) (hp : fc.parent x = some p) (hne : x ≠ k) :
    fc.MarkedWith k p := by
  rcases inSubtree_iff_parent.mp h.1 with heq | ⟨q, hq, hkq⟩
  · exact absurd heq.symm hne
  · obtain rfl := some.inj (hp.symm.trans hq)
    exact ⟨hkq, fun hdefault => h.2 ⟨hdefault.1, hdefault.2.trans (.of_parent hp)⟩⟩

theorem MarkBatch.propagates (h : fc.MarkBatch k mark batch) : fc.Propagates batch := by
  have hup : ∀ {x p}, AggregatedIn batch x → fc.parent x = some p → AggregatedIn batch p := by
    intro x p hx hp
    rcases h.aggregated.mp hx with hmarked | ⟨q, hq, hxq⟩
    · by_cases hxk : x = k
      · exact h.aggregated.mpr (.inr ⟨p, hxk ▸ hp, .refl p⟩)
      · exact h.aggregated.mpr (.inl (hmarked.parent hp hxk))
    · exact h.aggregated.mpr (.inr ⟨q, hq, (InSubtree.of_parent hp).trans hxq⟩)
  refine ⟨hup, fun {x p} hne hp => ?_, fun {x} hx op hop => ?_⟩
  · obtain ⟨op, hop⟩ := exists_mem_of_ne_nil _ hne
    exact hup (h.aggregated.mpr (.inl (h.changes.mp hop).1)) hp
  · exact absurd (h.aggregated.mpr (.inl (h.changes.mp hop).1)) hx

theorem exists_markBatch (htree : fc.Tree) (hk : ∃ i, fc.info k = some i)
    (hmark : MarkLabel mark label) :
    ∃ keys, fc.subtreeDiff k SlotHashKey.default = some keys ∧
      Labelled (fc.insertAggregateOperations (insertMarks mark keys) k) ∧
      fc.MarkBatch k mark
        (descending (fc.insertAggregateOperations (insertMarks mark keys) k)) := by
  obtain ⟨keys, hkeys, _, hmem⟩ := subtreeDiff_spec htree hk SlotHashKey.default
  have hmarks := insertMarks_marks hmark keys
  have hbut : fc.ClosedBut k (insertMarks mark keys) := by
    intro x p hx hp hne
    have hx' := (hmem x).mp (hmarks.aggregates.mp hx)
    exact hmarks.aggregates.mpr ((hmem p).mpr (MarkedWith.parent hx' hp hne))
  obtain ⟨hmore, _⟩ := insertAggregateOperations_spec htree hmarks.labelled hbut
  refine ⟨keys, hkeys, hmore.labelled, fun {x} => ?_, fun {x op} => ?_⟩
  · rw [aggregatedIn_descending hmore.labelled, hmore.aggregates, hmarks.aggregates, hmem]
    rfl
  · rw [mem_changesAt]
    constructor
    · rintro ⟨hne, l, hlookup⟩
      have hl : l ≠ .aggregate := fun heq => hne ((hmore.labelled hlookup).mp heq)
      rw [hmore.other (o := (x, l)) hl, hmarks.other hl, hmem] at hlookup
      exact ⟨hlookup.1, hlookup.2.2⟩
    · rintro ⟨hx, rfl⟩
      refine ⟨hmark.ne.1, label, ?_⟩
      rw [hmore.other (o := (x, label)) hmark.ne.2, hmarks.other hmark.ne.2, hmem]
      exact ⟨hx, rfl, rfl⟩

/-- A mark that changes nothing the second time has one effect however often it stands there. -/
theorem onInfos_same {changes : List UpdateOperation} (hne : changes ≠ [])
    (hall : ∀ op ∈ changes, op = mark) (hfirst : mark.onInfo x i = some j)
    (hagain : mark.onInfo x j = some j) : onInfos x changes i = some j := by
  have hstays : ∀ rest : List UpdateOperation, (∀ op ∈ rest, op = mark) →
      onInfos x rest j = some j := by
    intro rest hrest
    induction rest with
    | nil => rfl
    | cons op rest ih =>
      obtain rfl := hrest op mem_cons_self
      refine bind_eq_some_iff.mpr ⟨j, hagain, ?_⟩
      exact ih fun op' hop' => hrest op' (mem_cons_of_mem _ hop')
  cases changes with
  | nil => exact absurd rfl hne
  | cons op rest =>
    obtain rfl := hall op mem_cons_self
    refine bind_eq_some_iff.mpr ⟨j, hfirst, hstays rest fun op' hop' => ?_⟩
    exact hall op' (mem_cons_of_mem _ hop')

theorem MarkBatch.onInfos_eq (h : fc.MarkBatch k mark batch)
    (hmark : fc.MarkedWith k x → mark.onInfo x i = some marked ∧
      mark.onInfo x marked = some marked) :
    ∃ j, onInfos x (changesAt batch x) i = some j ∧ (fc.MarkedWith k x → j = marked) ∧
      (¬fc.MarkedWith k x → j = i) := by
  by_cases hx : fc.MarkedWith k x
  · refine ⟨marked, onInfos_same (fun hnil => ?_) (fun op hop => (h.changes.mp hop).2) (hmark hx).1
      (hmark hx).2, fun _ => rfl, fun hnot => absurd hx hnot⟩
    have hmem : mark ∈ changesAt batch x := h.changes.mpr ⟨hx, rfl⟩
    exact absurd (hnil ▸ hmem) not_mem_nil
  · have hnil : changesAt batch x = [] :=
      eq_nil_iff_forall_not_mem.mpr fun op hop => hx (h.changes.mp hop).1
    rw [hnil]
    exact ⟨i, rfl, fun h => absurd h hx, fun _ => rfl⟩

theorem MarkBatch.entry (htree : fc.Tree) (h : fc.MarkBatch k mark batch)
    (hp : fc.Processed batch fc') (hi : fc.info x = some i)
    (hmark : fc.MarkedWith k x → mark.onInfo x i = some marked ∧
      mark.onInfo x marked = some marked) :
    ∃ j, fc'.Settled (AggregatedIn batch x) x j ∧ j.children = fc.childrenOf x ∧ x ∉ j.children ∧
      (fc.MarkedWith k x → j = marked) ∧ (¬fc.MarkedWith k x → j = i) := by
  obtain ⟨j, hj, hmarked⟩ := h.onInfos_eq hmark
  obtain ⟨j', hj', hsettled⟩ := hp.entry hi
  obtain rfl := some.inj (hj.symm.trans hj')
  have hchildren : j.children = fc.childrenOf x := by
    rw [(onInfos_edges hj).2, childrenOf_of_info hi]
  exact ⟨j, hsettled, hchildren, hchildren ▸ htree.linked.not_mem x, hmarked⟩

end Subtree

section Effects
variable {aggregated : Prop}

/-- The entry of a node of a subtree whose root is marked valid. -/
def markedValid (k x : SlotHashKey) (i : ForkInfo) : ForkInfo :=
  let i := i.updateWithNewlyValidAncestor k.slot
  if x.slot = k.slot then { i with isDuplicateConfirmed := true } else i

/-- The entry of a node of a subtree whose root is marked invalid. -/
def markedInvalid (k : SlotHashKey) (i : ForkInfo) : ForkInfo :=
  { i with latestInvalidAncestor := some (max (i.latestInvalidAncestor.getD 0) k.slot) }

theorem markedValid_latest :
    (markedValid k x i).latestInvalidAncestor = i.latestInvalidAncestor.filter (k.slot < ·) := by
  unfold markedValid updateWithNewlyValidAncestor
  cases hlatest : i.latestInvalidAncestor with
  | none => split_ifs <;> simp [hlatest]
  | some latest =>
    by_cases hle : latest ≤ k.slot
    · simp only [if_pos hle, filter_some, Nat.not_lt_of_le hle, decide_false]
      split_ifs <;> simp_all
    · simp only [if_neg hle, filter_some, Nat.lt_of_not_le hle, decide_true]
      split_ifs <;> simp_all

theorem markedValid_confirmed : (markedValid k x i).isDuplicateConfirmed = true ↔
    i.isDuplicateConfirmed = true ∨ x.slot = k.slot := by
  have hkeep : (i.updateWithNewlyValidAncestor k.slot).isDuplicateConfirmed =
      i.isDuplicateConfirmed := by
    unfold updateWithNewlyValidAncestor
    split
    · split_ifs <;> rfl
    · rfl
  unfold markedValid
  split_ifs with hslot
  · simp [hslot]
  · simp [hslot, hkeep]

theorem markedValid_again : markedValid k x (markedValid k x i) = markedValid k x i := by
  have hnone : (i.updateWithNewlyValidAncestor k.slot).updateWithNewlyValidAncestor k.slot =
      i.updateWithNewlyValidAncestor k.slot := by
    unfold updateWithNewlyValidAncestor
    grind
  have hcomm : ∀ i : ForkInfo, ({ i with isDuplicateConfirmed := true } :
      ForkInfo).updateWithNewlyValidAncestor k.slot =
        { i.updateWithNewlyValidAncestor k.slot with isDuplicateConfirmed := true } := by
    intro i
    unfold updateWithNewlyValidAncestor
    grind
  unfold markedValid
  split_ifs with hslot
  · dsimp only
    rw [hcomm, hnone]
  · exact hnone

theorem markValid_onInfo :
    (markValid k.slot).onInfo x i = some (markedValid k x i) ∧
    (markValid k.slot).onInfo x (markedValid k x i) = some (markedValid k x i) :=
  ⟨rfl, congrArg some markedValid_again⟩

theorem markInvalid_onInfo (h : i.isDuplicateConfirmed = false) :
    (markInvalid k.slot).onInfo x i = some (markedInvalid k i) := by
  obtain ⟨_, _, _, _, _, _, _, latest, confirmed⟩ := i
  subst h
  cases latest with
  | none => simp [onInfo, updateWithNewlyInvalidAncestor, markedInvalid]
  | some latest =>
    rcases Nat.lt_or_ge latest k.slot with hlt | hle
    · simp [onInfo, updateWithNewlyInvalidAncestor, markedInvalid, hlt, max_eq_right hlt.le]
    · simp [onInfo, updateWithNewlyInvalidAncestor, markedInvalid,
        Nat.not_lt_of_le hle, max_eq_left hle]

theorem markInvalid_onInfo_again (h : i.isDuplicateConfirmed = false) :
    (markInvalid k.slot).onInfo x (markedInvalid k i) = some (markedInvalid k i) := by
  have hagain : markedInvalid k (markedInvalid k i) = markedInvalid k i := by simp [markedInvalid]
  have hfree : (markedInvalid k i).isDuplicateConfirmed = false := h
  rw [markInvalid_onInfo hfree, hagain]

section Settled
variable (h : fc.Settled aggregated x j) (hx : x ∉ j.children)
include h hx

theorem Settled.confirmed_iff :
    fc.Confirmed x ↔ j.isDuplicateConfirmed = true ∨
      aggregated ∧ ∃ c ∈ j.children, fc.Confirmed c := by
  rcases h with ⟨hnot, hinfo⟩ | ⟨hagg, a, ha, hinfo⟩
  · rw [confirmed_of_info hinfo]
    exact (or_iff_left fun h => hnot h.1).symm
  · rw [confirmed_of_info hinfo, withAggregation_confirmed, Bool.or_eq_true,
      (aggregateChildren_gathered hx ha).confirmed]
    exact or_congr_right (and_iff_right hagg).symm

theorem Settled.latest_eq
    (hnone : (∃ c ∈ j.children, fc.Confirmed c) → aggregated → j.latestInvalidAncestor = none) :
    fc.latestInvalidAncestor x = j.latestInvalidAncestor := by
  rcases h with ⟨hnot, hinfo⟩ | ⟨hagg, a, ha, hinfo⟩
  · exact latestInvalidAncestor_of_info hinfo
  · rw [latestInvalidAncestor_of_info hinfo, withAggregation_latest]
    split_ifs with hconfirmed
    · exact (hnone ((aggregateChildren_gathered hx ha).confirmed.mp hconfirmed) hagg).symm
    · rfl

theorem Settled.latest_none (hagg : aggregated) (hchild : ∃ c ∈ j.children, fc.Confirmed c) :
    fc.latestInvalidAncestor x = none := by
  rcases h with ⟨hnot, _⟩ | ⟨_, a, ha, hinfo⟩
  · exact absurd hagg hnot
  · rw [latestInvalidAncestor_of_info hinfo, withAggregation_latest,
      if_pos ((aggregateChildren_gathered hx ha).confirmed.mpr hchild)]

end Settled

theorem not_confirmed_of_absent (h : fc.info x = none) : ¬fc.Confirmed x := by
  rw [Confirmed, isDuplicateConfirmed, h]
  simp

theorem latest_of_absent (h : fc.info x = none) : fc.latestInvalidAncestor x = none := by
  rw [latestInvalidAncestor, h, bind_none]

end Effects

theorem Flags.markInvalid (hflags : fc.Flags) (hk : ¬fc.Confirmed k) (hi : fc.info x = some i)
    (hx : fc.MarkedWith k x) :
    (markInvalid k.slot).onInfo x i = some (markedInvalid k i) ∧
      (markInvalid k.slot).onInfo x (markedInvalid k i) = some (markedInvalid k i) := by
  have hfree : i.isDuplicateConfirmed = false := by
    by_contra hconfirmed
    exact hk (hflags.confirmed_up hx.1
      ((confirmed_of_info hi).mpr (Bool.eq_true_of_not_eq_false hconfirmed)))
  exact ⟨markInvalid_onInfo hfree, markInvalid_onInfo_again hfree⟩

theorem markForkInvalidCandidate_processed (htree : fc.Tree) (hflags : fc.Flags)
    (hi : fc.info k = some i) (hnot : i.isDuplicateConfirmed = false) :
    ∃ fc' batch, fc.markForkInvalidCandidate k = some fc' ∧ fc.Processed batch fc' ∧
      fc.MarkBatch k (.markInvalid k.slot) batch := by
  obtain ⟨keys, hkeys, hlab, hbatch⟩ := exists_markBatch htree ⟨i, hi⟩ (.invalid k.slot)
  have hk : ¬fc.Confirmed k := by
    rw [confirmed_of_info hi, hnot]
    simp
  obtain ⟨fc', hrun, hprocessed⟩ := processUpdateOperations_spec htree.linked hlab fun x j hj =>
    (hbatch.onInfos_eq (hflags.markInvalid hk hj)).imp fun _ => And.left
  refine ⟨fc', _, ?_, hprocessed, hbatch⟩
  unfold markForkInvalidCandidate
  rw [hi]
  simp only [hnot, Bool.false_eq_true, if_false, hkeys]
  exact hrun

theorem filterM_isSome {f : SlotHashKey → Option Bool} {l : List SlotHashKey}
    (h : ∀ a ∈ l, ∃ b, f a = some b) : ∃ r, l.filterM f = some r := by
  have haux : ∀ acc, ∃ r, l.filterAuxM f acc = some r := by
    induction l with
    | nil => exact fun acc => ⟨acc, rfl⟩
    | cons a l ih =>
      intro acc
      obtain ⟨b, hb⟩ := h a mem_cons_self
      obtain ⟨r, hr⟩ :=
        ih (fun a' ha' => h a' (mem_cons_of_mem _ ha')) (bif b then a :: acc else acc)
      exact ⟨r, bind_eq_some_iff.mpr ⟨b, hb, hr⟩⟩
  obtain ⟨r, hr⟩ := haux []
  exact ⟨r.reverse, by rw [filterM, hr]; rfl⟩

theorem markForkValidCandidate_processed (htree : fc.Tree) (hi : fc.info k = some i) :
    ∃ fc' newlyConfirmed batch, fc.markForkValidCandidate k = some (fc', newlyConfirmed) ∧
      fc.Processed batch fc' ∧ fc.MarkBatch k (.markValid k.slot) batch := by
  obtain ⟨keys, hkeys, hlab, hbatch⟩ := exists_markBatch htree ⟨i, hi⟩ (.valid k.slot)
  obtain ⟨fc', hrun, hprocessed⟩ := processUpdateOperations_spec htree.linked hlab fun x j _ =>
    (hbatch.onInfos_eq fun _ => markValid_onInfo).imp fun _ => And.left
  obtain ⟨newlyConfirmed, hnew⟩ := filterM_isSome (l := k :: fc.ancestorIterator k)
    (f := fun ancestor => do return !(← fc.isDuplicateConfirmed ancestor)) fun a ha => by
      have hinfo : ∃ j, fc.info a = some j := by
        rcases mem_cons.mp ha with rfl | ha
        · exact ⟨i, hi⟩
        · obtain ⟨p, hp, hap⟩ := (mem_ancestorIterator htree).mp ha
          exact htree.info_of_inSubtree hap (htree.info_of_parent hp)
      obtain ⟨j, hj⟩ := hinfo
      exact ⟨!j.isDuplicateConfirmed, by rw [isDuplicateConfirmed, hj]; rfl⟩
  refine ⟨fc', newlyConfirmed, _, ?_, hprocessed, hbatch⟩
  refine bind_eq_some_iff.mpr ⟨newlyConfirmed, hnew, ?_⟩
  refine bind_eq_some_iff.mpr ⟨keys, hkeys, ?_⟩
  exact bind_eq_some_iff.mpr ⟨fc', hrun, rfl⟩

/-- The flags after a subtree is marked invalid. -/
structure MarkedInvalid (fc : HeaviestSubtreeForkChoice) (k : SlotHashKey)
    (fc' : HeaviestSubtreeForkChoice) : Prop where
  sameShape : fc.SameShape fc'
  confirmed : ∀ {x}, fc'.Confirmed x ↔ fc.Confirmed x
  latest_marked : ∀ {x i}, fc.info x = some i → fc.MarkedWith k x → fc'.latestInvalidAncestor x =
    some (max ((fc.latestInvalidAncestor x).getD 0) k.slot)
  latest_other :
    ∀ {x}, ¬fc.MarkedWith k x → fc'.latestInvalidAncestor x = fc.latestInvalidAncestor x

theorem MarkBatch.markedInvalid (htree : fc.Tree) (hflags : fc.Flags)
    (hbatch : fc.MarkBatch k (.markInvalid k.slot) batch) (hk : ¬fc.Confirmed k)
    (h : fc.Processed batch fc') : fc.MarkedInvalid k fc' := by
  -- from the leaves up: a node is confirmed only if it was, since its confirmed children made it so
  have hconfirmed : ∀ x, fc'.Confirmed x ↔ fc.Confirmed x := by
    refine htree.leaf_induction fun x ih => ?_
    cases hx : fc.info x with
    | none =>
      exact iff_of_false (not_confirmed_of_absent (h.absent hx)) (not_confirmed_of_absent hx)
    | some i =>
      obtain ⟨j, hsettled, hchildren, hnot, hmarked, hsame⟩ :=
        hbatch.entry htree h hx (hflags.markInvalid hk hx)
      have hconfirmed : j.isDuplicateConfirmed = i.isDuplicateConfirmed := by
        by_cases hx : fc.MarkedWith k x
        · rw [hmarked hx]
          rfl
        · rw [hsame hx]
      rw [hsettled.confirmed_iff hnot, hconfirmed, hchildren, ← confirmed_of_info hx]
      refine or_iff_left_of_imp fun ⟨_, c, hc, hcc⟩ => ?_
      have hparent := htree.mem_children.mp hc
      exact hflags.confirmed_parent ((ih c hparent).mp hcc) hparent
  refine ⟨h.sameShape, hconfirmed _, fun {x i} hi hx => ?_, fun {x} hx => ?_⟩
  · obtain ⟨j, hsettled, hchildren, hnot, hmarked, _⟩ :=
      hbatch.entry htree h hi (hflags.markInvalid hk hi)
    rw [hsettled.latest_eq hnot fun ⟨c, hc, hcc⟩ _ => ?_, hmarked hx,
      latestInvalidAncestor_of_info hi]
    · rfl
    · have hparent := htree.mem_children.mp (hchildren ▸ hc)
      exact absurd (hflags.confirmed_up (hx.1.trans (.of_parent hparent))
        ((hconfirmed c).mp hcc)) hk
  · cases hi : fc.info x with
    | none => rw [latest_of_absent (h.absent hi), latest_of_absent hi]
    | some i =>
      obtain ⟨j, hsettled, hchildren, hnot, _, hsame⟩ :=
        hbatch.entry htree h hi (hflags.markInvalid hk hi)
      rw [hsettled.latest_eq hnot fun ⟨c, hc, hcc⟩ _ => ?_, hsame hx,
        latestInvalidAncestor_of_info hi]
      have hparent := htree.mem_children.mp (hchildren ▸ hc)
      rw [hsame hx, ← latestInvalidAncestor_of_info hi]
      exact hflags.confirmed_latest (hflags.confirmed_parent ((hconfirmed c).mp hcc) hparent)

/-- The flags after a subtree is marked valid. -/
structure MarkedValid (fc : HeaviestSubtreeForkChoice) (k : SlotHashKey)
    (fc' : HeaviestSubtreeForkChoice) : Prop where
  sameShape : fc.SameShape fc'
  confirmed : ∀ {x}, fc'.Confirmed x ↔ fc.Confirmed x ∨ fc.InSubtree x k
  latest_above : ∀ {x}, fc.InSubtree x k → fc'.latestInvalidAncestor x = none
  latest_below : ∀ {x}, fc.InSubtree k x → fc'.latestInvalidAncestor x =
    (fc.latestInvalidAncestor x).filter (k.slot < ·)
  latest_other : ∀ {x}, ¬fc.InSubtree x k → ¬fc.InSubtree k x →
    fc'.latestInvalidAncestor x = fc.latestInvalidAncestor x

theorem MarkBatch.aggregated_above (htree : fc.Tree)
    (hbatch : fc.MarkBatch k mark batch) (hk : k ≠ SlotHashKey.default) (hx : fc.InSubtree x k) :
    AggregatedIn batch x := by
  refine hbatch.aggregated.mpr ?_
  rcases inSubtree_iff_parent.mp hx with rfl | ⟨p, hp, hxp⟩
  · exact .inl ((markedWith_iff htree hk).mpr (.refl _))
  · exact .inr ⟨p, hp, hxp⟩

section Tree
variable (htree : fc.Tree) (hflags : fc.Flags) (hbatch : fc.MarkBatch k (.markValid k.slot) batch)
include htree hflags hbatch

theorem MarkBatch.confirmed_iff (hk : ∃ i, fc.info k = some i) (hdefault : k ≠ SlotHashKey.default)
    (h : fc.Processed batch fc') (x : SlotHashKey) :
    fc'.Confirmed x ↔ fc.Confirmed x ∨ fc.InSubtree x k := by
  revert x
  -- from the leaves up: a confirmed child makes its parent confirmed
  refine htree.leaf_induction fun x ih => ?_
  cases hx : fc.info x with
  | none =>
    refine iff_of_false (not_confirmed_of_absent (h.absent hx)) ?_
    rintro (hconfirmed | hxk)
    · exact not_confirmed_of_absent hx hconfirmed
    · obtain ⟨i, hi⟩ := htree.info_of_inSubtree hxk hk
      rw [hx] at hi
      exact absurd hi (by simp)
  | some i =>
    obtain ⟨j, hsettled, hchildren, hnot, hmarked, hsame⟩ :=
      hbatch.entry htree h hx fun _ => markValid_onInfo
    rw [hsettled.confirmed_iff hnot, hchildren]
    constructor
    · rintro (hj | ⟨_, c, hc, hcc⟩)
      · by_cases hxk : fc.MarkedWith k x
        · rw [hmarked hxk, markedValid_confirmed] at hj
          refine hj.imp (confirmed_of_info hx).mpr fun hslot => ?_
          by_cases heq : k = x
          · exact heq ▸ InSubtree.refl _
          · exact absurd hslot.symm (ne_of_lt (htree.slot_lt hxk.1 heq))
        · rw [hsame hxk] at hj
          exact .inl ((confirmed_of_info hx).mpr hj)
      · have hparent := htree.mem_children.mp hc
        refine ((ih c hparent).mp hcc).imp (hflags.confirmed_parent · hparent) fun hck => ?_
        exact (InSubtree.of_parent hparent).trans hck
    · rintro (hconfirmed | hxk)
      · refine .inl ?_
        rw [confirmed_of_info hx] at hconfirmed
        by_cases hxk : fc.MarkedWith k x
        · rw [hmarked hxk, markedValid_confirmed]
          exact .inl hconfirmed
        · rwa [hsame hxk]
      · rcases inSubtree_iff_child.mp hxk with rfl | ⟨c, hc, hck⟩
        · refine .inl ?_
          rw [hmarked ((markedWith_iff htree hdefault).mpr hxk), markedValid_confirmed]
          exact .inr rfl
        · exact .inr ⟨hbatch.aggregated_above htree hdefault hxk, c,
            htree.mem_children.mpr hc, (ih c hc).mpr (.inr hck)⟩

theorem MarkBatch.markedValid (hk : ∃ i, fc.info k = some i) (hdefault : k ≠ SlotHashKey.default)
    (h : fc.Processed batch fc') : fc.MarkedValid k fc' := by
  have hconfirmed := hbatch.confirmed_iff htree hflags hk hdefault h
  -- below the marked block, a confirmed child was confirmed before
  have hbelow : ∀ {x}, fc.InSubtree k x →
      fc'.latestInvalidAncestor x = (fc.latestInvalidAncestor x).filter (k.slot < ·) := by
    intro x hkx
    cases hi : fc.info x with
    | none =>
      rw [latest_of_absent (h.absent hi), latest_of_absent hi]
      rfl
    | some i =>
      obtain ⟨j, hsettled, hchildren, hnot, hmarked, _⟩ :=
        hbatch.entry htree h hi fun _ => markValid_onInfo
      have hj := hmarked ((markedWith_iff htree hdefault).mpr hkx)
      rw [hsettled.latest_eq hnot fun ⟨c, hc, hcc⟩ _ => ?_, hj, markedValid_latest,
        latestInvalidAncestor_of_info hi]
      have hparent := htree.mem_children.mp (hchildren ▸ hc)
      rcases (hconfirmed c).mp hcc with hcc | hck
      · have hnone := hflags.confirmed_latest (hflags.confirmed_parent hcc hparent)
        rw [latestInvalidAncestor_of_info hi] at hnone
        rw [hj, markedValid_latest, hnone]
        rfl
      · exact absurd (hck.trans hkx) (htree.not_inSubtree_parent hparent)
  refine ⟨h.sameShape, hconfirmed _, fun {x} hxk => ?_, hbelow, fun {x} hxk hkx => ?_⟩
  · rcases inSubtree_iff_child.mp hxk with rfl | ⟨c, hc, hck⟩
    · rw [hbelow (.refl _)]
      cases hlatest : fc.latestInvalidAncestor x with
      | none => rfl
      | some s => simp [filter_some, Nat.not_lt_of_le (hflags.latest_le hlatest)]
    · obtain ⟨i, hi⟩ := htree.info_of_inSubtree hxk hk
      obtain ⟨j, hsettled, hchildren, hnot, _⟩ := hbatch.entry htree h hi fun _ => markValid_onInfo
      refine hsettled.latest_none hnot (hbatch.aggregated_above htree hdefault hxk)
        ⟨c, hchildren ▸ htree.mem_children.mpr hc, ?_⟩
      exact (hconfirmed c).mpr (.inr hck)
  · cases hi : fc.info x with
    | none => rw [latest_of_absent (h.absent hi), latest_of_absent hi]
    | some i =>
      obtain ⟨j, hsettled, _, hnot, _, hsame⟩ := hbatch.entry htree h hi fun _ => markValid_onInfo
      have hj := hsame fun hmarked => hkx hmarked.1
      rw [hsettled.latest_eq hnot fun _ hagg => ?_, hj, latestInvalidAncestor_of_info hi]
      rcases hbatch.aggregated.mp hagg with hmarked | ⟨p, hp, hxp⟩
      · exact absurd hmarked.1 hkx
      · exact absurd (hxp.trans (.of_parent hp)) hxk

end Tree

theorem MarkedInvalid.flags (htree : fc.Tree) (hflags : fc.Flags) (hk : ¬fc.Confirmed k)
    (h : fc.MarkedInvalid k fc') : fc'.Flags := by
  have hraise : ∀ {x s}, fc.latestInvalidAncestor x = some s →
      ∃ s', fc'.latestInvalidAncestor x = some s' ∧ s ≤ s' := by
    intro x s hs
    by_cases hx : fc.MarkedWith k x
    · obtain ⟨i, hi, _⟩ := bind_eq_some_iff.mp hs
      refine ⟨_, h.latest_marked hi hx, ?_⟩
      rw [hs]
      exact le_max_left _ _
    · exact ⟨s, (h.latest_other hx).trans hs, le_rfl⟩
  refine ⟨fun {x} hx => ?_, fun {x p} hx hp => ?_, fun {x p s} hp hs => ?_, fun {x s} hs => ?_⟩
  · have hx' := h.confirmed.mp hx
    rw [h.latest_other fun hmarked => hk (hflags.confirmed_up hmarked.1 hx')]
    exact hflags.confirmed_latest hx'
  · rw [h.sameShape.parent_eq] at hp
    exact h.confirmed.mpr (hflags.confirmed_parent (h.confirmed.mp hx) hp)
  · rw [h.sameShape.parent_eq] at hp
    by_cases hpk : fc.MarkedWith k p
    · obtain ⟨i, hi⟩ := htree.info_of_parent hp
      obtain ⟨j, hj, _⟩ := exists_info_of_parent hp
      have hxk : fc.MarkedWith k x := by
        refine ⟨hpk.1.trans (.of_parent hp), fun hdefault => ?_⟩
        rcases inSubtree_iff_parent.mp hdefault.2 with rfl | ⟨q, hq, hdq⟩
        · exact absurd (htree.parent_lt hp) (Nat.not_lt_zero _)
        · obtain rfl := some.inj (hp.symm.trans hq)
          exact hpk.2 ⟨hdefault.1, hdq⟩
      rw [h.latest_marked hi hpk] at hs
      obtain rfl := some.inj hs
      refine ⟨_, h.latest_marked hj hxk, max_le_max_right _ ?_⟩
      cases hlatest : fc.latestInvalidAncestor p with
      | none => exact Nat.zero_le _
      | some s =>
        obtain ⟨s', hs', hle⟩ := hflags.latest_child hp hlatest
        rw [hs']
        exact hle
    · rw [h.latest_other hpk] at hs
      obtain ⟨s', hs', hle⟩ := hflags.latest_child hp hs
      obtain ⟨s'', hs'', hle'⟩ := hraise hs'
      exact ⟨s'', hs'', hle.trans hle'⟩
  · by_cases hx : fc.MarkedWith k x
    · obtain ⟨i, hi, _⟩ := bind_eq_some_iff.mp hs
      obtain ⟨j, hj⟩ := (h.sameShape.info_iff x).mp ⟨i, hi⟩
      rw [h.latest_marked hj hx] at hs
      obtain rfl := some.inj hs
      refine max_le ?_ (htree.slot_le hx.1)
      cases hlatest : fc.latestInvalidAncestor x with
      | none => exact Nat.zero_le _
      | some s => exact hflags.latest_le hlatest
    · rw [h.latest_other hx] at hs
      exact hflags.latest_le hs

theorem MarkedValid.flags (hflags : fc.Flags) (h : fc.MarkedValid k fc') : fc'.Flags := by
  -- the latest invalid ancestor is kept or removed, and removed in a part that is closed upwards
  have hkept : ∀ {x s}, fc'.latestInvalidAncestor x = some s → fc.latestInvalidAncestor x = some s ∧
        ¬fc.InSubtree x k ∧ (fc.InSubtree k x → k.slot < s) := by
    intro x s hs
    have hxk : ¬fc.InSubtree x k := fun hxk => by
      rw [h.latest_above hxk] at hs
      exact absurd hs (by simp)
    by_cases hkx : fc.InSubtree k x
    · rw [h.latest_below hkx, filter_eq_some_iff] at hs
      exact ⟨hs.1, hxk, fun _ => of_decide_eq_true hs.2⟩
    · rw [h.latest_other hxk hkx] at hs
      exact ⟨hs, hxk, fun hkx' => absurd hkx' hkx⟩
  refine ⟨fun {x} hx => ?_, fun {x p} hx hp => ?_, fun {x p s} hp hs => ?_, fun {x s} hs => ?_⟩
  · by_contra hne
    obtain ⟨s, hs⟩ := ne_none_iff_exists'.mp hne
    obtain ⟨hs', hxk, _⟩ := hkept hs
    have hnone := hflags.confirmed_latest ((h.confirmed.mp hx).resolve_right hxk)
    rw [hs'] at hnone
    exact absurd hnone (by simp)
  · rw [h.sameShape.parent_eq] at hp
    refine h.confirmed.mpr ((h.confirmed.mp hx).imp (hflags.confirmed_parent · hp) fun hxk => ?_)
    exact (InSubtree.of_parent hp).trans hxk
  · rw [h.sameShape.parent_eq] at hp
    obtain ⟨hs', hpk, hlt⟩ := hkept hs
    obtain ⟨s', hx, hle⟩ := hflags.latest_child hp hs'
    have hxk : ¬fc.InSubtree x k := fun hxk => hpk ((InSubtree.of_parent hp).trans hxk)
    refine ⟨s', ?_, hle⟩
    by_cases hkx : fc.InSubtree k x
    · rw [h.latest_below hkx, filter_eq_some_iff]
      refine ⟨hx, decide_eq_true ?_⟩
      rcases inSubtree_iff_parent.mp hkx with rfl | ⟨q, hq, hkq⟩
      · exact absurd (.refl _) hxk
      · obtain rfl := some.inj (hp.symm.trans hq)
        exact lt_of_lt_of_le (hlt hkq) hle
    · rw [h.latest_other hxk hkx, hx]
  · exact hflags.latest_le (hkept hs).1

end HeaviestSubtreeForkChoice
end Hypergrid
