import Hypergrid.ForkChoiceTree

/-!
# Processing the update operations

What a batch of update operations leaves, for any batch in which every node that is aggregated has
its aggregation as its last operation: each entry gets its own changes in their order, and a node
that is aggregated is computed from the entries its children have at the end.

* `processUpdateOperations_spec` : the batch is processed without a panic and its result is
  described by `Processed`.
* `insertAggregateOperations_spec` : the ancestors of a block are added to a batch whose aggregated
  nodes include the ancestors of each of them.
-/

namespace Hypergrid
open List UpdateOperation

/-- The effect of an operation on the entry of its node; aggregation reads other entries as well. -/
def UpdateOperation.onInfo (key : SlotHashKey) (i : ForkInfo) : UpdateOperation → Option ForkInfo
  | markValid validSlot =>
    let i := i.updateWithNewlyValidAncestor validSlot
    some (if key.slot = validSlot then { i with isDuplicateConfirmed := true } else i)
  | markInvalid invalidSlot => i.updateWithNewlyInvalidAncestor invalidSlot
  | add stake => some { i with
      stakeVotedAt := i.stakeVotedAt + stake
      stakeVotedSubtree := i.stakeVotedSubtree + stake }
  | subtract stake =>
    if stake ≤ i.stakeVotedAt ∧ stake ≤ i.stakeVotedSubtree then
      some { i with
        stakeVotedAt := i.stakeVotedAt - stake
        stakeVotedSubtree := i.stakeVotedSubtree - stake }
    else none
  | aggregate => some i

namespace HeaviestSubtreeForkChoice

variable {fc : HeaviestSubtreeForkChoice} {x p k : SlotHashKey} {i j : ForkInfo}
  {op : UpdateOperation} {o : OperationEntry} {ops : UpdateOperations}

section Changes
variable {changes : List UpdateOperation}

theorem applyOperation_of_ne (h : op ≠ .aggregate) :
    fc.applyOperation x op = match fc.info x with
      | none => some fc
      | some i => (op.onInfo x i).map (fc.setInfo x) := by
  cases op with
  | aggregate => exact absurd rfl h
  | markValid s =>
    simp only [applyOperation, markForkValid, onInfo]
    cases fc.info x <;> rfl
  | markInvalid s =>
    simp only [applyOperation, markForkInvalid, onInfo]
    cases hx : fc.info x with
    | none => rfl
    | some i => cases hi : i.updateWithNewlyInvalidAncestor s <;> simp [hi]
  | add n =>
    simp only [applyOperation, addSlotStake, onInfo]
    cases fc.info x <;> rfl
  | subtract n =>
    simp only [applyOperation, subtractSlotStake, onInfo]
    cases fc.info x with
    | none => rfl
    | some i =>
      by_cases hle : n ≤ i.stakeVotedAt ∧ n ≤ i.stakeVotedSubtree
      · simp
      · simp

theorem onInfo_edges (h : op.onInfo x i = some j) :
    j.parent = i.parent ∧ j.children = i.children := by
  cases op <;>
    simp only [onInfo, ForkInfo.updateWithNewlyValidAncestor,
      ForkInfo.updateWithNewlyInvalidAncestor, Option.some.injEq] at h <;>
    grind

def onInfos (x : SlotHashKey) (changes : List UpdateOperation) (i : ForkInfo) : Option ForkInfo :=
  changes.foldlM (fun i op => op.onInfo x i) i

theorem onInfos_concat (changes : List UpdateOperation) :
    onInfos x (changes ++ [op]) i = (onInfos x changes i).bind (fun j => op.onInfo x j) := by
  simp [onInfos]

theorem onInfos_induction {P : ForkInfo → Prop}
    (hstep : ∀ op ∈ changes, ∀ i j, P i → op.onInfo x i = some j → P j)
    (h : onInfos x changes i = some j) (hi : P i) : P j := by
  induction changes generalizing i with
  | nil => exact Option.some.inj h ▸ hi
  | cons op changes ih =>
    obtain ⟨k, hk, hrest⟩ := Option.bind_eq_some_iff.mp h
    refine ih (fun op' hop' => hstep op' (mem_cons_of_mem _ hop')) hrest ?_
    exact hstep op mem_cons_self i k hi hk

theorem onInfos_edges (h : onInfos x changes i = some j) :
    j.parent = i.parent ∧ j.children = i.children :=
  onInfos_induction (P := fun k => k.parent = i.parent ∧ k.children = i.children)
    (fun _ _ _ _ hi hk => (onInfo_edges hk).imp hi.1.subst hi.2.subst) h ⟨rfl, rfl⟩

end Changes

section Aggregates
variable {fc' : HeaviestSubtreeForkChoice} {cs : List SlotHashKey}
variable {a : Aggregation}

/-- The loop of `aggregate_slot` over the children. -/
def aggregateChildren (fc : HeaviestSubtreeForkChoice) (x : SlotHashKey) (i : ForkInfo) :
    Option Aggregation :=
  i.children.foldlM (fc.aggregateChild x) (Aggregation.start x i)

theorem aggregateSlot_of_info (hi : fc.info x = some i) (ha : fc.aggregateChildren x i = some a) :
    fc.aggregateSlot x = some (fc.setInfo x (withAggregation i a)) := by
  rw [aggregateSlot, hi]
  exact Option.bind_eq_some_iff.mpr ⟨a, ha, rfl⟩

theorem aggregate_exists (h : ∀ c ∈ cs, ∃ i, fc.info c = some i) (a : Aggregation) :
    ∃ b, cs.foldlM (fc.aggregateChild x) a = some b := by
  induction cs generalizing a with
  | nil => exact ⟨a, rfl⟩
  | cons c cs ih =>
    obtain ⟨i, hi⟩ := h c mem_cons_self
    rw [foldlM_cons, aggregateChild, hi]
    exact ih (fun c' hc' => h c' (mem_cons_of_mem _ hc')) _

theorem aggregate_congr (h : ∀ c ∈ cs, fc'.info c = fc.info c) (a : Aggregation) :
    cs.foldlM (fc'.aggregateChild x) a = cs.foldlM (fc.aggregateChild x) a := by
  induction cs generalizing a with
  | nil => rfl
  | cons c cs ih =>
    have hc : fc'.aggregateChild x a c = fc.aggregateChild x a c := by
      rw [aggregateChild, aggregateChild, h c mem_cons_self]
    rw [foldlM_cons, foldlM_cons, hc]
    refine congrArg _ (funext fun b => ih (fun c' hc' => h c' (mem_cons_of_mem _ hc')) b)

theorem withAggregation_edges (i : ForkInfo) (a : Aggregation) :
    (withAggregation i a).parent = i.parent ∧ (withAggregation i a).children = i.children := by
  unfold withAggregation ForkInfo.setDuplicateConfirmed
  split <;> exact ⟨rfl, rfl⟩

end Aggregates

section Process
variable (batch : List OperationEntry)

abbrev OperationEntry := Sigma (fun _ : SlotHashKey × UpdateLabel => UpdateOperation)

/-- The operations on the entry of one node, in their order, without aggregations. -/
def changesAt (x : SlotHashKey) : List UpdateOperation :=
  (batch.filter (fun o => o.1.1 = x ∧ o.2 ≠ .aggregate)).map Sigma.snd

def AggregatedIn (x : SlotHashKey) : Prop :=
  ∃ o ∈ batch, o.1.1 = x ∧ o.2 = .aggregate

/-- The entry of a node whose own changes lead to `j`: `j` itself, or its aggregation over the
children. -/
def Settled (fc : HeaviestSubtreeForkChoice) (aggregated : Prop) (x : SlotHashKey) (j : ForkInfo) :
    Prop :=
  (¬aggregated ∧ fc.info x = some j) ∨
    (aggregated ∧ ∃ a, fc.aggregateChildren x j = some a ∧ fc.info x = some (withAggregation j a))

/-- What is there after the operations of a batch. -/
structure Processed (fc : HeaviestSubtreeForkChoice) (batch : List OperationEntry)
    (fc' : HeaviestSubtreeForkChoice) : Prop where
  latestVotes : fc'.latestVotes = fc.latestVotes
  treeRoot : fc'.treeRoot = fc.treeRoot
  absent : ∀ {x}, fc.info x = none → fc'.info x = none
  entry : ∀ {x i}, fc.info x = some i →
    ∃ j, onInfos x (changesAt batch x) i = some j ∧ fc'.Settled (AggregatedIn batch x) x j

/-- An operation comes after a batch: its node is not above a node of the batch, and below every
node that is aggregated already. -/
def Follows (o : OperationEntry) : Prop :=
  ∀ d ∈ batch, d.2 = .aggregate → o.1.1 < d.1.1

variable {cur next : HeaviestSubtreeForkChoice}
variable {batch : List OperationEntry}

theorem Settled.shape {aggregated : Prop} (h : fc.Settled aggregated x j) :
    (fc.info x).map (fun i => (i.parent, i.children)) = some (j.parent, j.children) := by
  rcases h with ⟨_, h⟩ | ⟨_, a, _, h⟩
  · rw [h, Option.map_some]
  · rw [h, Option.map_some, (withAggregation_edges _ _).1, (withAggregation_edges _ _).2]

theorem Processed.sameShape (h : fc.Processed batch cur) : fc.SameShape cur where
  shape := by
    intro x
    cases hx : fc.info x with
    | none => rw [h.absent hx]
    | some i =>
      obtain ⟨j, hj, hsettled⟩ := h.entry hx
      rw [hsettled.shape, (onInfos_edges hj).1, (onInfos_edges hj).2, Option.map_some]
  treeRoot := h.treeRoot

theorem Processed.nil (fc : HeaviestSubtreeForkChoice) : fc.Processed [] fc where
  latestVotes := rfl
  treeRoot := rfl
  absent := id
  entry := fun hi => ⟨_, rfl, .inl ⟨fun ⟨_, ho, _⟩ => absurd ho not_mem_nil, hi⟩⟩

theorem changesAt_concat_of_ne (h : o.1.1 ≠ x) :
    changesAt (batch ++ [o]) x = changesAt batch x := by
  simp [changesAt, h]

theorem changesAt_concat_aggregate (h : o.2 = .aggregate) :
    changesAt (batch ++ [o]) x = changesAt batch x := by
  simp [changesAt, h]

theorem changesAt_concat_self (h : o.2 ≠ .aggregate) :
    changesAt (batch ++ [o]) o.1.1 = changesAt batch o.1.1 ++ [o.2] := by
  simp [changesAt, h]

theorem aggregatedIn_concat :
    AggregatedIn (batch ++ [o]) x ↔ AggregatedIn batch x ∨ o.1.1 = x ∧ o.2 = .aggregate := by
  simp [AggregatedIn]

theorem Settled.setInfo {aggregated : Prop} (hlinked : fc.Linked) (hshape : fc.SameShape cur)
    (h : cur.Settled aggregated x j) (hne : x ≠ o.1.1) (hlater : aggregated → o.1.1 < x) :
    (cur.setInfo o.1.1 i).Settled aggregated x j := by
  rcases h with ⟨hnot, hx⟩ | ⟨hagg, a, ha, hx⟩
  · exact .inl ⟨hnot, (info_setInfo_ne hne).trans hx⟩
  · refine .inr ⟨hagg, a, ?_, (info_setInfo_ne hne).trans hx⟩
    have hchildren : cur.childrenOf x = j.children :=
      (childrenOf_of_info hx).trans (withAggregation_edges j a).2
    rw [← ha]
    refine aggregate_congr (fun c hc => info_setInfo_ne ?_) _
    rw [← hchildren, hshape.childrenOf_eq] at hc
    exact ne_of_gt ((hlater hagg).trans (hlinked.lt hc))

theorem Processed.step (hlinked : fc.Linked) (h : fc.Processed batch cur)
    (hfollows : Follows batch o)
    (hpre : ∀ i, fc.info o.1.1 = some i → ∃ j,
      onInfos o.1.1 (changesAt (batch ++ [o]) o.1.1) i = some j) :
    ∃ next, cur.applyOperation o.1.1 o.2 = some next ∧ fc.Processed (batch ++ [o]) next := by
  have hlater : ∀ x, AggregatedIn batch x → o.1.1 < x := by
    rintro x ⟨d, hd, rfl, hagg⟩
    exact hfollows d hd hagg
  have hother : ∀ x, x ≠ o.1.1 → (AggregatedIn (batch ++ [o]) x ↔ AggregatedIn batch x) := by
    intro x hne
    rw [aggregatedIn_concat]
    exact or_iff_left fun hx => hne hx.1.symm
  have hself : ¬AggregatedIn batch o.1.1 := fun hagg => lt_irrefl _ (hlater _ hagg)
  cases hx : fc.info o.1.1 with
  | none =>
    -- the node is not in the tree: nothing changes
    have hcur := h.absent hx
    refine ⟨cur, ?_, h.latestVotes, h.treeRoot, h.absent, fun {x i} hi => ?_⟩
    · by_cases hop : o.2 = .aggregate
      · rw [hop, applyOperation, aggregateSlot, hcur]
      · rw [applyOperation_of_ne hop, hcur]
    · have hne : x ≠ o.1.1 := fun heq => by rw [heq, hx] at hi; exact absurd hi (by simp)
      rw [changesAt_concat_of_ne (Ne.symm hne), hother x hne]
      exact h.entry hi
  | some i =>
    obtain ⟨j, hj, hsettled⟩ := h.entry hx
    have hcur : cur.info o.1.1 = some j := hsettled.elim And.right fun hagg => absurd hagg.1 hself
    have hframe : ∀ k, (∀ {x i}, fc.info x = some i → x ≠ o.1.1 →
        ∃ j, onInfos x (changesAt (batch ++ [o]) x) i = some j ∧
          (cur.setInfo o.1.1 k).Settled (AggregatedIn (batch ++ [o]) x) x j) := by
      intro k x i' hi' hne
      obtain ⟨j', hj', hsettled'⟩ := h.entry hi'
      rw [changesAt_concat_of_ne (Ne.symm hne), hother x hne]
      exact ⟨j', hj', hsettled'.setInfo hlinked h.sameShape hne (hlater x)⟩
    have habsent : ∀ k {x}, fc.info x = none → (cur.setInfo o.1.1 k).info x = none := by
      intro k x hnone
      have hne : x ≠ o.1.1 := fun heq => by rw [heq, hx] at hnone; exact absurd hnone (by simp)
      exact (info_setInfo_ne hne).trans (h.absent hnone)
    by_cases hop : o.2 = .aggregate
    · have hinfos : ∀ c ∈ j.children, ∃ i, cur.info c = some i := by
        rw [← childrenOf_of_info hcur]
        exact fun c hc => (h.sameShape.linked hlinked).info hc
      obtain ⟨a, ha⟩ := aggregate_exists hinfos (Aggregation.start o.1.1 j)
      refine ⟨cur.setInfo o.1.1 (withAggregation j a), ?_, h.latestVotes, h.treeRoot,
        habsent _, fun {x i'} hi' => ?_⟩
      · rw [hop]
        exact aggregateSlot_of_info hcur ha
      · by_cases hne : x = o.1.1
        · subst hne
          obtain rfl := Option.some.inj (hx.symm.trans hi')
          refine ⟨j, (changesAt_concat_aggregate hop).symm ▸ hj, .inr ⟨?_, a, ?_, ?_⟩⟩
          · exact aggregatedIn_concat.mpr (.inr ⟨rfl, hop⟩)
          · rw [aggregateChildren, ← ha]
            refine aggregate_congr (fun c hc => info_setInfo_ne fun heq => ?_) _
            rw [← childrenOf_of_info hcur, heq] at hc
            exact (h.sameShape.linked hlinked).not_mem _ hc
          · exact info_setInfo_self
        · exact hframe _ hi' hne
    · obtain ⟨j', hj'⟩ := hpre i hx
      have hchange : o.2.onInfo o.1.1 j = some j' := by
        rw [changesAt_concat_self hop, onInfos_concat, hj] at hj'
        exact hj'
      refine ⟨cur.setInfo o.1.1 j', ?_, h.latestVotes, h.treeRoot, habsent _, fun {x i'} hi' => ?_⟩
      · rw [applyOperation_of_ne hop, hcur]
        simp [hchange]
      · by_cases hne : x = o.1.1
        · subst hne
          obtain rfl := Option.some.inj (hx.symm.trans hi')
          refine ⟨j', hj', .inl ⟨?_, info_setInfo_self⟩⟩
          rw [aggregatedIn_concat]
          rintro (hagg | hagg)
          · exact hself hagg
          · exact hop hagg.2
        · exact hframe _ hi' hne

end Process

/-- The operations agree with their labels on which of them are aggregations. -/
def Labelled (ops : UpdateOperations) : Prop :=
  ∀ {o op}, ops.lookup o = some op → (o.2 = .aggregate ↔ op = .aggregate)

def Aggregates (ops : UpdateOperations) (x : SlotHashKey) : Prop :=
  ops.lookup (x, .aggregate) = some .aggregate

theorem rank_injective : Function.Injective UpdateLabel.rank := by
  intro l l' h
  cases l <;> cases l' <;> simp_all [UpdateLabel.rank]

theorem operationRank_injective : Function.Injective operationRank := by
  rintro ⟨x, l⟩ ⟨x', l'⟩ h
  have hpair := Prod.ext_iff.mp (toLex.injective h)
  simp only at hpair
  rw [hpair.1, rank_injective hpair.2]

theorem mem_descending : o ∈ descending ops ↔ ops.lookup o.1 = some o.2 := by
  rw [descending, (perm_insertionSort _ _).mem_iff, ← Option.mem_def]
  exact AList.mem_lookup_iff.symm

theorem pairwise_descending :
    (descending ops).Pairwise (fun a b => operationRank b.1 < operationRank a.1) := by
  have hsorted : (descending ops).Pairwise (fun a b => operationRank b.1 ≤ operationRank a.1) :=
    pairwise_insertionSort _ _
  have hkeys : (descending ops).Pairwise (fun a b => a.1 ≠ b.1) := by
    refine (perm_insertionSort _ _).symm.pairwise ?_ (fun h => Ne.symm h)
    exact pairwise_map.mp ops.nodupKeys
  refine (hsorted.and hkeys).imp fun h => lt_of_le_of_ne h.1 fun heq => h.2 ?_
  exact (operationRank_injective heq).symm

theorem aggregatedIn_descending (hlab : Labelled ops) :
    AggregatedIn (descending ops) x ↔ Aggregates ops x := by
  constructor
  · rintro ⟨⟨⟨y, l⟩, op⟩, ho, rfl, rfl⟩
    have hlookup := mem_descending.mp ho
    obtain rfl : l = .aggregate := (hlab hlookup).mpr rfl
    exact hlookup
  · intro h
    exact ⟨⟨(x, .aggregate), .aggregate⟩, mem_descending.mpr h, rfl, rfl⟩

theorem mem_changesAt :
    op ∈ changesAt (descending ops) x ↔ op ≠ .aggregate ∧ ∃ l, ops.lookup (x, l) = some op := by
  simp only [changesAt, mem_map, mem_filter, mem_descending, decide_eq_true_eq]
  constructor
  · rintro ⟨⟨⟨y, l⟩, op⟩, ⟨hlookup, rfl, hne⟩, rfl⟩
    exact ⟨hne, l, hlookup⟩
  · rintro ⟨hne, l, hlookup⟩
    exact ⟨⟨(x, l), op⟩, ⟨hlookup, rfl, hne⟩, rfl⟩

theorem follows_of_descending {batch : List OperationEntry} (hlab : Labelled ops)
    (hbatch : ∀ d ∈ batch, d ∈ descending ops)
    (hlt : ∀ d ∈ batch, operationRank o.1 < operationRank d.1) : Follows batch o := by
  intro d hd hagg
  have hlabel : d.1.2 = .aggregate := (hlab (mem_descending.mp (hbatch d hd))).mpr hagg
  rcases Prod.Lex.toLex_lt_toLex.mp (hlt d hd) with h | ⟨_, h⟩
  · exact h
  · rw [hlabel] at h
    -- aggregation has the lowest label
    rcases Prod.Lex.toLex_lt_toLex.mp h with h | ⟨_, h⟩
    · exact absurd h (Nat.not_lt_zero _)
    · exact absurd h (Nat.not_lt_zero _)

theorem processUpdateOperations_spec (hlinked : fc.Linked) (hlab : Labelled ops)
    (hpre : ∀ x i, fc.info x = some i → ∃ j, onInfos x (changesAt (descending ops) x) i = some j) :
    ∃ fc', fc.processUpdateOperations ops = some fc' ∧ fc.Processed (descending ops) fc' := by
  have hrun : ∀ todo done cur, descending ops = done ++ todo → fc.Processed done cur →
      ∃ fc', todo.foldlM (fun fc o => fc.applyOperation o.1.1 o.2) cur = some fc' ∧
        fc.Processed (descending ops) fc' := by
    intro todo
    induction todo with
    | nil =>
      intro done cur hsplit hcur
      rw [append_nil] at hsplit
      exact ⟨cur, rfl, hsplit ▸ hcur⟩
    | cons o todo ih =>
      intro done cur hsplit hcur
      have hpairwise := @pairwise_descending ops
      rw [hsplit] at hpairwise
      have hfollows : Follows done o := by
        refine follows_of_descending hlab (fun d hd => ?_) (fun d hd => ?_)
        · exact hsplit ▸ mem_append_left _ hd
        · exact (pairwise_append.mp hpairwise).2.2 d hd o mem_cons_self
      have hsplit' : descending ops = (done ++ [o]) ++ todo := by
        rw [hsplit, append_assoc, singleton_append]
      obtain ⟨next, hnext, hprocessed⟩ := hcur.step hlinked hfollows fun i hi => by
        obtain ⟨j, hj⟩ := hpre _ i hi
        rw [hsplit', changesAt, filter_append, map_append, onInfos, foldlM_append] at hj
        obtain ⟨j', hj', _⟩ := Option.bind_eq_some_iff.mp hj
        exact ⟨j', hj'⟩
      obtain ⟨fc', hfc', hdone⟩ := ih (done ++ [o]) next hsplit' hprocessed
      exact ⟨fc', by rw [foldlM_cons, hnext]; exact hfc', hdone⟩
  exact hrun (descending ops) [] fc rfl (Processed.nil fc)

variable {ops' : UpdateOperations}

/-- With a node, its parent is aggregated, except for the node `k`. -/
def ClosedBut (fc : HeaviestSubtreeForkChoice) (k : SlotHashKey) (ops : UpdateOperations) : Prop :=
  ∀ {x p}, Aggregates ops x → fc.parent x = some p → x ≠ k → Aggregates ops p

def Closed (fc : HeaviestSubtreeForkChoice) (ops : UpdateOperations) : Prop :=
  ∀ {x p}, Aggregates ops x → fc.parent x = some p → Aggregates ops p

/-- Two batches that differ in their aggregations only. -/
structure AggregatesMore (ops ops' : UpdateOperations) (more : SlotHashKey → Prop) : Prop where
  labelled : Labelled ops'
  aggregates : ∀ {x}, Aggregates ops' x ↔ Aggregates ops x ∨ more x
  other : ∀ {o}, o.2 ≠ .aggregate → ops'.lookup o = ops.lookup o

theorem ClosedBut.up (htree : fc.Tree) (h : fc.ClosedBut k ops) (hp : Aggregates ops p)
    (hlt : p.slot < k.slot) (hxp : fc.InSubtree x p) : Aggregates ops x := by
  induction hxp with
  | refl => exact hp
  | @tail b c hpath hparent ih =>
    have hne : c ≠ k := fun heq => absurd hlt (heq ▸ lt_irrefl _)
    exact ih (h hp hparent hne) ((htree.parent_lt hparent).trans hlt)

theorem doInsertAggregateOperation_of_aggregates (h : Aggregates ops x)
    (mark : Option UpdateOperation) : doInsertAggregateOperation ops mark x = (false, ops) := by
  unfold doInsertAggregateOperation
  rw [h, Option.isSome_some, if_pos rfl]

theorem lookup_aggregate_none (hlab : Labelled ops) (h : ¬Aggregates ops x) :
    ops.lookup (x, .aggregate) = none := by
  cases hx : ops.lookup (x, .aggregate) with
  | none => rfl
  | some op =>
    obtain rfl := (hlab hx).mp rfl
    exact absurd hx h

theorem labelled_insert {label : UpdateLabel} (hlab : Labelled ops)
    (h : label = .aggregate ↔ op = .aggregate) : Labelled (ops.insert (x, label) op) := by
  intro o op' ho
  by_cases hox : o = (x, label)
  · rw [hox, AList.lookup_insert] at ho
    rw [hox, ← Option.some.inj ho]
    exact h
  · rw [AList.lookup_insert_ne hox] at ho
    exact hlab ho

theorem aggregatesMore_insert (hlab : Labelled ops) (x : SlotHashKey) :
    AggregatesMore ops (ops.insert (x, .aggregate) .aggregate) (· = x) where
  labelled := labelled_insert hlab (iff_of_true rfl rfl)
  aggregates := by
    intro y
    unfold Aggregates
    by_cases hyx : y = x
    · rw [hyx, AList.lookup_insert]
      simp
    · rw [AList.lookup_insert_ne (by simpa using hyx)]
      simp [hyx]
  other := fun ho => AList.lookup_insert_ne fun heq => ho (heq ▸ rfl)

/-- The ancestors of a block are added to the batch; the loop stops at one that is already there,
since its ancestors are there too. -/
theorem insertAggregateOperations_spec (htree : fc.Tree) (hlab : Labelled ops)
    (hclosed : fc.ClosedBut k ops) :
    AggregatesMore ops (fc.insertAggregateOperations ops k)
        (fun x => ∃ p, fc.parent k = some p ∧ fc.InSubtree x p) ∧
      fc.Closed (fc.insertAggregateOperations ops k) := by
  unfold insertAggregateOperations
  fun_induction ancestorIterator fc k generalizing ops with
  | case1 k hk =>
    refine ⟨⟨hlab, by simp [insertAggregates, hk], fun _ => rfl⟩, fun hx hp => ?_⟩
    exact hclosed hx hp fun heq => by rw [heq, hk] at hp; exact absurd hp (by simp)
  | case2 k p hk hlt ih =>
    by_cases hp : Aggregates ops p
    · rw [insertAggregates, doInsertAggregateOperation_of_aggregates hp]
      refine ⟨⟨hlab, fun {x} => ?_, fun _ => rfl⟩, fun {x q} hx hq => ?_⟩
      · rw [hk]
        refine ⟨.inl, fun h => h.elim id ?_⟩
        rintro ⟨q, hq, hxq⟩
        obtain rfl := Option.some.inj hq
        exact hclosed.up htree hp hlt hxq
      · by_cases hxk : x = k
        · rw [hxk, hk] at hq
          exact Option.some.inj hq ▸ hp
        · exact hclosed hx hq hxk
    · have hinsert := aggregatesMore_insert hlab p
      have hbut : fc.ClosedBut p (ops.insert (p, .aggregate) .aggregate) := by
        intro x q hx hq hxp
        have hx' := (hinsert.aggregates.mp hx).resolve_right hxp
        by_cases hxk : x = k
        · rw [hxk, hk] at hq
          exact hinsert.aggregates.mpr (.inr (Option.some.inj hq).symm)
        · exact hinsert.aggregates.mpr (.inl (hclosed hx' hq hxk))
      obtain ⟨hmore, hclosed'⟩ := ih hinsert.labelled hbut
      have hstep : insertAggregates (p :: fc.ancestorIterator p) ops =
          insertAggregates (fc.ancestorIterator p) (ops.insert (p, .aggregate) .aggregate) := by
        rw [insertAggregates]
        unfold doInsertAggregateOperation
        rw [lookup_aggregate_none hlab hp]
        rfl
      rw [hstep]
      refine ⟨⟨hmore.labelled, fun {x} => ?_, fun ho => ?_⟩, hclosed'⟩
      · rw [hmore.aggregates, hinsert.aggregates, or_assoc, hk]
        refine or_congr_right ?_
        rw [← inSubtree_iff_parent]
        simp
      · exact (hmore.other ho).trans (hinsert.other ho)
  | case3 k p hk hlt => exact absurd (htree.parent_lt hk) hlt

end HeaviestSubtreeForkChoice
end Hypergrid
