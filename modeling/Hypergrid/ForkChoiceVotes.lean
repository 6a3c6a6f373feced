import Hypergrid.ForkChoiceSpread

/-!
# Adding votes

`add_votes` turns a batch of votes into operations: the stake of a vote is subtracted from the node
of the old vote and added to the node of the new one, and the ancestors of both are aggregated.  The
stake that is subtracted from a node is that of votes on it, and no vote is moved twice, so no
subtraction is below zero.

* `generateUpdateOperations_spec` : the operations of a batch.
* `addVotes_sound` : votes of which every vote account has one are added without a panic and leave
  the tree consistent.
-/

namespace Hypergrid
open UpdateOperation MapSum List Option

def UpdateOperation.added : UpdateOperation → Nat
  | add stake => stake
  | _ => 0

def UpdateOperation.subtracted : UpdateOperation → Nat
  | subtract stake => stake
  | _ => 0

namespace HeaviestSubtreeForkChoice

variable {x : SlotHashKey} {i : ForkInfo} {ops : UpdateOperations}
  {fc fc' : HeaviestSubtreeForkChoice} {stakes : VoteStakes} {g : Generation}

section Stakes
variable {changes : List UpdateOperation}
variable {amount : UpdateOperation → Nat}

theorem onInfos_stakes (hstake : StakeOnly changes)
    (hsub : (changes.map subtracted).sum ≤ i.stakeVotedAt)
    (hle : i.stakeVotedAt ≤ i.stakeVotedSubtree) :
    ∃ j, onInfos x changes i = some j ∧ j.stakeVotedAt + (changes.map subtracted).sum =
        i.stakeVotedAt + (changes.map added).sum := by
  induction changes generalizing i with
  | nil => exact ⟨i, rfl, rfl⟩
  | cons op rest ih =>
    have hrest : StakeOnly rest := fun op' hop' => hstake op' (mem_cons_of_mem _ hop')
    simp only [map_cons, sum_cons] at hsub ⊢
    rcases hstake op mem_cons_self with ⟨n, rfl⟩ | ⟨n, rfl⟩
    · simp only [subtracted, added] at hsub ⊢
      obtain ⟨j, hj, hsum⟩ := ih (i := { i with
        stakeVotedAt := i.stakeVotedAt + n
        stakeVotedSubtree := i.stakeVotedSubtree + n }) hrest (by dsimp only; omega)
        (by dsimp only; omega)
      refine ⟨j, bind_eq_some_iff.mpr ⟨_, rfl, hj⟩, ?_⟩
      dsimp only at hsum
      omega
    · simp only [subtracted, added] at hsub ⊢
      obtain ⟨j, hj, hsum⟩ := ih (i := { i with
        stakeVotedAt := i.stakeVotedAt - n
        stakeVotedSubtree := i.stakeVotedSubtree - n }) hrest (by dsimp only; omega)
        (by dsimp only; omega)
      refine ⟨j, bind_eq_some_iff.mpr ⟨_, if_pos ⟨by omega, by omega⟩, hj⟩, ?_⟩
      dsimp only at hsum
      omega

/-- An amount of the operations of a node. -/
def amountAt (amount : UpdateOperation → Nat) (ops : UpdateOperations) (x : SlotHashKey) : Nat :=
  MapSum.weigh (fun o op => if o.1 = x then amount op else 0) ops

theorem sum_changesAt (hzero : amount .aggregate = 0) (x : SlotHashKey) :
    ((changesAt (descending ops) x).map amount).sum = amountAt amount ops x := by
  have hfilter : ∀ l : List OperationEntry, ((changesAt l x).map amount).sum =
      (l.map (fun o => if o.1.1 = x then amount o.2 else 0)).sum := by
    intro l
    induction l with
    | nil => rfl
    | cons o l ih =>
      have hcons : changesAt (o :: l) x =
          if o.1.1 = x ∧ o.2 ≠ .aggregate then o.2 :: changesAt l x else changesAt l x := by
        unfold changesAt
        by_cases ho : o.1.1 = x ∧ o.2 ≠ .aggregate
        · rw [filter_cons_of_pos (by simpa using ho), map_cons, if_pos ho]
        · rw [filter_cons_of_neg (by simpa using ho), if_neg ho]
      rw [hcons, map_cons, sum_cons, ← ih]
      by_cases hx : o.1.1 = x
      · by_cases hagg : o.2 = .aggregate
        · rw [if_neg fun h => h.2 hagg, if_pos hx, hagg, hzero, Nat.zero_add]
        · rw [if_pos ⟨hx, hagg⟩, if_pos hx, map_cons, sum_cons]
      · rw [if_neg fun h => hx h.1, if_neg hx, Nat.zero_add]
  rw [hfilter]
  exact ((perm_insertionSort _ ops.entries).map _).sum_eq

theorem amountAt_insertAggregates (hzero : amount .aggregate = 0)
    (hlab : Labelled ops) (chain : List SlotHashKey) (x : SlotHashKey) :
    amountAt amount (insertAggregates chain ops) x = amountAt amount ops x := by
  induction chain generalizing ops with
  | nil => rfl
  | cons a rest ih =>
    by_cases ha : Aggregates ops a
    · rw [insertAggregates, doInsertAggregateOperation_of_aggregates ha]
    · have hstep : insertAggregates (a :: rest) ops =
          insertAggregates rest (ops.insert (a, .aggregate) .aggregate) := by
        rw [insertAggregates]
        unfold doInsertAggregateOperation
        rw [lookup_aggregate_none hlab ha]
        rfl
      rw [hstep, ih (aggregatesMore_insert hlab a).labelled]
      have hinsert := weigh_insert (fun o op => if o.1 = x then amount op else 0) ops
        (a, .aggregate) .aggregate
      have hold : weighAt (fun o op => if o.1 = x then amount op else 0) ops
          (a, .aggregate) = 0 := by
        rw [weighAt, lookup_aggregate_none hlab ha]
        rfl
      rw [hold, hzero, ite_self, Nat.add_zero, Nat.add_zero] at hinsert
      exact hinsert

end Stakes

section Batch
variable {y : SlotHashKey}
variable {label : UpdateLabel} {new : Nat → UpdateOperation} {stake : Nat}

/-- The two kinds of operations on stakes and their labels. -/
inductive StakeLabel : UpdateLabel → (Nat → UpdateOperation) → Prop
  | add : StakeLabel .add .add
  | subtract : StakeLabel .subtract .subtract

theorem StakeLabel.ne (h : StakeLabel label new) : label ≠ .aggregate := by
  cases h <;> simp

theorem StakeLabel.op_ne (h : StakeLabel label new) (n : Nat) : new n ≠ .aggregate := by
  cases h <;> simp

/-- A batch of operations on stakes, in which the ancestors of every node that is changed or
aggregated are aggregated. -/
structure StakeBatch (fc : HeaviestSubtreeForkChoice) (ops : UpdateOperations) : Prop where
  labelled : Labelled ops
  closed : fc.Closed ops
  stakes : ∀ {x l op}, l ≠ .aggregate → ops.lookup (x, l) = some op →
    ∃ new n, StakeLabel l new ∧ op = new n
  touched : ∀ {x l op p}, l ≠ .aggregate → ops.lookup (x, l) = some op → fc.parent x = some p →
    Aggregates ops p

theorem StakeBatch.empty (fc : HeaviestSubtreeForkChoice) : fc.StakeBatch ∅ where
  labelled := fun h => absurd h (by simp)
  closed := fun h => absurd h (by simp [Aggregates])
  stakes := fun _ h => absurd h (by simp)
  touched := fun _ h => absurd h (by simp)

theorem StakeLabel.eq (h : StakeLabel label new) {new' : Nat → UpdateOperation}
    (h' : StakeLabel label new') : new' = new := by
  cases h <;> cases h' <;> rfl

theorem updateStake_eq (h : StakeLabel label new) (n : Nat) :
    (new n).updateStake stake = some (new (n + stake)) := by
  cases h <;> rfl

theorem StakeBatch.upsertStake_eq (h : fc.StakeBatch ops) (hlabel : StakeLabel label new)
    (x : SlotHashKey) (stake : Nat) :
    ∃ n, upsertStake ops (x, label) new stake = some (ops.insert (x, label) (new (n + stake))) ∧
      ∀ (amount : UpdateOperation → Nat) (y : SlotHashKey), amount (new 0) = 0 →
        weighAt (fun o op => if o.1 = y then amount op else 0) ops (x, label) =
          if x = y then amount (new n) else 0 := by
  cases hold : ops.lookup (x, label) with
  | none =>
    refine ⟨0, ?_, fun amount y hzero => ?_⟩
    · rw [upsertStake, hold, Nat.zero_add]
    · rw [weighAt, hold, hzero, ite_self]
      rfl
  | some op =>
    obtain ⟨new', n, hlabel', rfl⟩ := h.stakes hlabel.ne hold
    obtain rfl := hlabel.eq hlabel'
    refine ⟨n, ?_, fun amount y _ => ?_⟩
    · simp only [upsertStake, hold, updateStake_eq hlabel]
      rfl
    · rw [weighAt, hold]
      rfl

theorem StakeBatch.upsert (htree : fc.Tree) (h : fc.StakeBatch ops) (hlabel : StakeLabel label new)
    (x : SlotHashKey) (stake : Nat) :
    ∃ ops', upsertStake ops (x, label) new stake = some ops' ∧
      fc.StakeBatch (fc.insertAggregateOperations ops' x) ∧
      ∀ (amount : UpdateOperation → Nat) (y : SlotHashKey), amount .aggregate = 0 →
        (∀ n, amount (new (n + stake)) = amount (new n) + amount (new stake)) → amount (new 0) = 0 →
        amountAt amount (fc.insertAggregateOperations ops' x) y =
          amountAt amount ops y + if x = y then amount (new stake) else 0 := by
  obtain ⟨n, hupsert, hold⟩ := h.upsertStake_eq hlabel x stake
  have hlab : Labelled (ops.insert (x, label) (new (n + stake))) :=
    labelled_insert h.labelled (iff_of_false hlabel.ne (hlabel.op_ne _))
  have hother : ∀ {o}, o ≠ (x, label) →
      (ops.insert (x, label) (new (n + stake))).lookup o = ops.lookup o :=
    fun ho => AList.lookup_insert_ne ho
  have hagg : ∀ {z}, Aggregates (ops.insert (x, label) (new (n + stake))) z ↔ Aggregates ops z := by
    intro z
    unfold Aggregates
    rw [hother fun heq => hlabel.ne (congrArg Prod.snd heq).symm]
  have hbut : fc.ClosedBut x (ops.insert (x, label) (new (n + stake))) := by
    intro z p hz hp _
    exact hagg.mpr (h.closed (hagg.mp hz) hp)
  obtain ⟨hmore, hclosed⟩ := insertAggregateOperations_spec htree hlab hbut
  have hmono : ∀ {z}, Aggregates ops z → Aggregates
      (fc.insertAggregateOperations (ops.insert (x, label) (new (n + stake))) x) z :=
    fun hz => hmore.aggregates.mpr (.inl (hagg.mpr hz))
  refine ⟨_, hupsert, ⟨hmore.labelled, hclosed, ?_, ?_⟩, ?_⟩
  · intro z l op hl hlookup
    rw [hmore.other (o := (z, l)) hl] at hlookup
    by_cases hz : (z, l) = (x, label)
    · rw [hz, AList.lookup_insert] at hlookup
      obtain rfl : l = label := congrArg Prod.snd hz
      exact ⟨new, _, hlabel, (some.inj hlookup).symm⟩
    · rw [hother hz] at hlookup
      exact h.stakes hl hlookup
  · intro z l op p hl hlookup hp
    rw [hmore.other (o := (z, l)) hl] at hlookup
    by_cases hz : (z, l) = (x, label)
    · obtain rfl : z = x := congrArg Prod.fst hz
      exact hmore.aggregates.mpr (.inr ⟨p, hp, .refl p⟩)
    · rw [hother hz] at hlookup
      exact hmono (h.touched hl hlookup hp)
  · intro amount y hzero hadd hnew
    rw [insertAggregateOperations, amountAt_insertAggregates hzero hlab]
    have hinsert := weigh_insert (fun o op => if o.1 = y then amount op else 0) ops
      (x, label) (new (n + stake))
    rw [hold amount y hnew] at hinsert
    rw [amountAt, amountAt]
    split_ifs at hinsert ⊢ with hxy
    · rw [hadd] at hinsert
      omega
    · omega

end Batch

section Generate
variable {g' : Generation}
variable {pubkey : Pubkey} {new old : SlotHashKey}

def voteStake (stakes : VoteStakes) (x : SlotHashKey) (pubkey : Pubkey)
    (vote : SlotHashKey) : Nat :=
  if vote = x then stakes.stakeFor pubkey vote.slot else 0

/-- The stake on a block of the votes whose accounts were not seen in the batch. -/
def unseenAt (stakes : VoteStakes) (votes : AList (fun _ : Pubkey => SlotHashKey))
    (seen : List Pubkey) (x : SlotHashKey) : Nat :=
  MapSum.weigh
    (fun pubkey vote => if pubkey ∈ seen then 0 else voteStake stakes x pubkey vote) votes

theorem unseenAt_cons {votes : AList (fun _ : Pubkey => SlotHashKey)} {seen : List Pubkey}
    (h : pubkey ∉ seen) : unseenAt stakes votes seen x =
      unseenAt stakes votes (pubkey :: seen) x + weighAt
        (voteStake stakes x) votes pubkey := by
  unfold unseenAt
  rw [weigh_split _ _ pubkey]
  refine congrArg₂ _ (weigh_congr fun pubkey' vote _ => ?_) ?_
  · by_cases heq : pubkey' = pubkey
    · rw [if_pos heq, if_pos (heq ▸ mem_cons_self)]
    · rw [if_neg heq]
      refine if_congr ?_ rfl rfl
      rw [mem_cons, or_iff_right heq]
  · unfold weighAt
    simp only [if_neg h]

/-- What holds of the variables of `generate_update_operations`. -/
structure Generated (fc : HeaviestSubtreeForkChoice) (stakes : VoteStakes) (g : Generation) :
    Prop where
  batch : fc.StakeBatch g.ops
  balance : ∀ x, votesAt stakes fc.latestVotes x + amountAt UpdateOperation.added g.ops x =
    votesAt stakes g.latestVotes x + amountAt UpdateOperation.subtracted g.ops x
  bound : ∀ x, amountAt UpdateOperation.subtracted g.ops x +
    unseenAt stakes fc.latestVotes g.observedPubkeys x ≤ votesAt stakes fc.latestVotes x
  unseen : ∀ {pubkey}, pubkey ∉ g.observedPubkeys →
    g.latestVotes.lookup pubkey = fc.latestVotes.lookup pubkey

theorem generated_start : fc.Generated stakes
    { latestVotes := fc.latestVotes, observedPubkeys := [], ops := ∅ } where
  batch := StakeBatch.empty fc
  balance := fun _ => rfl
  bound := by
    intro x
    have hempty : amountAt subtracted ∅ x = 0 := rfl
    rw [hempty, Nat.zero_add]
    refine le_of_eq (weigh_congr fun pubkey vote _ => ?_)
    exact if_neg not_mem_nil
  unseen := fun _ => rfl

theorem assertNewer_of_not_isOutdated (h : isOutdated (some old) new = false) :
    assertNewer old new = some () := by
  simp only [isOutdated, decide_eq_false_iff_not, not_or, not_and] at h
  refine if_pos ?_
  split_ifs with hslot
  · exact lt_of_not_ge (h.2 hslot)
  · exact lt_of_le_of_ne (le_of_not_gt h.1) (Ne.symm hslot)

theorem subtractOldVote_spec (stakes : VoteStakes) (htree : fc.Tree) (h : fc.StakeBatch ops)
    (pubkey : Pubkey) (old : SlotHashKey) :
    ∃ ops', fc.subtractOldVote stakes ops pubkey old = some ops' ∧ fc.StakeBatch ops' ∧
      (∀ x, amountAt subtracted ops' x =
        amountAt subtracted ops x + voteStake stakes x pubkey old) ∧
      ∀ x, amountAt added ops' x = amountAt added ops x := by
  unfold subtractOldVote
  by_cases hpos : 0 < stakes.stakeFor pubkey old.slot
  · obtain ⟨ops', hupsert, hbatch, hamount⟩ :=
      h.upsert htree StakeLabel.subtract old (stakes.stakeFor pubkey old.slot)
    refine ⟨_, ?_, hbatch, fun x => hamount _ x rfl (fun _ => rfl) rfl, fun x => ?_⟩
    · simp only [if_pos hpos]
      exact bind_eq_some_iff.mpr ⟨ops', hupsert, rfl⟩
    · rw [hamount added x rfl (fun _ => rfl) rfl]
      exact congrArg _ (ite_self 0)
  · refine ⟨ops, by simp only [if_neg hpos], h, fun x => ?_, fun _ => rfl⟩
    rw [voteStake, Nat.eq_zero_of_not_pos hpos, ite_self, Nat.add_zero]

theorem addNewVote_spec (stakes : VoteStakes) (htree : fc.Tree) (h : fc.StakeBatch ops)
    (pubkey : Pubkey) (new : SlotHashKey) :
    ∃ ops', fc.addNewVote stakes ops pubkey new = some ops' ∧ fc.StakeBatch ops' ∧
      (∀ x, amountAt added ops' x = amountAt added ops x + voteStake stakes x pubkey new) ∧
      ∀ x, amountAt subtracted ops' x = amountAt subtracted ops x := by
  obtain ⟨ops', hupsert, hbatch, hamount⟩ :=
    h.upsert htree StakeLabel.add new (stakes.stakeFor pubkey new.slot)
  refine ⟨_, ?_, hbatch, fun x => hamount _ x rfl (fun _ => rfl) rfl, fun x => ?_⟩
  · exact bind_eq_some_iff.mpr ⟨ops', hupsert, rfl⟩
  · rw [hamount subtracted x rfl (fun _ => rfl) rfl]
    exact congrArg _ (ite_self 0)

theorem votesAt_insert (votes : AList (fun _ : Pubkey => SlotHashKey)) (pubkey : Pubkey)
    (new x : SlotHashKey) :
    votesAt stakes (votes.insert pubkey new) x + weighAt (voteStake stakes x) votes pubkey =
      votesAt stakes votes x + voteStake stakes x pubkey new :=
  weigh_insert (voteStake stakes x) votes pubkey new

section Generated
variable (h : fc.Generated stakes g) (hpubkey : pubkey ∉ g.observedPubkeys)
include h hpubkey

theorem Generated.replace (new : SlotHashKey) (hbatch : fc.StakeBatch ops)
    (hadded : ∀ x, amountAt added ops x = amountAt added g.ops x + voteStake stakes x pubkey new)
    (hsubtracted : ∀ x, amountAt subtracted ops x =
      amountAt subtracted g.ops x + weighAt (voteStake stakes x) g.latestVotes pubkey) :
    fc.Generated stakes
      { latestVotes := g.latestVotes.insert pubkey new
        observedPubkeys := pubkey :: g.observedPubkeys
        ops } where
  batch := hbatch
  balance := by
    intro x
    have hold := h.balance x
    have hinsert := @votesAt_insert stakes g.latestVotes pubkey new x
    rw [hadded, hsubtracted]
    dsimp only
    omega
  bound := by
    intro x
    have hold := h.bound x
    rw [unseenAt_cons hpubkey] at hold
    have hsame : weighAt (voteStake stakes x) g.latestVotes pubkey =
        weighAt (voteStake stakes x) fc.latestVotes pubkey := by
      rw [weighAt, h.unseen hpubkey, weighAt]
    rw [hsubtracted, hsame]
    dsimp only
    omega
  unseen := by
    intro pubkey' hpubkey'
    rw [mem_cons, not_or] at hpubkey'
    rw [AList.lookup_insert_ne hpubkey'.1]
    exact h.unseen hpubkey'.2

theorem Generated.skip :
    fc.Generated stakes { g with observedPubkeys := pubkey :: g.observedPubkeys } where
  batch := h.batch
  balance := h.balance
  bound := by
    intro x
    have hold := h.bound x
    rw [unseenAt_cons hpubkey] at hold
    dsimp only
    omega
  unseen := fun hpubkey' => h.unseen fun hmem => hpubkey' (mem_cons_of_mem _ hmem)

end Generated

theorem Generated.vote (htree : fc.Tree) (h : fc.Generated stakes g)
    (hpubkey : pubkey ∉ g.observedPubkeys) (new : SlotHashKey) :
    ∃ g', fc.generateVote stakes g (pubkey, new) = some g' ∧ fc.Generated stakes g' ∧
      ∀ pubkey' ∈ g'.observedPubkeys, pubkey' = pubkey ∨ pubkey' ∈ g.observedPubkeys := by
  unfold generateVote
  by_cases hroot : new.slot < fc.treeRoot.slot
  · exact ⟨g, by simp only [if_pos hroot], h, fun _ => .inr⟩
  · simp only [if_neg hroot, if_neg hpubkey]
    cases houtdated : isOutdated (g.latestVotes.lookup pubkey) new with
    | true => exact ⟨_, rfl, h.skip hpubkey, fun _ => mem_cons.mp⟩
    | false =>
      cases hlatest : g.latestVotes.lookup pubkey with
      | none =>
        obtain ⟨ops, hadd, hbatch, hadded, hsubtracted⟩ :=
          addNewVote_spec stakes htree h.batch pubkey new
        refine ⟨_, ?_, h.replace hpubkey new hbatch hadded fun x => ?_, fun _ => mem_cons.mp⟩
        · exact bind_eq_some_iff.mpr ⟨ops, hadd, rfl⟩
        · rw [hsubtracted, weighAt, hlatest]
          rfl
      | some old =>
        rw [hlatest] at houtdated
        obtain ⟨ops, hold, hbatch, hsubtracted, hadded⟩ :=
          subtractOldVote_spec stakes htree h.batch pubkey old
        obtain ⟨ops', hadd, hbatch', hadded', hsubtracted'⟩ :=
          addNewVote_spec stakes htree hbatch pubkey new
        refine ⟨_, ?_, h.replace hpubkey new hbatch' (fun x => ?_) fun x => ?_,
          fun _ => mem_cons.mp⟩
        · refine bind_eq_some_iff.mpr ⟨(), assertNewer_of_not_isOutdated houtdated, ?_⟩
          refine bind_eq_some_iff.mpr ⟨ops, hold, ?_⟩
          exact bind_eq_some_iff.mpr ⟨ops', hadd, rfl⟩
        · rw [hadded', hadded]
        · rw [hsubtracted', hsubtracted, weighAt, hlatest]
          rfl

theorem generateUpdateOperations_spec (stakes : VoteStakes) (htree : fc.Tree)
    (votes : List (Pubkey × SlotHashKey))
    (hnodup : (votes.map Prod.fst).Nodup) :
    ∃ g, fc.generateUpdateOperations stakes votes = some g ∧ fc.Generated stakes g := by
  have hrun : ∀ (votes : List (Pubkey × SlotHashKey)) (g : Generation), fc.Generated stakes g →
      (votes.map Prod.fst).Nodup → (∀ v ∈ votes, v.1 ∉ g.observedPubkeys) →
      ∃ g', votes.foldlM (fc.generateVote stakes) g = some g' ∧ fc.Generated stakes g' := by
    intro votes
    induction votes with
    | nil => exact fun g hg _ _ => ⟨g, rfl, hg⟩
    | cons v votes ih =>
      intro g hg hnodup hunseen
      rw [map_cons, nodup_cons] at hnodup
      obtain ⟨g', hvote, hg', hseen⟩ := hg.vote htree (hunseen v mem_cons_self) v.2
      obtain ⟨g'', hrest, hg''⟩ := ih g' hg' hnodup.2 fun w hw hmem => by
        rcases hseen _ hmem with heq | hmem
        · exact hnodup.1 (heq ▸ mem_map_of_mem hw)
        · exact hunseen w (mem_cons_of_mem _ hw) hmem
      exact ⟨g'', bind_eq_some_iff.mpr ⟨g', hvote, hrest⟩, hg''⟩
  exact hrun votes _ generated_start hnodup fun _ _ => not_mem_nil

end Generate

section Kept
variable {batch : List OperationEntry}
variable {j : ForkInfo} {aggregated : Prop}

/-- A batch that only moves stakes keeps the flags: a child that is confirmed has a confirmed parent
already. -/
theorem Processed.sameFlags (hlinked : fc.Linked) (hflags : fc.Flags) (h : fc.Processed batch fc')
    (hstake : ∀ x, StakeOnly (changesAt batch x)) : fc.SameFlags fc' := by
  have hboth : ∀ x, (fc'.Confirmed x ↔ fc.Confirmed x) ∧
      fc'.latestInvalidAncestor x = fc.latestInvalidAncestor x := by
    refine hlinked.children_induction fun x ih => ?_
    cases hx : fc.info x with
    | none =>
      have hx' := h.absent hx
      exact ⟨iff_of_false (not_confirmed_of_absent hx') (not_confirmed_of_absent hx),
        (latest_of_absent hx').trans (latest_of_absent hx).symm⟩
    | some i =>
      obtain ⟨j, hj, hsettled⟩ := h.entry hx
      have hsame := onInfos_sameButStakes (hstake x) hj
      have hchildren : j.children = fc.childrenOf x := by
        rw [hsame.children, childrenOf_of_info hx]
      have hself : x ∉ j.children := hchildren ▸ hlinked.not_mem x
      have hup : (∃ c ∈ j.children, fc'.Confirmed c) → fc.Confirmed x := by
        rintro ⟨c, hc, hconfirmed⟩
        rw [hchildren] at hc
        exact hflags.confirmed_parent ((ih c hc).1.mp hconfirmed) (hlinked.parent hc)
      constructor
      · rw [hsettled.confirmed_iff hself, hsame.confirmed, ← confirmed_of_info hx]
        exact ⟨fun hor => hor.elim id fun hagg => hup hagg.2, .inl⟩
      · rw [hsettled.latest_eq hself, hsame.latest, latestInvalidAncestor_of_info hx]
        intro hchild _
        rw [hsame.latest, ← latestInvalidAncestor_of_info hx]
        exact hflags.confirmed_latest (hup hchild)
  exact ⟨fun x => (hboth x).1, fun x => (hboth x).2⟩

theorem Processed.bestInSubtree (hlinked : fc.Linked) (h : fc.Processed batch fc')
    (hbatch : fc.Propagates batch) (hbelow : fc.BestInSubtree) : fc'.BestInSubtree := by
  have hsub := h.sameShape.inSubtree_eq
  refine hlinked.children_induction fun x ih => ?_
  cases hx : fc.info x with
  | none =>
    rw [bestOf, bestSlot, h.absent hx]
    exact .refl x
  | some i =>
    by_cases hagg : AggregatedIn batch x
    · rcases h.best_cases hlinked hx hagg with heq | ⟨c, hc, heq⟩
      · rw [heq]
        exact .refl x
      · rw [heq]
        have hparent := hlinked.parent hc
        rw [← h.sameShape.parent_eq] at hparent
        exact (InSubtree.of_parent hparent).trans (ih c hc)
    · obtain ⟨j, hinfo, hsame⟩ := h.sameButStakes hbatch hagg hx
      rw [hsub, bestOf_of_info hinfo, hsame.best, ← bestOf_of_info hx]
      exact hbelow x

theorem Settled.votedAt_eq (h : fc.Settled aggregated x j) : fc.votedAt x = j.stakeVotedAt := by
  rcases h with ⟨_, hinfo⟩ | ⟨_, a, _, hinfo⟩
  · exact votedAt_of_info hinfo
  · rw [votedAt_of_info hinfo, withAggregation_votedAt]

theorem StakeBatch.stakeOnly (h : fc.StakeBatch ops) (x : SlotHashKey) :
    StakeOnly (changesAt (descending ops) x) := by
  intro op hop
  obtain ⟨hne, l, hl⟩ := mem_changesAt.mp hop
  obtain ⟨new, n, hnew, rfl⟩ := h.stakes (fun heq => hne ((h.labelled hl).mp heq)) hl
  cases hnew with
  | add => exact .inl ⟨n, rfl⟩
  | subtract => exact .inr ⟨n, rfl⟩

theorem StakeBatch.propagates (h : fc.StakeBatch ops) : fc.Propagates (descending ops) where
  aggregated := by
    intro x p hx hp
    rw [aggregatedIn_descending h.labelled] at hx ⊢
    exact h.closed hx hp
  changed := by
    intro x p hx hp
    obtain ⟨op, hop⟩ := exists_mem_of_ne_nil _ hx
    obtain ⟨hne, l, hl⟩ := mem_changesAt.mp hop
    rw [aggregatedIn_descending h.labelled]
    exact h.touched (fun heq => hne ((h.labelled hl).mp heq)) hl hp
  stakeOnly := fun _ => h.stakeOnly _

end Kept

/-- What every operation on the fork choice keeps. -/
structure Sound (stakes : VoteStakes) (fc : HeaviestSubtreeForkChoice) : Prop where
  tree : fc.Tree
  flags : fc.Flags
  bestInSubtree : fc.BestInSubtree
  consistent : fc.Consistent stakes

theorem Consistent.votedAt_le (h : fc.Consistent stakes) (hi : fc.info x = some i) :
    i.stakeVotedAt ≤ i.stakeVotedSubtree := by
  have hstake := (h.localAt hi).stake
  rw [weightOf_of_info hi, votedAt_of_info hi] at hstake
  omega

theorem Generated.onInfos (h : fc.Generated stakes g) (hcons : fc.Consistent stakes)
    (hi : fc.info x = some i) :
    ∃ j, onInfos x (changesAt (descending g.ops) x) i = some j ∧
      j.stakeVotedAt = votesAt stakes g.latestVotes x := by
  have hvoted := hcons.votedAt hi
  rw [votedAt_of_info hi] at hvoted
  have hbound := h.bound x
  have hbalance := h.balance x
  have hsub := @sum_changesAt g.ops subtracted rfl x
  have hadd := @sum_changesAt g.ops added rfl x
  obtain ⟨j, hj, hsum⟩ := onInfos_stakes (x := x) (i := i) (h.batch.stakeOnly x) (by omega)
    (hcons.votedAt_le hi)
  exact ⟨j, hj, by omega⟩

theorem addVotes_sound (h : fc.Sound stakes) (votes : List (Pubkey × SlotHashKey))
    (hnodup : (votes.map Prod.fst).Nodup) :
    ∃ fc' best, fc.addVotes stakes votes = some (fc', best) ∧ fc'.Sound stakes := by
  obtain ⟨g, hg, hgen⟩ := generateUpdateOperations_spec stakes h.tree votes hnodup
  let cur : HeaviestSubtreeForkChoice := { fc with latestVotes := g.latestVotes }
  have hcur : fc.SameShape cur := ⟨fun _ => rfl, rfl⟩
  have hcurFlags : fc.SameFlags cur := ⟨fun _ => .rfl, fun _ => rfl⟩
  have hlinked := hcur.linked h.tree.linked
  have hprop : cur.Propagates (descending g.ops) :=
    ⟨hgen.batch.propagates.aggregated, hgen.batch.propagates.changed,
      hgen.batch.propagates.stakeOnly⟩
  obtain ⟨fc', hrun, hprocessed⟩ := processUpdateOperations_spec hlinked hgen.batch.labelled
    fun x i hi => (hgen.onInfos h.consistent hi).imp fun _ => And.left
  have htree : fc'.Tree := hprocessed.sameShape.tree (hcur.tree h.tree)
  obtain ⟨root, hroot⟩ := htree.root_mem
  refine ⟨fc', root.bestSlot, ?_, htree, ?_, ?_, ?_, ?_⟩
  · refine Option.bind_eq_some_iff.mpr ⟨g, hg, Option.bind_eq_some_iff.mpr ⟨fc', hrun, ?_⟩⟩
    exact Option.bind_eq_some_iff.mpr ⟨root.bestSlot, congrArg (Option.map _) hroot, rfl⟩
  · exact (hprocessed.sameFlags hlinked (hcurFlags.flags hcur.parent_eq h.flags)
      hgen.batch.stakeOnly).flags hprocessed.sameShape.parent_eq
        (hcurFlags.flags hcur.parent_eq h.flags)
  · exact hprocessed.bestInSubtree hlinked hprop h.bestInSubtree
  · intro x j hj
    obtain ⟨i, hi⟩ := (hprocessed.sameShape.info_iff x).mp ⟨j, hj⟩
    refine hprocessed.localAt hlinked hprop hi fun _ => ?_
    exact (h.consistent.localAt hi).congr hi hi (.refl i) fun _ _ => rfl
  · intro x k hk
    obtain ⟨i, hi⟩ := (hprocessed.sameShape.info_iff x).mp ⟨k, hk⟩
    obtain ⟨j, hj, hvoted⟩ := hgen.onInfos h.consistent hi
    obtain ⟨j', hj', hsettled⟩ := hprocessed.entry hi
    obtain rfl := some.inj (hj.symm.trans hj')
    rw [hsettled.votedAt_eq, hvoted, hprocessed.latestVotes]

end HeaviestSubtreeForkChoice
end Hypergrid
