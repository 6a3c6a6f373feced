import Hypergrid.ForkChoiceSplit
import Hypergrid.Lib.GuardedRun

/-!
# Runs of the fork choice

Runs of all operations of the fork choice from the tree of one root.  An operation that panics ends
the run in the state `failed`.

Neither a new leaf nor a new root above the tree takes the stake of latest votes on it into account,
although such votes exist after the block was removed by a change of the root.

* `step_kept` : what a call keeps, and when the aggregates are exact after it.
* `staysExact_iff_guarded` : the aggregates are exact in every state of a run exactly if every call
  meets the condition `Ok`.
* `returning_root_inexact` : a run that loses the stake of a vote.
-/

namespace Hypergrid
open HeaviestSubtreeForkChoice Option

namespace ForkChoiceRun

inductive State where
  | running (forkChoice : HeaviestSubtreeForkChoice)
  | failed

/-- The calls of a run.  After a split the run goes on with the tree that is left, or with the one
that was split off. -/
inductive Call where
  | addNewLeafSlot (leaf parent : SlotHashKey)
  | addVotes (votes : List (Pubkey × SlotHashKey))
  | setTreeRoot (key : SlotHashKey)
  | addRootParent (key : SlotHashKey)
  | splitOff (key : SlotHashKey) (goOnWithSplit : Bool)
  | markForkInvalidCandidate (key : SlotHashKey)
  | markForkValidCandidate (key : SlotHashKey)

def State.after : Option HeaviestSubtreeForkChoice → State
  | some fc => .running fc
  | none => .failed

/-- One call.  A leaf comes after its parent, and votes are for blocks of the tree, one for each
account. -/
def step (stakes : VoteStakes) : State → Call → Option State
  | .failed, _ => none
  | .running fc, .addNewLeafSlot leaf parent =>
    if parent.slot < leaf.slot then some (.after (fc.addNewLeafSlot leaf (some parent))) else none
  | .running fc, .addVotes votes =>
    if (∀ vote ∈ votes, fc.containsBlock vote.2 = true) ∧ (votes.map Prod.fst).Nodup then
      some (.after ((fc.addVotes stakes votes).map Prod.fst))
    else none
  | .running fc, .setTreeRoot key => some (.after (fc.setTreeRoot key))
  | .running fc, .addRootParent key => some (.after (fc.addRootParent key))
  | .running fc, .splitOff key goOnWithSplit =>
    some (.after ((fc.splitOff key).map (if goOnWithSplit then Prod.snd else Prod.fst)))
  | .running fc, .markForkInvalidCandidate key => some (.after (fc.markForkInvalidCandidate key))
  | .running fc, .markForkValidCandidate key =>
    some (.after ((fc.markForkValidCandidate key).map Prod.fst))

/-- No operation panicked, and the aggregates of every node are those of its subtree. -/
def Aggregated (stakes : VoteStakes) : State → Prop
  | .running fc => fc.Exact stakes
  | .failed => False

/-- The exact condition on a call. -/
def Ok (stakes : VoteStakes) : State → Call → Prop
  | .failed, _ => True
  | .running fc, .addNewLeafSlot leaf parent => fc.containsBlock leaf = true ∨
      fc.containsBlock parent = true ∧ votesAt stakes fc.latestVotes leaf = 0
  | .running _, .addVotes _ => True
  | .running fc, .setTreeRoot key => fc.containsBlock key = true
  | .running fc, .addRootParent key => key.slot < fc.treeRoot.slot ∧ fc.containsBlock key = false ∧
      fc.isCandidate fc.treeRoot = some true ∧ votesAt stakes fc.latestVotes key = 0
  | .running fc, .splitOff key _ => (fc.parent key).isSome = true
  | .running fc, .markForkInvalidCandidate key => fc.isDuplicateConfirmed key ≠ some true
  | .running fc, .markForkValidCandidate key => fc.containsBlock key = true

/-- What every call keeps. -/
structure Shaped (fc : HeaviestSubtreeForkChoice) : Prop where
  tree : fc.Tree
  flags : fc.Flags
  bestInSubtree : fc.BestInSubtree

/-- What holds of the fork choice of a running state. -/
def Invariant : State → Prop
  | .running fc => Shaped fc
  | .failed => True

section Calls
variable {stakes : VoteStakes} {fc fc' : HeaviestSubtreeForkChoice} {k leaf p : SlotHashKey}
variable {ok : Prop} {s s' : State} {e : Call}

theorem Shaped.sound (h : Shaped fc) (hexact : fc.Exact stakes) : fc.Sound stakes :=
  ⟨h.tree, h.flags, h.bestInSubtree, (exact_iff h.tree).mp hexact⟩

/-- The call keeps the invariant, and leaves exact aggregates exactly if it meets a condition. -/
structure Kept (stakes : VoteStakes) (s : State) (ok : Prop) : Prop where
  invariant : Invariant s
  aggregated_iff : Aggregated stakes s ↔ ok

theorem kept_of_sound (h : fc.Sound stakes) (hok : ok) : Kept stakes (.running fc) ok where
  invariant := ⟨h.tree, h.flags, h.bestInSubtree⟩
  aggregated_iff := iff_of_true (h.consistent.exact h.tree) hok

theorem kept_of_failed (hok : ¬ok) : Kept stakes .failed ok where
  invariant := trivial
  aggregated_iff := iff_of_false id hok

theorem containsBlock_eq_false : fc.containsBlock k = false ↔ fc.info k = none :=
  isSome_eq_false_iff.trans isNone_iff_eq_none

section Sound
variable (h : fc.Sound stakes)
include h

theorem addNewLeafSlot_kept (hlt : p.slot < leaf.slot) :
    Kept stakes (.after (fc.addNewLeafSlot leaf (some p)))
      (Ok stakes (.running fc) (.addNewLeafSlot leaf p)) := by
  by_cases hleaf : fc.containsBlock leaf = true
  · have hrun : fc.addNewLeafSlot leaf (some p) = some fc := by rw [addNewLeafSlot, if_pos hleaf]
    rw [hrun]
    exact kept_of_sound h (.inl hleaf)
  · have habsent := containsBlock_eq_false.mp (Bool.eq_false_iff.mpr hleaf)
    cases hp : fc.info p with
    | none =>
      have hne : p ≠ leaf := fun heq => absurd hlt (heq ▸ lt_irrefl _)
      have hrun : fc.addNewLeafSlot leaf (some p) = none := by
        rw [addNewLeafSlot, if_neg hleaf]
        simp only [info_setInfo_ne hne, hp]
        rfl
      rw [hrun]
      refine kept_of_failed ?_
      rintro (hin | ⟨hin, _⟩)
      · exact hleaf hin
      · exact absurd (containsBlock_eq_false.mpr hp) (by simp [hin])
    | some i =>
      have hnew : fc.NewLeaf leaf p i := ⟨habsent, hp, hlt⟩
      obtain ⟨best, fc', hrun, hadded⟩ := addNewLeafSlot_added h.tree hnew
      have htree : fc'.Tree := hadded.agree.sameShape.tree (attach_tree h.tree hnew)
      rw [hrun]
      refine ⟨⟨htree, ?_, hadded.bestInSubtree h.tree hnew h.bestInSubtree⟩, ?_⟩
      · exact hadded.agree.flags (attach_flags h.tree h.flags hnew)
      · refine (exact_iff htree).trans ?_
        rw [hadded.consistent_iff h.tree hnew h.flags h.bestInSubtree h.consistent]
        refine ⟨fun hzero => .inr ⟨containsBlock_iff.mpr ⟨i, hp⟩, hzero⟩, fun hok => ?_⟩
        exact (hok.resolve_left hleaf).2

theorem setTreeRoot_kept :
    Kept stakes (.after (fc.setTreeRoot k)) (Ok stakes (.running fc) (.setTreeRoot k)) := by
  cases hk : fc.info k with
  | none =>
    rw [setTreeRoot_absent h.tree hk]
    refine kept_of_failed fun hok => ?_
    exact absurd (containsBlock_eq_false.mpr hk) (by simpa [Ok] using hok)
  | some i =>
    obtain ⟨fc', hrun, hsound⟩ := setTreeRoot_sound h ⟨i, hk⟩
    rw [hrun]
    exact kept_of_sound hsound (containsBlock_iff.mpr ⟨i, hk⟩)

theorem addRootParent_kept :
    Kept stakes (.after (fc.addRootParent k)) (Ok stakes (.running fc) (.addRootParent k)) := by
  by_cases hpre : k.slot < fc.treeRoot.slot ∧ fc.info k = none
  · obtain ⟨fc', i, hrun, hadded⟩ := addRootParent_runs h.tree hpre.1 hpre.2
    rw [hrun]
    refine ⟨⟨hadded.tree h.tree, hadded.flags h.tree h.flags,
      hadded.bestInSubtree h.tree h.bestInSubtree⟩, ?_⟩
    refine (exact_iff (hadded.tree h.tree)).trans ((hadded.consistent_iff h).trans ?_)
    refine ⟨fun hok => ⟨hpre.1, containsBlock_eq_false.mpr hpre.2, hok⟩, fun hok => hok.2.2⟩
  · rw [addRootParent_fails hpre]
    exact kept_of_failed fun hok => hpre ⟨hok.1, containsBlock_eq_false.mp hok.2.1⟩

theorem splitOff_kept (goOnWithSplit : Bool) :
    Kept stakes (.after ((fc.splitOff k).map (if goOnWithSplit then Prod.snd else Prod.fst)))
      (Ok stakes (.running fc) (.splitOff k goOnWithSplit)) := by
  cases hk : fc.parent k with
  | none =>
    rw [splitOff_fails hk]
    exact kept_of_failed (by simp [Ok, hk])
  | some p =>
    obtain ⟨rest, split, hrun, hrest, hsplit⟩ := splitOff_sound h hk
    have hok : Ok stakes (.running fc) (.splitOff k goOnWithSplit) := by simp [Ok, hk]
    rw [hrun]
    cases goOnWithSplit with
    | false => exact kept_of_sound hrest hok
    | true => exact kept_of_sound hsplit hok

theorem markForkInvalidCandidate_kept :
    Kept stakes (.after (fc.markForkInvalidCandidate k))
      (Ok stakes (.running fc) (.markForkInvalidCandidate k)) := by
  cases hk : fc.info k with
  | none =>
    have hrun : fc.markForkInvalidCandidate k = some fc := by rw [markForkInvalidCandidate, hk]
    rw [hrun]
    exact kept_of_sound h (not_confirmed_of_absent hk)
  | some i =>
    have hconfirmed := confirmed_of_info hk
    cases hflag : i.isDuplicateConfirmed with
    | true =>
      have hrun : fc.markForkInvalidCandidate k = none := by
        rw [markForkInvalidCandidate, hk]
        exact if_pos hflag
      rw [hrun]
      exact kept_of_failed fun hok => hok (hconfirmed.mpr hflag)
    | false =>
      obtain ⟨fc', hrun, hsound⟩ := markForkInvalidCandidate_sound h hk hflag
      rw [hrun]
      refine kept_of_sound hsound fun hok => ?_
      exact absurd (hconfirmed.mp hok) (by simp [hflag])

theorem markForkValidCandidate_kept :
    Kept stakes (.after ((fc.markForkValidCandidate k).map Prod.fst))
      (Ok stakes (.running fc) (.markForkValidCandidate k)) := by
  cases hk : fc.info k with
  | none =>
    rw [markForkValidCandidate_absent hk]
    refine kept_of_failed fun hok => ?_
    exact absurd (containsBlock_eq_false.mpr hk) (by simpa [Ok] using hok)
  | some i =>
    obtain ⟨fc', newlyConfirmed, hrun, hsound⟩ := markForkValidCandidate_sound h hk
    rw [hrun]
    exact kept_of_sound hsound (containsBlock_iff.mpr ⟨i, hk⟩)

end Sound

theorem step_kept (hinv : Invariant s) (hexact : Aggregated stakes s)
    (hstep : step stakes s e = some s') : Kept stakes s' (Ok stakes s e) := by
  cases s with
  | failed => exact absurd hexact id
  | running fc =>
    have h : fc.Sound stakes := Shaped.sound hinv hexact
    cases e with
    | addNewLeafSlot leaf parent =>
      simp only [step] at hstep
      split_ifs at hstep with hlt
      obtain rfl := some.inj hstep
      exact addNewLeafSlot_kept h hlt
    | addVotes votes =>
      simp only [step] at hstep
      split_ifs at hstep with hvotes
      obtain rfl := some.inj hstep
      obtain ⟨fc', best, hrun, hsound⟩ := addVotes_sound h votes hvotes.2
      rw [hrun]
      exact kept_of_sound hsound trivial
    | setTreeRoot key => exact some.inj hstep ▸ setTreeRoot_kept h
    | addRootParent key => exact some.inj hstep ▸ addRootParent_kept h
    | splitOff key goOnWithSplit => exact some.inj hstep ▸ splitOff_kept h goOnWithSplit
    | markForkInvalidCandidate key =>
      exact some.inj hstep ▸ markForkInvalidCandidate_kept h
    | markForkValidCandidate key => exact some.inj hstep ▸ markForkValidCandidate_kept h

end Calls

variable {root : SlotHashKey} {t : State} {es : List Call}

theorem rootOnly_sound (stakes : VoteStakes) (root : SlotHashKey) :
    (rootOnly root).Sound stakes where
  tree := rootOnly_tree root
  flags :=
    { confirmed_latest := fun _ => rootOnly_latest root _
      confirmed_parent := fun _ hp => absurd hp (parent_rootOnly _ _)
      latest_child := fun hp => absurd hp (parent_rootOnly _ _)
      latest_le := fun hs => absurd ((rootOnly_latest root _).symm.trans hs) (by simp) }
  bestInSubtree := by
    intro x
    cases hi : (rootOnly root).info x with
    | none =>
      rw [bestOf, bestSlot, hi]
      exact .refl x
    | some i =>
      obtain ⟨rfl, rfl⟩ := info_rootOnly hi
      rw [bestOf_of_info hi]
      exact .refl x
  consistent :=
    { localAt := by
        intro x i hi
        have hnone := @childrenOf_rootOnly root x
        obtain ⟨rfl, rfl⟩ := info_rootOnly hi
        refine ⟨?_, fun _ _ => bestOf_of_info hi, fun {c} _ hc => ?_, fun _ => ?_, fun {c} hc => ?_⟩
        · rw [hnone, weightOf_of_info hi, votedAt_of_info hi]
          rfl
        · exact absurd (hnone ▸ hc.mem) List.not_mem_nil
        · exact ⟨deepestOf_of_info hi, heightOf_of_info hi⟩
        · exact absurd (hnone ▸ hc.mem) List.not_mem_nil
      votedAt := by
        intro x i hi
        obtain ⟨rfl, rfl⟩ := info_rootOnly hi
        rw [votedAt_of_info hi]
        rfl }

/-- In a run from the tree of one root, no operation panics and the aggregates of all nodes are
exact in every state, exactly if every call of the run meets the condition. -/
theorem staysExact_iff_guarded (stakes : VoteStakes)
    (hrun : Machine.Run (step stakes) (.running (rootOnly root)) es t) :
    Machine.StaysGood (step stakes) (Aggregated stakes) (.running (rootOnly root)) es ↔
      Machine.GuardedRun (step stakes) (Ok stakes) (.running (rootOnly root)) es t :=
  have hstart := rootOnly_sound stakes root
  Machine.staysGood_iff_guardedRun
    (fun _ _ _ hinv hexact hstep => (step_kept hinv hexact hstep).invariant)
    (fun _ _ _ hinv hexact hstep => (step_kept hinv hexact hstep).aggregated_iff) hrun
    ⟨hstart.tree, hstart.flags, hstart.bestInSubtree⟩ (hstart.consistent.exact hstart.tree)

def exampleBlock (slot : Slot) : SlotHashKey := ⟨slot, ⟨0⟩⟩

def exampleStakes : VoteStakes where
  getEpoch := fun _ => 0
  epochStakes := fun _ => some (fun _ => 10)

instance (stakes : VoteStakes) : (s : State) → DecidablePred (Ok stakes s)
  | .failed, _ => .isTrue trivial
  | .running _, .addNewLeafSlot _ _ => inferInstanceAs (Decidable (_ ∨ _))
  | .running _, .addVotes _ => .isTrue trivial
  | .running _, .setTreeRoot _ => inferInstanceAs (Decidable (_ = _))
  | .running _, .addRootParent _ => inferInstanceAs (Decidable (_ ∧ _))
  | .running _, .splitOff _ _ => inferInstanceAs (Decidable (_ = _))
  | .running _, .markForkInvalidCandidate _ => inferInstanceAs (Decidable (_ ≠ _))
  | .running _, .markForkValidCandidate _ => inferInstanceAs (Decidable (_ = _))

/-- A vote moves from block 1 to block 3, block 2 is invalid for a while, and block 1 becomes the
root. -/
def movingVote : List Call :=
  [.addNewLeafSlot (exampleBlock 1) (exampleBlock 0),
    .addNewLeafSlot (exampleBlock 2) (exampleBlock 1), .addVotes [(⟨7⟩, exampleBlock 1)],
    .markForkInvalidCandidate (exampleBlock 2), .addNewLeafSlot (exampleBlock 3) (exampleBlock 2),
    .addVotes [(⟨7⟩, exampleBlock 3)], .markForkValidCandidate (exampleBlock 2),
    .setTreeRoot (exampleBlock 1)]

theorem staysExact_movingVote : ∃ t,
    Machine.Run (step exampleStakes) (.running (rootOnly (exampleBlock 0))) movingVote t ∧
    Machine.StaysGood (step exampleStakes) (Aggregated exampleStakes)
      (.running (rootOnly (exampleBlock 0))) movingVote := by
  have hsome : (Machine.execChecked (step exampleStakes) (fun s e => decide (Ok exampleStakes s e))
      (.running (rootOnly (exampleBlock 0))) movingVote).isSome = true := by
    decide +kernel
  obtain ⟨t, ht⟩ := isSome_iff_exists.mp hsome
  have hrun : Machine.Run (step exampleStakes) _ movingVote t :=
    Machine.guardedRun_of_execChecked (fun _ _ _ => trivial) ht
  exact ⟨t, hrun, (staysExact_iff_guarded exampleStakes hrun).mpr
    (Machine.guardedRun_of_execChecked (fun _ _ => of_decide_eq_true) ht)⟩

/-- A vote for the root, which is removed and comes back as the parent of the new root. -/
def returningRoot : List Call :=
  [.addNewLeafSlot (exampleBlock 1) (exampleBlock 0), .addVotes [(⟨7⟩, exampleBlock 0)],
    .setTreeRoot (exampleBlock 1), .addRootParent (exampleBlock 0)]

/-- What the example run shows of its last state. -/
def State.votes : State → Option (Bool × Nat × List (Sigma fun _ : Pubkey => SlotHashKey))
  | .running fc => some (fc.containsBlock (exampleBlock 0), fc.weightOf (exampleBlock 0),
      fc.latestVotes.entries)
  | .failed => none

/-- The root that comes back has no stake although the vote for it is still the latest one. -/
theorem returning_root_inexact :
    ¬∀ (stakes : VoteStakes) (root : SlotHashKey) (es : List Call) (t : State),
      Machine.Run (step stakes) (.running (rootOnly root)) es t → Aggregated stakes t := by
  intro hall
  have hexec : (Machine.exec (step exampleStakes) (.running (rootOnly (exampleBlock 0)))
      returningRoot).bind State.votes = some (true, 0, [⟨⟨7⟩, exampleBlock 0⟩]) := by
    decide +kernel
  obtain ⟨t, ht, hfacts⟩ := bind_eq_some_iff.mp hexec
  have hexact := hall _ _ _ t ((Machine.run_iff_exec _).mpr ht)
  cases t with
  | failed => exact hexact
  | running fc =>
    simp only [State.votes, some.injEq, Prod.mk.injEq] at hfacts
    obtain ⟨hmem, hweight, hvotes⟩ := hfacts
    obtain ⟨i, hi⟩ := containsBlock_iff.mp hmem
    have hstake : fc.votesInSubtree exampleStakes (exampleBlock 0) = 10 := by
      rw [votesInSubtree, MapSum.weigh, hvotes, List.map_singleton, List.sum_singleton,
        if_pos (.refl _)]
      rfl
    have hsame := HeaviestSubtreeForkChoice.Exact.votes hexact hi
    rw [hweight, hstake] at hsame
    exact absurd hsame (by decide)

end ForkChoiceRun
end Hypergrid
