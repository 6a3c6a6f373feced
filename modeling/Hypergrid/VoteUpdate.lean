import Hypergrid.VoteTower
import Hypergrid.Lib.Checked

/-!
# Vote state updates

The model of `check_update_vote_state_slots_are_valid`, `process_new_vote_state` and
`do_process_vote_state_update` of `programs/vote/src/vote_state/mod.rs`: a validator sends a whole
tower, and the vote program accepts it if it breaks no lockout of the tower on chain.

The second pass compares the towers with two pointers; `mergeVotes_isOk_iff` says what that walk
checks without the pointers.

An assertion that fails is `none`.  The search of `contains_slot` in a sorted tower is membership.

* `Respects` : what a new tower owes to an old vote.
* `checkUpdate_filters` : the first pass drops the votes that are too old and unknown.
* `voteStateUpdate_respects_lockouts` : an accepted update respects every lockout.
-/

namespace Hypergrid
open Checked List Option Lockout

/-- `VoteError`, as far as the modelled functions return it. -/
inductive VoteError where
  | voteTooOld
  | slotsMismatch
  | slotHashMismatch
  | emptySlots
  | timestampTooOld
  | lockoutConflict
  | newVoteStateLockoutMismatch
  | slotsNotOrdered
  | confirmationsNotOrdered
  | zeroConfirmations
  | confirmationTooLarge
  | rootRollBack
  | confirmationRollBack
  | slotSmallerThanRoot
  | tooManyVotes
  | rootOnDifferentFork
deriving DecidableEq

structure BlockTimestamp where
  slot : Slot
  timestamp : Int
deriving DecidableEq

/-- `VoteState` with the timestamp of the last vote. -/
structure ChainVoteState extends VoteState where
  lastTimestamp : BlockTimestamp
deriving DecidableEq

structure VoteStateUpdate where
  lockouts : List Lockout
  root : Option Slot
  hash : Hash
  timestamp : Option Int
deriving DecidableEq

/-- The features that `process_new_vote_state` looks at. -/
structure VoteFeatures where
  timelyVoteCredits : Bool
  deprecateUnusedLegacyVotePlumbing : Bool
deriving DecidableEq

namespace LandedVote

abbrev slot (v : LandedVote) : Slot := v.lockout.slot

abbrev confirmationCount (v : LandedVote) : Nat := v.lockout.confirmationCount

def ofLockout (lockout : Lockout) : LandedVote := { latency := 0, lockout }

end LandedVote

namespace VoteState

def containsSlot (s : VoteState) (candidateSlot : Slot) : Bool :=
  s.votes.any (fun v => v.slot == candidateSlot)

end VoteState

/-- The variables of the loop of `check_update_vote_state_slots_are_valid`. -/
structure UpdateWalk where
  rootToCheck : Option Slot
  voteStateUpdateIndex : Nat
  slotHashesIndex : Nat
  indexesToFilter : List Nat
deriving DecidableEq

/-- A vote that is too old to be in the slot hashes is filtered out, unless it is already in the
vote state. -/
def UpdateWalk.passOld (w : UpdateWalk) (contained : Bool) : UpdateWalk :=
  { w with
    voteStateUpdateIndex := w.voteStateUpdateIndex + 1
    indexesToFilter :=
      if contained then w.indexesToFilter else w.indexesToFilter ++ [w.voteStateUpdateIndex] }

namespace ChainVoteState

variable (s : ChainVoteState)

/-- The root of an update whose proposed root is too old to be checked: the latest vote that is
not above it, or the old root. -/
def replaceRoot (earliest : Slot) (root : Option Slot) : Option Slot :=
  match root with
  | some proposedRoot =>
    if proposedRoot < earliest then
      match s.votes.reverse.find? (fun v => decide (v.slot ≤ proposedRoot)) with
      | some v => some v.slot
      | none => s.rootSlot
    else some proposedRoot
  | none => none

/-- The loop of `check_update_vote_state_slots_are_valid`; `none` is a panic. -/
def walkSlotHashes (s : ChainVoteState) (lockouts : List Lockout)
    (slotHashes : List (Slot × Hash)) (earliest : Slot) (w : UpdateWalk) :
    Option (Except VoteError UpdateWalk) :=
  if _h : w.voteStateUpdateIndex < lockouts.length ∧ 0 < w.slotHashesIndex then
    let proposedVoteSlot := w.rootToCheck.getD lockouts[w.voteStateUpdateIndex].slot
    if w.rootToCheck.isNone ∧ 0 < w.voteStateUpdateIndex ∧
        proposedVoteSlot ≤ lockouts[w.voteStateUpdateIndex - 1].slot then
      some (.error .slotsNotOrdered)
    else
      match slotHashes[w.slotHashesIndex - 1]? with
      | none => none
      | some (ancestorSlot, _) =>
        if proposedVoteSlot < ancestorSlot then
          if w.slotHashesIndex = slotHashes.length then
            -- the first assertion; the other two repeat it
            if earliest ≤ proposedVoteSlot then none
            else if _hroot : w.rootToCheck.isSome then
              s.walkSlotHashes lockouts slotHashes earliest { w with rootToCheck := none }
            else
              s.walkSlotHashes lockouts slotHashes earliest
                (w.passOld (s.containsSlot proposedVoteSlot))
          else if w.rootToCheck.isSome then some (.error .rootOnDifferentFork)
          else some (.error .slotsMismatch)
        else if ancestorSlot < proposedVoteSlot then
          s.walkSlotHashes lockouts slotHashes earliest
            { w with slotHashesIndex := w.slotHashesIndex - 1 }
        else if _hroot : w.rootToCheck.isSome then
          s.walkSlotHashes lockouts slotHashes earliest { w with rootToCheck := none }
        else
          s.walkSlotHashes lockouts slotHashes earliest
            { w with
              voteStateUpdateIndex := w.voteStateUpdateIndex + 1
              slotHashesIndex := w.slotHashesIndex - 1 }
  else some (.ok w)
termination_by (lockouts.length - w.voteStateUpdateIndex) + w.slotHashesIndex +
  (if w.rootToCheck.isSome then 1 else 0)
decreasing_by all_goals simp_all [UpdateWalk.passOld] <;> omega

/-- The last loop of `check_update_vote_state_slots_are_valid`: the votes whose index is not to
be filtered out. -/
def retainVotes : List Nat → Nat → List Lockout → List Lockout
  | [], _, ls => ls
  | _ :: _, _, [] => []
  | f :: fs, i, l :: ls =>
    if i = f then retainVotes fs (i + 1) ls else l :: retainVotes (f :: fs) (i + 1) ls

/-- `check_update_vote_state_slots_are_valid`: the update with another root and fewer votes. -/
def checkUpdateVoteStateSlotsAreValid (update : VoteStateUpdate)
    (slotHashes : List (Slot × Hash)) : Option (Except VoteError VoteStateUpdate) :=
  match update.lockouts.getLast?, slotHashes.getLast? with
  | none, _ => some (.error .emptySlots)
  | some last, oldest =>
    if (s.lastVotedSlot.map (fun lastVoteSlot => decide (last.slot ≤ lastVoteSlot))).getD
        false then
      some (.error .voteTooOld)
    else
      match oldest with
      | none => some (.error .slotsMismatch)
      | some (earliest, _) =>
        if last.slot < earliest then some (.error .voteTooOld)
        else
          let root := s.replaceRoot earliest update.root
          match s.walkSlotHashes update.lockouts slotHashes earliest
            { rootToCheck := root, voteStateUpdateIndex := 0
              slotHashesIndex := slotHashes.length, indexesToFilter := [] } with
          | none => none
          | some (.error e) => some (.error e)
          | some (.ok w) =>
            if w.voteStateUpdateIndex ≠ update.lockouts.length then
              some (.error .slotsMismatch)
            else
              match slotHashes[w.slotHashesIndex]? with
              | none => none
              | some (slot, hash) =>
                if slot ≠ last.slot then none
                else if hash ≠ update.hash then some (.error .slotHashMismatch)
                else some (.ok
                  { update with
                    root
                    lockouts := retainVotes w.indexesToFilter 0 update.lockouts })

def checkLength (newState : List LandedVote) : Except VoteError Unit :=
  if maxLockoutHistory < newState.length then .error .tooManyVotes else .ok ()

def checkRoot (newRoot rootSlot : Option Slot) : Except VoteError Unit :=
  match newRoot, rootSlot with
  | some newRoot, some currentRoot => if newRoot < currentRoot then .error .rootRollBack else .ok ()
  | none, some _ => .error .rootRollBack
  | _, none => .ok ()

/-- One vote of the first loop of `process_new_vote_state`. -/
def checkNewVote (newRoot : Option Slot) (previousVote : Option LandedVote) (vote : LandedVote) :
    Except VoteError Unit :=
  if vote.confirmationCount = 0 then .error .zeroConfirmations
  else if maxLockoutHistory < vote.confirmationCount then .error .confirmationTooLarge
  else if newRoot.any (fun r => decide (vote.slot ≤ r) && decide (r ≠ 0)) then
    .error .slotSmallerThanRoot
  else
    match previousVote with
    | some previousVote =>
      if vote.slot ≤ previousVote.slot then .error .slotsNotOrdered
      else if previousVote.confirmationCount ≤ vote.confirmationCount then
        .error .confirmationsNotOrdered
      else if previousVote.lockout.lastLockedOutSlot < vote.slot then
        .error .newVoteStateLockoutMismatch
      else .ok ()
    | none => .ok ()

/-- The first loop of `process_new_vote_state`. -/
def checkNewVotes (newRoot : Option Slot) :
    Option LandedVote → List LandedVote → Except VoteError Unit
  | _, [] => .ok ()
  | previousVote, vote :: votes => do
      checkNewVote newRoot previousVote vote
      checkNewVotes newRoot (some vote) votes

/-- The second loop of `process_new_vote_state`: the votes above the new root, and the credits
that the votes up to it earn. -/
def skipRooted (s : VoteState) (newRoot : Slot) (features : VoteFeatures) :
    List LandedVote → Nat → Nat → List LandedVote × Nat
  | [], _, earnedCredits => ([], earnedCredits)
  | v :: votes, index, earnedCredits =>
    if v.slot ≤ newRoot then
      skipRooted s newRoot features votes (index + 1)
        (if features.timelyVoteCredits || decide (v.slot ≠ newRoot) then
          earnedCredits + s.creditsForVoteAtIndex index features.timelyVoteCredits
            features.deprecateUnusedLegacyVotePlumbing
        else earnedCredits)
    else (v :: votes, earnedCredits)

/-- The old votes that are compared with the new ones, and the credits earned. -/
def votesAboveRoot (newRoot : Option Slot) (features : VoteFeatures) : List LandedVote × Nat :=
  let earnedCredits := if features.timelyVoteCredits then 0 else 1
  match newRoot with
  | some newRoot => skipRooted s.toVoteState newRoot features s.votes 0 earnedCredits
  | none => (s.votes, earnedCredits)

/-- The two-pointer loop of `process_new_vote_state`: the new votes, with the latencies of the
votes that are in both states. -/
def mergeVotes : List LandedVote → List LandedVote → Except VoteError (List LandedVote)
  | [], newState => .ok newState
  | _ :: _, [] => .ok []
  | currentVote :: current, newVote :: newState =>
    if currentVote.slot < newVote.slot then
      if newVote.slot ≤ currentVote.lockout.lastLockedOutSlot then .error .lockoutConflict
      else mergeVotes current (newVote :: newState)
    else if currentVote.slot = newVote.slot then
      if newVote.confirmationCount < currentVote.confirmationCount then
        .error .confirmationRollBack
      else
        (mergeVotes current newState).map
          (List.cons { newVote with latency := currentVote.latency })
    else (mergeVotes (currentVote :: current) newState).map (List.cons newVote)
termination_by current newState => current.length + newState.length

/-- The latency of a vote that was not in the old state. -/
def setLatency (features : VoteFeatures) (currentSlot : Slot) (v : LandedVote) : LandedVote :=
  if features.timelyVoteCredits && v.latency == 0 then
    { v with latency := VoteState.computeVoteLatency v.slot currentSlot }
  else v

def processTimestamp (slot : Slot) (timestamp : Int) : Except VoteError ChainVoteState :=
  if slot < s.lastTimestamp.slot ∨ timestamp < s.lastTimestamp.timestamp ∨
      slot = s.lastTimestamp.slot ∧ BlockTimestamp.mk slot timestamp ≠ s.lastTimestamp ∧
        s.lastTimestamp.slot ≠ 0 then
    .error .timestampTooOld
  else .ok { s with lastTimestamp := ⟨slot, timestamp⟩ }

/-- The timestamp of an update, if it has one. -/
def recordTimestamp (slot : Slot) (timestamp : Option Int) : Except VoteError ChainVoteState :=
  match timestamp with
  | some timestamp => s.processTimestamp slot timestamp
  | none => .ok s

def processNewVoteState (newState : List LandedVote)
    (newRoot : Option Slot) (timestamp : Option Int) (epoch : Epoch) (currentSlot : Slot)
    (features : VoteFeatures) : Option (Except VoteError ChainVoteState) :=
  match newState.getLast? with
  | none => none
  | some last => some do
      checkLength newState
      checkRoot newRoot s.rootSlot
      checkNewVotes newRoot none newState
      let (current, earnedCredits) := s.votesAboveRoot newRoot features
      let merged ← mergeVotes current newState
      let votes := merged.map (setLatency features currentSlot)
      let s : ChainVoteState :=
        if s.rootSlot ≠ newRoot then
          { s with toVoteState := s.toVoteState.incrementCredits epoch earnedCredits }
        else s
      let s ← s.recordTimestamp last.slot timestamp
      return { s with rootSlot := newRoot, votes }

def doProcessVoteStateUpdate (slotHashes : List (Slot × Hash))
    (epoch : Epoch) (slot : Slot) (update : VoteStateUpdate) (features : VoteFeatures) :
    Option (Except VoteError ChainVoteState) :=
  match s.checkUpdateVoteStateSlotsAreValid update slotHashes with
  | none => none
  | some (.error e) => some (.error e)
  | some (.ok update) =>
    s.processNewVoteState (update.lockouts.map LandedVote.ofLockout) update.root
      update.timestamp epoch slot features

end ChainVoteState

/-- What the first loop of `process_new_vote_state` checks. -/
structure NewTower (newRoot : Option Slot) (votes : List LandedVote) : Prop where
  counts : ∀ v ∈ votes, 1 ≤ v.confirmationCount ∧ v.confirmationCount ≤ maxLockoutHistory
  /-- a root 0 is not compared -/
  aboveRoot : ∀ r, newRoot = some r → r ≠ 0 → ∀ v ∈ votes, r < v.slot
  chain : votes.IsChain (fun v w => v.slot < w.slot ∧
    w.confirmationCount < v.confirmationCount ∧ w.slot ≤ v.lockout.lastLockedOutSlot)

theorem NewTower.increasing {newRoot : Option Slot} {votes : List LandedVote}
    (h : NewTower newRoot votes) :
    votes.Pairwise (fun v w => v.slot < w.slot) ∧
      votes.Pairwise (fun v w => w.confirmationCount < v.confirmationCount) := by
  have hslots : votes.IsChain (fun v w => v.slot < w.slot) := h.chain.imp fun _ _ h => h.1
  have hcounts : votes.IsChain (fun v w => w.confirmationCount < v.confirmationCount) :=
    h.chain.imp fun _ _ h => h.2.1
  have : IsTrans LandedVote (fun v w => v.slot < w.slot) := ⟨fun _ _ _ => lt_trans⟩
  have : IsTrans LandedVote (fun v w => w.confirmationCount < v.confirmationCount) :=
    ⟨fun _ _ _ h h' => lt_trans h' h⟩
  exact ⟨hslots.pairwise, hcounts.pairwise⟩

/-- What a new tower owes to an old vote: it has the vote with at least its confirmations, or the
vote is expired at the first slot above it. -/
def Respects (newState : List LandedVote) (old : LandedVote) : Prop :=
  (∃ v ∈ newState, v.slot = old.slot ∧ old.confirmationCount ≤ v.confirmationCount) ∨
    (∀ v ∈ newState, v.slot ≠ old.slot) ∧
      ∀ v ∈ newState, old.slot < v.slot → old.lockout.lastLockedOutSlot < v.slot

namespace ChainVoteState

section Checks
variable {newRoot : Option Slot}

theorem checkRoot_isOk_iff {rootSlot : Option Slot} :
    checkRoot newRoot rootSlot = .ok () ↔
      ∀ r, rootSlot = some r → ∃ r', newRoot = some r' ∧ r ≤ r' := by
  cases rootSlot with
  | none => cases newRoot <;> simp [checkRoot]
  | some r =>
    cases newRoot with
    | none => simp [checkRoot]
    | some r' => simp [checkRoot]

theorem checkNewVote_isOk_iff {previousVote : Option LandedVote} {vote : LandedVote} :
    checkNewVote newRoot previousVote vote = .ok () ↔
      (1 ≤ vote.confirmationCount ∧ vote.confirmationCount ≤ maxLockoutHistory) ∧
      (∀ r, newRoot = some r → r ≠ 0 → r < vote.slot) ∧
      ∀ v, previousVote = some v → v.slot < vote.slot ∧
        vote.confirmationCount < v.confirmationCount ∧
        vote.slot ≤ v.lockout.lastLockedOutSlot := by
  have hroot : ¬newRoot.any (fun r => decide (vote.slot ≤ r) && decide (r ≠ 0)) = true ↔
      ∀ r, newRoot = some r → r ≠ 0 → r < vote.slot := by
    cases newRoot with
    | none => simp
    | some r =>
      simp only [any_some, Bool.and_eq_true, decide_eq_true_eq, some.injEq,
        forall_eq', not_and', Nat.not_le]
  have hpos : ¬vote.confirmationCount = 0 ↔ 1 ≤ vote.confirmationCount :=
    Nat.one_le_iff_ne_zero.symm
  unfold checkNewVote
  rw [ite_error_ok_iff, ite_error_ok_iff, ite_error_ok_iff, hroot, hpos, Nat.not_lt, and_assoc]
  refine and_congr_right fun _ => and_congr_right fun _ => and_congr_right fun _ => ?_
  cases previousVote with
  | none => simp
  | some v =>
    simp only [ite_error_ok_iff, Nat.not_le, Nat.not_lt, and_true, some.injEq, forall_eq']

theorem checkNewVotes_isOk_iff (previousVote : Option LandedVote) (votes : List LandedVote) :
    checkNewVotes newRoot previousVote votes = .ok () ↔
      (∀ v ∈ votes, 1 ≤ v.confirmationCount ∧ v.confirmationCount ≤ maxLockoutHistory) ∧
      (∀ r, newRoot = some r → r ≠ 0 → ∀ v ∈ votes, r < v.slot) ∧
      (previousVote.toList ++ votes).IsChain (fun v w => v.slot < w.slot ∧
        w.confirmationCount < v.confirmationCount ∧ w.slot ≤ v.lockout.lastLockedOutSlot) := by
  induction votes generalizing previousVote with
  | nil => cases previousVote <;> simp [checkNewVotes]
  | cons vote votes ih =>
    have hchain : (previousVote.toList ++ vote :: votes).IsChain (fun v w => v.slot < w.slot ∧
        w.confirmationCount < v.confirmationCount ∧ w.slot ≤ v.lockout.lastLockedOutSlot) ↔
        (∀ v, previousVote = some v → v.slot < vote.slot ∧
          vote.confirmationCount < v.confirmationCount ∧
          vote.slot ≤ v.lockout.lastLockedOutSlot) ∧
        (vote :: votes).IsChain (fun v w => v.slot < w.slot ∧
          w.confirmationCount < v.confirmationCount ∧
          w.slot ≤ v.lockout.lastLockedOutSlot) := by
      cases previousVote with
      | none => simp
      | some v => simp [isChain_cons_cons]
    have hbind : checkNewVotes newRoot previousVote (vote :: votes) = .ok () ↔
        checkNewVote newRoot previousVote vote = .ok () ∧
          checkNewVotes newRoot (some vote) votes = .ok () := by
      rw [checkNewVotes, bind_ok_iff]
      exact ⟨fun ⟨_, h⟩ => h, fun h => ⟨(), h⟩⟩
    rw [hbind, hchain, ih, checkNewVote_isOk_iff, forall_mem_cons]
    simp only [forall_mem_cons, toList_some, singleton_append]
    constructor
    · rintro ⟨⟨hcount, hroot, hprevious⟩, hcounts, hroots, hrest⟩
      exact ⟨⟨hcount, hcounts⟩, fun r hr hne => ⟨hroot r hr hne, hroots r hr hne⟩, hprevious, hrest⟩
    · rintro ⟨⟨hcount, hcounts⟩, hroots, hprevious, hrest⟩
      exact ⟨⟨hcount, fun r hr hne => (hroots r hr hne).1, hprevious⟩, hcounts,
        fun r hr hne => (hroots r hr hne).2, hrest⟩

theorem checkNewVotes_none_isOk_iff (votes : List LandedVote) :
    checkNewVotes newRoot none votes = .ok () ↔ NewTower newRoot votes := by
  rw [checkNewVotes_isOk_iff]
  exact ⟨fun ⟨hcounts, hroot, hchain⟩ => ⟨hcounts, hroot, hchain⟩,
    fun h => ⟨h.counts, h.aboveRoot, h.chain⟩⟩

theorem skipRooted_fst (s : VoteState) (r : Slot) (features : VoteFeatures)
    (votes : List LandedVote) (index earnedCredits : Nat) :
    (skipRooted s r features votes index earnedCredits).1 =
      votes.dropWhile (fun v => decide (v.slot ≤ r)) := by
  induction votes generalizing index earnedCredits with
  | nil => rfl
  | cons v votes ih =>
    rw [skipRooted, dropWhile_cons]
    by_cases hle : v.slot ≤ r
    · rw [if_pos hle, if_pos (decide_eq_true hle)]
      exact ih _ _
    · rw [if_neg hle, if_neg (by simpa using hle)]

end Checks

section Merge
variable {current newState : List LandedVote}

theorem respects_cons_of_lt {v old : LandedVote} (hlt : v.slot < old.slot) :
    Respects (v :: newState) old ↔ Respects newState old := by
  unfold Respects
  have hne : v.slot ≠ old.slot := ne_of_lt hlt
  have hnot : ¬old.slot < v.slot := not_lt_of_gt hlt
  simp [hne, hnot]

theorem respects_of_lt {v old : LandedVote}
    (hnew : (v :: newState).Pairwise (fun v w => v.slot < w.slot)) (hlt : old.slot < v.slot) :
    Respects (v :: newState) old ↔ old.lockout.lastLockedOutSlot < v.slot := by
  have habove : ∀ w ∈ v :: newState, v.slot ≤ w.slot := by
    intro w hw
    rcases mem_cons.mp hw with rfl | hw
    · exact le_refl _
    · exact le_of_lt ((pairwise_cons.mp hnew).1 w hw)
  constructor
  · rintro (⟨w, hw, hslot, _⟩ | ⟨_, hexpired⟩)
    · exact absurd (habove w hw) (by rw [hslot]; exact not_le_of_gt hlt)
    · exact hexpired v mem_cons_self hlt
  · intro hexpired
    refine Or.inr ⟨fun w hw => ?_, fun w hw _ => lt_of_lt_of_le hexpired (habove w hw)⟩
    exact ne_of_gt (lt_of_lt_of_le hlt (habove w hw))

/-- What the two-pointer walk checks. -/
theorem mergeVotes_isOk_iff (hcurrent : current.Pairwise (fun v w => v.slot < w.slot))
    (hnew : newState.Pairwise (fun v w => v.slot < w.slot)) :
    (∃ merged, mergeVotes current newState = .ok merged) ↔
      ∀ old ∈ current, Respects newState old := by
  fun_induction mergeVotes current newState with
  | case1 newState => simp
  | case2 old current => simp [Respects]
  | case3 old current v newState hlt hlocked =>
    simp only [reduceCtorEq, exists_false, false_iff]
    intro hall
    have hexpired := (respects_of_lt hnew hlt).mp (hall old mem_cons_self)
    exact absurd hlocked (not_le_of_gt hexpired)
  | case4 old current v newState hlt hlocked ih =>
    rw [ih (pairwise_cons.mp hcurrent).2 hnew, forall_mem_cons, respects_of_lt hnew hlt]
    exact ⟨fun h => ⟨lt_of_not_ge hlocked, h⟩, fun h => h.2⟩
  | case5 old current v newState hlt heq hcount =>
    simp only [reduceCtorEq, exists_false, false_iff]
    intro hall
    have hnot : ¬Respects (v :: newState) old := by
      rintro (⟨w, hw, hslot, hle⟩ | ⟨habsent, _⟩)
      · rcases mem_cons.mp hw with rfl | hw
        · exact absurd hle (not_le_of_gt hcount)
        · have := (pairwise_cons.mp hnew).1 w hw
          exact absurd (heq.symm.trans hslot.symm) (ne_of_lt this)
      · exact habsent v mem_cons_self heq.symm
    exact hnot (hall old mem_cons_self)
  | case6 old current v newState hlt heq hcount ih =>
    obtain ⟨hold, hcurrent⟩ := pairwise_cons.mp hcurrent
    have hself : Respects (v :: newState) old :=
      Or.inl ⟨v, mem_cons_self, heq.symm, le_of_not_gt hcount⟩
    have hrest : (∀ o ∈ current, Respects (v :: newState) o) ↔ ∀ o ∈ current, Respects newState o :=
      forall₂_congr fun o ho => respects_cons_of_lt (heq ▸ hold o ho)
    rw [forall_mem_cons, hrest, ← ih hcurrent (pairwise_cons.mp hnew).2]
    cases mergeVotes current newState with
    | error e => simp [Except.map]
    | ok merged => simp [Except.map, hself]
  | case7 old current v newState hlt heq ih =>
    have hbelow : v.slot < old.slot := lt_of_le_of_ne (le_of_not_gt hlt) (Ne.symm heq)
    have hall : (∀ o ∈ old :: current, Respects (v :: newState) o) ↔
        ∀ o ∈ old :: current, Respects newState o := by
      refine forall₂_congr fun o ho => respects_cons_of_lt ?_
      rcases mem_cons.mp ho with rfl | ho
      · exact hbelow
      · exact lt_trans hbelow ((pairwise_cons.mp hcurrent).1 o ho)
    rw [hall, ← ih hcurrent (pairwise_cons.mp hnew).2]
    cases mergeVotes (old :: current) newState with
    | error e => simp [Except.map]
    | ok merged => simp [Except.map]

theorem mergeVotes_lockouts {merged : List LandedVote}
    (h : mergeVotes current newState = .ok merged) :
    merged.map LandedVote.lockout = newState.map LandedVote.lockout := by
  fun_induction mergeVotes current newState generalizing merged with
  | case1 newState => rw [Except.ok.inj h]
  | case2 old current => rw [← Except.ok.inj h]
  | case3 => cases h
  | case4 old current v newState hlt hlocked ih => exact ih h
  | case5 => cases h
  | case6 old current v newState hlt heq hcount ih =>
    obtain ⟨rest, hmerge, rfl⟩ := Checked.map_ok_iff.mp h
    rw [map_cons, map_cons, ih hmerge]
  | case7 old current v newState hlt heq ih =>
    obtain ⟨rest, hmerge, rfl⟩ := Checked.map_ok_iff.mp h
    rw [map_cons, map_cons, ih hmerge]

end Merge

section Accept
variable {s t : ChainVoteState} {newState : List LandedVote} {newRoot : Option Slot}
  {features : VoteFeatures}
variable {timestamp : Option Int}

theorem votesAboveRoot_suffix (s : ChainVoteState) (newRoot : Option Slot)
    (features : VoteFeatures) : (s.votesAboveRoot newRoot features).1 <:+ s.votes := by
  unfold votesAboveRoot
  cases newRoot with
  | none => exact suffix_rfl
  | some r =>
    rw [skipRooted_fst]
    exact dropWhile_suffix _

/-- In a sorted tower the votes that are skipped are those up to the new root. -/
theorem mem_votesAboveRoot (hs : s.votes.Pairwise (fun v w => v.slot < w.slot)) {old : LandedVote} :
    old ∈ (s.votesAboveRoot newRoot features).1 ↔
      old ∈ s.votes ∧ ∀ r, newRoot = some r → r < old.slot := by
  unfold votesAboveRoot
  cases newRoot with
  | none => simp
  | some r =>
    rw [skipRooted_fst]
    simp only [some.injEq, forall_eq']
    generalize s.votes = votes at hs
    induction votes with
    | nil => simp
    | cons v votes ih =>
      obtain ⟨hv, hvotes⟩ := pairwise_cons.mp hs
      rw [dropWhile_cons]
      by_cases hle : v.slot ≤ r
      · rw [if_pos (decide_eq_true hle), ih hvotes, mem_cons]
        constructor
        · exact fun h => ⟨Or.inr h.1, h.2⟩
        · rintro ⟨rfl | hmem, hlt⟩
          · exact absurd hle (not_le_of_gt hlt)
          · exact ⟨hmem, hlt⟩
      · rw [if_neg (by simpa using hle)]
        refine ⟨fun hmem => ⟨hmem, ?_⟩, fun h => h.1⟩
        rcases mem_cons.mp hmem with rfl | hmem
        · exact lt_of_not_ge hle
        · exact lt_trans (lt_of_not_ge hle) (hv old hmem)

/-- What `process_new_vote_state` asks of a new tower. -/
structure Accepts (s : ChainVoteState) (newState : List LandedVote) (newRoot : Option Slot) :
    Prop where
  bounded : newState.length ≤ maxLockoutHistory
  root : ∀ r, s.rootSlot = some r → ∃ r', newRoot = some r' ∧ r ≤ r'
  tower : NewTower newRoot newState
  respects : ∀ old ∈ s.votes, (∀ r, newRoot = some r → r < old.slot) → Respects newState old

def withCredits (s : ChainVoteState) (newRoot : Option Slot) (epoch : Epoch)
    (features : VoteFeatures) : ChainVoteState :=
  if s.rootSlot ≠ newRoot then
    { s with toVoteState :=
        s.toVoteState.incrementCredits epoch (s.votesAboveRoot newRoot features).2 }
  else s

/-- Credits do not matter for the timestamp. -/
theorem recordTimestamp_withCredits {slot : Slot}
    (h : ∃ t, s.recordTimestamp slot timestamp = .ok t) (newRoot : Option Slot) (epoch : Epoch)
    (features : VoteFeatures) :
    ∃ t, (s.withCredits newRoot epoch features).recordTimestamp slot timestamp = .ok t := by
  have htime : (s.withCredits newRoot epoch features).lastTimestamp = s.lastTimestamp := by
    unfold withCredits
    split_ifs <;> rfl
  obtain ⟨t, h⟩ := h
  unfold recordTimestamp processTimestamp at h ⊢
  cases timestamp with
  | none => exact ⟨_, rfl⟩
  | some timestamp =>
    rw [htime]
    exact ⟨_, ite_error_ok_iff.mpr ⟨(ite_error_ok_iff.mp h).1, rfl⟩⟩

variable (hs : s.votes.Pairwise (fun v w => v.slot < w.slot))
include hs

theorem processNewVoteState_ok {epoch : Epoch} {currentSlot : Slot}
    (h : s.processNewVoteState newState newRoot timestamp epoch currentSlot features =
      some (.ok t)) :
    s.Accepts newState newRoot ∧ newState ≠ [] ∧ t.rootSlot = newRoot ∧
      t.votes.map LandedVote.lockout = newState.map LandedVote.lockout := by
  unfold processNewVoteState at h
  cases hlast : newState.getLast? with
  | none => simp [hlast] at h
  | some last =>
    simp only [hlast, some.injEq] at h
    obtain ⟨_, hlength, h⟩ := bind_ok h
    obtain ⟨_, hroot, h⟩ := bind_ok h
    obtain ⟨_, htower, h⟩ := bind_ok h
    obtain ⟨merged, hmerge, h⟩ := bind_ok h
    obtain ⟨s', _, h⟩ := bind_ok h
    have htower := (checkNewVotes_none_isOk_iff newState).mp htower
    have hrespects := (mergeVotes_isOk_iff
      (hs.sublist (s.votesAboveRoot_suffix newRoot features).sublist)
      htower.increasing.1).mp ⟨merged, hmerge⟩
    refine ⟨⟨?_, checkRoot_isOk_iff.mp hroot, htower, fun old hold habove => ?_⟩, ?_, ?_, ?_⟩
    · exact Nat.le_of_not_lt (ite_error_ok_iff.mp hlength).1
    · exact hrespects old ((mem_votesAboveRoot hs).mpr ⟨hold, habove⟩)
    · rintro rfl
      cases hlast
    · rw [← Except.ok.inj h]
    · rw [← Except.ok.inj h, ← mergeVotes_lockouts hmerge, List.map_map]
      refine map_congr_left fun v _ => ?_
      simp only [Function.comp_apply, setLatency]
      split_ifs <;> rfl

/-- A tower that passes the checks is accepted, if the timestamp is recent. -/
theorem processNewVoteState_isOk (haccepts : s.Accepts newState newRoot) {last : LandedVote}
    (hlast : newState.getLast? = some last)
    (htime : ∃ t, s.recordTimestamp last.slot timestamp = .ok t) (epoch : Epoch)
    (currentSlot : Slot) :
    ∃ t, s.processNewVoteState newState newRoot timestamp epoch currentSlot features =
      some (.ok t) := by
  have hlength : checkLength newState = .ok () :=
    ite_error_ok_iff.mpr ⟨Nat.not_lt_of_le haccepts.bounded, rfl⟩
  have hroot := checkRoot_isOk_iff.mpr haccepts.root
  have htower := (checkNewVotes_none_isOk_iff newState).mpr haccepts.tower
  obtain ⟨merged, hmerge⟩ := (mergeVotes_isOk_iff
    (hs.sublist (s.votesAboveRoot_suffix newRoot features).sublist)
    haccepts.tower.increasing.1).mpr (fun old hold =>
      have hold := (mem_votesAboveRoot hs).mp hold
      haccepts.respects old hold.1 hold.2)
  obtain ⟨s', htime⟩ := recordTimestamp_withCredits htime newRoot epoch features
  refine ⟨{ s' with
    rootSlot := newRoot, votes := merged.map (setLatency features currentSlot) }, ?_⟩
  unfold processNewVoteState
  rw [hlast]
  refine congrArg some ?_
  exact bind_ok_iff.mpr ⟨(), hlength, bind_ok_iff.mpr ⟨(), hroot,
    bind_ok_iff.mpr ⟨(), htower, bind_ok_iff.mpr ⟨merged, hmerge,
      bind_ok_iff.mpr ⟨s', htime, rfl⟩⟩⟩⟩⟩

end Accept

variable {s t : ChainVoteState} {slotHashes : List (Slot × Hash)}

/-- The vote is older than the slot hashes, and the vote state does not have it. -/
def tooOld (s : ChainVoteState) (earliest : Slot) (l : Lockout) : Bool :=
  decide (l.slot < earliest) && !s.containsSlot l.slot

/-- What the loop has found out about the votes before the index. -/
structure Walked (s : ChainVoteState) (lockouts : List Lockout) (slotHashes : List (Slot × Hash))
    (earliest : Slot) (index slotHashesIndex : Nat) (indexesToFilter : List Nat) : Prop where
  bound : slotHashesIndex ≤ slotHashes.length
  ordered : (lockouts.take index).IsChain (fun l l' => l.slot < l'.slot)
  known : ∀ l ∈ lockouts.take index, earliest ≤ l.slot → l.slot ∈ slotHashes.map Prod.fst
  old : ∀ i ∈ indexesToFilter, ((lockouts[i]?).map Lockout.slot).getD 0 < earliest
  filtered : slotHashes.Pairwise (fun x y => y.1 < x.1) → indexesToFilter =
    ((lockouts.take index).zipIdx.filter (fun x => s.tooOld earliest x.1)).map Prod.snd
  matched : index = lockouts.length → ∀ last, lockouts.getLast? = some last →
    earliest ≤ last.slot → (slotHashes[slotHashesIndex]?).map Prod.fst = some last.slot

variable {lockouts : List Lockout} {earliest : Slot} {hash : Hash} {i j : Nat} {l : Lockout}
  {indexes : List Nat}

theorem getD_slot (hget : lockouts[i]? = some l) : ((lockouts[i]?).map slot).getD 0 = l.slot := by
  rw [hget]
  rfl

theorem earliest_le (hdesc : slotHashes.Pairwise (fun x y => y.1 < x.1))
    (hearliest : slotHashes.getLast? = some (earliest, hash)) {x : Slot × Hash}
    (hx : x ∈ slotHashes) : earliest ≤ x.1 := by
  obtain ⟨newer, rfl⟩ := getLast?_eq_some_iff.mp hearliest
  rcases mem_append.mp hx with hx | hx
  · exact ((pairwise_append.mp hdesc).2.2 x hx _ (mem_singleton_self _)).le
  · rw [mem_singleton.mp hx]

/-- The loop goes on to the next vote, and may drop the last one. -/
theorem Walked.next (h : s.Walked lockouts slotHashes earliest i j indexes) {j' : Nat}
    (hj : j' ≤ slotHashes.length) (hget : lockouts[i]? = some l)
    (horder : ¬(0 < i ∧ l.slot ≤ ((lockouts[i - 1]?).map slot).getD 0))
    (hknown : l.slot < earliest ∨ (slotHashes[j']?).map Prod.fst = some l.slot) (kept : Bool)
    (hdropped : kept = false → l.slot < earliest)
    (hold : slotHashes.Pairwise (fun x y => y.1 < x.1) → s.tooOld earliest l = !kept) :
    s.Walked lockouts slotHashes earliest (i + 1) j'
      (if kept then indexes else indexes ++ [i]) := by
  have hi : i < lockouts.length := (List.getElem?_eq_some_iff.mp hget).1
  have htake : lockouts.take (i + 1) = lockouts.take i ++ [l] := by
    rw [take_add_one, hget]
    rfl
  refine ⟨hj, ?_, ?_, ?_, fun hdesc => ?_, ?_⟩
  · rw [htake, isChain_append]
    refine ⟨h.ordered, isChain_singleton _, fun l' hl' y hy => ?_⟩
    obtain rfl : l = y := some.inj hy
    cases i with
    | zero => simp at hl'
    | succ i =>
      rw [getLast?_take, if_neg (Nat.succ_ne_zero i), Nat.add_sub_cancel,
        getElem?_eq_getElem (Nat.lt_of_succ_lt hi), some_or] at hl'
      rw [Nat.add_sub_cancel, getD_slot (getElem?_eq_getElem (Nat.lt_of_succ_lt hi))] at horder
      rw [← some.inj hl']
      exact not_le.mp fun hle => horder ⟨Nat.succ_pos i, hle⟩
  · rw [htake, forall_mem_append, forall_mem_singleton]
    refine ⟨h.known, fun hle => ?_⟩
    obtain ⟨x, hx, hslot⟩ := map_eq_some_iff.mp (hknown.resolve_left (not_lt.mpr hle))
    exact mem_map.mpr ⟨x, mem_of_getElem? hx, hslot⟩
  · split_ifs with hkept
    · exact h.old
    · rw [forall_mem_append, forall_mem_singleton, getD_slot hget]
      exact ⟨h.old, hdropped (by simpa using hkept)⟩
  · rw [htake, zipIdx_append, filter_append, map_append, ← h.filtered hdesc, length_take,
      Nat.min_eq_left hi.le]
    cases kept <;> simp [hold hdesc]
  · intro hend last hlast hle
    rw [getLast?_eq_getElem?, ← hend, Nat.add_sub_cancel, hget] at hlast
    cases hlast
    exact hknown.resolve_left (not_lt.mpr hle)

/-- The loop does not panic. -/
theorem walkSlotHashes_walked (hearliest : slotHashes.getLast? = some (earliest, hash))
    {w : UpdateWalk}
    (h :
      s.Walked lockouts slotHashes earliest w.voteStateUpdateIndex w.slotHashesIndex
        w.indexesToFilter) :
    ∃ result, s.walkSlotHashes lockouts slotHashes earliest w = some result ∧
      ∀ w', result = .ok w' →
        s.Walked lockouts slotHashes earliest w'.voteStateUpdateIndex w'.slotHashesIndex
          w'.indexesToFilter := by
  have horder {w : UpdateWalk} (hi : w.voteStateUpdateIndex < lockouts.length)
      (hle : ¬ (w.rootToCheck.isNone ∧ 0 < w.voteStateUpdateIndex ∧
        w.rootToCheck.getD lockouts[w.voteStateUpdateIndex].slot ≤
          lockouts[w.voteStateUpdateIndex - 1].slot))
      (hnone : w.rootToCheck = none) :
      ¬(0 < w.voteStateUpdateIndex ∧ lockouts[w.voteStateUpdateIndex].slot ≤
        ((lockouts[w.voteStateUpdateIndex - 1]?).map slot).getD 0) := by
    rw [getD_slot (getElem?_eq_getElem (by omega))]
    simpa [hnone] using hle
  -- the first slot hash to compare with is the oldest one
  have holdest {j : Nat} {ancestor : Slot} {ancestorHash : Hash} (hj : j = slotHashes.length)
      (hget : slotHashes[j - 1]? = some (ancestor, ancestorHash)) : ancestor = earliest := by
    rw [hj, ← getLast?_eq_getElem?, hearliest] at hget
    cases hget
    rfl
  fun_induction walkSlotHashes s lockouts slotHashes earliest w with
  | case1 => exact ⟨_, rfl, nofun⟩
  | case2 w hloop _ _ hget =>
    have hj := (Nat.sub_lt hloop.2 one_pos).trans_le h.bound
    rw [getElem?_eq_getElem hj] at hget
    cases hget
  | case3 w _ proposed _ ancestor _ hget hlt hfirst hle =>
    rw [holdest hfirst hget] at hlt
    exact absurd hlt (not_lt.mpr hle)
  | case4 w _ _ _ _ _ _ _ _ _ _ ih => exact ih h
  | case5 w hloop proposed hle ancestor _ hget hold hfirst _ hroot ih =>
    have hnone : w.rootToCheck = none := by simpa using hroot
    have hslot : proposed = lockouts[w.voteStateUpdateIndex].slot := by
      simp only [proposed, hnone, Option.getD_none]
    rw [hslot, holdest hfirst hget] at hold
    refine ih (h.next h.bound (getElem?_eq_getElem hloop.1) (horder hloop.1 hle hnone)
      (.inl hold) _ (fun _ => hold) fun _ => ?_)
    rw [tooOld, decide_eq_true hold, Bool.true_and, hslot]
  | case6 => exact ⟨_, rfl, nofun⟩
  | case7 => exact ⟨_, rfl, nofun⟩
  | case8 w hloop _ _ _ _ _ _ _ ih =>
    exact ih ⟨(Nat.sub_le _ _).trans h.bound, h.ordered, h.known, h.old, h.filtered,
      fun hend => absurd hend hloop.1.ne⟩
  | case9 w _ _ _ _ _ _ _ _ _ ih => exact ih h
  | case10 w hloop proposed hle ancestor _ hget hlt hgt hroot ih =>
    have hnone : w.rootToCheck = none := by simpa using hroot
    -- the slot is that of a slot hash, which is not older than the earliest one
    obtain rfl : ancestor = lockouts[w.voteStateUpdateIndex].slot := by
      have hsame := le_antisymm (not_lt.mp hlt) (not_lt.mp hgt)
      simpa only [proposed, hnone, Option.getD_none] using hsame
    refine ih (h.next ((Nat.sub_le _ _).trans h.bound) (getElem?_eq_getElem hloop.1)
      (horder hloop.1 hle hnone) (.inr (by rw [hget]; rfl)) true (by simp) fun hdesc => ?_)
    simp [tooOld, earliest_le hdesc hearliest (mem_of_getElem? hget)]
  | case11 w _ =>
    refine ⟨_, rfl, fun w' hw => ?_⟩
    cases hw
    exact h

theorem Walked.start (s : ChainVoteState) (lockouts : List Lockout)
    (slotHashes : List (Slot × Hash)) (earliest : Slot) :
    s.Walked lockouts slotHashes earliest 0 slotHashes.length [] where
  bound := le_rfl
  ordered := isChain_nil
  known := by simp
  old := by simp
  filtered := fun _ => rfl
  matched := fun hend last hlast => by
    rw [length_eq_zero_iff.mp hend.symm] at hlast
    cases hlast

theorem retainVotes_getLast? {lockouts : List Lockout} {indexes : List Nat} {i : Nat}
    (hlast : i + lockouts.length - 1 ∉ indexes) :
    (retainVotes indexes i lockouts).getLast? = lockouts.getLast? := by
  fun_induction retainVotes indexes i lockouts with
  | case1 => rfl
  | case2 => rfl
  | case3 fs i l ls ih =>
    rw [length_cons] at hlast
    have hne : ls ≠ [] := by
      rintro rfl
      exact hlast (by simp)
    have hrest : i + 1 + ls.length - 1 ∉ fs := by
      intro hmem
      refine hlast (mem_cons_of_mem _ ?_)
      have hsame : i + (ls.length + 1) - 1 = i + 1 + ls.length - 1 := by omega
      rwa [hsame]
    rw [ih hrest, getLast?_cons, getLast?_eq_some_getLast hne]
    rfl
  | case4 f fs i l ls hne ih =>
    have hrest : i + 1 + ls.length - 1 ∉ f :: fs := by
      have hsame : i + (ls.length + 1) - 1 = i + 1 + ls.length - 1 := by omega
      rwa [← hsame]
    rw [getLast?_cons, getLast?_cons, ih hrest]

theorem retainVotes_cons {fs : List Nat} {i : Nat} (hlater : ∀ f ∈ fs, i < f) (l : Lockout)
    (ls : List Lockout) : retainVotes fs i (l :: ls) = l :: retainVotes fs (i + 1) ls := by
  cases fs with
  | nil => cases ls <;> rfl
  | cons f fs => rw [retainVotes, if_neg (hlater f mem_cons_self).ne]

theorem retainVotes_eq_filter (p : Lockout → Bool) (ls : List Lockout) (i : Nat) :
    retainVotes (((ls.zipIdx i).filter (fun x => p x.1)).map Prod.snd) i ls =
      ls.filter (fun l => !p l) := by
  induction ls generalizing i with
  | nil => rfl
  | cons l ls ih =>
    rw [zipIdx_cons, filter_cons, filter_cons]
    cases hp : p l with
    | true => simp [retainVotes, ih]
    | false =>
      rw [if_neg (by simp), if_pos (by simp), retainVotes_cons, ih]
      intro f hf
      obtain ⟨x, hx, rfl⟩ := mem_map.mp hf
      exact le_snd_of_mem_zipIdx (mem_filter.mp hx).1

/-- The update is refused, or the loop went through all of its votes. -/
theorem checkUpdate_cases (s : ChainVoteState) (update : VoteStateUpdate)
    (slotHashes : List (Slot × Hash)) :
    (∃ e, s.checkUpdateVoteStateSlotsAreValid update slotHashes = some (.error e)) ∨
    ∃ last earliest hash j indexes, update.lockouts.getLast? = some last ∧
      (∀ l, s.lastVotedSlot = some l → l < last.slot) ∧
      (retainVotes indexes 0 update.lockouts).getLast? = some last ∧
      slotHashes.getLast? = some (earliest, hash) ∧
      s.Walked update.lockouts slotHashes earliest update.lockouts.length j indexes ∧
      slotHashes[j]? = some (last.slot, update.hash) ∧
      s.checkUpdateVoteStateSlotsAreValid update slotHashes = some (.ok { update with
        root := s.replaceRoot earliest update.root
        lockouts := retainVotes indexes 0 update.lockouts }) := by
  unfold checkUpdateVoteStateSlotsAreValid
  cases hlast : update.lockouts.getLast? with
  | none => exact .inl ⟨_, rfl⟩
  | some last =>
    dsimp only
    split_ifs with hold
    · exact .inl ⟨_, rfl⟩
    cases hearliest : slotHashes.getLast? with
    | none => exact .inl ⟨_, rfl⟩
    | some oldest =>
      obtain ⟨earliest, hash⟩ := oldest
      dsimp only
      split_ifs with hearly
      · exact .inl ⟨_, rfl⟩
      obtain ⟨result, hwalk, hwalked⟩ := walkSlotHashes_walked hearliest (w := {
        rootToCheck := s.replaceRoot earliest update.root, voteStateUpdateIndex := 0
        slotHashesIndex := slotHashes.length, indexesToFilter := [] })
        (.start s update.lockouts slotHashes earliest)
      rw [hwalk]
      cases result with
      | error e => exact .inl ⟨_, rfl⟩
      | ok w =>
      dsimp only
      split_ifs with hindex
      · exact .inl ⟨_, rfl⟩
      have h := hwalked w rfl
      rw [not_not.mp hindex] at h
      obtain ⟨⟨slot, slotHash⟩, hx, rfl⟩ :=
        map_eq_some_iff.mp (h.matched rfl last hlast (not_lt.mp hearly))
      rw [hx]
      dsimp only
      rw [if_neg (not_not.mpr rfl)]
      split_ifs with hhash
      · exact .inl ⟨_, rfl⟩
      refine .inr ⟨last, earliest, hash, _, _, rfl, fun l hl => ?_, ?_, rfl, h, ?_, rfl⟩
      · rw [hl] at hold
        simpa using hold
      · rw [retainVotes_getLast?, hlast]
        intro hmem
        have hfilter := h.old _ hmem
        rw [Nat.zero_add, ← getLast?_eq_getElem?, hlast] at hfilter
        exact hearly hfilter
      · rw [hx, not_not.mp hhash]

/-- A valid update is newer than the tower, and its last vote is not filtered out. -/
theorem checkUpdate_ok {update update' : VoteStateUpdate}
    (h : s.checkUpdateVoteStateSlotsAreValid update slotHashes = some (.ok update')) :
    ∃ last, update'.lockouts.getLast? = some last ∧
      ∀ l, s.lastVotedSlot = some l → l < last.slot := by
  rcases s.checkUpdate_cases update slotHashes with
    ⟨e, he⟩ | ⟨last, _, _, _, _, _, hnewer, hkept, _, _, _, hok⟩
  · cases he.symm.trans h
  · cases hok.symm.trans h
    exact ⟨last, hkept, hnewer⟩

/-- The check never panics, and an update that it lets through keeps, in increasing order, the
votes that can be checked or that the vote state has. -/
theorem checkUpdate_filters (hdesc : slotHashes.Pairwise (fun x y => y.1 < x.1))
    (hearliest : slotHashes.getLast? = some (earliest, hash)) (s : ChainVoteState)
    (update : VoteStateUpdate) :
    s.checkUpdateVoteStateSlotsAreValid update slotHashes ≠ none ∧
    ∀ update', s.checkUpdateVoteStateSlotsAreValid update slotHashes = some (.ok update') →
      update'.lockouts = update.lockouts.filter (fun l => !s.tooOld earliest l) ∧
      update'.lockouts.Pairwise (fun l l' => l.slot < l'.slot) ∧
      (∀ l ∈ update'.lockouts, earliest ≤ l.slot → l.slot ∈ slotHashes.map Prod.fst) ∧
      ∃ last, update.lockouts.getLast? = some last ∧ update'.lockouts.getLast? = some last ∧
        (last.slot, update.hash) ∈ slotHashes := by
  rcases s.checkUpdate_cases update slotHashes with
    ⟨e, he⟩ | ⟨last, _, _, j, indexes, hlast, _, hkept, holdest, hwalked, hmatch, hok⟩
  · refine ⟨by simp [he], fun update' h => ?_⟩
    cases he.symm.trans h
  refine ⟨by simp [hok], fun update' h => ?_⟩
  cases hok.symm.trans h
  cases hearliest.symm.trans holdest
  have hfilter : retainVotes indexes 0 update.lockouts =
      update.lockouts.filter (fun l => !s.tooOld earliest l) := by
    rw [hwalked.filtered hdesc, take_length]
    exact retainVotes_eq_filter _ _ _
  have hordered := hwalked.ordered
  have hknown := hwalked.known
  rw [take_length] at hordered hknown
  have hpairwise := isChain_iff_pairwise.mp hordered
  refine ⟨hfilter, ?_, ?_, last, hlast, hkept, mem_of_getElem? hmatch⟩
  · rw [hfilter]
    exact hpairwise.filter _
  · intro l hl
    rw [hfilter] at hl
    exact hknown l (mem_filter.mp hl).1

/-- A vote for slot 1, with a root 0. -/
def votedOne : ChainVoteState where
  votes := [⟨0, ⟨1, 1⟩⟩]
  rootSlot := some 0
  epochCredits := []
  lastTimestamp := ⟨0, 0⟩

/-- An update that adds a vote for slot 2. -/
def updateTwo : VoteStateUpdate where
  lockouts := [⟨1, 2⟩, ⟨2, 1⟩]
  root := some 0
  hash := ⟨2⟩
  timestamp := none

theorem checkUpdate_filters_two :
    votedOne.checkUpdateVoteStateSlotsAreValid
      { updateTwo with lockouts := ⟨0, 3⟩ :: updateTwo.lockouts } [(2, ⟨2⟩)] =
      some (.ok updateTwo) ∧
    updateTwo.lockouts =
      (⟨0, 3⟩ :: updateTwo.lockouts).filter (fun l => !votedOne.tooOld 2 l) := by
  have hok : votedOne.checkUpdateVoteStateSlotsAreValid
      { updateTwo with lockouts := ⟨0, 3⟩ :: updateTwo.lockouts } [(2, ⟨2⟩)] =
      some (.ok updateTwo) := by decide +kernel
  exact ⟨hok, ((checkUpdate_filters (by decide) rfl votedOne _).2 _ hok).1⟩

end ChainVoteState

/-- A vote state whose votes are ordered as the vote program leaves them. -/
structure ChainVoteState.WellFormed (s : ChainVoteState) : Prop where
  increasing : s.votes.Pairwise (fun v w => v.slot < w.slot)
  decreasing : s.votes.Pairwise (fun v w => w.confirmationCount < v.confirmationCount)
  counts : ∀ v ∈ s.votes, 1 ≤ v.confirmationCount ∧ v.confirmationCount ≤ maxLockoutHistory

namespace ChainVoteState

variable {s t : ChainVoteState}
variable {votes votes' : List LandedVote}

section Lockouts
variable (h : votes.map LandedVote.lockout = votes'.map LandedVote.lockout)
include h

theorem pairwise_of_lockouts {R : Lockout → Lockout → Prop}
    (hvotes : votes'.Pairwise (fun v w => R v.lockout w.lockout)) :
    votes.Pairwise (fun v w => R v.lockout w.lockout) := by
  rw [← pairwise_map] at hvotes ⊢
  rwa [h]

theorem mem_of_lockouts {v : LandedVote} (hv : v ∈ votes) :
    ∃ w ∈ votes', w.lockout = v.lockout := by
  rw [← List.mem_map, ← h]
  exact mem_map_of_mem hv

theorem Respects.of_lockouts {old : LandedVote} (hold : Respects votes' old) :
    Respects votes old := by
  rcases hold with ⟨v, hv, hslot, hcount⟩ | ⟨habsent, hexpired⟩
  · obtain ⟨w, hw, hlockout⟩ := mem_of_lockouts h.symm hv
    have hslot' : w.slot = v.slot := congrArg slot hlockout
    have hcount' : w.confirmationCount = v.confirmationCount := congrArg confirmationCount hlockout
    exact Or.inl ⟨w, hw, hslot'.trans hslot, hcount'.symm ▸ hcount⟩
  · have hslots : ∀ v ∈ votes, ∃ w ∈ votes', w.slot = v.slot := by
      intro v hv
      obtain ⟨w, hw, hlockout⟩ := mem_of_lockouts h hv
      exact ⟨w, hw, congrArg slot hlockout⟩
    refine Or.inr ⟨fun v hv => ?_, fun v hv => ?_⟩
    · obtain ⟨w, hw, hslot⟩ := hslots v hv
      exact hslot ▸ habsent w hw
    · obtain ⟨w, hw, hslot⟩ := hslots v hv
      exact hslot ▸ hexpired w hw

end Lockouts

/-- An accepted vote state update makes an ordered tower above the old one, and respects every
lockout of the old votes above the new root. -/
theorem voteStateUpdate_respects_lockouts (hs : s.WellFormed) {slotHashes : List (Slot × Hash)}
    {epoch : Epoch} {slot : Slot} {update : VoteStateUpdate} {features : VoteFeatures}
    (hok : s.doProcessVoteStateUpdate slotHashes epoch slot update features = some (.ok t)) :
    t.WellFormed ∧
    (∀ r, s.rootSlot = some r → ∃ r', t.rootSlot = some r' ∧ r ≤ r') ∧
    (∃ last, t.lastVotedSlot = some last ∧ ∀ l, s.lastVotedSlot = some l → l < last) ∧
    ∀ old ∈ s.votes, (∀ r, t.rootSlot = some r → r < old.slot) →
      (∃ v ∈ t.votes, v.slot = old.slot ∧ old.confirmationCount ≤ v.confirmationCount) ∨
      (∀ v ∈ t.votes, v.slot ≠ old.slot) ∧
        ∀ v ∈ t.votes, old.slot < v.slot → old.lockout.lastLockedOutSlot < v.slot := by
  unfold doProcessVoteStateUpdate at hok
  split at hok
  · cases hok
  · simp at hok
  rename_i update' hcheck
  obtain ⟨last, hlast, hnewer⟩ := checkUpdate_ok hcheck
  obtain ⟨haccepts, _, hroot, hlockouts⟩ := processNewVoteState_ok hs.increasing hok
  obtain ⟨hincreasing, hdecreasing⟩ := haccepts.tower.increasing
  refine ⟨⟨pairwise_of_lockouts hlockouts (R := fun l l' => l.slot < l'.slot) hincreasing,
    pairwise_of_lockouts hlockouts
      (R := fun l l' => l'.confirmationCount < l.confirmationCount) hdecreasing, ?_⟩, ?_, ?_, ?_⟩
  · intro v hv
    obtain ⟨w, hw, hlockout⟩ := mem_of_lockouts hlockouts hv
    have hcounts := haccepts.tower.counts w hw
    rwa [LandedVote.confirmationCount, hlockout] at hcounts
  · rw [hroot]
    exact haccepts.root
  · refine ⟨last.slot, ?_, hnewer⟩
    unfold VoteState.lastVotedSlot VoteState.lastLockout
    rw [← getLast?_map, hlockouts, List.map_map]
    have hid : LandedVote.lockout ∘ LandedVote.ofLockout = id := rfl
    rw [hid, List.map_id, hlast]
    rfl
  · intro old hold habove
    exact Respects.of_lockouts hlockouts
      (haccepts.respects old hold (fun r hr => habove r (hroot.trans hr)))

theorem voteStateUpdate_respects_lockouts_two :
    ∃ t, votedOne.doProcessVoteStateUpdate [(2, ⟨2⟩), (1, ⟨1⟩)] 0 3 updateTwo ⟨true, true⟩ =
      some (.ok t) ∧ t.WellFormed ∧
      ∃ last, t.lastVotedSlot = some last ∧ ∀ l, votedOne.lastVotedSlot = some l → l < last := by
  have hs : votedOne.WellFormed := ⟨by decide, by decide, by decide⟩
  have hsome : ((votedOne.doProcessVoteStateUpdate [(2, ⟨2⟩), (1, ⟨1⟩)] 0 3 updateTwo
      ⟨true, true⟩).bind Except.toOption).isSome = true := by decide +kernel
  obtain ⟨t, ht⟩ := isSome_iff_exists.mp hsome
  have hok : votedOne.doProcessVoteStateUpdate [(2, ⟨2⟩), (1, ⟨1⟩)] 0 3 updateTwo ⟨true, true⟩ =
      some (.ok t) := by
    obtain ⟨r, hr, hrt⟩ := bind_eq_some_iff.mp ht
    cases r with
    | error e => cases hrt
    | ok t' => rw [hr, some.inj hrt]
  obtain ⟨hwell, _, hlast, _⟩ := voteStateUpdate_respects_lockouts hs hok
  exact ⟨t, hok, hwell, hlast⟩

end ChainVoteState
end Hypergrid
