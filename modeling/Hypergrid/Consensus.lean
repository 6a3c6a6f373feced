import Hypergrid.VoteUpdate

/-!
# The tower of a validator

The `Tower` of `consensus.rs`: the votes of the validator itself, with the last vote it sent.

A vote is recorded with `process_vote_unchecked`, that is with slot hashes made of the voted slots.
`is_locked_out` simulates the vote and looks at the votes that stay: they have to be on the fork
of the voted slot.

* `processVoteUnchecked_single` : recording one slot is `process_next_vote_slot`, or fails.
* `isLockedOut_eq_false` : what a slot that is not locked out satisfies.
-/

namespace Hypergrid
open List

structure Vote where
  slots : List Slot
  hash : Hash
  timestamp : Option Int
deriving DecidableEq

def Vote.default : Vote := { slots := [], hash := ⟨0⟩, timestamp := none }

def Vote.new (slots : List Slot) (hash : Hash) : Vote := { slots, hash, timestamp := none }

def VoteStateUpdate.default : VoteStateUpdate :=
  { lockouts := [], root := none, hash := ⟨0⟩, timestamp := none }

inductive VoteTransaction where
  | vote (vote : Vote)
  | voteStateUpdate (update : VoteStateUpdate)
  | compactVoteStateUpdate (update : VoteStateUpdate)
deriving DecidableEq

namespace VoteTransaction

def slots : VoteTransaction → List Slot
  | vote v => v.slots
  | voteStateUpdate u => u.lockouts.map Lockout.slot
  | compactVoteStateUpdate u => u.lockouts.map Lockout.slot

def isEmpty (v : VoteTransaction) : Bool := v.slots.isEmpty

def lastVotedSlot (v : VoteTransaction) : Option Slot := v.slots.getLast?

def setTimestamp (ts : Option Int) : VoteTransaction → VoteTransaction
  | vote v => vote { v with timestamp := ts }
  | voteStateUpdate u => voteStateUpdate { u with timestamp := ts }
  | compactVoteStateUpdate u => compactVoteStateUpdate { u with timestamp := ts }

end VoteTransaction

namespace VoteState

variable (s : VoteState)

def currentEpoch : Epoch := (s.epochCredits.getLast?.map Prod.fst).getD 0

/-- The loop of `check_slots_are_valid`: `i` counts the vote slots from the oldest one, `j` the
slot hashes that are left. -/
def walkVoteSlots (s : VoteState) (voteSlots : List Slot) (slotHashes : List (Slot × Hash))
    (i j : Nat) : Nat × Nat :=
  if _h : i < voteSlots.length ∧ 0 < j then
    if (s.lastVotedSlot.map (fun last => decide (voteSlots[i] ≤ last))).getD false then
      s.walkVoteSlots voteSlots slotHashes (i + 1) j
    else if (slotHashes[j - 1]?).map Prod.fst ≠ some voteSlots[i] then
      s.walkVoteSlots voteSlots slotHashes i (j - 1)
    else s.walkVoteSlots voteSlots slotHashes (i + 1) (j - 1)
  else (i, j)
termination_by (voteSlots.length - i) + j

def checkSlotsAreValid (voteSlots : List Slot) (voteHash : Hash)
    (slotHashes : List (Slot × Hash)) : Except VoteError Unit :=
  let walked := s.walkVoteSlots voteSlots slotHashes 0 slotHashes.length
  if walked.2 = slotHashes.length then .error .voteTooOld
  else if walked.1 ≠ voteSlots.length then .error .slotsMismatch
  else if (slotHashes[walked.2]?).map Prod.snd ≠ some voteHash then .error .slotHashMismatch
  else .ok ()

def processVoteUnfiltered (voteSlots : List Slot) (vote : Vote)
    (slotHashes : List (Slot × Hash)) (epoch : Epoch) (currentSlot : Slot)
    (features : VoteFeatures) : Except VoteError VoteState :=
  match s.checkSlotsAreValid voteSlots vote.hash slotHashes with
  | .error e => .error e
  | .ok () =>
    .ok (s.processVotes (voteSlots.map fun slot =>
      ⟨slot, epoch, currentSlot, features.timelyVoteCredits,
        features.deprecateUnusedLegacyVotePlumbing⟩))

def processVoteUnchecked (vote : Vote) : Except VoteError VoteState :=
  if vote.slots.isEmpty then .error .emptySlots
  else
    s.processVoteUnfiltered vote.slots vote (vote.slots.reverse.map fun x => (x, vote.hash))
      s.currentEpoch 0 ⟨true, true⟩

/-- `process_slot_vote_unchecked`: an error is ignored. -/
def processSlotVoteUnchecked (slot : Slot) : VoteState :=
  match s.processVoteUnchecked (Vote.new [slot] ⟨0⟩) with
  | .ok t => t
  | .error _ => s

def uncheckedCall (slot : Slot) : VoteCall := ⟨slot, s.currentEpoch, 0, true, true⟩

theorem walkVoteSlots_single {s : VoteState} {slot : Slot}
    (hnew : ∀ last, s.lastVotedSlot = some last → last < slot) (hash : Hash) :
    s.walkVoteSlots [slot] [(slot, hash)] 0 1 = (1, 0) := by
  have hfresh : ¬(s.lastVotedSlot.map (fun last => decide (slot ≤ last))).getD false = true := by
    cases hlast : s.lastVotedSlot with
    | none => simp
    | some last => simpa using hnew last hlast
  rw [walkVoteSlots, dif_pos ⟨Nat.one_pos, Nat.one_pos⟩]
  simp only [getElem_cons_zero, if_neg hfresh]
  rw [if_neg (by simp), walkVoteSlots, dif_neg (by simp)]

theorem processVoteUnchecked_single {s : VoteState} {slot : Slot}
    (hnew : ∀ last, s.lastVotedSlot = some last → last < slot) (hash : Hash) :
    s.processVoteUnchecked (Vote.new [slot] hash) =
      .ok (s.processNextVoteSlot (s.uncheckedCall slot)) := by
  have hvalid : s.checkSlotsAreValid [slot] hash [(slot, hash)] = .ok () := by
    unfold checkSlotsAreValid
    rw [length_singleton, walkVoteSlots_single hnew]
    simp
  unfold processVoteUnchecked processVoteUnfiltered
  simp only [Vote.new, isEmpty_cons, reverse_singleton, map_cons, map_nil,
    hvalid, Bool.false_eq_true, if_false]
  rfl

end VoteState

namespace Consensus

structure Tower where
  voteState : VoteState
  lastVote : VoteTransaction
  lastTimestamp : BlockTimestamp
  strayRestoredSlot : Option Slot
deriving DecidableEq

namespace Tower

variable (t : Tower)

def default : Tower where
  voteState := { VoteState.default with rootSlot := some 0 }
  lastVote := .voteStateUpdate VoteStateUpdate.default
  lastTimestamp := ⟨0, 0⟩
  strayRestoredSlot := none

/-- `root`; `none` if the unwrap panics. -/
def root : Option Slot := t.voteState.rootSlot

def votedSlots : List Slot := t.voteState.votes.map LandedVote.slot

def lastVotedSlot : Option Slot :=
  if t.lastVote.isEmpty then none else t.lastVote.slots[t.lastVote.slots.length - 1]?

def isRecent (slot : Slot) : Bool :=
  match t.voteState.lastVotedSlot with
  | some last => !decide (slot ≤ last)
  | none =>
    match t.voteState.rootSlot with
    | some root => !decide (slot ≤ root)
    | none => true

/-- `is_locked_out`; `none` if the assertion on the root fails. -/
def isLockedOut (slot : Slot) (ancestors : Finset Slot) : Option Bool :=
  if !t.isRecent slot then some true
  else
    let voteState := t.voteState.processSlotVoteUnchecked slot
    if voteState.votes.any (fun v => decide (slot ≠ v.slot ∧ v.slot ∉ ancestors)) then some true
    else
      match voteState.rootSlot with
      | none => some false
      | some root => if slot ≠ root ∧ root ∉ ancestors then none else some false

/-- `maybe_timestamp` at the time `now`. -/
def maybeTimestamp (currentSlot : Slot) (now : Int) : Tower × Option Int :=
  if t.lastTimestamp.slot < currentSlot ∨
      t.lastTimestamp.slot = 0 ∧ currentSlot = t.lastTimestamp.slot then
    if t.lastTimestamp.timestamp ≤ now then
      ({ t with lastTimestamp := ⟨currentSlot, now⟩ }, some now)
    else (t, none)
  else (t, none)

/-- `update_last_vote_from_vote_state`.  The timestamp is the one for the old last vote. -/
def updateLastVoteFromVoteState (voteHash : Hash) (now : Int) : Tower :=
  let newVote : VoteTransaction := .voteStateUpdate
    { lockouts := t.voteState.votes.map LandedVote.lockout
      root := t.voteState.rootSlot
      hash := voteHash
      timestamp := none }
  let (t, timestamp) := t.maybeTimestamp (t.lastVotedSlot.getD 0) now
  { t with lastVote := newVote.setTimestamp timestamp }

/-- `record_bank_vote_and_update_lockouts`: the tower and the new root, if there is one; `none` if
the vote is refused, which panics. -/
def recordBankVoteAndUpdateLockouts (voteSlot : Slot) (voteHash : Hash) (now : Int) :
    Option (Tower × Option Slot) := do
  let oldRoot ← t.root
  match t.voteState.processVoteUnchecked (Vote.new [voteSlot] voteHash) with
  | .error _ => none
  | .ok voteState =>
    let t := { t with voteState }.updateLastVoteFromVoteState voteHash now
    let newRoot ← t.root
    return (t, if oldRoot ≠ newRoot then some newRoot else none)

variable {t t' : Tower} {slot : Slot} {ancestors : Finset Slot}

/-- A recent slot is above the last vote, and above the root if there is no vote. -/
theorem isRecent_eq_true (h : t.isRecent slot = true) :
    (∀ last, t.voteState.lastVotedSlot = some last → last < slot) ∧
      (t.voteState.votes = [] → ∀ r, t.root = some r → r < slot) := by
  unfold isRecent at h
  cases hlast : t.voteState.lastVotedSlot with
  | some last =>
    rw [hlast] at h
    refine ⟨?_, fun hnil => ?_⟩
    · intro last' hlast'
      obtain rfl := Option.some.inj hlast'
      simpa using h
    · simp [VoteState.lastVotedSlot, VoteState.lastLockout, hnil] at hlast
  | none =>
    rw [hlast] at h
    refine ⟨fun _ hnone => absurd hnone (by simp), fun _ r hr => ?_⟩
    unfold root at hr
    simp only [hr] at h
    simpa using h

/-- A slot that is not locked out is recent, and the votes and the root after a vote for it are
on its fork. -/
theorem isLockedOut_eq_false (h : t.isLockedOut slot ancestors = some false) :
    t.isRecent slot = true ∧
      (∀ v ∈ (t.voteState.processNextVoteSlot (t.voteState.uncheckedCall slot)).votes,
        v.slot = slot ∨ v.slot ∈ ancestors) ∧
      ∀ r, (t.voteState.processNextVoteSlot (t.voteState.uncheckedCall slot)).rootSlot = some r →
        r = slot ∨ r ∈ ancestors := by
  unfold isLockedOut at h
  by_cases hrecent : t.isRecent slot = true
  · have hvote : t.voteState.processSlotVoteUnchecked slot =
        t.voteState.processNextVoteSlot (t.voteState.uncheckedCall slot) := by
      unfold VoteState.processSlotVoteUnchecked
      rw [VoteState.processVoteUnchecked_single (isRecent_eq_true hrecent).1]
    simp only [hrecent, Bool.not_true, Bool.false_eq_true, if_false, hvote] at h
    generalize t.voteState.processNextVoteSlot (t.voteState.uncheckedCall slot) = s at *
    split_ifs at h with hfork
    · simp at h
    refine ⟨hrecent, fun v hv => ?_, fun r hr => ?_⟩
    · by_contra hoff
      rw [not_or] at hoff
      exact hfork (any_eq_true.mpr ⟨v, hv, decide_eq_true ⟨Ne.symm hoff.1, hoff.2⟩⟩)
    · simp only [hr] at h
      split_ifs at h with hroot
      by_contra hoff
      rw [not_or] at hoff
      exact hroot ⟨Ne.symm hoff.1, hoff.2⟩
  · simp only [hrecent, Bool.not_false, if_true, Option.some.injEq] at h
    cases h

theorem updateLastVote_voteState (t : Tower) (hash : Hash) (now : Int) :
    (t.updateLastVoteFromVoteState hash now).voteState = t.voteState := by
  dsimp only [updateLastVoteFromVoteState, maybeTimestamp]
  split_ifs <;> rfl

/-- Recording a recent slot is `process_next_vote_slot` on the vote state. -/
theorem record_voteState (hrecent : t.isRecent slot = true) {hash : Hash} {now : Int}
    {newRoot : Option Slot}
    (h : t.recordBankVoteAndUpdateLockouts slot hash now = some (t', newRoot)) :
    t'.voteState = t.voteState.processNextVoteSlot (t.voteState.uncheckedCall slot) := by
  obtain ⟨oldRoot, _, h⟩ := Option.bind_eq_some_iff.mp h
  rw [VoteState.processVoteUnchecked_single (isRecent_eq_true hrecent).1] at h
  obtain ⟨root, _, h⟩ := Option.bind_eq_some_iff.mp h
  have htower : updateLastVoteFromVoteState _ hash now = t' := congrArg Prod.fst (Option.some.inj h)
  rw [← htower, updateLastVote_voteState]

end Tower
end Consensus
end Hypergrid
