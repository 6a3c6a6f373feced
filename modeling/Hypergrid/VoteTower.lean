import Hypergrid.Account

/-!
# The vote tower

The model of `process_next_vote_slot` of `sdk/program/src/vote/state/mod.rs`: a vote pops the
expired votes from the top of the tower, moves the oldest vote to the root when the tower is
full, and raises the confirmation counts of the votes that are deep enough.

`Tower` is the invariant.  Its core is `enough`: a vote with `n` votes above it has more than
`n` confirmations.  `double_lockouts` raises exactly the counts that would break this, each
by one, and that keeps the counts strictly decreasing.

* `popExpiredVotes_kept`, `popExpiredVotes_top` : which votes stay.
* `voteTower_invariant` : the invariant after any votes, and the root never decreases.
-/

namespace Hypergrid
open List Option

def maxLockoutHistory : Nat := 31

def initialLockout : Nat := 2

def maxEpochCreditsHistory : Nat := 64

def voteCreditsGraceSlots : Nat := 2

def voteCreditsMaximumPerSlot : Nat := 16

def voteCreditsMaximumPerSlotOld : Nat := 8

structure Lockout where
  slot : Slot
  confirmationCount : Nat
deriving DecidableEq

namespace Lockout

def new (slot : Slot) : Lockout := { slot, confirmationCount := 1 }

/-- `lockout`; the power fits into 64 bits for the counts of a tower. -/
def lockout (l : Lockout) : Nat := initialLockout ^ l.confirmationCount

def lastLockedOutSlot (l : Lockout) : Slot := saturatingAdd l.slot l.lockout

def isLockedOutAtSlot (l : Lockout) (slot : Slot) : Bool := decide (slot ≤ l.lastLockedOutSlot)

def increaseConfirmationCount (l : Lockout) (n : Nat) : Lockout :=
  { l with confirmationCount := min (l.confirmationCount + n) (2 ^ 32 - 1) }

end Lockout

structure LandedVote where
  latency : Nat
  lockout : Lockout
deriving DecidableEq

/-- `VoteState`, as far as votes are concerned; the oldest vote is the first one. -/
structure VoteState where
  votes : List LandedVote
  rootSlot : Option Slot
  epochCredits : List (Epoch × Nat × Nat)
deriving DecidableEq

structure VoteCall where
  nextVoteSlot : Slot
  epoch : Epoch
  currentSlot : Slot
  timelyVoteCredits : Bool
  deprecateUnusedLegacyVotePlumbing : Bool
deriving DecidableEq

namespace VoteState

variable (s : VoteState)

def default : VoteState := { votes := [], rootSlot := none, epochCredits := [] }

def lastLockout : Option Lockout := s.votes.getLast?.map LandedVote.lockout

def lastVotedSlot : Option Slot := s.lastLockout.map Lockout.slot

def computeVoteLatency (votedForSlot currentSlot : Slot) : Nat :=
  min (currentSlot - votedForSlot) 255

def creditsForVoteAtIndex (index : Nat)
    (timelyVoteCredits deprecateUnusedLegacyVotePlumbing : Bool) : Nat :=
  let latency := ((s.votes[index]?).map LandedVote.latency).getD 0
  let maxCredits :=
    if deprecateUnusedLegacyVotePlumbing then voteCreditsMaximumPerSlot
    else voteCreditsMaximumPerSlotOld
  if latency = 0 ∨ deprecateUnusedLegacyVotePlumbing = true ∧ timelyVoteCredits = false then 1
  else if latency ≤ voteCreditsGraceSlots then maxCredits
  else if maxCredits ≤ latency - voteCreditsGraceSlots then 1
  else maxCredits - (latency - voteCreditsGraceSlots)

/-- The entry of the epoch, before its credits are added. -/
def openEpoch (epochCredits : List (Epoch × Nat × Nat)) (epoch : Epoch) :
    List (Epoch × Nat × Nat) :=
  match epochCredits.getLast? with
  | none => [(epoch, 0, 0)]
  | some (lastEpoch, credits, prevCredits) =>
    if epoch ≠ lastEpoch then
      let updated :=
        if credits ≠ prevCredits then epochCredits ++ [(epoch, credits, credits)]
        else epochCredits.dropLast ++ [(epoch, credits, prevCredits)]
      if maxEpochCreditsHistory < updated.length then updated.drop 1 else updated
    else epochCredits

def incrementCredits (epoch : Epoch) (credits : Nat) : VoteState :=
  let opened := openEpoch s.epochCredits epoch
  { s with
    epochCredits :=
      match opened.getLast? with
      | none => opened
      | some (e, c, p) => opened.dropLast ++ [(e, saturatingAdd c credits, p)] }

def popExpiredVotes (nextVoteSlot : Slot) : VoteState :=
  { s with votes := s.votes.rdropWhile (fun v => !v.lockout.isLockedOutAtSlot nextVoteSlot) }

/-- One vote of `double_lockouts`. -/
def doubleLockout (stackDepth i : Nat) (v : LandedVote) : LandedVote :=
  if i + v.lockout.confirmationCount < stackDepth then
    { v with lockout := v.lockout.increaseConfirmationCount 1 }
  else v

def doubleLockouts : VoteState :=
  { s with votes := s.votes.mapIdx (doubleLockout s.votes.length) }

/-- The oldest vote of a full tower becomes the root. -/
def moveRoot (c : VoteCall) : VoteState :=
  match s.votes with
  | [] => s
  | oldest :: votes =>
    if s.votes.length = maxLockoutHistory then
      let credits := s.creditsForVoteAtIndex 0 c.timelyVoteCredits
        c.deprecateUnusedLegacyVotePlumbing
      { s with votes, rootSlot := some oldest.lockout.slot }.incrementCredits c.epoch credits
    else s

/-- The vote that `process_next_vote_slot` pushes. -/
def landedVote (c : VoteCall) : LandedVote :=
  { latency :=
      if c.timelyVoteCredits || !c.deprecateUnusedLegacyVotePlumbing then
        computeVoteLatency c.nextVoteSlot c.currentSlot
      else 0
    lockout := Lockout.new c.nextVoteSlot }

def processNextVoteSlot (c : VoteCall) : VoteState :=
  if (s.lastVotedSlot.map (fun last => decide (c.nextVoteSlot ≤ last))).getD false then s
  else
    let s := (s.popExpiredVotes c.nextVoteSlot).moveRoot c
    { s with votes := s.votes ++ [landedVote c] }.doubleLockouts

def processVotes (calls : List VoteCall) : VoteState :=
  calls.foldl processNextVoteSlot s

end VoteState

/-- The invariant of the votes of a tower. -/
structure Tower (votes : List LandedVote) : Prop where
  increasing : votes.Pairwise (fun v w => v.lockout.slot < w.lockout.slot)
  decreasing : votes.Pairwise
    (fun v w => w.lockout.confirmationCount < v.lockout.confirmationCount)
  /-- a vote is confirmed by itself and by the votes above it -/
  enough : ∀ i v, votes[i]? = some v → votes.length ≤ i + v.lockout.confirmationCount
  counts : ∀ v ∈ votes, 1 ≤ v.lockout.confirmationCount ∧
    v.lockout.confirmationCount ≤ maxLockoutHistory
  /-- a vote was cast while the one below it was locked out -/
  lockedOut : votes.IsChain (fun v w => w.lockout.slot ≤ v.lockout.lastLockedOutSlot)
  bounded : votes.length ≤ maxLockoutHistory

namespace VoteState

/-- The invariant of a vote state: the tower, with the root below it. -/
structure Valid (s : VoteState) : Prop where
  tower : Tower s.votes
  root : ∀ r, s.rootSlot = some r → ∀ v ∈ s.votes, r < v.lockout.slot

/-- A state with a root has a vote. -/
def Rooted (s : VoteState) : Prop := ∀ r, s.rootSlot = some r → s.votes ≠ []

/-- The root of the second state is not below the one of the first. -/
def RootLe (s t : VoteState) : Prop :=
  ∀ r, s.rootSlot = some r → ∃ r', t.rootSlot = some r' ∧ r ≤ r'

end VoteState

section Steps
open VoteState
variable {votes : List LandedVote}
variable {v : LandedVote}

theorem Tower.of_prefix {votes' : List LandedVote} (h : Tower votes) (hpre : votes' <+: votes) :
    Tower votes' where
  increasing := h.increasing.sublist hpre.sublist
  decreasing := h.decreasing.sublist hpre.sublist
  enough := by
    intro i v hv
    have hlength := hpre.length_le
    have hvotes : votes[i]? = some v := by
      obtain ⟨rest, rfl⟩ := hpre
      rw [List.getElem?_append_left (List.getElem?_eq_some_iff.mp hv).1, hv]
    have := h.enough i v hvotes
    omega
  counts := fun v hv => h.counts v (hpre.subset hv)
  lockedOut := h.lockedOut.prefix hpre
  bounded := hpre.length_le.trans h.bounded

theorem Tower.tail (h : Tower (v :: votes)) : Tower votes where
  increasing := (pairwise_cons.mp h.increasing).2
  decreasing := (pairwise_cons.mp h.decreasing).2
  enough := by
    intro i w hw
    have := h.enough (i + 1) w hw
    rw [length_cons] at this
    omega
  counts := fun w hw => h.counts w (mem_cons_of_mem _ hw)
  lockedOut := h.lockedOut.tail
  bounded := by
    have := h.bounded
    rw [length_cons] at this
    omega

/-- A tower with a new vote on top, before the counts are raised: the new vote has the count
that its position asks for, and the others lack at most one. -/
structure Pushed (votes : List LandedVote) : Prop where
  increasing : votes.Pairwise (fun v w => v.lockout.slot < w.lockout.slot)
  decreasing : ∀ i j v w, i < j → votes[i]? = some v → votes[j]? = some w →
    w.lockout.confirmationCount < v.lockout.confirmationCount ∨
      j + w.lockout.confirmationCount = votes.length
  almost : ∀ i v, votes[i]? = some v → votes.length ≤ i + v.lockout.confirmationCount + 1
  counts : ∀ v ∈ votes, 1 ≤ v.lockout.confirmationCount ∧
    v.lockout.confirmationCount ≤ maxLockoutHistory
  lockedOut : votes.IsChain (fun v w => w.lockout.slot ≤ v.lockout.lastLockedOutSlot)
  bounded : votes.length ≤ maxLockoutHistory

theorem doubleLockout_slot (n i : Nat) (v : LandedVote) :
    (doubleLockout n i v).lockout.slot = v.lockout.slot := by
  unfold doubleLockout
  split_ifs <;> rfl

theorem doubleLockout_count {n : Nat} (i : Nat) (hn : n ≤ maxLockoutHistory) :
    (doubleLockout n i v).lockout.confirmationCount =
      if i + v.lockout.confirmationCount < n then v.lockout.confirmationCount + 1
      else v.lockout.confirmationCount := by
  unfold doubleLockout
  split_ifs with hraise
  · change min (v.lockout.confirmationCount + 1) (2 ^ 32 - 1) = _
    unfold maxLockoutHistory at hn
    omega
  · rfl

theorem lastLockedOutSlot_mono {l l' : Lockout} (hslot : l.slot = l'.slot)
    (hcount : l.confirmationCount ≤ l'.confirmationCount) :
    l.lastLockedOutSlot ≤ l'.lastLockedOutSlot := by
  have hpow : l.lockout ≤ l'.lockout := Nat.pow_le_pow_right (by decide) hcount
  unfold Lockout.lastLockedOutSlot saturatingAdd
  rw [hslot]
  exact min_le_min_right _ (Nat.add_le_add_left hpow _)

theorem Pushed.tower (h : Pushed votes) :
    Tower (votes.mapIdx (doubleLockout votes.length)) where
  increasing := by
    rw [pairwise_iff_getElem]
    intro i j hi hj hij
    simp only [length_mapIdx] at hi hj
    simp only [getElem_mapIdx, doubleLockout_slot]
    exact pairwise_iff_getElem.mp h.increasing i j hi hj hij
  decreasing := by
    rw [pairwise_iff_getElem]
    intro i j hi hj hij
    simp only [length_mapIdx] at hi hj
    simp only [getElem_mapIdx, doubleLockout_count _ h.bounded]
    have horder := h.decreasing i j votes[i] votes[j] hij (getElem?_eq_getElem hi)
      (getElem?_eq_getElem hj)
    have hi' := h.almost i votes[i] (getElem?_eq_getElem hi)
    split_ifs <;> omega
  enough := by
    intro i v hv
    rw [getElem?_mapIdx] at hv
    obtain ⟨w, hw, rfl⟩ := map_eq_some_iff.mp hv
    have hw' := h.almost i w hw
    rw [length_mapIdx, doubleLockout_count _ h.bounded]
    split_ifs <;> omega
  counts := by
    intro v hv
    obtain ⟨i, hi, rfl⟩ := mem_mapIdx.mp hv
    have hcounts := h.counts votes[i] (getElem_mem hi)
    have hbounded := h.bounded
    rw [doubleLockout_count _ h.bounded]
    split_ifs <;> omega
  lockedOut := by
    rw [isChain_iff_getElem]
    intro i hi
    simp only [length_mapIdx] at hi
    simp only [getElem_mapIdx, doubleLockout_slot]
    refine (isChain_iff_getElem.mp h.lockedOut i hi).trans
      (lastLockedOutSlot_mono (doubleLockout_slot _ _ _).symm ?_)
    rw [doubleLockout_count _ h.bounded]
    split_ifs <;> omega
  bounded := by
    rw [length_mapIdx]
    exact h.bounded

/-- A new vote on a tower that is not full, all of whose votes are older, and whose top vote
is locked out at the slot. -/
theorem Tower.push (h : Tower votes) {slot : Slot}
    (hv : v.lockout = Lockout.new slot) (hroom : votes.length < maxLockoutHistory)
    (holder : ∀ w ∈ votes, w.lockout.slot < slot)
    (htop : ∀ w ∈ votes.getLast?, slot ≤ w.lockout.lastLockedOutSlot) :
    Pushed (votes ++ [v]) := by
  have hslot : v.lockout.slot = slot := by rw [hv]; rfl
  have hcount : v.lockout.confirmationCount = 1 := by rw [hv]; rfl
  have hsplit : ∀ i w, (votes ++ [v])[i]? = some w →
      i < votes.length ∧ votes[i]? = some w ∨ i = votes.length ∧ w = v := by
    intro i w hw
    rcases Nat.lt_trichotomy i votes.length with hlt | heq | hgt
    · rw [getElem?_append_left hlt] at hw
      exact .inl ⟨hlt, hw⟩
    · subst heq
      simp only [getElem?_concat_length, some.injEq] at hw
      exact .inr ⟨rfl, hw.symm⟩
    · have hnone : (votes ++ [v])[i]? = none := by
        rw [getElem?_eq_none_iff, length_append, length_singleton]
        omega
      rw [hnone] at hw
      cases hw
  refine ⟨?_, ?_, ?_, ?_, ?_, ?_⟩
  · rw [pairwise_append]
    refine ⟨h.increasing, pairwise_singleton _ _, ?_⟩
    intro w hw x hx
    rw [mem_singleton.mp hx, hslot]
    exact holder w hw
  · intro i j x y hij hx hy
    rw [length_append, length_singleton]
    rcases hsplit j y hy with ⟨hj, hy⟩ | ⟨rfl, rfl⟩
    · rcases hsplit i x hx with ⟨hi, hx⟩ | ⟨hi, _⟩
      · obtain ⟨hi', rfl⟩ := List.getElem?_eq_some_iff.mp hx
        obtain ⟨hj', rfl⟩ := List.getElem?_eq_some_iff.mp hy
        exact .inl (List.pairwise_iff_getElem.mp h.decreasing i j hi' hj' hij)
      · omega
    · exact .inr (by rw [hcount])
  · intro i x hx
    rw [length_append, length_singleton]
    rcases hsplit i x hx with ⟨_, hx⟩ | ⟨rfl, _⟩
    · have := h.enough i x hx
      omega
    · omega
  · intro x hx
    rcases mem_append.mp hx with hx | hx
    · exact h.counts x hx
    · rw [mem_singleton.mp hx, hcount]
      decide
  · rw [isChain_append]
    refine ⟨h.lockedOut, isChain_singleton _, ?_⟩
    intro w hw x hx
    rw [head?_singleton, mem_def, some.injEq] at hx
    rw [← hx, hslot]
    exact htop w hw
  · rw [length_append, length_singleton]
    omega

end Steps

namespace VoteState

section Run
variable {s : VoteState} {c : VoteCall}

theorem popExpiredVotes_top (s : VoteState) (slot : Slot) :
    ∀ w ∈ (s.popExpiredVotes slot).votes.getLast?, slot ≤ w.lockout.lastLockedOutSlot := by
  intro w hw
  by_cases hnil : (s.popExpiredVotes slot).votes = []
  · rw [hnil] at hw
    cases hw
  · rw [getLast?_eq_some_getLast hnil, mem_def, some.injEq] at hw
    have hlast := rdropWhile_last_not _ s.votes hnil
    rw [Bool.not_eq_true, Bool.not_eq_false'] at hlast
    subst hw
    exact of_decide_eq_true hlast

theorem popExpiredVotes_kept (s : VoteState) (slot : Slot) :
    (s.popExpiredVotes slot).votes <+: s.votes :=
  rdropWhile_prefix _ _

theorem moveRoot_cases (s : VoteState) (c : VoteCall) :
    s.votes.length ≠ maxLockoutHistory ∧ s.moveRoot c = s ∨
      ∃ oldest votes, s.votes = oldest :: votes ∧ (s.moveRoot c).votes = votes ∧
        (s.moveRoot c).rootSlot = some oldest.lockout.slot := by
  unfold moveRoot
  cases hvotes : s.votes with
  | nil => exact .inl ⟨by decide, rfl⟩
  | cons oldest votes =>
    split_ifs with hfull
    · exact .inr ⟨oldest, votes, rfl, rfl, rfl⟩
    · exact .inl ⟨hfull, rfl⟩

/-- Moving the root makes room, and keeps the tower and the order of the root. -/
theorem moveRoot_spec (h : s.Valid) (c : VoteCall) :
    (s.moveRoot c).Valid ∧ (s.moveRoot c).votes.length < maxLockoutHistory ∧
      s.RootLe (s.moveRoot c) ∧ (s.moveRoot c).votes <:+ s.votes ∧
      ∀ r, (s.moveRoot c).rootSlot = some r →
        s.rootSlot = some r ∨ ∃ v ∈ s.votes, v.lockout.slot = r := by
  rcases moveRoot_cases s c with ⟨hroom, heq⟩ | ⟨oldest, votes, hvotes, hvotes', hroot⟩
  · rw [heq]
    refine ⟨h, lt_of_le_of_ne h.tower.bounded hroom, ?_, suffix_rfl, ?_⟩
    · exact fun r hr => ⟨r, hr, le_refl r⟩
    · exact fun r hr => .inl hr
  · have htower : Tower (oldest :: votes) := hvotes ▸ h.tower
    have hbelow := (pairwise_cons.mp htower.increasing).1
    refine ⟨⟨?_, ?_⟩, ?_, ?_, ?_, ?_⟩
    · rw [hvotes']
      exact htower.tail
    · intro r hr v hv
      rw [hroot, some.injEq] at hr
      rw [hvotes'] at hv
      rw [← hr]
      exact hbelow v hv
    · have hbounded := htower.bounded
      rw [hvotes']
      rw [length_cons] at hbounded
      omega
    · intro r hr
      refine ⟨_, hroot, Nat.le_of_lt (h.root r hr oldest ?_)⟩
      rw [hvotes]
      exact mem_cons_self
    · rw [hvotes', hvotes]
      exact suffix_cons _ _
    · intro r hr
      rw [hroot, some.injEq] at hr
      refine .inr ⟨oldest, ?_, hr⟩
      rw [hvotes]
      exact mem_cons_self

theorem lt_of_not_old (h : Tower s.votes)
    (hnew : ¬(s.lastVotedSlot.map (fun last => decide (c.nextVoteSlot ≤ last))).getD false = true) :
    ∀ w ∈ s.votes, w.lockout.slot < c.nextVoteSlot := by
  intro w hw
  have hne : s.votes ≠ [] := ne_nil_of_mem hw
  have hlast : (s.votes.getLast hne).lockout.slot < c.nextVoteSlot := by
    simpa [lastVotedSlot, lastLockout, getLast?_eq_some_getLast hne] using hnew
  have hsplit := dropLast_append_getLast hne
  rw [← hsplit] at hw
  rcases mem_append.mp hw with hw | hw
  · have hincreasing := h.increasing
    rw [← hsplit, pairwise_append] at hincreasing
    exact lt_trans (hincreasing.2.2 w hw _ (mem_singleton_self _)) hlast
  · rw [mem_singleton.mp hw]
    exact hlast

theorem root_lt_of_not_old (h : s.Valid) (hrooted : s.Rooted) {slot : Slot}
    (holder : ∀ w ∈ s.votes, w.lockout.slot < slot) {r : Slot} (hr : s.rootSlot = some r) :
    r < slot := by
  obtain ⟨v, hv⟩ := exists_mem_of_ne_nil _ (hrooted r hr)
  exact lt_trans (h.root r hr v hv) (holder v hv)

/-- One vote above the root keeps the invariant and does not lower the root. -/
theorem processNextVoteSlot_valid_of_root_lt (h : s.Valid)
    (hroot : (∀ w ∈ s.votes, w.lockout.slot < c.nextVoteSlot) →
      ∀ r, s.rootSlot = some r → r < c.nextVoteSlot) :
    (s.processNextVoteSlot c).Valid ∧ s.RootLe (s.processNextVoteSlot c) := by
  unfold processNextVoteSlot
  by_cases hold : (s.lastVotedSlot.map (fun last => decide (c.nextVoteSlot ≤ last))).getD
      false = true
  · rw [if_pos hold]
    exact ⟨h, fun r hr => ⟨r, hr, le_refl r⟩⟩
  · rw [if_neg hold]
    have holder := lt_of_not_old h.tower hold
    have hpre := popExpiredVotes_kept s c.nextVoteSlot
    have hpopped : (s.popExpiredVotes c.nextVoteSlot).Valid :=
      ⟨h.tower.of_prefix hpre, fun r hr v hv => h.root r hr v (hpre.subset hv)⟩
    obtain ⟨hvalid, hroom, hmoved, hsuffix, hfrom⟩ := moveRoot_spec hpopped c
    have htop := popExpiredVotes_top s c.nextVoteSlot
    generalize (s.popExpiredVotes c.nextVoteSlot).moveRoot c = t at *
    have holder' : ∀ w ∈ t.votes, w.lockout.slot < c.nextVoteSlot :=
      fun w hw => holder w (hpre.subset (hsuffix.subset hw))
    have htop' : ∀ w ∈ t.votes.getLast?, c.nextVoteSlot ≤ w.lockout.lastLockedOutSlot := by
      intro w hw
      refine htop w ?_
      obtain ⟨front, hfront⟩ := hsuffix
      rw [← hfront, getLast?_append, hw]
      rfl
    have hpushed : Pushed (t.votes ++ [landedVote c]) := hvalid.tower.push rfl hroom holder' htop'
    refine ⟨⟨hpushed.tower, ?_⟩, fun r hr => hmoved r hr⟩
    -- the root is an old root or an old vote, and the new vote is above both
    intro r hr v hv
    obtain ⟨i, hi, rfl⟩ := mem_mapIdx.mp hv
    rw [doubleLockout_slot]
    rcases mem_append.mp (getElem_mem hi) with hmem | hmem
    · exact hvalid.root r hr _ hmem
    · rw [mem_singleton.mp hmem]
      rcases hfrom r hr with hr | ⟨w, hw, rfl⟩
      · exact hroot holder r hr
      · exact holder w (hpre.subset hw)

theorem processNextVoteSlot_rooted (hrooted : s.Rooted) (c : VoteCall) :
    (s.processNextVoteSlot c).Rooted := by
  unfold processNextVoteSlot
  split_ifs
  · exact hrooted
  · intro r _
    rw [← length_pos_iff]
    change 0 < length (mapIdx _ (_ ++ [landedVote c]))
    rw [length_mapIdx, length_append, length_singleton]
    omega

theorem processNextVoteSlot_valid (h : s.Valid) (hrooted : s.Rooted) (c : VoteCall) :
    (s.processNextVoteSlot c).Valid ∧ (s.processNextVoteSlot c).Rooted ∧
      s.RootLe (s.processNextVoteSlot c) := by
  obtain ⟨hvalid, hle⟩ := processNextVoteSlot_valid_of_root_lt h
    (fun holder _ hr => root_lt_of_not_old h hrooted holder hr)
  exact ⟨hvalid, processNextVoteSlot_rooted hrooted c, hle⟩

theorem processVotes_valid (h : s.Valid) (hrooted : s.Rooted) (calls : List VoteCall) :
    (s.processVotes calls).Valid ∧ (s.processVotes calls).Rooted ∧
      s.RootLe (s.processVotes calls) := by
  induction calls generalizing s with
  | nil => exact ⟨h, hrooted, fun r hr => ⟨r, hr, le_refl r⟩⟩
  | cons c calls ih =>
    obtain ⟨hvalid, hrooted', hle⟩ := processNextVoteSlot_valid h hrooted c
    obtain ⟨hvalid', hrooted'', hle'⟩ := ih hvalid hrooted'
    refine ⟨hvalid', hrooted'', ?_⟩
    intro r hr
    obtain ⟨r', hr', hlt⟩ := hle r hr
    obtain ⟨r'', hr'', hlt'⟩ := hle' r' hr'
    exact ⟨r'', hr'', hlt.trans hlt'⟩

theorem default_valid : default.Valid where
  tower :=
    { increasing := .nil
      decreasing := .nil
      enough := fun _ _ h => absurd h (by simp [default])
      counts := fun _ h => absurd h not_mem_nil
      lockedOut := isChain_nil
      bounded := Nat.zero_le _ }
  root := fun _ h => absurd h (by simp [default])

theorem default_rooted : default.Rooted := fun _ h => absurd h (by simp [default])

end Run

/-- After any sequence of votes from the default state the votes form a tower with the root
below it, and further votes do not lower the root. -/
theorem voteTower_invariant (calls more : List VoteCall) :
    (default.processVotes calls).Valid ∧
      (default.processVotes calls).RootLe (default.processVotes (calls ++ more)) := by
  obtain ⟨hvalid, hrooted, _⟩ := processVotes_valid default_valid default_rooted calls
  refine ⟨hvalid, ?_⟩
  have happend : default.processVotes (calls ++ more) =
      (default.processVotes calls).processVotes more := foldl_append
  rw [happend]
  exact (processVotes_valid hvalid hrooted more).2.2

end VoteState
end Hypergrid
