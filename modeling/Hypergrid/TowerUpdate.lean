import Hypergrid.VoteUpdate

/-!
# Towers as vote state updates

A validator votes with `process_next_vote_slot` on its own tower and sends the tower from time to
time.  The vote program accepts every tower that the validator reaches after the one on chain,
however many votes lie between them.

* `processNextVoteSlot_cast` : what one vote makes of the votes of a tower.
* `Outlived.processVotes` : the fate of a vote over any number of votes.
* `processNewVoteState_tower` : the update with a later tower is accepted and stored.
-/

namespace Hypergrid
open LandedVote List Option

namespace VoteState

section Cast
variable {s t : VoteState} {c : VoteCall}
variable {v : LandedVote}

/-- What one vote makes of the votes of a tower: `kept` are the votes that are neither expired
nor moved to the root. -/
structure Cast (s : VoteState) (c : VoteCall) (kept : List LandedVote) (t : VoteState) : Prop where
  kept_subset : ∀ v ∈ kept, v ∈ s.votes
  /-- counts do not fall -/
  kept_votes : ∀ v ∈ kept, ∃ v' ∈ t.votes, v'.slot = v.slot ∧
    v.confirmationCount ≤ v'.confirmationCount
  votes : ∀ v' ∈ t.votes, v'.slot = c.nextVoteSlot ∨ ∃ v ∈ kept, v'.slot = v.slot
  last : t.lastVotedSlot = some c.nextVoteSlot
  /-- a vote that is not kept is rooted or expired, and then no vote above it is kept -/
  gone : ∀ v ∈ s.votes, v ∈ kept ∨ t.rootSlot = some v.slot ∨
    v.lockout.lastLockedOutSlot < c.nextVoteSlot ∧ ∀ w ∈ kept, w.slot < v.slot

/-- The votes that `pop_expired_votes` pops are expired, and above the others. -/
theorem popExpiredVotes_gone (h : Tower s.votes) (slot : Slot) (hv : v ∈ s.votes) :
    v ∈ (s.popExpiredVotes slot).votes ∨ v.lockout.lastLockedOutSlot < slot ∧
        ∀ w ∈ (s.popExpiredVotes slot).votes, w.slot < v.slot := by
  have hsplit : (s.popExpiredVotes slot).votes ++
      s.votes.rtakeWhile (fun v => !v.lockout.isLockedOutAtSlot slot) = s.votes :=
    rdropWhile_append_rtakeWhile
  have hincreasing := h.increasing
  rw [← hsplit, pairwise_append] at hincreasing
  rw [← hsplit] at hv
  rcases mem_append.mp hv with hv | hv
  · exact .inl hv
  · have hpopped := mem_rtakeWhile_imp hv
    rw [Bool.not_eq_true', Lockout.isLockedOutAtSlot, decide_eq_false_iff_not] at hpopped
    exact .inr ⟨Nat.lt_of_not_le hpopped, fun w hw => hincreasing.2.2 w hw v hv⟩

theorem moveRoot_gone (c : VoteCall) (hv : v ∈ s.votes) :
    v ∈ (s.moveRoot c).votes ∨ (s.moveRoot c).rootSlot = some v.slot := by
  rcases moveRoot_cases s c with ⟨_, heq⟩ | ⟨oldest, votes, hvotes, hvotes', hroot⟩
  · rw [heq]
    exact .inl hv
  · rw [hvotes] at hv
    rw [hvotes', hroot]
    rcases mem_cons.mp hv with rfl | hv
    · exact .inr rfl
    · exact .inl hv

theorem moveRoot_subset (s : VoteState) (c : VoteCall) :
    ∀ v ∈ (s.moveRoot c).votes, v ∈ s.votes := by
  intro v hv
  rcases moveRoot_cases s c with ⟨_, heq⟩ | ⟨oldest, votes, hvotes, hvotes', _⟩
  · rwa [heq] at hv
  · rw [hvotes'] at hv
    rw [hvotes]
    exact mem_cons_of_mem _ hv

theorem le_doubleLockout_count (n i : Nat) (hv : v.confirmationCount ≤ maxLockoutHistory) :
    v.confirmationCount ≤ (doubleLockout n i v).confirmationCount := by
  unfold doubleLockout
  split_ifs
  · change v.confirmationCount ≤ min (v.confirmationCount + 1) (2 ^ 32 - 1)
    unfold maxLockoutHistory at hv
    omega
  · exact le_refl _

theorem processNextVoteSlot_cast (h : Tower s.votes)
    (hnew : ∀ w ∈ s.votes, w.slot < c.nextVoteSlot) :
    ∃ kept, Cast s c kept (s.processNextVoteSlot c) := by
  have hfresh : ¬(s.lastVotedSlot.map (fun last => decide (c.nextVoteSlot ≤ last))).getD
      false = true := by
    cases hlast : s.votes.getLast? with
    | none => simp [lastVotedSlot, lastLockout, hlast]
    | some w =>
      have hw := hnew w (mem_of_getLast? hlast)
      simpa [lastVotedSlot, lastLockout, hlast] using hw
  have hpre := popExpiredVotes_kept s c.nextVoteSlot
  have hmoved := (s.popExpiredVotes c.nextVoteSlot).moveRoot_subset c
  have hgone : ∀ v ∈ s.votes, _ := fun v hv => popExpiredVotes_gone h c.nextVoteSlot hv
  have hroot : ∀ v ∈ (s.popExpiredVotes c.nextVoteSlot).votes, _ := fun v hv =>
    moveRoot_gone c hv
  unfold processNextVoteSlot
  rw [if_neg hfresh]
  generalize (s.popExpiredVotes c.nextVoteSlot).moveRoot c = t at *
  refine ⟨t.votes, fun v hv => hpre.subset (hmoved v hv), ?_, ?_, ?_, ?_⟩
  · intro v hv
    obtain ⟨i, hi, rfl⟩ := getElem_of_mem (mem_append_left [landedVote c] hv)
    refine ⟨doubleLockout _ i _, mem_mapIdx.mpr ⟨i, hi, rfl⟩, doubleLockout_slot _ _ _,
      le_doubleLockout_count _ _ ?_⟩
    exact (h.counts _ (hpre.subset (hmoved _ hv))).2
  · intro v hv
    obtain ⟨i, hi, rfl⟩ := mem_mapIdx.mp hv
    rw [slot, doubleLockout_slot]
    rcases mem_append.mp (getElem_mem hi) with hmem | hmem
    · exact .inr ⟨_, hmem, rfl⟩
    · rw [mem_singleton.mp hmem]
      exact .inl rfl
  · unfold lastVotedSlot lastLockout doubleLockouts
    simp only [getLast?_eq_getElem?, length_mapIdx, getElem?_mapIdx, length_append,
      length_singleton, Nat.add_sub_cancel, getElem?_concat_length, map_some, doubleLockout_slot]
    rfl
  · intro v hv
    rcases hgone v hv with hv | ⟨hexpired, habove⟩
    · exact (hroot v hv).imp id .inl
    · exact .inr (.inr ⟨hexpired, fun w hw => habove w (hmoved w hw)⟩)

end Cast

variable {s : VoteState} {old : LandedVote} {R : Slot → Slot → Prop}
variable {calls : List VoteCall}

/-- What has become of a vote of an earlier tower: it is alive with at least its confirmations,
or the root has passed it, or it is expired: the votes above it were cast after its lockout.  The
relation says when a root has passed a vote. -/
inductive Outlived (R : Slot → Slot → Prop) (old : LandedVote) (s : VoteState) : Prop where
  | alive (v : LandedVote) (hv : v ∈ s.votes) (hslot : v.slot = old.slot)
      (hcount : old.confirmationCount ≤ v.confirmationCount)
  | rooted (r : Slot) (hroot : s.rootSlot = some r) (hpassed : R old.slot r)
  | expired (habsent : ∀ v ∈ s.votes, v.slot ≠ old.slot)
      (hlater : ∀ v ∈ s.votes, old.slot < v.slot → old.lockout.lastLockedOutSlot < v.slot)
      (last : Slot) (hlast : s.lastVotedSlot = some last) (hslot : old.slot ≤ last)
      (hlock : old.lockout.lastLockedOutSlot < last)

theorem lt_of_last_lt (h : Tower s.votes) {slot : Slot}
    (hnew : ∀ last, s.lastVotedSlot = some last → last < slot) :
    ∀ w ∈ s.votes, w.slot < slot := by
  intro w hw
  obtain ⟨front, v, hvotes⟩ := (eq_nil_or_concat' s.votes).resolve_left
    (ne_nil_of_mem hw)
  have hv : v.slot < slot := hnew v.slot (by simp [lastVotedSlot, lastLockout, hvotes])
  have hincreasing := h.increasing
  rw [hvotes, pairwise_append] at hincreasing
  rw [hvotes] at hw
  rcases mem_append.mp hw with hw | hw
  · exact lt_trans (hincreasing.2.2 w hw v (mem_singleton_self v)) hv
  · exact mem_singleton.mp hw ▸ hv

theorem Outlived.processNextVoteSlot (h : Tower s.votes) {c : VoteCall}
    (hnew : ∀ last, s.lastVotedSlot = some last → last < c.nextVoteSlot)
    (hrefl : R old.slot old.slot)
    (hroot : ∀ r, s.rootSlot = some r → R old.slot r →
      ∃ r', (s.processNextVoteSlot c).rootSlot = some r' ∧ R old.slot r')
    (hold : Outlived R old s) : Outlived R old (s.processNextVoteSlot c) := by
  have hnewer := lt_of_last_lt h hnew
  obtain ⟨kept, hcast⟩ := processNextVoteSlot_cast h hnewer
  cases hold with
  | alive v hv hslot hcount =>
    rcases hcast.gone v hv with hkept | hmoved | ⟨hexpired, habove⟩
    · obtain ⟨v', hv', hslot', hcount'⟩ := hcast.kept_votes v hkept
      exact .alive v' hv' (hslot'.trans hslot) (hcount.trans hcount')
    · exact .rooted v.slot hmoved (hslot ▸ hrefl)
    · have hlock := lt_of_le_of_lt (lastLockedOutSlot_mono hslot.symm hcount) hexpired
      have hslot' : old.slot < c.nextVoteSlot := hslot ▸ hnewer v hv
      refine .expired ?_ ?_ c.nextVoteSlot hcast.last (le_of_lt hslot') hlock
      · intro v' hv'
        rcases hcast.votes v' hv' with heq | ⟨w, hw, heq⟩
        · exact heq ▸ ne_of_gt hslot'
        · exact heq ▸ hslot ▸ ne_of_lt (habove w hw)
      · intro v' hv' hlt
        rcases hcast.votes v' hv' with heq | ⟨w, hw, heq⟩
        · exact heq ▸ hlock
        · exact absurd (habove w hw) (by rw [← heq, hslot]; exact lt_asymm hlt)
  | rooted r hr hpassed =>
    obtain ⟨r', hr', hpassed'⟩ := hroot r hr hpassed
    exact .rooted r' hr' hpassed'
  | expired habsent hlater last hlast hslot hlock =>
    have hlt := hnew last hlast
    refine .expired ?_ ?_ c.nextVoteSlot hcast.last (hslot.trans (le_of_lt hlt))
      (lt_trans hlock hlt)
    · intro v' hv'
      rcases hcast.votes v' hv' with heq | ⟨w, hw, heq⟩
      · exact heq ▸ ne_of_gt (lt_of_le_of_lt hslot hlt)
      · exact heq ▸ habsent w (hcast.kept_subset w hw)
    · intro v' hv' hv
      rcases hcast.votes v' hv' with heq | ⟨w, hw, heq⟩
      · exact heq ▸ lt_trans hlock hlt
      · exact heq ▸ hlater w (hcast.kept_subset w hw) (heq ▸ hv)

theorem lastVotedSlot_processNextVoteSlot (h : Tower s.votes) {c : VoteCall}
    (hnew : ∀ last, s.lastVotedSlot = some last → last < c.nextVoteSlot) :
    (s.processNextVoteSlot c).lastVotedSlot = some c.nextVoteSlot := by
  obtain ⟨kept, hcast⟩ := processNextVoteSlot_cast h (lt_of_last_lt h hnew)
  exact hcast.last

section Valid
variable (h : s.Valid)
variable (hrooted : s.Rooted)
variable (hcalls : calls.Pairwise (fun c d => c.nextVoteSlot < d.nextVoteSlot))
include h hrooted hcalls

theorem lastVotedSlot_processVotes
    (hnew : ∀ last, s.lastVotedSlot = some last → ∀ c ∈ calls, last < c.nextVoteSlot) :
    (s.processVotes calls).lastVotedSlot =
      (calls.getLast?.map VoteCall.nextVoteSlot).or s.lastVotedSlot := by
  induction calls generalizing s with
  | nil => rfl
  | cons c calls ih =>
    have hlast := lastVotedSlot_processNextVoteSlot h.tower
      (fun last hlast => hnew last hlast c mem_cons_self)
    obtain ⟨hvalid, hrooted', _⟩ := processNextVoteSlot_valid h hrooted c
    obtain ⟨hhead, htail⟩ := pairwise_cons.mp hcalls
    have hrun := ih hvalid hrooted' htail (fun last hlast' d hd => by
      rw [hlast, some.injEq] at hlast'
      exact hlast' ▸ hhead d hd)
    refine hrun.trans ?_
    rw [hlast, getLast?_cons]
    cases calls.getLast? <;> rfl

theorem Outlived.processVotes
    (hnew : ∀ last, s.lastVotedSlot = some last → ∀ c ∈ calls, last < c.nextVoteSlot)
    (hold : Outlived (· ≤ ·) old s) : Outlived (· ≤ ·) old (s.processVotes calls) := by
  induction calls generalizing s with
  | nil => exact hold
  | cons c calls ih =>
    have hc : ∀ last, s.lastVotedSlot = some last → last < c.nextVoteSlot :=
      fun last hlast => hnew last hlast c mem_cons_self
    have hlast := lastVotedSlot_processNextVoteSlot h.tower hc
    obtain ⟨hvalid, hrooted', hle⟩ := processNextVoteSlot_valid h hrooted c
    obtain ⟨hhead, htail⟩ := pairwise_cons.mp hcalls
    have hstep : Outlived (· ≤ ·) old (s.processNextVoteSlot c) := by
      refine hold.processNextVoteSlot h.tower hc (le_refl _) fun r hr hpassed => ?_
      obtain ⟨r', hr', hle'⟩ := hle r hr
      exact ⟨r', hr', le_trans hpassed hle'⟩
    refine ih hvalid hrooted' htail ?_ hstep
    intro last hlast' d hd
    rw [hlast, some.injEq] at hlast'
    exact hlast' ▸ hhead d hd

end Valid

/-- The tower after `k` votes is reached from the tower after `j` votes. -/
theorem processVotes_take (calls : List VoteCall) {j k : Nat} (hjk : j ≤ k) :
    default.processVotes (calls.take k) =
      (default.processVotes (calls.take j)).processVotes ((calls.drop j).take (k - j)) := by
  have hsplit : calls.take k = calls.take j ++ (calls.drop j).take (k - j) := by
    rw [← take_add, Nat.add_sub_cancel' hjk]
  rw [hsplit]
  exact foldl_append

variable (hcalls : calls.Pairwise (fun c d => c.nextVoteSlot < d.nextVoteSlot))
include hcalls

theorem lastVotedSlot_take (k : Nat) :
    (default.processVotes (calls.take k)).lastVotedSlot =
      (calls.take k).getLast?.map VoteCall.nextVoteSlot := by
  have hlast := lastVotedSlot_processVotes default_valid default_rooted
    (hcalls.sublist (take_sublist k calls))
    (fun _ hlast => absurd hlast (by simp [default, lastVotedSlot, lastLockout]))
  rw [hlast]
  exact or_none

/-- The towers of one validator: a vote of the tower after `j` votes, seen from the tower after
`k` votes. -/
theorem outlived_take {j k : Nat} (hjk : j ≤ k)
    (hold : old ∈ (default.processVotes (calls.take j)).votes) :
    Outlived (· ≤ ·) old (default.processVotes (calls.take k)) := by
  obtain ⟨hvalid, hrooted, _⟩ := processVotes_valid default_valid default_rooted (calls.take j)
  have hordered := hcalls
  rw [← take_append_drop j calls, pairwise_append] at hordered
  have hlater := hordered.2.1.sublist (take_sublist (k - j) (calls.drop j))
  rw [processVotes_take calls hjk]
  refine Outlived.processVotes hvalid hrooted hlater ?_ (.alive old hold rfl (le_refl _))
  intro last hlast c hc
  rw [lastVotedSlot_take hcalls] at hlast
  obtain ⟨d, hd, rfl⟩ := map_eq_some_iff.mp hlast
  exact hordered.2.2 d (mem_of_getLast? hd) c (mem_of_mem_take hc)

end VoteState

namespace ChainVoteState
open VoteState

theorem newTower_of_valid {s : VoteState} (h : s.Valid) : NewTower s.rootSlot s.votes where
  counts := h.tower.counts
  aboveRoot := fun r hr _ => h.root r hr
  chain := by
    rw [isChain_iff_getElem]
    intro i hi
    exact ⟨pairwise_iff_getElem.mp h.tower.increasing i (i + 1) _ hi (Nat.lt_succ_self i),
      pairwise_iff_getElem.mp h.tower.decreasing i (i + 1) _ hi (Nat.lt_succ_self i),
      isChain_iff_getElem.mp h.tower.lockedOut i hi⟩

theorem NewTower.of_lockouts {votes votes' : List LandedVote} {newRoot : Option Slot}
    (h : votes.map lockout = votes'.map lockout)
    (htower : NewTower newRoot votes') : NewTower newRoot votes where
  counts := by
    intro v hv
    obtain ⟨w, hw, hlockout⟩ := mem_of_lockouts h hv
    have hcounts := htower.counts w hw
    rwa [confirmationCount, hlockout] at hcounts
  aboveRoot := by
    intro r hr hzero v hv
    obtain ⟨w, hw, hlockout⟩ := mem_of_lockouts h hv
    have habove := htower.aboveRoot r hr hzero w hw
    rwa [slot, hlockout] at habove
  chain := by
    have hchain := (isChain_map (R := fun l l' : Lockout => l.slot < l'.slot ∧
      l'.confirmationCount < l.confirmationCount ∧ l'.slot ≤ l.lastLockedOutSlot)
      lockout).mpr htower.chain
    rw [← h] at hchain
    exact (isChain_map lockout).mp hchain

/-- A vote program that holds the tower after `j` votes accepts the tower after `k` votes. -/
theorem accepts_take {calls : List VoteCall}
    (hcalls : calls.Pairwise (fun c d => c.nextVoteSlot < d.nextVoteSlot)) {j k : Nat}
    (hjk : j ≤ k) {s : ChainVoteState} {newState : List LandedVote}
    (hvotes : s.votes.map lockout = (default.processVotes (calls.take j)).votes.map lockout)
    (hroot : s.rootSlot = (default.processVotes (calls.take j)).rootSlot)
    (hnew : newState.map lockout = (default.processVotes (calls.take k)).votes.map lockout) :
    s.Accepts newState (default.processVotes (calls.take k)).rootSlot := by
  obtain ⟨hvalid, _⟩ := processVotes_valid default_valid default_rooted (calls.take k)
  refine ⟨?_, ?_, NewTower.of_lockouts hnew (newTower_of_valid hvalid), ?_⟩
  · rw [← length_map lockout, hnew, length_map]
    exact hvalid.tower.bounded
  · obtain ⟨hearlier, hrooted, _⟩ := processVotes_valid default_valid default_rooted (calls.take j)
    rw [hroot, processVotes_take calls hjk]
    exact (processVotes_valid hearlier hrooted _).2.2
  · intro old hold habove
    obtain ⟨w, hw, hlockout⟩ := mem_of_lockouts hvotes hold
    have hslot : w.slot = old.slot := congrArg Lockout.slot hlockout
    refine Respects.of_lockouts hnew ?_
    cases outlived_take hcalls hjk hw with
    | alive v hv hslot' hcount =>
      refine .inl ⟨v, hv, hslot'.trans hslot, ?_⟩
      rwa [confirmationCount, hlockout] at hcount
    | rooted r hr hle =>
      exact absurd (habove r hr) (not_lt_of_ge (hslot ▸ hle))
    | expired habsent hlater last hlast hle hlock =>
      rw [hslot] at habsent hlater
      rw [hlockout] at hlater
      exact .inr ⟨habsent, hlater⟩

/-- The vote program agrees with the tower of a validator: it accepts the tower after `k` votes
when it holds the one after fewer votes, and stores it. -/
theorem processNewVoteState_tower {calls : List VoteCall}
    (hcalls : calls.Pairwise (fun c d => c.nextVoteSlot < d.nextVoteSlot)) {j k : Nat}
    (hjk : j < k) (hk : k ≤ calls.length) {s : ChainVoteState}
    (hvotes : s.votes.map LandedVote.lockout =
      (default.processVotes (calls.take j)).votes.map LandedVote.lockout)
    (hroot : s.rootSlot = (default.processVotes (calls.take j)).rootSlot)
    {newState : List LandedVote}
    (hnew : newState.map LandedVote.lockout =
      (default.processVotes (calls.take k)).votes.map LandedVote.lockout)
    {timestamp : Option Int}
    (htime : ∀ last, (default.processVotes (calls.take k)).lastVotedSlot = some last →
      ∃ t, s.recordTimestamp last timestamp = .ok t)
    (epoch : Epoch) (currentSlot : Slot) (features : VoteFeatures) :
    ∃ t, s.processNewVoteState newState (default.processVotes (calls.take k)).rootSlot timestamp
        epoch currentSlot features = some (.ok t) ∧
      t.votes.map LandedVote.lockout =
        (default.processVotes (calls.take k)).votes.map LandedVote.lockout ∧
      t.rootSlot = (default.processVotes (calls.take k)).rootSlot := by
  have haccepts := accepts_take hcalls (le_of_lt hjk) hvotes hroot hnew
  have hs : s.votes.Pairwise (fun v w => v.slot < w.slot) := by
    obtain ⟨hvalid, _⟩ := processVotes_valid default_valid default_rooted (calls.take j)
    exact pairwise_of_lockouts hvotes (R := fun l l' => l.slot < l'.slot) hvalid.tower.increasing
  -- the last vote of the new tower is the last of the calls
  have hlast := lastVotedSlot_take hcalls k
  obtain ⟨c, hc⟩ : ∃ c, (calls.take k).getLast? = some c := by
    refine ne_none_iff_exists'.mp fun hnone => ?_
    have hlength := congrArg length (getLast?_eq_none_iff.mp hnone)
    rw [length_take, length_nil] at hlength
    omega
  rw [hc] at hlast
  obtain ⟨last, hlastNew, hslot⟩ : ∃ last, newState.getLast? = some last ∧
      last.slot = c.nextVoteSlot := by
    have hmap : newState.getLast?.map lockout =
        (default.processVotes (calls.take k)).lastLockout := by
      rw [← getLast?_map, hnew, getLast?_map]
      rfl
    obtain ⟨l, hl, hslot⟩ := map_eq_some_iff.mp hlast
    obtain ⟨last, hlastNew, rfl⟩ := map_eq_some_iff.mp (hmap.trans hl)
    exact ⟨last, hlastNew, hslot⟩
  obtain ⟨t, ht⟩ : ∃ t, s.processNewVoteState newState _ timestamp epoch currentSlot features =
      some (.ok t) :=
    processNewVoteState_isOk hs haccepts hlastNew (hslot ▸ htime _ hlast) epoch currentSlot
  obtain ⟨_, _, hroot', hstored⟩ := processNewVoteState_ok hs ht
  exact ⟨t, ht, hstored.trans hnew, hroot'⟩

/-- Votes for the slots 1, 2 and 10; the third one pops the others. -/
def votesToTen : List VoteCall :=
  [1, 2, 10].map fun slot => ⟨slot, 0, slot + 1, true, true⟩

/-- The tower after two of the votes, on chain. -/
def chainOfTwo : ChainVoteState where
  toVoteState := default.processVotes (votesToTen.take 2)
  lastTimestamp := ⟨0, 0⟩

theorem processNewVoteState_tower_ten :
    ∃ t, chainOfTwo.processNewVoteState (default.processVotes votesToTen).votes none none 0 11
        ⟨true, true⟩ = some (.ok t) ∧
      t.votes.map LandedVote.lockout = [⟨10, 1⟩] ∧ t.rootSlot = none :=
  processNewVoteState_tower (by decide : votesToTen.Pairwise _) (by decide : 2 < 3) (by decide)
    rfl rfl rfl (fun _ _ => ⟨_, rfl⟩) 0 11 ⟨true, true⟩

end ChainVoteState
end Hypergrid
