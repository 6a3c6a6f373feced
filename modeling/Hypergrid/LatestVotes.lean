import Hypergrid.ForkChoice
import Hypergrid.Lib.GuardedRun

/-!
# The latest votes for fork choice

The model of `check_add_vote` and `take_votes_dirty_set` of
`core/src/consensus/latest_validator_votes_for_frozen_banks.rs`.  The calls are the events of a
machine that also records which replay votes were accepted since the last take.

A second hash for the latest slot of a key goes to the entry of the key in the dirty set.  After a
take there is no such entry, and `or_default` makes one for slot 0.

* `Due` : the votes that a take should hand out.
* `handsOut_iff` : when it hands out these votes.
-/

namespace Hypergrid
open List Option

structure LatestValidatorVotesForFrozenBanks where
  maxGossipFrozenVotes : AList (fun _ : Pubkey => Slot × List Hash) := ∅
  maxReplayFrozenVotes : AList (fun _ : Pubkey => Slot × List Hash) := ∅
  forkChoiceDirtySet : AList (fun _ : Pubkey => Slot × List Hash) := ∅

namespace LatestValidatorVotesForFrozenBanks

variable (votes : LatestValidatorVotesForFrozenBanks) (votePubkey : Pubkey)

/-- The entry of a key in the map that the vote belongs to, and in the dirty set if the vote is
one from replay. -/
def setEntries (isReplayVote : Bool) (entry dirty : Slot × List Hash) :
    LatestValidatorVotesForFrozenBanks :=
  if isReplayVote then
    { votes with
      maxReplayFrozenVotes := votes.maxReplayFrozenVotes.insert votePubkey entry
      forkChoiceDirtySet := votes.forkChoiceDirtySet.insert votePubkey dirty }
  else { votes with maxGossipFrozenVotes := votes.maxGossipFrozenVotes.insert votePubkey entry }

/-- `check_add_vote`; the result is `none` if its assertion fails. -/
def checkAddVote (voteSlot : Slot) (frozenHash : Option Hash) (isReplayVote : Bool) :
    Option (LatestValidatorVotesForFrozenBanks × Bool × Option Slot) :=
  let voteMap := if isReplayVote then votes.maxReplayFrozenVotes else votes.maxGossipFrozenVotes
  match frozenHash, voteMap.lookup votePubkey with
  | some frozenHash, some (latestSlot, latestHashes) =>
    if latestSlot < voteSlot then
      some (votes.setEntries votePubkey isReplayVote (voteSlot, [frozenHash])
        (voteSlot, [frozenHash]), true, some voteSlot)
    else if voteSlot = latestSlot ∧ frozenHash ∉ latestHashes then
      let dirty := (votes.forkChoiceDirtySet.lookup votePubkey).getD (0, [])
      if isReplayVote ∧ frozenHash ∈ dirty.2 then none
      else
        some (votes.setEntries votePubkey isReplayVote (latestSlot, latestHashes ++ [frozenHash])
          (dirty.1, dirty.2 ++ [frozenHash]), true, some voteSlot)
    else some (votes, false, some latestSlot)
  | some frozenHash, none =>
    some (votes.setEntries votePubkey isReplayVote (voteSlot, [frozenHash])
      (voteSlot, [frozenHash]), true, some voteSlot)
  | none, entry => some (votes, false, entry.map Prod.fst)

def takeVotesDirtySet (root : Slot) :
    LatestValidatorVotesForFrozenBanks × List (Pubkey × SlotHashKey) :=
  ({ votes with forkChoiceDirtySet := ∅ },
    (votes.forkChoiceDirtySet.entries.filter (fun x => decide (root ≤ x.2.1))).flatMap
      (fun x => x.2.2.map (fun hash => (x.1, ⟨x.2.1, hash⟩))))

end LatestValidatorVotesForFrozenBanks

/-- The votes, with the replay votes that were accepted since the last take, and the latest slots
at that take. -/
structure VoteHistory extends LatestValidatorVotesForFrozenBanks where
  accepted : Pubkey → List SlotHashKey := fun _ => []
  before : Pubkey → Option Slot := fun _ => none

inductive FrozenVoteCall where
  | checkAddVote (votePubkey : Pubkey) (voteSlot : Slot) (frozenHash : Option Hash)
      (isReplayVote : Bool)
  | takeVotesDirtySet (root : Slot)

namespace VoteHistory
open LatestValidatorVotesForFrozenBanks

def latest (s : VoteHistory) (pk : Pubkey) : Option (Slot × List Hash) :=
  s.maxReplayFrozenVotes.lookup pk

def dirty (s : VoteHistory) (pk : Pubkey) : Option (Slot × List Hash) :=
  s.forkChoiceDirtySet.lookup pk

def step (s : VoteHistory) : FrozenVoteCall → Option VoteHistory
  | .checkAddVote pk slot frozenHash isReplayVote =>
    (s.checkAddVote pk slot frozenHash isReplayVote).map fun r =>
      { s with
        toLatestValidatorVotesForFrozenBanks := r.1
        accepted := if r.2.1 ∧ isReplayVote then
            Function.update s.accepted pk
              (s.accepted pk ++ (frozenHash.map (SlotHashKey.mk slot)).toList)
          else s.accepted }
  | .takeVotesDirtySet root => some
      { toLatestValidatorVotesForFrozenBanks := (s.takeVotesDirtySet root).1
        accepted := fun _ => []
        before := fun pk => (s.latest pk).map Prod.fst }

/-- A take with this root should hand out the vote. -/
def Due (s : VoteHistory) (root : Slot) (pk : Pubkey) (v : SlotHashKey) : Prop :=
  v ∈ s.accepted pk ∧ root ≤ v.slot ∧ ∀ w ∈ s.accepted pk, w.slot ≤ v.slot

/-- A take hands out exactly the votes that are due. -/
def HandsOut (s : VoteHistory) (root : Slot) : Prop :=
  ∀ pk v, (pk, v) ∈ (s.takeVotesDirtySet root).2 ↔ s.Due root pk v

/-- How the entries of a key belong to its accepted votes: there is no new vote, or the dirty entry
has the new hashes of the latest slot, with slot 0 if the slot was the latest one already. -/
inductive Tracks (accepted : List SlotHashKey) (before : Option Slot) :
    Option (Slot × List Hash) → Option (Slot × List Hash) → Prop
  | idle {latest : Option (Slot × List Hash)} (haccepted : accepted = [])
      (hbefore : before = latest.map Prod.fst) : Tracks accepted before latest none
  | busy {slot : Slot} {hashes new : List Hash} (hnew : new ⊆ hashes) (hne : new ≠ [])
      (hbefore : ∀ b, before = some b → b ≤ slot) (htop : ∀ v ∈ accepted, v.slot ≤ slot)
      (hhashes : ∀ hash, ⟨slot, hash⟩ ∈ accepted ↔ hash ∈ new) :
      Tracks accepted before (some (slot, hashes))
        (some (if before = some slot then 0 else slot, new))

section Tracks
variable {accepted : List SlotHashKey} {before : Option Slot}
  {latest dirty : Option (Slot × List Hash)}
variable {slot : Slot} {hashes : List Hash} {hash : Hash}

theorem Tracks.le_latest (h : Tracks accepted before latest dirty)
    (hlatest : latest = some (slot, hashes)) :
    (∀ b, before = some b → b ≤ slot) ∧ ∀ v ∈ accepted, v.slot ≤ slot := by
  cases h with
  | idle haccepted hbefore =>
    rw [haccepted, hbefore, hlatest]
    exact ⟨fun b hb => (some.inj hb).ge, fun v hv => absurd hv not_mem_nil⟩
  | busy _ _ hbefore htop _ =>
    cases hlatest
    exact ⟨hbefore, htop⟩

theorem Tracks.of_none (h : Tracks accepted before latest dirty) (hlatest : latest = none) :
    before = none ∧ accepted = [] := by
  cases h with
  | idle haccepted hbefore =>
    rw [hlatest, map_none] at hbefore
    exact ⟨hbefore, haccepted⟩
  | busy => cases hlatest

theorem Tracks.newSlot (hbefore : ∀ b, before = some b → b < slot)
    (htop : ∀ v ∈ accepted, v.slot < slot) (hash : Hash) :
    Tracks (accepted ++ [⟨slot, hash⟩]) before (some (slot, [hash])) (some (slot, [hash])) := by
  have hne : before ≠ some slot := fun h => (hbefore slot h).ne rfl
  have h : Tracks (accepted ++ [⟨slot, hash⟩]) before (some (slot, [hash]))
      (some (if before = some slot then 0 else slot, [hash])) := by
    refine .busy (Subset.refl _) (cons_ne_nil _ _)
      (fun b hb => (hbefore b hb).le) ?_ fun hash' => ?_
    · rw [forall_mem_append, forall_mem_singleton]
      exact ⟨fun v hv => (htop v hv).le, le_rfl⟩
    · rw [mem_append, or_iff_right (fun hv => (htop _ hv).ne rfl)]
      simp
  rwa [if_neg hne] at h

theorem Tracks.newHash (h : Tracks accepted before latest dirty)
    (hlatest : latest = some (slot, hashes)) (hhash : hash ∉ hashes) :
    hash ∉ (dirty.getD (0, [])).2 ∧
      Tracks (accepted ++ [⟨slot, hash⟩]) before (some (slot, hashes ++ [hash]))
        (some ((dirty.getD (0, [])).1, (dirty.getD (0, [])).2 ++ [hash])) := by
  cases h with
  | idle haccepted hbefore =>
    rw [hlatest, map_some] at hbefore
    refine ⟨not_mem_nil, ?_⟩
    have h : Tracks (accepted ++ [⟨slot, hash⟩]) before (some (slot, hashes ++ [hash]))
        (some (if before = some slot then 0 else slot, [hash])) := by
      refine .busy (subset_append_right _ _) (cons_ne_nil _ _) ?_ ?_ ?_
      all_goals simp [haccepted, hbefore]
    rwa [if_pos hbefore] at h
  | busy hnew hne hbefore htop hhashes =>
    cases hlatest
    refine ⟨fun h => hhash (hnew h), .busy ?_ (by simp) hbefore ?_ fun hash' => ?_⟩
    · exact append_subset.mpr ⟨subset_append_of_subset_left _ hnew, subset_append_right _ _⟩
    · rw [forall_mem_append, forall_mem_singleton]
      exact ⟨htop, le_rfl⟩
    · rw [mem_append, hhashes]
      simp

end Tracks

def Tracked (s : VoteHistory) : Prop :=
  ∀ pk, Tracks (s.accepted pk) (s.before pk) (s.latest pk) (s.dirty pk)

variable {s : VoteHistory}

theorem Tracked.setEntries (h : s.Tracked) {pk : Pubkey} {v : SlotHashKey}
    {entry dirty : Slot × List Hash}
    (hpk : Tracks (s.accepted pk ++ [v]) (s.before pk) (some entry) (some dirty)) :
    Tracked
      { s with
        toLatestValidatorVotesForFrozenBanks := s.setEntries pk true entry dirty
        accepted := Function.update s.accepted pk (s.accepted pk ++ [v]) } := by
  intro pk'
  by_cases hsame : pk' = pk
  · subst hsame
    simpa [latest, VoteHistory.dirty, LatestValidatorVotesForFrozenBanks.setEntries] using hpk
  · simpa [latest, VoteHistory.dirty, LatestValidatorVotesForFrozenBanks.setEntries, hsame]
      using h pk'

/-- A vote from gossip does not change what belongs to replay. -/
theorem checkAddVote_gossip (votes : LatestValidatorVotesForFrozenBanks) (pk : Pubkey)
    (slot : Slot) (frozenHash : Option Hash) :
    ∃ r, votes.checkAddVote pk slot frozenHash false = some r ∧
      r.1.maxReplayFrozenVotes = votes.maxReplayFrozenVotes ∧
      r.1.forkChoiceDirtySet = votes.forkChoiceDirtySet := by
  unfold checkAddVote
  dsimp only
  split
  · split_ifs with hnew hsame hdirty
    · exact ⟨_, rfl, rfl, rfl⟩
    · exact hdirty.1.elim
    · exact ⟨_, rfl, rfl, rfl⟩
    · exact ⟨_, rfl, rfl, rfl⟩
  · exact ⟨_, rfl, rfl, rfl⟩
  · exact ⟨_, rfl, rfl, rfl⟩

theorem Tracked.step (h : s.Tracked) (e : FrozenVoteCall) :
    ∃ s', s.step e = some s' ∧ s'.Tracked := by
  cases e with
  | takeVotesDirtySet root => exact ⟨_, rfl, fun pk => .idle rfl rfl⟩
  | checkAddVote pk slot frozenHash isReplayVote =>
    rw [VoteHistory.step]
    cases isReplayVote with
    | false =>
      obtain ⟨r, hr, hreplay, hdirty⟩ := checkAddVote_gossip
        s.toLatestValidatorVotesForFrozenBanks pk slot frozenHash
      rw [hr]
      refine ⟨_, rfl, fun pk' => ?_⟩
      simpa [latest, dirty, hreplay, hdirty] using h pk'
    | true =>
      unfold checkAddVote
      dsimp only
      split
      · rename_i hash latestSlot latestHashes hlatest
        obtain ⟨hbefore, htop⟩ := (h pk).le_latest hlatest
        split_ifs with hnew hsame hdirty
        · exact ⟨_, rfl, h.setEntries (.newSlot (fun b hb => (hbefore b hb).trans_lt hnew)
            (fun v hv => (htop v hv).trans_lt hnew) hash)⟩
        · exact absurd hdirty.2 ((h pk).newHash hlatest hsame.2).1
        · obtain ⟨rfl, hhash⟩ := hsame
          exact ⟨_, rfl, h.setEntries ((h pk).newHash hlatest hhash).2⟩
        · exact ⟨_, rfl, h⟩
      · rename_i hash hlatest
        obtain ⟨hbefore, haccepted⟩ := (h pk).of_none hlatest
        refine ⟨_, rfl, h.setEntries (.newSlot ?_ ?_ hash)⟩
        · simp [hbefore]
        · simp [haccepted]
      · exact ⟨_, rfl, h⟩

theorem exec_tracked (es : List FrozenVoteCall) (h : s.Tracked) :
    ∃ t, Machine.exec step s es = some t ∧ t.Tracked := by
  induction es generalizing s with
  | nil => exact ⟨s, rfl, h⟩
  | cons e es ih =>
    obtain ⟨s', hstep, h'⟩ := h.step e
    obtain ⟨t, hexec, ht⟩ := ih h'
    refine ⟨t, ?_, ht⟩
    rw [Machine.exec, hstep]
    exact hexec

variable {root : Slot} {pk : Pubkey} {v : SlotHashKey}

theorem mem_takeVotesDirtySet : (pk, v) ∈ (s.takeVotesDirtySet root).2 ↔
    root ≤ v.slot ∧ ∃ hashes, s.dirty pk = some (v.slot, hashes) ∧ v.hash ∈ hashes := by
  unfold takeVotesDirtySet dirty
  simp only [mem_flatMap, mem_filter, List.mem_map, decide_eq_true_eq]
  constructor
  · rintro ⟨⟨pk', slot, hashes⟩, ⟨hmem, hroot⟩, hash, hhash, heq⟩
    cases heq
    exact ⟨hroot, hashes, AList.mem_lookup_iff.mpr hmem, hhash⟩
  · rintro ⟨hroot, hashes, hlookup, hhash⟩
    exact ⟨⟨pk, v.slot, hashes⟩, ⟨AList.mem_lookup_iff.mp hlookup, hroot⟩, v.hash, hhash, rfl⟩

/-- The entry of a vote that is due has its slot, unless that was the latest one already. -/
theorem Tracked.dirty_of_due (h : s.Tracked) (hdue : s.Due root pk v) : ∃ hashes,
    s.dirty pk = some (if s.before pk = some v.slot then 0 else v.slot, hashes) ∧
      v.hash ∈ hashes := by
  obtain ⟨hv, _, hmax⟩ := hdue
  have hpk := h pk
  generalize s.latest pk = latest, s.dirty pk = dirty at hpk
  cases hpk with
  | idle haccepted => simp [haccepted] at hv
  | @busy slot hashes new _ hne _ htop hhashes =>
    obtain ⟨hash, hash_mem⟩ := exists_mem_of_ne_nil _ hne
    have hslot : v.slot = slot := le_antisymm (htop v hv) (hmax _ ((hhashes hash).mpr hash_mem))
    rw [hslot]
    refine ⟨new, rfl, (hhashes v.hash).mp ?_⟩
    rwa [← hslot]

/-- The hashes of an entry are those of votes for the latest slot. -/
theorem Tracked.due_of_dirty (h : s.Tracked) {d : Slot} {new : List Hash} {hash : Hash}
    (hdirty : s.dirty pk = some (d, new)) (hhash : hash ∈ new) (hroot : root ≤ d) :
    ∃ slot, s.Due root pk ⟨slot, hash⟩ ∧ d = if s.before pk = some slot then 0 else slot := by
  have hpk := h pk
  rw [hdirty] at hpk
  generalize s.latest pk = latest at hpk
  cases hpk with
  | @busy slot hashes _ _ _ _ htop hhashes =>
    refine ⟨slot, ⟨(hhashes hash).mpr hhash, ?_, htop⟩, rfl⟩
    split_ifs at hroot
    · exact hroot.trans (Nat.zero_le slot)
    · exact hroot

/-- The assertion never fails, and a take hands out exactly the votes that are due exactly if none
of them, but for slot 0, is for a slot that was the latest one of its key at the last take. -/
theorem handsOut_iff (es : List FrozenVoteCall) :
    ∃ s, Machine.exec step {} es = some s ∧ ∀ root, s.HandsOut root ↔
      ∀ pk v, s.Due root pk v → s.before pk = some v.slot → v.slot = 0 := by
  obtain ⟨s, hexec, h⟩ := exec_tracked (s := {}) es (fun pk => .idle rfl rfl)
  refine ⟨s, hexec, fun root => ⟨fun hout pk v hdue hbefore => ?_, fun hslots pk v => ?_⟩⟩
  · obtain ⟨_, hashes, hdirty, _⟩ := mem_takeVotesDirtySet.mp ((hout pk v).mpr hdue)
    obtain ⟨hashes', hdirty', _⟩ := h.dirty_of_due hdue
    rw [if_pos hbefore, hdirty] at hdirty'
    exact congrArg Prod.fst (some.inj hdirty')
  · rw [mem_takeVotesDirtySet]
    constructor
    · rintro ⟨hroot, hashes, hdirty, hhash⟩
      obtain ⟨slot, hdue, hslot⟩ := h.due_of_dirty hdirty hhash hroot
      have hsame : v.slot = slot := by
        split_ifs at hslot with hbefore
        · exact hslot.trans (hslots pk _ hdue hbefore).symm
        · exact hslot
      rwa [← hsame] at hdue
    · intro hdue
      obtain ⟨hashes, hdirty, hhash⟩ := h.dirty_of_due hdue
      refine ⟨hdue.2.1, hashes, ?_, hhash⟩
      rw [hdirty]
      split_ifs with hbefore
      · rw [hslots pk v hdue hbefore]
      · rfl

/-- A second hash for slot 1 after a take: with root 1 it is not handed out, and with root 0 it is
handed out as a vote for slot 0. -/
theorem second_hash_lost :
    ∃ s, Machine.exec step {} [.checkAddVote ⟨1⟩ 1 (some ⟨1⟩) true, .takeVotesDirtySet 0,
        .checkAddVote ⟨1⟩ 1 (some ⟨2⟩) true] = some s ∧
      s.Due 1 ⟨1⟩ ⟨1, ⟨2⟩⟩ ∧ (s.takeVotesDirtySet 1).2 = [] ∧
      (s.takeVotesDirtySet 0).2 = [(⟨1⟩, ⟨0, ⟨2⟩⟩)] := by
  refine ⟨_, rfl, ?_, ?_, ?_⟩
  · exact ⟨by decide, le_rfl, by decide⟩
  · decide
  · decide

end VoteHistory
end Hypergrid
