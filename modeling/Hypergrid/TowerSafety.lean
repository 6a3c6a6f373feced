import Hypergrid.Consensus
import Hypergrid.Lib.GuardedRun
import Hypergrid.Lib.ParentTree
import Hypergrid.TowerUpdate

/-!
# Tower safety

A tower votes on a block tree, always for a slot that `is_locked_out` does not refuse for the
ancestors of the slot.  The check looks at the votes that are still in the tower; votes that left
it are covered by what `Outlived` says about them, with the tree as the relation to the root.

* `onFork_step` : one vote keeps the root of the tower an ancestor of its votes, and moves the
  root along the tree.
* `towerSafety` : the votes of the tower are on the fork of the last vote, a vote on another fork
  is cast after the lockout, and every later vote descends from the roots.
-/

namespace Hypergrid
open List Option

abbrev SlotTree := ParentTree Slot id

namespace VoteState

theorem processNextVoteSlot_rootSlot {s : VoteState} {c : VoteCall} {r : Slot}
    (h : (s.processNextVoteSlot c).rootSlot = some r) :
    s.rootSlot = some r ∨ ∃ v ∈ s.votes, v.slot = r := by
  unfold processNextVoteSlot at h
  split_ifs at h
  · exact .inl h
  · rcases moveRoot_cases (s.popExpiredVotes c.nextVoteSlot) c with
      ⟨_, heq⟩ | ⟨oldest, votes, hvotes, _, hroot⟩
    · rw [heq] at h
      exact .inl h
    · refine .inr ⟨oldest, ?_, some.inj (hroot.symm.trans h)⟩
      exact (popExpiredVotes_kept s c.nextVoteSlot).subset (hvotes ▸ mem_cons_self)

end VoteState

namespace Consensus

/-- A vote for a bank, and the time at which it is made. -/
structure BankVote where
  slot : Slot
  hash : Hash
  now : Int
deriving DecidableEq

namespace Tower

/-- One vote for a slot that is not locked out, given its ancestors. -/
def castVote (tree : SlotTree) (t : Tower) (v : BankVote) : Option Tower :=
  if t.isLockedOut v.slot (tree.ancestors v.slot) = some false then
    (t.recordBankVoteAndUpdateLockouts v.slot v.hash v.now).map Prod.fst
  else none

/-- A tower with a root that is an ancestor of its votes. -/
structure OnFork (tree : SlotTree) (t : Tower) : Prop where
  valid : t.voteState.Valid
  rooted : ∃ r, t.root = some r ∧ ∀ v ∈ t.voteState.votes, tree.AncestorOrSelf r v.slot

section Step
variable {tree : SlotTree} {t t' : Tower} {v : BankVote}

/-- What a vote that is cast satisfies. -/
structure CastOn (tree : SlotTree) (t : Tower) (v : BankVote) (t' : Tower) : Prop where
  voteState : t'.voteState = t.voteState.processNextVoteSlot (t.voteState.uncheckedCall v.slot)
  newer : ∀ last, t.voteState.lastVotedSlot = some last → last < v.slot
  aboveRoot : t.voteState.votes = [] → ∀ r, t.root = some r → r < v.slot
  votes : ∀ w ∈ t'.voteState.votes, tree.AncestorOrSelf w.slot v.slot
  root : ∀ r, t'.root = some r → tree.AncestorOrSelf r v.slot

theorem castOn_of_castVote (h : t.castVote tree v = some t') : CastOn tree t v t' := by
  unfold castVote at h
  split_ifs at h with hlock
  obtain ⟨hrecent, hvotes, hroot⟩ := isLockedOut_eq_false hlock
  obtain ⟨⟨_, newRoot⟩, hrecord, rfl⟩ := map_eq_some_iff.mp h
  have hstate := record_voteState hrecent hrecord
  obtain ⟨hnewer, habove⟩ := isRecent_eq_true hrecent
  have hfork : ∀ {slot}, slot = v.slot ∨ slot ∈ tree.ancestors v.slot →
      tree.AncestorOrSelf slot v.slot := by
    rintro slot (rfl | hmem)
    · exact .refl _
    · exact (ParentTree.mem_ancestors.mp hmem).orSelf
  refine ⟨hstate, hnewer, habove, fun w hw => ?_, fun r hr => ?_⟩
  · exact hfork (hvotes w (hstate ▸ hw))
  · exact hfork (hroot r (hstate ▸ hr))

theorem CastOn.lastVotedSlot (h : CastOn tree t v t') (hvalid : t.voteState.Valid) :
    t'.voteState.lastVotedSlot = some v.slot := by
  rw [h.voteState]
  exact VoteState.lastVotedSlot_processNextVoteSlot hvalid.tower h.newer

theorem onFork_step (h : t.OnFork tree) (hcast : CastOn tree t v t') :
    t'.OnFork tree ∧ ∀ r, t.root = some r →
      ∃ r', t'.root = some r' ∧ tree.AncestorOrSelf r r' ∧ tree.Ancestor r' v.slot := by
  obtain ⟨r₀, hr₀, hbelow⟩ := h.rooted
  have hroot : (∀ w ∈ t.voteState.votes, w.slot < v.slot) →
      ∀ r, t.voteState.rootSlot = some r → r < v.slot := by
    intro hnewer r hr
    by_cases hnil : t.voteState.votes = []
    · exact hcast.aboveRoot hnil r hr
    · obtain ⟨w, hw⟩ := exists_mem_of_ne_nil _ hnil
      exact lt_trans (h.valid.root r hr w hw) (hnewer w hw)
  obtain ⟨hvalid, hle⟩ := VoteState.processNextVoteSlot_valid_of_root_lt h.valid
    (c := t.voteState.uncheckedCall v.slot) hroot
  rw [← hcast.voteState] at hvalid hle
  obtain ⟨r', hr', _⟩ := hle r₀ hr₀
  have hlast := hcast.lastVotedSlot h.valid
  have hlt : r' < v.slot := by
    obtain ⟨l, hl, hslot⟩ := map_eq_some_iff.mp hlast
    obtain ⟨w, hw, rfl⟩ := map_eq_some_iff.mp hl
    exact hslot ▸ hvalid.root r' hr' w (mem_of_getLast? hw)
  have hr'v := hcast.root r' hr'
  refine ⟨⟨hvalid, r', hr', fun w hw => ?_⟩, fun r hr => ⟨r', hr', ?_, ?_⟩⟩
  · exact hr'v.of_rank_le (hcast.votes w hw) (le_of_lt (hvalid.root r' hr' w hw))
  · obtain rfl := some.inj (hr₀.symm.trans hr)
    have hfrom : t'.voteState.rootSlot = some r' := hr'
    rw [hcast.voteState] at hfrom
    rcases VoteState.processNextVoteSlot_rootSlot hfrom with hsame | ⟨w, hw, rfl⟩
    · rw [some.inj (hr₀.symm.trans hsame)]
      exact .refl _
    · exact hbelow w hw
  · exact (ParentTree.ancestorOrSelf_iff.mp hr'v).resolve_left (ne_of_gt hlt)

end Step

section Runs
open Machine
variable {tree : SlotTree} {t t' : Tower} {v : BankVote} {votes : List BankVote}

/-- The root has moved along the tree from a slot on. -/
def RootFrom (tree : SlotTree) (r : Slot) (t : Tower) : Prop :=
  t.OnFork tree ∧ ∃ r', t.root = some r' ∧ tree.AncestorOrSelf r r'

theorem rootFrom_step {r : Slot} (h : t.RootFrom tree r) (hstep : t.castVote tree v = some t') :
    t'.RootFrom tree r := by
  obtain ⟨h, r', hr', hpath⟩ := h
  obtain ⟨h', hroot⟩ := onFork_step h (castOn_of_castVote hstep)
  obtain ⟨r'', hr'', hpath', _⟩ := hroot r' hr'
  exact ⟨h', r'', hr'', hpath.trans hpath'⟩

theorem root_run (hrun : Run (castVote tree) t votes t') (h : t.OnFork tree) {r : Slot}
    (hr : t.root = some r) : t'.RootFrom tree r :=
  GuardedRun.invariant (fun _ _ _ h _ hstep => rootFrom_step h hstep) hrun
    ⟨h, r, hr, .refl r⟩

/-- A tower reached from one whose last vote is `last`: votes that are not above `last` were in
it. -/
structure Later (tree : SlotTree) (start : Tower) (last : Slot) (t : Tower) : Prop where
  onFork : t.OnFork tree
  last_le : ∃ last', t.voteState.lastVotedSlot = some last' ∧ last ≤ last'
  old : ∀ w ∈ t.voteState.votes, w.slot ≤ last → ∃ v ∈ start.voteState.votes, v.slot = w.slot

theorem later_step {start : Tower} {last : Slot} (h : Later tree start last t)
    (hstep : t.castVote tree v = some t') : Later tree start last t' := by
  have hcast := castOn_of_castVote hstep
  obtain ⟨last', hlast', hle⟩ := h.last_le
  have hlt := hcast.newer last' hlast'
  have htower := h.onFork.valid.tower
  refine ⟨(onFork_step h.onFork hcast).1,
    ⟨v.slot, hcast.lastVotedSlot h.onFork.valid, hle.trans (le_of_lt hlt)⟩, ?_⟩
  intro w hw hwle
  obtain ⟨kept, hkept⟩ := VoteState.processNextVoteSlot_cast htower
    (c := t.voteState.uncheckedCall v.slot) (VoteState.lt_of_last_lt htower hcast.newer)
  rw [hcast.voteState] at hw
  rcases hkept.votes w hw with hnew | ⟨x, hx, hslot⟩
  · exact absurd hwle (Nat.not_le_of_lt (hnew ▸ lt_of_le_of_lt hle hlt))
  · rw [hslot] at hwle ⊢
    exact h.old x (hkept.kept_subset x hx) hwle

theorem later_run (hrun : Run (castVote tree) t votes t') (h : t.OnFork tree) {last : Slot}
    (hlast : t.voteState.lastVotedSlot = some last) : Later tree t last t' :=
  GuardedRun.invariant (fun _ _ _ h _ hstep => later_step h hstep) hrun
    ⟨h, ⟨last, hlast, le_refl last⟩, fun w hw _ => ⟨w, hw, rfl⟩⟩

theorem outlived_step {old : LandedVote}
    (h : t.OnFork tree ∧ VoteState.Outlived tree.AncestorOrSelf old t.voteState)
    (hstep : t.castVote tree v = some t') :
    t'.OnFork tree ∧ VoteState.Outlived tree.AncestorOrSelf old t'.voteState := by
  have hcast := castOn_of_castVote hstep
  obtain ⟨hfork, hroot⟩ := onFork_step h.1 hcast
  refine ⟨hfork, ?_⟩
  rw [hcast.voteState]
  refine h.2.processNextVoteSlot h.1.valid.tower hcast.newer
    (.refl _) fun r hr hpassed => ?_
  obtain ⟨r', hr', hpath, _⟩ := hroot r hr
  exact ⟨r', hcast.voteState ▸ hr', hpassed.trans hpath⟩

/-- What becomes of a vote in a run, with the tree as the relation to the root. -/
theorem outlived_run (hrun : Run (castVote tree) t votes t') (h : t.OnFork tree)
    {old : LandedVote} (hold : old ∈ t.voteState.votes) :
    VoteState.Outlived tree.AncestorOrSelf old t'.voteState :=
  (GuardedRun.invariant (fun _ _ _ h _ hstep => outlived_step h hstep) hrun
    ⟨h, .alive old hold rfl (le_refl _)⟩).2

theorem run_at {before after : List BankVote} {b : BankVote}
    (hrun : Run (castVote tree) t (before ++ b :: after) t') :
    ∃ m m', Run (castVote tree) t before m ∧ m.castVote tree b = some m' ∧
      Run (castVote tree) m' after t' := by
  obtain ⟨m, hbefore, hrest⟩ := hrun.split
  cases hrest with
  | cons _ hstep hafter => exact ⟨m, _, hbefore, hstep, hafter⟩

theorem run_unique (hrun : Run (castVote tree) t votes t') {t'' : Tower}
    (hrun' : Run (castVote tree) t votes t'') : t' = t'' :=
  some.inj (((run_iff_exec _).mp hrun).symm.trans ((run_iff_exec _).mp hrun'))

theorem onFork_run (hrun : Run (castVote tree) t votes t') (h : t.OnFork tree) :
    t'.OnFork tree := by
  obtain ⟨r, hr, _⟩ := h.rooted
  exact (root_run hrun h hr).1

theorem slot_lt_of_run {pre mid : List BankVote} {a b : BankVote} {m' : Tower} (h : t.OnFork tree)
    (hrun : Run (castVote tree) t (pre ++ a :: mid) t') (hstep : t'.castVote tree b = some m') :
    a.slot < b.slot := by
  obtain ⟨m, n, hpre, ha, hmid⟩ := run_at hrun
  have hm := onFork_run hpre h
  have hcast := castOn_of_castVote ha
  obtain ⟨last, hlast, hle⟩ :=
    (later_run hmid (onFork_step hm hcast).1 (hcast.lastVotedSlot hm.valid)).last_le
  exact lt_of_le_of_lt hle ((castOn_of_castVote hstep).newer last hlast)

/-- A vote that is in the tower at some time is on the fork of a later vote `b`, or `b` is above
its lockout. -/
theorem ancestor_or_expired (h : t.OnFork tree) {b : BankVote} {m m' : Tower}
    (hrun : Run (castVote tree) t votes m) (hstep : m.castVote tree b = some m')
    {w : LandedVote} (hw : w ∈ t.voteState.votes) :
    tree.AncestorOrSelf w.slot b.slot ∨ w.lockout.lastLockedOutSlot < b.slot := by
  have hcast := castOn_of_castVote hstep
  have hm := onFork_run hrun h
  cases (outlived_step ⟨hm, outlived_run hrun h hw⟩ hstep).2 with
  | alive v hv hslot _ => exact .inl (hslot ▸ hcast.votes v hv)
  | rooted r hr hpassed => exact .inl (hpassed.trans (hcast.root r hr))
  | expired _ _ last hlast _ hlock =>
    have hlast' := hcast.lastVotedSlot hm.valid
    exact .inr (some.inj (hlast.symm.trans hlast') ▸ hlock)

/-- A vote `a` on another fork than a later vote `b`: whatever confirmations `a` ever had, `b` is
above their lockout. -/
theorem lockout_lt_of_fork (h : t.OnFork tree) {pre mid post seen rest : List BankVote}
    {a b : BankVote} (hrun : Run (castVote tree) t (pre ++ a :: mid ++ b :: post) t')
    (hb : b.slot ≤ u64Max) (hfork : ¬tree.Ancestor a.slot b.slot)
    (hseen : pre ++ a :: mid ++ b :: post = seen ++ rest) {m : Tower}
    (hm : Run (castVote tree) t seen m) {w : LandedVote} (hw : w ∈ m.voteState.votes)
    (hslot : w.slot = a.slot) : a.slot + 2 ^ w.confirmationCount < b.slot := by
  obtain ⟨n, n', hbefore, hstep, hafter⟩ := run_at hrun
  have hab := slot_lt_of_run h hbefore hstep
  have hoff : ¬tree.AncestorOrSelf w.slot b.slot := by
    rw [hslot, ParentTree.ancestorOrSelf_iff, not_or]
    exact ⟨ne_of_gt hab, hfork⟩
  have hearlier : ∀ {es}, Run (castVote tree) m es n →
      a.slot + 2 ^ w.confirmationCount < b.slot := by
    intro es hes
    have hlock := (ancestor_or_expired (onFork_run hm h) hes hstep hw).resolve_left hoff
    rw [← hslot]
    rcases min_lt_iff.mp hlock with hlt | hlt
    · exact hlt
    · exact absurd hb (Nat.not_le_of_lt hlt)
  rcases append_eq_append_iff.mp hseen with ⟨more, rfl, hrest⟩ | ⟨more, hmore, _⟩
  · cases more with
    | nil =>
      rw [append_nil] at hm
      rw [run_unique hm hbefore] at hearlier
      exact hearlier (.nil n)
    | cons b' more =>
      -- `a` is seen after `b`: then it is in the tower at `b`, on the fork of `b`
      obtain rfl := (cons.inj hrest).1
      obtain ⟨k, k', hk, hstep', hmore⟩ := run_at hm
      rw [run_unique hk hbefore] at hstep'
      have hcast := castOn_of_castVote hstep'
      have hn := onFork_run hbefore h
      have hlater := later_run hmore (onFork_step hn hcast).1 (hcast.lastVotedSlot hn.valid)
      obtain ⟨v, hv, hvslot⟩ := hlater.old w hw (hslot ▸ le_of_lt hab)
      exact absurd (hvslot ▸ hcast.votes v hv) hoff
  · rw [hmore] at hbefore
    obtain ⟨m₁, hm₁, hrest⟩ := hbefore.split
    rw [run_unique hm₁ hm] at hrest
    exact hearlier hrest

/-- Tower safety: the votes of the tower are on the fork of the last vote; a vote on another fork
than an earlier one is above its lockout, for every number of confirmations the earlier one ever
had; and every vote after a slot became the root descends from it. -/
theorem towerSafety (hinit : t.OnFork tree) (hrun : Run (castVote tree) t votes t')
    (hslots : ∀ v ∈ votes, v.slot ≤ u64Max) :
    (∀ v, votes.getLast? = some v →
      ∀ w ∈ t'.voteState.votes, w.slot = v.slot ∨ tree.Ancestor w.slot v.slot) ∧
    (∀ pre a mid b post, votes = pre ++ a :: mid ++ b :: post → ¬tree.Ancestor a.slot b.slot →
      ∀ seen rest m, votes = seen ++ rest → Run (castVote tree) t seen m →
        ∀ w ∈ m.voteState.votes, w.slot = a.slot →
          a.slot + 2 ^ w.confirmationCount < b.slot) ∧
    ∀ pre post m r, votes = pre ++ post → Run (castVote tree) t pre m → m.root = some r →
      ∀ b ∈ post, tree.Ancestor r b.slot := by
  refine ⟨fun v hv w hw => ?_, ?_, ?_⟩
  · obtain ⟨front, rfl⟩ := getLast?_eq_some_iff.mp hv
    obtain ⟨m, m', _, hstep, hnil⟩ := run_at hrun
    cases hnil
    exact (ParentTree.ancestorOrSelf_iff.mp ((castOn_of_castVote hstep).votes w hw)).imp
      Eq.symm id
  · rintro pre a mid b post rfl hfork seen rest m hseen hm w hw hslot
    exact lockout_lt_of_fork hinit hrun (hslots b (by simp)) hfork hseen hm hw hslot
  · rintro pre post m r rfl hm hr b hb
    obtain ⟨front, back, rfl⟩ := append_of_mem hb
    rw [← append_assoc] at hrun
    obtain ⟨n, n', hbefore, hstep, _⟩ := run_at hrun
    obtain ⟨m', hm', hfront⟩ := hbefore.split
    rw [run_unique hm' hm] at hfront
    obtain ⟨hn, r', hr', hpath⟩ := root_run hfront (onFork_run hm hinit) hr
    obtain ⟨r'', _, hpath', hlt⟩ := (onFork_step hn (castOn_of_castVote hstep)).2 r' hr'
    exact hpath.trans_ancestor (hpath'.trans_ancestor hlt)

end Runs

def starTree : SlotTree where
  parent slot := if slot = 0 then none else some 0
  parent_lt := by
    intro a p h
    split_ifs at h with hzero
    rw [← Option.some.inj h]
    exact Nat.pos_of_ne_zero hzero

theorem default_onFork (tree : SlotTree) : default.OnFork tree where
  valid :=
    { tower := VoteState.default_valid.tower
      root := fun _ _ _ hv => absurd hv not_mem_nil }
  rooted := ⟨0, rfl, fun _ hv => absurd hv not_mem_nil⟩

/-- Votes for the slots 1 and 4, on two forks. -/
def switchingVotes : List BankVote := [⟨1, ⟨1⟩, 0⟩, ⟨4, ⟨4⟩, 0⟩]

theorem towerSafety_switching :
    ∃ t, Machine.Run (castVote starTree) default switchingVotes t ∧
      ∀ w ∈ t.voteState.votes, w.slot = 4 ∨ starTree.Ancestor w.slot 4 := by
  have hsome : (Machine.exec (castVote starTree) default switchingVotes).isSome = true := by
    decide +kernel
  obtain ⟨t, ht⟩ := isSome_iff_exists.mp hsome
  have hrun := (Machine.run_iff_exec (castVote starTree)).mpr ht
  exact ⟨t, hrun, (towerSafety (default_onFork starTree) hrun (by decide)).1 ⟨4, ⟨4⟩, 0⟩ rfl⟩

end Tower
end Consensus
end Hypergrid
