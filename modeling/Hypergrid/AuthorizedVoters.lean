import Hypergrid.Account
import Hypergrid.Lib.GuardedRun

/-!
# The authorized voters of a vote account

The model of `sdk/program/src/vote/authorized_voters.rs`, and of `set_new_authorized_voter` and
`get_and_update_authorized_voter` of `sdk/program/src/vote/state/mod.rs`.  The map of the voters is
the list of its entries in the order of their epochs; an assertion that fails is `none`.

After a call for an epoch the map has the voter of that epoch and the later ones (`view`).

* `getAndUpdate_eq` : what caching and purging leave of a map.
* `authorizedVoters_exact` : the voters after calls for epochs that do not go back.
-/

namespace Hypergrid
open List

abbrev AuthorizedVoters := List (Epoch × Pubkey)

namespace AuthorizedVoters

variable (voters : AuthorizedVoters) (epoch : Epoch)

def get : Option Pubkey :=
  ((voters.filter (fun x => x.1 = epoch)).getLast?).map Prod.snd

def getOrCalculateAuthorizedVoterForEpoch : Option (Pubkey × Bool) :=
  match voters.get epoch with
  | some pubkey => some (pubkey, true)
  | none => ((voters.filter (fun x => x.1 < epoch)).getLast?).map (fun x => (x.2, false))

def getAuthorizedVoter : Option Pubkey :=
  (voters.getOrCalculateAuthorizedVoterForEpoch epoch).map Prod.fst

def insert (pubkey : Pubkey) : AuthorizedVoters :=
  voters.filter (fun x => x.1 < epoch) ++ (epoch, pubkey) :: voters.filter (fun x => epoch < x.1)

def getAndCacheAuthorizedVoterForEpoch : Option (Pubkey × AuthorizedVoters) :=
  (voters.getOrCalculateAuthorizedVoterForEpoch epoch).map fun r =>
    (r.1, if r.2 then voters else voters.insert epoch r.1)

def purgeAuthorizedVoters : Option AuthorizedVoters :=
  let kept := voters.filter (fun x => epoch ≤ x.1)
  if kept.isEmpty then none else some kept

abbrev Sorted : Prop := voters.Pairwise (fun x y => x.1 < y.1)

variable {voters : AuthorizedVoters} {epoch : Epoch}

theorem filter_append_filter (h : Sorted voters) {p : Epoch × Pubkey → Bool}
    (hp : ∀ x y : Epoch × Pubkey, x.1 < y.1 → p y = true → p x = true) :
    voters.filter p ++ voters.filter (fun x => !p x) = voters := by
  induction voters with
  | nil => rfl
  | cons x voters ih =>
    obtain ⟨hx, h⟩ := pairwise_cons.mp h
    cases hpx : p x with
    | true => simp [hpx, ih h]
    | false =>
      have hnone : voters.filter p = [] := by
        refine filter_eq_nil_iff.mpr fun y hy hpy => ?_
        rw [hp x y (hx y hy) hpy] at hpx
        cases hpx
      have hall : voters.filter (fun y => !p y) = voters := by
        rw [← ih h, hnone]
        simp
      simp [hpx, hnone, hall]

theorem filter_of_entry {before after : AuthorizedVoters} {pubkey : Pubkey}
    (hbefore : ∀ x ∈ before, x.1 < epoch) (hafter : ∀ x ∈ after, epoch < x.1) :
    (before ++ (epoch, pubkey) :: after).filter (fun x => x.1 = epoch) = [(epoch, pubkey)] ∧
    (before ++ (epoch, pubkey) :: after).filter (fun x => x.1 ≤ epoch) =
      before ++ [(epoch, pubkey)] ∧
    (before ++ (epoch, pubkey) :: after).filter (fun x => epoch ≤ x.1) =
      (epoch, pubkey) :: (before ++ (epoch, pubkey) :: after).filter (fun x => epoch < x.1) := by
  refine ⟨?_, ?_, ?_⟩ <;> simp only [filter_append, filter_cons] <;>
    grind [filter_eq_self, filter_eq_nil_iff]

variable (h : Sorted voters)
include h

/-- The entries around an epoch: it has an entry, which comes last among those up to the epoch, or
it has none. -/
theorem filter_cases (epoch : Epoch) :
    (∃ before pubkey, voters.filter (fun x => x.1 = epoch) = [(epoch, pubkey)] ∧
      voters.filter (fun x => x.1 ≤ epoch) = before ++ [(epoch, pubkey)] ∧
      voters.filter (fun x => epoch ≤ x.1) =
        (epoch, pubkey) :: voters.filter (fun x => epoch < x.1)) ∨
    voters.filter (fun x => x.1 = epoch) = [] ∧
      voters.filter (fun x => x.1 ≤ epoch) = voters.filter (fun x => x.1 < epoch) := by
  by_cases hmem : ∃ x ∈ voters, x.1 = epoch
  · obtain ⟨⟨_, pubkey⟩, hx, rfl⟩ := hmem
    obtain ⟨before, after, rfl⟩ := append_of_mem hx
    obtain ⟨_, hafter, hbefore⟩ := pairwise_append.mp h
    exact .inl ⟨before, pubkey, filter_of_entry (fun x hx => hbefore x hx _ mem_cons_self)
      (pairwise_cons.mp hafter).1⟩
  · refine .inr ⟨filter_eq_nil_iff.mpr fun x hx heq => hmem ⟨x, hx, of_decide_eq_true heq⟩, ?_⟩
    refine filter_congr fun x hx => decide_eq_decide.mpr ?_
    exact Nat.le_iff_lt_or_eq.trans (or_iff_left fun heq => hmem ⟨x, hx, heq⟩)

theorem getAuthorizedVoter_eq :
    voters.getAuthorizedVoter epoch =
      ((voters.filter (fun x => x.1 ≤ epoch)).getLast?).map Prod.snd := by
  rw [getAuthorizedVoter, getOrCalculateAuthorizedVoterForEpoch, get]
  rcases filter_cases h epoch with ⟨before, pubkey, heq, hle, _⟩ | ⟨heq, hle⟩
  · rw [heq, hle, getLast?_concat]
    rfl
  · rw [heq, hle]
    exact Option.map_map ..

theorem purge_getAndCache {x : Epoch × Pubkey}
    (hx : (voters.filter (fun x => x.1 ≤ epoch)).getLast? = some x) :
    ∃ cached, voters.getAndCacheAuthorizedVoterForEpoch epoch = some (x.2, cached) ∧
      cached.purgeAuthorizedVoters epoch =
        some ((epoch, x.2) :: voters.filter (fun y => epoch < y.1)) := by
  rw [getAndCacheAuthorizedVoterForEpoch, getOrCalculateAuthorizedVoterForEpoch, get]
  rcases filter_cases h epoch with ⟨before, pubkey, heq, hle, hge⟩ | ⟨heq, hle⟩
  · rw [hle, getLast?_concat] at hx
    cases hx
    refine ⟨voters, ?_, ?_⟩
    · rw [heq]
      rfl
    · rw [purgeAuthorizedVoters, hge]
      rfl
  · rw [hle] at hx
    refine ⟨voters.insert epoch x.2, ?_, ?_⟩
    · rw [heq, hx]
      rfl
    · have hpurged : (voters.insert epoch x.2).filter (fun y => epoch ≤ y.1) =
          (epoch, x.2) :: voters.filter (fun y => epoch < y.1) := by
        rw [insert, filter_append, filter_cons_of_pos (by simp), filter_eq_nil_iff.mpr ?_,
          filter_eq_self.mpr ?_, nil_append]
        · exact fun y hy => by simpa using Nat.le_of_lt (of_decide_eq_true (mem_filter.mp hy).2)
        · exact fun y hy => by simpa using (mem_filter.mp hy).2
      rw [purgeAuthorizedVoters, hpurged]
      rfl

end AuthorizedVoters

/-- The errors; `refused` is the one of the given check. -/
inductive VoterError where
  | invalidAccountData
  | tooSoonToReauthorize
  | refused

/-- The part of `VoteState` that belongs to the voters. -/
structure VoterState where
  authorizedVoters : AuthorizedVoters
  priorVoters : List (Pubkey × Epoch × Epoch) := []

namespace VoterState

variable (s : VoterState)

def getAndUpdateAuthorizedVoter (currentEpoch : Epoch) :
    Option (VoterState × Except VoterError Pubkey) :=
  match s.authorizedVoters.getAndCacheAuthorizedVoterForEpoch currentEpoch with
  | none => some (s, .error .invalidAccountData)
  | some (pubkey, voters) =>
    (voters.purgeAuthorizedVoters currentEpoch).map fun voters =>
      ({ s with authorizedVoters := voters }, .ok pubkey)

/-- `CircBuf::append`: the buffer holds the last 32 items. -/
def appendPriorVoter (item : Pubkey × Epoch × Epoch) : VoterState :=
  { s with priorVoters := (s.priorVoters ++ [item]).rtake 32 }

def epochOfLastAuthorizedSwitch : Epoch := ((s.priorVoters.getLast?).map (·.2.2)).getD 0

/-- `set_new_authorized_voter`; `verify` says whether the given check passes. -/
def setNewAuthorizedVoter (authorizedPubkey : Pubkey) (currentEpoch targetEpoch : Epoch)
    (verify : Pubkey → Bool) : Option (VoterState × Except VoterError Unit) :=
  match s.getAndUpdateAuthorizedVoter currentEpoch with
  | none => none
  | some (s, .error e) => some (s, .error e)
  | some (s, .ok epochAuthorizedVoter) =>
    if verify epochAuthorizedVoter = false then some (s, .error .refused)
    else if (s.authorizedVoters.get targetEpoch).isSome then
      some (s, .error .tooSoonToReauthorize)
    else
      match s.authorizedVoters.getLast? with
      | none => some (s, .error .invalidAccountData)
      | some (latestEpoch, latestAuthorizedPubkey) =>
        let voters := s.authorizedVoters.insert targetEpoch authorizedPubkey
        if latestAuthorizedPubkey = authorizedPubkey then
          some ({ s with authorizedVoters := voters }, .ok ())
        else if latestEpoch < targetEpoch then
          some (appendPriorVoter { s with authorizedVoters := voters }
            (latestAuthorizedPubkey, s.epochOfLastAuthorizedSwitch, targetEpoch), .ok ())
        else none

end VoterState

inductive VoterCall where
  | getAndUpdateAuthorizedVoter (epoch : Epoch)
  | setNewAuthorizedVoter (pubkey : Pubkey) (epoch target : Epoch) (verify : Pubkey → Bool)

/-- The voters, with the epochs of the last calls and the voters that were set. -/
structure VoterHistory extends VoterState where
  epoch : Epoch
  target : Epoch := 0
  given : List (Epoch × Pubkey) := []

namespace VoterHistory
open AuthorizedVoters

def new (epoch : Epoch) (voter : Pubkey) : VoterHistory :=
  { authorizedVoters := [(epoch, voter)], epoch }

def step (s : VoterHistory) : VoterCall → Option VoterHistory
  | .getAndUpdateAuthorizedVoter epoch =>
    (s.getAndUpdateAuthorizedVoter epoch).map fun r => { s with toVoterState := r.1, epoch }
  | .setNewAuthorizedVoter pubkey epoch target verify =>
    (s.setNewAuthorizedVoter pubkey epoch target verify).map fun r =>
      { toVoterState := r.1, epoch, target
        given := if r.2.isOk then s.given ++ [(target, pubkey)] else s.given }

/-- The epochs of the calls and their targets do not go back, and targets are ahead. -/
def InOrder : Epoch → Epoch → List VoterCall → Prop
  | _, _, [] => True
  | e, t, .getAndUpdateAuthorizedVoter epoch :: calls => e ≤ epoch ∧ InOrder epoch t calls
  | e, t, .setNewAuthorizedVoter _ epoch target _ :: calls =>
    e ≤ epoch ∧ t ≤ target ∧ epoch < target ∧ InOrder epoch target calls

/-- The voter that was set with the greatest target up to an epoch, or the first one. -/
def voterAt (first : Pubkey) (given : List (Epoch × Pubkey)) (epoch : Epoch) : Pubkey :=
  (((given.filter (fun x => x.1 ≤ epoch)).getLast?).map Prod.snd).getD first

/-- The map after a call for an epoch: the voter of the epoch, and those set for later ones. -/
def view (first : Pubkey) (given : List (Epoch × Pubkey)) (epoch : Epoch) : AuthorizedVoters :=
  (epoch, voterAt first given epoch) :: given.filter (fun x => epoch < x.1)

section View
variable {first : Pubkey} {given : List (Epoch × Pubkey)} {epoch e : Epoch}

theorem pairwise_view (h : Sorted given) : Sorted (view first given epoch) :=
  pairwise_cons.mpr ⟨fun _ hx => of_decide_eq_true (mem_filter.mp hx).2, h.filter _⟩

theorem filter_view (hle : epoch ≤ e) :
    (view first given epoch).filter (fun x => e < x.1) = given.filter (fun x => e < x.1) := by
  rw [view, filter_cons_of_neg (by simpa using hle), filter_filter]
  refine filter_congr fun x _ => ?_
  rw [Bool.and_eq_left_iff_imp]
  exact fun hx => decide_eq_true (hle.trans_lt (of_decide_eq_true hx))

theorem getLast?_view (h : Sorted given) (hle : epoch ≤ e) :
    ∃ k, ((view first given epoch).filter (fun x => x.1 ≤ e)).getLast? =
      some (k, voterAt first given e) := by
  have hsplit := filter_append_filter (h.filter (fun x => x.1 ≤ e)) (p := fun x => x.1 ≤ epoch)
    (fun x y hlt hy => decide_eq_true (hlt.le.trans (of_decide_eq_true hy)))
  have hbefore : (given.filter (fun x => x.1 ≤ e)).filter (fun x => x.1 ≤ epoch) =
      given.filter (fun x => x.1 ≤ epoch) := by
    rw [filter_filter]
    refine filter_congr fun x _ => ?_
    rw [Bool.and_eq_left_iff_imp]
    exact fun hx => decide_eq_true ((of_decide_eq_true hx).trans hle)
  have hafter : (given.filter (fun x => x.1 ≤ e)).filter (fun x => !decide (x.1 ≤ epoch)) =
      (given.filter (fun x => epoch < x.1)).filter (fun x => x.1 ≤ e) := by
    rw [filter_comm]
    simp only [← decide_not, not_le]
  rw [hbefore, hafter] at hsplit
  rw [view, filter_cons_of_pos (by simpa using hle), getLast?_cons, voterAt, voterAt, ← hsplit,
    getLast?_append]
  cases ((given.filter (fun x => epoch < x.1)).filter (fun x => x.1 ≤ e)).getLast? with
  | none => exact ⟨epoch, rfl⟩
  | some x => exact ⟨x.1, rfl⟩

theorem getAndUpdate_eq {s : VoterState} (hs : s.authorizedVoters = view first given epoch)
    (h : Sorted given) (hle : epoch ≤ e) :
    s.getAndUpdateAuthorizedVoter e = some
      ({ s with authorizedVoters := view first given e }, .ok (voterAt first given e)) := by
  obtain ⟨k, hk⟩ := @getLast?_view first given epoch e h hle
  obtain ⟨cached, hcached, hpurged⟩ := purge_getAndCache (pairwise_view h) hk
  rw [VoterState.getAndUpdateAuthorizedVoter, hs, hcached]
  dsimp only
  rw [hpurged, filter_view hle]
  rfl

variable {target : Epoch}

theorem insert_view {pubkey : Pubkey} (h : ∀ x ∈ given, x.1 < target) (hlt : e < target) :
    (view first given e).insert target pubkey = view first (given ++ [(target, pubkey)]) e := by
  have hbelow : ∀ x ∈ view first given e, x.1 < target :=
    forall_mem_cons.mpr ⟨hlt, fun x hx => h x (mem_filter.mp hx).1⟩
  rw [AuthorizedVoters.insert, filter_eq_self.mpr fun x hx => decide_eq_true (hbelow x hx),
    filter_eq_nil_iff.mpr fun x hx => by simpa using (hbelow x hx).le]
  simp [view, voterAt, hlt]

/-- A call fails and only updates the map, or it sets the voter of a later epoch than before. -/
theorem setNew_cases {s : VoterState} (hs : s.authorizedVoters = view first given epoch)
    (h : Sorted given) (hbound : ∀ x ∈ given, x.1 ≤ target)
    (hle : epoch ≤ e) (hlt : e < target) (pubkey : Pubkey) (verify : Pubkey → Bool) :
    (∃ error, s.setNewAuthorizedVoter pubkey e target verify =
      some ({ s with authorizedVoters := view first given e }, .error error)) ∨
    (∀ x ∈ given, x.1 < target) ∧ ∃ s' : VoterState,
      s.setNewAuthorizedVoter pubkey e target verify = some (s', .ok ()) ∧
      s'.authorizedVoters = view first (given ++ [(target, pubkey)]) e ∧
      (s'.priorVoters = s.priorVoters ∨ ∃ voter, s'.priorVoters =
        (s.priorVoters ++ [(voter, s.epochOfLastAuthorizedSwitch, target)]).rtake 32) := by
  rw [VoterState.setNewAuthorizedVoter, getAndUpdate_eq hs h hle]
  dsimp only
  split_ifs with hverify hget
  · exact .inl ⟨_, rfl⟩
  · exact .inl ⟨_, rfl⟩
  have hnew : ∀ x ∈ given, x.1 < target := by
    intro x hx
    refine lt_of_le_of_ne (hbound x hx) fun heq => hget ?_
    have hmem : x ∈ (view first given e).filter (fun y => y.1 = target) :=
      mem_filter.mpr ⟨mem_cons_of_mem _ (mem_filter.mpr ⟨hx, decide_eq_true (heq ▸ hlt)⟩),
        decide_eq_true heq⟩
    rw [AuthorizedVoters.get, Option.isSome_map, getLast?_isSome]
    exact ne_nil_of_mem hmem
  refine .inr ⟨hnew, ?_⟩
  split
  · rename_i hlast
    exact absurd (getLast?_eq_none_iff.mp hlast) (cons_ne_nil _ _)
  · rename_i latest voter hlast
    have hlatest : latest < target := by
      rcases mem_cons.mp (mem_of_getLast? hlast) with heq | hmem
      · cases heq
        exact hlt
      · exact hnew _ (mem_filter.mp hmem).1
    split_ifs
    · exact ⟨_, rfl, insert_view hnew hlt, .inl rfl⟩
    · exact ⟨_, rfl, insert_view hnew hlt, .inr ⟨voter, rfl⟩⟩

end View

structure Invariant (first : Pubkey) (s : VoterHistory) : Prop where
  voters : s.authorizedVoters = view first s.given s.epoch
  sorted : Sorted s.given
  bound : ∀ x ∈ s.given, x.1 ≤ s.target
  adjacent : s.priorVoters.IsChain (fun r r' => r.2.2 = r'.2.1)

variable {first : Pubkey} {s : VoterHistory}

theorem Invariant.adjacent_append (h : s.Invariant first) (voter : Pubkey) (target : Epoch) :
    ((s.priorVoters ++ [(voter, s.epochOfLastAuthorizedSwitch, target)]).rtake 32).IsChain
      (fun r r' => r.2.2 = r'.2.1) := by
  refine IsChain.infix (h.adjacent.append (isChain_singleton _) fun r hr r' hr' => ?_)
    (drop_suffix _ _).isInfix
  cases hr'
  rw [VoterState.epochOfLastAuthorizedSwitch, Option.mem_def.mp hr]
  rfl

theorem exec_invariant {calls : List VoterCall} (h : s.Invariant first)
    (hcalls : InOrder s.epoch s.target calls) :
    ∃ t, Machine.exec step s calls = some t ∧ t.Invariant first := by
  induction calls generalizing s with
  | nil => exact ⟨s, rfl, h⟩
  | cons call calls ih =>
    rw [Machine.exec]
    cases call with
    | getAndUpdateAuthorizedVoter epoch =>
      obtain ⟨hle, hcalls⟩ := hcalls
      rw [step, getAndUpdate_eq h.voters h.sorted hle]
      exact ih ⟨rfl, h.sorted, h.bound, h.adjacent⟩ hcalls
    | setNewAuthorizedVoter pubkey epoch target verify =>
      obtain ⟨hle, htarget, hlt, hcalls⟩ := hcalls
      have hbound : ∀ x ∈ s.given, x.1 ≤ target := fun x hx => (h.bound x hx).trans htarget
      rw [step]
      rcases setNew_cases h.voters h.sorted hbound hle hlt pubkey verify with
        ⟨error, hset⟩ | ⟨hnew, s', hset, hvoters, hprior⟩
      · rw [hset]
        exact ih ⟨rfl, h.sorted, hbound, h.adjacent⟩ hcalls
      · rw [hset]
        refine ih ⟨hvoters, ?_, ?_, ?_⟩ hcalls
        · refine pairwise_append.mpr ⟨h.sorted, pairwise_singleton _ _, fun x hx y hy => ?_⟩
          rw [mem_singleton.mp hy]
          exact hnew x hx
        · exact forall_mem_append.mpr ⟨fun x hx => (hnew x hx).le, by simp⟩
        · rcases hprior with hprior | ⟨voter, hprior⟩
          · rw [hprior]
            exact h.adjacent
          · rw [hprior]
            exact h.adjacent_append voter target

/-- The voters after calls in order: no assertion fails, the voter of a current or later epoch is
the one that was set with the greatest target up to it, asking for it changes no later answer, and
the prior voters follow each other without gaps. -/
theorem authorizedVoters_exact (epoch : Epoch) (first : Pubkey) {calls : List VoterCall}
    (hcalls : InOrder epoch 0 calls) :
    ∃ s, Machine.exec step (new epoch first) calls = some s ∧
      s.priorVoters.IsChain (fun r r' => r.2.2 = r'.2.1) ∧ Sorted s.given ∧
      ∀ e, s.epoch ≤ e → ∃ s', s.getAndUpdateAuthorizedVoter e =
          some (s', .ok (voterAt first s.given e)) ∧
        ∀ e', e ≤ e' → s'.authorizedVoters.getAuthorizedVoter e' =
          s.authorizedVoters.getAuthorizedVoter e' := by
  have hnew : (new epoch first).Invariant first := ⟨rfl, .nil, by simp [new], isChain_nil⟩
  obtain ⟨s, hexec, h⟩ := exec_invariant hnew hcalls
  refine ⟨s, hexec, h.adjacent, h.sorted, fun e hle =>
    ⟨_, getAndUpdate_eq h.voters h.sorted hle, fun e' hle' => ?_⟩⟩
  obtain ⟨k, hk⟩ := @getLast?_view first s.given e e' h.sorted hle'
  obtain ⟨k', hk'⟩ := @getLast?_view first s.given s.epoch e' h.sorted (hle.trans hle')
  rw [h.voters, getAuthorizedVoter_eq (pairwise_view h.sorted), hk,
    getAuthorizedVoter_eq (pairwise_view h.sorted), hk']
  rfl

/-- In epoch 1 a second voter is set for epoch 2. -/
def setTwo : VoterCall := .setNewAuthorizedVoter ⟨2⟩ 1 2 (fun _ => true)

theorem authorizedVoters_exact_two :
    InOrder 1 0 [setTwo] ∧
    ∃ s, Machine.exec step (new 1 ⟨1⟩) [setTwo] = some s ∧
      ∃ s', s.getAndUpdateAuthorizedVoter 2 = some (s', .ok ⟨2⟩) := by
  have hcalls : InOrder 1 0 [setTwo] := ⟨le_rfl, by decide, by decide, trivial⟩
  obtain ⟨s, hexec, _, _, hvoter⟩ := authorizedVoters_exact 1 ⟨1⟩ hcalls
  have hs : ((Machine.exec step (new 1 ⟨1⟩) [setTwo]).map fun s => (s.epoch, s.given)) =
      some (1, [(2, ⟨2⟩)]) := by decide +kernel
  rw [hexec] at hs
  obtain ⟨hepoch, hgiven⟩ := Prod.mk.inj (Option.some.inj hs)
  obtain ⟨s', hget, _⟩ := hvoter 2 (by rw [hepoch]; decide)
  rw [hgiven] at hget
  exact ⟨hcalls, s, hexec, s', hget⟩

end VoterHistory
end Hypergrid
