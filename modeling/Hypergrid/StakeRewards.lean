import Hypergrid.StakeDelegation
import Hypergrid.VoteTower

/-!
# Rewards of a stake

The model of `calculate_stake_points_and_credits`, `calculate_stake_rewards` and
`redeem_stake_rewards` of `programs/stake/src/stake_state.rs`.  The arithmetic is checked: `none` is
an overflow, a subtraction below zero, or a failed unwrap.

* `points_run` : the loop over the epochs.
* `redeem_again` : what was redeemed is not paid again.
* `paid_le` : all stakes together are paid no more than the rewards.
* `epochCredits_chained` : what `increment_credits` makes of the credits of a vote account.
* `falling_credits_underflow` : an entry whose credits are below its previous credits.
* `stakeWeightedCreditsObserved_bounds` : a merge of two stakes creates no rewards.
-/

namespace Hypergrid
open List Option Nat VoteState

def u128Max : Nat := 2 ^ 128 - 1

/-- `VoteState` with the commission. -/
structure RewardedVoteState extends VoteState where
  commission : Nat

def VoteState.credits (s : VoteState) : Nat :=
  match s.epochCredits.getLast? with
  | none => 0
  | some entry => entry.2.1

structure PointValue where
  rewards : Nat
  points : Nat

structure CalculatedStakePoints where
  points : Nat
  newCreditsObserved : Nat
  forceCreditsUpdateWithSkippedReward : Bool
deriving DecidableEq

structure CalculatedStakeRewards where
  stakerRewards : Nat
  voterRewards : Nat
  newCreditsObserved : Nat
deriving DecidableEq

namespace StakeRewards

/-- A subtraction that must not go below zero. -/
def checkedSub (a b : Nat) : Option Nat := if b ≤ a then some (a - b) else none

/-- A value that must fit into a number of bits. -/
def fitting (bound n : Nat) : Option Nat := if n ≤ bound then some n else none

section Model
variable (w : Warmup) (stake : Stake)

/-- The credits of an epoch that the stake has not observed. -/
def earnedCredits (creditsInStake newCreditsObserved finalEpochCredits initialEpochCredits : Nat) :
    Option Nat :=
  if creditsInStake < initialEpochCredits then checkedSub finalEpochCredits initialEpochCredits
  else if creditsInStake < finalEpochCredits then checkedSub finalEpochCredits newCreditsObserved
  else some 0

/-- One epoch of the loop, on the points and the new credits observed. -/
def addEpoch (acc : Nat × Nat) (entry : Epoch × Nat × Nat) : Option (Nat × Nat) := do
  let stakeAmount := (w.status stake.delegation entry.1).effective
  let earned ← earnedCredits stake.creditsObserved acc.2 entry.2.1 entry.2.2
  let earnedPoints ← fitting u128Max (stakeAmount * earned)
  let points ← fitting u128Max (acc.1 + earnedPoints)
  return (points, max acc.2 entry.2.1)

def calculateStakePointsAndCredits (vote : VoteState) : Option CalculatedStakePoints :=
  if vote.credits < stake.creditsObserved then some ⟨0, vote.credits, true⟩
  else if vote.credits = stake.creditsObserved then some ⟨0, stake.creditsObserved, false⟩
  else do
    let acc ← vote.epochCredits.foldlM (addEpoch w stake) (0, stake.creditsObserved)
    return ⟨acc.1, acc.2, false⟩

def commissionSplit (commission on : Nat) : Nat × Nat × Bool :=
  match min commission 100 with
  | 0 => (0, on, false)
  | 100 => (on, 0, false)
  | split => (on * split / 100, on * (100 - split) / 100, true)

/-- The split of the rewards, unless a side gets nothing. -/
def splitRewards (commission rewards newCreditsObserved : Nat) : Option CalculatedStakeRewards :=
  let split := commissionSplit commission rewards
  if (split.1 = 0 ∨ split.2.1 = 0) ∧ split.2.2 = true then none
  else some ⟨split.2.1, split.1, newCreditsObserved⟩

def calculateStakeRewards (rewardedEpoch : Epoch) (pointValue : PointValue)
    (vote : RewardedVoteState) : Option (Option CalculatedStakeRewards) := do
  let calculated ← calculateStakePointsAndCredits w stake vote.toVoteState
  if calculated.forceCreditsUpdateWithSkippedReward = true ∨ pointValue.rewards = 0 ∨
      stake.delegation.activationEpoch = rewardedEpoch then
    return some ⟨0, 0, calculated.newCreditsObserved⟩
  else if calculated.points = 0 then return none
  else if pointValue.points = 0 then return none
  else
    let product ← fitting u128Max (calculated.points * pointValue.rewards)
    let rewards ← fitting u64Max (product / pointValue.points)
    if rewards = 0 then return none
    else return splitRewards vote.commission rewards calculated.newCreditsObserved

/-- `redeem_stake_rewards`: the stake after it, and what the staker and the voter are paid. -/
def redeemStakeRewards (rewardedEpoch : Epoch) (pointValue : PointValue)
    (vote : RewardedVoteState) : Option (Stake × Option (Nat × Nat)) := do
  match ← calculateStakeRewards w stake rewardedEpoch pointValue vote with
  | none => return (stake, none)
  | some calculated =>
    let total ← fitting u64Max (stake.delegation.stake + calculated.stakerRewards)
    return ({ delegation := { stake.delegation with stake := total }
              creditsObserved := calculated.newCreditsObserved },
      some (calculated.stakerRewards, calculated.voterRewards))

end Model

/-- Each entry goes on from the credits of the entry before it. -/
def Chained (epochCredits : List (Epoch × Nat × Nat)) : Prop :=
  epochCredits.IsChain (fun before entry => entry.2.2 = before.2.1)

def Rising (epochCredits : List (Epoch × Nat × Nat)) : Prop :=
  ∀ entry ∈ epochCredits, entry.2.2 ≤ entry.2.1

/-- The credits of an epoch above those that were observed. -/
def creditsAbove (observed : Nat) (entry : Epoch × Nat × Nat) : Nat :=
  entry.2.1 - max entry.2.2 observed

/-- The stake of each epoch times the credits above those that were observed. -/
def exactPoints (w : Warmup) (stake : Stake) (epochCredits : List (Epoch × Nat × Nat)) : Nat :=
  (epochCredits.map (fun entry => (w.status stake.delegation entry.1).effective *
    creditsAbove stake.creditsObserved entry)).sum

/-- The numbers of a stake and a vote state have 64 bits. -/
structure InRange (stake : Stake) (vote : VoteState) : Prop where
  stake : stake.delegation.stake ≤ u64Max
  credits : ∀ entry ∈ vote.epochCredits, entry.2.1 ≤ u64Max

def paid (w : Warmup) (rewardedEpoch : Epoch) (pointValue : PointValue)
    (x : Stake × RewardedVoteState) : Nat :=
  match redeemStakeRewards w x.1 rewardedEpoch pointValue x.2 with
  | some (_, some (staker, voter)) => staker + voter
  | _ => 0

def pointsOf (w : Warmup) (x : Stake × RewardedVoteState) : Nat :=
  match calculateStakePointsAndCredits w x.1 x.2.toVoteState with
  | some calculated => calculated.points
  | none => 0

section Points
variable {w : Warmup} {stake : Stake} {epochCredits : List (Epoch × Nat × Nat)}
variable {entry : Epoch × Nat × Nat} {points new : Nat}

/-- The three cases of an epoch in one: the stake has observed nothing of it, a part of it, or
all. -/
theorem earnedCredits_eq {observed final initial : Nat} (hle : initial ≤ final)
    (hnew : initial ≤ observed → new = observed) :
    earnedCredits observed new final initial = some (final - max initial observed) := by
  unfold earnedCredits checkedSub
  by_cases hlt : observed < initial
  · rw [if_pos hlt, if_pos hle, max_eq_left hlt.le]
  · have hge : initial ≤ observed := Nat.le_of_not_lt hlt
    rw [if_neg hlt, max_eq_right hge]
    by_cases hpart : observed < final
    · rw [if_pos hpart, hnew hge, if_pos hpart.le]
    · rw [if_neg hpart, Nat.sub_eq_zero_of_le (Nat.le_of_not_lt hpart)]

theorem fitting_of_le {bound n : Nat} (h : n ≤ bound) : fitting bound n = some n := if_pos h

theorem addEpoch_eq (hle : entry.2.2 ≤ entry.2.1)
    (hnew : entry.2.2 ≤ stake.creditsObserved → new = stake.creditsObserved)
    (hfits : points + (w.status stake.delegation entry.1).effective *
      creditsAbove stake.creditsObserved entry ≤ u128Max) :
    addEpoch w stake (points, new) entry =
      some (points + (w.status stake.delegation entry.1).effective *
        creditsAbove stake.creditsObserved entry, max new entry.2.1) := by
  have hfits' : (w.status stake.delegation entry.1).effective *
      creditsAbove stake.creditsObserved entry ≤ u128Max := (le_add_left _ _).trans hfits
  have hearned := earnedCredits_eq hle hnew
  exact bind_eq_some_iff.mpr ⟨_, hearned, bind_eq_some_iff.mpr
    ⟨_, fitting_of_le hfits', bind_eq_some_iff.mpr ⟨_, fitting_of_le hfits, rfl⟩⟩⟩

theorem points_run (hchain : Chained epochCredits) (hrising : Rising epochCredits)
    (hnew : ∀ first ∈ epochCredits.head?, first.2.2 ≤ stake.creditsObserved →
      new = stake.creditsObserved)
    (hfits : points + exactPoints w stake epochCredits ≤ u128Max) :
    epochCredits.foldlM (addEpoch w stake) (points, new) =
      some (points + exactPoints w stake epochCredits,
        epochCredits.foldl (fun n entry => max n entry.2.1) new) := by
  induction epochCredits generalizing points new with
  | nil => rfl
  | cons entry rest ih =>
    obtain ⟨hle, hrising⟩ := forall_mem_cons.mp hrising
    have hhead : entry.2.2 ≤ stake.creditsObserved → new = stake.creditsObserved := hnew entry rfl
    have hsum : exactPoints w stake (entry :: rest) =
        (w.status stake.delegation entry.1).effective *
          creditsAbove stake.creditsObserved entry + exactPoints w stake rest := by
      simp [exactPoints]
    rw [hsum, ← add_assoc] at hfits
    have hfirst := addEpoch_eq hle hhead ((le_add_right _ _).trans hfits)
    have hrest : ∀ first ∈ rest.head?, first.2.2 ≤ stake.creditsObserved →
        max new entry.2.1 = stake.creditsObserved := by
      intro first hfirst hobserved
      -- the next entry goes on from the credits of this one
      obtain ⟨others, rfl⟩ := head?_eq_some_iff.mp hfirst
      have hlink : first.2.2 = entry.2.1 := (isChain_cons_cons.mp hchain).1
      rw [hlink] at hobserved
      rw [hhead (hle.trans hobserved), max_eq_left hobserved]
    rw [foldlM_cons, hfirst, bind_eq_bind, bind_some, foldl_cons, hsum, ← add_assoc]
    exact ih hchain.tail hrising hrest hfits

/-- The credits of chained entries add up to no more than the last ones. -/
theorem sum_creditsAbove_le (observed : Nat) (hchain : Chained epochCredits)
    (hrising : Rising epochCredits) :
    ∀ first ∈ epochCredits.head?, ∀ last ∈ epochCredits.getLast?,
      (epochCredits.map (creditsAbove observed)).sum + first.2.2 ≤ last.2.1 := by
  induction epochCredits with
  | nil => exact fun first hfirst => absurd hfirst (by simp)
  | cons entry rest ih =>
    intro first hfirst last hlast
    obtain rfl : entry = first := some.inj hfirst
    obtain ⟨hle, hrising⟩ := forall_mem_cons.mp hrising
    have hearned : creditsAbove observed entry + entry.2.2 ≤ entry.2.1 := by
      unfold creditsAbove
      omega
    cases rest with
    | nil =>
      obtain rfl : entry = last := some.inj hlast
      simpa using hearned
    | cons next others =>
      obtain ⟨hlink, hchain⟩ := isChain_cons_cons.mp hchain
      have hrest := ih hchain hrising next rfl last (by simpa using hlast)
      rw [map_cons, sum_cons]
      omega

theorem credits_le_last (hchain : Chained epochCredits) (hrising : Rising epochCredits)
    {last : Epoch × Nat × Nat} (hlast : epochCredits.getLast? = some last) :
    ∀ entry ∈ epochCredits, entry.2.1 ≤ last.2.1 := by
  induction epochCredits with
  | nil => exact fun entry hentry => absurd hentry not_mem_nil
  | cons first rest ih =>
    obtain ⟨_, hrising⟩ := forall_mem_cons.mp hrising
    cases rest with
    | nil =>
      obtain rfl : first = last := some.inj hlast
      exact fun entry hentry => by rw [mem_singleton.mp hentry]
    | cons next others =>
      obtain ⟨hlink, hchain⟩ := isChain_cons_cons.mp hchain
      have hrest := ih hchain hrising (by simpa using hlast)
      refine forall_mem_cons.mpr ⟨?_, hrest⟩
      rw [← hlink]
      exact (hrising next mem_cons_self).trans (hrest next mem_cons_self)

theorem exactPoints_le {vote : VoteState} (hchain : Chained vote.epochCredits)
    (hrising : Rising vote.epochCredits) (hrange : InRange stake vote) :
    exactPoints w stake vote.epochCredits ≤ u128Max := by
  have hstake : ∀ entry ∈ vote.epochCredits, (w.status stake.delegation entry.1).effective *
      creditsAbove stake.creditsObserved entry ≤
        u64Max * creditsAbove stake.creditsObserved entry := fun entry _ =>
    mul_le_mul_right _ (Warmup.effective_le entry.1 |>.trans hrange.stake)
  have hcredits : (vote.epochCredits.map (creditsAbove stake.creditsObserved)).sum ≤ u64Max := by
    cases hlast : vote.epochCredits.getLast? with
    | none =>
      rw [getLast?_eq_none_iff.mp hlast]
      exact zero_le _
    | some last =>
      cases hfirst : vote.epochCredits.head? with
      | none =>
        rw [head?_eq_none_iff.mp hfirst]
        exact zero_le _
      | some first =>
        have hsum := sum_creditsAbove_le stake.creditsObserved hchain hrising first hfirst
          last hlast
        have hmem : last ∈ vote.epochCredits := mem_of_getLast? hlast
        exact (le_add_right _ _).trans (hsum.trans (hrange.credits last hmem))
  calc exactPoints w stake vote.epochCredits
      ≤ (vote.epochCredits.map
          (fun entry => u64Max * creditsAbove stake.creditsObserved entry)).sum :=
        sum_le_sum hstake
    _ = u64Max * (vote.epochCredits.map (creditsAbove stake.creditsObserved)).sum := by
        rw [sum_map_mul_left]
    _ ≤ u64Max * u64Max := mul_le_mul_left _ hcredits
    _ ≤ u128Max := by decide

theorem points_exact {vote : VoteState} (hchain : Chained vote.epochCredits)
    (hrising : Rising vote.epochCredits) (hrange : InRange stake vote) :
    ∃ calculated, calculateStakePointsAndCredits w stake vote = some calculated ∧
      calculated.points = exactPoints w stake vote.epochCredits := by
  -- without new credits there is nothing above those observed
  have hzero : vote.credits ≤ stake.creditsObserved →
      exactPoints w stake vote.epochCredits = 0 := by
    intro hle
    refine sum_eq_zero fun n hn => ?_
    obtain ⟨entry, hentry, rfl⟩ := mem_map.mp hn
    have hcredits : entry.2.1 ≤ vote.credits := by
      unfold credits
      cases hlast : vote.epochCredits.getLast? with
      | none =>
        rw [getLast?_eq_none_iff.mp hlast] at hentry
        exact absurd hentry not_mem_nil
      | some last => exact credits_le_last hchain hrising hlast entry hentry
    have habove : creditsAbove stake.creditsObserved entry = 0 :=
      Nat.sub_eq_zero_of_le ((hcredits.trans hle).trans (le_max_right _ _))
    rw [habove, Nat.mul_zero]
  unfold calculateStakePointsAndCredits
  by_cases hless : vote.credits < stake.creditsObserved
  · rw [if_pos hless]
    exact ⟨_, rfl, (hzero hless.le).symm⟩
  · rw [if_neg hless]
    by_cases heq : vote.credits = stake.creditsObserved
    · rw [if_pos heq]
      exact ⟨_, rfl, (hzero heq.le).symm⟩
    · rw [if_neg heq]
      have hfits : 0 + exactPoints w stake vote.epochCredits ≤ u128Max := by
        rw [zero_add]
        exact exactPoints_le hchain hrising hrange
      rw [points_run hchain hrising (fun _ _ _ => rfl) hfits, zero_add]
      exact ⟨_, rfl, rfl⟩

variable {vote : RewardedVoteState} {pointValue : PointValue} {rewardedEpoch : Epoch}
variable {calculated : CalculatedStakeRewards}

theorem foldlM_observed {epochCredits : List (Epoch × Nat × Nat)} {acc acc' : Nat × Nat}
    (h : epochCredits.foldlM (addEpoch w stake) acc = some acc') :
    acc'.2 = epochCredits.foldl (fun n entry => max n entry.2.1) acc.2 := by
  induction epochCredits generalizing acc with
  | nil =>
    cases h
    rfl
  | cons entry rest ih =>
    obtain ⟨next, hnext, hrest⟩ := bind_eq_some_iff.mp h
    obtain ⟨_, _, hnext⟩ := bind_eq_some_iff.mp hnext
    obtain ⟨_, _, hnext⟩ := bind_eq_some_iff.mp hnext
    obtain ⟨_, _, hnext⟩ := bind_eq_some_iff.mp hnext
    cases hnext
    exact ih hrest

theorem le_foldl_max (epochCredits : List (Epoch × Nat × Nat)) (n : Nat) :
    n ≤ epochCredits.foldl (fun n entry => max n entry.2.1) n ∧ ∀ entry ∈ epochCredits, entry.2.1 ≤
        epochCredits.foldl (fun n entry => max n entry.2.1) n := by
  induction epochCredits generalizing n with
  | nil => exact ⟨le_rfl, fun entry hentry => absurd hentry not_mem_nil⟩
  | cons first rest ih =>
    obtain ⟨hstart, hrest⟩ := ih (max n first.2.1)
    refine ⟨(le_max_left _ _).trans hstart, forall_mem_cons.mpr ⟨?_, hrest⟩⟩
    exact (le_max_right _ _).trans hstart

theorem credits_le_observed {calculated : CalculatedStakePoints} {vote : VoteState}
    (h : calculateStakePointsAndCredits w stake vote = some calculated) :
    vote.credits ≤ calculated.newCreditsObserved := by
  unfold calculateStakePointsAndCredits at h
  split at h
  · cases h
    exact le_rfl
  · split at h
    · rename_i heq
      cases h
      exact heq.le
    · obtain ⟨acc, hacc, hresult⟩ := bind_eq_some_iff.mp h
      cases hresult
      rw [foldlM_observed hacc]
      unfold credits
      cases hlast : vote.epochCredits.getLast? with
      | none => exact zero_le _
      | some last => exact (le_foldl_max _ _).2 last (mem_of_getLast? hlast)

theorem fitting_some {bound n m : Nat} (h : fitting bound n = some m) : m = n ∧ n ≤ bound := by
  unfold fitting at h
  split at h
  · exact ⟨(some.inj h).symm, ‹_›⟩
  · exact absurd h (by simp)

theorem commissionSplit_le (commission on : Nat) :
    (commissionSplit commission on).1 + (commissionSplit commission on).2.1 ≤ on := by
  have hle : min commission 100 ≤ 100 := min_le_right _ _
  unfold commissionSplit
  generalize min commission 100 = split at hle
  split
  · exact (zero_add _).le
  · exact (add_zero _).le
  · dsimp only
    calc on * split / 100 + on * (100 - split) / 100
        ≤ (on * split + on * (100 - split)) / 100 := Nat.div_add_div_le_add_div
      _ = on := by rw [← Nat.mul_add, Nat.add_sub_cancel' hle, Nat.mul_div_cancel _ (by decide)]

theorem splitRewards_some {commission rewards new : Nat}
    (h : splitRewards commission rewards new = some calculated) :
    calculated.newCreditsObserved = new ∧
      calculated.stakerRewards + calculated.voterRewards ≤ rewards := by
  unfold splitRewards at h
  dsimp only at h
  split at h
  · exact absurd h (by simp)
  · cases some.inj h
    refine ⟨rfl, ?_⟩
    rw [add_comm]
    exact commissionSplit_le commission rewards

theorem calculateStakeRewards_cases
    (h : calculateStakeRewards w stake rewardedEpoch pointValue vote = some (some calculated)) :
    ∃ points, calculateStakePointsAndCredits w stake vote.toVoteState = some points ∧
      calculated.newCreditsObserved = points.newCreditsObserved ∧
      (calculated.stakerRewards + calculated.voterRewards = 0 ∨ 0 < pointValue.points ∧
        (calculated.stakerRewards + calculated.voterRewards) * pointValue.points ≤
          points.points * pointValue.rewards) := by
  obtain ⟨points, hpoints, hrest⟩ := bind_eq_some_iff.mp h
  refine ⟨points, hpoints, ?_⟩
  split at hrest
  · cases some.inj (some.inj hrest)
    exact ⟨rfl, Or.inl rfl⟩
  · split at hrest
    · exact absurd hrest (by simp)
    · split at hrest
      · exact absurd hrest (by simp)
      · rename_i hpositive
        obtain ⟨product, hproduct, hrest⟩ := bind_eq_some_iff.mp hrest
        obtain ⟨rewards, hrewards, hrest⟩ := bind_eq_some_iff.mp hrest
        obtain ⟨rfl, _⟩ := fitting_some hproduct
        obtain ⟨rfl, _⟩ := fitting_some hrewards
        split at hrest
        · exact absurd hrest (by simp)
        · obtain ⟨hnew, hle⟩ := splitRewards_some (some.inj hrest)
          refine ⟨hnew, Or.inr ⟨pos_of_ne_zero hpositive, ?_⟩⟩
          exact (mul_le_mul_right _ hle).trans (div_mul_le_self _ _)

theorem redeemStakeRewards_some {stake' : Stake} {staker voter : Nat}
    (h : redeemStakeRewards w stake rewardedEpoch pointValue vote =
      some (stake', some (staker, voter))) :
    ∃ calculated, calculateStakeRewards w stake rewardedEpoch pointValue vote =
        some (some calculated) ∧
      stake'.creditsObserved = calculated.newCreditsObserved ∧
      stake'.delegation.stake ≤ u64Max ∧
      staker = calculated.stakerRewards ∧ voter = calculated.voterRewards := by
  obtain ⟨result, hresult, hrest⟩ := bind_eq_some_iff.mp h
  cases result with
  | none => exact absurd hrest (by simp)
  | some calculated =>
    obtain ⟨total, htotal, hrest⟩ := bind_eq_some_iff.mp hrest
    obtain ⟨rfl, hle⟩ := fitting_some htotal
    cases some.inj hrest
    exact ⟨calculated, hresult, rfl, hle, rfl, rfl⟩

theorem redeem_nothing (hobserved : vote.credits ≤ stake.creditsObserved)
    (hstake : stake.delegation.stake ≤ u64Max) :
    ∃ stake' result, redeemStakeRewards w stake rewardedEpoch pointValue vote =
        some (stake', result) ∧ (result = none ∨ result = some (0, 0)) := by
  have hpoints : ∃ points, calculateStakePointsAndCredits w stake vote.toVoteState = some points ∧
      points.points = 0 := by
    unfold calculateStakePointsAndCredits
    by_cases hless : vote.credits < stake.creditsObserved
    · exact ⟨_, if_pos hless, rfl⟩
    · rw [if_neg hless, if_pos (Nat.le_antisymm hobserved (Nat.le_of_not_lt hless))]
      exact ⟨_, rfl, rfl⟩
  obtain ⟨points, hpoints, hzero⟩ := hpoints
  by_cases hforce : points.forceCreditsUpdateWithSkippedReward = true ∨ pointValue.rewards = 0 ∨
      stake.delegation.activationEpoch = rewardedEpoch
  · have hrewards : calculateStakeRewards w stake rewardedEpoch pointValue vote =
        some (some ⟨0, 0, points.newCreditsObserved⟩) :=
      bind_eq_some_iff.mpr ⟨points, hpoints, if_pos hforce⟩
    refine ⟨_, some (0, 0), bind_eq_some_iff.mpr ⟨_, hrewards,
      bind_eq_some_iff.mpr ⟨_, fitting_of_le hstake, rfl⟩⟩, Or.inr rfl⟩
  · have hrewards : calculateStakeRewards w stake rewardedEpoch pointValue vote = some none := by
      refine bind_eq_some_iff.mpr ⟨points, hpoints, ?_⟩
      rw [if_neg hforce, if_pos hzero]
      rfl
    exact ⟨stake, none, bind_eq_some_iff.mpr ⟨_, hrewards, rfl⟩, Or.inl rfl⟩

/-- What was redeemed is not paid again, whatever the epoch, the value of a point and the
history. -/
theorem redeem_again {stake' : Stake} {payment : Nat × Nat}
    (h : redeemStakeRewards w stake rewardedEpoch pointValue vote = some (stake', some payment))
    (w' : Warmup) (rewardedEpoch' : Epoch) (pointValue' : PointValue) :
    ∃ stake'' result, redeemStakeRewards w' stake' rewardedEpoch' pointValue' vote =
        some (stake'', result) ∧ (result = none ∨ result = some (0, 0)) := by
  obtain ⟨calculated, hcalculated, hobserved, hle, _⟩ := redeemStakeRewards_some h
  obtain ⟨points, hpoints, hnew, _⟩ := calculateStakeRewards_cases hcalculated
  refine redeem_nothing ?_ hle
  rw [hobserved, hnew]
  exact credits_le_observed hpoints

/-- One stake is paid its share of the rewards. -/
theorem paid_mul_le (w : Warmup) (rewardedEpoch : Epoch) (pointValue : PointValue)
    (x : Stake × RewardedVoteState) :
    paid w rewardedEpoch pointValue x = 0 ∨ 0 < pointValue.points ∧
      paid w rewardedEpoch pointValue x * pointValue.points ≤
        pointsOf w x * pointValue.rewards := by
  unfold paid
  split
  · rename_i stake' staker voter hredeem
    obtain ⟨calculated, hcalculated, _, _, rfl, rfl⟩ := redeemStakeRewards_some hredeem
    obtain ⟨points, hpoints, _, hle⟩ := calculateStakeRewards_cases hcalculated
    have hof : pointsOf w x = points.points := by
      rw [pointsOf, hpoints]
    rw [hof]
    exact hle
  · exact Or.inl rfl

theorem paid_le {xs : List (Stake × RewardedVoteState)}
    (hpoints : (xs.map (pointsOf w)).sum ≤ pointValue.points) :
    (xs.map (paid w rewardedEpoch pointValue)).sum ≤ pointValue.rewards := by
  rcases Nat.eq_zero_or_pos pointValue.points with hzero | hpositive
  · have hnone : ∀ x ∈ xs, paid w rewardedEpoch pointValue x = 0 := fun x _ =>
      (paid_mul_le w rewardedEpoch pointValue x).resolve_right fun h =>
      absurd h.1 (by rw [hzero]; exact lt_irrefl 0)
    rw [map_congr_left hnone, map_const', sum_replicate, smul_zero]
    exact zero_le _
  · have heach : ∀ x ∈ xs, paid w rewardedEpoch pointValue x * pointValue.points ≤
        pointsOf w x * pointValue.rewards := fun x _ => by
      rcases paid_mul_le w rewardedEpoch pointValue x with hnone | hle
      · rw [hnone, zero_mul]
        exact zero_le _
      · exact hle.2
    refine le_of_mul_le_mul_right ?_ hpositive
    calc (xs.map (paid w rewardedEpoch pointValue)).sum * pointValue.points
        = (xs.map (fun x => paid w rewardedEpoch pointValue x * pointValue.points)).sum :=
          (sum_map_mul_right _ _ _).symm
      _ ≤ (xs.map (fun x => pointsOf w x * pointValue.rewards)).sum := sum_le_sum heach
      _ = (xs.map (pointsOf w)).sum * pointValue.rewards := sum_map_mul_right _ _ _
      _ ≤ pointValue.points * pointValue.rewards := mul_le_mul_right _ hpoints
      _ = pointValue.rewards * pointValue.points := mul_comm _ _

end Points

section Credits
variable {s : VoteState} {epoch : Epoch} {n total : Nat}

/-- What the vote program keeps of the credits. -/
structure Accrued (epochCredits : List (Epoch × Nat × Nat)) : Prop where
  chained : Chained epochCredits
  rising : Rising epochCredits
  bounded : ∀ entry ∈ epochCredits, entry.2.1 ≤ u64Max

/-- Credits go to an entry of their epoch: the first one, the last one with its epoch changed, or
one that goes on from the last one.  The oldest entry may go. -/
theorem incrementCredits_cases (s : VoteState) (epoch : Epoch) (n : Nat) :
    ∃ init c p d, (s.incrementCredits epoch n).epochCredits =
        (init ++ [(epoch, saturatingAdd c n, p)]).drop d ∧ d ≤ init.length ∧
      (s.epochCredits.length ≤ maxEpochCreditsHistory →
        init.length + 1 - d ≤ maxEpochCreditsHistory) ∧
      (s.epochCredits = [] ∧ init = [] ∧ c = 0 ∧ p = 0 ∨
        (∃ e, s.epochCredits = init ++ [(e, c, p)]) ∨
        p = c ∧ s.epochCredits = init ∧ ∃ init' e q, init = init' ++ [(e, c, q)] ∧ e ≠ epoch ∧
          c ≠ q) := by
  have htrim (init : List (Epoch × Nat × Nat)) :
      ∃ d ≤ init.length, (init.length ≤ maxEpochCreditsHistory →
          init.length + 1 - d ≤ maxEpochCreditsHistory) ∧
        ∀ x, (if maxEpochCreditsHistory < (init ++ [x]).length then (init ++ [x]).drop 1
          else init ++ [x]) = init.drop d ++ [x] := by
    by_cases hlong : maxEpochCreditsHistory < init.length + 1
    · have hone : 1 ≤ init.length := by
        unfold maxEpochCreditsHistory at hlong
        omega
      refine ⟨1, hone, by omega, fun x => ?_⟩
      rw [length_append, length_singleton, if_pos hlong, drop_append_of_le_length hone]
    · refine ⟨0, zero_le _, by omega, fun x => ?_⟩
      rw [length_append, length_singleton, if_neg hlong, drop_zero]
  unfold incrementCredits openEpoch
  cases hlast : s.epochCredits.getLast? with
  | none =>
    refine ⟨[], 0, 0, 0, by simp, le_rfl, by simp [maxEpochCreditsHistory], .inl ?_⟩
    simpa using hlast
  | some last =>
    obtain ⟨e, c, p⟩ := last
    obtain ⟨init, heq⟩ := getLast?_eq_some_iff.mp hlast
    dsimp only
    by_cases he : epoch = e
    · rw [if_neg (not_not.mpr he), hlast, heq]
      exact ⟨init, c, p, 0, by simp [he], zero_le _, by simp, .inr (.inl ⟨e, rfl⟩)⟩
    · rw [if_pos he]
      by_cases hc : c = p
      · obtain ⟨d, hd, hlength, htrim⟩ := htrim init
        rw [if_neg (not_not.mpr hc), heq, dropLast_concat, htrim, getLast?_concat]
        refine ⟨init, c, p, d, ?_, hd, fun h => hlength ?_, .inr (.inl ⟨e, rfl⟩)⟩
        · rw [dropLast_concat, drop_append_of_le_length hd]
        · simp at h
          omega
      · obtain ⟨d, hd, hlength, htrim⟩ := htrim s.epochCredits
        rw [if_pos hc, htrim, getLast?_concat]
        refine ⟨_, c, c, d, ?_, hd, hlength,
          .inr (.inr ⟨rfl, rfl, init, e, p, heq, Ne.symm he, hc⟩)⟩
        rw [dropLast_concat, drop_append_of_le_length hd]

/-- A relation of neighbours that allows a new epoch and more credits in the last entry, and an
entry that goes on from the last one. -/
theorem isChain_incrementCredits {P : Epoch × Nat × Nat → Epoch × Nat × Nat → Prop}
    (h : s.epochCredits.IsChain P)
    (hreplace : ∀ {init b e c p c'}, s.epochCredits = init ++ [(e, c, p)] → P b (e, c, p) →
      P b (epoch, c', p))
    (hnext : ∀ {init e c q c'}, s.epochCredits = init ++ [(e, c, q)] → e ≠ epoch → c ≠ q →
      P (e, c, q) (epoch, c', c)) :
    (s.incrementCredits epoch n).epochCredits.IsChain P := by
  obtain ⟨init, c, p, d, heq, -, -, hcases⟩ := incrementCredits_cases s epoch n
  rw [heq]
  refine IsChain.drop (isChain_append.mpr ?_) d
  rcases hcases with ⟨-, rfl, -⟩ | ⟨e, hlast⟩ | ⟨rfl, hinit, init', e, q, rfl, he, hc⟩
  · simp
  · rw [hlast] at h
    obtain ⟨hchain, -, hlink⟩ := isChain_append.mp h
    refine ⟨hchain, isChain_singleton _, fun b hb y hy => ?_⟩
    obtain rfl : (epoch, saturatingAdd c n, p) = y := some.inj hy
    exact hreplace hlast (hlink b hb _ rfl)
  · refine ⟨hinit ▸ h, isChain_singleton _, fun b hb y hy => ?_⟩
    obtain rfl : (epoch, saturatingAdd p n, p) = y := some.inj hy
    rw [getLast?_concat, mem_def, some_inj] at hb
    subst hb
    exact hnext hinit he hc

/-- The credits that votes earn are chained and rising. -/
theorem Accrued.incrementCredits (h : Accrued s.epochCredits) (epoch : Epoch) (credits : Nat) :
    Accrued (s.incrementCredits epoch credits).epochCredits := by
  obtain ⟨init, c, p, d, heq, -, -, hcases⟩ := incrementCredits_cases s epoch credits
  have hentry : p ≤ saturatingAdd c credits ∧ ∀ entry ∈ init, entry ∈ s.epochCredits := by
    have hle {e q} (hlast : (e, c, q) ∈ s.epochCredits) : c ≤ saturatingAdd c credits :=
      le_min (le_add_right c credits) (h.bounded _ hlast)
    rcases hcases with ⟨-, rfl, -, rfl⟩ | ⟨e, hlast⟩ | ⟨rfl, hinit, init', e, q, rfl, -⟩
    · simp
    · have hmem : (e, c, p) ∈ s.epochCredits := by simp [hlast]
      exact ⟨(h.rising _ hmem).trans (hle hmem), fun x hx => by simp [hlast, hx]⟩
    · exact ⟨hle (e := e) (q := q) (by simp [hinit]), fun x hx => hinit ▸ hx⟩
  have hmem : ∀ entry ∈ (s.incrementCredits epoch credits).epochCredits,
      entry ∈ s.epochCredits ∨ entry = (epoch, saturatingAdd c credits, p) := by
    intro entry hentry'
    rw [heq] at hentry'
    rcases mem_append.mp (mem_of_mem_drop hentry') with hx | hx
    · exact .inl (hentry.2 _ hx)
    · exact .inr (mem_singleton.mp hx)
  refine ⟨isChain_incrementCredits h.chained (fun _ => id) fun _ _ _ => rfl, ?_, ?_⟩
  · intro entry hx
    rcases hmem entry hx with hx | rfl
    · exact h.rising entry hx
    · exact hentry.1
  · intro entry hx
    rcases hmem entry hx with hx | rfl
    · exact h.bounded entry hx
    · exact min_le_right _ _

/-- The next entry is of a later epoch and goes on from credits that were earned. -/
def Follows (before entry : Epoch × Nat × Nat) : Prop :=
  before.1 < entry.1 ∧ before.2.2 < before.2.1 ∧ entry.2.2 = before.2.1

/-- The credits after calls up to an epoch with the given sum. -/
structure Earned (s : VoteState) (epoch : Epoch) (total : Nat) : Prop where
  accrued : Accrued s.epochCredits
  follows : s.epochCredits.IsChain Follows
  length : s.epochCredits.length ≤ maxEpochCreditsHistory
  current : ∀ {init e c p}, s.epochCredits = init ++ [(e, c, p)] → e ≤ epoch
  credits : s.credits = min total u64Max

theorem credits_of_last {init : List (Epoch × Nat × Nat)} {e c p : Nat}
    (h : s.epochCredits = init ++ [(e, c, p)]) : s.credits = c := by
  rw [credits, h, getLast?_concat]

theorem Earned.incrementCredits (h : Earned s epoch total) {epoch' : Epoch} (hle : epoch ≤ epoch')
    (n : Nat) : Earned (s.incrementCredits epoch' n) epoch' (total + n) := by
  obtain ⟨init, c, p, d, heq, hd, hlength, hcases⟩ := incrementCredits_cases s epoch' n
  have hlast := heq.trans (drop_append_of_le_length hd)
  have hc : c = s.credits := by
    rcases hcases with ⟨hnil, -, rfl, -⟩ | ⟨e, hlast⟩ | ⟨-, hinit, init', e, q, rfl, -⟩
    · rw [VoteState.credits, hnil, getLast?_nil]
    · exact (credits_of_last hlast).symm
    · exact (credits_of_last hinit).symm
  refine ⟨h.accrued.incrementCredits epoch' n, isChain_incrementCredits h.follows ?_ ?_, ?_, ?_, ?_⟩
  · rintro init b e c p c' hs ⟨hlt, hearned, hlink⟩
    exact ⟨hlt.trans_le ((h.current hs).trans hle), hearned, hlink⟩
  · intro init e c q c' hs he hne
    have hrising := h.accrued.rising (e, c, q) (by simp [hs])
    exact ⟨lt_of_le_of_ne ((h.current hs).trans hle) he, lt_of_le_of_ne hrising (Ne.symm hne), rfl⟩
  · rw [heq, length_drop, length_append]
    exact hlength h.length
  · intro init' e c' p' hs
    rw [hlast, append_singleton_inj] at hs
    cases hs.2
    exact le_rfl
  · rw [credits_of_last hlast, hc, h.credits, saturatingAdd]
    omega

theorem lt_of_follows {l : List (Epoch × Nat × Nat)} (h : l.IsChain Follows) :
    ∀ entry ∈ l.dropLast, entry.2.2 < entry.2.1 := by
  induction l with
  | nil => simp
  | cons x l ih =>
    cases l with
    | nil => simp
    | cons y l =>
      obtain ⟨hxy, hrest⟩ := isChain_cons_cons.mp h
      rw [dropLast_cons_cons, forall_mem_cons]
      exact ⟨hxy.2.1, ih hrest⟩

def incrementAll (s : VoteState) (calls : List (Epoch × Nat)) : VoteState :=
  calls.foldl (fun s call => s.incrementCredits call.1 call.2) s

theorem Earned.incrementAll {calls : List (Epoch × Nat)} (h : Earned s epoch total)
    (hepochs : (epoch :: calls.map Prod.fst).IsChain (· ≤ ·)) :
    ∃ epoch', Earned (incrementAll s calls) epoch' (total + (calls.map Prod.snd).sum) := by
  induction calls generalizing s epoch total with
  | nil => exact ⟨epoch, h⟩
  | cons call calls ih =>
    obtain ⟨hle, hrest⟩ := isChain_cons_cons.mp hepochs
    rw [map_cons, sum_cons, ← add_assoc]
    exact ih (h.incrementCredits hle call.2) hrest

/-- Calls with non-decreasing epochs leave one entry for each epoch with credits, each going on from
the one before it, and the credits are the sum of all calls. -/
theorem epochCredits_chained (calls : List (Epoch × Nat))
    (hepochs : (calls.map Prod.fst).Pairwise (· ≤ ·)) :
    let s := incrementAll .default calls
    s.epochCredits.Pairwise (fun x y => x.1 < y.1) ∧ Rising s.epochCredits ∧
      Chained s.epochCredits ∧ (∀ entry ∈ s.epochCredits.dropLast, entry.2.2 < entry.2.1) ∧
      s.epochCredits.length ≤ maxEpochCreditsHistory ∧
      s.credits = min (calls.map Prod.snd).sum u64Max := by
  have hstart : Earned .default 0 0 :=
    ⟨⟨isChain_nil, by simp [VoteState.default, Rising], by simp [VoteState.default]⟩, isChain_nil,
      by simp [VoteState.default], by simp [VoteState.default], rfl⟩
  have hchain : (0 :: calls.map Prod.fst).IsChain (· ≤ ·) :=
    isChain_iff_pairwise.mpr (pairwise_cons.mpr ⟨fun _ _ => zero_le _, hepochs⟩)
  obtain ⟨epoch, h⟩ := hstart.incrementAll hchain
  have hepoch : (incrementAll .default calls).epochCredits.IsChain (fun x y => x.1 < y.1) :=
    h.follows.imp fun _ _ hxy => hxy.1
  rw [← isChain_map Prod.fst, isChain_iff_pairwise, pairwise_map] at hepoch
  rw [zero_add] at h
  exact ⟨hepoch, h.accrued.rising, h.accrued.chained, lt_of_follows h.follows, h.length, h.credits⟩

theorem epochCredits_chained_two :
    let s := incrementAll .default [(3, 5), (8, 2)]
    s.epochCredits = [(3, 5, 0), (8, 7, 5)] ∧ s.credits = min (5 + 2) u64Max :=
  ⟨rfl, (epochCredits_chained [(3, 5), (8, 2)] (by decide)).2.2.2.2.2⟩

end Credits

/-- The points are the stake of each epoch times the credits above those observed, without an
underflow; what was redeemed is not paid again; and no more than the rewards is paid. -/
theorem rewards_exact :
    (∀ (w : Warmup) (stake : Stake) (vote : VoteState), InRange stake vote →
      Chained vote.epochCredits → Rising vote.epochCredits →
      ∃ calculated, calculateStakePointsAndCredits w stake vote = some calculated ∧
        calculated.points = exactPoints w stake vote.epochCredits) ∧
    (∀ (w : Warmup) (stake stake' : Stake) (rewardedEpoch : Epoch) (pointValue : PointValue)
        (vote : RewardedVoteState) (payment : Nat × Nat),
      redeemStakeRewards w stake rewardedEpoch pointValue vote = some (stake', some payment) →
      ∀ (w' : Warmup) (rewardedEpoch' : Epoch) (pointValue' : PointValue),
        ∃ stake'' result, redeemStakeRewards w' stake' rewardedEpoch' pointValue' vote =
          some (stake'', result) ∧ (result = none ∨ result = some (0, 0))) ∧
    (∀ (w : Warmup) (rewardedEpoch : Epoch) (pointValue : PointValue)
        (xs : List (Stake × RewardedVoteState)),
      (xs.map (pointsOf w)).sum ≤ pointValue.points →
      (xs.map (paid w rewardedEpoch pointValue)).sum ≤ pointValue.rewards) :=
  ⟨fun _ _ _ hrange hchain hrising => points_exact hchain hrising hrange,
    fun _ _ _ _ _ _ _ h => redeem_again h, fun _ _ _ _ hpoints => paid_le hpoints⟩

def exampleWarmup : Warmup := ⟨fun _ => none, fun _ _ _ _ => 0⟩

def exampleStake : Stake := ⟨⟨⟨1⟩, 100, 0, u64Max⟩, 3⟩

/-- A vote account with the given credits, and a commission of 10 percent. -/
def exampleVote (epochCredits : List (Epoch × Nat × Nat)) : RewardedVoteState :=
  ⟨⟨[], none, epochCredits⟩, 10⟩

def exampleCredits : List (Epoch × Nat × Nat) := [(1, 5, 0), (2, 9, 5)]

/-- The points of the example, a second redemption and the payment. -/
theorem rewards_exact_example :
    (∃ calculated, calculateStakePointsAndCredits exampleWarmup exampleStake
        (exampleVote exampleCredits).toVoteState = some calculated ∧
      calculated.points = exactPoints exampleWarmup exampleStake exampleCredits) ∧
    (∃ stake' payment, redeemStakeRewards exampleWarmup exampleStake 2 ⟨1000, 600⟩
        (exampleVote exampleCredits) = some (stake', some payment) ∧
      ∃ stake'' result, redeemStakeRewards exampleWarmup stake' 2 ⟨1000, 600⟩
        (exampleVote exampleCredits) = some (stake'', result) ∧
          (result = none ∨ result = some (0, 0))) ∧
    ([(exampleStake, exampleVote exampleCredits)].map
      (paid exampleWarmup 2 ⟨1000, 600⟩)).sum ≤ 1000 := by
  refine ⟨rewards_exact.1 _ _ _ ⟨by decide, by decide⟩ ?_ (by unfold Rising; decide), ?_,
    rewards_exact.2.2 _ _ ⟨1000, 600⟩ _ (by decide)⟩
  · exact isChain_cons_cons.mpr ⟨rfl, isChain_singleton _⟩
  · obtain ⟨stake', payment, h⟩ : ∃ stake' payment, redeemStakeRewards exampleWarmup exampleStake 2
        ⟨1000, 600⟩ (exampleVote exampleCredits) = some (stake', some payment) := ⟨_, _, rfl⟩
    exact ⟨stake', payment, h, rewards_exact.2.1 _ _ _ _ _ _ _ h _ _ _⟩

/-- An entry with falling credits is chained, and the loop subtracts below zero. -/
theorem falling_credits_underflow :
    ¬ ∀ (w : Warmup) (stake : Stake) (vote : VoteState), InRange stake vote →
      Chained vote.epochCredits →
      ∃ calculated, calculateStakePointsAndCredits w stake vote = some calculated ∧
        calculated.points = exactPoints w stake vote.epochCredits := by
  intro h
  obtain ⟨calculated, hcalculated, _⟩ := h exampleWarmup exampleStake
    (exampleVote [(1, 5, 10)]).toVoteState ⟨by decide, by decide⟩ (isChain_singleton _)
  have hnone : calculateStakePointsAndCredits exampleWarmup exampleStake
      (exampleVote [(1, 5, 10)]).toVoteState = none := by decide
  rw [hnone] at hcalculated
  exact absurd hcalculated (by simp)

variable {stake : Stake} {s o a p c : Nat}

def stakeWeightedCreditsObserved (stake : Stake) (absorbedLamports absorbedCreditsObserved : Nat) :
    Option Nat :=
  if stake.creditsObserved = absorbedCreditsObserved then some stake.creditsObserved
  else do
    let totalStake ← fitting u64Max (stake.delegation.stake + absorbedLamports)
    let stakeWeightedCredits ← fitting u128Max (stake.creditsObserved * stake.delegation.stake)
    let absorbedWeightedCredits ← fitting u128Max (absorbedCreditsObserved * absorbedLamports)
    let weightedCredits ← fitting u128Max (stakeWeightedCredits + absorbedWeightedCredits)
    let numerator ← fitting u128Max (weightedCredits + totalStake)
    let totalWeightedCredits ← checkedSub numerator 1
    if totalStake = 0 then none else fitting u64Max (totalWeightedCredits / totalStake)

/-- What a merge is paid for until the vote account has earned `credits`, against what the two
stakes would be paid for. -/
structure Merged (lamports observed absorbed absorbedObserved merged : Nat) : Prop where
  least : min observed absorbedObserved ≤ merged
  most : merged ≤ max observed absorbedObserved
  creates : ∀ credits ≥ max observed absorbedObserved,
    (lamports + absorbed) * (credits - merged) ≤
      lamports * (credits - observed) + absorbed * (credits - absorbedObserved)
  loses : 0 < lamports + absorbed → ∀ credits ≥ max observed absorbedObserved,
    lamports * (credits - observed) + absorbed * (credits - absorbedObserved) <
      (lamports + absorbed) * (credits - merged) + (lamports + absorbed)

theorem Merged.same (s a o : Nat) : Merged s o a o o where
  least := min_le_left _ _
  most := le_max_left _ _
  creates v _ := (add_mul ..).le
  loses hpos v _ := by
    rw [← add_mul]
    exact Nat.lt_add_of_pos_right hpos

/-- The average rounded up is between the two values. -/
theorem Merged.of_ceil (hlow : o * s + p * a ≤ c * (s + a))
    (hhigh : c * (s + a) < o * s + p * a + (s + a)) : Merged s o a p c := by
  have hpos : 0 < s + a := by omega
  have hmost : c ≤ max o p := by
    refine Nat.lt_succ_iff.mp (lt_of_mul_lt_mul_right (hhigh.trans_le ?_) hpos.le)
    have ho := Nat.mul_le_mul_right s (le_max_left o p)
    have hp := Nat.mul_le_mul_right a (le_max_right o p)
    rw [Nat.succ_mul, mul_add (max o p)]
    omega
  have hleast : min o p ≤ c := by
    refine le_of_mul_le_mul_right (le_trans ?_ hlow) hpos
    have ho := Nat.mul_le_mul_right s (min_le_left o p)
    have hp := Nat.mul_le_mul_right a (min_le_right o p)
    rw [mul_add (min o p)]
    omega
  -- the products with the differences, as differences of products
  have hsplit : ∀ v ≥ max o p, s * (v - o) + a * (v - p) + (o * s + p * a) =
      (s + a) * (v - c) + c * (s + a) := by
    intro v hv
    have ho := Nat.sub_add_cancel ((le_max_left o p).trans hv)
    have hp := Nat.sub_add_cancel ((le_max_right o p).trans hv)
    have hc := Nat.sub_add_cancel (hmost.trans hv)
    calc _ = s * (v - o + o) + a * (v - p + p) := by ring
      _ = (s + a) * (v - c + c) := by rw [ho, hp, hc, add_mul]
      _ = _ := by ring
  refine ⟨hleast, hmost, fun v hv => ?_, fun _ v hv => ?_⟩ <;> have heq := hsplit v hv <;> omega

theorem Merged.ceil (hpos : 0 < s + a) :
    Merged s o a p ((o * s + p * a + (s + a) - 1) / (s + a)) := by
  have hdiv := Nat.div_add_mod' (o * s + p * a + (s + a) - 1) (s + a)
  have hmod := Nat.mod_lt (o * s + p * a + (s + a) - 1) hpos
  exact Merged.of_ceil (by omega) (by omega)

/-- A merge of `u64` credits fails only if the sum of the stakes does not fit or is zero, and else
loses less than one credit of the merged stake. -/
theorem stakeWeightedCreditsObserved_bounds (hobserved : stake.creditsObserved ≤ u64Max)
    (habsorbed : p ≤ u64Max) :
    (∀ c, stakeWeightedCreditsObserved stake a p = some c →
      Merged stake.delegation.stake stake.creditsObserved a p c) ∧
    (stakeWeightedCreditsObserved stake a p = none →
      u64Max < stake.delegation.stake + a ∨ stake.delegation.stake + a = 0) := by
  rw [stakeWeightedCreditsObserved]
  generalize stake.delegation.stake = s
  generalize stake.creditsObserved = o at *
  by_cases heq : o = p
  · rw [if_pos heq, heq]
    refine ⟨fun c hc => ?_, nofun⟩
    cases hc
    exact Merged.same ..
  rw [if_neg heq]
  by_cases hfits : s + a ≤ u64Max
  · -- no operation but the sum of the stakes overflows
    have hs := Nat.mul_le_mul_right s hobserved
    have ha := Nat.mul_le_mul_right a habsorbed
    have htotal := Nat.mul_le_mul_left u64Max hfits
    have hroom : u64Max * u64Max + u64Max ≤ u128Max := by decide
    rw [mul_add] at htotal
    simp only [fitting_of_le hfits, fitting_of_le (by omega : o * s ≤ u128Max),
      fitting_of_le (by omega : p * a ≤ u128Max),
      fitting_of_le (by omega : o * s + p * a ≤ u128Max),
      fitting_of_le (by omega : o * s + p * a + (s + a) ≤ u128Max), bind_eq_bind, bind_some,
      checkedSub]
    rcases Nat.eq_zero_or_pos (s + a) with hzero | hpos
    · obtain ⟨rfl, rfl⟩ := Nat.add_eq_zero_iff.mp hzero
      exact ⟨nofun, fun _ => .inr rfl⟩
    · have hmerged : Merged s o a p _ := Merged.ceil hpos
      rw [if_pos (by omega), bind_some, if_neg hpos.ne',
        fitting_of_le (hmerged.most.trans (max_le hobserved habsorbed))]
      refine ⟨fun c hc => ?_, nofun⟩
      cases hc
      exact hmerged
  · rw [fitting, if_neg hfits]
    exact ⟨nofun, fun _ => .inl (Nat.lt_of_not_le hfits)⟩

theorem stakeWeightedCreditsObserved_bounds_pair : Merged 2 5 3 4 5 :=
  (@stakeWeightedCreditsObserved_bounds ⟨⟨⟨1⟩, 2, 0, u64Max⟩, 5⟩ 3 4 (by decide) (by decide)).1 5
    (by decide)

/-- Two empty stakes: nothing is lost, which is not less than the merged stake. -/
theorem empty_merge : stakeWeightedCreditsObserved ⟨⟨⟨1⟩, 0, 0, u64Max⟩, 5⟩ 0 5 = some 5 ∧
    ¬(0 * (7 - 5) + 0 * (7 - 5) - (0 + 0) * (7 - 5) < 0 + 0) := by
  decide

end StakeRewards
end Hypergrid
