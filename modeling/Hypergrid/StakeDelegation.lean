import Hypergrid.Account

/-!
# Delegated stake

The model of `Delegation` of `sdk/program/src/stake/state.rs`: how much of a delegation is effective
in an epoch, from the history of the stake of the whole cluster.  The floating-point share that an
account has in what the cluster activates or deactivates is a parameter.

* `effective_le` : no more than the delegated stake is effective.
-/

namespace Hypergrid

/-- `Delegation`, without its deprecated rate. -/
structure Delegation where
  voterPubkey : Pubkey
  stake : Nat
  activationEpoch : Epoch
  deactivationEpoch : Epoch
deriving DecidableEq

structure Stake where
  delegation : Delegation
  creditsObserved : Nat
deriving DecidableEq

structure StakeHistoryEntry where
  effective : Nat
  activating : Nat
  deactivating : Nat
deriving DecidableEq

structure StakeActivationStatus where
  effective : Nat
  activating : Nat
  deactivating : Nat
deriving DecidableEq

def Delegation.isBootstrap (d : Delegation) : Bool := d.activationEpoch = u64Max

/-- What the effective stake depends on beside the delegation. -/
structure Warmup where
  history : Epoch → Option StakeHistoryEntry
  /-- `(weight * newly_effective_cluster_stake) as u64`, of the stake of the account and of the
  cluster that is to be moved, the effective stake of the cluster and the current epoch -/
  share : Nat → Nat → Nat → Epoch → Nat

namespace Warmup

variable (w : Warmup) (d : Delegation)

/-- The loop of `stake_and_activating`; it ends at the target epoch, and its sum wraps. -/
def activate (target : Epoch) : Nat → Epoch → StakeHistoryEntry → Nat → Nat
  | 0, _, _, current => current
  | fuel + 1, prevEpoch, prevCluster, current =>
    if prevCluster.activating = 0 then current
    else
      let newly := max (w.share (d.stake - current) prevCluster.activating
        prevCluster.effective (prevEpoch + 1)) 1
      let effective := (current + newly) % 2 ^ 64
      if d.stake ≤ effective then d.stake
      else if target ≤ prevEpoch + 1 ∨ d.deactivationEpoch ≤ prevEpoch + 1 then effective
      else
        match w.history (prevEpoch + 1) with
        | some cluster => activate target fuel (prevEpoch + 1) cluster effective
        | none => effective

def stakeAndActivating (target : Epoch) : Nat × Nat :=
  if d.isBootstrap then (d.stake, 0)
  else if d.activationEpoch = d.deactivationEpoch then (0, 0)
  else if target = d.activationEpoch then (0, d.stake)
  else if target < d.activationEpoch then (0, 0)
  else
    match w.history d.activationEpoch with
    | some cluster =>
      let effective := w.activate d target (target - d.activationEpoch) d.activationEpoch cluster 0
      (effective, d.stake - effective)
    | none => (d.stake, 0)

/-- The loop of `stake_activating_and_deactivating`, for the epochs up to the target. -/
def deactivate : Nat → Epoch → StakeHistoryEntry → Nat → Nat
  | 0, _, _, current => current
  | epochs + 1, prevEpoch, prevCluster, current =>
    if prevCluster.deactivating = 0 then current
    else
      let newly := max (w.share current prevCluster.deactivating prevCluster.effective
        (prevEpoch + 1)) 1
      if current - newly = 0 then 0
      else
        match w.history (prevEpoch + 1) with
        | some cluster => deactivate epochs (prevEpoch + 1) cluster (current - newly)
        | none => current - newly

/-- `stake_activating_and_deactivating`. -/
def status (target : Epoch) : StakeActivationStatus :=
  let effective := (w.stakeAndActivating d target).1
  if target < d.deactivationEpoch then ⟨effective, (w.stakeAndActivating d target).2, 0⟩
  else if target = d.deactivationEpoch then ⟨effective, 0, effective⟩
  else
    match w.history d.deactivationEpoch with
    | some cluster =>
      let left := w.deactivate (target - d.deactivationEpoch) d.deactivationEpoch cluster effective
      ⟨left, 0, left⟩
    | none => ⟨0, 0, 0⟩

variable {w d}

theorem activate_le {target : Epoch} {fuel : Nat} {prevEpoch : Epoch} {cluster : StakeHistoryEntry}
    {current : Nat} (h : current ≤ d.stake) :
    w.activate d target fuel prevEpoch cluster current ≤ d.stake := by
  induction fuel generalizing prevEpoch cluster current with
  | zero => exact h
  | succ fuel ih =>
    rw [activate]
    split
    · exact h
    · dsimp only
      split
      · exact le_rfl
      · rename_i hlt
        have hle := (Nat.lt_of_not_le hlt).le
        split
        · exact hle
        · split
          · exact ih hle
          · exact hle

theorem stakeAndActivating_le (target : Epoch) : (w.stakeAndActivating d target).1 ≤ d.stake := by
  unfold stakeAndActivating
  split
  · exact le_rfl
  · split
    · exact Nat.zero_le _
    · split
      · exact Nat.zero_le _
      · split
        · exact Nat.zero_le _
        · split
          · exact activate_le (Nat.zero_le _)
          · exact le_rfl

theorem deactivate_le (epochs : Nat) (prevEpoch : Epoch) (cluster : StakeHistoryEntry)
    (current : Nat) : w.deactivate epochs prevEpoch cluster current ≤ current := by
  induction epochs generalizing prevEpoch cluster current with
  | zero => exact le_rfl
  | succ epochs ih =>
    rw [deactivate]
    split
    · exact le_rfl
    · dsimp only
      split
      · exact Nat.zero_le _
      · split
        · exact (ih _ _ _).trans (Nat.sub_le _ _)
        · exact Nat.sub_le _ _

theorem effective_le (epoch : Epoch) : (w.status d epoch).effective ≤ d.stake := by
  have hle : (w.stakeAndActivating d epoch).1 ≤ d.stake := stakeAndActivating_le epoch
  unfold status
  split
  · exact hle
  · split
    · exact hle
    · split
      · exact (deactivate_le _ _ _ _).trans hle
      · exact Nat.zero_le _

end Warmup
end Hypergrid
