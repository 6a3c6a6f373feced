import Hypergrid.Account

/-!
# Storing the rewards of vote accounts

The model of `calc_vote_accounts_to_store`, `store_vote_accounts_partitioned` and the classic
`store_vote_accounts` of `runtime/src/bank.rs`.  A store is the list of the pairs that it writes.

The partitioned path keeps keys and accounts in two lists and drops the missing accounts before it
counts positions, so that the accounts to store meet the first keys.

* `partitioned_eq` : what the partitioned path stores and returns.
* `partitioned_paysOwn_iff` : when the partitioned path does.
-/

namespace Hypergrid
open List Option

structure VoteReward where
  voteAccount : AccountSharedData
  commission : UInt8
  voteRewards : Nat
  voteNeedsStore : Bool

/-- `VoteRewards`: a map, in the order of an iteration. -/
structure VoteRewards where
  entries : List (Pubkey × VoteReward)
  nodup : (entries.map Prod.fst).Nodup

/-- `RewardInfo` of the type `Voting`. -/
structure RewardInfo where
  lamports : Int
  postBalance : Nat
  commission : Option UInt8
deriving DecidableEq

structure VoteRewardsAccounts where
  rewards : List (Pubkey × RewardInfo)
  accountsToStore : List (Option AccountSharedData)

namespace VoteReward

variable (r : VoteReward)

/-- The sum of the balance and the rewards is a `u64`. -/
def fits : Bool := decide (r.voteAccount.lamports + r.voteRewards ≤ u64Max)

def credited : AccountSharedData :=
  { r.voteAccount with lamports := r.voteAccount.lamports + r.voteRewards }

def checkedAddLamports : Option AccountSharedData := if r.fits then some r.credited else none

/-- The reward info with the balance of the account; the cast to `i64` wraps. -/
def rewardInfo (account : AccountSharedData) : RewardInfo :=
  { lamports := (r.voteRewards : Int).bmod (2 ^ 64)
    postBalance := account.lamports
    commission := some r.commission }

end VoteReward

/-- What is stored, and the reward infos. -/
abbrev VoteStores := List (Pubkey × AccountSharedData) × List (Pubkey × RewardInfo)

/-- `store_vote_accounts_partitioned`; `none` for an index out of range. -/
def VoteRewardsAccounts.storeVoteAccountsPartitioned (r : VoteRewardsAccounts) :
    Option VoteStores :=
  ((r.accountsToStore.filterMap id).zipIdx.mapM (fun x =>
    (r.rewards[x.2]?).map (fun reward => (reward.1, x.1)))).map (fun stored => (stored, r.rewards))

namespace VoteRewards

variable (rewards : VoteRewards)

def calcVoteAccountsToStore : VoteRewardsAccounts :=
  { rewards := rewards.entries.filterMap (fun x =>
      x.2.checkedAddLamports.map (fun account => (x.1, x.2.rewardInfo account)))
    accountsToStore := rewards.entries.filterMap (fun x =>
      x.2.checkedAddLamports.map (fun account =>
        if x.2.voteNeedsStore then some account else none)) }

def storeVoteAccounts : VoteStores :=
  (rewards.entries.filterMap (fun x =>
      x.2.checkedAddLamports.bind (fun account =>
        if x.2.voteNeedsStore then some (x.1, account) else none)),
    rewards.entries.filterMap (fun x =>
      x.2.checkedAddLamports.map (fun account => (x.1, x.2.rewardInfo account))))

def payable : List (Pubkey × VoteReward) := rewards.entries.filter (fun x => x.2.fits)

def needed : List (Pubkey × VoteReward) := rewards.payable.filter (fun x => x.2.voteNeedsStore)

/-- Each key whose entry is payable and needs storing gets its own account with its rewards, and
nothing else is stored. -/
def PaysOwn (stored : List (Pubkey × AccountSharedData)) : Prop :=
  ∀ k a, (k, a) ∈ stored ↔ ∃ x ∈ rewards.entries,
    (x.2.fits = true ∧ x.2.voteNeedsStore = true) ∧ (x.1, x.2.credited) = (k, a)

theorem filterMap_checkedAddLamports {α : Type} (f : Pubkey × VoteReward → AccountSharedData → α) :
    rewards.entries.filterMap (fun x => x.2.checkedAddLamports.map (f x)) =
      rewards.payable.map (fun x => f x x.2.credited) := by
  unfold payable
  induction rewards.entries with
  | nil => rfl
  | cons x entries ih =>
    cases hfits : x.2.fits <;> simpa [VoteReward.checkedAddLamports, hfits] using ih

theorem mapM_zipIdx {α β : Type} (as : List α) (ks : List (Pubkey × β)) (n : Nat)
    (h : n + as.length ≤ ks.length) :
    (as.zipIdx n).mapM (fun x => (ks[x.2]?).map (fun k => (k.1, x.1))) =
      some (((ks.map Prod.fst).drop n).zip as) := by
  induction as generalizing n with
  | nil => simp
  | cons a as ih =>
    rw [length_cons] at h
    have hn : n < ks.length := by omega
    have hdrop := drop_eq_getElem_cons (l := ks.map Prod.fst) (i := n) (by simpa using hn)
    rw [zipIdx_cons, mapM_cons, ih (n + 1) (by omega), hdrop]
    simp [getElem?_eq_getElem hn]

/-- The accounts to store meet the keys in order. -/
theorem partitioned_eq :
    rewards.calcVoteAccountsToStore.storeVoteAccountsPartitioned =
      some ((rewards.payable.map Prod.fst).zip (rewards.needed.map (fun x => x.2.credited)),
        rewards.storeVoteAccounts.2) := by
  have hsome : ∀ l : List (Pubkey × VoteReward),
      (l.map (fun x => if x.2.voteNeedsStore then some x.2.credited else none)).filterMap id =
        (l.filter (fun x => x.2.voteNeedsStore)).map (fun x => x.2.credited) := by
    intro l
    induction l with
    | nil => rfl
    | cons x l ih => cases hneeds : x.2.voteNeedsStore <;> simpa [hneeds] using ih
  have hlength : rewards.needed.length ≤ rewards.payable.length := length_filter_le ..
  unfold VoteRewardsAccounts.storeVoteAccountsPartitioned calcVoteAccountsToStore
  simp only [filterMap_checkedAddLamports, hsome]
  rw [mapM_zipIdx _ _ 0 (by simpa [needed] using hlength)]
  simp [storeVoteAccounts, filterMap_checkedAddLamports, needed, Function.comp_def]

/-- Zipping the keys of a list with the values of some elements gives these their own keys exactly
if they come first. -/
theorem zip_filter_iff {α β γ : Type} {l : List α} {key : α → β} (val : α → γ) (p : α → Bool)
    (hnodup : (l.map key).Nodup) :
    (∀ k v, (k, v) ∈ (l.map key).zip ((l.filter p).map val) ↔
        ∃ x ∈ l.filter p, (key x, val x) = (k, v)) ↔
      ∃ first rest, l = first ++ rest ∧ (∀ x ∈ first, p x = true) ∧ ∀ x ∈ rest, p x = false := by
  constructor
  · intro hown
    -- the keys of as many of the first elements as are picked occur, so that these are picked
    have hfirst : ∀ x ∈ l.take (l.filter p).length, p x = true := by
      intro x hx
      obtain ⟨i, hi, rfl⟩ := mem_take_iff_getElem.mp hx
      rw [Nat.lt_min] at hi
      have hmem := getElem_mem (l := (l.map key).zip ((l.filter p).map val)) (n := i)
        (by simpa using ⟨hi.2, hi.1⟩)
      rw [getElem_zip, hown] at hmem
      obtain ⟨y, hy, heq⟩ := hmem
      rw [getElem_map, Prod.mk.injEq] at heq
      obtain ⟨hy, hpick⟩ := mem_filter.mp hy
      rwa [← inj_on_of_nodup_map hnodup hy (getElem_mem hi.2) heq.1]
    refine ⟨_, _, (take_append_drop _ l).symm, hfirst, fun x hx => ?_⟩
    have hcount := congrArg (fun l => (l.filter p).length)
      (take_append_drop (l.filter p).length l)
    simp only [filter_append, length_append, filter_eq_self.mpr hfirst, length_take] at hcount
    have hle := length_filter_le p l
    have hnil : (l.drop (l.filter p).length).filter p = [] := eq_nil_of_length_eq_zero (by omega)
    simpa using filter_eq_nil_iff.mp hnil x hx
  · rintro ⟨first, rest, rfl, hfirst, hrest⟩ k v
    have hfilter : (first ++ rest).filter p = first := by
      rw [filter_append, filter_eq_self.mpr hfirst,
        filter_eq_nil_iff.mpr (by simpa using hrest), append_nil]
    have hzip : (first.map key ++ rest.map key).zip (first.map val ++ []) =
        (first.map key).zip (first.map val) ++ (rest.map key).zip [] := zip_append (by simp)
    simp only [append_nil, zip_nil_right, zip_map'] at hzip
    rw [hfilter, map_append, hzip, List.mem_map]

/-- The partitioned path returns the reward infos of the classic one, and it pays every entry under
its own key exactly if no payable entry that needs no storing comes before one that does. -/
theorem partitioned_paysOwn_iff :
    (∃ stored, rewards.calcVoteAccountsToStore.storeVoteAccountsPartitioned =
        some (stored, rewards.storeVoteAccounts.2) ∧ rewards.PaysOwn stored) ↔
      ∃ first rest, rewards.payable = first ++ rest ∧
        (∀ x ∈ first, x.2.voteNeedsStore = true) ∧ ∀ x ∈ rest, x.2.voteNeedsStore = false := by
  have hnodup : (rewards.payable.map Prod.fst).Nodup :=
    rewards.nodup.sublist (filter_sublist.map Prod.fst)
  rw [← zip_filter_iff (fun x => x.2.credited) (fun x => x.2.voteNeedsStore) hnodup]
  simp only [partitioned_eq, some.injEq, Prod.mk.injEq, and_true, exists_eq_left', PaysOwn, needed,
    payable, mem_filter, and_assoc]

def secondNeedsStore : VoteRewards where
  entries := [(.ofNat 1, ⟨AccountSharedData.create 10 [1] systemProgramId false 0, 5, 3, false⟩),
    (.ofNat 2, ⟨AccountSharedData.create 20 [2] systemProgramId false 0, 5, 4, true⟩)]
  nodup := by decide

/-- The account of the second key is stored under the first one. -/
theorem second_stored_as_first :
    ¬∃ stored, secondNeedsStore.calcVoteAccountsToStore.storeVoteAccountsPartitioned =
      some (stored, secondNeedsStore.storeVoteAccounts.2) ∧ secondNeedsStore.PaysOwn stored := by
  rintro ⟨stored, hstored, hown⟩
  have hone : secondNeedsStore.calcVoteAccountsToStore.storeVoteAccountsPartitioned.map Prod.fst =
      some [(Pubkey.ofNat 1, AccountSharedData.create 24 [2] systemProgramId false 0)] := by decide
  rw [hstored] at hone
  cases hone
  obtain ⟨x, hx, ⟨-, hneeds⟩, heq⟩ := (hown _ _).mp (mem_singleton_self _)
  have hnot : ∀ x ∈ secondNeedsStore.entries, x.1 = .ofNat 1 → x.2.voteNeedsStore = false := by
    decide
  rw [hnot x hx (Prod.mk.inj heq).1] at hneeds
  cases hneeds

end VoteRewards
end Hypergrid
