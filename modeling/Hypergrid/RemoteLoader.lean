import Hypergrid.Account

/-!
# The remote account loader

The model of `accounts-db/src/remote_loader.rs`.  The loader keeps a map from
keys to accounts fetched from the base layer.

The RPC client is outside the repository.  Every call of `load_account_via_rpc`
receives an arbitrary answer: an account, or `none` for an error.  The recursion
of `load_account` consumes a list with the answers of its consecutive calls; an
empty list stands for a call that has not been answered yet.

`fetched` lists what a call of `load_account` inserts, in order, and `deactivated`
what a call of `deactivate_account` removes; `loadAccount_eq_insertAll` and
`deactivateAccount_eq_removeAll` say that this is all that the two functions do.
-/

namespace Hypergrid
open List

/-- The part of the configuration that the modelled functions read. -/
structure Config where
  sonicProgramId : List Char

structure RemoteAccountLoader where
  accountCache : Pubkey → Option AccountSharedData
  enable : Bool
  config : Config

namespace RemoteAccountLoader

variable (l : RemoteAccountLoader) (pubkey : Pubkey) (xs : List (Pubkey × AccountSharedData))
  (k : Pubkey) (a : AccountSharedData)
variable {answers : List (Option RpcAccount)}

/-- `RemoteAccountLoader::new`: an empty cache, and always enabled. -/
def new (config : Config) : RemoteAccountLoader :=
  { accountCache := fun _ => none, enable := true, config }

/-- `ignored_account`: keys whose text has sixteen `1`s in a row. -/
def ignoredAccount : Bool :=
  containsText (List.replicate 16 '1') pubkey.toString

def getAccount : Option AccountSharedData :=
  if !l.enable || ignoredAccount pubkey then none
  else l.accountCache pubkey

def hasAccount : Bool :=
  if !l.enable || ignoredAccount pubkey then false
  else (l.accountCache pubkey).isSome

def insert : RemoteAccountLoader :=
  { l with accountCache := Function.update l.accountCache pubkey (some a) }

def remove : RemoteAccountLoader :=
  { l with accountCache := Function.update l.accountCache pubkey none }

/-- The account that is kept for an answer of the RPC client. -/
def remoteAccount (r : RpcAccount) : AccountSharedData :=
  { AccountSharedData.create r.lamports r.data r.owner r.executable r.rentEpoch with
    remote := true }

/-- `load_account_via_rpc`, given the answer of the RPC client. -/
def loadAccountViaRpc (answer : Option RpcAccount) :
    RemoteAccountLoader × Option AccountSharedData :=
  if ignoredAccount pubkey then (l, none)
  else
    match answer with
    | some r => (l.insert pubkey (remoteAccount r), some (remoteAccount r))
    | none => (l, none)

/-- `has_programdata_account`.  A non-executable account is not excluded. -/
def hasProgramdataAccount (programAccount : AccountSharedData) : Option Pubkey :=
  if programAccount.executable && programAccount.owner != bpfLoaderUpgradeableId then
    none
  else
    match UpgradeableLoaderState.deserialize programAccount.data with
    | some (.program programdataAddress) => some programdataAddress
    | _ => none

/-- `load_account`, given the answers to its consecutive RPC calls. -/
def loadAccount (l : RemoteAccountLoader) (pubkey : Pubkey) :
    List (Option RpcAccount) → RemoteAccountLoader × Option AccountSharedData
  | [] => (l, none)
  | answer :: answers =>
    if !l.enable || ignoredAccount pubkey then (l, none)
    else
      match loadAccountViaRpc l pubkey answer with
      | (l', some account) =>
        match hasProgramdataAccount account with
        | some programdataAddress =>
          ((loadAccount l' programdataAddress answers).1, some account)
        | none => (l', some account)
      | (l', none) => (l', none)

/-- `deactivate_account`: the key and the programdata key of its account. -/
def deactivateAccount : RemoteAccountLoader :=
  if !l.enable || ignoredAccount pubkey then l
  else
    match l.getAccount pubkey with
    | some account =>
      match hasProgramdataAccount account with
      | some programdataAddress => (l.remove pubkey).remove programdataAddress
      | none => l.remove pubkey
    | none => l

def isSonicProgram : Bool :=
  if pubkey.toString == l.config.sonicProgramId then l.hasAccount pubkey else false

/-- The transaction with `setlocker` and `setvalue` that goes to the base layer. -/
structure StatusUpdate where
  programId : Pubkey
  account : Pubkey
  value : Nat
deriving DecidableEq

/-- `send_status_to_baselayer`: what is sent, and the loader after the reload that
follows an accepted transaction. -/
def sendStatusToBaselayer (programId account : Pubkey)
    (value : Nat) (accepted : Bool) (answer : Option RpcAccount) :
    RemoteAccountLoader × StatusUpdate :=
  (if accepted then (l.loadAccountViaRpc account answer).1 else l,
    { programId, account, value })

theorem hasAccount_eq : l.hasAccount k = (l.getAccount k).isSome := by
  unfold hasAccount getAccount
  split_ifs <;> rfl

/-- Every account that the loader creates is marked remote. -/
@[simp] theorem remoteAccount_remote (r : RpcAccount) :
    (remoteAccount r).remote = true := rfl

/-- What a call of `load_account` on an enabled loader inserts, in order. -/
def fetched (pubkey : Pubkey) :
    List (Option RpcAccount) → List (Pubkey × AccountSharedData)
  | [] => []
  | answer :: answers =>
    if ignoredAccount pubkey then []
    else
      match answer with
      | some r =>
        match hasProgramdataAccount (remoteAccount r) with
        | some programdataAddress =>
          (pubkey, remoteAccount r) :: fetched programdataAddress answers
        | none => [(pubkey, remoteAccount r)]
      | none => []

def insertAll : RemoteAccountLoader :=
  xs.foldl (fun l x => l.insert x.1 x.2) l

@[simp] theorem insertAll_enable : (l.insertAll xs).enable = l.enable := by
  induction xs generalizing l with
  | nil => rfl
  | cons x xs ih => exact ih _

theorem loadAccount_eq_insertAll (henable : l.enable = true) (k : Pubkey)
    (answers : List (Option RpcAccount)) :
    (l.loadAccount k answers).1 = l.insertAll (fetched k answers) := by
  induction answers generalizing l k with
  | nil => rfl
  | cons answer answers ih =>
    by_cases hig : ignoredAccount k = true
    · simp [loadAccount, fetched, hig, insertAll]
    · cases answer with
      | none =>
        simp [loadAccount, fetched, loadAccountViaRpc, henable, hig, insertAll]
      | some r =>
        cases hpd : hasProgramdataAccount (remoteAccount r) with
        | none =>
          simp [loadAccount, fetched, loadAccountViaRpc, henable, hig, hpd, insertAll]
        | some p =>
          have hnext := ih (l.insert k (remoteAccount r)) henable p
          simp only [loadAccount, fetched, loadAccountViaRpc, henable, hig, hpd, insertAll,
            Bool.not_true, Bool.false_or, Bool.false_eq_true, if_false, foldl_cons] at hnext ⊢
          exact hnext

theorem insertAll_accountCache :
    (l.insertAll xs).accountCache k =
      ((xs.reverse.find? (fun x => x.1 = k)).map Prod.snd).or (l.accountCache k) := by
  induction xs generalizing l with
  | nil => simp [insertAll]
  | cons x xs ih =>
    have hrest := ih (l.insert x.1 x.2)
    simp only [insertAll, foldl_cons] at hrest ⊢
    rw [hrest, reverse_cons, find?_append]
    cases hfind : xs.reverse.find? (fun y => y.1 = k) with
    | some y => simp
    | none =>
      by_cases hx : x.1 = k
      · subst hx
        simp [insert]
      · simp [insert, hx, Function.update_of_ne (Ne.symm hx)]

/-- What is fetched is marked remote, and nothing is fetched under a key that the loader ignores. -/
theorem of_mem_fetched {k q : Pubkey} {a : AccountSharedData} (hmem : (q, a) ∈ fetched k answers) :
    ignoredAccount q = false ∧ a.remote = true := by
  induction answers generalizing k with
  | nil => cases hmem
  | cons answer answers ih =>
    unfold fetched at hmem
    split_ifs at hmem with hig
    · cases hmem
    · rw [Bool.not_eq_true] at hig
      cases answer with
      | none => cases hmem
      | some r =>
        cases hpd : hasProgramdataAccount (remoteAccount r) with
        | none =>
          simp only [hpd, mem_singleton, Prod.mk.injEq] at hmem
          obtain ⟨rfl, rfl⟩ := hmem
          exact ⟨hig, remoteAccount_remote r⟩
        | some programdataAddress =>
          simp only [hpd, mem_cons, Prod.mk.injEq] at hmem
          rcases hmem with ⟨rfl, rfl⟩ | hmem
          · exact ⟨hig, remoteAccount_remote r⟩
          · exact ih hmem

/-- What a call of `deactivate_account` removes. -/
def deactivated : List Pubkey :=
  match l.getAccount pubkey with
  | some account => pubkey :: (hasProgramdataAccount account).toList
  | none => []

def removeAll (ks : List Pubkey) : RemoteAccountLoader :=
  ks.foldl remove l

@[simp] theorem removeAll_enable (ks : List Pubkey) : (l.removeAll ks).enable = l.enable := by
  induction ks generalizing l with
  | nil => rfl
  | cons k ks ih => exact ih _

theorem deactivateAccount_eq_removeAll : l.deactivateAccount k = l.removeAll (deactivated l k) := by
  unfold deactivateAccount deactivated
  by_cases hoff : (!l.enable || ignoredAccount k) = true
  · simp [getAccount, hoff, removeAll]
  · simp only [hoff, Bool.false_eq_true, if_false]
    cases hget : l.getAccount k with
    | none => rfl
    | some account =>
      cases hpd : hasProgramdataAccount account with
      | none => simp [hpd, removeAll]
      | some p => simp [hpd, removeAll]

theorem removeAll_accountCache (ks : List Pubkey) (q : Pubkey) :
    (l.removeAll ks).accountCache q =
      if q ∈ ks then none else l.accountCache q := by
  induction ks generalizing l with
  | nil => simp [removeAll]
  | cons k ks ih =>
    have hrest := ih (l.remove k)
    simp only [removeAll, foldl_cons] at hrest ⊢
    rw [hrest]
    by_cases hq : q = k
    · subst hq
      simp [remove]
    · simp [remove, hq]

end RemoteAccountLoader
end Hypergrid
