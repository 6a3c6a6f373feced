import Hypergrid.Message
import Hypergrid.ProgramCache
import Hypergrid.Reads

/-!
# The bank and its checks on transactions

The fields of `Bank` (`runtime/src/bank.rs`) that processing a batch reads, with the
records they are made of: the epoch schedule, the blockhash queue, the status cache and
nonce accounts.  `checkTransactions` follows `check_age` and `check_status_cache`.

Amounts that the source computes with floating point numbers (rent) or from compute budget
instructions (fees, data size limits) are functions of `Platform` and `Rent`, which are
parameters; so is the hash of a durable nonce.
-/

namespace Hypergrid

def minimumSlotsPerEpoch : Nat := 32

/-- `EpochSchedule`, as far as it is read. -/
structure EpochSchedule where
  slotsPerEpoch : Nat
  firstNormalEpoch : Epoch
  firstNormalSlot : Slot
deriving DecidableEq

namespace EpochSchedule

def getSlotsInEpoch (s : EpochSchedule) (epoch : Epoch) : Nat :=
  if epoch < s.firstNormalEpoch then min (2 ^ (epoch + 5)) u64Max else s.slotsPerEpoch

def getFirstSlotInEpoch (s : EpochSchedule) (epoch : Epoch) : Slot :=
  if epoch ≤ s.firstNormalEpoch then
    min ((min (2 ^ epoch) u64Max - 1) * minimumSlotsPerEpoch) u64Max
  else
    saturatingAdd (min ((epoch - s.firstNormalEpoch) * s.slotsPerEpoch) u64Max)
      s.firstNormalSlot

end EpochSchedule

structure HashAge where
  lamportsPerSignature : Nat
  hashIndex : Nat
deriving DecidableEq

/-- `BlockhashQueue`; a bank has registered a hash. -/
structure BlockhashQueue where
  lastHashIndex : Nat
  lastHash : Hash
  ages : Hash → Option HashAge

namespace BlockhashQueue

def getLamportsPerSignature (q : BlockhashQueue) (hash : Hash) : Option Nat :=
  (q.ages hash).map HashAge.lamportsPerSignature

def isHashValidForAge (q : BlockhashQueue) (hash : Hash) (maxAge : Nat) : Bool :=
  ((q.ages hash).map (fun age => decide (q.lastHashIndex - age.hashIndex ≤ maxAge))).getD
    false

end BlockhashQueue

/-- `StatusCache`: for a blockhash, the place of the key slice and the slots that hold a
slice.  Results and the keys made of signatures are left out. -/
structure StatusCache where
  keyIndex : Hash → Nat
  forks : Hash → Nat → List Slot
  roots : Finset Slot

namespace StatusCache

def keySlice (keyIndex : Nat) (key : Hash) : Nat :=
  key.val.val / 2 ^ (8 * (12 - min keyIndex 11)) % 2 ^ 160

/-- `get_status`, as far as there is one. -/
def getStatus (c : StatusCache) (key transactionBlockhash : Hash) (ancestors : Finset Slot) :
    Bool :=
  (c.forks transactionBlockhash (keySlice (c.keyIndex transactionBlockhash) key)).any
    (fun fork => decide (fork ∈ ancestors) || decide (fork ∈ c.roots))

end StatusCache

/-- `Data` of an initialized nonce account. -/
structure NonceData where
  authority : Pubkey
  durableNonce : Hash
  lamportsPerSignature : Nat
deriving DecidableEq

/-- `Versions`, where `none` is the uninitialized state. -/
inductive NonceVersions where
  | legacy (state : Option NonceData)
  | current (state : Option NonceData)
deriving DecidableEq

namespace NonceVersions

def size : Nat := 80

def hashOfBytes (bs : List UInt8) : Hash := ⟨(Pubkey.ofBytes bs).val⟩

def readData (bs : List UInt8) : Option NonceData := do
  let (authority, bs) ← UpgradeableLoaderState.takeBytes 32 bs
  let (durableNonce, bs) ← UpgradeableLoaderState.takeBytes 32 bs
  let (lamportsPerSignature, _) ← UpgradeableLoaderState.takeBytes 8 bs
  return {
    authority := Pubkey.ofBytes authority
    durableNonce := hashOfBytes durableNonce
    lamportsPerSignature := Pubkey.littleEndian lamportsPerSignature }

def deserialize (data : List UInt8) : Option NonceVersions := do
  let (version, bs) ← UpgradeableLoaderState.takeBytes 4 data
  let (tag, bs) ← UpgradeableLoaderState.takeBytes 4 bs
  let state : Option NonceData ←
    match Pubkey.littleEndian tag with
    | 0 => some none
    | 1 => (readData bs).map some
    | _ => none
  match Pubkey.littleEndian version with
  | 0 => some (legacy state)
  | 1 => some (current state)
  | _ => none

def state : NonceVersions → Option NonceData
  | legacy state => state
  | current state => state

def verifyRecentBlockhash (recentBlockhash : Hash) : NonceVersions → Option NonceData
  | legacy _ => none
  | current none => none
  | current (some data) => if recentBlockhash = data.durableNonce then some data else none

end NonceVersions

variable (account : AccountSharedData)

def verifyNonceAccount (recentBlockhash : Hash) : Option NonceData :=
  if account.owner = systemProgramId then
    (NonceVersions.deserialize account.data).bind
      (NonceVersions.verifyRecentBlockhash recentBlockhash)
  else none

def lamportsPerSignatureOf : Option Nat :=
  (NonceVersions.deserialize account.data).bind
    (fun v => v.state.map NonceData.lamportsPerSignature)

structure NoncePartial where
  address : Pubkey
  account : AccountSharedData
deriving DecidableEq

inductive SystemAccountKind where
  | system
  | nonce
deriving DecidableEq

def getSystemAccountKind : Option SystemAccountKind :=
  if account.owner = systemProgramId then
    if account.data.isEmpty then some .system
    else if account.data.length = NonceVersions.size then
      (NonceVersions.deserialize account.data).bind
        (fun v => v.state.map (fun _ => SystemAccountKind.nonce))
    else none
  else none

/-- `Rent`: the amounts that the source computes with floating point numbers. -/
structure Rent where
  /-- `minimum_balance`, of a data length -/
  minimumBalance : Nat → Nat
  /-- `due_amount`, of a data length and the slots that have passed -/
  dueAmount : Nat → Nat → Nat

structure RentCollector where
  epoch : Epoch
  epochSchedule : EpochSchedule
  rent : Rent

/-- Functions from outside the modelled part of the repository. -/
structure Platform where
  vm : Vm
  /-- `DurableNonce::from_blockhash` -/
  durableNonceFromBlockhash : Hash → Hash
  /-- `construct_instructions_data` of the decompiled instructions -/
  constructInstructionsData : SanitizedMessage → List UInt8
  /-- `calculate_fee`, given the lamports per signature -/
  calculateFee : SanitizedMessage → Nat → Nat
  /-- `loaded_accounts_bytes` of the compute budget limits -/
  loadedAccountsBytes : SanitizedMessage → Nat
  /-- the error of `ComputeBudget::try_from_instructions` -/
  computeBudgetError : SanitizedMessage → Option TransactionError

/-- The fields of `Bank` that do not change while batches are processed. -/
structure Bank where
  slot : Slot
  epoch : Epoch
  ancestors : Finset Slot
  epochSchedule : EpochSchedule
  /-- the epoch is the one of the slot -/
  slotInEpoch : epochSchedule.getFirstSlotInEpoch epoch ≤ slot
  blockhashQueue : BlockhashQueue
  builtinPrograms : List Pubkey
  checkProgramModificationSlot : Bool
  rentCollector : RentCollector
  /-- the feature `set_exempt_rent_epoch_max` -/
  setExemptRentEpochMax : Bool
  /-- `should_collect_rent` -/
  shouldCollectRent : Bool
  /-- `get_reward_interval` is the inside of the interval -/
  insideRewardInterval : Bool

abbrev TransactionCheckResult := Except TransactionError Unit × Option NoncePartial

def programOwners : List Pubkey :=
  [bpfLoaderUpgradeableId, bpfLoaderId, bpfLoaderDeprecatedId, loaderV4Id]

namespace Bank

variable (platform : Platform) (bank : Bank)
variable (tx : SanitizedTransaction)

def checkMessageForNonce (message : SanitizedMessage) : Reads (Option NoncePartial) :=
  match message.getDurableNonce with
  | none => return none
  | some nonceAddress => do
      match ← getAccountWithFixedRoot nonceAddress with
      | none => return none
      | some nonceAccount =>
        match verifyNonceAccount nonceAccount message.recentBlockhash with
        | none => return none
        | some nonceData =>
          if (message.getIxSigners 0).contains nonceData.authority then
            return some { address := nonceAddress, account := nonceAccount }
          else return none

def checkTransactionForNonce (nextDurableNonce : Hash) : Reads (Option NoncePartial) :=
  if tx.message.recentBlockhash ≠ nextDurableNonce then checkMessageForNonce tx.message
  else return none

def checkTransactionAge (maxAge : Nat) : Reads TransactionCheckResult :=
  if bank.blockhashQueue.isHashValidForAge tx.message.recentBlockhash maxAge then
    return (.ok (), none)
  else do
    match ← checkTransactionForNonce tx
        (platform.durableNonceFromBlockhash bank.blockhashQueue.lastHash) with
    | some nonce => return (.ok (), some nonce)
    | none => return (.error .blockhashNotFound, none)

def checkTransaction (statusCache : StatusCache) (maxAge : Nat) (tx : SanitizedTransaction)
    (lockResult : Except TransactionError Unit) : Reads TransactionCheckResult :=
  match lockResult with
  | .error e => return (.error e, none)
  | .ok () => do
      match ← bank.checkTransactionAge platform tx maxAge with
      | (.ok (), nonce) =>
        if statusCache.getStatus tx.messageHash tx.message.recentBlockhash bank.ancestors then
          return (.error .alreadyProcessed, none)
        else return (.ok (), nonce)
      | (.error e, nonce) => return (.error e, nonce)

/-- `check_transactions`: the ages are checked before the status cache is looked at, which
makes no difference since no check changes it. -/
def checkTransactions (statusCache : StatusCache) (maxAge : Nat) :
    List (SanitizedTransaction × Except TransactionError Unit) →
      Reads (List TransactionCheckResult)
  | [] => return []
  | x :: xs => do
      let r ← bank.checkTransaction platform statusCache maxAge x.1 x.2
      let rs ← checkTransactions statusCache maxAge xs
      return r :: rs

/-- The lamports per signature of a transaction that passed its checks. -/
def lamportsPerSignature (nonce : Option NoncePartial) : Option Nat :=
  match nonce with
  | some nonce => lamportsPerSignatureOf nonce.account
  | none => bank.blockhashQueue.getLamportsPerSignature tx.message.recentBlockhash

end Bank
end Hypergrid
