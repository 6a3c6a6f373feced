import Hypergrid.Account

/-!
# Transactions, their messages and their account locks

The model of `sdk/program/src/message/sanitized.rs`, of the transaction locks of
`sdk/src/transaction/sanitized.rs` and of `lock_accounts` of `accounts-db/src/accounts.rs`.

A legacy message is a message without loaded addresses.  What `sanitize` checks is kept in the
fields of `SanitizedMessage`.
-/

namespace Hypergrid

structure MessageHeader where
  numRequiredSignatures : Nat
  numReadonlySignedAccounts : Nat
  numReadonlyUnsignedAccounts : Nat
deriving DecidableEq

structure CompiledInstruction where
  programIdIndex : UInt8
  accounts : List UInt8
  data : List UInt8
deriving DecidableEq

structure AccountMeta where
  pubkey : Pubkey
  isSigner : Bool
  isWritable : Bool
deriving DecidableEq

def AccountMeta.new (pubkey : Pubkey) (isSigner : Bool) : AccountMeta :=
  { pubkey, isSigner, isWritable := true }

/-- `LoadedAddresses`: the keys that lookup tables add to a message. -/
structure LoadedAddresses where
  writable : List Pubkey
  readonly : List Pubkey
deriving DecidableEq

structure SanitizedMessage where
  header : MessageHeader
  staticAccountKeys : List Pubkey
  loadedAddresses : LoadedAddresses
  recentBlockhash : Hash
  instructions : List CompiledInstruction
  /-- signing area and read-only non-signing area do not overlap -/
  areas : header.numRequiredSignatures + header.numReadonlyUnsignedAccounts ≤
    staticAccountKeys.length
  /-- there is a writable fee payer -/
  payer : header.numReadonlySignedAccounts < header.numRequiredSignatures
  /-- programs are static keys, and not the payer -/
  programs : ∀ ix ∈ instructions, 0 < ix.programIdIndex.toNat ∧
    ix.programIdIndex.toNat < staticAccountKeys.length

/-- The error of a transaction, as far as the modelled functions return it. -/
inductive TransactionError where
  | accountInUse
  | accountLoadedTwice
  | accountNotFound
  | programAccountNotFound
  | insufficientFundsForFee
  | invalidAccountForFee
  | alreadyProcessed
  | blockhashNotFound
  | instructionError (index : Nat)
  | invalidProgramForExecution
  | invalidAccountIndex
  | tooManyAccountLocks
  | insufficientFundsForRent (accountIndex : Nat)
  | maxLoadedAccountsDataSizeExceeded
  | invalidLoadedAccountsDataSizeLimit
  | programExecutionTemporarilyRestricted (accountIndex : Nat)
  | unbalancedTransaction
deriving DecidableEq

/-- `NativeLoader1111111111111111111111111111111`. -/
def nativeLoaderId : Pubkey :=
  .ofNat 0x58784bf148ba4282fb012574888a9f153a07dadf765c0455c9a970380000000

/-- `Stake11111111111111111111111111111111111111`. -/
def stakeProgramId : Pubkey :=
  .ofNat 0x6a1d8179137542a983437bdfe2a7ab2557f535c8a78722b68a49dc000000000

/-- `BUILTIN_PROGRAMS_KEYS`. -/
def builtinProgramsKeys : List Pubkey :=
  [ -- Config1111111111111111111111111111111111111
    .ofNat 0x3064aa3002f74dcc86e43310f0c052af8c5da27f6104019a323efa000000000,
    -- Feature111111111111111111111111111111111111
    .ofNat 0x3c0a0cdcb06d2daefae82d16fee7acf61ec737b23481b21946a767000000000,
    nativeLoaderId, stakeProgramId,
    -- StakeConfig11111111111111111111111111111111
    .ofNat 0x6a1d817a502050b680791e6ce6db88e1e5b7150f61fc6790a4eb4d100000000,
    -- Vote111111111111111111111111111111111111111
    .ofNat 0x761481d357474bb7c4d7624ebd3bdb3d8355e73d11043fc0da3538000000000,
    systemProgramId, bpfLoaderId, bpfLoaderDeprecatedId, bpfLoaderUpgradeableId]

/-- `1nc1nerator11111111111111111111111111111111`. -/
def incineratorId : Pubkey :=
  .ofNat 0x3390728d34116079bdc911bfff00dbd44d2ecdccf79ca6e10038e100000000

/-- `Sysvar1nstructions1111111111111111111111111`. -/
def instructionsSysvarId : Pubkey :=
  .ofNat 0x6a7d517187bd16635dad40455fdc2c0c124c68f215675a5dbbacb5f08000000

/-- `sysvar::ALL_IDS`. -/
def sysvarIds : List Pubkey :=
  [ -- SysvarC1ock11111111111111111111111111111111
    .ofNat 0x6a7d51718c774c928566398691d5eb68b5eb8a39b4b6d5c73555b2100000000,
    -- SysvarEpochSchedu1e111111111111111111111111
    .ofNat 0x6a7d51718dc3fee02d3e47f0100f8b054f7942e60591e3f508719a805000000,
    -- SysvarFees111111111111111111111111111111111
    .ofNat 0x6a7d51718e25a8d83503c251a7af07126fd7200df6fc4ed526a9c9000000000,
    -- SysvarRecentB1ockHashes11111111111111111111
    .ofNat 0x6a7d517192c568ee08a845f73d29788cf035c3145b21ab344d8062ea9400000,
    -- SysvarRent111111111111111111111111111111111
    .ofNat 0x6a7d517192c5c51218cc94c3d4af17f58daee089ba1fd44e3dbd98a00000000,
    -- SysvarRewards111111111111111111111111111111
    .ofNat 0x6a7d517192c6137cee092d9b6923ee1ccd61903fa82b8a16191578d80000000,
    -- SysvarS1otHashes111111111111111111111111111
    .ofNat 0x6a7d517192f0aafc6f265e3fb77cc7ada82c529d0be3b136e2d005520000000,
    -- SysvarS1otHistory11111111111111111111111111
    .ofNat 0x6a7d517192f0aafc875e2e184577c5069cfc84649e3eb92782f958d48000000,
    -- SysvarStakeHistory1111111111111111111111111
    .ofNat 0x6a7d517193584d0feed9bb3431d13206be544281b57b8566cc5375ff4000000,
    instructionsSysvarId]

def isBuiltinKeyOrSysvar (key : Pubkey) : Bool :=
  sysvarIds.contains key || builtinProgramsKeys.contains key

namespace SanitizedMessage

variable (m : SanitizedMessage)
variable (keyIndex : Nat)

/-- `account_keys`: static keys, loaded writable keys, loaded read-only keys. -/
def accountKeys : List Pubkey :=
  m.staticAccountKeys ++ m.loadedAddresses.writable ++ m.loadedAddresses.readonly

def isSigner (index : Nat) : Bool := decide (index < m.header.numRequiredSignatures)

/-- `is_key_called_as_program`, which is `is_invoked`. -/
def isInvoked : Bool :=
  m.instructions.any (fun ix => ix.programIdIndex.toNat == keyIndex)

def isKeyPassedToProgram : Bool :=
  m.instructions.any (fun ix => ix.accounts.any (fun a => a.toNat == keyIndex))

def isNonLoaderKey : Bool :=
  !m.isInvoked keyIndex || m.isKeyPassedToProgram keyIndex

def isUpgradeableLoaderPresent : Bool :=
  m.accountKeys.any (fun key => key == bpfLoaderUpgradeableId)

def demoteProgramId (i : Nat) : Bool := m.isInvoked i && !m.isUpgradeableLoaderPresent

def isWritableIndex : Bool :=
  let numAccountKeys := m.staticAccountKeys.length
  let numSignedAccounts := m.header.numRequiredSignatures
  if numAccountKeys ≤ keyIndex then
    decide (keyIndex - numAccountKeys < m.loadedAddresses.writable.length)
  else if numSignedAccounts ≤ keyIndex then
    decide (keyIndex - numSignedAccounts <
      numAccountKeys - numSignedAccounts - m.header.numReadonlyUnsignedAccounts)
  else
    decide (keyIndex < numSignedAccounts - m.header.numReadonlySignedAccounts)

def isWritable : Bool :=
  m.isWritableIndex keyIndex &&
    match m.accountKeys[keyIndex]? with
    | some key => !(isBuiltinKeyOrSysvar key || m.demoteProgramId keyIndex)
    | none => false

/-- The keys of the accounts at the given instruction indexes. -/
def getIxSigners (ixIndex : Nat) : List Pubkey :=
  match m.instructions[ixIndex]? with
  | some ix =>
    (ix.accounts.filter (fun a => m.isSigner a.toNat)).filterMap
      (fun a => m.accountKeys[a.toNat]?)
  | none => []

/-- The tag of `SystemInstruction::AdvanceNonceAccount`. -/
def isAdvanceNonceAccount (data : List UInt8) : Bool :=
  match UpgradeableLoaderState.takeBytes 4 data with
  | some (tag, _) => Pubkey.littleEndian tag == 4
  | none => false

/-- `get_durable_nonce`: the nonce account of a leading `AdvanceNonceAccount`. -/
def getDurableNonce : Option Pubkey :=
  match m.instructions[0]? with
  | some ix =>
    if m.accountKeys[ix.programIdIndex.toNat]? = some systemProgramId ∧
        isAdvanceNonceAccount ix.data = true then
      ix.accounts.head?.bind
        (fun idx => if m.isWritable idx.toNat then m.accountKeys[idx.toNat]? else none)
    else none
  | none => none

def hasDuplicates : Bool := !decide m.accountKeys.Nodup

def keysAt (test : Nat → Bool) : List Pubkey :=
  (m.accountKeys.zipIdx.filter (fun x => test x.2)).map Prod.fst

def writableKeys : List Pubkey := m.keysAt m.isWritable

def readonlyKeys : List Pubkey := m.keysAt (fun i => !m.isWritable i)

end SanitizedMessage

structure SanitizedTransaction where
  message : SanitizedMessage
  messageHash : Hash
  isSimpleVoteTx : Bool

/-- `AccountLocks`; the number of readers of a key is not needed to take locks. -/
structure AccountLocks where
  writeLocks : Finset Pubkey
  readonlyLocks : Finset Pubkey

namespace AccountLocks

def empty : AccountLocks := { writeLocks := ∅, readonlyLocks := ∅ }

def lockAccount (locks : AccountLocks) (writableKeys readonlyKeys : List Pubkey) :
    AccountLocks × Except TransactionError Unit :=
  if writableKeys.any (fun k =>
      decide (k ∈ locks.writeLocks) || decide (k ∈ locks.readonlyLocks)) then
    (locks, .error .accountInUse)
  else if readonlyKeys.any (fun k => decide (k ∈ locks.writeLocks)) then
    (locks, .error .accountInUse)
  else
    ({ writeLocks := locks.writeLocks ∪ writableKeys.toFinset
       readonlyLocks := locks.readonlyLocks ∪ readonlyKeys.toFinset }, .ok ())

def validateAccountLocks (m : SanitizedMessage) (txAccountLockLimit : Nat) :
    Except TransactionError Unit :=
  if m.hasDuplicates then .error .accountLoadedTwice
  else if txAccountLockLimit < m.accountKeys.length then .error .tooManyAccountLocks
  else .ok ()

def lockTransaction (txAccountLockLimit : Nat) (locks : AccountLocks)
    (tx : SanitizedTransaction) : AccountLocks × Except TransactionError Unit :=
  match validateAccountLocks tx.message txAccountLockLimit with
  | .ok () => locks.lockAccount tx.message.writableKeys tx.message.readonlyKeys
  | .error e => (locks, .error e)

/-- `lock_accounts`: the results, and the locks that are held then. -/
def lockAccounts (txAccountLockLimit : Nat) :
    AccountLocks → List SanitizedTransaction →
      AccountLocks × List (Except TransactionError Unit)
  | locks, [] => (locks, [])
  | locks, tx :: txs =>
    let r := lockTransaction txAccountLockLimit locks tx
    let rest := lockAccounts txAccountLockLimit r.1 txs
    (rest.1, r.2 :: rest.2)

end AccountLocks
end Hypergrid
