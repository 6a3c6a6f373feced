import Hypergrid.Lib.Checked
import Hypergrid.Replenish

/-!
# Loading the accounts of a transaction

The model of `load_accounts` of `runtime/src/accounts/mod.rs`, with the rent collector, the
rent states and the nonce information that it uses.  Loading is a program of `Reads`: the
keys of the message are loaded in order, the first account that is no loader pays the fee,
and the owners of the programs are appended.

* `addAccount_ok` : what one key does to the variables of the loop.
* `loadPrograms_appended` : the programs of the instructions only append loaders.
-/

namespace Hypergrid
open List

def rentExemptRentEpoch : Epoch := u64Max

/-- `Sysvar1111111111111111111111111111111111111`. -/
def sysvarId : Pubkey :=
  .ofNat 0x6a7d5171875f729c73d93408f216120067ed88c76e08c287fc1946000000000

inductive RentDue where
  | exempt
  | paying (lamports : Nat)
deriving DecidableEq

inductive RentResult where
  | exempt
  | noRentCollectionNow
  | collectRent (newRentEpoch : Epoch) (rentDue : Nat)

def Rent.isExempt (r : Rent) (balance dataLen : Nat) : Bool :=
  decide (r.minimumBalance dataLen ≤ balance)

namespace RentCollector

variable (c : RentCollector)

def shouldCollectRent (address : Pubkey) (account : AccountSharedData) : Bool :=
  !(account.executable || address == incineratorId)

/-- The slots of the epochs from the rent epoch of an account to the current one. -/
def slotsElapsed (accountRentEpoch : Epoch) : Nat :=
  ((List.range (c.epoch + 1 - accountRentEpoch)).map
    (fun i => c.epochSchedule.getSlotsInEpoch (accountRentEpoch + i + 1))).sum

def getRentDue (account : AccountSharedData) : RentDue :=
  if c.rent.isExempt account.lamports account.data.length then .exempt
  else .paying (c.rent.dueAmount account.data.length (c.slotsElapsed account.rentEpoch))

def calculateRentResult (address : Pubkey) (account : AccountSharedData) : RentResult :=
  if account.rentEpoch = rentExemptRentEpoch ∨ c.epoch < account.rentEpoch then
    .noRentCollectionNow
  else if !shouldCollectRent address account then .exempt
  else
    match c.getRentDue account with
    | .exempt => .exempt
    | .paying 0 => .noRentCollectionNow
    | .paying rentDue => .collectRent (c.epoch + 1) rentDue

/-- `collect_from_existing_account`: the account and the rent amount. -/
def collectFromExistingAccount (address : Pubkey) (account : AccountSharedData)
    (setExemptRentEpochMax : Bool) : AccountSharedData × Nat :=
  match c.calculateRentResult address account with
  | .exempt =>
    if setExemptRentEpochMax then ({ account with rentEpoch := rentExemptRentEpoch }, 0)
    else (account, 0)
  | .noRentCollectionNow => (account, 0)
  | .collectRent newRentEpoch rentDue =>
    if account.lamports ≤ rentDue then (AccountSharedData.default, account.lamports)
    else
      ({ account with lamports := account.lamports - rentDue, rentEpoch := newRentEpoch },
        rentDue)

end RentCollector

inductive RentState where
  | uninitialized
  | rentPaying (lamports dataSize : Nat)
  | rentExempt
deriving DecidableEq

namespace RentState

def fromAccount (account : AccountSharedData) (rent : Rent) : RentState :=
  if account.lamports = 0 then .uninitialized
  else if rent.isExempt account.lamports account.data.length then .rentExempt
  else .rentPaying account.lamports account.data.length

def transitionAllowedFrom (post pre : RentState) : Bool :=
  match post with
  | .uninitialized => true
  | .rentExempt => true
  | .rentPaying postLamports postDataSize =>
    match pre with
    | .rentPaying preLamports preDataSize =>
      decide (postDataSize = preDataSize) && decide (postLamports ≤ preLamports)
    | _ => false

end RentState

def checkRentStateWithAccount (preRentState postRentState : RentState) (address : Pubkey)
    (accountIndex : Nat) : Except TransactionError Unit :=
  if address ≠ incineratorId ∧ postRentState.transitionAllowedFrom preRentState = false then
    .error (.insufficientFundsForRent accountIndex)
  else .ok ()

/-- `validate_fee_payer`: the account with the fee subtracted. -/
def validateFeePayer (rentCollector : RentCollector) (payerAddress : Pubkey)
    (payerAccount : AccountSharedData) (payerIndex fee : Nat) :
    Except TransactionError AccountSharedData :=
  if payerAccount.lamports = 0 then .error .accountNotFound
  else
    match getSystemAccountKind payerAccount with
    | none => .error .invalidAccountForFee
    | some kind =>
      let minBalance :=
        match kind with
        | .system => 0
        | .nonce => rentCollector.rent.minimumBalance NonceVersions.size
      if payerAccount.lamports < minBalance + fee then .error .insufficientFundsForFee
      else
        let paid := { payerAccount with lamports := payerAccount.lamports - fee }
        match checkRentStateWithAccount (.fromAccount payerAccount rentCollector.rent)
            (.fromAccount paid rentCollector.rent) payerAddress payerIndex with
        | .error e => .error e
        | .ok () => .ok paid

/-- `LoadedTransaction`; of a rent debit only the collected amount is kept. -/
structure LoadedTransaction where
  accounts : List (Pubkey × AccountSharedData)
  programIndices : List (List Nat)
  rent : Nat
  rentDebits : List (Pubkey × Nat)
deriving DecidableEq

structure NonceFull where
  address : Pubkey
  account : AccountSharedData
  feePayerAccount : Option AccountSharedData

def getAccountRentDebit (rentDebits : List (Pubkey × Nat)) (address : Pubkey) : Nat :=
  ((rentDebits.find? (fun x => x.1 = address)).map Prod.snd).getD 0

def NonceFull.fromPartial (nonce : NoncePartial) (message : SanitizedMessage)
    (accounts : List (Pubkey × AccountSharedData)) (rentDebits : List (Pubkey × Nat)) :
    Except TransactionError NonceFull :=
  match (List.range message.accountKeys.length).findSome? (fun i =>
      if message.isNonLoaderKey i then accounts[i]? else none) with
  | some (feePayerAddress, feePayerAccount) =>
    let feePayerAccount :=
      { feePayerAccount with
        lamports := saturatingAdd feePayerAccount.lamports
          (getAccountRentDebit rentDebits feePayerAddress) }
    if feePayerAddress = nonce.address then
      .ok { address := nonce.address, account := feePayerAccount, feePayerAccount := none }
    else
      .ok {
        address := nonce.address
        account := nonce.account
        feePayerAccount := some feePayerAccount }
  | none => .error .accountNotFound

/-- `TransactionLoadResult`; an error comes without a nonce. -/
abbrev TransactionLoadResult := Except TransactionError (LoadedTransaction × Option NonceFull)

/-- The arguments of `load_transaction_accounts` that are the same for every key. -/
structure LoadArgs where
  platform : Platform
  bank : Bank
  message : SanitizedMessage
  fee : Nat
  accountOverrides : Pubkey → Option AccountSharedData
  programAccounts : ProgramAccountsMap
  loadedPrograms : LoadedProgramsForTxBatch

/-- What is found under a key: its size, the account, the rent taken from it, and
`account_found`. -/
structure FoundAccount where
  accountSize : Nat
  account : AccountSharedData
  rent : Nat
  accountFound : Bool

structure LoadState where
  validatedFeePayer : Bool
  txRent : Nat
  accumulatedAccountsDataSize : Nat
  rentDebits : List (Pubkey × Nat)
  accounts : List (Pubkey × AccountSharedData)
  accountsFound : List Bool

def LoadState.start : LoadState :=
  { validatedFeePayer := false
    txRent := 0
    accumulatedAccountsDataSize := 0
    rentDebits := []
    accounts := []
    accountsFound := [] }

def constructInstructionsAccount (platform : Platform) (message : SanitizedMessage) :
    AccountSharedData :=
  AccountSharedData.create 0 (platform.constructInstructionsData message) sysvarId false 0

def accountSharedDataFromProgram (key : Pubkey) (programAccounts : ProgramAccountsMap) :
    Except TransactionError AccountSharedData :=
  match programAccounts.find? (fun x => x.1 = key) with
  | some x =>
    .ok { AccountSharedData.default with owner := x.2.1, executable := true }
  | none => .error .accountNotFound

namespace LoadArgs

variable (c : LoadArgs)

/-- `accumulate_and_check_loaded_account_data_size`. -/
def accumulateDataSize (accumulated accountSize : Nat) : Except TransactionError Nat :=
  let accumulated := saturatingAdd accumulated accountSize
  if c.platform.loadedAccountsBytes c.message < accumulated then
    .error .maxLoadedAccountsDataSizeExceeded
  else .ok accumulated

/-- The account that is stored under a key, after rent was collected from it. -/
def foundStored (key : Pubkey) (i : Nat) (account : AccountSharedData) : FoundAccount :=
  if c.message.isWritable i then
    if c.bank.shouldCollectRent then
      let r := c.bank.rentCollector.collectFromExistingAccount key account
        c.bank.setExemptRentEpochMax
      { accountSize := r.1.data.length, account := r.1, rent := r.2, accountFound := true }
    else
      let account :=
        if c.bank.setExemptRentEpochMax = true ∧ account.rentEpoch ≠ rentExemptRentEpoch ∧
            c.bank.rentCollector.getRentDue account = .exempt then
          { account with rentEpoch := rentExemptRentEpoch }
        else account
      { accountSize := account.data.length, account, rent := 0, accountFound := true }
  else { accountSize := account.data.length, account, rent := 0, accountFound := true }

def foundNothing : FoundAccount :=
  { accountSize := 0
    account :=
      { AccountSharedData.default with
        rentEpoch := if c.bank.setExemptRentEpochMax then rentExemptRentEpoch else 0 }
    rent := 0
    accountFound := false }

/-- The program that stands for its account, when the key is only used as a program. -/
def cachedProgram (key : Pubkey) (i : Nat) : Option LoadedProgram :=
  if !c.message.isKeyPassedToProgram i && !c.message.isWritable i then
    c.loadedPrograms.find key
  else none

/-- The account of a key that is not the instructions sysvar. -/
def findAccount (key : Pubkey) (i : Nat) : Reads (Except TransactionError FoundAccount) :=
  match c.accountOverrides key with
  | some account =>
    return .ok {
      accountSize := account.data.length
      account
      rent := 0
      accountFound := true }
  | none =>
    match c.cachedProgram key i with
    | some program =>
      return (accountSharedDataFromProgram key c.programAccounts).map (fun account =>
        { accountSize := program.accountSize, account, rent := 0, accountFound := true })
    | none => do
        match ← getAccountWithFixedRoot key with
        | some account => return .ok (c.foundStored key i account)
        | none => return .ok c.foundNothing

/-- The first account that is no loader pays the fee. -/
def chargeFee (validatedFeePayer : Bool) (key : Pubkey) (i : Nat)
    (account : AccountSharedData) : Except TransactionError AccountSharedData :=
  if !validatedFeePayer && c.message.isNonLoaderKey i then
    validateFeePayer c.bank.rentCollector key account i c.fee
  else .ok account

def addAccount (s : LoadState) (key : Pubkey) (i : Nat) (x : FoundAccount) :
    Except TransactionError LoadState := do
  let size ← c.accumulateDataSize s.accumulatedAccountsDataSize x.accountSize
  let account ← c.chargeFee s.validatedFeePayer key i x.account
  if c.bank.insideRewardInterval && c.message.isWritable i &&
      account.owner == stakeProgramId then
    .error (.programExecutionTemporarilyRestricted i)
  else
    .ok {
      validatedFeePayer := s.validatedFeePayer || c.message.isNonLoaderKey i
      txRent := s.txRent + x.rent
      accumulatedAccountsDataSize := size
      rentDebits := if x.rent ≠ 0 then (key, x.rent) :: s.rentDebits else s.rentDebits
      accounts := s.accounts ++ [(key, account)]
      accountsFound := s.accountsFound ++ [x.accountFound] }

def loadKeys : List (Pubkey × Nat) → LoadState → Reads (Except TransactionError LoadState)
  | [], s => return .ok s
  | (key, i) :: rest, s =>
    if key = instructionsSysvarId then
      loadKeys rest { s with
        accounts := s.accounts ++ [(key, constructInstructionsAccount c.platform c.message)]
        accountsFound := s.accountsFound ++ [true] }
    else do
      match ← c.findAccount key i with
      | .error e => return .error e
      | .ok x =>
        match c.addAccount s key i x with
        | .error e => return .error e
        | .ok s => loadKeys rest s

/-- The position of the account of an owner, which is loaded and appended when it is not
there.  `start` is `builtins_start_index`. -/
def ownerIndex (start : Nat) (owner : Pubkey)
    (accounts : List (Pubkey × AccountSharedData)) (size : Nat) :
    Reads (Except TransactionError (Nat × List (Pubkey × AccountSharedData) × Nat)) :=
  match (accounts.drop start).findIdx? (fun x => x.1 = owner) with
  | some index => return .ok (start + index, accounts, size)
  | none => do
      match ← getAccountWithFixedRoot owner with
      | none => return .error .programAccountNotFound
      | some account =>
        if account.owner ≠ nativeLoaderId ∨ account.executable = false then
          return .error .invalidProgramForExecution
        else
          match c.accumulateDataSize size account.data.length with
          | .error e => return .error e
          | .ok size => return .ok (accounts.length, accounts ++ [(owner, account)], size)

def programIndex (start : Nat) (accountsFound : List Bool) (ix : CompiledInstruction)
    (accounts : List (Pubkey × AccountSharedData)) (size : Nat) :
    Reads (Except TransactionError (List Nat × List (Pubkey × AccountSharedData) × Nat)) :=
  match accounts[ix.programIdIndex.toNat]? with
  | none => return .error .programAccountNotFound
  | some (programId, programAccount) =>
    if programId = nativeLoaderId then return .ok ([], accounts, size)
    else if (accountsFound[ix.programIdIndex.toNat]?).getD true = false then
      return .error .programAccountNotFound
    else if programAccount.executable = false then
      return .error .invalidProgramForExecution
    else if programAccount.owner = nativeLoaderId then
      return .ok ([ix.programIdIndex.toNat], accounts, size)
    else do
      match ← c.ownerIndex start programAccount.owner accounts size with
      | .error e => return .error e
      | .ok (index, accounts, size) =>
        return .ok ([index, ix.programIdIndex.toNat], accounts, size)

/-- The program indices of the instructions, with the accounts that were appended. -/
def loadPrograms (start : Nat) (accountsFound : List Bool) :
    List CompiledInstruction → List (Pubkey × AccountSharedData) → Nat →
      Reads (Except TransactionError
        (List (List Nat) × List (Pubkey × AccountSharedData)))
  | [], accounts, _ => return .ok ([], accounts)
  | ix :: ixs, accounts, size => do
      match ← c.programIndex start accountsFound ix accounts size with
      | .error e => return .error e
      | .ok (indices, accounts, size) =>
        match ← loadPrograms start accountsFound ixs accounts size with
        | .error e => return .error e
        | .ok (rest, accounts) => return .ok (indices :: rest, accounts)

/-- `load_transaction_accounts`.  A sanitized transaction has signatures. -/
def loadTransactionAccounts : Reads (Except TransactionError LoadedTransaction) :=
  if c.platform.loadedAccountsBytes c.message = 0 then
    return .error .invalidLoadedAccountsDataSizeLimit
  else do
    match ← c.loadKeys c.message.accountKeys.zipIdx LoadState.start with
    | .error e => return .error e
    | .ok s =>
      if s.validatedFeePayer = false then return .error .accountNotFound
      else do
        match ← c.loadPrograms s.accounts.length s.accountsFound c.message.instructions
            s.accounts s.accumulatedAccountsDataSize with
        | .error e => return .error e
        | .ok (programIndices, accounts) =>
          return .ok {
            accounts
            programIndices
            rent := s.txRent
            rentDebits := s.rentDebits }

end LoadArgs

namespace Bank

variable (platform : Platform) (bank : Bank)

/-- One transaction of `load_accounts`. -/
def loadTransaction (accountOverrides : Pubkey → Option AccountSharedData)
    (programAccounts : ProgramAccountsMap) (loadedPrograms : LoadedProgramsForTxBatch)
    (tx : SanitizedTransaction) (check : TransactionCheckResult) :
    Reads TransactionLoadResult :=
  match check with
  | (.error e, _) => return .error e
  | (.ok (), nonce) =>
    match bank.lamportsPerSignature tx nonce with
    | none => return .error .blockhashNotFound
    | some lamportsPerSignature => do
        let c : LoadArgs :=
          { platform, bank, message := tx.message
            fee := platform.calculateFee tx.message lamportsPerSignature
            accountOverrides, programAccounts, loadedPrograms }
        match ← c.loadTransactionAccounts with
        | .error e => return .error e
        | .ok loaded =>
          match nonce with
          | none => return .ok (loaded, none)
          | some nonce =>
            match NonceFull.fromPartial nonce tx.message loaded.accounts
                loaded.rentDebits with
            | .error e => return .error e
            | .ok nonce => return .ok (loaded, some nonce)

def loadAccounts (accountOverrides : Pubkey → Option AccountSharedData)
    (programAccounts : ProgramAccountsMap) (loadedPrograms : LoadedProgramsForTxBatch) :
    List (SanitizedTransaction × TransactionCheckResult) → Reads (List TransactionLoadResult)
  | [] => return []
  | x :: xs => do
      let r ← bank.loadTransaction platform accountOverrides programAccounts loadedPrograms
        x.1 x.2
      let rs ← loadAccounts accountOverrides programAccounts loadedPrograms xs
      return r :: rs

end Bank

variable {c : LoadArgs} {view : AccountRequest → Option AccountSharedData}
variable {key : Pubkey} {i : Nat}

theorem addAccount_ok {s s' : LoadState} {x : FoundAccount} (h : c.addAccount s key i x = .ok s') :
    ∃ account, c.chargeFee s.validatedFeePayer key i x.account = .ok account ∧
      s'.accounts = s.accounts ++ [(key, account)] ∧
      s'.validatedFeePayer = (s.validatedFeePayer || c.message.isNonLoaderKey i) ∧
      s'.txRent = s.txRent + x.rent := by
  obtain ⟨size, _, h⟩ := Checked.bind_ok h
  obtain ⟨account, hpaid, h⟩ := Checked.bind_ok h
  split at h
  · cases h
  · cases h
    exact ⟨account, hpaid, rfl, rfl, rfl⟩

/-- Loaders were appended to the accounts, as the accounts db has them. -/
def Appended (view : AccountRequest → Option AccountSharedData)
    (accounts accounts' : List (Pubkey × AccountSharedData)) : Prop :=
  ∃ deps, accounts' = accounts ++ deps ∧ ∀ x ∈ deps, view (.load x.1) = some x.2

variable {accounts accounts' accounts'' : List (Pubkey × AccountSharedData)}

theorem Appended.refl : Appended view accounts accounts :=
  ⟨[], (append_nil accounts).symm, fun _ hx => absurd hx not_mem_nil⟩

theorem Appended.trans (h : Appended view accounts accounts')
    (h' : Appended view accounts' accounts'') : Appended view accounts accounts'' := by
  obtain ⟨deps, rfl, hdeps⟩ := h
  obtain ⟨deps', rfl, hdeps'⟩ := h'
  refine ⟨deps ++ deps', append_assoc .., fun x hx => ?_⟩
  exact (mem_append.mp hx).elim (hdeps x) (hdeps' x)

open ReadM

theorem ownerIndex_appended {start index size size' : Nat} {owner : Pubkey}
    (h : (c.ownerIndex start owner accounts size).eval view = .ok (index, accounts', size')) :
    Appended view accounts accounts' := by
  unfold LoadArgs.ownerIndex at h
  split at h
  · cases h
    exact .refl
  · rw [getAccountWithFixedRoot, eval_bind, eval_ask] at h
    cases hview : view (.load owner) with
    | none => simp [hview] at h
    | some account =>
      simp only [hview] at h
      split_ifs at h
      · cases h
      · split at h <;> cases h
        exact ⟨_, rfl, by simpa using hview⟩

theorem programIndex_appended {start size size' : Nat} {accountsFound : List Bool}
    {ix : CompiledInstruction} {indices : List Nat}
    (h : (c.programIndex start accountsFound ix accounts size).eval view =
      .ok (indices, accounts', size')) : Appended view accounts accounts' := by
  unfold LoadArgs.programIndex at h
  split at h
  · cases h
  · split_ifs at h
    · cases h
      exact .refl
    · cases h
    · cases h
    · cases h
      exact .refl
    · obtain ⟨r, hindex, h⟩ := eval_bind_ok (fun _ => rfl) h
      cases h
      exact ownerIndex_appended hindex

theorem loadPrograms_appended {start : Nat} {accountsFound : List Bool}
    {ixs : List CompiledInstruction} {size : Nat} {indices : List (List Nat)}
    (h : (c.loadPrograms start accountsFound ixs accounts size).eval view =
      .ok (indices, accounts')) : Appended view accounts accounts' := by
  induction ixs generalizing accounts size indices with
  | nil =>
    cases h
    exact .refl
  | cons ix ixs ih =>
    obtain ⟨first, hfirst, h⟩ := eval_bind_ok (fun _ => rfl) h
    obtain ⟨rest, hrest, h⟩ := eval_bind_ok (fun _ => rfl) h
    cases h
    exact (programIndex_appended hfirst).trans (ih hrest)

end Hypergrid
