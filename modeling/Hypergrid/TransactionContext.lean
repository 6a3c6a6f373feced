import Hypergrid.Execute

/-!
# Accounts under an instruction

The model of `sdk/src/transaction_context.rs`: the contexts of the instructions that are
running, and the setters of `BorrowedAccount`, with every check that they make.

The dynamic borrows of the accounts are left out: a failed borrow only refuses what is allowed
here.

* `Modification.apply_modified` : a setter leaves an account that is not writable as it is, no
  setter changes the `remote` flag, and one that returns `Err` has changed no account.
-/

namespace Hypergrid

/-- The errors of the modelled functions; `custom` stands for those of the programs. -/
inductive InstructionError where
  | unsupportedProgramId
  | missingAccount
  | notEnoughAccountKeys
  | privilegeEscalation
  | accountNotExecutable
  | callDepth
  | maxInstructionTraceLengthExceeded
  | unbalancedInstruction
  | reentrancyNotAllowed
  | modifiedProgramId
  | externalAccountLamportSpend
  | readonlyLamportChange
  | executableLamportChange
  | arithmeticOverflow
  | executableDataModified
  | readonlyDataModified
  | externalAccountDataModified
  | accountDataSizeChanged
  | invalidRealloc
  | maxAccountsDataAllocationsExceeded
  | executableAccountNotRentExempt
  | executableModified
  | accountDataTooSmall
  | custom (code : Nat)
deriving DecidableEq

def maxPermittedDataLength : Nat := 10 * 1024 * 1024

def maxPermittedAccountsDataAllocationsPerTransaction : Int := maxPermittedDataLength * 2

structure StableInstruction where
  accounts : List AccountMeta
  data : List UInt8
  programId : Pubkey
deriving DecidableEq

structure InstructionContext where
  nestingLevel : Nat
  instructionAccountsLamportSum : Nat
  programAccounts : List Nat
  instructionAccounts : List InstructionAccount
  instructionData : List UInt8
deriving DecidableEq

/-- An account of an instruction context, as `try_borrow_program_account` and
`try_borrow_instruction_account` take it. -/
inductive AccountRef where
  | programAccount (index : Nat)
  | instructionAccount (index : Nat)
deriving DecidableEq

namespace InstructionContext

variable (ic : InstructionContext)
variable (accounts : List (Pubkey × AccountSharedData))

def default : InstructionContext :=
  { nestingLevel := 0
    instructionAccountsLamportSum := 0
    programAccounts := []
    instructionAccounts := []
    instructionData := [] }

def configure (programAccounts : List Nat) (instructionAccounts : List InstructionAccount)
    (instructionData : List UInt8) : InstructionContext :=
  { ic with programAccounts, instructionAccounts, instructionData }

def indexInTransaction : AccountRef → Option Nat
  | .programAccount index => ic.programAccounts[index]?
  | .instructionAccount index =>
    (ic.instructionAccounts[index]?).map InstructionAccount.indexInTransaction

/-- `is_writable` of a borrowed account: program accounts never are.  The source adds and subtracts
the number of program accounts, which does not saturate for up to `2 ^ 16` accounts in all. -/
def isWritable : AccountRef → Bool
  | .programAccount _ => false
  | .instructionAccount index =>
    ((ic.instructionAccounts[index]?).map InstructionAccount.isWritable).getD false

def isSigner : AccountRef → Bool
  | .programAccount _ => false
  | .instructionAccount index =>
    ((ic.instructionAccounts[index]?).map InstructionAccount.isSigner).getD false

def getLastProgramKey : Except InstructionError Pubkey :=
  match ic.programAccounts[ic.programAccounts.length - 1]? with
  | none => .error .notEnoughAccountKeys
  | some index =>
    match accounts[index]? with
    | none => .error .notEnoughAccountKeys
    | some x => .ok x.1

/-- One account of `instruction_accounts_lamport_sum`: duplicates are skipped. -/
def addLamports (sum : Nat) (x : InstructionAccount × Nat) : Except InstructionError Nat :=
  if x.1.indexInCallee = x.2 then
    match accounts[x.1.indexInTransaction]? with
    | none => .error .notEnoughAccountKeys
    | some y => .ok (sum + y.2.lamports)
  else .ok sum

/-- `get_number_of_instruction_accounts`, cast to the 16 bits of `IndexOfAccount`. -/
def getNumberOfInstructionAccounts : Nat := ic.instructionAccounts.length % 2 ^ 16

/-- `instruction_accounts_lamport_sum`; 64 bits of lamports for each account do not overflow
128 bits. -/
def lamportSum : Except InstructionError Nat :=
  (ic.instructionAccounts.take ic.getNumberOfInstructionAccounts).zipIdx.foldlM
    (addLamports accounts) 0

end InstructionContext

/-- What the setters of `BorrowedAccount` look at, beside what they change. -/
structure BorrowEnv where
  isWritable : Bool
  /-- the last program of the instruction -/
  currentProgram : Option Pubkey
  rent : Rent

/-- What the setters change: the account, its flag among the `touched_flags`, and the resize delta
of the transaction. -/
structure Borrowed where
  account : AccountSharedData
  touched : Bool
  accountsResizeDelta : Int

/-- The setters of `BorrowedAccount`. -/
inductive Modification where
  | setOwner (pubkey : Pubkey)
  | setLamports (lamports : Nat)
  | checkedAddLamports (lamports : Nat)
  | checkedSubLamports (lamports : Nat)
  /-- `get_data_mut`, and what the caller writes into the slice -/
  | getDataMut (write : List UInt8 → List UInt8)
  | setDataFromSlice (data : List UInt8)
  | setDataLength (newLength : Nat)
  | extendFromSlice (data : List UInt8)
  | reserve (additional : Nat)
  /-- `set_state`, given the serialized state -/
  | setState (serialized : List UInt8)
  | setExecutable (isExecutable : Bool)

namespace Borrowed

variable (b : Borrowed)

/-- There is a flag for every account. -/
def touch : Borrowed := { b with touched := true }

/-- The delta that `update_accounts_resize_delta` leaves. -/
def resized (newLength : Nat) : Int :=
  b.accountsResizeDelta + ((newLength : Int) - b.account.data.length)

def updateAccountsResizeDelta (newLength : Nat) : Borrowed :=
  { b with accountsResizeDelta := b.resized newLength }

/-- Go on after a check, or return its error. -/
def after (check : Except InstructionError Unit) (next : Borrowed × Except InstructionError Unit) :
    Borrowed × Except InstructionError Unit :=
  match check with
  | .error e => (b, .error e)
  | .ok () => next

end Borrowed

namespace BorrowEnv

variable (env : BorrowEnv) (b : Borrowed)

def isOwnedByCurrentProgram : Bool := decide (env.currentProgram = some b.account.owner)

def canDataBeChanged : Except InstructionError Unit :=
  if b.account.executable then .error .executableDataModified
  else if !env.isWritable then .error .readonlyDataModified
  else if !env.isOwnedByCurrentProgram b then .error .externalAccountDataModified
  else .ok ()

def canDataBeResized (newLength : Nat) : Except InstructionError Unit :=
  if newLength ≠ b.account.data.length ∧ env.isOwnedByCurrentProgram b = false then
    .error .accountDataSizeChanged
  else if maxPermittedDataLength < newLength then .error .invalidRealloc
  else if maxPermittedAccountsDataAllocationsPerTransaction < b.resized newLength then
    .error .maxAccountsDataAllocationsExceeded
  else .ok ()

def setLamports (lamports : Nat) : Borrowed × Except InstructionError Unit :=
  if env.isOwnedByCurrentProgram b = false ∧ lamports < b.account.lamports then
    (b, .error .externalAccountLamportSpend)
  else if !env.isWritable then (b, .error .readonlyLamportChange)
  else if b.account.executable then (b, .error .executableLamportChange)
  else if b.account.lamports = lamports then (b, .ok ())
  else ({ b.touch with account := { b.account with lamports } }, .ok ())

def setOwner (pubkey : Pubkey) : Borrowed × Except InstructionError Unit :=
  if !env.isOwnedByCurrentProgram b then (b, .error .modifiedProgramId)
  else if !env.isWritable then (b, .error .modifiedProgramId)
  else if b.account.executable then (b, .error .modifiedProgramId)
  else if !b.account.data.all (· == 0) then (b, .error .modifiedProgramId)
  else if b.account.owner = pubkey then (b, .ok ())
  else ({ b.touch with account := { b.account with owner := pubkey } }, .ok ())

def setExecutable (isExecutable : Bool) : Borrowed × Except InstructionError Unit :=
  if !env.rent.isExempt b.account.lamports b.account.data.length then
    (b, .error .executableAccountNotRentExempt)
  else if !env.isOwnedByCurrentProgram b then (b, .error .executableModified)
  else if !env.isWritable then (b, .error .executableModified)
  else if b.account.executable && !isExecutable then (b, .error .executableModified)
  else if b.account.executable = isExecutable then (b, .ok ())
  else ({ b.touch with account := { b.account with executable := isExecutable } }, .ok ())

/-- Replace the data, for the setters that check the new length first; `same` says that the setter
returns before it touches the account. -/
def resizeData (same : Bool) (data : List UInt8) : Borrowed × Except InstructionError Unit :=
  b.after (env.canDataBeResized b data.length) <| b.after (env.canDataBeChanged b) <|
    if same then (b, .ok ())
    else ({ b.touch.updateAccountsResizeDelta data.length with
      account := { b.account with data } }, .ok ())

/-- `get_data_mut`, and what becomes of the slice: an error of the caller comes after the touch. -/
def getDataMut (write : Except InstructionError (List UInt8)) :
    Borrowed × Except InstructionError Unit :=
  b.after (env.canDataBeChanged b) <|
    match write with
    | .error e => (b.touch, .error e)
    | .ok data => ({ b.touch with account := { b.account with data } }, .ok ())

end BorrowEnv

/-- A setter, in the source's order; also one that returns `Err` has a state after it. -/
def Modification.apply (env : BorrowEnv) (b : Borrowed) :
    Modification → Borrowed × Except InstructionError Unit
  | .setOwner pubkey => env.setOwner b pubkey
  | .setLamports lamports => env.setLamports b lamports
  | .checkedAddLamports lamports =>
    if b.account.lamports + lamports ≤ u64Max then
      env.setLamports b (b.account.lamports + lamports)
    else (b, .error .arithmeticOverflow)
  | .checkedSubLamports lamports =>
    if lamports ≤ b.account.lamports then env.setLamports b (b.account.lamports - lamports)
    else (b, .error .arithmeticOverflow)
  | .getDataMut write =>
    -- a slice keeps its length
    env.getDataMut b (.ok ((write b.account.data).takeD b.account.data.length 0))
  | .setDataFromSlice data => env.resizeData b false data
  | .setDataLength newLength =>
    env.resizeData b (b.account.data.length = newLength) (b.account.data.takeD newLength 0)
  | .extendFromSlice data => env.resizeData b data.isEmpty (b.account.data ++ data)
  | .reserve _ => (b, .ok ())
  | .setState serialized =>
    env.getDataMut b (if b.account.data.length < serialized.length then .error .accountDataTooSmall
      else .ok (serialized ++ b.account.data.drop serialized.length))
  | .setExecutable isExecutable => env.setExecutable b isExecutable

/-- What a setter does to the account and to the resize delta: it changes a writable account only,
never its `remote` flag, and nothing but the touched flag if it returns `Err`. -/
structure Modified (env : BorrowEnv) (b b' : Borrowed) (r : Except InstructionError Unit) :
    Prop where
  writable : env.isWritable = true ∨ b'.account = b.account
  remote : b'.account.remote = b.account.remote
  delta_eq : b'.accountsResizeDelta = b.resized b'.account.data.length
  length : b'.account.data.length = b.account.data.length ∨
    b'.account.data.length ≤ maxPermittedDataLength ∧
      b'.accountsResizeDelta ≤ maxPermittedAccountsDataAllocationsPerTransaction
  error : ∀ e, r = .error e → b'.account = b.account

section Setters
variable {env : BorrowEnv} {b b' : Borrowed} {r : Except InstructionError Unit}

open BorrowEnv

theorem resized_length (b : Borrowed) :
    b.resized b.account.data.length = b.accountsResizeDelta := by
  simp [Borrowed.resized]

theorem Modified.error_delta (h : Modified env b b' r) {e : InstructionError} (he : r = .error e) :
    b'.accountsResizeDelta = b.accountsResizeDelta := by
  rw [h.delta_eq, h.error e he, resized_length]

theorem Modified.kept (b : Borrowed) (touched : Bool) (r : Except InstructionError Unit) :
    Modified env b { b with touched } r :=
  ⟨.inr rfl, rfl, (resized_length b).symm, .inl rfl, fun _ _ => rfl⟩

/-- The setters that keep the length. -/
theorem Modified.sameLength (hwritable : env.isWritable = true) {account : AccountSharedData}
    (hremote : account.remote = b.account.remote)
    (hlength : account.data.length = b.account.data.length) :
    Modified env b { b.touch with account } (.ok ()) :=
  ⟨.inl hwritable, hremote, by rw [hlength, resized_length]; rfl, .inl hlength, nofun⟩

theorem Modified.after {check : Except InstructionError Unit}
    {next : Borrowed × Except InstructionError Unit}
    (h : check = .ok () → Modified env b next.1 next.2) :
    Modified env b (b.after check next).1 (b.after check next).2 := by
  cases check with
  | error e => exact .kept b b.touched _
  | ok u => exact h rfl

theorem canDataBeChanged_ok (h : env.canDataBeChanged b = .ok ()) : env.isWritable = true := by
  unfold canDataBeChanged at h
  split_ifs at h with _ hwritable
  simpa using hwritable

theorem setLamports_modified (lamports : Nat) :
    Modified env b (env.setLamports b lamports).1 (env.setLamports b lamports).2 := by
  unfold setLamports
  split_ifs with _ hwritable
  all_goals first
    | exact .kept b b.touched _
    | exact .sameLength (by simpa using hwritable) rfl rfl

theorem setOwner_modified (pubkey : Pubkey) :
    Modified env b (env.setOwner b pubkey).1 (env.setOwner b pubkey).2 := by
  unfold setOwner
  split_ifs with _ hwritable
  all_goals first
    | exact .kept b b.touched _
    | exact .sameLength (by simpa using hwritable) rfl rfl

theorem setExecutable_modified (isExecutable : Bool) :
    Modified env b (env.setExecutable b isExecutable).1 (env.setExecutable b isExecutable).2 := by
  unfold setExecutable
  split_ifs with _ _ hwritable
  all_goals first
    | exact .kept b b.touched _
    | exact .sameLength (by simpa using hwritable) rfl rfl

theorem resizeData_modified (same : Bool) (data : List UInt8) :
    Modified env b (env.resizeData b same data).1 (env.resizeData b same data).2 := by
  refine .after fun hresize => .after fun hchange => ?_
  cases same with
  | true => exact .kept b b.touched _
  | false =>
    unfold canDataBeResized at hresize
    split_ifs at hresize with _ hlength hlimit
    exact ⟨.inl (canDataBeChanged_ok hchange), rfl, rfl,
      .inr ⟨not_lt.mp hlength, not_lt.mp hlimit⟩, nofun⟩

theorem getDataMut_modified {write : Except InstructionError (List UInt8)}
    (hlength : ∀ data, write = .ok data → data.length = b.account.data.length) :
    Modified env b (env.getDataMut b write).1 (env.getDataMut b write).2 := by
  refine .after fun hchange => ?_
  cases write with
  | error e => exact .kept b true _
  | ok data => exact .sameLength (canDataBeChanged_ok hchange) rfl (hlength data rfl)

theorem Modification.apply_modified (m : Modification) :
    Modified env b (m.apply env b).1 (m.apply env b).2 := by
  cases m with
  | setOwner pubkey => exact setOwner_modified pubkey
  | setLamports lamports => exact setLamports_modified lamports
  | checkedAddLamports lamports =>
    simp only [Modification.apply]
    split_ifs
    · exact setLamports_modified _
    · exact .kept b b.touched _
  | checkedSubLamports lamports =>
    simp only [Modification.apply]
    split_ifs
    · exact setLamports_modified _
    · exact .kept b b.touched _
  | getDataMut write =>
    refine getDataMut_modified fun data hdata => ?_
    cases hdata
    exact List.takeD_length ..
  | setDataFromSlice data => exact resizeData_modified ..
  | setDataLength newLength => exact resizeData_modified ..
  | extendFromSlice data => exact resizeData_modified ..
  | reserve additional => exact .kept b b.touched _
  | setState serialized =>
    refine getDataMut_modified fun data hdata => ?_
    split_ifs at hdata with hlength
    cases hdata
    rw [List.length_append, List.length_drop, Nat.add_sub_cancel' (not_lt.mp hlength)]
  | setExecutable isExecutable => exact setExecutable_modified isExecutable

end Setters

end Hypergrid
