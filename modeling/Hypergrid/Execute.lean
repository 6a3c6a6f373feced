import Hypergrid.CheckRemote
import Hypergrid.LoadAccounts

/-!
# Executing a loaded transaction

The model of `process_message` of `program-runtime/src/message_processor.rs` and of
`execute_loaded_transaction` and `post_status_to_baselayer` of `runtime/src/bank.rs`.

Running one instruction is a parameter, `Runtime.processInstruction`, with what
`sdk/src/transaction_context.rs` promises of it: the accounts keep their keys, and an account
that no instruction account marks as writable stays as it is.  `process_message` marks no
remote account as writable.

A line of the log carries the invocation that logged it.  The code reads the text alone; the
invocation is there to say which lines a program is responsible for.  No program reads the log, so
`LogCollector` is run over the lines at the end.
-/

namespace Hypergrid

/-- `InstructionAccount`; the index in the caller is the index in the transaction. -/
structure InstructionAccount where
  indexInTransaction : Nat
  indexInCallee : Nat
  isSigner : Bool
  isWritable : Bool
deriving DecidableEq

/-- A call of a program with its accounts, by an instruction or by another program. -/
structure Invocation where
  program : Pubkey
  accounts : List Pubkey
deriving DecidableEq

/-- A line of the log, and the call during which the program logged it; lines of the runtime
belong to no call. -/
structure LogMessage where
  text : List Char
  origin : Option Invocation
deriving DecidableEq

/-- `LogCollector` of `program-runtime/src/log_collector.rs`. -/
structure LogCollector where
  messages : List LogMessage
  bytesWritten : Nat
  bytesLimit : Option Nat
  limitWarning : Bool

/-- The length of a line in UTF-8. -/
def LogMessage.bytes (message : LogMessage) : Nat := (message.text.map Char.utf8Size).sum

namespace LogCollector

def logMessagesBytesLimit : Nat := 10 * 1000

/-- `new_ref`, or `new_ref_with_limit` for a limit of the caller. -/
def newRef (limit : Option Nat) : LogCollector :=
  { messages := [], bytesWritten := 0, bytesLimit := some (limit.getD logMessagesBytesLimit)
    limitWarning := false }

def truncated : LogMessage := { text := "Log truncated".toList, origin := none }

def log (collector : LogCollector) (message : LogMessage) : LogCollector :=
  match collector.bytesLimit with
  | none => { collector with messages := collector.messages ++ [message] }
  | some limit =>
    let bytesWritten := saturatingAdd collector.bytesWritten message.bytes
    if limit ≤ bytesWritten then
      if collector.limitWarning then collector
      else { collector with
        limitWarning := true, messages := collector.messages ++ [truncated] }
    else { collector with bytesWritten, messages := collector.messages ++ [message] }

/-- What is left of a log. -/
def recorded (limit : Option Nat) (logMessages : List LogMessage) : List LogMessage :=
  (logMessages.foldl log (newRef limit)).messages

end LogCollector

/-- The part of `InvokeContext` that goes from one instruction to the next; all lines that were
logged are there. -/
structure InvokeContext where
  accounts : List (Pubkey × AccountSharedData)
  logMessages : List LogMessage
  programsModifiedByTx : LoadedProgramsForTxBatch
  computeMeter : Nat

/-- Running instructions. -/
structure Runtime where
  /-- `process_instruction`, or the bare push and pop for a precompiled program; the flag is
  `false` for an error -/
  processInstruction : LoadedProgramsForTxBatch → InvokeContext → Pubkey → List UInt8 →
    List InstructionAccount → List Nat → InvokeContext × Bool
  keys : ∀ programs ctx programId data accounts indices,
    ((processInstruction programs ctx programId data accounts indices).1.accounts.map
      Prod.fst) = ctx.accounts.map Prod.fst
  /-- an account that is not writable is not changed -/
  fixed : ∀ programs ctx programId data accounts indices i,
    (∀ a ∈ accounts, a.indexInTransaction = i → a.isWritable = false) →
      (processInstruction programs ctx programId data accounts indices).1.accounts[i]? =
        ctx.accounts[i]?
  /-- `log_messages_bytes_limit` of the caller -/
  logMessagesBytesLimit : Option Nat
  /-- the budget of compute units of a message -/
  computeUnitLimit : SanitizedMessage → Nat
  /-- `evict_using_2s_random_selection`; the selection is random -/
  evict : LoadedPrograms → LoadedPrograms
  /-- the class of `\d` in a regular expression -/
  isDecimal : Char → Bool
  isDecimal_of_isDigit : ∀ c : Char, c.isDigit = true → isDecimal c = true

def storeCurrentIndex (data : List UInt8) (instructionIndex : Nat) : List UInt8 :=
  data.take (data.length - 2) ++
    [UInt8.ofNat instructionIndex, UInt8.ofNat (instructionIndex / 256)]

/-- The cast `as IndexOfAccount`, to 16 bits. -/
def asIndexOfAccount (n : Nat) : Nat := n % 2 ^ 16

def findIndexOfAccount (accounts : List (Pubkey × AccountSharedData)) (pubkey : Pubkey) :
    Option Nat :=
  (accounts.findIdx? (fun x => x.1 = pubkey)).map asIndexOfAccount

namespace InvokeContext

variable (ctx : InvokeContext)

/-- Fix up the instructions sysvar before an instruction. -/
def fixInstructionsSysvar (instructionIndex : Nat) : InvokeContext :=
  match findIndexOfAccount ctx.accounts instructionsSysvarId with
  | none => ctx
  | some index =>
    { ctx with
      accounts := ctx.accounts.modify index (fun x =>
        (x.1, { x.2 with data := storeCurrentIndex x.2.data instructionIndex })) }

def isRemote (pubkey : Pubkey) : Bool :=
  ((findIndexOfAccount ctx.accounts pubkey).bind (fun index => ctx.accounts[index]?)).any
    (fun x => x.2.remote)

/-- The accounts of an instruction.  The keys of a sanitized message are in range. -/
def instructionAccounts (message : SanitizedMessage) (ix : CompiledInstruction) :
    List InstructionAccount :=
  ix.accounts.zipIdx.map (fun x =>
    { indexInTransaction := x.1.toNat
      indexInCallee := asIndexOfAccount (((ix.accounts.take x.2).findIdx? (· = x.1)).getD x.2)
      isSigner := message.isSigner x.1.toNat
      -- a remote account is always not writable
      isWritable := message.isWritable x.1.toNat &&
        !((message.accountKeys[x.1.toNat]?).any ctx.isRemote) })

end InvokeContext

namespace Runtime

variable (runtime : Runtime)

def processInstructions (programs : LoadedProgramsForTxBatch) (message : SanitizedMessage) :
    List ((CompiledInstruction × List Nat) × Nat) → InvokeContext →
      InvokeContext × Except TransactionError Unit
  | [], ctx => (ctx, .ok ())
  | ((ix, programIndices), index) :: rest, ctx =>
    let ctx := ctx.fixInstructionsSysvar index
    let r := runtime.processInstruction programs ctx
      ((message.accountKeys[ix.programIdIndex.toNat]?).getD default) ix.data
      (ctx.instructionAccounts message ix) programIndices
    if r.2 then processInstructions programs message rest r.1
    else (r.1, .error (.instructionError index))

def processMessage (programs : LoadedProgramsForTxBatch) (message : SanitizedMessage)
    (programIndices : List (List Nat)) (ctx : InvokeContext) :
    InvokeContext × Except TransactionError Unit :=
  runtime.processInstructions programs message
    (message.instructions.zip programIndices).zipIdx ctx

end Runtime

/-- The text that the pattern of `post_status_to_baselayer` looks for. -/
def newValueText : List Char := "Fake NFT New Value: ".toList

namespace Runtime

variable (runtime : Runtime)

/-- A match of `Fake NFT New Value: (\d+)` at the start of a text: its digits. -/
def captureHere (text : List Char) : Option (List Char) :=
  if newValueText.isPrefixOf text then
    let digits := (text.drop newValueText.length).takeWhile runtime.isDecimal
    if digits.isEmpty then none else some digits
  else none

/-- `captures`: the first match in a text. -/
def captures : List Char → Option (List Char)
  | [] => none
  | c :: cs => (runtime.captureHere (c :: cs)).or (captures cs)

end Runtime

def parseU64 (digits : List Char) : Option Nat :=
  if digits.all Char.isDigit && decide (Nat.ofDigitChars 10 digits 0 ≤ u64Max) then
    some (Nat.ofDigitChars 10 digits 0)
  else none

/-- How `post_status_to_baselayer` ends without a post. -/
inductive PostStop where
  | nothing
  | panicked
deriving DecidableEq

/-- What `post_status_to_baselayer` does. -/
inductive PostOutcome where
  | stopped (stop : PostStop)
  | sent (update : RemoteAccountLoader.StatusUpdate) (signature : Option (List Char))
deriving DecidableEq

def sonicInstruction (l : RemoteAccountLoader) (message : SanitizedMessage) :
    Option (Pubkey × CompiledInstruction) :=
  message.instructions.findSome? (fun ix =>
    match message.accountKeys[ix.programIdIndex.toNat]? with
    | some programId => if l.isSonicProgram programId then some (programId, ix) else none
    | none => none)

/-- The program and the account of a post, or what ends the function before. -/
def postTarget (l : RemoteAccountLoader) (tx : SanitizedTransaction) :
    Except PostStop (Pubkey × Pubkey) :=
  if tx.isSimpleVoteTx then .error .nothing
  else
    match sonicInstruction l tx.message with
    | none => .error .nothing
    | some (sonicProgram, ix) =>
      match ix.accounts with
      | [] => .error .panicked
      | index :: _ =>
        match tx.message.accountKeys[index.toNat]? with
        | none => .error .nothing
        | some account =>
          if l.hasAccount account then .ok (sonicProgram, account)
          else .error .nothing

/-- The value of a post: the first match in the log. -/
def Runtime.postValue (runtime : Runtime) (logMessages : Option (List LogMessage)) :
    Except PostStop Nat :=
  match (logMessages.getD []).findSome? (fun x => runtime.captures x.text) with
  | none => .error .nothing
  | some digits =>
    match parseU64 digits with
    | none => .error .panicked
    | some value => .ok value

def Runtime.postStatusToBaselayer (runtime : Runtime) (l : RemoteAccountLoader)
    (tx : SanitizedTransaction) (logMessages : Option (List LogMessage)) (rpc : PostRpc) :
    RemoteAccountLoader × PostOutcome :=
  match postTarget l tx with
  | .error stop => (l, .stopped stop)
  | .ok (sonicProgram, account) =>
    match runtime.postValue logMessages with
    | .error stop => (l, .stopped stop)
    | .ok value =>
      if rpc.blockhash then
        let r := l.sendStatusToBaselayer sonicProgram account value
          rpc.signature.isSome rpc.account
        (r.1, .sent r.2 rpc.signature)
      else (l, .stopped .panicked)

/-- `transaction_accounts_lamports_sum`; 128 bits are enough for it. -/
def transactionAccountsLamportsSum (accounts : List (Pubkey × AccountSharedData))
    (message : SanitizedMessage) : Option Nat :=
  if message.accountKeys.length ≤ accounts.length then
    some (((accounts.take message.accountKeys.length).map (fun x => x.2.lamports)).sum)
  else none

/-- `get_transaction_account_state_info`, with the keys of the accounts. -/
def getTransactionAccountStateInfo (rent : Rent) (message : SanitizedMessage)
    (accounts : List (Pubkey × AccountSharedData)) : List (Option RentState) :=
  (List.range message.accountKeys.length).map (fun i =>
    if message.isWritable i then
      (accounts[i]?).map (fun x => RentState.fromAccount x.2 rent)
    else none)

def verifyTransactionAccountStateChanges (accounts : List (Pubkey × AccountSharedData)) :
    List ((Option RentState × Option RentState) × Nat) → Except TransactionError Unit
  | [] => .ok ()
  | ((some pre, some post), i) :: rest =>
    match checkRentStateWithAccount pre post
        (((accounts[i]?).map Prod.fst).getD default) i with
    | .error e => .error e
    | .ok () => verifyTransactionAccountStateChanges accounts rest
  | _ :: rest => verifyTransactionAccountStateChanges accounts rest

/-- `TransactionExecutionDetails`, with the accounts of the loaded transaction and what was
posted. -/
structure ExecutionDetails where
  status : Except TransactionError Unit
  logMessages : Option (List LogMessage)
  /-- the lamports per signature of `DurableNonceFee`, which may be invalid -/
  durableNonceFee : Option (Option Nat)
  accounts : List (Pubkey × AccountSharedData)
  programsModifiedByTx : LoadedProgramsForTxBatch
  posted : PostOutcome

/-- `LoadedProgramsForTxBatch::new`, as a transaction starts with it. -/
def LoadedProgramsForTxBatch.noneModified (slot : Slot) (programs : LoadedProgramsForTxBatch) :
    LoadedProgramsForTxBatch :=
  { entries := fun _ => none
    slot
    environments := programs.environments
    upcomingEnvironments := programs.upcomingEnvironments
    latestRootEpoch := programs.latestRootEpoch
    hitMaxLimit := false }

/-- The log messages with the signature of a post. -/
def withSignature (logMessages : Option (List LogMessage)) (posted : PostOutcome) :
    Option (List LogMessage) :=
  match posted with
  | .sent _ (some signature) =>
    logMessages.map (fun logs => logs ++
      [{ text := "Sonic BaseLayer Transaction Signature: ".toList ++ signature
         origin := none }])
  | _ => logMessages

namespace Runtime

variable (runtime : Runtime) (bank : Bank)

def runMessage (programs : LoadedProgramsForTxBatch) (message : SanitizedMessage)
    (loaded : LoadedTransaction) : InvokeContext × Except TransactionError Unit :=
  let ctx : InvokeContext :=
    { accounts := loaded.accounts
      logMessages := []
      programsModifiedByTx := LoadedProgramsForTxBatch.noneModified bank.slot programs
      computeMeter := runtime.computeUnitLimit message }
  let rent := bank.rentCollector.rent
  let r := runtime.processMessage programs message loaded.programIndices ctx
  let status := r.2.bind (fun _ =>
    verifyTransactionAccountStateChanges r.1.accounts
      ((getTransactionAccountStateInfo rent message loaded.accounts).zip
        (getTransactionAccountStateInfo rent message r.1.accounts)).zipIdx)
  let status := status.bind (fun _ =>
    if transactionAccountsLamportsSum r.1.accounts message =
        some ((transactionAccountsLamportsSum loaded.accounts message).getD 0) then .ok ()
    else .error .unbalancedTransaction)
  (r.1, status)

/-- `execute_loaded_transaction`, with the remote loader after the post. -/
def executeLoadedTransaction (l : RemoteAccountLoader) (tx : SanitizedTransaction)
    (loaded : LoadedTransaction) (durableNonceFee : Option (Option Nat))
    (enableLogRecording : Bool) (programs : LoadedProgramsForTxBatch) (rpc : PostRpc) :
    RemoteAccountLoader × ExecutionDetails :=
  let r := runtime.runMessage bank programs tx.message loaded
  let logMessages :=
    if enableLogRecording then
      some (LogCollector.recorded runtime.logMessagesBytesLimit r.1.logMessages)
    else none
  let post := runtime.postStatusToBaselayer l tx logMessages rpc
  (post.1,
    { status := r.2
      logMessages := withSignature logMessages post.2
      durableNonceFee
      accounts := r.1.accounts
      programsModifiedByTx := r.1.programsModifiedByTx
      posted := post.2 })

end Runtime
end Hypergrid
