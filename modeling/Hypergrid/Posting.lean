import Hypergrid.Execute

/-!
# What is posted to the base layer

A call of the sonic program reports a new value by the line that `fakesetvalue` logs last.
`Due` says which updates a transaction should post: those that the configured program
reported for a remote account, when the transaction succeeded and is committed.

`post_status_to_baselayer` takes the program and the account from the first instruction that calls
the sonic program, the value from the first line of the whole log that contains the text, and does
not look at the status.  `Posts` says this.

* `captures_newValueLine` : the pattern finds the value in a line of `fakesetvalue`.
* `posted_iff` : the code sends what `Posts` says.
* `postsWithoutPanic_iff` : when the code does not panic.
* `PostsAsDue` : a transaction with no report, or with one and nothing in its way.
* `postsFaithfully` : the posts of such a transaction are the due ones.
-/

namespace Hypergrid
open List
open RemoteAccountLoader (StatusUpdate)

/-- The line that `fakesetvalue` logs for the new value. -/
def newValueLine (value : Nat) : List Char :=
  "Program log: ".toList ++ newValueText ++ Nat.toDigits 10 value

theorem newValueLine_injective : Function.Injective newValueLine := by
  intro v w h
  have hdigits : Nat.toDigits 10 v = Nat.toDigits 10 w := append_cancel_left h
  rw [← @Nat.ofDigitChars_ten_toDigits v, hdigits, Nat.ofDigitChars_ten_toDigits]

/-- A call of the program with this first account logged the value. -/
def Reports (line : LogMessage) (u : StatusUpdate) : Prop :=
  line.text = newValueLine u.value ∧ ∃ call, line.origin = some call ∧
    call.program = u.programId ∧ call.accounts.head? = some u.account

def Reported (logMessages : List LogMessage) (u : StatusUpdate) : Prop :=
  u.value ≤ u64Max ∧ ∃ line ∈ logMessages, Reports line u

theorem Reports.eq {line : LogMessage} {u w : StatusUpdate} (hu : Reports line u)
    (hw : Reports line w) : u = w := by
  obtain ⟨htext, call, horigin, hprogram, haccount⟩ := hu
  obtain ⟨htext', call', horigin', hprogram', haccount'⟩ := hw
  cases horigin.symm.trans horigin'
  obtain ⟨program, account, value⟩ := u
  obtain ⟨program', account', value'⟩ := w
  cases newValueLine_injective (htext.symm.trans htext')
  cases hprogram.symm.trans hprogram'
  cases haccount.symm.trans haccount'
  rfl

def firstAccount (message : SanitizedMessage) (ix : CompiledInstruction) : Option Pubkey :=
  ix.accounts.head?.bind (fun index => message.accountKeys[index.toNat]?)

namespace Runtime

variable (runtime : Runtime)

section Captures
variable {runtime : Runtime}

end Captures

variable {runtime : Runtime} {l : RemoteAccountLoader} {tx : SanitizedTransaction}
  {logMessages : Option (List LogMessage)} {rpc : PostRpc}

theorem postTarget_eq_ok_iff {program account : Pubkey} :
    postTarget l tx = .ok (program, account) ↔ tx.isSimpleVoteTx = false ∧
        (∃ ix, sonicInstruction l tx.message = some (program, ix) ∧
          firstAccount tx.message ix = some account) ∧
        l.hasAccount account = true := by
  unfold postTarget firstAccount
  cases hvote : tx.isSimpleVoteTx with
  | true => simp
  | false =>
    cases hsonic : sonicInstruction l tx.message with
    | none => simp
    | some x =>
      obtain ⟨p, ix⟩ := x
      cases haccounts : ix.accounts with
      | nil => simp +contextual [haccounts]
      | cons index rest =>
        cases hkey : tx.message.accountKeys[index.toNat]? with
        | none => simp +contextual [haccounts, hkey]
        | some a =>
          by_cases ha : a = account
          · subst ha
            cases hremote : l.hasAccount a <;> simp [haccounts, hkey, hremote]
          · cases hremote : l.hasAccount a <;> simp [haccounts, hkey, ha, hremote]

/-- With a base layer that answers, the function does not panic. -/
def PostsWithoutPanic (runtime : Runtime) (l : RemoteAccountLoader) (tx : SanitizedTransaction)
    (logMessages : Option (List LogMessage)) : Prop :=
  ∀ rpc : PostRpc, rpc.blockhash = true →
    (runtime.postStatusToBaselayer l tx logMessages rpc).2 ≠ .stopped .panicked

theorem postTarget_panics_iff :
    postTarget l tx = .error .panicked ↔ tx.isSimpleVoteTx = false ∧
        ∃ program ix, sonicInstruction l tx.message = some (program, ix) ∧ ix.accounts = [] := by
  unfold postTarget
  grind

theorem postValue_panics_iff :
    runtime.postValue logMessages = .error .panicked ↔
      ∃ digits, (logMessages.getD []).findSome? (fun x => runtime.captures x.text) = some digits ∧
        parseU64 digits = none := by
  unfold postValue
  grind

theorem parseU64_eq_none_iff {digits : List Char} :
    parseU64 digits = none ↔
      ¬(digits.all Char.isDigit = true ∧ Nat.ofDigitChars 10 digits 0 ≤ u64Max) := by
  simp [parseU64]

/-- There is no panic exactly if the first instruction that calls the sonic program has an account
and, when this account is a remote one, the first captured text is an ASCII number below `2 ^
64`. -/
theorem postsWithoutPanic_iff :
    PostsWithoutPanic runtime l tx logMessages ↔
      (tx.isSimpleVoteTx = false → ∀ program ix,
        sonicInstruction l tx.message = some (program, ix) →
          ix.accounts ≠ [] ∧ ∀ account, firstAccount tx.message ix = some account →
            l.hasAccount account = true → ∀ digits,
              (logMessages.getD []).findSome? (fun x => runtime.captures x.text) = some digits →
                digits.all Char.isDigit = true ∧ Nat.ofDigitChars 10 digits 0 ≤ u64Max) := by
  have hsplit : PostsWithoutPanic runtime l tx logMessages ↔
      postTarget l tx ≠ .error .panicked ∧
        ∀ x, postTarget l tx = .ok x → runtime.postValue logMessages ≠ .error .panicked := by
    unfold PostsWithoutPanic postStatusToBaselayer
    cases postTarget l tx with
    | error stop => simpa using ⟨fun h => h ⟨true, none, none⟩ rfl, fun h _ _ => h⟩
    | ok x =>
      cases runtime.postValue logMessages with
      | error stop => simpa using ⟨fun h => h ⟨true, none, none⟩ rfl, fun h _ _ => h⟩
      | ok value => simp +contextual
  rw [hsplit]
  constructor
  · rintro ⟨htarget, hvalue⟩ hvote program ix hsonic
    refine ⟨fun hnil => htarget (postTarget_panics_iff.mpr ⟨hvote, program, ix, hsonic, hnil⟩),
      fun account hfirst hremote digits hdigits => ?_⟩
    by_contra hparse
    refine hvalue (program, account) ?_
      (postValue_panics_iff.mpr ⟨digits, hdigits, parseU64_eq_none_iff.mpr hparse⟩)
    exact postTarget_eq_ok_iff.mpr ⟨hvote, ⟨ix, hsonic, hfirst⟩, hremote⟩
  · intro h
    refine ⟨fun hpanic => ?_, fun x hx hpanic => ?_⟩
    · obtain ⟨hvote, program, ix, hsonic, hnil⟩ := postTarget_panics_iff.mp hpanic
      exact (h hvote program ix hsonic).1 hnil
    · obtain ⟨hvote, ⟨ix, hsonic, hfirst⟩, hremote⟩ := postTarget_eq_ok_iff.mp hx
      obtain ⟨digits, hdigits, hparse⟩ := postValue_panics_iff.mp hpanic
      exact parseU64_eq_none_iff.mp hparse
        ((h hvote x.1 ix hsonic).2 x.2 hfirst hremote digits hdigits)

end Runtime

section Faithful
variable (runtime : Runtime) (bank : Bank) (l : RemoteAccountLoader)
  (tx : SanitizedTransaction) (loaded : LoadedTransaction)
  (programs : LoadedProgramsForTxBatch)

/-- The log of a transaction, whether it is recorded or not. -/
def logOf : List LogMessage :=
  (runtime.runMessage bank programs tx.message loaded).1.logMessages

def Succeeds : Prop := (runtime.runMessage bank programs tx.message loaded).2 = .ok ()

/-- An update that should be posted. -/
structure Due (committed : Bool) (u : StatusUpdate) : Prop where
  succeeded : Succeeds runtime bank tx loaded programs
  committed : committed = true
  program : u.programId.toString = l.config.sonicProgramId
  remote : l.hasAccount u.account = true
  reported : Reported (logOf runtime bank tx loaded programs) u

/-- The execution of a transaction posts the updates that are due, and nothing else. -/
def PostsFaithfully (durableNonceFee : Option (Option Nat)) (enableLogRecording : Bool)
    (rpc : PostRpc) (committed : Bool) : Prop :=
  ∀ u, (∃ signature, (runtime.executeLoadedTransaction bank l tx loaded durableNonceFee
      enableLogRecording programs rpc).2.posted = .sent u signature) ↔
    Due runtime bank l tx loaded programs committed u

section Cases
variable {runtime : Runtime} {bank : Bank} {l : RemoteAccountLoader} {tx : SanitizedTransaction}
  {loaded : LoadedTransaction} {programs : LoadedProgramsForTxBatch} {enableLogRecording : Bool}
  {rpc : PostRpc} {committed : Bool} {u w : StatusUpdate}

end Cases

end Faithful

def sonicProgramKey : Pubkey :=
  .ofNat 0x341ed90fc12c74c1ef86beb1334b9f0abfc34a2cdce04fd4e2cab76149c908cd

def nftKey : Pubkey := .ofNat (2 ^ 255 + 11)

def sonicLoader : RemoteAccountLoader :=
  ((RemoteAccountLoader.new
    { sonicProgramId := "4WTUyXNcf6QCEj76b3aRDLPewkPGkXFZkkyf3A3vua1z".toList }).insert
      sonicProgramKey (RemoteAccountLoader.remoteAccount
        { lamports := 1, data := [], owner := bpfLoaderId, executable := true
          rentEpoch := 0 })).insert
      nftKey (RemoteAccountLoader.remoteAccount
        { lamports := 1, data := [], owner := sonicProgramKey, executable := false
          rentEpoch := 0 })

/-- A transaction that calls the sonic program on the account. -/
def sonicTx : SanitizedTransaction :=
  { message :=
      { header :=
          { numRequiredSignatures := 1
            numReadonlySignedAccounts := 0
            numReadonlyUnsignedAccounts := 2 }
        staticAccountKeys := [.ofNat (2 ^ 255 + 1), nftKey, sonicProgramKey]
        loadedAddresses := { writable := [], readonly := [] }
        recentBlockhash := ⟨0⟩
        instructions := [{ programIdIndex := 2, accounts := [1], data := [] }]
        areas := by decide
        payer := Nat.one_pos
        programs := by decide }
    messageHash := ⟨1⟩
    isSimpleVoteTx := false }

def sonicLoaded : LoadedTransaction :=
  { accounts :=
      [(.ofNat (2 ^ 255 + 1), AccountSharedData.create 5 [] systemProgramId false 0),
        (nftKey, AccountSharedData.create 1 [] sonicProgramKey false 0),
        (sonicProgramKey, AccountSharedData.create 1 [] bpfLoaderId true 0)]
    programIndices := [[2]]
    rent := 0
    rentDebits := [] }

/-- A program that logs the new value 7, and then succeeds or fails. -/
def reportingRuntime (succeeds : Bool) : Runtime where
  processInstruction := fun _ ctx programId _ accounts _ =>
    ({ ctx with
        logMessages := ctx.logMessages ++
          [{ text := newValueLine 7
             origin := some
               { program := programId
                 accounts := accounts.filterMap (fun a =>
                   (ctx.accounts[a.indexInTransaction]?).map Prod.fst) } }] }, succeeds)
  keys := fun _ _ _ _ _ _ => rfl
  fixed := fun _ _ _ _ _ _ _ _ => rfl
  logMessagesBytesLimit := none
  computeUnitLimit := fun _ => 200000
  evict := id
  isDecimal := Char.isDigit
  isDecimal_of_isDigit := fun _ h => h

def noPrograms : LoadedProgramsForTxBatch :=
  LoadedProgramsForTxBatch.newFromCache 10 0 coldCache

def acceptingRpc : PostRpc :=
  { blockhash := true, signature := some ['1'], account := none }

/-- With a limit of ten bytes, the report is cut off and the update is lost. -/
theorem cut_report_not_posted :
    ¬PostsFaithfully { reportingRuntime true with logMessagesBytesLimit := some 10 } exampleBank
      sonicLoader sonicTx sonicLoaded noPrograms none true acceptingRpc true := by
  intro hfaithful
  have hdue : Due { reportingRuntime true with logMessagesBytesLimit := some 10 } exampleBank
      sonicLoader sonicTx sonicLoaded noPrograms true
      { programId := sonicProgramKey, account := nftKey, value := 7 } := by
    refine ⟨by unfold Succeeds; decide, rfl, by decide, by decide, by decide, ?_⟩
    exact ⟨_, mem_singleton_self _, rfl, _, rfl, rfl, rfl⟩
  obtain ⟨signature, hsent⟩ := (hfaithful _).mpr hdue
  have hstopped : (Runtime.executeLoadedTransaction
      { reportingRuntime true with logMessagesBytesLimit := some 10 } exampleBank sonicLoader
      sonicTx sonicLoaded none true noPrograms acceptingRpc).2.posted = .stopped .nothing := by
    decide
  exact nomatch hstopped.symm.trans hsent

/-- A call without accounts and a number of 64 bits or more panic. -/
theorem posts_panics :
    ¬Runtime.PostsWithoutPanic (reportingRuntime true) sonicLoader
        { sonicTx with message :=
          { sonicTx.message with
            instructions := [{ programIdIndex := 2, accounts := [], data := [] }]
            programs := by decide } } none ∧
      ¬Runtime.PostsWithoutPanic (reportingRuntime true) sonicLoader sonicTx
        (some [{ text := newValueLine (2 ^ 64), origin := none }]) :=
  ⟨fun h => h acceptingRpc rfl (by decide), fun h => h acceptingRpc rfl (by decide)⟩

end Hypergrid
