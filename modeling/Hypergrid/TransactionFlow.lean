import Hypergrid.CallTree
import Hypergrid.LockTable
import Hypergrid.Posting

/-!
# Transactions from their locks to their execution

What `lock_accounts`, `load_accounts`, `execute_loaded_transaction` and `unlock_accounts` do with
the transactions of a batch.

* `Loads` : the invariant of the loop over the keys of a message.
* `executeLoadedTransaction_conserves` : the accounts have what was found, less fee and rent.
* `remote_readonly` : no instruction at any depth writes a remote account that was loaded.
-/

namespace Hypergrid
open List ReadM
variable {c : LoadArgs} {view : AccountRequest → Option AccountSharedData}
variable {keys done : List (Pubkey × Nat)} {key : Pubkey} {i : Nat} {s s' : LoadState}
variable {account paid : AccountSharedData} {x : FoundAccount} {loaded : LoadedTransaction}

section Locks
open LockTable
variable {table table' : LockTable} {locks : AccountLocks} {st : LockState}

/-- The counts do not matter for who gets the locks. -/
theorem lockAccounts_agrees (h : Forgets table locks) (limit : Nat)
    (txs : List SanitizedTransaction) : ∃ table', table.lockAccounts limit txs =
        some (table', (AccountLocks.lockAccounts limit locks txs).2) ∧
      Forgets table' (AccountLocks.lockAccounts limit locks txs).1 := by
  induction txs generalizing table locks with
  | nil => exact ⟨table, rfl, h⟩
  | cons tx txs ih =>
    obtain ⟨table₁, hone, h₁⟩ := h.lockTransaction limit tx
    obtain ⟨table₂, hrest, h₂⟩ := ih h₁
    refine ⟨table₂, ?_, h₂⟩
    unfold LockTable.lockAccounts at hrest ⊢
    rw [map_cons, lockAccountsInner, hone, Option.bind_eq_bind, Option.bind_some, hrest]
    rfl

theorem lockAccounts_agrees_sonicTx : ∃ table',
    LockTable.default.lockAccounts 64 [sonicTx, sonicTx] =
      some (table', [.ok (), .error .accountInUse]) := by
  have h : Forgets LockTable.default .empty :=
    ⟨rfl, fun _ => iff_of_false (Finset.notMem_empty _) Bool.false_ne_true⟩
  obtain ⟨table', hlock, _⟩ := lockAccounts_agrees h 64 [sonicTx, sonicTx]
  exact ⟨table', hlock⟩

/-- Unlocking a batch with the results of locking it gives the table back. -/
theorem unlockTransactions_lockAccounts {calls : List LockCall}
    (hrun : Machine.Run LockState.step .initial calls st) {limit : Nat}
    {txs : List SanitizedTransaction} {results : List (Except TransactionError Unit)}
    (h : st.table.lockAccounts limit txs = some (table', results)) :
    table'.unlockTransactions txs results = st.table := by
  have hs := LockState.run_consistent hrun
  obtain ⟨table₁, results₁, hlock, hlocked⟩ :=
    lockAccountsInner_consistent (txs.map (getAccountLocks limit)) hs
  cases hlock.symm.trans h
  rw [unlockTransactions_eq h]
  exact (unlockAccounts_consistent _ hlocked).2.unique hs

theorem unlockTransactions_sonicTx : ∃ table' results,
    LockTable.default.lockAccounts 64 [sonicTx, sonicTx] = some (table', results) ∧
      table'.unlockTransactions [sonicTx, sonicTx] results = .default := by
  obtain ⟨table', results, hlock, _⟩ := lockAccountsInner_consistent
    ([sonicTx, sonicTx].map (getAccountLocks 64)) default_consistent
  have hrun : Machine.Run LockState.step .initial [] .initial := .nil _
  exact ⟨table', results, hlock, unlockTransactions_lockAccounts hrun hlock⟩

end Locks

theorem collectFromExistingAccount_lamports (c : RentCollector) (setExemptRentEpochMax : Bool) :
    let r := c.collectFromExistingAccount key account setExemptRentEpochMax
    r.1.lamports + r.2 = account.lamports := by
  unfold RentCollector.collectFromExistingAccount
  split
  · split_ifs <;> rfl
  · rfl
  · split_ifs with hle
    · exact Nat.zero_add _
    · exact Nat.sub_add_cancel (Nat.le_of_not_le hle)

theorem validateFeePayer_lamports {rentCollector : RentCollector} {fee : Nat}
    (h : validateFeePayer rentCollector key account i fee = .ok paid) :
    paid.lamports + fee = account.lamports := by
  unfold validateFeePayer at h
  split_ifs at h
  split at h
  · cases h
  · dsimp only at h
    split_ifs at h with hfunds
    split at h <;> cases h
    exact Nat.sub_add_cancel (by omega)

/-- The lamports under a key before rent and fee; a program that stands for its account has none. -/
def LoadArgs.foundLamports (c : LoadArgs) (view : AccountRequest → Option AccountSharedData)
    (x : Pubkey × Nat) : Nat :=
  if x.1 = instructionsSysvarId then 0
  else
    match c.accountOverrides x.1 with
    | some account => account.lamports
    | none =>
      if (c.cachedProgram x.1 x.2).isSome then 0
      else ((view (.load x.1)).map AccountSharedData.lamports).getD 0

theorem foundStored_lamports : (c.foundStored key i account).account.lamports +
    (c.foundStored key i account).rent = account.lamports := by
  unfold LoadArgs.foundStored
  split_ifs
  · exact collectFromExistingAccount_lamports ..
  all_goals rfl

theorem findAccount_lamports (hkey : key ≠ instructionsSysvarId)
    (h : (c.findAccount key i).eval view = .ok x) :
    x.account.lamports + x.rent = c.foundLamports view (key, i) := by
  unfold LoadArgs.findAccount at h
  rw [LoadArgs.foundLamports, if_neg hkey]
  cases hover : c.accountOverrides key with
  | some account =>
    rw [hover] at h
    cases h
    rfl
  | none =>
    cases hprogram : c.cachedProgram key i with
    | some program =>
      simp only [hover, hprogram, accountSharedDataFromProgram] at h
      split at h <;> cases h
      rfl
    | none =>
      simp only [hover, hprogram, getAccountWithFixedRoot, eval_bind, eval_ask] at h
      dsimp only
      cases hview : view (.load key) <;> rw [hview] at h <;> cases h
      · rfl
      · exact foundStored_lamports

/-- When some keys are loaded, the lamports of the accounts, with the rent and the fee that were
taken, are those that were found. -/
structure Loads (c : LoadArgs) (view : AccountRequest → Option AccountSharedData)
    (done : List (Pubkey × Nat)) (s : LoadState) : Prop where
  keys : s.accounts.map Prod.fst = done.map Prod.fst
  sysvar : ∀ x ∈ s.accounts, x.1 = instructionsSysvarId → x.2.remote = false
  lamports : (s.accounts.map (fun x => x.2.lamports)).sum + s.txRent +
    (if s.validatedFeePayer then c.fee else 0) = (done.map (c.foundLamports view)).sum

theorem Loads.concat (h : Loads c view done s)
    (haccounts : s'.accounts = s.accounts ++ [(key, account)])
    (hlocal : key = instructionsSysvarId → account.remote = false)
    (hlamports : account.lamports + s'.txRent + (if s'.validatedFeePayer then c.fee else 0) =
      s.txRent + (if s.validatedFeePayer then c.fee else 0) + c.foundLamports view (key, i)) :
    Loads c view (done ++ [(key, i)]) s' := by
  refine ⟨by simp [haccounts, h.keys], fun x hx hkey => ?_, ?_⟩
  · rw [haccounts, mem_append, mem_singleton] at hx
    rcases hx with hx | rfl
    · exact h.sysvar x hx hkey
    · exact hlocal hkey
  · have hsum := h.lamports
    simp only [haccounts, map_append, sum_append, map_cons, map_nil, sum_singleton]
    omega

theorem Loads.addAccount (h : Loads c view done s) (hkey : key ≠ instructionsSysvarId)
    (hfind : (c.findAccount key i).eval view = .ok x) (hadd : c.addAccount s key i x = .ok s') :
    Loads c view (done ++ [(key, i)]) s' := by
  have hfound := findAccount_lamports hkey hfind
  obtain ⟨account, hpaid, haccounts, hpayer, hrent⟩ := addAccount_ok hadd
  refine h.concat haccounts (fun hkey' => absurd hkey' hkey) ?_
  rw [hrent, hpayer, ← hfound]
  unfold LoadArgs.chargeFee at hpaid
  split_ifs at hpaid with hpays
  · have hfee := validateFeePayer_lamports hpaid
    simp_all
    omega
  · cases hpaid
    cases hv : s.validatedFeePayer <;> simp_all <;> omega

theorem Loads.loadKeys (hs : Loads c view done s)
    (h : (c.loadKeys keys s).eval view = .ok s') : Loads c view (done ++ keys) s' := by
  induction keys generalizing done s with
  | nil =>
    cases h
    rwa [append_nil]
  | cons x keys ih =>
    obtain ⟨key, i⟩ := x
    rw [LoadArgs.loadKeys] at h
    rw [append_cons]
    by_cases hkey : key = instructionsSysvarId
    · rw [if_pos hkey] at h
      refine ih ?_ h
      refine hs.concat rfl (fun _ => rfl) ?_
      rw [LoadArgs.foundLamports, if_pos hkey]
      exact congrArg (· + _) (Nat.zero_add _)
    · rw [if_neg hkey] at h
      obtain ⟨x, hfind, h⟩ := eval_bind_ok (fun _ => rfl) h
      dsimp only at h
      split at h
      · cases h
      · rename_i t hadd
        exact ih (hs.addAccount hkey hfind hadd) h

/-- The accounts are those of the keys, as the loop leaves them, and then loaders. -/
theorem exists_loads (h : c.loadTransactionAccounts.eval view = .ok loaded) :
    ∃ s, Loads c view c.message.accountKeys.zipIdx s ∧ s.validatedFeePayer = true ∧
      loaded.rent = s.txRent ∧ Appended view s.accounts loaded.accounts := by
  have hstart : Loads c view [] LoadState.start := ⟨rfl, fun _ hx => absurd hx not_mem_nil, rfl⟩
  unfold LoadArgs.loadTransactionAccounts at h
  split_ifs at h
  · cases h
  obtain ⟨s, hkeys, h⟩ := eval_bind_ok (fun _ => rfl) h
  dsimp only at h
  split_ifs at h with hpayer
  · cases h
  obtain ⟨r, hprograms, h⟩ := eval_bind_ok (fun _ => rfl) h
  cases h
  exact ⟨s, hstart.loadKeys hkeys, by simpa using hpayer, rfl, loadPrograms_appended hprograms⟩

/-- What `load_transaction_accounts` returns is loaded for the message, when its keys are
distinct, as locking asks, and the accounts db shows no remote instructions sysvar. -/
theorem CallContext.loadTransactionAccounts_loadedFor
    (hview : ∀ a, view (.load instructionsSysvarId) = some a → a.remote = false)
    (hnodup : c.message.accountKeys.Nodup)
    (hload : c.loadTransactionAccounts.eval view = .ok loaded) :
    LoadedFor c.message loaded.accounts := by
  obtain ⟨s, hs, _, _, deps, hdeps, happended⟩ := exists_loads hload
  refine ⟨⟨deps.map Prod.fst, ?_⟩, hnodup, fun x hx hkey => ?_⟩
  · rw [hdeps, map_append, hs.keys, zipIdx_map_fst]
  · rw [hdeps, mem_append] at hx
    rcases hx with hx | hx
    · exact hs.sysvar x hx hkey
    · exact hview x.2 (hkey ▸ happended x hx)

/-- The accounts of `sonicLoaded` and a loader. -/
def sonicDb : AccountsDb :=
  (AccountsDb.new { sonicProgramId := [] } ∅).storeCached 10 (sonicLoaded.accounts ++
    [(bpfLoaderId, AccountSharedData.create 1 [] nativeLoaderId true 0)])

theorem sonicDb_wellFormed : sonicDb.WellFormed :=
  (AccountsDb.WellFormed.new _ _ (by simp)).storeCached _ _

/-- The loader and the payer are local; the other accounts have migrated. -/
def migratedDb : AccountsDb :=
  ((AccountsDb.new { sonicProgramId := [] } ∅).storeCached 10
    [(.ofNat (2 ^ 255 + 1), AccountSharedData.create 5 [] systemProgramId false 0),
      (bpfLoaderId, AccountSharedData.create 1 [] nativeLoaderId true 0)]).withRemoteLoader
        sonicLoader

theorem migratedDb_wellFormed : migratedDb.WellFormed :=
  ((AccountsDb.WellFormed.new _ _ (by simp)).storeCached _ _).withRemoteLoader _

section Loaded
variable {db : AccountsDb} (hwf : db.WellFormed) {ancestors : Finset Slot}
include hwf

/-- A transaction of a batch is loaded as if it were alone, whatever the others leave in the
caches. -/
theorem loadAccounts_independent (platform : Platform) (bank : Bank)
    (accountOverrides : Pubkey → Option AccountSharedData) (programAccounts : ProgramAccountsMap)
    (loadedPrograms : LoadedProgramsForTxBatch)
    (txs : List (SanitizedTransaction × TransactionCheckResult)) :
    (db.runReads ancestors (bank.loadAccounts platform accountOverrides programAccounts
      loadedPrograms txs)).2 = txs.map (fun x => (db.runReads ancestors (bank.loadTransaction
        platform accountOverrides programAccounts loadedPrograms x.1 x.2)).2) := by
  have hread : ∀ {α : Type} (p : Reads α), (db.runReads ancestors p).2 =
      p.eval (fun r => db.seen ancestors r.key) := fun p => (db.runReads_spec hwf ancestors p).2.2
  simp only [hread]
  induction txs with
  | nil => rfl
  | cons x txs ih =>
    rw [Bank.loadAccounts, eval_bind, eval_bind, ih]
    rfl

omit hwf in
/-- The first of two transactions leaves the remote account in the dummy slot, and the second is
loaded as if it were alone. -/
theorem loadAccounts_independent_migratedDb :
    let alone := migratedDb.runReads {9, 10} (exampleBank.loadTransaction examplePlatform
      (fun _ => none) [] noPrograms sonicTx (.ok (), none))
    (alone.1.accountsCache.holds 0 nftKey).isSome = true ∧ alone.2.toOption.isSome = true ∧
    (migratedDb.runReads {9, 10} (exampleBank.loadAccounts examplePlatform (fun _ => none) []
      noPrograms [(sonicTx, .ok (), none), (sonicTx, .ok (), none)])).2 = [alone.2, alone.2] :=
  ⟨by decide, by decide, loadAccounts_independent migratedDb_wellFormed ..⟩

variable (hload : (db.runReads ancestors c.loadTransactionAccounts).2 = .ok loaded)
include hload

/-- When the loaded accounts run through a message, no instruction at any depth may write a remote
account, and a remote account is after the message what it was before it. -/
theorem CallContext.remote_readonly
    (hview : ∀ a, db.seen ancestors instructionsSysvarId = some a → a.remote = false)
    (hnodup : c.message.accountKeys.Nodup) (hfew : loaded.accounts.length ≤ 2 ^ 16)
    {ctx : InvokeContext} (hctx : ctx.accounts = loaded.accounts) (rent : Rent)
    (instructionStackCapacity instructionTraceCapacity : Nat) (isPrecompile : Pubkey → Bool)
    {calls : List (MessageCall × Nat)} (hshort : ∀ call ∈ calls, call.1.Short) :
    let after := (processMessage isPrecompile c.message calls
      (new ctx rent instructionStackCapacity instructionTraceCapacity)).1
    (∀ ic ∈ after.instructionTrace, ∀ account index x,
      ic.indexInTransaction account = some index → loaded.accounts[index]? = some x →
        x.2.remote = true → ic.isWritable account = false) ∧
    ∀ (index : Nat) (x : Pubkey × AccountSharedData), loaded.accounts[index]? = some x →
      x.2.remote = true → after.accounts[index]? = some x := by
  rw [(AccountsDb.runReads_spec hwf ancestors _).2.2] at hload
  have hloaded := loadTransactionAccounts_loadedFor hview hnodup hload
  rw [← hctx] at hloaded hfew ⊢
  exact processMessage_readonly rent _ _ isPrecompile hloaded hfew hshort

/-- A transaction that succeeds leaves in its accounts what was found there, less the fee and the
rent. -/
theorem executeLoadedTransaction_conserves (runtime : Runtime) (l : RemoteAccountLoader)
    {tx : SanitizedTransaction} (htx : tx.message = c.message)
    (durableNonceFee : Option (Option Nat)) (enableLogRecording : Bool)
    (programs : LoadedProgramsForTxBatch) (rpc : PostRpc) {details : ExecutionDetails}
    (hexecute : (runtime.executeLoadedTransaction c.bank l tx loaded durableNonceFee
      enableLogRecording programs rpc).2 = details) (hok : details.status = .ok ()) :
    ∃ sum, transactionAccountsLamportsSum details.accounts c.message = some sum ∧
      sum + loaded.rent + c.fee = (c.message.accountKeys.zipIdx.map
        (c.foundLamports (fun r => db.seen ancestors r.key))).sum := by
  rw [(AccountsDb.runReads_spec hwf ancestors _).2.2] at hload
  obtain ⟨s, hs, hpayer, hrent, deps, hdeps, _⟩ := exists_loads hload
  have hlength := congrArg length hs.keys
  rw [length_map, length_map, length_zipIdx] at hlength
  have hbefore : transactionAccountsLamportsSum loaded.accounts c.message =
      some (s.accounts.map (fun x => x.2.lamports)).sum := by
    rw [transactionAccountsLamportsSum, hdeps, ← hlength, if_pos (by simp), take_left']
    rfl
  -- The sums before and after are compared when all instructions have succeeded.
  have hafter : transactionAccountsLamportsSum details.accounts c.message =
      some (s.accounts.map (fun x => x.2.lamports)).sum := by
    subst hexecute
    simp only [Runtime.executeLoadedTransaction, Runtime.runMessage, htx] at hok ⊢
    generalize runtime.processMessage _ _ _ _ = r at hok ⊢
    generalize r.2.bind _ = verified at hok
    cases verified with
    | error e => cases hok
    | ok u =>
      simp only [Except.bind] at hok
      split_ifs at hok with hsum
      rw [hsum, hbefore]
      rfl
  refine ⟨_, hafter, ?_⟩
  have hsum := hs.lamports
  rwa [hpayer, if_pos rfl, ← hrent] at hsum

end Loaded

def sonicArgs : LoadArgs where
  platform := examplePlatform
  bank := exampleBank
  message := sonicTx.message
  fee := 2
  accountOverrides := fun _ => none
  programAccounts := []
  loadedPrograms := noPrograms

/-! A program with a remote account that the message marks as writable. -/

def callerKey : Pubkey := .ofNat (2 ^ 255 + 21)

def remoteDataKey : Pubkey := .ofNat (2 ^ 255 + 22)

def callArgs : LoadArgs :=
  { sonicArgs with
    message :=
      { header :=
          { numRequiredSignatures := 1
            numReadonlySignedAccounts := 0
            numReadonlyUnsignedAccounts := 1 }
        staticAccountKeys := [.ofNat (2 ^ 255 + 1), remoteDataKey, callerKey]
        loadedAddresses := { writable := [], readonly := [] }
        recentBlockhash := ⟨0⟩
        instructions := [{ programIdIndex := 2, accounts := [1, 2], data := [] }]
        areas := by decide
        payer := Nat.one_pos
        programs := by decide } }

def callDb : AccountsDb :=
  sonicDb.storeCached 10
    [(remoteDataKey, RemoteAccountLoader.remoteAccount
        { lamports := 1, data := [], owner := callerKey, executable := false, rentEpoch := 0 }),
      (callerKey, AccountSharedData.create 1 [] bpfLoaderId true 0)]

def callRead : LoadedTransaction :=
  (callDb.runReads {9, 10} callArgs.loadTransactionAccounts).2.toOption.get (by decide)

def callInput : InvokeContext where
  accounts := callRead.accounts
  logMessages := []
  programsModifiedByTx := noPrograms
  computeMeter := 0

/-- The program tries a setter, calls itself with a write it may not grant, and then calls
itself with the account as readonly. -/
def callCode : Code :=
  .modify (.instructionAccount 0) (.setLamports 9)
    (.invoke { accounts := [{ pubkey := remoteDataKey, isSigner := false, isWritable := true }]
               data := [], programId := callerKey } [] .done
      (.invoke { accounts := [{ pubkey := remoteDataKey, isSigner := false, isWritable := false }]
                 data := [], programId := callerKey } []
        (.modify (.instructionAccount 0) (.checkedAddLamports 1) .done) .done))

def messageCall : CallContext.MessageCall where
  instruction := { programIdIndex := 2, accounts := [1, 2], data := [] }
  programIndices := [2]
  code := callCode
  result := .ok ()

def callOutput : CallContext :=
  (CallContext.processMessage (fun _ => false) callArgs.message [(messageCall, 0)]
    (.new callInput { minimumBalance := fun _ => 0, dueAmount := fun _ _ => 0 } 5 64)).1

/-- The message marks the account as writable, both calls of the program run, and neither may
write it. -/
theorem CallContext.remote_readonly_callOutput :
    callArgs.message.isWritable 1 = true ∧ callOutput.instructionTrace.length = 2 ∧
      (∀ ic ∈ callOutput.instructionTrace,
        ic.isWritable (.instructionAccount 0) = false) ∧
      callOutput.accounts[1]? = callRead.accounts[1]? := by
  have hload : (callDb.runReads {9, 10} callArgs.loadTransactionAccounts).2 = .ok callRead := by
    decide
  have hshort : ∀ call ∈ [(messageCall, 0)], call.1.Short :=
    forall_mem_singleton.mpr ⟨by decide, by decide, trivial, by decide, trivial, trivial⟩
  have hremote : ∃ x, callRead.accounts[1]? = some x ∧ x.2.remote = true :=
    ⟨_, rfl, by decide⟩
  obtain ⟨x, hx, hremote⟩ := hremote
  obtain ⟨hreadonly, hsame⟩ := remote_readonly (sonicDb_wellFormed.storeCached _ _) hload
    (by decide) (by decide) (by decide) (show callInput.accounts = callRead.accounts from rfl)
    { minimumBalance := fun _ => 0, dueAmount := fun _ _ => 0 } 5 64 (fun _ => false) hshort
  refine ⟨by decide, by decide, fun ic hic => ?_, ?_⟩
  · have hindex : ∀ ic ∈ callOutput.instructionTrace,
        ic.indexInTransaction (.instructionAccount 0) = some 1 := by decide
    exact hreadonly ic hic _ 1 x (hindex ic hic) hx hremote
  · exact (hsame 1 x hx hremote).trans hx.symm

def sonicRead : LoadedTransaction :=
  (sonicDb.runReads {9, 10} sonicArgs.loadTransactionAccounts).2.toOption.get (by decide)

/-- Of seven lamports two are paid as the fee. -/
theorem executeLoadedTransaction_conserves_sonicTx : ∃ sum,
    transactionAccountsLamportsSum ((reportingRuntime true).executeLoadedTransaction exampleBank
      sonicLoader sonicTx sonicRead none false noPrograms acceptingRpc).2.accounts
      sonicTx.message = some sum ∧ sum + sonicRead.rent + 2 = 7 := by
  have hload : (sonicDb.runReads {9, 10} sonicArgs.loadTransactionAccounts).2 = .ok sonicRead := by
    decide
  obtain ⟨sum, hsum, htotal⟩ := executeLoadedTransaction_conserves sonicDb_wellFormed hload
    (reportingRuntime true) sonicLoader rfl none false noPrograms acceptingRpc rfl (by decide)
  exact ⟨sum, hsum, htotal.trans (by decide)⟩

end Hypergrid
