import Hypergrid.CheckRemote
import Hypergrid.Replenish

/-!
# The pass before a batch is loaded

The model of `filter_executable_program_accounts` of `runtime/src/bank.rs`: for every
transaction that passed its checks, the migrate and deactivate instructions are carried out
and the program accounts among its keys are recorded.  The programs that were recorded are
then loaded into the program cache.

* `filter_spec` : the pass runs the operations of the transactions, keeps the index and the
  storages, and records keys that the bank sees as program accounts at that moment.
* `seen_of_recorded` : a recorded key is still there at the end of the pass exactly when it
  is stored locally, or its last write in the pass is no removal.
* `noMissingProgram_iff` : when loading the programs of a batch cannot crash.
-/

namespace Hypergrid
open List Option
open AccountsDb Bank WriteLog

/-- A transaction of a batch, with the result of its locks and the answers of the RPC client
to its migrate instructions and to its post. -/
structure BatchEntry where
  tx : SanitizedTransaction
  lockResult : Except TransactionError Unit
  rpc : RpcAnswers
  post : PostRpc

/-- A transaction of a batch after its checks. -/
structure CheckedEntry where
  tx : SanitizedTransaction
  rpc : RpcAnswers
  check : TransactionCheckResult

namespace Bank

variable (platform : Platform) (bank : Bank)

def checkBatch (statusCache : StatusCache) (maxAge : Nat) (db : AccountsDb)
    (batch : List BatchEntry) : AccountsDb × List CheckedEntry :=
  let r := db.runReads bank.ancestors
    (bank.checkTransactions platform statusCache maxAge
      (batch.map (fun b => (b.tx, b.lockResult))))
  (r.1, List.zipWith (fun b check => { tx := b.tx, rpc := b.rpc, check }) batch r.2)

/-- One key of a transaction in `filter_executable_program_accounts`. -/
def recordKey (s : AccountsDb × ProgramAccountsMap) (key : Pubkey) :
    AccountsDb × ProgramAccountsMap :=
  if s.2.any (fun x => x.1 == key) then
    (s.1, s.2.map (fun x =>
      if x.1 = key then (x.1, x.2.1, saturatingAdd x.2.2 1) else x))
  else
    let r := s.1.runReads bank.ancestors (accountMatchesOwners key programOwners)
    match r.2.bind (fun index => programOwners[index]?) with
    | some owner => (r.1, s.2 ++ [(key, owner, 1)])
    | none => (r.1, s.2)

/-- One transaction of `filter_executable_program_accounts`. -/
def filterTransaction (s : AccountsDb × ProgramAccountsMap) (x : CheckedEntry) :
    (AccountsDb × ProgramAccountsMap) × TransactionCheckResult :=
  match x.check with
  | (.ok (), nonce) =>
    if (bank.lamportsPerSignature x.tx nonce).isSome then
      let db := s.1.withAccountsCache (s.1.accountsCache.checkRemoteAccounts x.rpc x.tx)
      (x.tx.message.accountKeys.foldl bank.recordKey (db, s.2), x.check)
    else (s, (.error .blockhashNotFound, none))
  | check => (s, check)

def filterExecutableProgramAccounts :
    AccountsDb × ProgramAccountsMap → List CheckedEntry →
      (AccountsDb × ProgramAccountsMap) × List TransactionCheckResult
  | s, [] => (s, [])
  | s, x :: xs =>
    let r := bank.filterTransaction s x
    let rest := filterExecutableProgramAccounts r.1 xs
    (rest.1, r.2 :: rest.2)

/-- `program_accounts_map` with the builtin programs. -/
def withBuiltins (map : ProgramAccountsMap) : ProgramAccountsMap :=
  bank.builtinPrograms.foldl
    (fun map key => map.filter (fun x => x.1 ≠ key) ++ [(key, nativeLoaderId, 0)]) map

def passes (x : CheckedEntry) : Bool :=
  match x.check with
  | (.ok (), nonce) => (bank.lamportsPerSignature x.tx nonce).isSome
  | _ => false

/-- The operations of the pass on the remote loader. -/
def prepassOps (xs : List CheckedEntry) : List RemoteOp :=
  (xs.filter bank.passes).flatMap (fun x => remoteOps x.rpc x.tx)

end Bank

/-- What the pass does to the database: it runs operations on the loader and caches more
accounts. -/
structure Prepassed (db db' : AccountsDb) (ops : List RemoteOp) : Prop where
  index : db'.accountsIndex = db.accountsIndex
  storage : db'.storage = db.storage
  loader : db'.remoteLoader = ops.foldl RemoteOp.apply db.remoteLoader
  kept : ∀ slot k a, db.accountsCache.holds slot k = some a →
    db'.accountsCache.holds slot k = some a

section Prepassed
variable {db db' db'' : AccountsDb} {ops ops' : List RemoteOp}

theorem Prepassed.trans (h : Prepassed db db' ops) (h' : Prepassed db' db'' ops') :
    Prepassed db db'' (ops ++ ops') where
  index := h'.index.trans h.index
  storage := h'.storage.trans h.storage
  loader := by rw [h'.loader, h.loader, foldl_append]
  kept := fun slot k a ha => h'.kept slot k a (h.kept slot k a ha)

theorem AccountsDb.CachedMore.prepassed (h : AccountsDb.CachedMore db db') : Prepassed db db' [] :=
  ⟨h.index, h.storage, h.loader, h.kept⟩

theorem prepassed_checkRemoteAccounts (hwf : db.WellFormed) (rpc : RpcAnswers)
    (tx : SanitizedTransaction) :
    let db' := db.withAccountsCache (db.accountsCache.checkRemoteAccounts rpc tx)
    db'.WellFormed ∧ Prepassed db db' (remoteOps rpc tx) := by
  rw [checkRemoteAccounts_eq]
  exact ⟨hwf.withRemoteLoader _, rfl, rfl, rfl, fun _ _ _ h => h⟩

theorem Prepassed.seen_of_indexed (h : Prepassed db db' ops) (hwf : db.WellFormed)
    {ancestors : Finset Slot} {k : Pubkey}
    (hindex : (db.accountsIndex.get k ancestors none).isSome = true) :
    db'.seen ancestors k = db.seen ancestors k := by
  obtain ⟨e, hget⟩ := isSome_iff_exists.mp hindex
  obtain ⟨a, ha⟩ := isSome_iff_exists.mp
    (hwf.resolves k _ (AccountsIndex.get_eq_some hget).1)
  have hvisible : db'.visible ancestors k = db.visible ancestors k := by
    unfold visible
    rw [h.index, hget]
    dsimp only at ha ⊢
    rw [ha, resolve_mono h.storage h.kept ha]
  rw [seen, hvisible, seen]

end Prepassed

variable (l : RemoteAccountLoader)

theorem opWrites_append (ops ops' : List RemoteOp) :
    opWrites l (ops ++ ops') = opWrites l ops ++ opWrites (ops.foldl RemoteOp.apply l) ops' := by
  induction ops generalizing l with
  | nil => rfl
  | cons op ops ih => simp [opWrites, ih]

theorem RemoteAccountLoader.hasAccount_iff (k : Pubkey) :
    l.hasAccount k = true ↔ l.enable = true ∧ ignoredAccount k = false ∧
      (l.accountCache k).isSome = true := by
  unfold hasAccount
  cases l.enable <;> cases ignoredAccount k <;> simp

theorem hasAccount_foldl_iff (ops : List RemoteOp) (k : Pubkey) :
    (ops.foldl RemoteOp.apply l).hasAccount k = true ↔
      l.enable = true ∧ RemoteAccountLoader.ignoredAccount k = false ∧
        ((lastWrite k (opWrites l ops)).getD (l.accountCache k)).isSome = true := by
  rw [foldl_apply_eq, RemoteAccountLoader.hasAccount_iff, ← applyWrites_apply]

theorem seen_of_not_indexed {db : AccountsDb} {ancestors : Finset Slot} {k : Pubkey}
    (hget : db.accountsIndex.get k ancestors none = none) :
    db.seen ancestors k =
      if 1 < ancestors.card then (db.remoteCopy k).filter (fun a => !a.isZeroLamport)
      else none := by
  rw [seen, visible, hget]
  split_ifs
  · cases db.remoteCopy k <;> rfl
  · rfl

/-- What is known of a key that the pass has recorded: `db` is the database before the pass,
`db'` the one after some operations of it. -/
def Recorded (ancestors : Finset Slot) (db db' : AccountsDb) (ops : List RemoteOp)
    (k : Pubkey) : Prop :=
  (db.accountsIndex.get k ancestors none).isSome = true ∧
      (db'.seen ancestors k).isSome = true ∨
    db.accountsIndex.get k ancestors none = none ∧ 1 < ancestors.card ∧
      (∃ a, db'.accountsCache.holds 0 k = some a ∧ a.isZeroLamport = false) ∧
      db.remoteLoader.enable = true ∧ RemoteAccountLoader.ignoredAccount k = false ∧
      ((db.remoteLoader.accountCache k).isSome = true ∨
        (lastWrite k (opWrites db.remoteLoader ops)).isSome = true)

section Recorded
variable {ancestors : Finset Slot} {db db' db'' : AccountsDb} {ops ops' : List RemoteOp}
  {k : Pubkey}

theorem Recorded.mono (h : Recorded ancestors db db' ops k) (hpass : Prepassed db db' ops)
    (hwf : db'.WellFormed) (h' : Prepassed db' db'' ops') :
    Recorded ancestors db db'' (ops ++ ops') k := by
  rcases h with ⟨hindex, hseen⟩ | ⟨hnone, hcard, ⟨a, ha, hz⟩, henable, hignored, hwritten⟩
  · refine .inl ⟨hindex, ?_⟩
    rwa [h'.seen_of_indexed hwf (by rwa [hpass.index])]
  · refine .inr ⟨hnone, hcard, ⟨a, h'.kept 0 k a ha, hz⟩, henable, hignored, ?_⟩
    rw [opWrites_append, lastWrite_append, isSome_or]
    rcases hwritten with hold | hlast
    · exact .inl hold
    · exact .inr (by simp [hlast])

theorem holds_answer_matchOwners (hwf : db.WellFormed)
    (hnone : db.accountsIndex.get k ancestors none = none) (hcard : 1 < ancestors.card)
    (hhas : db.remoteLoader.hasAccount k = true) :
    (db.answer ancestors (.matchOwners k)).1.accountsCache.holds 0 k = db.remoteCopy k := by
  obtain ⟨hst, _⟩ :=
    find_eq_visible { ancestors, pubkey := k, loadHint := .unspecified } db
      hwf.toCoherent
  have hdb : (db.answer ancestors (.matchOwners k)).1 = db.afterFind ancestors k := by
    unfold answer
    dsimp only
    split <;> simp_all
  rw [hdb]
  simp [afterFind, hnone, hcard, hhas, withAccountsCache_accountsCache, AccountsCache.holds_load,
    AccountsCache.load_snd, remoteCopy]

theorem recorded_of_seen (hpass : Prepassed db db' ops) (hwf : db'.WellFormed)
    (hseen : (db'.seen ancestors k).isSome = true) :
    Recorded ancestors db (db'.answer ancestors (.matchOwners k)).1 ops k := by
  obtain ⟨hwf', hmore, _⟩ := answer_spec hwf ancestors (.matchOwners k)
  have hseen' : ((db'.answer ancestors (.matchOwners k)).1.seen ancestors k).isSome = true := by
    rwa [hmore.seen hwf]
  cases hget : db.accountsIndex.get k ancestors none with
  | some e => exact .inl ⟨by rw [hget]; rfl, hseen'⟩
  | none =>
    have hget' : db'.accountsIndex.get k ancestors none = none := by rw [hpass.index, hget]
    rw [seen_of_not_indexed hget'] at hseen
    split_ifs at hseen with hcard
    · have hhas : db'.remoteLoader.hasAccount k = true := by
        by_contra hnot
        simp [remoteCopy, hnot] at hseen
      obtain ⟨a, hcopy⟩ := isSome_iff_exists.mp hseen
      rw [filter_eq_some_iff] at hcopy
      have hholds := holds_answer_matchOwners hwf hget' hcard hhas
      rw [hcopy.1] at hholds
      rw [hpass.loader] at hhas
      obtain ⟨henable, hignored, hlast⟩ := (hasAccount_foldl_iff _ _ _).mp hhas
      refine .inr ⟨hget, hcard, ⟨a, hholds, by simpa using hcopy.2⟩, henable, hignored, ?_⟩
      cases hw : lastWrite k (opWrites db.remoteLoader ops) with
      | none =>
        rw [hw] at hlast
        exact .inl hlast
      | some v => exact .inr rfl
    · simp at hseen

theorem seen_of_recorded (h : Recorded ancestors db db' ops k) (hpass : Prepassed db db' ops) :
    (db'.seen ancestors k).isSome = true ↔ (db.accountsIndex.get k ancestors none).isSome = true ∨
        lastWrite k (opWrites db.remoteLoader ops) ≠ some none := by
  rcases h with ⟨hindex, hseen⟩ | ⟨hnone, hcard, ⟨a, ha, hz⟩, henable, hignored, hwritten⟩
  · exact iff_of_true hseen (.inl hindex)
  · have hget' : db'.accountsIndex.get k ancestors none = none := by rw [hpass.index, hnone]
    have hhas : db'.remoteLoader.hasAccount k = true ↔
        lastWrite k (opWrites db.remoteLoader ops) ≠ some none := by
      rw [hpass.loader, hasAccount_foldl_iff]
      cases hw : lastWrite k (opWrites db.remoteLoader ops) with
      | none => simpa [henable, hignored, hw] using hwritten
      | some v => cases v <;> simp [henable, hignored]
    rw [seen_of_not_indexed hget', if_pos hcard, hnone, ← hhas]
    cases hb : db'.remoteLoader.hasAccount k <;>
      simp [remoteCopy, hb, ha, hz]

end Recorded

section Filter
variable {bank : Bank} {db : AccountsDb} {ops : List RemoteOp}
variable {s : AccountsDb × ProgramAccountsMap}

/-- The state of the pass: a well-formed database reached by the operations so far, and
recorded keys. -/
structure PassState (bank : Bank) (db : AccountsDb) (ops : List RemoteOp)
    (s : AccountsDb × ProgramAccountsMap) : Prop where
  wellFormed : s.1.WellFormed
  prepassed : Prepassed db s.1 ops
  recorded : ∀ x ∈ s.2, Recorded bank.ancestors db s.1 ops x.1

/-- The answer of `account_matches_owners` names a loader only for an account that is seen. -/
theorem seen_of_matchOwners {s : AccountsDb} (hwf : s.WellFormed) {key owner : Pubkey}
    (h : (s.runReads bank.ancestors (accountMatchesOwners key programOwners)).2.bind
      (fun index => programOwners[index]?) = some owner) :
    (s.seen bank.ancestors key).isSome = true := by
  rw [(runReads_spec hwf bank.ancestors _).2.2] at h
  cases hseen : s.seen bank.ancestors key with
  | some a => rfl
  | none =>
    simp [accountMatchesOwners, AccountRequest.key, hseen] at h

variable (h : PassState bank db ops s)
include h

theorem recordKey_state
    (key : Pubkey) : PassState bank db ops (bank.recordKey s key) := by
  obtain ⟨hwf', hmore, _⟩ := answer_spec h.wellFormed bank.ancestors
    (.matchOwners key)
  have hpass' : Prepassed db (s.1.answer bank.ancestors (.matchOwners key)).1 ops := by
    simpa using h.prepassed.trans hmore.prepassed
  have hkeep : ∀ x ∈ s.2, Recorded bank.ancestors db
      (s.1.answer bank.ancestors (.matchOwners key)).1 ops x.1 := by
    intro x hx
    simpa using (h.recorded x hx).mono h.prepassed h.wellFormed hmore.prepassed
  unfold recordKey
  split_ifs
  · refine ⟨h.wellFormed, h.prepassed, ?_⟩
    intro x hx
    obtain ⟨y, hy, rfl⟩ := mem_map.mp hx
    split_ifs <;> exact h.recorded y hy
  · dsimp only
    split
    · rename_i owner howner
      refine ⟨hwf', hpass', ?_⟩
      intro x hx
      rcases mem_append.mp hx with hx | hx
      · exact hkeep x hx
      · rw [mem_singleton.mp hx]
        exact recorded_of_seen h.prepassed h.wellFormed
          (seen_of_matchOwners h.wellFormed howner)
    · exact ⟨hwf', hpass', hkeep⟩

theorem recordKeys_state
    (keys : List Pubkey) : PassState bank db ops (keys.foldl bank.recordKey s) := by
  induction keys generalizing s with
  | nil => exact h
  | cons key keys ih => exact ih (recordKey_state h key)

theorem filterTransaction_state (x : CheckedEntry) :
    PassState bank db (ops ++ if bank.passes x then remoteOps x.rpc x.tx else [])
      (bank.filterTransaction s x).1 := by
  have hstay : PassState bank db (ops ++ []) s := by simpa using h
  unfold filterTransaction passes
  rcases x.check with ⟨_ | _, nonce⟩
  · exact hstay
  · dsimp only
    split_ifs
    · obtain ⟨hwf, hnext⟩ := prepassed_checkRemoteAccounts h.wellFormed x.rpc x.tx
      refine recordKeys_state ⟨hwf, h.prepassed.trans hnext, ?_⟩ _
      exact fun y hy => (h.recorded y hy).mono h.prepassed h.wellFormed hnext
    · exact hstay

theorem filter_spec (xs : List CheckedEntry) :
    PassState bank db (ops ++ bank.prepassOps xs)
      (bank.filterExecutableProgramAccounts s xs).1 := by
  induction xs generalizing s ops with
  | nil => simpa [prepassOps, filterExecutableProgramAccounts] using h
  | cons x xs ih =>
    have hstep := ih (filterTransaction_state h x)
    rw [append_assoc] at hstep
    have hops : bank.prepassOps (x :: xs) =
        (if bank.passes x then remoteOps x.rpc x.tx else []) ++ bank.prepassOps xs := by
      unfold prepassOps
      by_cases hx : bank.passes x = true <;> simp [hx]
    rw [hops]
    exact hstep

end Filter

section Crash
variable {platform : Platform} {bank : Bank}

/-- The database and the recorded programs after the checks and the pass. -/
def Bank.recordedPrograms (platform : Platform) (bank : Bank) (statusCache : StatusCache)
    (maxAge : Nat) (db : AccountsDb) (batch : List BatchEntry) :
    AccountsDb × ProgramAccountsMap :=
  let c := bank.checkBatch platform statusCache maxAge db batch
  (bank.filterExecutableProgramAccounts (c.1, []) c.2).1

theorem exists_mem_withBuiltins {map : ProgramAccountsMap} {k : Pubkey}
    (h : ∃ x ∈ map, x.1 = k) : ∃ x ∈ bank.withBuiltins map, x.1 = k := by
  unfold withBuiltins
  induction bank.builtinPrograms generalizing map with
  | nil => exact h
  | cons key keys ih =>
    refine ih ?_
    obtain ⟨x, hx, rfl⟩ := h
    by_cases hkey : x.1 = key
    · exact ⟨(key, nativeLoaderId, 0), by simp, hkey.symm⟩
    · exact ⟨x, by simp [hx, hkey], rfl⟩

theorem recordedPrograms_state {statusCache : StatusCache} {maxAge : Nat} {db : AccountsDb}
    (hwf : db.WellFormed) (batch : List BatchEntry) :
    PassState bank db
      (bank.prepassOps (bank.checkBatch platform statusCache maxAge db batch).2)
      (bank.recordedPrograms platform statusCache maxAge db batch) := by
  obtain ⟨hwf', hmore, _⟩ := runReads_spec hwf bank.ancestors
    (bank.checkTransactions platform statusCache maxAge
      (batch.map (fun b => (b.tx, b.lockResult))))
  exact @filter_spec bank db [] _ ⟨hwf', hmore.prepassed, by simp⟩ _

theorem matchCriteria_of_none {view : Pubkey → Option AccountSharedData} {k : Pubkey}
    (h : view k = none) :
    (bank.matchCriteria k).eval (fun r => view r.key) =
      if bank.checkProgramModificationSlot then .tombstone else .noCriteria := by
  unfold matchCriteria
  split_ifs
  · rw [ReadM.eval_bind, programModificationSlot_eval]
    simp [programState, h]
  · rfl

/-- Loading the programs of a batch, in whatever order the map is iterated, does not crash
for want of an account, exactly when every recorded program has a local version, or is not
removed by the last write to it in the pass, or is found in the program cache. -/
theorem noMissingProgram_iff
    (db : AccountsDb)
    (hwf : db.WellFormed)
    (platform : Platform)
    (bank : Bank)
    (statusCache : StatusCache)
    (maxAge : Nat)
    (cache : LoadedPrograms)
    (hfree : ∀ k, (cache.entries k).cooperativeLoadingLock = none)
    (batch : List BatchEntry) :
    (∀ order : ProgramAccountsMap,
        order.Perm (bank.withBuiltins
          (bank.recordedPrograms platform statusCache maxAge db batch).2) →
        ∀ (threadId fuel : Nat) (limit : Bool),
          ∀ x ∈ (bank.recordedPrograms platform statusCache maxAge db batch).2,
            ((bank.recordedPrograms platform statusCache maxAge db batch).1.runReads
              bank.ancestors (bank.replenishProgramCache platform threadId limit fuel cache
                order)).2.2 ≠ .nonexistentAccount x.1) ↔
      ∀ x ∈ (bank.recordedPrograms platform statusCache maxAge db batch).2,
        (db.accountsIndex.get x.1 bank.ancestors none).isSome = true ∨
          lastWrite x.1 (opWrites db.remoteLoader (bank.prepassOps
            (bank.checkBatch platform statusCache maxAge db batch).2)) ≠ some none ∨
          bank.Found cache
            { key := x.1
              criteria :=
                if bank.checkProgramModificationSlot then .tombstone else .noCriteria
              count := 0 } := by
  have hstate := @recordedPrograms_state platform bank statusCache maxAge db hwf batch
  generalize bank.recordedPrograms platform statusCache maxAge db batch = r at hstate ⊢
  generalize bank.prepassOps (bank.checkBatch platform statusCache maxAge db batch).2 = ops
    at hstate ⊢
  simp only [(runReads_spec hstate.wellFormed bank.ancestors _).2.2, replenishProgramCache_eval]
  have hseen : ∀ x ∈ r.2, (r.1.seen bank.ancestors x.1).isSome = true ↔
      (db.accountsIndex.get x.1 bank.ancestors none).isSome = true ∨
        lastWrite x.1 (opWrites db.remoteLoader ops) ≠ some none :=
    fun x hx => seen_of_recorded (hstate.recorded x hx) hstate.prepassed
  have hfree' : ∀ xs, cache.Free xs := fun _ y _ => hfree y.key
  constructor
  · intro hsafe x hx
    by_contra hbad
    rw [not_or, not_or] at hbad
    have hnone : r.1.seen bank.ancestors x.1 = none := by
      have hnot : ¬(r.1.seen bank.ancestors x.1).isSome = true := by
        rw [hseen x hx]
        tauto
      simpa using hnot
    -- iterate the map with the missing key in front
    obtain ⟨y, hy, hkey⟩ := @exists_mem_withBuiltins bank r.2 x.1 ⟨x, hx, rfl⟩
    refine hsafe (y :: (bank.withBuiltins r.2).erase y) (perm_cons_erase hy).symm 0 1
      false x hx ?_
    have hmiss : (cache.lookup bank.slot (bank.environments cache)
        (bank.search (r.1.seen bank.ancestors) y)).isNone = true := by
      rw [isNone_iff_eq_none, ← not_isSome_iff_eq_none]
      refine fun hfound => hbad.2.2 ?_
      unfold search at hfound
      rw [hkey, matchCriteria_of_none hnone] at hfound
      exact hfound
    have hcons : ∃ rest, cache.missing
        (LoadedProgramsForTxBatch.newFromCache bank.slot bank.epoch cache)
        ((y :: (bank.withBuiltins r.2).erase y).map
          (bank.search (r.1.seen bank.ancestors))) =
            bank.search (r.1.seen bank.ancestors) y :: rest :=
      ⟨_, by rw [map_cons, LoadedPrograms.missing, filter_cons]; exact if_pos hmiss⟩
    obtain ⟨rest, hcons⟩ := hcons
    have hload : bank.load platform (r.1.seen bank.ancestors) cache
        (bank.search (r.1.seen bank.ancestors) y).key = .nonexistent := by
      refine loadProgram_nonexistent_iff.mpr ?_
      rw [show (bank.search (r.1.seen bank.ancestors) y).key = x.1 from hkey]
      exact hnone
    rw [run_of_cons (hfree' _) hcons, hload, ← hkey]
    rfl
  · intro hgood order _ threadId fuel limit x hx hcrash
    obtain ⟨y, hy, hkey, hnot, hload⟩ := run_nonexistent (hfree' _) serves_newFromCache hcrash
    have hnone : r.1.seen bank.ancestors x.1 = none := loadProgram_nonexistent_iff.mp hload
    rcases or_assoc.mpr (hgood x hx) with hthere | hfound
    · rw [← hseen x hx, hnone] at hthere
      cases hthere
    · obtain ⟨z, _, rfl⟩ := mem_map.mp hy
      refine hnot ?_
      have hz : z.1 = x.1 := hkey
      unfold search
      rw [hz, matchCriteria_of_none hnone]
      exact hfound

end Crash

/-- A transaction that names a program without calling it. -/
def namingTx : SanitizedTransaction :=
  { message :=
      { header :=
          { numRequiredSignatures := 1
            numReadonlySignedAccounts := 0
            numReadonlyUnsignedAccounts := 1 }
        staticAccountKeys := [.ofNat (2 ^ 255 + 1), programKey]
        loadedAddresses := { writable := [], readonly := [] }
        recentBlockhash := ⟨0⟩
        instructions := []
        areas := by decide
        payer := Nat.one_pos
        programs := by simp }
    messageHash := ⟨1⟩
    isSimpleVoteTx := false }

/-- A transaction that deactivates the program. -/
def deactivatingTx : SanitizedTransaction :=
  { message :=
      { header :=
          { numRequiredSignatures := 1
            numReadonlySignedAccounts := 0
            numReadonlyUnsignedAccounts := 2 }
        staticAccountKeys := [.ofNat (2 ^ 255 + 2), programKey, sonicAccountMigraterId]
        loadedAddresses := { writable := [], readonly := [] }
        recentBlockhash := ⟨0⟩
        instructions := [{ programIdIndex := 2, accounts := [1], data := [1, 0, 0, 0] }]
        areas := by decide
        payer := Nat.one_pos
        programs := by decide }
    messageHash := ⟨2⟩
    isSimpleVoteTx := false }

/-- A transaction that is locked, with an RPC client that answers nothing. -/
def lockedEntry (tx : SanitizedTransaction) : BatchEntry :=
  { tx
    lockResult := .ok ()
    rpc := fun _ _ => []
    post := { blockhash := false, signature := none, account := none } }

def noStatuses : StatusCache := { keyIndex := fun _ => 0, forks := fun _ _ => [], roots := ∅ }

set_option maxRecDepth 8000 in
/-- The program of loader v4 is recorded for the first transaction and removed for the
second one; then the loop looks for its account. -/
theorem deactivated_program_crashes :
    (AccountLocks.lockAccounts 128 AccountLocks.empty [namingTx, deactivatingTx]).2 =
        [.ok (), .ok ()] ∧
      (exampleBank.recordedPrograms examplePlatform noStatuses 150 remoteProgramDb
        [lockedEntry namingTx, lockedEntry deactivatingTx]).2 =
          [(programKey, loaderV4Id, 2)] ∧
      ((exampleBank.recordedPrograms examplePlatform noStatuses 150 remoteProgramDb
        [lockedEntry namingTx, lockedEntry deactivatingTx]).1.runReads exampleBank.ancestors
          (exampleBank.replenishProgramCache examplePlatform 0 false 1 coldCache
            [(programKey, loaderV4Id, 2)])).2.2 = .nonexistentAccount programKey := by
  refine ⟨by decide, by decide, rfl⟩

/-- The first transaction alone loads its program. -/
theorem noMissingProgram_namingTx :
    ((exampleBank.recordedPrograms examplePlatform noStatuses 150 remoteProgramDb
      [lockedEntry namingTx]).1.runReads exampleBank.ancestors
        (exampleBank.replenishProgramCache examplePlatform 0 false 2 coldCache
          (exampleBank.withBuiltins [(programKey, loaderV4Id, 1)]))).2.2 ≠
            .nonexistentAccount programKey := by
  have hrecorded : (exampleBank.recordedPrograms examplePlatform noStatuses 150
      remoteProgramDb [lockedEntry namingTx]).2 = [(programKey, loaderV4Id, 1)] := by decide
  have hsafe := (noMissingProgram_iff remoteProgramDb remoteProgramDb_wellFormed
    examplePlatform exampleBank noStatuses 150 coldCache (fun _ => rfl)
    [lockedEntry namingTx]).mpr ?_
  · rw [hrecorded] at hsafe
    exact hsafe _ (.refl _) 0 2 false _ mem_cons_self
  · intro x _
    refine .inr (.inl ?_)
    have hops : exampleBank.prepassOps (exampleBank.checkBatch examplePlatform noStatuses 150
        remoteProgramDb [lockedEntry namingTx]).2 = [] := rfl
    rw [hops]
    simp [opWrites, lastWrite]

end Hypergrid
