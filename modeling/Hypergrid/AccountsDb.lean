import Hypergrid.AccountsCache
import Hypergrid.AccountsIndex

/-!
# Loading and storing accounts

The model of the load and store paths of `accounts-db/src/accounts_db.rs`: the
index, the write cache, the storages of flushed slots and the read-only cache.

A load is a small machine, `LoadQuery.step`, because other threads may run between
its steps: the index read, the look into the read-only cache, the look into the
write cache, the fallback to the remote loader, and the second index read of
`retry_to_get_account_accessor`.  `doLoad` runs the machine without interruption, for
five steps.

`Coherent` is the agreement of the four parts, `WellFormed` what holds in addition
when no flush is running.  `doLoad_spec` and `WellFormed.doLoad` say that, in a
well-formed database, an uninterrupted load ends with what `visible` names and
never panics.
-/

namespace Hypergrid
open Option AccountsCache AccountsIndex StorageLocation

/-- The accounts of one append vec; an offset is a position in the list. -/
structure AccountStorageEntry where
  id : Nat
  accounts : List (Pubkey × AccountSharedData)

inductive LoadHint where
  | fixedMaxRoot
  | unspecified
deriving DecidableEq

inductive LoadedAccountAccessor where
  | stored (entry : Option (AccountStorageEntry × Nat))
  | cached (account : Option AccountSharedData)

/-- The panics of a load. -/
inductive LoadPanic where
  /-- `assert!(num_acceptable_failed_iterations <= 1)` -/
  | failedIterations
  /-- `assert!(new_storage_location.is_offset_equal(&storage_location))` -/
  | badIndexOffset
  /-- `assert!(!new_storage_location.is_cached())` -/
  | badIndexCached
  /-- `assert_eq!(load_hint, LoadHint::Unspecified)` -/
  | badIndexHint
  /-- `panic!("Bad index entry detected")` -/
  | badIndexEntry
  /-- `expect("must be some if clone_in_lock=true")` -/
  | noAccessorInLock
  /-- `check_and_get_loaded_account` on an accessor without an account -/
  | missingAccount
deriving DecidableEq

def absurdConsecutiveFailedIterations : Nat := 100

structure AccountsDb where
  accountsIndex : AccountsIndex
  accountsCache : AccountsCache
  storage : Slot → Option AccountStorageEntry
  readOnlyAccountsCache : Pubkey → Slot → Option AccountSharedData
  nextId : Nat

namespace AccountsDb

variable (db : AccountsDb) (slot : Slot)

/-- An empty database with the given alive roots. -/
def new (config : Config) (aliveRoots : Finset Slot) : AccountsDb :=
  { accountsIndex := { slotList := fun _ => [], aliveRoots }
    accountsCache :=
      { cache := ∅, totalSize := 0, remoteLoader := RemoteAccountLoader.new config }
    storage := fun _ => none
    readOnlyAccountsCache := fun _ _ => none
    nextId := 0 }

/-- The remote loader, which lives in the write cache. -/
abbrev remoteLoader (db : AccountsDb) : RemoteAccountLoader :=
  db.accountsCache.remoteLoader

def withAccountsCache (c : AccountsCache) : AccountsDb :=
  { db with accountsCache := c }

def withRemoteLoader (l : RemoteAccountLoader) : AccountsDb :=
  db.withAccountsCache { db.accountsCache with remoteLoader := l }

/-- `AccountStorage::get_account_storage_entry`, when no shrink is in progress. -/
def getAccountStorageEntry (storeId : Nat) : Option AccountStorageEntry :=
  (db.storage slot).bind (fun entry => if entry.id = storeId then some entry else none)

def getAccountAccessor (pubkey : Pubkey) :
    StorageLocation → AccountsDb × LoadedAccountAccessor
  | .cached =>
    let r := db.accountsCache.load slot pubkey
    (db.withAccountsCache r.1, .cached r.2)
  | .appendVec storeId offset =>
    (db, .stored ((db.getAccountStorageEntry slot storeId).map (fun e => (e, offset))))

def readIndexForAccessorOrLoadSlow (ancestors : Finset Slot)
    (pubkey : Pubkey) (cloneInLock : Bool) :
    AccountsDb × Option (Slot × StorageLocation × Option LoadedAccountAccessor) :=
  match db.accountsIndex.get pubkey ancestors none with
  | none =>
    -- the dummy slot of an account that only the remote loader has
    if decide (1 < ancestors.card) && db.accountsCache.hasAccountFromRemote pubkey then
      (db, some (0, .cached, none))
    else (db, none)
  | some (slot, info) =>
    if cloneInLock then
      let r := db.getAccountAccessor slot pubkey info.storageLocation
      (r.1, some (slot, info.storageLocation, some r.2))
    else (db, some (slot, info.storageLocation, none))

/-- What is written for an account: zero lamports make the default account. -/
def accountDefaultIfZeroLamport (a : AccountSharedData) : AccountSharedData :=
  if a.isZeroLamport then AccountSharedData.default else a

def storeReadOnly (pubkey : Pubkey) (slot : Slot) (a : AccountSharedData) : AccountsDb :=
  { db with
    readOnlyAccountsCache := fun k s =>
      if k = pubkey ∧ s = slot then some a else db.readOnlyAccountsCache k s }

/-- `read_only_accounts_cache.remove`; also the eviction of an entry. -/
def removeReadOnly (pubkey : Pubkey) (slot : Slot) : AccountsDb :=
  { db with
    readOnlyAccountsCache := fun k s =>
      if k = pubkey ∧ s = slot then none else db.readOnlyAccountsCache k s }

/-- One account of `store_cached`: the write cache, then the index. -/
def storeCachedOne (db : AccountsDb) (x : Pubkey × AccountSharedData) : AccountsDb :=
  let account := accountDefaultIfZeroLamport x.2
  let db := db.removeReadOnly x.1 slot
  { db with
    accountsCache := db.accountsCache.store slot x.1 account
    accountsIndex :=
      db.accountsIndex.upsert slot x.1 (AccountInfo.new .cached account.lamports) }

def storeCached (accounts : List (Pubkey × AccountSharedData)) : AccountsDb :=
  accounts.foldl (storeCachedOne slot) db

end AccountsDb

/-- The arguments of a load; `max_root` is `None` outside of tests. -/
structure LoadQuery where
  ancestors : Finset Slot
  pubkey : Pubkey
  loadHint : LoadHint

/-- Where a loaded account came from. -/
inductive AccountSource where
  | writeCache
  | readOnlyCache
  | storage
deriving DecidableEq

/-- The control state of one load. -/
inductive Reader where
  | start
  | indexed (slot : Slot) (location : StorageLocation)
  | access (slot : Slot) (location : StorageLocation) (failed : Nat)
  | remote (slot : Slot) (failed : Nat)
  | reread (slot : Slot) (location : StorageLocation) (failed : Nat)
  | found (account : AccountSharedData) (slot : Slot) (source : AccountSource)
  | missing
  | panicked (panic : LoadPanic)
deriving DecidableEq

namespace Reader

def isFinal : Reader → Bool
  | found _ _ _ => true
  | missing => true
  | panicked _ => true
  | _ => false

/-- `check_and_get_loaded_account` and `take_account`. -/
def ofAccessor (slot : Slot) : LoadedAccountAccessor → Reader
  | .cached (some account) => found account slot .writeCache
  | .stored (some (entry, offset)) =>
    match entry.accounts[offset]? with
    | some x => found (AccountSharedData.fromStored x.2) slot .storage
    | none => panicked .missingAccount
  | _ => panicked .missingAccount

end Reader

namespace LoadQuery

def step (q : LoadQuery) (db : AccountsDb) : Reader → AccountsDb × Reader
  | .start =>
    match (db.readIndexForAccessorOrLoadSlow q.ancestors q.pubkey false).2 with
    | none => (db, .missing)
    | some (slot, location, _) => (db, .indexed slot location)
  | .indexed slot location =>
    if location.isCached then (db, .access slot location 0)
    else
      match db.readOnlyAccountsCache q.pubkey slot with
      | some account => (db, .found account slot .readOnlyCache)
      | none => (db, .access slot location 0)
  -- `get_account_accessor`, whose cached case is cut at the remote fallback
  | .access slot .cached failed =>
    match db.accountsCache.holds slot q.pubkey with
    | some account => (db, .found account slot .writeCache)
    | none => (db, .remote slot failed)
  | .access slot (.appendVec storeId offset) failed =>
    match db.getAccountStorageEntry slot storeId with
    | some entry => (db, Reader.ofAccessor slot (.stored (some (entry, offset))))
    | none =>
      match q.loadHint with
      | .fixedMaxRoot => (db, .reread slot (.appendVec storeId offset) failed)
      | .unspecified => (db, .reread slot (.appendVec storeId offset) (failed + 1))
  | .remote slot failed =>
    match db.remoteLoader.getAccount q.pubkey with
    | some account =>
      (db.withAccountsCache (db.accountsCache.store slot q.pubkey account),
        .found account slot .writeCache)
    | none =>
      match q.loadHint with
      | .fixedMaxRoot =>
        if failed + 1 ≤ 1 then (db, .reread slot .cached (failed + 1))
        else (db, .panicked .failedIterations)
      | .unspecified => (db, .reread slot .cached (failed + 1))
  | .reread slot location failed =>
    let fallbackToSlowPath := decide (absurdConsecutiveFailedIterations ≤ failed)
    match db.readIndexForAccessorOrLoadSlow q.ancestors q.pubkey fallbackToSlowPath with
    | (db, none) => (db, .missing)
    | (db, some (newSlot, newLocation, maybeAccessor)) =>
      if newSlot = slot ∧ newLocation.isStoreIdEqual location = true then
        if !newLocation.isOffsetEqual location then (db, .panicked .badIndexOffset)
        else if newLocation.isCached then (db, .panicked .badIndexCached)
        else if q.loadHint ≠ .unspecified then (db, .panicked .badIndexHint)
        else (db, .panicked .badIndexEntry)
      else if fallbackToSlowPath then
        match maybeAccessor with
        | some accessor => (db, Reader.ofAccessor newSlot accessor)
        | none => (db, .panicked .noAccessorInLock)
      else (db, .access newSlot newLocation failed)
  | reader => (db, reader)

def settle (q : LoadQuery) : Nat → AccountsDb → Reader → AccountsDb × Reader
  | 0, db, reader => (db, reader)
  | fuel + 1, db, reader =>
    let r := q.step db reader
    settle q fuel r.1 r.2

end LoadQuery

namespace AccountsDb

variable (db : AccountsDb) (ancestors : Finset Slot)

/-- The uninterrupted part of a load that finds the account. -/
def find (q : LoadQuery) : AccountsDb × Reader :=
  q.settle 5 db .start

/-- The result of `do_load`, once the load is over. -/
def loadResult : Reader → Option (Option (AccountSharedData × Slot))
  | .found account slot _ =>
    some (if account.isZeroLamport then none else some (account, slot))
  | .missing => some none
  | _ => none

/-- `do_load` without interruption. -/
def doLoad (q : LoadQuery) : AccountsDb × Except LoadPanic (Option (AccountSharedData × Slot)) :=
  match db.find q with
  | (db, .found account slot source) =>
    if account.isZeroLamport then (db, .ok none)
    else if source = .storage then
      (db.storeReadOnly q.pubkey slot account, .ok (some (account, slot)))
    else (db, .ok (some (account, slot)))
  | (db, .panicked panic) => (db, .error panic)
  | (db, _) => (db, .ok none)

def resolve (slot : Slot) (k : Pubkey) :
    StorageLocation → Option AccountSharedData
  | .cached => db.accountsCache.holds slot k
  | .appendVec storeId offset =>
    (db.getAccountStorageEntry slot storeId).bind
      (fun e => e.accounts[offset]?.map (fun x => AccountSharedData.fromStored x.2))

/-- The copy that a load of a key without an index entry ends with. -/
def remoteCopy (k : Pubkey) : Option AccountSharedData :=
  if db.remoteLoader.hasAccount k then
    (db.accountsCache.holds 0 k).or (db.remoteLoader.getAccount k)
  else none

/-- The account, and its slot, that an uninterrupted load sees. -/
def visible (k : Pubkey) : Option (AccountSharedData × Slot) :=
  match db.accountsIndex.get k ancestors none with
  | some (slot, info) => (db.resolve slot k info.storageLocation).map (fun a => (a, slot))
  | none =>
    if 1 < ancestors.card then (db.remoteCopy k).map (fun a => (a, 0)) else none

/-- Coherence of the index, the write cache, the storages and the read-only cache. -/
structure Coherent (db : AccountsDb) : Prop where
  /-- a slot list has one entry for a slot -/
  nodup : ∀ k, ((db.accountsIndex.slotList k).map Prod.fst).Nodup
  /-- every index entry leads to an account -/
  resolves : ∀ k e, e ∈ db.accountsIndex.slotList k →
    (db.resolve e.1 k e.2.storageLocation).isSome = true
  /-- the read-only cache agrees with the storages -/
  readOnly : ∀ k e a, e ∈ db.accountsIndex.slotList k →
    e.2.storageLocation.isCached = false →
    db.readOnlyAccountsCache k e.1 = some a →
    db.resolve e.1 k e.2.storageLocation = some a
  /-- slots are `u64` numbers -/
  roots : ∀ slot ∈ db.accountsIndex.aliveRoots, slot ≤ u64Max

/-- A coherent database between two operations. -/
structure WellFormed (db : AccountsDb) : Prop extends db.Coherent where
  /-- outside of the dummy slot, the index knows what the write cache holds -/
  known : ∀ slot k, slot ≠ 0 → (db.accountsCache.holds slot k).isSome = true →
    ∃ e ∈ db.accountsIndex.slotList k, e.1 = slot

/-- The dummy slot cache after a load: it may have received the remote copy. -/
def afterFind (k : Pubkey) : AccountsDb :=
  match db.accountsIndex.get k ancestors none with
  | some _ => db
  | none =>
    if 1 < ancestors.card ∧ db.remoteLoader.hasAccount k = true then
      db.withAccountsCache (db.accountsCache.load 0 k).1
    else db

section Fields
variable (db : AccountsDb) (c : AccountsCache) (l : RemoteAccountLoader)

@[simp] theorem withAccountsCache_accountsCache :
    (db.withAccountsCache c).accountsCache = c := rfl

@[simp] theorem withAccountsCache_remoteLoader :
    (db.withAccountsCache c).remoteLoader = c.remoteLoader := rfl

@[simp] theorem withAccountsCache_self :
    db.withAccountsCache db.accountsCache = db := rfl

@[simp] theorem withRemoteLoader_remoteLoader :
    (db.withRemoteLoader l).remoteLoader = l := rfl

end Fields

@[simp] theorem resolve_storeReadOnly (db : AccountsDb) (k : Pubkey) (slot : Slot)
    (a : AccountSharedData) (slot' : Slot) (k' : Pubkey) (loc : StorageLocation) :
    (db.storeReadOnly k slot a).resolve slot' k' loc = db.resolve slot' k' loc := by
  cases loc <;> rfl

section Settle
variable (q : LoadQuery) (db : AccountsDb)

theorem readIndex_of_some {ancestors : Finset Slot} {k : Pubkey} {slot : Slot} {info : AccountInfo}
    (hget : db.accountsIndex.get k ancestors none = some (slot, info)) :
    db.readIndexForAccessorOrLoadSlow ancestors k false =
      (db, some (slot, info.storageLocation, none)) := by
  unfold readIndexForAccessorOrLoadSlow
  rw [hget]
  rfl

theorem readIndex_of_none {ancestors : Finset Slot} {k : Pubkey}
    (hget : db.accountsIndex.get k ancestors none = none) (clone : Bool) :
    db.readIndexForAccessorOrLoadSlow ancestors k clone =
      if 1 < ancestors.card ∧ db.remoteLoader.hasAccount k = true then
        (db, some (0, .cached, none))
      else (db, none) := by
  unfold readIndexForAccessorOrLoadSlow
  rw [hget]
  simp [hasAccountFromRemote]

theorem step_of_isFinal {r : Reader} (h : r.isFinal = true) : q.step db r = (db, r) := by
  cases r <;> first | rfl | simp [Reader.isFinal] at h

theorem settle_of_isFinal {r : Reader} (h : r.isFinal = true) (n : Nat) :
    q.settle n db r = (db, r) := by
  induction n with
  | zero => rfl
  | succ n ih =>
    simp only [LoadQuery.settle, step_of_isFinal q db h]
    exact ih

theorem settle_add (m n : Nat) (r : Reader) :
    q.settle (m + n) db r = q.settle n (q.settle m db r).1 (q.settle m db r).2 := by
  induction m generalizing db r with
  | zero => simp [LoadQuery.settle]
  | succ m ih =>
    rw [Nat.succ_add]
    exact ih _ _

theorem step_access_of_resolve {slot : Slot} {loc : StorageLocation} {a : AccountSharedData}
    (h : db.resolve slot q.pubkey loc = some a) (n : Nat) :
    q.step db (.access slot loc n) =
      (db, .found a slot (if loc.isCached then .writeCache else .storage)) := by
  cases loc with
  | cached =>
    simp only [resolve] at h
    simp [LoadQuery.step, h, isCached]
  | appendVec id offset =>
    simp only [resolve, bind_eq_some_iff, map_eq_some_iff] at h
    obtain ⟨e, he, x, hx, rfl⟩ := h
    simp [LoadQuery.step, he, Reader.ofAccessor, hx, isCached]

/-- Cutting `get_account_accessor` at the remote fallback changes nothing. -/
theorem settle_access_cached (slot : Slot) (n : Nat)
    (h : ((db.accountsCache.load slot q.pubkey).2).isSome = true) :
    q.settle 2 db (.access slot .cached n) = ((db.getAccountAccessor slot q.pubkey .cached).1,
        Reader.ofAccessor slot (db.getAccountAccessor slot q.pubkey .cached).2) := by
  simp only [getAccountAccessor]
  rw [load_eq] at h ⊢
  cases hc : db.accountsCache.holds slot q.pubkey with
  | some a =>
    simp [LoadQuery.settle, LoadQuery.step, hc, Reader.ofAccessor]
  | none =>
    cases hl : db.accountsCache.remoteLoader.getAccount q.pubkey with
    | some a => simp [LoadQuery.settle, LoadQuery.step, hc, hl, Reader.ofAccessor]
    | none => simp [hc, hl] at h

theorem find_of_some (hcoh : db.Coherent) {slot : Slot} {info : AccountInfo}
    (hget : db.accountsIndex.get q.pubkey q.ancestors none = some (slot, info)) :
    ∃ a src, db.resolve slot q.pubkey info.storageLocation = some a ∧
      db.find q = (db, .found a slot src) ∧
      (src = .storage → info.storageLocation.isCached = false) := by
  have hmem := (get_eq_some hget).1
  obtain ⟨a, ha⟩ := isSome_iff_exists.mp (hcoh.resolves _ _ hmem)
  have hstart : q.step db .start = (db, .indexed slot info.storageLocation) := by
    simp only [LoadQuery.step, readIndex_of_some db hget]
  unfold find
  by_cases hc : info.storageLocation.isCached = true
  · refine ⟨a, .writeCache, ha, ?_, by simp⟩
    have hidx : q.step db (.indexed slot info.storageLocation) =
        (db, .access slot info.storageLocation 0) := by
      simp [LoadQuery.step, hc]
    simp only [LoadQuery.settle, hstart, hidx, step_access_of_resolve q db ha, hc, if_true]
    exact settle_of_isFinal q db rfl 2
  · have hcf : info.storageLocation.isCached = false := by simpa using hc
    cases hro : db.readOnlyAccountsCache q.pubkey slot with
    | some b =>
      have hba : some b = some a := (hcoh.readOnly _ _ b hmem hcf hro).symm.trans ha
      refine ⟨a, .readOnlyCache, ha, ?_, by simp⟩
      have hidx : q.step db (.indexed slot info.storageLocation) =
          (db, .found b slot .readOnlyCache) := by
        simp [LoadQuery.step, hcf, hro]
      rw [some.inj hba] at hidx
      simp only [LoadQuery.settle, hstart, hidx]
      exact settle_of_isFinal q db rfl 3
    | none =>
      refine ⟨a, .storage, ha, ?_, fun _ => hcf⟩
      have hidx : q.step db (.indexed slot info.storageLocation) =
          (db, .access slot info.storageLocation 0) := by
        simp [LoadQuery.step, hcf, hro]
      simp only [LoadQuery.settle, hstart, hidx, step_access_of_resolve q db ha, hcf,
        Bool.false_eq_true, if_false]
      exact settle_of_isFinal q db rfl 2

theorem find_of_remote
    (hget : db.accountsIndex.get q.pubkey q.ancestors none = none)
    (hcard : 1 < q.ancestors.card)
    (hhas : db.remoteLoader.hasAccount q.pubkey = true) :
    ∃ a, (db.accountsCache.load 0 q.pubkey).2 = some a ∧ db.find q =
        (db.withAccountsCache (db.accountsCache.load 0 q.pubkey).1, .found a 0 .writeCache) := by
  have hsome : ((db.accountsCache.load 0 q.pubkey).2).isSome = true := by
    rw [load_snd, isSome_or]
    rw [RemoteAccountLoader.hasAccount_eq] at hhas
    simp [hhas]
  obtain ⟨a, ha⟩ := isSome_iff_exists.mp hsome
  refine ⟨a, ha, ?_⟩
  have hstart : q.step db .start = (db, .indexed 0 .cached) := by
    simp [LoadQuery.step, readIndex_of_none db hget, hcard, hhas]
  have htwo : q.settle 2 db .start = (db, .access 0 .cached 0) := by
    simp only [LoadQuery.settle, hstart]
    rfl
  have hacc := settle_access_cached q db 0 0 hsome
  simp only [getAccountAccessor, ha, Reader.ofAccessor] at hacc
  change q.settle (2 + (2 + 1)) db .start = _
  rw [settle_add, htwo, settle_add, hacc]
  exact settle_of_isFinal q _ rfl 1

theorem find_of_missing
    (hget : db.accountsIndex.get q.pubkey q.ancestors none = none)
    (hno : ¬ (1 < q.ancestors.card ∧ db.remoteLoader.hasAccount q.pubkey = true)) :
    db.find q = (db, .missing) := by
  have hstart : q.step db .start = (db, .missing) := by
    simp [LoadQuery.step, readIndex_of_none db hget, hno]
  simp only [find, LoadQuery.settle, hstart]
  exact settle_of_isFinal q db rfl 4

/-- An uninterrupted load ends with the visible account, and never panics. -/
theorem find_eq_visible (hcoh : db.Coherent) :
    (db.find q).1 = db.afterFind q.ancestors q.pubkey ∧
      match db.visible q.ancestors q.pubkey with
      | some (a, slot) => ∃ src, (db.find q).2 = .found a slot src ∧ (src = .storage → ∃ info,
            db.accountsIndex.get q.pubkey q.ancestors none = some (slot, info) ∧
              info.storageLocation.isCached = false)
      | none => (db.find q).2 = .missing := by
  cases hget : db.accountsIndex.get q.pubkey q.ancestors none with
  | some e =>
    obtain ⟨slot, info⟩ := e
    obtain ⟨a, src, hres, hfind, hsrc⟩ := find_of_some q db hcoh hget
    rw [hfind]
    simp only [afterFind, visible, hget, hres, map_some, true_and]
    exact ⟨src, rfl, fun h => ⟨info, rfl, hsrc h⟩⟩
  | none =>
    by_cases hr : 1 < q.ancestors.card ∧ db.remoteLoader.hasAccount q.pubkey = true
    · obtain ⟨a, ha, hfind⟩ := find_of_remote q db hget hr.1 hr.2
      rw [hfind]
      rw [load_snd] at ha
      simp only [afterFind, visible, hget, hr.1, hr.2, if_true, remoteCopy, ha,
        and_self, map_some, true_and]
      exact ⟨.writeCache, rfl, by simp⟩
    · rw [find_of_missing q db hget hr]
      simp only [afterFind, visible, hget, hr, if_false, remoteCopy, true_and]
      by_cases hcard : 1 < q.ancestors.card
      · have hhas : db.remoteLoader.hasAccount q.pubkey = false := by
          simpa [hcard] using hr
        simp [hhas]
      · simp [hcard]

end Settle

variable {a : AccountSharedData}

/-- `do_load` returns the visible account, unless it has no lamports, and changes the read-only
cache and the dummy slot cache only. -/
theorem doLoad_spec (db : AccountsDb) (q : LoadQuery) (hcoh : db.Coherent) :
    (db.doLoad q).2 = .ok ((db.visible q.ancestors q.pubkey).filter (fun x => !x.1.isZeroLamport)) ∧
    ((db.doLoad q).1 = db.afterFind q.ancestors q.pubkey ∨ ∃ slot info a,
        db.accountsIndex.get q.pubkey q.ancestors none = some (slot, info) ∧
        info.storageLocation.isCached = false ∧
        db.resolve slot q.pubkey info.storageLocation = some a ∧
        (db.doLoad q).1 = db.storeReadOnly q.pubkey slot a) := by
  obtain ⟨hst, hres⟩ := find_eq_visible q db hcoh
  unfold doLoad
  generalize db.find q = found at hst hres ⊢
  obtain ⟨db', r⟩ := found
  subst hst
  cases hv : db.visible q.ancestors q.pubkey with
  | none =>
    rw [hv] at hres
    subst hres
    exact ⟨rfl, Or.inl rfl⟩
  | some x =>
    obtain ⟨a, slot⟩ := x
    rw [hv] at hres
    obtain ⟨src, rfl, hsrc⟩ := hres
    by_cases hz : a.isZeroLamport = true
    · simp [hz, Option.filter]
    · by_cases hs : src = .storage
      · obtain ⟨info, hget, hc⟩ := hsrc hs
        have hres' : db.resolve slot q.pubkey info.storageLocation = some a := by
          simpa [visible, hget] using hv
        refine ⟨by simp [hz, hs, Option.filter], Or.inr ⟨slot, info, a, hget, hc, hres', ?_⟩⟩
        simp [hz, hs, afterFind, hget]
      · simp [hz, hs, Option.filter]

theorem resolve_mono {db db' : AccountsDb} (hstorage : db'.storage = db.storage)
    (hholds : ∀ s k a, db.accountsCache.holds s k = some a → db'.accountsCache.holds s k = some a)
    {slot : Slot} {k : Pubkey} {loc : StorageLocation}
    (h : db.resolve slot k loc = some a) :
    db'.resolve slot k loc = some a := by
  cases loc with
  | cached => exact hholds slot k a h
  | appendVec id offset =>
    simp only [resolve, getAccountStorageEntry] at h ⊢
    rw [hstorage]
    exact h

theorem WellFormed.of_holds_mono {db db' : AccountsDb} (hwf : db.WellFormed)
    (hindex : db'.accountsIndex = db.accountsIndex)
    (hstorage : db'.storage = db.storage)
    (hro : db'.readOnlyAccountsCache = db.readOnlyAccountsCache)
    (hholds : ∀ s k a, db.accountsCache.holds s k = some a → db'.accountsCache.holds s k = some a)
    (hdummy : ∀ s k, s ≠ 0 → db'.accountsCache.holds s k = db.accountsCache.holds s k) :
    db'.WellFormed where
  nodup := by
    rw [hindex]
    exact hwf.nodup
  resolves := by
    rw [hindex]
    intro k e he
    obtain ⟨a, ha⟩ := isSome_iff_exists.mp (hwf.resolves k e he)
    rw [resolve_mono hstorage hholds ha]
    rfl
  readOnly := by
    rw [hindex, hro]
    intro k e a he hc hra
    exact resolve_mono hstorage hholds (hwf.readOnly k e a he hc hra)
  known := by
    rw [hindex]
    intro slot k hs hk
    rw [hdummy slot k hs] at hk
    exact hwf.known slot k hs hk
  roots := by
    rw [hindex]
    exact hwf.roots

theorem holds_load_of_some (c : AccountsCache) (slot : Slot) (k : Pubkey) {s : Slot} {k' : Pubkey}
    (h : c.holds s k' = some a) :
    (c.load slot k).1.holds s k' = some a := by
  rw [holds_load]
  split_ifs with heq
  · obtain ⟨rfl, rfl⟩ := heq
    rw [load_snd, h]
    rfl
  · exact h

theorem WellFormed.withRemoteLoader {db : AccountsDb} (hwf : db.WellFormed)
    (l : RemoteAccountLoader) : (db.withRemoteLoader l).WellFormed :=
  hwf.of_holds_mono rfl rfl rfl (fun _ _ _ h => h) (fun _ _ _ => rfl)

theorem WellFormed.afterFind {db : AccountsDb} (hwf : db.WellFormed)
    (ancestors : Finset Slot) (k : Pubkey) :
    (db.afterFind ancestors k).WellFormed := by
  unfold AccountsDb.afterFind
  split
  · exact hwf
  · split_ifs
    · refine hwf.of_holds_mono rfl rfl rfl
        (fun s k' a h => holds_load_of_some db.accountsCache 0 k h) ?_
      intro s k' hs
      rw [withAccountsCache_accountsCache, holds_load, if_neg (by tauto)]
    · exact hwf

theorem Coherent.storeReadOnly {db : AccountsDb} (h : db.Coherent)
    {k : Pubkey} {slot : Slot} {info : AccountInfo}
    (hmem : (slot, info) ∈ db.accountsIndex.slotList k)
    (hres : db.resolve slot k info.storageLocation = some a) :
    (db.storeReadOnly k slot a).Coherent where
  nodup := h.nodup
  resolves := by
    intro k' e he
    exact h.resolves k' e he
  readOnly := by
    intro k' e b he hc hb
    rw [resolve_storeReadOnly]
    simp only [AccountsDb.storeReadOnly] at hb
    split_ifs at hb with heq
    · obtain ⟨rfl, hs⟩ := heq
      have hee : e = (slot, info) := List.inj_on_of_nodup_map (h.nodup k') he hmem hs
      rw [hee, hres, ← hb]
    · exact h.readOnly k' e b he hc hb
  roots := h.roots

theorem WellFormed.doLoad {db : AccountsDb} (hwf : db.WellFormed) (q : LoadQuery) :
    (db.doLoad q).1.WellFormed := by
  rcases (doLoad_spec db q hwf.toCoherent).2 with h | ⟨slot, info, a, hget, _, hres, h⟩
  · rw [h]
    exact hwf.afterFind q.ancestors q.pubkey
  · rw [h]
    exact ⟨hwf.toCoherent.storeReadOnly (get_eq_some hget).1 hres, hwf.known⟩

theorem WellFormed.new (config : Config) (aliveRoots : Finset Slot)
    (hroots : ∀ slot ∈ aliveRoots, slot ≤ u64Max) :
    (AccountsDb.new config aliveRoots).WellFormed where
  nodup := fun _ => List.nodup_nil
  resolves := by
    intro k e he
    simp [AccountsDb.new] at he
  readOnly := by
    intro k e a he
    simp [AccountsDb.new] at he
  known := by
    intro slot k _ h
    simp [AccountsDb.new, holds, slotCache] at h
  roots := hroots

theorem WellFormed.storeCachedOne {db : AccountsDb} (hwf : db.WellFormed)
    (slot : Slot) (x : Pubkey × AccountSharedData) :
    (AccountsDb.storeCachedOne slot db x).WellFormed where
  nodup := upsert_nodup hwf.nodup
  resolves := by
    intro k e he
    rcases mem_upsert.mp he with ⟨rfl, rfl⟩ | ⟨he, hne⟩
    · simp [AccountsDb.storeCachedOne, resolve, AccountInfo.new, holds_store]
    · have hold := hwf.resolves k e he
      cases hloc : e.2.storageLocation with
      | cached =>
        rw [hloc] at hold
        simp only [AccountsDb.storeCachedOne, resolve, holds_store]
        split_ifs
        · rfl
        · exact hold
      | appendVec id offset =>
        rw [hloc] at hold
        exact hold
  readOnly := by
    intro k e a he hc hra
    rcases mem_upsert.mp he with ⟨rfl, rfl⟩ | ⟨he, hne⟩
    · simp [AccountInfo.new, isCached] at hc
    · simp only [AccountsDb.storeCachedOne, removeReadOnly] at hra
      split_ifs at hra
      have hold := hwf.readOnly k e a he hc hra
      cases hloc : e.2.storageLocation with
      | cached => simp [hloc, isCached] at hc
      | appendVec id offset =>
        rw [hloc] at hold
        exact hold
  known := by
    intro s k hs hk
    simp only [AccountsDb.storeCachedOne, holds_store] at hk
    by_cases heq : s = slot ∧ k = x.1
    · obtain ⟨rfl, rfl⟩ := heq
      exact ⟨_, mem_upsert.mpr (Or.inl ⟨rfl, rfl⟩), rfl⟩
    · rw [if_neg heq] at hk
      obtain ⟨e, he, hes⟩ := hwf.known s k hs hk
      refine ⟨e, mem_upsert.mpr (Or.inr ⟨he, ?_⟩), hes⟩
      rintro ⟨hk', hs'⟩
      exact heq ⟨hes ▸ hs', hk'⟩
  roots := hwf.roots

theorem WellFormed.storeCached {db : AccountsDb} (hwf : db.WellFormed)
    (slot : Slot) (xs : List (Pubkey × AccountSharedData)) :
    (db.storeCached slot xs).WellFormed := by
  induction xs generalizing db with
  | nil => exact hwf
  | cons x xs ih => exact ih (hwf.storeCachedOne slot x)

end AccountsDb
end Hypergrid
