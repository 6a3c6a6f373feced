import Hypergrid.Message
import Hypergrid.Lib.GuardedRun

/-!
# The account lock table

`AccountLocks` of `accounts-db/src/accounts.rs` with the number of readers of every key, and the
calls of `lock_accounts` and `unlock_accounts` on it.  Both calls take the mutex of the table,
so that a run is a list of whole calls.  The holders of a state are the transactions that were
locked and not yet unlocked.

An assertion that fails is `none`.

* `Consistent` says that the table is the one of its holders; `lockAccountsInner_consistent` and
  `unlockAccounts_consistent` keep it.
* `foldl_unlockReadonly` : what an unlock leaves of the readers.
* `Forgets` : without the counts the table is the one of `Hypergrid.AccountLocks`.
-/

namespace Hypergrid

open List SanitizedMessage AccountLocks

/-- `TransactionAccountLocks` of a transaction that passed the check for duplicate keys. -/
structure TransactionAccountLocks where
  writable : List Pubkey
  readonly : List Pubkey
  nodup : (writable ++ readonly).Nodup
deriving DecidableEq

/-- `AccountLocks`. -/
structure LockTable where
  writeLocks : Finset Pubkey
  readonlyLocks : Pubkey → Option Nat

namespace LockTable

variable (table : LockTable) (key : Pubkey)

def default : LockTable := { writeLocks := ∅, readonlyLocks := fun _ => none }

def isLockedReadonly : Bool :=
  (table.readonlyLocks key).elim false (fun count => decide (0 < count))

def isLockedWrite : Bool := decide (key ∈ table.writeLocks)

/-- `readonly_locks.insert`. -/
def insertReadonly (count : Nat) : LockTable :=
  { table with readonlyLocks := Function.update table.readonlyLocks key (some count) }

/-- `insert_new_readonly`: asserts that the key had no entry. -/
def insertNewReadonly : Option LockTable :=
  if (table.readonlyLocks key).isNone then some (table.insertReadonly key 1) else none

/-- `lock_readonly`: whether the key has an entry, which then counts one reader more. -/
def lockReadonly : LockTable × Bool :=
  match table.readonlyLocks key with
  | some count => (table.insertReadonly key (count + 1), true)
  | none => (table, false)

/-- `unlock_readonly`: an entry that counts no reader any more is removed. -/
def unlockReadonly : LockTable :=
  match table.readonlyLocks key with
  | some count =>
    if count - 1 = 0 then
      { table with readonlyLocks := Function.update table.readonlyLocks key none }
    else table.insertReadonly key (count - 1)
  | none => table

def unlockWrite : LockTable :=
  { table with writeLocks := table.writeLocks.erase key }

/-- The last loop of `lock_account` for one key. -/
def acquireReadonly : Option LockTable :=
  let r := table.lockReadonly key
  if r.2 then some r.1 else r.1.insertNewReadonly key

def lockAccount (keys : TransactionAccountLocks) :
    Option (LockTable × Except TransactionError Unit) :=
  if keys.writable.any (fun k => table.isLockedWrite k || table.isLockedReadonly k) then
    some (table, .error .accountInUse)
  else if keys.readonly.any table.isLockedWrite then
    some (table, .error .accountInUse)
  else do
    let table := keys.writable.foldl
      (fun table k => { table with writeLocks := insert k table.writeLocks }) table
    let table ← keys.readonly.foldlM acquireReadonly table
    return (table, .ok ())

def unlockAccount (keys : TransactionAccountLocks) : LockTable :=
  keys.readonly.foldl unlockReadonly (keys.writable.foldl unlockWrite table)

/-- The lock attempt of one transaction in `lock_accounts_inner`. -/
def lockResult (keys : Except TransactionError TransactionAccountLocks) :
    Option (LockTable × Except TransactionError Unit) :=
  match keys with
  | .ok keys => table.lockAccount keys
  | .error err => some (table, .error err)

def lockAccountsInner : LockTable → List (Except TransactionError TransactionAccountLocks) →
    Option (LockTable × List (Except TransactionError Unit))
  | table, [] => some (table, [])
  | table, keys :: rest => do
      let r ← table.lockResult keys
      let rs ← lockAccountsInner r.1 rest
      return (rs.1, r.2 :: rs.2)

/-- The loop of `unlock_accounts` over the transactions whose result was `Ok`. -/
def unlockAccounts (keys : List TransactionAccountLocks) : LockTable :=
  keys.foldl unlockAccount table

end LockTable

structure LockState where
  table : LockTable
  holders : Multiset TransactionAccountLocks

inductive LockCall where
  | lockAccounts (batch : List (Except TransactionError TransactionAccountLocks))
  | unlockAccounts (keys : List TransactionAccountLocks)

namespace LockState

def acquired (batch : List (Except TransactionError TransactionAccountLocks))
    (results : List (Except TransactionError Unit)) : List TransactionAccountLocks :=
  (batch.zip results).filterMap (fun x =>
    match x with
    | (.ok keys, .ok ()) => some keys
    | _ => none)

def initial : LockState := { table := LockTable.default, holders := 0 }

/-- Only holders are unlocked, once each. -/
def step (s : LockState) : LockCall → Option LockState
  | .lockAccounts batch =>
    (s.table.lockAccountsInner batch).map (fun r =>
      { table := r.1, holders := (acquired batch r.2 : Multiset _) + s.holders })
  | .unlockAccounts keys =>
    if (keys : Multiset _) ≤ s.holders then
      some { table := s.table.unlockAccounts keys, holders := s.holders - keys }
    else none

end LockState

namespace LockTable

def writers (holders : Multiset TransactionAccountLocks) (key : Pubkey) : Nat :=
  holders.countP (fun t => key ∈ t.writable)

def readers (holders : Multiset TransactionAccountLocks) (key : Pubkey) : Nat :=
  holders.countP (fun t => key ∈ t.readonly)

/-- The table of its holders: each key has one writer, or readers that are counted, or neither. -/
structure Consistent (table : LockTable) (holders : Multiset TransactionAccountLocks) : Prop where
  oneWriter : ∀ k, writers holders k ≤ 1
  apart : ∀ k, 0 < writers holders k → readers holders k = 0
  writeLocks : ∀ k, k ∈ table.writeLocks ↔ 0 < writers holders k
  readonlyLocks : ∀ k, table.readonlyLocks k =
    if readers holders k = 0 then none else some (readers holders k)

/-- Every key that the loop of `unlock_account` unlocks has an entry that counts a reader. -/
def FindsEntries : LockTable → List Pubkey → Prop
  | _, [] => True
  | table, k :: ks =>
    (∃ count, table.readonlyLocks k = some count ∧ 0 < count) ∧
      FindsEntries (table.unlockReadonly k) ks

/-- Every call of `unlock_readonly` in an `unlock_accounts` finds its entry. -/
def UnlockFinds : LockTable → List TransactionAccountLocks → Prop
  | _, [] => True
  | table, keys :: rest =>
    FindsEntries (keys.writable.foldl unlockWrite table) keys.readonly ∧
      UnlockFinds (table.unlockAccount keys) rest

section Holders
variable {holders : Multiset TransactionAccountLocks} {keys : TransactionAccountLocks}

theorem writers_cons (k : Pubkey) :
    writers (keys ::ₘ holders) k = writers holders k + if k ∈ keys.writable then 1 else 0 :=
  Multiset.countP_cons _ keys holders

theorem readers_cons (k : Pubkey) :
    readers (keys ::ₘ holders) k = readers holders k + if k ∈ keys.readonly then 1 else 0 :=
  Multiset.countP_cons _ keys holders

end Holders

section Loops
variable (table : LockTable)

theorem acquireReadonly_eq (k : Pubkey) :
    table.acquireReadonly k =
      some (table.insertReadonly k ((table.readonlyLocks k).getD 0 + 1)) := by
  unfold acquireReadonly lockReadonly
  cases hk : table.readonlyLocks k with
  | some count => simp
  | none => simp [insertNewReadonly, hk]

theorem foldl_writeLocks (ks : List Pubkey) :
    ks.foldl (fun table k => { table with writeLocks := insert k table.writeLocks }) table =
      { table with writeLocks := ks.toFinset ∪ table.writeLocks } := by
  induction ks generalizing table with
  | nil => simp
  | cons k ks ih =>
    rw [foldl_cons, ih]
    simp [Finset.union_insert, Finset.insert_union]

theorem foldlM_acquireReadonly {ks : List Pubkey} (hks : ks.Nodup) :
    ks.foldlM acquireReadonly table =
      some { table with readonlyLocks := fun k =>
        if k ∈ ks then some ((table.readonlyLocks k).getD 0 + 1) else table.readonlyLocks k } := by
  induction ks generalizing table with
  | nil => simp
  | cons k₀ ks ih =>
    obtain ⟨hk₀, hks⟩ := nodup_cons.mp hks
    rw [foldlM_cons, acquireReadonly_eq, Option.bind_eq_bind, Option.bind_some, ih _ hks]
    congr 2
    funext k
    by_cases hk : k = k₀
    · subst hk
      simp [insertReadonly, hk₀]
    · simp [insertReadonly, hk]

theorem foldl_unlockWrite (ks : List Pubkey) :
    ks.foldl unlockWrite table =
      { table with writeLocks := table.writeLocks.filter (fun k => k ∉ ks) } := by
  induction ks generalizing table with
  | nil => simp
  | cons k₀ ks ih =>
    rw [foldl_cons, ih, unlockWrite]
    congr 1
    ext k
    simp only [Finset.mem_filter, Finset.mem_erase, mem_cons, not_or]
    tauto

/-- What `unlock_readonly` leaves of the entry of its key. -/
def lessOne (entry : Option Nat) : Option Nat :=
  if entry.getD 0 - 1 = 0 then none else some (entry.getD 0 - 1)

theorem unlockReadonly_eq {k : Pubkey} {count : Nat} (hk : table.readonlyLocks k = some count) :
    table.unlockReadonly k =
      { table with readonlyLocks :=
          Function.update table.readonlyLocks k (lessOne (some count)) } := by
  unfold unlockReadonly
  rw [hk]
  dsimp only [lessOne, Option.getD_some]
  split_ifs <;> rfl

theorem foldl_unlockReadonly {ks : List Pubkey} (hks : ks.Nodup)
    (hentry : ∀ k ∈ ks, ∃ count, table.readonlyLocks k = some count ∧ 0 < count) :
    FindsEntries table ks ∧ ks.foldl unlockReadonly table =
        { table with readonlyLocks := fun k =>
            if k ∈ ks then lessOne (table.readonlyLocks k) else table.readonlyLocks k } := by
  induction ks generalizing table with
  | nil => exact ⟨trivial, by simp⟩
  | cons k₀ ks ih =>
    obtain ⟨hk₀, hks⟩ := nodup_cons.mp hks
    obtain ⟨count, hcount, hpos⟩ := hentry k₀ mem_cons_self
    have hother : ∀ k, k ≠ k₀ →
        (table.unlockReadonly k₀).readonlyLocks k = table.readonlyLocks k := by
      intro k hk
      rw [unlockReadonly_eq table hcount]
      exact Function.update_of_ne hk _ _
    obtain ⟨hfinds, hfold⟩ := ih (table.unlockReadonly k₀) hks (by
      intro k hk
      rw [hother k (fun h => hk₀ (h ▸ hk))]
      exact hentry k (mem_cons_of_mem _ hk))
    refine ⟨⟨⟨count, hcount, hpos⟩, hfinds⟩, ?_⟩
    rw [foldl_cons, hfold]
    rw [unlockReadonly_eq table hcount]
    congr 1
    funext k
    by_cases hk : k = k₀
    · subst hk
      simp [hk₀, hcount]
    · simp [hk]

end Loops

variable {table : LockTable} {holders : Multiset TransactionAccountLocks}
  {keys : TransactionAccountLocks}

/-- The table when all keys of a transaction are locked. -/
def locked (table : LockTable) (keys : TransactionAccountLocks) : LockTable where
  writeLocks := keys.writable.toFinset ∪ table.writeLocks
  readonlyLocks := fun k =>
    if k ∈ keys.readonly then some ((table.readonlyLocks k).getD 0 + 1)
    else table.readonlyLocks k

theorem lockAccount_eq (table : LockTable) (keys : TransactionAccountLocks) :
    table.lockAccount keys = some
      (if keys.writable.any (fun k => table.isLockedWrite k || table.isLockedReadonly k) ||
          keys.readonly.any table.isLockedWrite then
        (table, .error .accountInUse)
      else (table.locked keys, .ok ())) := by
  unfold lockAccount
  dsimp only
  rw [foldl_writeLocks, foldlM_acquireReadonly _ (nodup_append.mp keys.nodup).2.1]
  by_cases hw : (keys.writable.any fun k => table.isLockedWrite k || table.isLockedReadonly k) =
      true
  · rw [if_pos hw, hw, Bool.true_or, if_pos rfl]
  · rw [if_neg hw, Bool.eq_false_iff.mpr hw, Bool.false_or]
    split_ifs <;> rfl

/-- A transaction that meets no lock of another holder becomes a holder. -/
theorem Consistent.locked (h : Consistent table holders)
    (hw : ∀ k ∈ keys.writable, k ∉ table.writeLocks ∧ table.isLockedReadonly k = false)
    (hr : ∀ k ∈ keys.readonly, k ∉ table.writeLocks) :
    Consistent (table.locked keys) (keys ::ₘ holders) := by
  have hnoWriter : ∀ k, k ∉ table.writeLocks → writers holders k = 0 :=
    fun k hk => Nat.eq_zero_of_not_pos (fun hpos => hk ((h.writeLocks k).mpr hpos))
  have hnoReader : ∀ k ∈ keys.writable, readers holders k = 0 := by
    intro k hk
    have hfree := (hw k hk).2
    rw [isLockedReadonly, h.readonlyLocks k] at hfree
    by_contra hne
    simp [hne, Nat.pos_of_ne_zero hne] at hfree
  constructor
  · intro k
    rw [writers_cons]
    split_ifs with hk
    · rw [hnoWriter k (hw k hk).1]
    · exact h.oneWriter k
  · intro k hpos
    rw [writers_cons] at hpos
    rw [readers_cons]
    by_cases hk : k ∈ keys.writable
    · rw [hnoReader k hk, if_neg fun hr => (nodup_append.mp keys.nodup).2.2 k hk k hr rfl]
    · rw [if_neg hk] at hpos
      rw [h.apart k hpos, if_neg (fun hkr => hr k hkr ((h.writeLocks k).mpr hpos))]
  · intro k
    rw [writers_cons, LockTable.locked, Finset.mem_union, mem_toFinset, h.writeLocks k]
    split_ifs with hk <;> simp [hk]
  · intro k
    dsimp only [LockTable.locked]
    rw [readers_cons, h.readonlyLocks k]
    split_ifs with hk hzero <;> simp_all

theorem lockAccount_cases (h : Consistent table holders) :
    table.lockAccount keys = some (table, .error .accountInUse) ∨
      table.lockAccount keys = some (table.locked keys, .ok ()) ∧
        Consistent (table.locked keys) (keys ::ₘ holders) := by
  rw [lockAccount_eq]
  split_ifs with hfree
  · exact .inl rfl
  · rw [Bool.or_eq_true, not_or] at hfree
    refine .inr ⟨rfl, h.locked ?_ ?_⟩
    · simpa [isLockedWrite, not_or] using hfree.1
    · simpa [isLockedWrite] using hfree.2

theorem Consistent.unlockAccount (h : Consistent table (keys ::ₘ holders)) :
    FindsEntries (keys.writable.foldl unlockWrite table) keys.readonly ∧
      Consistent (table.unlockAccount keys) holders := by
  have hentry : ∀ k ∈ keys.readonly, table.readonlyLocks k = some (readers holders k + 1) := by
    intro k hk
    rw [h.readonlyLocks k, readers_cons, if_pos hk, if_neg (Nat.succ_ne_zero _)]
  rw [LockTable.unlockAccount, foldl_unlockWrite]
  obtain ⟨hfinds, hfold⟩ := foldl_unlockReadonly
    { table with writeLocks := table.writeLocks.filter (fun k => k ∉ keys.writable) }
    (nodup_append.mp keys.nodup).2.1
    (fun k hk => ⟨_, hentry k hk, Nat.succ_pos _⟩)
  refine ⟨hfinds, ?_⟩
  rw [hfold]
  have hone := h.oneWriter
  have hapart := h.apart
  simp only [writers_cons, readers_cons] at hone hapart
  constructor
  · exact fun k => le_of_add_le_left (hone k)
  · intro k hpos
    exact (Nat.add_eq_zero_iff.mp (hapart k (Nat.add_pos_left hpos _))).1
  · intro k
    have hk := h.writeLocks k
    rw [writers_cons] at hk
    rw [Finset.mem_filter, hk]
    -- a key of this holder has no other writer
    have hk' := hone k
    split_ifs at hk' ⊢ with hmem
    · exact ⟨fun hin => absurd hmem hin.2, fun hpos => absurd hk' (by omega)⟩
    · exact ⟨fun hin => hin.1, fun hpos => ⟨hpos, hmem⟩⟩
  · intro k
    dsimp only
    split_ifs with hk hzero hzero
    · rw [hentry k hk, hzero]
      rfl
    · rw [hentry k hk]
      simp [lessOne, hzero]
    · rw [h.readonlyLocks k, readers_cons, if_neg hk, Nat.add_zero, if_pos hzero]
    · rw [h.readonlyLocks k, readers_cons, if_neg hk, Nat.add_zero, if_neg hzero]

theorem lockAccountsInner_consistent
    (batch : List (Except TransactionError TransactionAccountLocks))
    (h : Consistent table holders) :
    ∃ table' results, table.lockAccountsInner batch = some (table', results) ∧
      Consistent table' ((LockState.acquired batch results : Multiset _) + holders) := by
  induction batch generalizing table holders with
  | nil => exact ⟨table, [], rfl, by simpa [LockState.acquired] using h⟩
  | cons attempt batch ih =>
    have hone : ∃ table' result holders', table.lockResult attempt = some (table', result) ∧
        Consistent table' holders' ∧
        ∀ results, (LockState.acquired (attempt :: batch) (result :: results) : Multiset _) +
          holders = (LockState.acquired batch results : Multiset _) + holders' := by
      cases attempt with
      | error err => exact ⟨table, .error err, holders, rfl, h, fun _ => rfl⟩
      | ok keys =>
        rcases @lockAccount_cases table holders keys h with hbusy | ⟨hok, hlocked⟩
        · exact ⟨table, _, holders, hbusy, h, fun _ => rfl⟩
        · refine ⟨_, _, keys ::ₘ holders, hok, hlocked, fun results => ?_⟩
          rw [Multiset.add_cons, ← Multiset.cons_add]
          rfl
    obtain ⟨table₁, result, holders₁, hresult, h₁, hacquired⟩ := hone
    obtain ⟨table₂, results, hrest, h₂⟩ := ih h₁
    refine ⟨table₂, result :: results, ?_, ?_⟩
    · simp only [lockAccountsInner, hresult, Option.bind_eq_bind, Option.bind_some, hrest]
      rfl
    · rw [hacquired]
      exact h₂

theorem unlockAccounts_consistent (released : List TransactionAccountLocks)
    (h : Consistent table ((released : Multiset _) + holders)) :
    UnlockFinds table released ∧ Consistent (table.unlockAccounts released) holders := by
  induction released generalizing table with
  | nil => exact ⟨trivial, by simpa [unlockAccounts] using h⟩
  | cons keys released ih =>
    rw [← Multiset.cons_coe, Multiset.cons_add] at h
    obtain ⟨hfinds, hrest⟩ := h.unlockAccount
    obtain ⟨hfinds', hdone⟩ := ih hrest
    exact ⟨⟨hfinds, hfinds'⟩, hdone⟩

theorem lockResult_error {table' : LockTable} {err : TransactionError}
    {attempt : Except TransactionError TransactionAccountLocks}
    (h : table.lockResult attempt = some (table', .error err)) : table' = table := by
  cases attempt with
  | error err' => exact (Prod.mk.inj (Option.some.inj h)).1.symm
  | ok keys =>
    have h : table.lockAccount keys = some (table', .error err) := h
    rw [lockAccount_eq] at h
    split_ifs at h with hbusy
    · exact (Prod.mk.inj (Option.some.inj h)).1.symm
    · exact absurd (Prod.mk.inj (Option.some.inj h)).2 (by simp)

theorem default_consistent : Consistent default 0 where
  oneWriter := fun _ => by simp [writers]
  apart := fun _ _ => by simp [readers]
  writeLocks := fun _ => by simp [default, writers]
  readonlyLocks := fun _ => by simp [default, readers]

/-- The holders determine the table. -/
theorem Consistent.unique {table' : LockTable} (h : Consistent table holders)
    (h' : Consistent table' holders) :
    table = table' := by
  have hw : table.writeLocks = table'.writeLocks := by
    ext k
    rw [h.writeLocks k, h'.writeLocks k]
  have hr : table.readonlyLocks = table'.readonlyLocks := by
    funext k
    rw [h.readonlyLocks k, h'.readonlyLocks k]
  cases table
  cases table'
  congr

end LockTable

namespace LockTable

variable {locks : AccountLocks} {table : LockTable}

/-- The writable and the read-only keys are the account keys in another order. -/
theorem perm_accountKeys (m : SanitizedMessage) :
    (m.writableKeys ++ m.readonlyKeys).Perm m.accountKeys := by
  unfold writableKeys readonlyKeys keysAt
  rw [← map_append]
  refine ((filter_append_perm (fun x => m.isWritable x.2) m.accountKeys.zipIdx).map
    Prod.fst).trans (.of_eq ?_)
  exact zipIdx_map_fst 0 m.accountKeys

theorem nodup_of_validate {m : SanitizedMessage} {txAccountLockLimit : Nat}
    (h : validateAccountLocks m txAccountLockLimit = .ok ()) :
    (m.writableKeys ++ m.readonlyKeys).Nodup := by
  rw [(perm_accountKeys m).nodup_iff]
  unfold validateAccountLocks at h
  split_ifs at h with hdup
  simpa [hasDuplicates] using hdup

def getAccountLocks (txAccountLockLimit : Nat) (tx : SanitizedTransaction) :
    Except TransactionError TransactionAccountLocks :=
  match h : AccountLocks.validateAccountLocks tx.message txAccountLockLimit with
  | .ok () => .ok ⟨tx.message.writableKeys, tx.message.readonlyKeys, nodup_of_validate h⟩
  | .error err => .error err

def lockAccounts (table : LockTable) (txAccountLockLimit : Nat) (txs : List SanitizedTransaction) :
    Option (LockTable × List (Except TransactionError Unit)) :=
  table.lockAccountsInner (txs.map (getAccountLocks txAccountLockLimit))

def unlockTransactions (table : LockTable) (txs : List SanitizedTransaction)
    (results : List (Except TransactionError Unit)) : LockTable :=
  ((txs.zip results).filter (fun x => x.2.isOk)).foldl
    (fun table x => x.1.message.readonlyKeys.foldl unlockReadonly
      (x.1.message.writableKeys.foldl unlockWrite table)) table

theorem getAccountLocks_ok {limit : Nat} {tx : SanitizedTransaction}
    {keys : TransactionAccountLocks} (h : getAccountLocks limit tx = .ok keys) :
    keys.writable = tx.message.writableKeys ∧ keys.readonly = tx.message.readonlyKeys := by
  unfold getAccountLocks at h
  split at h <;> cases h
  exact ⟨rfl, rfl⟩

/-- Transactions that were locked are unlocked with the keys they were locked with. -/
theorem unlockTransactions_eq {limit : Nat} {txs : List SanitizedTransaction}
    {results : List (Except TransactionError Unit)} {start table' : LockTable}
    (h : start.lockAccounts limit txs = some (table', results)) (table : LockTable) :
    table.unlockTransactions txs results = table.unlockAccounts
      (LockState.acquired (txs.map (getAccountLocks limit)) results) := by
  induction txs generalizing start results table with
  | nil => rfl
  | cons tx txs ih =>
    obtain ⟨⟨table₁, result⟩, hone, h⟩ := Option.bind_eq_some_iff.mp h
    obtain ⟨rs, hrest, h⟩ := Option.bind_eq_some_iff.mp h
    cases h
    rw [map_cons]
    cases hkeys : getAccountLocks limit tx with
    | error err =>
      rw [hkeys] at hone
      cases hone
      exact ih hrest table
    | ok keys =>
      cases result with
      | error err => exact ih hrest table
      | ok u =>
        obtain ⟨hwritable, hreadonly⟩ := getAccountLocks_ok hkeys
        refine (ih hrest _).trans ?_
        dsimp only
        rw [← hwritable, ← hreadonly]
        rfl

/-- The table without the numbers of readers. -/
structure Forgets (table : LockTable) (locks : AccountLocks) : Prop where
  writeLocks : locks.writeLocks = table.writeLocks
  readonlyLocks : ∀ k, k ∈ locks.readonlyLocks ↔ table.isLockedReadonly k = true

variable (h : Forgets table locks)

include h

theorem Forgets.lockAccount (keys : TransactionAccountLocks) :
    ∃ table', table.lockAccount keys =
        some (table', (locks.lockAccount keys.writable keys.readonly).2) ∧
      Forgets table' (locks.lockAccount keys.writable keys.readonly).1 := by
  have hr : ∀ k, decide (k ∈ locks.readonlyLocks) = table.isLockedReadonly k := fun k =>
    Bool.eq_iff_iff.mpr (decide_eq_true_iff.trans (h.readonlyLocks k))
  have hw : ∀ k, decide (k ∈ locks.writeLocks) = table.isLockedWrite k := fun k => by
    rw [h.writeLocks, isLockedWrite]
  rw [lockAccount_eq]
  unfold AccountLocks.lockAccount
  simp only [hw, hr, Bool.or_eq_true]
  split_ifs
  · exact ⟨table, rfl, h⟩
  · exact ⟨table, rfl, h⟩
  · tauto
  · tauto
  · tauto
  · refine ⟨_, rfl, ?_, fun k => ?_⟩
    · rw [h.writeLocks]
      exact Finset.union_comm _ _
    · rw [Finset.mem_union, h.readonlyLocks k, mem_toFinset]
      unfold isLockedReadonly locked
      dsimp only
      split_ifs with hk <;> simp [hk]

theorem Forgets.lockTransaction (limit : Nat) (tx : SanitizedTransaction) :
    ∃ table', table.lockResult (getAccountLocks limit tx) =
        some (table', (AccountLocks.lockTransaction limit locks tx).2) ∧
      Forgets table' (AccountLocks.lockTransaction limit locks tx).1 := by
  unfold getAccountLocks AccountLocks.lockTransaction
  split <;> rename_i hvalid <;> simp only [hvalid]
  · exact h.lockAccount ⟨_, _, nodup_of_validate hvalid⟩
  · exact ⟨table, rfl, h⟩

end LockTable

namespace LockState

open LockTable

variable {s s' : LockState}

theorem step_consistent {call : LockCall} (h : Consistent s.table s.holders)
    (hstep : s.step call = some s') : Consistent s'.table s'.holders := by
  cases call with
  | lockAccounts batch =>
    obtain ⟨table', results, hlock, hcons⟩ := lockAccountsInner_consistent batch h
    simp only [step, hlock, Option.map_some, Option.some.injEq] at hstep
    subst hstep
    exact hcons
  | unlockAccounts keys =>
    simp only [step] at hstep
    split_ifs at hstep with hle
    simp only [Option.some.injEq] at hstep
    subst hstep
    refine (unlockAccounts_consistent keys ?_).2
    rwa [add_tsub_cancel_of_le hle]

theorem run_consistent {calls : List LockCall} (hrun : Machine.Run step initial calls s) :
    Consistent s.table s.holders :=
  Machine.GuardedRun.invariant (fun _ _ _ h _ hstep => step_consistent h hstep) hrun
    default_consistent

/-- The locks of every run of lock and unlock calls: a key has one writer or counted readers,
a failed attempt changes nothing, no assertion fails, an unlock finds what it unlocks, and a
table without holders is empty. -/
theorem accountLocks_sound {calls : List LockCall} (hrun : Machine.Run step initial calls s) :
    (∀ k, writers s.holders k ≤ 1 ∧ (0 < writers s.holders k → readers s.holders k = 0) ∧
      (k ∈ s.table.writeLocks ↔ 0 < writers s.holders k) ∧
      (s.table.readonlyLocks k).getD 0 = readers s.holders k) ∧
    (∀ batch, ∃ table' results, s.table.lockAccountsInner batch = some (table', results)) ∧
    (∀ table keys table' err, lockResult table keys = some (table', .error err) →
      table' = table) ∧
    (∀ keys : List TransactionAccountLocks, (keys : Multiset _) ≤ s.holders →
      UnlockFinds s.table keys) ∧
    (s.holders = 0 → s.table.writeLocks = ∅ ∧ ∀ k, s.table.readonlyLocks k = none) := by
  have h := run_consistent hrun
  refine ⟨fun k => ⟨h.oneWriter k, h.apart k, h.writeLocks k, ?_⟩, ?_, ?_, ?_, ?_⟩
  · rw [h.readonlyLocks k]
    split_ifs with hzero
    · exact hzero.symm
    · rfl
  · intro batch
    obtain ⟨table', results, hlock, _⟩ := lockAccountsInner_consistent batch h
    exact ⟨table', results, hlock⟩
  · intro table keys table' err herr
    exact lockResult_error herr
  · intro keys hle
    have hheld : Consistent s.table
        ((keys : Multiset _) + (s.holders - (keys : Multiset TransactionAccountLocks))) := by
      rwa [add_tsub_cancel_of_le hle]
    exact (unlockAccounts_consistent keys hheld).1
  · intro hnone
    rw [hnone] at h
    rw [h.unique default_consistent]
    exact ⟨rfl, fun _ => rfl⟩

/-- A writer of key 1 and two readers of key 2; a second writer of key 1 fails. -/
def sharingCalls : List LockCall :=
  [.lockAccounts [.ok ⟨[.ofNat 1], [.ofNat 2], by decide⟩, .ok ⟨[.ofNat 1], [], by decide⟩,
    .error .accountLoadedTwice],
   .lockAccounts [.ok ⟨[.ofNat 3], [.ofNat 2], by decide⟩]]

def sharingState : LockState := (Machine.exec step initial sharingCalls).get (by decide)

theorem accountLocks_sound_sharing :
    (writers sharingState.holders (.ofNat 1) = 1 ∧ readers sharingState.holders (.ofNat 2) = 2) ∧
    (∀ k, writers sharingState.holders k ≤ 1) ∧
    (sharingState.table.readonlyLocks (.ofNat 2)).getD 0 = 2 ∧
    UnlockFinds sharingState.table [⟨[.ofNat 3], [.ofNat 2], by decide⟩] := by
  have hrun : Machine.Run step initial sharingCalls sharingState :=
    (Machine.run_iff_exec step).mpr (Option.some_get _).symm
  obtain ⟨hkeys, _, _, hfinds, _⟩ := accountLocks_sound hrun
  have hreaders : readers sharingState.holders (.ofNat 2) = 2 := by decide
  refine ⟨⟨by decide, hreaders⟩, fun k => (hkeys k).1, ?_, hfinds _ (by decide)⟩
  rw [(hkeys (.ofNat 2)).2.2.2, hreaders]

end LockState

end Hypergrid
