import Hypergrid.AccountsDb
import Hypergrid.Lib.GuardedRun

/-!
# Freshness of migrated accounts

A remote account lives in two places: in the map of the remote loader, and in the
dummy slot-0 cache that the first load fills.  Migrations, deactivations and
reloads touch the first only.

The machine of this module runs migrations, deactivations, base-layer reloads and
loads in any order, and keeps the history of what `load_account_via_rpc` fetched.
`Fresh` says that a load returns the version fetched last.
`staysFresh_iff_guarded` says exactly when a run stays fresh: whenever a version of
the key is fetched, it has lamports, and the slot-0 cache has no copy of the key or
the same one.
-/

namespace Hypergrid
open List Option
open RemoteAccountLoader AccountsDb

namespace Freshness
open Machine

/-- The database, and all versions fetched so far, the newest last. -/
structure State where
  db : AccountsDb
  fetches : List (Pubkey × AccountSharedData)

inductive Event where
  | migrate (k : Pubkey) (answers : List (Option RpcAccount))
  | deactivate (k : Pubkey)
  | reload (programId account : Pubkey) (value : Nat) (accepted : Bool)
      (answer : Option RpcAccount)
  | load (q : LoadQuery)

/-- The versions that an event fetches through `load_account_via_rpc`. -/
def inserted (s : State) : Event → List (Pubkey × AccountSharedData)
  | .migrate k answers =>
    if s.db.remoteLoader.enable then RemoteAccountLoader.fetched k answers else []
  | .reload _ account _ accepted answer =>
    match accepted, RemoteAccountLoader.ignoredAccount account, answer with
    | true, false, some r => [(account, RemoteAccountLoader.remoteAccount r)]
    | _, _, _ => []
  | _ => []

def step (s : State) (e : Event) : Option State :=
  let fetches := s.fetches ++ inserted s e
  match e with
  | .migrate k answers =>
    some {
      db := s.db.withAccountsCache
        (s.db.accountsCache.loadAccountsFromRemote (fun _ => answers) [k])
      fetches }
  | .deactivate k =>
    some {
      db := s.db.withAccountsCache (s.db.accountsCache.deactivateRemoteAccounts [k])
      fetches }
  | .reload programId account value accepted answer =>
    some {
      db := s.db.withRemoteLoader
        (s.db.remoteLoader.sendStatusToBaselayer programId account value accepted
          answer).1
      fetches }
  | .load q => some { db := (s.db.doLoad q).1, fetches }

def latest (fetches : List (Pubkey × AccountSharedData)) (k : Pubkey) :
    Option AccountSharedData :=
  (fetches.reverse.find? (fun x => x.1 = k)).map Prod.snd

/-- A load of an active remote key returns the version fetched last. -/
def Fresh (k : Pubkey) (s : State) : Prop :=
  ∀ v, latest s.fetches k = some v →
    s.db.remoteLoader.hasAccount k = true →
    ∀ q : LoadQuery, q.pubkey = k → 1 < q.ancestors.card →
      (s.db.doLoad q).2 = .ok (some (v, 0))

/-- A fetched version has lamports, and the slot-0 cache has no other copy. -/
def FetchOk (k : Pubkey) (s : State) (e : Event) : Prop :=
  ∀ v, latest (inserted s e) k = some v →
    v.lamports ≠ 0 ∧ ∀ w, s.db.accountsCache.holds 0 k = some w → w = v

/-- What every event keeps. -/
structure Inv (k : Pubkey) (s : State) : Prop where
  wellFormed : s.db.WellFormed
  enable : s.db.remoteLoader.enable = true
  noEntry : s.db.accountsIndex.slotList k = []
  fetched : ∀ v, s.db.remoteLoader.accountCache k = some v →
    latest s.fetches k = some v

theorem latest_append (xs ys : List (Pubkey × AccountSharedData)) (k : Pubkey) :
    latest (xs ++ ys) k = (latest ys k).or (latest xs k) := by
  unfold latest
  rw [reverse_append, find?_append]
  cases ys.reverse.find? (fun x => x.1 = k) <;> rfl

section Invariant
variable {k : Pubkey} {s s' : State} {e : Event}

theorem hasAccount_iff (l : RemoteAccountLoader) (henable : l.enable = true) :
    l.hasAccount k = true ↔ ignoredAccount k = false ∧ (l.accountCache k).isSome = true := by
  unfold hasAccount
  cases ignoredAccount k <;> simp [henable]

theorem doLoad_of_noEntry
    (h : Inv k s)
    (hhas : s.db.remoteLoader.hasAccount k = true)
    (q : LoadQuery)
    (hq : q.pubkey = k)
    (hcard : 1 < q.ancestors.card) :
    (s.db.doLoad q).2 =
      .ok ((((s.db.accountsCache.holds 0 k).or (s.db.remoteLoader.accountCache k)).map
        (fun a => (a, 0))).filter (fun x => !x.1.isZeroLamport)) := by
  have hget : s.db.accountsIndex.get k q.ancestors none = none := by
    rw [AccountsIndex.get_eq_none_iff, h.noEntry]
    simp
  have hloader : s.db.remoteLoader.getAccount k = s.db.remoteLoader.accountCache k := by
    obtain ⟨hig, _⟩ := (hasAccount_iff _ h.enable).mp hhas
    simp [getAccount, h.enable, hig]
  rw [(doLoad_spec _ _ h.wellFormed.toCoherent).1, hq]
  simp [visible, hget, hcard, remoteCopy, hhas, hloader]

theorem fresh_iff (h : Inv k s) :
    Fresh k s ↔ ∀ v, s.db.remoteLoader.accountCache k = some v → ignoredAccount k = false →
        v.lamports ≠ 0 ∧ ∀ w, s.db.accountsCache.holds 0 k = some w → w = v := by
  constructor
  · intro hfresh v hv hig
    have hhas : s.db.remoteLoader.hasAccount k = true :=
      (hasAccount_iff _ h.enable).mpr ⟨hig, by simp [hv]⟩
    have hload := hfresh v (h.fetched v hv) hhas
      { ancestors := {0, 1}, pubkey := k, loadHint := .fixedMaxRoot } rfl (by simp)
    rw [doLoad_of_noEntry h hhas _ rfl (by simp), hv] at hload
    cases hc : s.db.accountsCache.holds 0 k with
    | none =>
      simp only [hc, none_or, map_some, Except.ok.injEq, filter_eq_some_iff] at hload
      refine ⟨?_, by simp⟩
      simpa [AccountSharedData.isZeroLamport] using hload.2
    | some w =>
      simp only [hc, some_or, map_some, Except.ok.injEq,
        filter_eq_some_iff, some.injEq, Prod.mk.injEq, and_true] at hload
      obtain ⟨rfl, hz⟩ := hload
      exact ⟨by simpa [AccountSharedData.isZeroLamport] using hz, by simp⟩
  · intro hcond v hv hhas q hq hcard
    obtain ⟨hig, hsome⟩ := (hasAccount_iff _ h.enable).mp hhas
    obtain ⟨u, hu⟩ := isSome_iff_exists.mp hsome
    have huv : u = v := some.inj ((h.fetched u hu).symm.trans hv)
    subst huv
    obtain ⟨hz, hcopy⟩ := hcond u hu hig
    rw [doLoad_of_noEntry h hhas q hq hcard, hu]
    have hsel : (s.db.accountsCache.holds 0 k).or (some u) = some u := by
      cases hc : s.db.accountsCache.holds 0 k with
      | none => rfl
      | some w => rw [hcopy w hc]; rfl
    rw [hsel]
    simp [AccountSharedData.isZeroLamport, hz]

/-- What one event does to the two caches of a key. -/
structure Effect (k : Pubkey) (s : State) (e : Event) (s' : State) : Prop where
  fetches : s'.fetches = s.fetches ++ inserted s e
  wellFormed : s'.db.WellFormed
  enable : s'.db.remoteLoader.enable = true
  noEntry : s'.db.accountsIndex.slotList k = []
  insertedLast : ∀ v, latest (inserted s e) k = some v →
    s'.db.remoteLoader.accountCache k = some v
  notInserted : latest (inserted s e) k = none →
    s'.db.remoteLoader.accountCache k = s.db.remoteLoader.accountCache k ∨
      s'.db.remoteLoader.accountCache k = none
  slotZero :
    s'.db.accountsCache.holds 0 k = s.db.accountsCache.holds 0 k ∨
      (inserted s e = [] ∧ s'.db.remoteLoader = s.db.remoteLoader ∧
        s'.db.accountsCache.holds 0 k = s.db.remoteLoader.accountCache k)

theorem effect_insertAll (h : Inv k s)
    (hdb : s'.db = s.db.withRemoteLoader (s.db.remoteLoader.insertAll (inserted s e)))
    (hf : s'.fetches = s.fetches ++ inserted s e) :
    Effect k s e s' where
  fetches := hf
  wellFormed := by
    rw [hdb]
    exact h.wellFormed.withRemoteLoader _
  enable := by
    rw [hdb]
    simpa using h.enable
  noEntry := by
    rw [hdb]
    exact h.noEntry
  insertedLast := by
    intro v hv
    rw [hdb]
    simp only [withRemoteLoader_remoteLoader, insertAll_accountCache]
    unfold latest at hv
    rw [hv]
    rfl
  notInserted := by
    intro hv
    left
    rw [hdb]
    simp only [withRemoteLoader_remoteLoader, insertAll_accountCache]
    unfold latest at hv
    rw [hv]
    rfl
  slotZero := by
    left
    rw [hdb]
    rfl

theorem effect_load (h : Inv k s) (q : LoadQuery) (hs : step s (.load q) = some s') :
    Effect k s (.load q) s' := by
  simp only [step, some.injEq] at hs
  subst hs
  have hins : inserted s (.load q) = [] := rfl
  have hwf := h.wellFormed.doLoad q
  have hsame {db : AccountsDb} (hdb : (s.db.doLoad q).1 = db)
      (hindex : db.accountsIndex = s.db.accountsIndex)
      (hcache : db.accountsCache = s.db.accountsCache) :
      Effect k s (.load q)
        { db := (s.db.doLoad q).1, fetches := s.fetches ++ inserted s (.load q) } := {
    fetches := rfl
    wellFormed := hwf
    enable := by rw [hdb, remoteLoader, hcache]; exact h.enable
    noEntry := by rw [hdb, hindex]; exact h.noEntry
    insertedLast := by simp [hins, latest]
    notInserted := by rw [hdb, remoteLoader, hcache]; exact fun _ => .inl rfl
    slotZero := by rw [hdb, hcache]; exact .inl rfl }
  rcases (doLoad_spec s.db q h.wellFormed.toCoherent).2 with
    hdb | ⟨slot, info, a, _, _, _, hdb⟩
  · have hcases : s.db.afterFind q.ancestors q.pubkey = s.db ∨
        (s.db.remoteLoader.hasAccount q.pubkey = true ∧ s.db.afterFind q.ancestors q.pubkey =
            s.db.withAccountsCache (s.db.accountsCache.load 0 q.pubkey).1) := by
      unfold afterFind
      split
      · exact .inl rfl
      · split_ifs with hc
        · exact .inr ⟨hc.2, rfl⟩
        · exact .inl rfl
    rcases hcases with heq | ⟨hhas, heq⟩
    · exact hsame (hdb.trans heq) rfl rfl
    · rw [heq] at hdb
      refine {
        fetches := rfl
        wellFormed := hwf
        enable := by rw [hdb]; simpa using h.enable
        noEntry := by rw [hdb]; exact h.noEntry
        insertedLast := by simp [hins, latest]
        notInserted := by rw [hdb]; simp
        slotZero := ?_ }
      rw [hdb]
      simp only [withAccountsCache_accountsCache, AccountsCache.holds_load,
        withAccountsCache_remoteLoader, AccountsCache.load_remoteLoader, true_and]
      by_cases hk : k = q.pubkey
      · subst hk
        rw [if_pos rfl, AccountsCache.load_snd]
        cases hc : s.db.accountsCache.holds 0 q.pubkey with
        | some w => exact .inl rfl
        | none =>
          right
          obtain ⟨hig, _⟩ := (hasAccount_iff _ h.enable).mp hhas
          refine ⟨hins, ?_⟩
          simp [getAccount, h.enable, hig]
      · rw [if_neg hk]
        exact .inl rfl
  · exact hsame hdb rfl rfl

theorem step_effect (h : Inv k s) (hs : step s e = some s') : Effect k s e s' := by
  cases e with
  | load q => exact effect_load h q hs
  | migrate j answers =>
    simp only [step, some.injEq] at hs
    subst hs
    refine effect_insertAll h ?_ rfl
    simp [inserted, h.enable, withRemoteLoader, AccountsCache.loadAccountsFromRemote, foldl_cons,
      foldl_nil, loadAccount_eq_insertAll _ h.enable]
  | reload programId account value accepted answer =>
    simp only [step, some.injEq] at hs
    subst hs
    refine effect_insertAll h ?_ rfl
    cases accepted <;> cases hig : ignoredAccount account <;>
      cases answer <;>
      simp [inserted, sendStatusToBaselayer, loadAccountViaRpc, insertAll, hig]
  | deactivate j =>
    simp only [step, some.injEq] at hs
    subst hs
    have hdb : s.db.withAccountsCache (s.db.accountsCache.deactivateRemoteAccounts [j]) =
        s.db.withRemoteLoader (s.db.remoteLoader.removeAll
          (deactivated s.db.remoteLoader j)) := by
      simp [AccountsCache.deactivateRemoteAccounts, foldl_cons, foldl_nil,
        deactivateAccount_eq_removeAll, withRemoteLoader]
    simp only [hdb]
    exact {
      fetches := rfl
      wellFormed := h.wellFormed.withRemoteLoader _
      enable := by simpa using h.enable
      noEntry := h.noEntry
      insertedLast := by simp [inserted, latest]
      notInserted := by
        intro _
        simp only [withRemoteLoader_remoteLoader, removeAll_accountCache]
        split_ifs
        · exact .inr rfl
        · exact .inl rfl
      slotZero := .inl rfl }

theorem inv_step (h : Inv k s) (hs : step s e = some s') : Inv k s' := by
  have he := step_effect h hs
  refine ⟨he.wellFormed, he.enable, he.noEntry, ?_⟩
  intro v hv
  rw [he.fetches, latest_append]
  cases hl : latest (inserted s e) k with
  | some w =>
    rw [he.insertedLast w hl] at hv
    simpa using hv
  | none =>
    rcases he.notInserted hl with hsame | hnone
    · rw [hsame] at hv
      simpa using h.fetched v hv
    · rw [hnone] at hv
      cases hv

theorem mem_of_latest {xs : List (Pubkey × AccountSharedData)} {v : AccountSharedData}
    (h : latest xs k = some v) : (k, v) ∈ xs := by
  simp only [latest, map_eq_some_iff] at h
  obtain ⟨x, hx, rfl⟩ := h
  have hmem := mem_of_find?_eq_some hx
  have hkey : x.1 = k := by simpa using find?_some hx
  rw [← hkey]
  exact mem_reverse.mp hmem

/-- Ignored keys are never fetched, and what is fetched is marked remote. -/
theorem of_mem_inserted {v : AccountSharedData} (h : (k, v) ∈ inserted s e) :
    ignoredAccount k = false ∧ v.remote = true := by
  cases e with
  | migrate j answers =>
    simp only [inserted] at h
    split_ifs at h
    · exact of_mem_fetched h
    · cases h
  | reload programId account value accepted answer =>
    simp only [inserted] at h
    split at h
    · rename_i hig
      simp only [mem_singleton, Prod.mk.injEq] at h
      obtain ⟨rfl, rfl⟩ := h
      exact ⟨hig, remoteAccount_remote _⟩
    · cases h
  | deactivate j => cases h
  | load q => cases h

/-- From a fresh state, a step leads to a fresh state exactly if its fetch is in order. -/
theorem fresh_step (h : Inv k s) (hfresh : Fresh k s) (hs : step s e = some s') :
    Fresh k s' ↔ FetchOk k s e := by
  have he := step_effect h hs
  have h' := inv_step h hs
  rw [fresh_iff h] at hfresh
  rw [fresh_iff h']
  unfold FetchOk
  cases hl : latest (inserted s e) k with
  | some v =>
    have hins : inserted s e ≠ [] := by
      intro hnil
      simp [hnil, latest] at hl
    have hcache : s'.db.accountsCache.holds 0 k = s.db.accountsCache.holds 0 k := by
      rcases he.slotZero with heq | ⟨hnil, _⟩
      · exact heq
      · exact absurd hnil hins
    have hnow := he.insertedLast v hl
    have hig : ignoredAccount k = false := (of_mem_inserted (mem_of_latest hl)).1
    rw [hcache]
    constructor
    · intro hcond u hu
      rw [some.injEq] at hu
      subst hu
      exact hcond v hnow hig
    · intro hcond u hu _
      rw [hnow] at hu
      exact hcond u hu
  | none =>
    refine ⟨fun _ v hv => (by cases hv), ?_⟩
    intro _ v hv hig
    have hold : s.db.remoteLoader.accountCache k = some v := by
      rcases he.notInserted hl with hsame | hnone
      · rw [← hsame]; exact hv
      · rw [hnone] at hv; cases hv
    obtain ⟨hz, hcopy⟩ := hfresh v hold hig
    refine ⟨hz, ?_⟩
    intro w hw
    rcases he.slotZero with heq | ⟨_, _, heq⟩
    · rw [heq] at hw
      exact hcopy w hw
    · rw [heq, hold] at hw
      exact (some.inj hw).symm

end Invariant

def start (db : AccountsDb) : State := { db, fetches := [] }

/-- A run from a database without migrated accounts stays fresh for a key without an
index entry exactly if every fetch of the key is in order. -/
theorem staysFresh_iff_guarded
    (config : Config)
    (k : Pubkey)
    (db : AccountsDb)
    (hwf : db.WellFormed)
    (hloader : db.remoteLoader = RemoteAccountLoader.new config)
    (hindex : db.accountsIndex.slotList k = [])
    {es : List Event} {t : State}
    (hrun : Run step (start db) es t) :
    StaysGood step (Fresh k) (start db) es ↔
      GuardedRun step (FetchOk k) (start db) es t := by
  have hinv : Inv k (start db) := by
    refine ⟨hwf, ?_, hindex, ?_⟩
    · simp [start, hloader, RemoteAccountLoader.new]
    · intro v hv
      simp [start, hloader, RemoteAccountLoader.new] at hv
  have hfresh : Fresh k (start db) := by
    intro v hv
    simp [start, latest] at hv
  exact staysGood_iff_guardedRun
    (fun s e s' h _ hs => inv_step h hs)
    (fun s e s' h hf hs => fresh_step h hf hs)
    hrun hinv hfresh

def exampleKey : Pubkey := .ofNat (7 ^ 90)

def exampleRpc (value : UInt8) : RpcAccount :=
  { lamports := 10, data := [value], owner := exampleKey, executable := false,
    rentEpoch := 0 }

def exampleDb : AccountsDb :=
  AccountsDb.new { sonicProgramId := exampleKey.toString } {0}

def exampleQuery : LoadQuery :=
  { ancestors := {0, 1}, pubkey := exampleKey, loadHint := .fixedMaxRoot }

def exampleEvents : List Event :=
  [.migrate exampleKey [some (exampleRpc 1)], .load exampleQuery]

def exampleEnd (es : List Event) : State :=
  (exec step (start exampleDb) es).getD (start exampleDb)

/-- A first migration meets the condition, so the run with it stays fresh. -/
theorem staysFresh_first_migrate :
    StaysGood step (Fresh exampleKey) (start exampleDb) exampleEvents := by
  have hrun : Run step (start exampleDb) exampleEvents (exampleEnd exampleEvents) :=
    (run_iff_exec step).mpr rfl
  refine (staysFresh_iff_guarded _ exampleKey exampleDb
    (.new _ _ (by decide)) rfl rfl hrun).mpr ?_
  refine .cons ?_ rfl (.cons ?_ rfl (.nil _))
  · intro v hv
    have hv' : some (remoteAccount (exampleRpc 1)) = some v := by
      rw [← hv]
      decide
    rw [some.injEq] at hv'
    subst hv'
    refine ⟨by decide, ?_⟩
    intro w hw
    have hnone : exampleDb.accountsCache.holds 0 exampleKey = none := by decide
    exact absurd (hw.symm.trans hnone) (by simp)
  · intro v hv
    simp [inserted, latest] at hv

/-- After a migration, a load and a second migration, a load returns the first version. -/
theorem stale_after_second_migrate :
    let es := exampleEvents ++ [.migrate exampleKey [some (exampleRpc 2)]]
    Run step (start exampleDb) es (exampleEnd es) ∧
      latest (exampleEnd es).fetches exampleKey =
        some (remoteAccount (exampleRpc 2)) ∧
      ((exampleEnd es).db.doLoad exampleQuery).2 =
        .ok (some (remoteAccount (exampleRpc 1), 0)) ∧
      ¬ Fresh exampleKey (exampleEnd es) := by
  intro es
  have hload : ((exampleEnd es).db.doLoad exampleQuery).2 =
      .ok (some (remoteAccount (exampleRpc 1), 0)) := by
    decide
  have hlatest : latest (exampleEnd es).fetches exampleKey =
      some (remoteAccount (exampleRpc 2)) := by
    decide
  refine ⟨(run_iff_exec step).mpr rfl, hlatest, hload, ?_⟩
  intro hfresh
  have hnew := hfresh _ hlatest (by decide) exampleQuery rfl (by decide)
  revert hnew
  decide

end Freshness
end Hypergrid
