import Hypergrid.AccountsDb
import Hypergrid.Lib.ReadM

/-!
# Reading accounts without interruption

The loads that a bank makes in one thread: `load_with_fixed_root`, and the look that
`account_matches_owners` takes.  Code that only reads accounts is written as a program of
`ReadM` over these two requests and is run on the database.

A read may put a copy of a remote account into the dummy slot cache, and a stored account
into the read-only cache, so it does change the database.  `CachedMore` says that nothing
else changes; then every account that a later read sees stays the same
(`CachedMore.visible`).  `runReads_spec` is the result of this module: on a well-formed
database a program returns what it returns over the fixed view `seen`.
-/

namespace Hypergrid
open AccountsDb

/-- The two ways in which a bank looks at an account. -/
inductive AccountRequest where
  /-- `load_with_fixed_root` -/
  | load (pubkey : Pubkey)
  /-- the account that `account_matches_owners` looks at -/
  | matchOwners (pubkey : Pubkey)
deriving DecidableEq

def AccountRequest.key : AccountRequest → Pubkey
  | load pubkey => pubkey
  | matchOwners pubkey => pubkey

abbrev Reads (α : Type) : Type := ReadM AccountRequest (Option AccountSharedData) α

def getAccountWithFixedRoot (pubkey : Pubkey) : Reads (Option AccountSharedData) :=
  ReadM.ask (.load pubkey)

/-- `account_matches_owners`, where an error is `none`. -/
def accountMatchesOwners (account : Pubkey) (owners : List Pubkey) : Reads (Option Nat) := do
  let a ← ReadM.ask (.matchOwners account)
  return a.bind (fun a => owners.findIdx? (fun owner => a.owner == owner))

namespace AccountsDb

/-- The account that a read of a bank with these ancestors sees. -/
def seen (db : AccountsDb) (ancestors : Finset Slot) (k : Pubkey) : Option AccountSharedData :=
  ((db.visible ancestors k).map Prod.fst).filter (fun a => !a.isZeroLamport)

/-- Answer a request.  The panics of a load need another thread (`doLoad_spec`). -/
def answer (ancestors : Finset Slot) (db : AccountsDb) :
    AccountRequest → AccountsDb × Option AccountSharedData
  | .load pubkey =>
    match db.doLoad { ancestors, pubkey, loadHint := .fixedMaxRoot } with
    | (db, .ok r) => (db, r.map Prod.fst)
    | (db, .error _) => (db, none)
  | .matchOwners pubkey =>
    match db.find { ancestors, pubkey, loadHint := .unspecified } with
    | (db, .found a _ _) => (db, if a.isZeroLamport then none else some a)
    | (db, _) => (db, none)

def runReads {α : Type} (ancestors : Finset Slot) (db : AccountsDb) (p : Reads α) :
    AccountsDb × α :=
  p.run (answer ancestors) db

/-- A database that has cached more accounts. -/
structure CachedMore (db db' : AccountsDb) : Prop where
  index : db'.accountsIndex = db.accountsIndex
  storage : db'.storage = db.storage
  loader : db'.remoteLoader = db.remoteLoader
  kept : ∀ slot k a, db.accountsCache.holds slot k = some a →
    db'.accountsCache.holds slot k = some a
  /-- only copies of the loader come in, and only into the dummy slot -/
  copied : ∀ slot k a, db'.accountsCache.holds slot k = some a →
    db.accountsCache.holds slot k = some a ∨
      slot = 0 ∧ db.remoteLoader.getAccount k = some a

variable {db db' db'' : AccountsDb}

theorem CachedMore.refl (db : AccountsDb) : CachedMore db db :=
  ⟨rfl, rfl, rfl, fun _ _ _ h => h, fun _ _ _ h => .inl h⟩

section CachedMore
variable (h : CachedMore db db')
include h

theorem CachedMore.trans (h' : CachedMore db' db'') : CachedMore db db'' where
  index := h'.index.trans h.index
  storage := h'.storage.trans h.storage
  loader := h'.loader.trans h.loader
  kept := fun slot k a ha => h'.kept slot k a (h.kept slot k a ha)
  copied := by
    intro slot k a ha
    rcases h'.copied slot k a ha with hmid | ⟨hslot, hget⟩
    · exact h.copied slot k a hmid
    · rw [h.loader] at hget
      exact .inr ⟨hslot, hget⟩

theorem CachedMore.remoteCopy (k : Pubkey) : db'.remoteCopy k = db.remoteCopy k := by
  unfold AccountsDb.remoteCopy
  rw [h.loader]
  split_ifs
  · cases hold : db.accountsCache.holds 0 k with
    | some a => rw [h.kept 0 k a hold]
    | none =>
      cases hnew : db'.accountsCache.holds 0 k with
      | none => rfl
      | some a =>
        rcases h.copied 0 k a hnew with hold' | ⟨_, hget⟩
        · rw [hold] at hold'
          cases hold'
        · rw [hget]
          rfl
  · rfl

theorem CachedMore.visible (hwf : db.WellFormed) (ancestors : Finset Slot) (k : Pubkey) :
    db'.visible ancestors k = db.visible ancestors k := by
  unfold AccountsDb.visible
  rw [h.index]
  cases hget : db.accountsIndex.get k ancestors none with
  | none => simp only [h.remoteCopy]
  | some e =>
    obtain ⟨a, ha⟩ := Option.isSome_iff_exists.mp
      (hwf.resolves k _ (AccountsIndex.get_eq_some hget).1)
    dsimp only at ha ⊢
    rw [ha, resolve_mono h.storage h.kept ha]

theorem CachedMore.seen (hwf : db.WellFormed) (ancestors : Finset Slot) (k : Pubkey) :
    db'.seen ancestors k = db.seen ancestors k := by
  rw [AccountsDb.seen, h.visible hwf, AccountsDb.seen]

end CachedMore

theorem cachedMore_afterFind (db : AccountsDb) (ancestors : Finset Slot) (k : Pubkey) :
    CachedMore db (db.afterFind ancestors k) := by
  unfold AccountsDb.afterFind
  split
  · exact .refl db
  · split_ifs
    · refine ⟨rfl, rfl, AccountsCache.load_remoteLoader _ _ _,
        fun slot k' a ha => holds_load_of_some _ 0 k ha, ?_⟩
      intro slot k' a ha
      rw [withAccountsCache_accountsCache, AccountsCache.holds_load] at ha
      split_ifs at ha with heq
      · obtain ⟨rfl, rfl⟩ := heq
        rw [AccountsCache.load_snd, Option.or_eq_some_iff] at ha
        rcases ha with hheld | ⟨_, hget⟩
        · exact .inl hheld
        · exact .inr ⟨rfl, hget⟩
      · exact .inl ha
    · exact .refl db

variable (hwf : db.WellFormed)
include hwf

theorem cachedMore_doLoad (q : LoadQuery) : CachedMore db (db.doLoad q).1 := by
  rcases (doLoad_spec db q hwf.toCoherent).2 with h | ⟨slot, info, a, _, _, _, h⟩
  · rw [h]
    exact cachedMore_afterFind db q.ancestors q.pubkey
  · rw [h]
    exact ⟨rfl, rfl, rfl, fun _ _ _ h => h, fun _ _ _ h => .inl h⟩

theorem answer_spec (ancestors : Finset Slot) (r : AccountRequest) :
    (db.answer ancestors r).1.WellFormed ∧ CachedMore db (db.answer ancestors r).1 ∧
      (db.answer ancestors r).2 = db.seen ancestors r.key := by
  cases r with
  | load k =>
    have hwf' := hwf.doLoad { ancestors, pubkey := k, loadHint := .fixedMaxRoot }
    have hmore := cachedMore_doLoad hwf { ancestors, pubkey := k, loadHint := .fixedMaxRoot }
    have hsnd := (doLoad_spec db { ancestors, pubkey := k, loadHint := .fixedMaxRoot }
      hwf.toCoherent).1
    unfold answer
    dsimp only
    generalize db.doLoad { ancestors, pubkey := k, loadHint := .fixedMaxRoot } = res
      at hwf' hmore hsnd
    obtain ⟨db', r⟩ := res
    subst hsnd
    refine ⟨hwf', hmore, ?_⟩
    rw [seen, Option.filter_map]
    rfl
  | matchOwners k =>
    obtain ⟨hst, hres⟩ :=
      find_eq_visible { ancestors, pubkey := k, loadHint := .unspecified } db
        hwf.toCoherent
    unfold answer
    dsimp only
    generalize db.find { ancestors, pubkey := k, loadHint := .unspecified } = res at hst hres
    obtain ⟨db', r⟩ := res
    subst hst
    have hwf' := hwf.afterFind ancestors k
    have hmore := cachedMore_afterFind db ancestors k
    cases hv : db.visible ancestors k with
    | none =>
      rw [hv] at hres
      subst hres
      refine ⟨hwf', hmore, ?_⟩
      simp [seen, AccountRequest.key, hv]
    | some x =>
      rw [hv] at hres
      obtain ⟨src, rfl, _⟩ := hres
      refine ⟨hwf', hmore, ?_⟩
      cases hz : x.1.isZeroLamport <;>
        simp [seen, AccountRequest.key, hv, hz, Option.filter]

/-- A program that reads accounts returns what it returns over the view. -/
theorem runReads_spec {α : Type} (ancestors : Finset Slot) (p : Reads α) :
    (db.runReads ancestors p).1.WellFormed ∧ CachedMore db (db.runReads ancestors p).1 ∧
      (db.runReads ancestors p).2 = p.eval (fun r => db.seen ancestors r.key) := by
  have hsim := ReadM.run_of_view (fun s => CachedMore.refl s) (fun _ _ _ => CachedMore.trans)
    (fun (db : AccountsDb) r (hwf : db.WellFormed) => by
      obtain ⟨hwf', hmore, hans⟩ := answer_spec hwf ancestors r
      exact ⟨hwf', hmore, hans, fun r' => hmore.seen hwf ancestors r'.key⟩) p hwf
  exact ⟨hsim.1, hsim.2.1, hsim.2.2.1⟩

end AccountsDb
end Hypergrid
