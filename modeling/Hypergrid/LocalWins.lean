import Hypergrid.ReaderFlush

/-!
# Local state against remote state

`staysLocal_iff_guarded` : beside flushes and remote cache changes, the load of a key
with a visible index entry returns the local version, as it was stored or as a storage
keeps it, exactly if, whenever its write cache read has missed, the remote loader has no
copy that differs from the local version.
-/

namespace Hypergrid
namespace ReaderFlush
open Machine Option AccountsDb

section Local
variable {q : LoadQuery} {s s' : State} {slot₀ : Slot} {v : AccountSharedData}

/-- What `do_load` shows of a version: nothing if it has no lamports. -/
def shown (a : AccountSharedData) : Option AccountSharedData :=
  if a.isZeroLamport then none else some a

/-- An account shows as the local version `v`, with the `remote` flag of `v` or, after a flush,
without it, since storages do not keep the flag. -/
def Shows (v a : AccountSharedData) : Prop :=
  shown a = shown v ∨ shown a = shown (AccountSharedData.fromStored v)

/-- The load, if it is over, returned the local version `v` of slot `slot₀`. -/
def LocalWins (v : AccountSharedData) (slot₀ : Slot) (s : State) : Prop :=
  ∀ r, AccountsDb.loadResult s.reader = some r →
    r = (shown v).map (fun a => (a, slot₀)) ∨
      r = (shown (AccountSharedData.fromStored v)).map (fun a => (a, slot₀))

/-- When the write cache read has missed, the remote loader has no other version. -/
def FallbackOk (q : LoadQuery) (v : AccountSharedData) (s : State) (e : Event) : Prop :=
  e = .reader →
    ∀ slot failed c, s.reader = .remote slot failed →
      s.db.remoteLoader.getAccount q.pubkey = some c →
      Shows v c

/-- The load is about to look into the write cache. -/
def readsCache : Reader → Option Slot
  | .indexed slot .cached => some slot
  | .access slot .cached _ => some slot
  | _ => none

/-- The index entry leads to the local version, and so does the write cache while the
load is about to look there. -/
structure LocalInv (q : LoadQuery) (slot₀ : Slot) (v : AccountSharedData)
    (s : State) : Prop where
  inv : Inv q s
  entry : ∃ info a,
    s.db.accountsIndex.get q.pubkey q.ancestors none = some (slot₀, info) ∧
      s.db.resolve slot₀ q.pubkey info.storageLocation = some a ∧ Shows v a
  copy : ∀ slot, readsCache s.reader = some slot →
    ∀ a, s.db.accountsCache.holds slot q.pubkey = some a → Shows v a

theorem shown_stored (a : AccountSharedData) :
    shown (AccountSharedData.fromStored (accountDefaultIfZeroLamport a)) =
      (shown a).map AccountSharedData.fromStored := by
  unfold shown accountDefaultIfZeroLamport
  by_cases hz : a.isZeroLamport = true
  · simp only [hz, if_true]
    rfl
  · simp [hz]

theorem map_fromStored_shown (a : AccountSharedData) :
    (shown a).map AccountSharedData.fromStored = shown (AccountSharedData.fromStored a) := by
  unfold shown
  rw [AccountSharedData.isZeroLamport_fromStored]
  split_ifs <;> rfl

/-- A storage keeps the version. -/
theorem Shows.stored {a : AccountSharedData} (h : Shows v a) :
    Shows v (AccountSharedData.fromStored (accountDefaultIfZeroLamport a)) := by
  refine .inr ?_
  rw [shown_stored]
  rcases h with h | h
  · rw [h, map_fromStored_shown]
  · rw [h, map_fromStored_shown, AccountSharedData.fromStored_fromStored]

theorem localWins_found {a : AccountSharedData} {src : AccountSource}
    (hr : s.reader = .found a slot₀ src) : LocalWins v slot₀ s ↔ Shows v a := by
  have hpair : Function.Injective (fun b : AccountSharedData => (b, slot₀)) :=
    fun _ _ h => (Prod.mk.injEq .. ▸ h).1
  have hres : (if a.isZeroLamport then none else some (a, slot₀)) =
      (shown a).map (fun b => (b, slot₀)) := by
    unfold shown
    split_ifs <;> rfl
  unfold LocalWins Shows
  simp only [hr, loadResult, some.injEq, forall_eq']
  rw [hres, (map_injective hpair).eq_iff, (map_injective hpair).eq_iff]

theorem localWins_of_running (hr : loadResult s.reader = none) : LocalWins v slot₀ s := by
  intro r h
  rw [hr] at h
  cases h

theorem seen_slot {db : AccountsDb} {info : AccountInfo} {slot : Slot} {loc : StorageLocation}
    (hget : db.accountsIndex.get q.pubkey q.ancestors none = some (slot₀, info))
    (h : Seen q db slot loc) :
    slot = slot₀ ∧
      (info.storageLocation = loc ∨ loc = .cached ∧ info.storageLocation.isCached = false) := by
  rcases h with ⟨info', hg, hloc⟩ | ⟨_, _, hg⟩
  · rw [hget, some.injEq, Prod.mk.injEq] at hg
    obtain ⟨rfl, rfl⟩ := hg
    exact ⟨rfl, hloc⟩
  · rw [hget] at hg
    cases hg

theorem localInv_env {e : Event} (h : LocalInv q slot₀ v s) (he : e ≠ .reader)
    (hs : step q s e = some s') : LocalInv q slot₀ v s' := by
  have henv := env_step q h.inv.inOrder he hs
  refine ⟨inv_step h.inv hs, ?_, ?_⟩
  · obtain ⟨info, a, hget, hres, hshown⟩ := h.entry
    cases henv.moves with
    | same hget' hres' =>
      exact ⟨info, a, hget'.trans hget, (hres' _ _ hget).trans hres, hshown⟩
    | flushed slot info₁ info₂ b hg hcached hholds hget' hstored hres' =>
      rw [hget, some.injEq, Prod.mk.injEq] at hg
      obtain ⟨rfl, rfl⟩ := hg
      rw [hcached] at hres
      have hab : b = a := some.inj (hholds.symm.trans hres)
      exact ⟨info₂, _, hget', hres', (hab ▸ hshown).stored⟩
    | dummy info₁ hg hget' hstored =>
      rw [hget] at hg
      cases hg
  · intro slot hslot a ha
    rw [henv.reader] at hslot
    rcases henv.holds slot with heq | heq
    · exact h.copy slot hslot a (heq ▸ ha)
    · rw [heq] at ha
      cases ha

/-- What a step of the load does to the local version, and what it returns. -/
theorem localInv_reader (h : LocalInv q slot₀ v s) (hs : step q s .reader = some s') :
    LocalInv q slot₀ v s' ∧
      (LocalWins v slot₀ s → (LocalWins v slot₀ s' ↔ FallbackOk q v s .reader)) := by
  have hmove := reader_move h.inv
  have hinv := inv_step h.inv hs
  have hr := h.inv.reader
  have hcopy := h.copy
  have hentry := h.entry
  obtain ⟨info, a₀, hget₀, hres₀, hshown₀⟩ := h.entry
  simp only [step, some.injEq] at hs
  subst hs
  generalize q.step s.db s.reader = next at hmove hinv ⊢
  obtain ⟨db', r'⟩ := next
  dsimp only at hmove hinv ⊢
  have hidle (hne : ∀ slot failed, s.reader ≠ .remote slot failed) :
      FallbackOk q v s .reader := fun _ slot failed c hrem => absurd hrem (hne slot failed)
  have hfound {a : AccountSharedData} {slot : Slot} {src : AccountSource}
      (hslot : slot = slot₀) (hr' : r' = .found a slot src) :
      LocalWins v slot₀ { s with db := db', reader := r' } ↔ Shows v a := by
    subst hslot
    exact localWins_found (by simpa using hr')
  generalize hreader : s.reader = r at hmove hr hcopy
  cases hmove with
  | start slot info₁ hget =>
    rw [hget₀, some.injEq, Prod.mk.injEq] at hget
    obtain ⟨rfl, rfl⟩ := hget
    refine ⟨⟨hinv, hentry, ?_⟩, fun _ => iff_of_true
      (localWins_of_running rfl) (hidle (by simp [hreader]))⟩
    intro slot hslot a ha
    cases hloc : info.storageLocation with
    | appendVec id offset => simp [readsCache, hloc] at hslot
    | cached =>
      simp only [readsCache, hloc, some.injEq] at hslot
      subst hslot
      rw [hloc] at hres₀
      rwa [some.inj (ha.symm.trans hres₀)]
  | startDummy hget hcard hhas =>
    rw [hget₀] at hget
    cases hget
  | startMissing hget =>
    rw [hget₀] at hget
    cases hget
  | readOnly slot loc a hloc hres =>
    obtain ⟨hslot, heq | ⟨rfl, _⟩⟩ := seen_slot hget₀ hr
    · subst hslot
      rw [← heq, hres₀, some.injEq] at hres
      subst hres
      refine ⟨⟨hinv, hentry, by simp [readsCache]⟩, fun _ => ?_⟩
      exact iff_of_true ((hfound rfl rfl).mpr hshown₀) (hidle (by simp [hreader]))
    · simp [StorageLocation.isCached] at hloc
  | access slot loc =>
    refine ⟨⟨hinv, hentry, ?_⟩, fun _ => iff_of_true
      (localWins_of_running rfl) (hidle (by simp [hreader]))⟩
    intro slot' hslot' a ha
    refine hcopy slot' ?_ a ha
    cases loc with
    | cached => exact hslot'
    | appendVec id offset => simp [readsCache] at hslot'
  | hit slot loc failed a src hres =>
    obtain ⟨hslot, hloc⟩ := seen_slot hget₀ hr.1
    have hshown : Shows v a := by
      rcases hloc with heq | ⟨rfl, _⟩
      · subst hslot
        rw [← heq, hres₀, some.injEq] at hres
        rwa [← hres]
      · exact hcopy slot rfl a hres
    refine ⟨⟨hinv, hentry, by simp [readsCache]⟩, fun _ => ?_⟩
    exact iff_of_true ((hfound hslot rfl).mpr hshown) (hidle (by simp [hreader]))
  | miss slot hnone =>
    exact ⟨⟨hinv, hentry, by simp [readsCache]⟩,
      fun _ => iff_of_true (localWins_of_running rfl) (hidle (by simp [hreader]))⟩
  | fallback slot a hremote =>
    obtain ⟨hseen, _, hnone⟩ := hr
    obtain ⟨hslot, _⟩ := seen_slot hget₀ hseen
    refine ⟨⟨hinv, ⟨info, a₀, hget₀, ?_, hshown₀⟩, by simp [readsCache]⟩, fun _ => ?_⟩
    · refine resolve_mono ?_ ?_ hres₀
      · rfl
      · intro slot' k' b hb
        rw [withAccountsCache_accountsCache, AccountsCache.holds_store, if_neg]
        · exact hb
        · rintro ⟨rfl, rfl⟩
          rw [hnone] at hb
          cases hb
    · rw [hfound hslot rfl]
      constructor
      · intro hshown _ slot' failed c _ hc
        rw [hremote, some.injEq] at hc
        rwa [← hc]
      · intro hok
        exact hok rfl slot 0 a hreader hremote
  | failed slot hremote =>
    refine ⟨⟨hinv, hentry, by simp [readsCache]⟩,
      fun _ => iff_of_true (localWins_of_running rfl) ?_⟩
    intro _ slot' failed c _ hc
    rw [hremote] at hc
    cases hc
  | again slot info₁ hget hstored =>
    refine ⟨⟨hinv, hentry, ?_⟩, fun _ => iff_of_true
      (localWins_of_running rfl) (hidle (by simp [hreader]))⟩
    intro slot' hslot'
    cases hl : info₁.storageLocation with
    | cached => simp [hl, StorageLocation.isCached] at hstored
    | appendVec id offset => simp [readsCache, hl] at hslot'
  | gone slot hget hno =>
    rw [hget₀] at hget
    cases hget
  | panic hget hcard hhas =>
    rw [hget₀] at hget
    cases hget
  | finished r hfinal =>
    refine ⟨⟨hinv, hentry, ?_⟩, ?_⟩
    · exact hcopy
    · intro hwins
      refine iff_of_true ?_ (hidle ?_)
      · intro r₁ hr₁
        exact hwins r₁ (by rw [hreader]; exact hr₁)
      · intro slot failed hrem
        rw [← hreader, hrem] at hfinal
        cases hfinal

/-- In a run of one load with flushes and remote cache changes, the load of a key whose
index entry leads to `v` returns `v` exactly if every missed read is in order. -/
theorem staysLocal_iff_guarded
    (q : LoadQuery)
    (db : AccountsDb)
    (hwf : db.WellFormed)
    (slot₀ : Slot)
    (info : AccountInfo)
    (hget : db.accountsIndex.get q.pubkey q.ancestors none = some (slot₀, info))
    (v : AccountSharedData)
    (hv : db.resolve slot₀ q.pubkey info.storageLocation = some v)
    {es : List Event} {t : State}
    (hrun : Run (step q) (start db) es t) :
    StaysGood (step q) (LocalWins v slot₀) (start db) es ↔
      GuardedRun (step q) (FallbackOk q v) (start db) es t := by
  have hinv : LocalInv q slot₀ v (start db) :=
    ⟨inv_start hwf, ⟨info, v, hget, hv, .inl rfl⟩, by simp [start, readsCache]⟩
  refine staysGood_iff_guardedRun ?_ ?_ hrun hinv (localWins_of_running rfl)
  · intro s e s' h _ hs
    by_cases he : e = .reader
    · subst he
      exact (localInv_reader h hs).1
    · exact localInv_env h he hs
  · intro s e s' h hwins hs
    by_cases he : e = .reader
    · subst he
      exact (localInv_reader h hs).2 hwins
    · have henv := env_step q h.inv.inOrder he hs
      refine iff_of_true ?_ (fun hreader => absurd hreader he)
      intro r hr
      rw [henv.reader] at hr
      exact hwins r hr

/-- The remote loader does not have the key when the write cache read has missed. -/
def fallbackTest (q : LoadQuery) (s : State) : Event → Bool
  | .reader =>
    match s.reader with
    | .remote _ _ => (s.db.remoteLoader.getAccount q.pubkey).isNone
    | _ => true
  | _ => true

theorem fallbackOk_of_test (e : Event) (h : fallbackTest q s e = true) : FallbackOk q v s e := by
  intro he slot failed c hr hc
  simp [fallbackTest, he, hr, hc] at h

end Local

def localVersion : AccountSharedData :=
  AccountSharedData.create 5 [1] exampleKey false 0

def localDb : AccountsDb := emptyDb.storeCached 1 [(exampleKey, localVersion)]

/-- The flush of slot 1 between the index read and the write cache read of a load. -/
def flushRace : List Event :=
  [.reader, .reader, .flushCollect 1 [], .flushWrite 1, .flushIndex 1, .flushRemove 1,
    .reader, .reader]

/-- Without a remote copy, the load that lost the race with a flush tries again and
returns the local version. -/
theorem staysLocal_flushRace :
    StaysGood (step exampleQuery) (LocalWins localVersion 1) (start localDb)
      (flushRace ++ [.reader, .reader]) := by
  refine (staysLocal_iff_guarded exampleQuery localDb
    ((AccountsDb.WellFormed.new _ _ (by decide)).storeCached 1 _) 1 (AccountInfo.new .cached 5)
    (by decide) localVersion (by decide)
    ((run_iff_exec _).mpr rfl)).mpr ?_
  exact guardedRun_of_execChecked (fun s e => fallbackOk_of_test e) rfl

/-- With a remote copy, the same schedule ends with the copy of the remote loader. -/
theorem remoteCopy_returned_for_local :
    let es := .migrate exampleKey [some exampleRpc] :: flushRace
    Run (step exampleQuery) (start localDb) es (exampleEnd localDb es) ∧
      localDb.accountsIndex.get exampleKey {0, 1} none =
        some (1, AccountInfo.new .cached 5) ∧
      localDb.resolve 1 exampleKey .cached = some localVersion ∧
      AccountsDb.loadResult (exampleEnd localDb es).reader =
        some (some (RemoteAccountLoader.remoteAccount exampleRpc, 1)) ∧
      ¬ LocalWins localVersion 1 (exampleEnd localDb es) := by
  intro es
  have hres : loadResult (exampleEnd localDb es).reader =
      some (some (RemoteAccountLoader.remoteAccount exampleRpc, 1)) := by
    decide
  refine ⟨(run_iff_exec _).mpr rfl, by decide, by decide, hres, ?_⟩
  intro hwins
  have heq := hwins _ hres
  revert heq
  decide

end ReaderFlush
end Hypergrid
