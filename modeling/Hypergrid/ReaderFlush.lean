import Hypergrid.Flush

/-!
# A load never panics, and when it does

`ReaderMove` lists all that a step of a load can do beside flushes and remote cache
changes, and `reader_move` says that there is nothing else.  From it,
`staysSafe_iff_guarded`: the load never panics exactly if, whenever it reads the index
again and finds no entry, the remote loader does not have the key.
-/

namespace Hypergrid
namespace ReaderFlush
open Machine Option AccountsDb StorageLocation AccountsIndex

/-- The location that the load has read is the one in the index, or the slot was
flushed since, or it is the dummy location of a key without an entry. -/
def Seen (q : LoadQuery) (db : AccountsDb) (slot : Slot) (loc : StorageLocation) : Prop :=
  (∃ info, db.accountsIndex.get q.pubkey q.ancestors none = some (slot, info) ∧
    (info.storageLocation = loc ∨
      loc = .cached ∧ info.storageLocation.isCached = false)) ∨
    (slot = 0 ∧ loc = .cached ∧
      db.accountsIndex.get q.pubkey q.ancestors none = none)

/-- What holds of the load in each of its control states. -/
def ReaderOk (q : LoadQuery) (db : AccountsDb) : Reader → Prop
  | .indexed slot loc => Seen q db slot loc
  | .access slot loc failed =>
    Seen q db slot loc ∧ (failed = 0 ∨ failed = 1 ∧ loc.isCached = false)
  | .remote slot failed =>
    Seen q db slot .cached ∧ failed = 0 ∧
      db.accountsCache.holds slot q.pubkey = none
  | .reread slot loc failed =>
    loc = .cached ∧ failed = 1 ∧
      ((∃ info, db.accountsIndex.get q.pubkey q.ancestors none = some (slot, info) ∧
        info.storageLocation.isCached = false) ∨
        slot = 0 ∧ db.accountsIndex.get q.pubkey q.ancestors none = none)
  | _ => True

/-- Flushes and the load are in order. -/
structure Inv (q : LoadQuery) (s : State) : Prop where
  inOrder : InOrder s
  reader : ReaderOk q s.db s.reader

/-- All that a step of the load can do when the load is in order. -/
inductive ReaderMove (q : LoadQuery) (db : AccountsDb) : Reader → AccountsDb → Reader → Prop
  | start (slot : Slot) (info : AccountInfo)
      (hget : db.accountsIndex.get q.pubkey q.ancestors none = some (slot, info)) :
      ReaderMove q db .start db (.indexed slot info.storageLocation)
  | startDummy
      (hget : db.accountsIndex.get q.pubkey q.ancestors none = none)
      (hcard : 1 < q.ancestors.card) (hhas : db.remoteLoader.hasAccount q.pubkey = true) :
      ReaderMove q db .start db (.indexed 0 .cached)
  | startMissing
      (hget : db.accountsIndex.get q.pubkey q.ancestors none = none) :
      ReaderMove q db .start db .missing
  | readOnly (slot : Slot) (loc : StorageLocation) (a : AccountSharedData)
      (hloc : loc.isCached = false) (hres : db.resolve slot q.pubkey loc = some a) :
      ReaderMove q db (.indexed slot loc) db (.found a slot .readOnlyCache)
  | access (slot : Slot) (loc : StorageLocation) :
      ReaderMove q db (.indexed slot loc) db (.access slot loc 0)
  | hit (slot : Slot) (loc : StorageLocation) (failed : Nat) (a : AccountSharedData)
      (src : AccountSource) (hres : db.resolve slot q.pubkey loc = some a) :
      ReaderMove q db (.access slot loc failed) db (.found a slot src)
  | miss (slot : Slot) (hnone : db.accountsCache.holds slot q.pubkey = none) :
      ReaderMove q db (.access slot .cached 0) db (.remote slot 0)
  | fallback (slot : Slot) (a : AccountSharedData)
      (hremote : db.remoteLoader.getAccount q.pubkey = some a) :
      ReaderMove q db (.remote slot 0)
        (db.withAccountsCache (db.accountsCache.store slot q.pubkey a))
        (.found a slot .writeCache)
  | failed (slot : Slot) (hremote : db.remoteLoader.getAccount q.pubkey = none) :
      ReaderMove q db (.remote slot 0) db (.reread slot .cached 1)
  | again (slot : Slot) (info : AccountInfo)
      (hget : db.accountsIndex.get q.pubkey q.ancestors none = some (slot, info))
      (hstored : info.storageLocation.isCached = false) :
      ReaderMove q db (.reread slot .cached 1) db (.access slot info.storageLocation 1)
  | gone (slot : Slot)
      (hget : db.accountsIndex.get q.pubkey q.ancestors none = none)
      (hno : ¬ (1 < q.ancestors.card ∧ db.remoteLoader.hasAccount q.pubkey = true)) :
      ReaderMove q db (.reread slot .cached 1) db .missing
  | panic
      (hget : db.accountsIndex.get q.pubkey q.ancestors none = none)
      (hcard : 1 < q.ancestors.card) (hhas : db.remoteLoader.hasAccount q.pubkey = true) :
      ReaderMove q db (.reread 0 .cached 1) db (.panicked .badIndexCached)
  | finished (r : Reader) (hfinal : r.isFinal = true) : ReaderMove q db r db r

section Reader
variable {q : LoadQuery} {db db' : AccountsDb} {s s' : State}
variable {slot : Slot} {loc : StorageLocation}

theorem seen_moves (hm : Moves q db db') (h : Seen q db slot loc) : Seen q db' slot loc := by
  cases hm with
  | same hget hres =>
    unfold Seen
    rw [hget]
    exact h
  | flushed slot₀ info info' a hget hcached hholds hget' hstored hres =>
    rcases h with ⟨info₁, hg, hloc⟩ | ⟨_, _, hg⟩
    · rw [hget, some.injEq, Prod.mk.injEq] at hg
      obtain ⟨rfl, rfl⟩ := hg
      refine .inl ⟨info', hget', .inr ⟨?_, hstored⟩⟩
      rcases hloc with hloc | ⟨hloc, _⟩
      · rw [← hloc, hcached]
      · exact hloc
    · rw [hget] at hg
      cases hg
  | dummy info hget hget' hstored =>
    rcases h with ⟨info₁, hg, _⟩ | ⟨rfl, hloc, _⟩
    · rw [hget] at hg
      cases hg
    · exact .inl ⟨info, hget', .inr ⟨hloc, hstored⟩⟩

theorem readerOk_env (he : EnvStep q s s') (h : ReaderOk q s.db s.reader) :
    ReaderOk q s'.db s'.reader := by
  rw [he.reader]
  cases hr : s.reader with
  | start => trivial
  | found a slot src => trivial
  | missing => trivial
  | panicked p => trivial
  | indexed slot loc =>
    rw [hr] at h
    exact seen_moves he.moves h
  | access slot loc failed =>
    rw [hr] at h
    exact ⟨seen_moves he.moves h.1, h.2⟩
  | remote slot failed =>
    rw [hr] at h
    obtain ⟨hseen, hf, hnone⟩ := h
    refine ⟨seen_moves he.moves hseen, hf, ?_⟩
    rcases he.holds slot with heq | heq
    · exact heq.trans hnone
    · exact heq
  | reread slot loc failed =>
    rw [hr] at h
    obtain ⟨hloc, hf, hidx⟩ := h
    refine ⟨hloc, hf, ?_⟩
    rcases hidx with ⟨info, hg, hstored⟩ | ⟨hs0, hg⟩
    · cases he.moves with
      | same hget hres => exact .inl ⟨info, hget.trans hg, hstored⟩
      | flushed slot₀ info₁ info₂ a hget hcached hholds hget' hstored' hres =>
        rw [hg, some.injEq, Prod.mk.injEq] at hget
        obtain ⟨rfl, rfl⟩ := hget
        exact .inl ⟨info₂, hget', hstored'⟩
      | dummy info₁ hget hget' hstored' =>
        rw [hg] at hget
        cases hget
    · cases he.moves with
      | same hget hres => exact .inr ⟨hs0, hget.trans hg⟩
      | flushed slot₀ info₁ info₂ a hget hcached hholds hget' hstored' hres =>
        rw [hg] at hget
        cases hget
      | dummy info₁ hget hget' hstored' =>
        subst hs0
        exact .inl ⟨info₁, hget', hstored'⟩

theorem resolve_of_seen (hcoh : db.Coherent)
    (h : Seen q db slot loc) (hloc : loc.isCached = false) :
    ∃ a, db.resolve slot q.pubkey loc = some a := by
  rcases h with ⟨info, hget, heq | ⟨rfl, _⟩⟩ | ⟨_, rfl, _⟩
  · have hres := hcoh.resolves _ _ (get_eq_some hget).1
    rw [heq] at hres
    exact isSome_iff_exists.mp hres
  · simp [isCached] at hloc
  · simp [isCached] at hloc

/-- A missed read of the write cache: the slot was flushed, or the key has no entry. -/
theorem missed_of_seen (hcoh : db.Coherent) (h : Seen q db slot .cached)
    (hnone : db.accountsCache.holds slot q.pubkey = none) :
    (∃ info, db.accountsIndex.get q.pubkey q.ancestors none = some (slot, info) ∧
      info.storageLocation.isCached = false) ∨
      slot = 0 ∧ db.accountsIndex.get q.pubkey q.ancestors none = none := by
  rcases h with ⟨info, hget, heq | ⟨_, hst⟩⟩ | ⟨hs0, _, hget⟩
  · have hres := hcoh.resolves _ _ (get_eq_some hget).1
    rw [heq] at hres
    simp [resolve, hnone] at hres
  · exact .inl ⟨info, hget, hst⟩
  · exact .inr ⟨hs0, hget⟩

theorem inOrder_store (h : InOrder s) {k : Pubkey} (hnone : s.db.accountsCache.holds slot k = none)
    (hentry : slot ≠ 0 → ∃ e ∈ s.db.accountsIndex.slotList k, e.1 = slot)
    (a : AccountSharedData) (reader : Reader) :
    InOrder { s with
      db := s.db.withAccountsCache (s.db.accountsCache.store slot k a), reader } := by
  have hmono : ∀ slot' k' b, s.db.accountsCache.holds slot' k' = some b →
      (s.db.accountsCache.store slot k a).holds slot' k' = some b := by
    intro slot' k' b hb
    rw [AccountsCache.holds_store, if_neg]
    · exact hb
    · rintro ⟨rfl, rfl⟩
      rw [hnone] at hb
      cases hb
  have hres {slot' : Slot} {k' : Pubkey} {loc : StorageLocation} {b : AccountSharedData}
      (hb : s.db.resolve slot' k' loc = some b) :
      (s.db.withAccountsCache (s.db.accountsCache.store slot k a)).resolve slot' k' loc =
        some b := by
    refine resolve_mono ?_ ?_ hb
    · rfl
    · exact hmono
  refine ⟨⟨h.coherent.nodup, ?_, ?_, h.coherent.roots⟩, ?_⟩
  · intro k' e he
    obtain ⟨b, hb⟩ := isSome_iff_exists.mp (h.coherent.resolves k' e he)
    rw [hres hb]
    rfl
  · intro k' e b he hc hra
    exact hres (h.coherent.readOnly k' e b he hc hra)
  · intro slot'
    have hstage := h.stage slot'
    change StageOk _ slot' (s.flushing slot')
    cases hst : s.flushing slot' with
    | idle =>
      rw [hst] at hstage
      intro hs0 k' hk'
      rw [withAccountsCache_accountsCache, AccountsCache.holds_store] at hk'
      by_cases heq : slot' = slot ∧ k' = k
      · obtain ⟨rfl, rfl⟩ := heq
        exact hentry hs0
      · rw [if_neg heq] at hk'
        exact hstage hs0 k' hk'
    | collected accounts =>
      rw [hst] at hstage
      obtain ⟨hnodup, hsto, hheld, hmem, hall⟩ := hstage
      exact ⟨hnodup, hsto, fun x hx => hmono _ _ _ (hheld x hx), hmem, hall⟩
    | updating todo =>
      rw [hst] at hstage
      obtain ⟨hnodup, htodo, hall⟩ := hstage
      refine ⟨hnodup, ?_, hall⟩
      intro x hx
      obtain ⟨hc, hro, ⟨b, hb, hbres⟩, hrest⟩ := htodo x hx
      exact ⟨hc, hro, ⟨b, hmono _ _ _ hb, hres hbres⟩, hrest⟩

theorem reread_move
    (h : (∃ info, db.accountsIndex.get q.pubkey q.ancestors none = some (slot, info) ∧
      info.storageLocation.isCached = false) ∨
      slot = 0 ∧ db.accountsIndex.get q.pubkey q.ancestors none = none) :
    ReaderMove q db (.reread slot .cached 1)
      (q.step db (.reread slot .cached 1)).1 (q.step db (.reread slot .cached 1)).2 := by
  have hfast : decide (absurdConsecutiveFailedIterations ≤ 1) = false := rfl
  rcases h with ⟨info, hget, hstored⟩ | ⟨rfl, hget⟩
  · have hdiff : info.storageLocation.isStoreIdEqual .cached = false := by
      cases hl : info.storageLocation with
      | cached => simp [hl, isCached] at hstored
      | appendVec id offset => rfl
    have hstep : q.step db (.reread slot .cached 1) =
        (db, .access slot info.storageLocation 1) := by
      simp [LoadQuery.step, hfast, readIndex_of_some db hget, hdiff]
    rw [hstep]
    exact .again slot info hget hstored
  · by_cases hr : 1 < q.ancestors.card ∧ db.remoteLoader.hasAccount q.pubkey = true
    · have hstep : q.step db (.reread 0 .cached 1) = (db, .panicked .badIndexCached) := by
        simp only [LoadQuery.step, hfast, readIndex_of_none db hget, hr, and_self, if_true]
        rfl
      rw [hstep]
      exact .panic hget hr.1 hr.2
    · have hstep : q.step db (.reread 0 .cached 1) = (db, .missing) := by
        simp [LoadQuery.step, hfast, readIndex_of_none db hget, hr]
      rw [hstep]
      exact .gone 0 hget hr

theorem reader_move (h : Inv q s) :
    ReaderMove q s.db s.reader (q.step s.db s.reader).1 (q.step s.db s.reader).2 := by
  have hr := h.reader
  have hcoh := h.inOrder.coherent
  cases hreader : s.reader with
  | found a slot src => exact .finished _ rfl
  | missing => exact .finished _ rfl
  | panicked p => exact .finished _ rfl
  | start =>
    cases hget : s.db.accountsIndex.get q.pubkey q.ancestors none with
    | some found =>
      have hstep : q.step s.db .start = (s.db, .indexed found.1 found.2.storageLocation) := by
        simp only [LoadQuery.step, readIndex_of_some s.db hget]
      rw [hstep]
      exact .start found.1 found.2 hget
    | none =>
      by_cases hr : 1 < q.ancestors.card ∧ s.db.remoteLoader.hasAccount q.pubkey = true
      · have hstep : q.step s.db .start = (s.db, .indexed 0 .cached) := by
          simp [LoadQuery.step, readIndex_of_none s.db hget, hr]
        rw [hstep]
        exact .startDummy hget hr.1 hr.2
      · have hstep : q.step s.db .start = (s.db, .missing) := by
          simp [LoadQuery.step, readIndex_of_none s.db hget, hr]
        rw [hstep]
        exact .startMissing hget
  | indexed slot loc =>
    rw [hreader] at hr
    by_cases hc : loc.isCached = true
    · have hstep : q.step s.db (.indexed slot loc) = (s.db, .access slot loc 0) := by
        simp [LoadQuery.step, hc]
      rw [hstep]
      exact .access slot loc
    · cases hro : s.db.readOnlyAccountsCache q.pubkey slot with
      | none =>
        have hstep : q.step s.db (.indexed slot loc) = (s.db, .access slot loc 0) := by
          simp [LoadQuery.step, hc, hro]
        rw [hstep]
        exact .access slot loc
      | some a =>
        have hstep : q.step s.db (.indexed slot loc) = (s.db, .found a slot .readOnlyCache) := by
          simp [LoadQuery.step, hc, hro]
        have hcf : loc.isCached = false := by simpa using hc
        rw [hstep]
        refine .readOnly slot loc a hcf ?_
        rcases hr with ⟨info, hget, heq | ⟨rfl, _⟩⟩ | ⟨_, rfl, _⟩
        · subst heq
          exact hcoh.readOnly _ _ a (get_eq_some hget).1 hcf hro
        · simp [isCached] at hc
        · simp [isCached] at hc
  | access slot loc failed =>
    rw [hreader] at hr
    obtain ⟨hseen, hfailed⟩ := hr
    cases hres : s.db.resolve slot q.pubkey loc with
    | some a =>
      rw [step_access_of_resolve q s.db hres]
      exact .hit slot loc failed a _ hres
    | none =>
      cases loc with
      | appendVec id offset =>
        obtain ⟨a, ha⟩ := resolve_of_seen hcoh hseen rfl
        rw [hres] at ha
        cases ha
      | cached =>
        have hf : failed = 0 := by
          rcases hfailed with hf | ⟨_, hf⟩
          · exact hf
          · simp [isCached] at hf
        subst hf
        have hstep : q.step s.db (.access slot .cached 0) = (s.db, .remote slot 0) := by
          simp only [resolve] at hres
          simp only [LoadQuery.step, hres]
        rw [hstep]
        exact .miss slot hres
  | remote slot failed =>
    rw [hreader] at hr
    obtain ⟨hseen, rfl, hnone⟩ := hr
    cases hl : s.db.remoteLoader.getAccount q.pubkey with
    | some a =>
      have hstep : q.step s.db (.remote slot 0) =
          (s.db.withAccountsCache (s.db.accountsCache.store slot q.pubkey a),
            .found a slot .writeCache) := by
        simp only [LoadQuery.step, hl]
      rw [hstep]
      exact .fallback slot a hl
    | none =>
      have hstep : q.step s.db (.remote slot 0) = (s.db, .reread slot .cached 1) := by
        cases hh : q.loadHint <;> simp [LoadQuery.step, hl, hh]
      rw [hstep]
      exact .failed slot hl
  | reread slot loc failed =>
    rw [hreader] at hr
    obtain ⟨rfl, rfl, hidx⟩ := hr
    exact reread_move hidx

theorem inv_reader (h : Inv q s) (hs : step q s .reader = some s') : Inv q s' := by
  have hmove := reader_move h
  have hr := h.reader
  have hord := h.inOrder
  simp only [step, some.injEq] at hs
  subst hs
  generalize q.step s.db s.reader = next at hmove ⊢
  obtain ⟨db', r'⟩ := next
  have hsame : db' = s.db → InOrder { s with db := db', reader := r' } := by
    rintro rfl
    exact ⟨hord.coherent, hord.stage⟩
  generalize hreader : s.reader = r at hmove hr
  cases hmove with
  | start slot info hget =>
    exact ⟨hsame rfl, .inl ⟨info, hget, .inl rfl⟩⟩
  | startDummy hget hcard hhas => exact ⟨hsame rfl, .inr ⟨rfl, rfl, hget⟩⟩
  | startMissing hget => exact ⟨hsame rfl, trivial⟩
  | readOnly slot loc a hloc hres => exact ⟨hsame rfl, trivial⟩
  | access slot loc => exact ⟨hsame rfl, hr, .inl rfl⟩
  | hit slot loc failed a src hres => exact ⟨hsame rfl, trivial⟩
  | miss slot hnone => exact ⟨hsame rfl, hr.1, rfl, hnone⟩
  | fallback slot a hremote =>
    obtain ⟨hseen, _, hnone⟩ := hr
    refine ⟨inOrder_store hord hnone ?_ a _, trivial⟩
    intro hs0
    rcases hseen with ⟨info, hget, _⟩ | ⟨h0, _⟩
    · exact ⟨_, (get_eq_some hget).1, rfl⟩
    · exact absurd h0 hs0
  | failed slot hremote =>
    exact ⟨hsame rfl, rfl, rfl, missed_of_seen hord.coherent hr.1 hr.2.2⟩
  | again slot info hget hstored =>
    exact ⟨hsame rfl, .inl ⟨info, hget, .inl rfl⟩, .inr ⟨rfl, hstored⟩⟩
  | gone slot hget hno => exact ⟨hsame rfl, trivial⟩
  | panic hget hcard hhas => exact ⟨hsame rfl, trivial⟩
  | finished r hfinal => exact ⟨hsame rfl, hr⟩

theorem inv_step {e : Event} (h : Inv q s) (hs : step q s e = some s') : Inv q s' := by
  by_cases he : e = .reader
  · subst he
    exact inv_reader h hs
  · have henv := env_step q h.inOrder he hs
    exact ⟨henv.inOrder, readerOk_env henv h.reader⟩

theorem inv_start (hwf : db.WellFormed) : Inv q (start db) := by
  refine ⟨⟨hwf.toCoherent, ?_⟩, trivial⟩
  intro slot hs0 k hk
  exact hwf.known slot k hs0 hk

/-- The load has not panicked. -/
def Safe (s : State) : Prop := ∀ p, s.reader ≠ .panicked p

/-- A second index read that finds no entry does not find the key in the remote loader. -/
def RereadOk (q : LoadQuery) (s : State) (e : Event) : Prop :=
  e = .reader →
    ∀ slot loc failed, s.reader = .reread slot loc failed →
      s.db.accountsIndex.get q.pubkey q.ancestors none = none →
      1 < q.ancestors.card →
      s.db.remoteLoader.hasAccount q.pubkey = false

theorem safe_step {e : Event} (h : Inv q s) (hsafe : Safe s) (hs : step q s e = some s') :
    Safe s' ↔ RereadOk q s e := by
  by_cases he : e = .reader
  · subst he
    have hmove := reader_move h
    simp only [step, some.injEq] at hs
    subst hs
    unfold Safe at hsafe
    unfold Safe RereadOk
    generalize q.step s.db s.reader = next at hmove ⊢
    obtain ⟨db', r'⟩ := next
    generalize s.reader = r at hmove hsafe ⊢
    cases hmove with
    | panic hget hcard hhas =>
      constructor
      · intro hno
        exact absurd rfl (hno _)
      · intro hok
        have hfalse := hok rfl 0 .cached 1 rfl hget hcard
        rw [hhas] at hfalse
        cases hfalse
    | again slot info hget hstored =>
      refine ⟨?_, fun _ p hp => by cases hp⟩
      intro _ _ slot' loc failed _ hnone
      rw [hget] at hnone
      cases hnone
    | gone slot hget hno =>
      refine ⟨?_, fun _ p hp => by cases hp⟩
      intro _ _ slot' loc failed _ _ hcard
      simpa [hcard] using hno
    | finished r hfinal =>
      refine ⟨?_, fun _ => hsafe⟩
      intro _ _ slot loc failed hr
      rw [hr] at hfinal
      cases hfinal
    | start => simp
    | startDummy => simp
    | startMissing => simp
    | readOnly => simp
    | access => simp
    | hit => simp
    | miss => simp
    | fallback => simp
    | failed => simp
  · have henv := env_step q h.inOrder he hs
    constructor
    · intro _ hreader
      exact absurd hreader he
    · intro _ p hp
      rw [henv.reader] at hp
      exact hsafe p hp

/-- In a run of one load with flushes and remote cache changes, the load never panics
exactly if each of its second index reads is in order. -/
theorem staysSafe_iff_guarded
    (q : LoadQuery)
    (db : AccountsDb)
    (hwf : db.WellFormed)
    {es : List Event} {t : State}
    (hrun : Run (step q) (start db) es t) :
    StaysGood (step q) Safe (start db) es ↔
      GuardedRun (step q) (RereadOk q) (start db) es t :=
  staysGood_iff_guardedRun
    (fun _ _ _ h _ hs => inv_step h hs)
    (fun _ _ _ h hsafe hs => safe_step h hsafe hs)
    hrun (inv_start hwf) (fun _ hp => by cases hp)

/-- The load reads the index again and finds no entry. -/
def rereadTest (q : LoadQuery) (s : State) : Event → Bool
  | .reader =>
    match s.reader with
    | .reread _ _ _ => !s.db.remoteLoader.hasAccount q.pubkey
    | _ => true
  | _ => true

theorem rereadOk_of_test (e : Event) (h : rereadTest q s e = true) : RereadOk q s e := by
  intro he slot loc failed hr _ _
  simpa [rereadTest, he, hr] using h

end Reader

def exampleKey : Pubkey := .ofNat (7 ^ 90)

def exampleRpc : RpcAccount :=
  { lamports := 10, data := [2], owner := exampleKey, executable := false, rentEpoch := 0 }

def exampleQuery : LoadQuery :=
  { ancestors := {0, 1}, pubkey := exampleKey, loadHint := .fixedMaxRoot }

def emptyDb : AccountsDb :=
  AccountsDb.new { sonicProgramId := exampleKey.toString } {0, 1}

def exampleEnd (db : AccountsDb) (es : List Event) : State :=
  (exec (step exampleQuery) (start db) es).getD (start db)

/-- A load of a remote key that is deactivated after the index read. -/
def deactivateRace : List Event :=
  [.migrate exampleKey [some exampleRpc], .reader, .reader, .deactivate exampleKey,
    .reader, .reader]

/-- If the key stays deactivated, the load ends without a panic. -/
theorem staysSafe_deactivateRace :
    StaysGood (step exampleQuery) Safe (start emptyDb) (deactivateRace ++ [.reader]) := by
  refine (staysSafe_iff_guarded exampleQuery emptyDb
    (.new _ _ (by decide)) ((run_iff_exec _).mpr rfl)).mpr ?_
  exact guardedRun_of_execChecked (fun s e => rereadOk_of_test e) rfl

/-- If the key is migrated again before the second index read, the load panics. -/
theorem reader_panics_after_remigrate :
    let es := deactivateRace ++ [.migrate exampleKey [some exampleRpc], .reader]
    Run (step exampleQuery) (start emptyDb) es (exampleEnd emptyDb es) ∧
      (exampleEnd emptyDb es).reader = .panicked .badIndexCached ∧
      ¬ Safe (exampleEnd emptyDb es) := by
  intro es
  have hreader : (exampleEnd emptyDb es).reader = .panicked .badIndexCached := by
    decide
  exact ⟨(run_iff_exec _).mpr rfl, hreader, fun hsafe => hsafe _ hreader⟩

end ReaderFlush
end Hypergrid
