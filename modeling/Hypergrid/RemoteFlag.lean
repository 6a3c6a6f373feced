import Hypergrid.Execute
import Hypergrid.ReaderFlush

/-!
# The remote flag between two loads

The flag of an account lives in memory only: a storage does not keep it.  The machine of this
module runs whole loads, with their effect on the read-only cache and on the dummy slot,
between the steps of the flushes of all slots.

* `doLoad_inOrder` : a load keeps the order of flushes that are under way.
* `staysRemote_iff_guarded` : a stored remote account is loaded as a remote account, and
  refused to writers, along a run exactly if no flush of the run moves its index entry.
-/

namespace Hypergrid
open List Option
open AccountsIndex AccountsDb

namespace RemoteFlag
open Machine ReaderFlush

/-- A step of a flush or of the remote loader, or a whole load. -/
inductive Event where
  | background (e : ReaderFlush.Event)
  | load (q : LoadQuery)

/-- One step; the load that the machine of the flushes carries is not used. -/
def step (q : LoadQuery) (s : State) : Event → Option State
  | .background .reader => none
  | .background e => ReaderFlush.step q s e
  | .load q' => some { s with db := (s.db.doLoad q').1 }

theorem step_background {q : LoadQuery} {s s' : State} {e : ReaderFlush.Event}
    (hs : step q s (.background e) = some s') :
    e ≠ .reader ∧ ReaderFlush.step q s e = some s' := by
  cases e with
  | reader => cases hs
  | flushCollect | flushWrite | flushIndex | flushRemove | migrate | deactivate | evict =>
    exact ⟨by simp, hs⟩

/-- A load of the version in the slot returns the stored account as a remote one, which an
instruction of no message may write. -/
def StaysRemote (q : LoadQuery) (slot : Slot) (v : AccountSharedData) (s : State) : Prop :=
  ∀ a, (s.db.doLoad q).2 = .ok (some (a, slot)) →
    a = v ∧ a.remote = true ∧
      ∀ (ctx : InvokeContext) (message : SanitizedMessage) (ix : CompiledInstruction) i j,
        message.accountKeys[i]? = some q.pubkey →
        findIndexOfAccount ctx.accounts q.pubkey = some j →
        ctx.accounts[j]? = some (q.pubkey, a) →
        ∀ x ∈ ctx.instructionAccounts message ix, x.indexInTransaction = i →
          x.isWritable = false

/-- A flush of the slot does not move the index entry of the account to its storage, unless
the account has no lamports. -/
def FlushOk (q : LoadQuery) (slot : Slot) (s : State) (e : Event) : Prop :=
  ∀ info todo a, e = .background (.flushIndex slot) →
    s.flushing slot = .updating ((q.pubkey, info) :: todo) →
    s.db.accountsCache.holds slot q.pubkey = some a → a.isZeroLamport = true

section Loads
variable {s : State}

theorem afterFind_inOrder (h : InOrder s) (ancestors : Finset Slot) (k : Pubkey) :
    InOrder { s with db := s.db.afterFind ancestors k } := by
  unfold afterFind
  cases s.db.accountsIndex.get k ancestors none with
  | some e => exact h
  | none =>
    split_ifs with hremote
    · rw [AccountsCache.load_eq]
      cases hholds : s.db.accountsCache.holds 0 k with
      | some a => exact h
      | none =>
        cases s.db.accountsCache.remoteLoader.getAccount k with
        | none => exact h
        | some a => exact inOrder_store h hholds (fun h0 => absurd rfl h0) a s.reader
    · exact h

/-- Copying a stored account into the read-only cache keeps the order: the entries that a flush
has still to update are cached. -/
theorem storeReadOnly_inOrder (h : InOrder s) {k : Pubkey} {slot : Slot} {info : AccountInfo}
    {a : AccountSharedData} (hmem : (slot, info) ∈ s.db.accountsIndex.slotList k)
    (hstored : info.storageLocation.isCached = false)
    (hres : s.db.resolve slot k info.storageLocation = some a) :
    InOrder { s with db := s.db.storeReadOnly k slot a } := by
  refine ⟨h.coherent.storeReadOnly hmem hres, fun slot' => ?_⟩
  refine stageOk_congr ?_ ?_ ?_ ?_ (h.stage slot')
  · exact fun _ => rfl
  · rfl
  · intro k' hcached hr
    change (if k' = k ∧ slot' = slot then some a else s.db.readOnlyAccountsCache k' slot') = none
    rw [if_neg]
    · exact hr
    · rintro ⟨rfl, rfl⟩
      have hboth := hcached (slot', info) hmem rfl
      rw [hstored] at hboth
      cases hboth
  · exact fun _ _ _ => .rfl

theorem doLoad_inOrder (h : InOrder s) (q : LoadQuery) :
    InOrder { s with db := (s.db.doLoad q).1 } := by
  rcases (doLoad_spec s.db q h.coherent).2 with
    hdb | ⟨slot, info, a, hget, hc, hres, hdb⟩
  · rw [hdb]
    exact afterFind_inOrder h q.ancestors q.pubkey
  · rw [hdb]
    exact storeReadOnly_inOrder h (get_eq_some hget).1 hc hres

theorem doLoad_keeps (h : s.db.Coherent) (q : LoadQuery) :
    (s.db.doLoad q).1.accountsIndex = s.db.accountsIndex ∧
      (s.db.doLoad q).1.storage = s.db.storage ∧
      ∀ slot k a, s.db.accountsCache.holds slot k = some a →
        (s.db.doLoad q).1.accountsCache.holds slot k = some a := by
  rcases (doLoad_spec s.db q h).2 with hdb | ⟨slot, info, a, _, _, _, hdb⟩
  · rw [hdb]
    unfold afterFind
    cases s.db.accountsIndex.get q.pubkey q.ancestors none with
    | some e => exact ⟨rfl, rfl, fun _ _ _ ha => ha⟩
    | none =>
      split_ifs
      · exact ⟨rfl, rfl, fun _ _ _ ha => holds_load_of_some _ _ _ ha⟩
      · exact ⟨rfl, rfl, fun _ _ _ ha => ha⟩
  · rw [hdb]
    exact ⟨rfl, rfl, fun _ _ _ ha => ha⟩

end Loads

section Entry
variable {q : LoadQuery} {s s' : State} {slot : Slot} {k : Pubkey}

theorem mem_slotList_step {e : ReaderFlush.Event} (hs : ReaderFlush.step q s e = some s')
    (he : e ≠ .reader) {x : Slot × AccountInfo} (hx : x ∈ s'.db.accountsIndex.slotList k) :
    x ∈ s.db.accountsIndex.slotList k ∨
      e = .flushIndex x.1 ∧ ∃ todo, s.flushing x.1 = .updating ((k, x.2) :: todo) := by
  cases e with
  | reader => exact absurd rfl he
  | flushCollect slot skip =>
    simp only [ReaderFlush.step, flushStep] at hs
    split at hs
    · split_ifs at hs
      cases hs
      exact .inl (mem_purgeKeys.mp hx).1
    · cases hs
  | flushWrite slot =>
    simp only [ReaderFlush.step, flushStep] at hs
    split at hs <;> cases hs <;> exact .inl hx
  | flushIndex slot =>
    simp only [ReaderFlush.step, flushStep] at hs
    split at hs
    · rename_i y todo hst
      cases hs
      rcases mem_upsert.mp hx with ⟨rfl, rfl⟩ | ⟨hx, _⟩
      · exact .inr ⟨rfl, todo, hst⟩
      · exact .inl hx
    · cases hs
  | flushRemove slot =>
    simp only [ReaderFlush.step, flushStep] at hs
    split at hs <;> cases hs
    exact .inl hx
  | migrate k' answers => cases hs; exact .inl hx
  | deactivate k' => cases hs; exact .inl hx
  | evict k' slot => cases hs; exact .inl hx

/-- Where the load finds the account `w`: in the write cache, or in a storage. -/
structure FlagInv (q : LoadQuery) (slot : Slot) (w : AccountSharedData) (s : State) : Prop where
  order : InOrder s
  entry : ∃ info, s.db.accountsIndex.get q.pubkey q.ancestors none = some (slot, info) ∧
    (info.storageLocation = .cached ∧ s.db.accountsCache.holds slot q.pubkey = some w ∨
      info.storageLocation.isCached = false ∧
        s.db.resolve slot q.pubkey info.storageLocation =
          some (AccountSharedData.fromStored (AccountsDb.accountDefaultIfZeroLamport w)))

def InCache (q : LoadQuery) (s : State) : Prop :=
  ∀ slot info, s.db.accountsIndex.get q.pubkey q.ancestors none = some (slot, info) →
    info.storageLocation = .cached

theorem instructionAccounts_remote {ctx : InvokeContext} {message : SanitizedMessage}
    {ix : CompiledInstruction} {i j : Nat} {a : AccountSharedData}
    (hremote : a.remote = true) (hi : message.accountKeys[i]? = some k)
    (hj : findIndexOfAccount ctx.accounts k = some j) (ha : ctx.accounts[j]? = some (k, a)) :
    ∀ x ∈ ctx.instructionAccounts message ix, x.indexInTransaction = i → x.isWritable = false := by
  intro x hx hxi
  simp only [InvokeContext.instructionAccounts, List.mem_map] at hx
  obtain ⟨y, _, rfl⟩ := hx
  have hkey : ctx.isRemote k = true := by
    unfold InvokeContext.isRemote
    rw [hj, bind_some, ha, any_some]
    exact hremote
  dsimp only at hxi ⊢
  rw [hxi, hi, any_some, hkey, Bool.not_true, Bool.and_false]

theorem doLoad_entry (hcoh : s.db.Coherent) {info : AccountInfo} {b : AccountSharedData}
    (hget : s.db.accountsIndex.get q.pubkey q.ancestors none = some (slot, info))
    (hres : s.db.resolve slot q.pubkey info.storageLocation = some b) :
    (s.db.doLoad q).2 = .ok (if b.isZeroLamport then none else some (b, slot)) := by
  rw [(doLoad_spec _ _ hcoh).1, visible, hget]
  dsimp only
  rw [hres]
  by_cases hzero : b.isZeroLamport = true
  · simp [hzero]
  · simp [hzero]

theorem isZeroLamport_stored (w : AccountSharedData) :
    (AccountSharedData.fromStored (AccountsDb.accountDefaultIfZeroLamport w)).isZeroLamport =
      w.isZeroLamport := by
  unfold accountDefaultIfZeroLamport
  split_ifs with hzero
  · rw [hzero]
    rfl
  · rfl

theorem staysRemote_iff {v w : AccountSharedData} (h : FlagInv q slot w s)
    (hw : w.isZeroLamport = false → w = v ∧ w.remote = true) :
    StaysRemote q slot v s ↔ w.isZeroLamport = true ∨ InCache q s := by
  obtain ⟨info, hget, ⟨hloc, hholds⟩ | ⟨hloc, hres⟩⟩ := h.entry
  · have hload := doLoad_entry h.order.coherent hget (b := w) (by rw [hloc]; exact hholds)
    have hin : InCache q s := by
      intro slot' info' hget'
      rw [hget, some.injEq, Prod.mk.injEq] at hget'
      rw [← hget'.2]
      exact hloc
    refine iff_of_true ?_ (.inr hin)
    intro a ha
    rw [hload, Except.ok.injEq] at ha
    split_ifs at ha with hzero
    rw [some.injEq, Prod.mk.injEq] at ha
    obtain ⟨hsame, hremote⟩ : a = v ∧ a.remote = true := ha.1 ▸ hw (by simpa using hzero)
    exact ⟨hsame, hremote, fun ctx message ix i j hi hj hja =>
      instructionAccounts_remote hremote hi hj hja⟩
  · have hload := doLoad_entry h.order.coherent hget hres
    rw [isZeroLamport_stored] at hload
    have hout : ¬InCache q s := by
      intro hin
      rw [hin slot info hget] at hloc
      cases hloc
    by_cases hzero : w.isZeroLamport = true
    · refine iff_of_true ?_ (.inl hzero)
      intro a ha
      rw [hload, if_pos hzero] at ha
      cases ha
    · refine iff_of_false ?_ (not_or.mpr ⟨hzero, hout⟩)
      intro hstays
      rw [if_neg hzero] at hload
      exact absurd (hstays _ hload).2.1 (by simp)

variable {v w : AccountSharedData}

theorem flagInv_background (h : FlagInv q slot w s) (henv : EnvStep q s s') :
    FlagInv q slot w s' := by
  refine ⟨henv.inOrder, ?_⟩
  obtain ⟨info, hget, hwhere⟩ := h.entry
  cases henv.moves with
  | same hget' hres' =>
    have hsame := hres' slot info hget
    refine ⟨info, hget'.trans hget, ?_⟩
    rcases hwhere with ⟨hloc, hholds⟩ | ⟨hloc, hres⟩
    · rw [hloc] at hsame
      exact .inl ⟨hloc, hsame.trans hholds⟩
    · exact .inr ⟨hloc, hsame.trans hres⟩
  | flushed slot₁ info₁ info' a hget₁ hcached hholds₁ hget' hstored hres' =>
    rw [hget, some.injEq, Prod.mk.injEq] at hget₁
    obtain ⟨rfl, rfl⟩ := hget₁
    refine ⟨info', hget', .inr ⟨hstored, ?_⟩⟩
    rcases hwhere with ⟨_, hholds⟩ | ⟨hloc, _⟩
    · rw [hholds, some.injEq] at hholds₁
      rw [hholds₁]
      exact hres'
    · rw [hcached] at hloc
      cases hloc
  | dummy info₁ hnone _ _ =>
    rw [hget] at hnone
    cases hnone

theorem entry_unique (h : InOrder s) {k : Pubkey} {info info' : AccountInfo}
    (hmem : (slot, info) ∈ s.db.accountsIndex.slotList k)
    (hmem' : (slot, info') ∈ s.db.accountsIndex.slotList k) : info = info' := by
  have heq := inj_on_of_nodup_map (h.coherent.nodup k) hmem hmem' rfl
  rw [Prod.mk.injEq] at heq
  exact heq.2

section FlagInv
variable (h : FlagInv q slot w s)
include h

theorem inCache_background {e : ReaderFlush.Event} (henv : EnvStep q s s') (he : e ≠ .reader)
    (hs : ReaderFlush.step q s e = some s') (hok : FlushOk q slot s (.background e))
    (hin : w.isZeroLamport = true ∨ InCache q s) : w.isZeroLamport = true ∨ InCache q s' := by
  rcases hin with hzero | hin
  · exact .inl hzero
  obtain ⟨info, hget, hwhere⟩ := h.entry
  obtain ⟨info', hget', _⟩ := (flagInv_background h henv).entry
  have hloc := hin slot info hget
  have hholds : s.db.accountsCache.holds slot q.pubkey = some w := by
    rcases hwhere with ⟨_, hholds⟩ | ⟨hstored, _⟩
    · exact hholds
    · rw [hloc] at hstored
      cases hstored
  rcases mem_slotList_step hs he (get_eq_some hget').1 with hmem | ⟨heq, todo, hst⟩
  · right
    intro slot₁ info₁ hget₁
    rw [hget', some.injEq, Prod.mk.injEq] at hget₁
    rw [← hget₁.2, entry_unique h.order hmem (get_eq_some hget).1]
    exact hloc
  · exact .inl (hok _ _ _ (congrArg Event.background heq) hst hholds)

theorem not_inCache_background {e : ReaderFlush.Event} (henv : EnvStep q s s')
    (hs : ReaderFlush.step q s e = some s') (hbad : ¬FlushOk q slot s (.background e)) :
    ¬(w.isZeroLamport = true ∨ InCache q s') := by
  unfold FlushOk at hbad
  push Not at hbad
  obtain ⟨info₁, todo, a, heq, hst, hholds₁, hlamports⟩ := hbad
  rw [Event.background.injEq] at heq
  subst heq
  obtain ⟨info, hget, hwhere⟩ := h.entry
  obtain ⟨info', hget', _⟩ := (flagInv_background h henv).entry
  have hstage := h.order.stage slot
  rw [hst] at hstage
  obtain ⟨hstored, _, _, _, hcached⟩ := hstage.2.1 (q.pubkey, info₁) mem_cons_self
  have hmem := (get_eq_some hget).1
  rintro (hzero | hin)
  · rcases hwhere with ⟨_, hholds⟩ | ⟨hloc, _⟩
    · rw [hholds₁, some.injEq] at hholds
      exact hlamports (hholds ▸ hzero)
    · have := hcached (slot, info) hmem rfl
      rw [hloc] at this
      cases this
  · have hnew : (slot, info₁) ∈ s'.db.accountsIndex.slotList q.pubkey := by
      simp only [ReaderFlush.step, flushStep, hst] at hs
      cases hs
      exact mem_upsert.mpr (.inl ⟨rfl, rfl⟩)
    have hinfo := entry_unique henv.inOrder (get_eq_some hget').1 hnew
    have hloc := hin slot info' hget'
    rw [hinfo] at hloc
    rw [hloc] at hstored
    cases hstored

theorem flagInv_load (q' : LoadQuery) :
    FlagInv q slot w { s with db := (s.db.doLoad q').1 } ∧
      (InCache q { s with db := (s.db.doLoad q').1 } ↔ InCache q s) := by
  obtain ⟨hindex, hstorage, hholds'⟩ := doLoad_keeps h.order.coherent q'
  refine ⟨⟨doLoad_inOrder h.order q', ?_⟩, ?_⟩
  · obtain ⟨info, hget, hwhere⟩ := h.entry
    refine ⟨info, by rw [hindex]; exact hget, ?_⟩
    rcases hwhere with ⟨hloc, hholds⟩ | ⟨hloc, hres⟩
    · exact .inl ⟨hloc, hholds' _ _ _ hholds⟩
    · exact .inr ⟨hloc, resolve_mono hstorage hholds' hres⟩
  · unfold InCache
    rw [hindex]

theorem flagInv_step {e : Event} (hs : step q s e = some s') : FlagInv q slot w s' := by
  cases e with
  | load q' =>
    cases hs
    exact (flagInv_load h q').1
  | background e =>
    obtain ⟨he, hs⟩ := step_background hs
    exact flagInv_background h (env_step q h.order he hs)

end FlagInv

theorem staysRemote_step {e : Event} (hw : w.isZeroLamport = false → w = v ∧ w.remote = true)
    (h : FlagInv q slot w s) (hgood : StaysRemote q slot v s) (hs : step q s e = some s') :
    StaysRemote q slot v s' ↔ FlushOk q slot s e := by
  rw [staysRemote_iff (flagInv_step h hs) hw]
  rw [staysRemote_iff h hw] at hgood
  cases e with
  | load q' =>
    cases hs
    rw [(flagInv_load h q').2]
    exact iff_of_true hgood (fun _ _ _ heq => by cases heq)
  | background e =>
    obtain ⟨he, hs⟩ := step_background hs
    have henv := env_step q h.order he hs
    constructor
    · intro hstays
      by_contra hbad
      exact not_inCache_background h henv hs hbad hstays
    · intro hok
      exact inCache_background h henv he hs hok hgood

end Entry

section Stored
variable {db : AccountsDb} {slot : Slot} {k : Pubkey}
variable {ys : List (Pubkey × AccountSharedData)}

/-- The account is in the write cache and its index entry is a cached one. -/
def StoredAs (slot : Slot) (k : Pubkey) (w : AccountSharedData) (db : AccountsDb) : Prop :=
  db.accountsCache.holds slot k = some w ∧
    (slot, AccountInfo.new .cached w.lamports) ∈ db.accountsIndex.slotList k

theorem storedAs_storeCachedOne (db : AccountsDb) (slot : Slot) (x : Pubkey × AccountSharedData) :
    StoredAs slot x.1 (AccountsDb.accountDefaultIfZeroLamport x.2)
      (AccountsDb.storeCachedOne slot db x) := by
  refine ⟨?_, mem_upsert.mpr (.inl ⟨rfl, rfl⟩)⟩
  change (db.accountsCache.store slot x.1 _).holds slot x.1 = _
  rw [AccountsCache.holds_store, if_pos ⟨rfl, rfl⟩]

theorem storedAs_storeCached {w : AccountSharedData} (h : StoredAs slot k w db)
    (hys : k ∉ ys.map Prod.fst) :
    StoredAs slot k w (db.storeCached slot ys) := by
  induction ys generalizing db with
  | nil => exact h
  | cons y ys ih =>
    rw [map_cons, mem_cons, not_or] at hys
    refine ih ⟨?_, ?_⟩ hys.2
    · change (db.accountsCache.store slot y.1 _).holds slot k = _
      rw [AccountsCache.holds_store, if_neg (fun heq => hys.1 heq.2)]
      exact h.1
    · exact mem_upsert.mpr (.inr ⟨h.2, fun heq => hys.1 heq.1⟩)

theorem storedAs_append (db : AccountsDb) (slot : Slot) (k : Pubkey) (v : AccountSharedData)
    (xs : List (Pubkey × AccountSharedData))
    (hys : k ∉ ys.map Prod.fst) :
    StoredAs slot k (AccountsDb.accountDefaultIfZeroLamport v)
      (db.storeCached slot (xs ++ (k, v) :: ys)) := by
  have hfold : db.storeCached slot (xs ++ (k, v) :: ys) =
      (storeCachedOne slot (db.storeCached slot xs) (k, v)).storeCached slot ys := by
    unfold storeCached
    rw [foldl_append, foldl_cons]
  rw [hfold]
  exact storedAs_storeCached (storedAs_storeCachedOne _ slot (k, v)) hys

end Stored

/-- A remote account that `store_cached` has written, and that a reader sees, is loaded as a
remote account along a run of flushes, loads and evictions exactly if no flush of the run moves
its index entry to a storage. -/
theorem staysRemote_iff_guarded (q : LoadQuery) (db : AccountsDb) (hwf : db.WellFormed)
    (slot : Slot) (v : AccountSharedData) (hremote : v.remote = true)
    (xs ys : List (Pubkey × AccountSharedData)) (hys : q.pubkey ∉ ys.map Prod.fst)
    (hvisible : ((db.storeCached slot (xs ++ (q.pubkey, v) :: ys)).accountsIndex.get q.pubkey
      q.ancestors none).map Prod.fst = some slot)
    {es : List Event} {t : State}
    (hrun : Run (step q) (start (db.storeCached slot (xs ++ (q.pubkey, v) :: ys))) es t) :
    StaysGood (step q) (StaysRemote q slot v)
        (start (db.storeCached slot (xs ++ (q.pubkey, v) :: ys))) es ↔
      GuardedRun (step q) (FlushOk q slot)
        (start (db.storeCached slot (xs ++ (q.pubkey, v) :: ys))) es t := by
  have hstored := storedAs_append db slot q.pubkey v xs hys
  have hwf' := hwf.storeCached slot (xs ++ (q.pubkey, v) :: ys)
  generalize db.storeCached slot (xs ++ (q.pubkey, v) :: ys) = db' at *
  obtain ⟨hholds, hmem⟩ := hstored
  generalize hw : accountDefaultIfZeroLamport v = w at *
  have hflag : w.isZeroLamport = false → w = v ∧ w.remote = true := by
    intro hlamports
    unfold accountDefaultIfZeroLamport at hw
    split_ifs at hw
    · rw [← hw] at hlamports
      cases hlamports
    · rw [← hw]
      exact ⟨rfl, hremote⟩
  have horder : InOrder (start db') := ⟨hwf'.toCoherent, fun slot' hs0 k hk =>
    hwf'.known slot' k hs0 hk⟩
  have hinv : FlagInv q slot w (start db') := by
    refine ⟨horder, ?_⟩
    obtain ⟨⟨slot', info⟩, hget, hslot⟩ := map_eq_some_iff.mp hvisible
    subst hslot
    have hinfo := entry_unique horder (get_eq_some hget).1 hmem
    exact ⟨info, hget, .inl ⟨by rw [hinfo]; rfl, hholds⟩⟩
  refine staysGood_iff_guardedRun (fun s e s' h _ hs => flagInv_step h hs)
    (fun s e s' h hgood hs => staysRemote_step hflag h hgood hs) hrun hinv ?_
  rw [staysRemote_iff hinv hflag]
  right
  intro slot' info hget
  obtain ⟨info', hget', hwhere⟩ := hinv.entry
  rw [hget, some.injEq, Prod.mk.injEq] at hget'
  obtain ⟨rfl, rfl⟩ := hget'
  rw [entry_unique horder (get_eq_some hget).1 hmem]
  rfl

def flushTest : Event → Bool
  | .background (.flushIndex _) => false
  | _ => true

theorem flushOk_of_test {q : LoadQuery} {slot : Slot} {s : State} {e : Event}
    (h : flushTest e = true) : FlushOk q slot s e := by
  intro info todo a he
  subst he
  cases h

def remoteDb : AccountsDb :=
  emptyDb.storeCached 1 [(exampleKey, RemoteAccountLoader.remoteAccount exampleRpc)]

/-- The flush of slot 1, up to the write of its storage. -/
def flushStart : List Event :=
  [.load exampleQuery, .background (.flushCollect 1 []), .background (.flushWrite 1)]

def flushEnd : List Event :=
  [.background (.flushIndex 1), .background (.flushRemove 1)]

def flagEnd (es : List Event) : State :=
  (exec (step exampleQuery) (start remoteDb) es).getD (start remoteDb)

/-- Before the flush updates the index, the account is loaded as a remote one. -/
theorem staysRemote_flushStart :
    StaysGood (step exampleQuery)
      (StaysRemote exampleQuery 1 (RemoteAccountLoader.remoteAccount exampleRpc))
      (start remoteDb) flushStart :=
  (staysRemote_iff_guarded exampleQuery emptyDb (.new _ _ (by decide)) 1
    (RemoteAccountLoader.remoteAccount exampleRpc) rfl [] [] (by decide) (by decide)
    ((run_iff_exec _).mpr rfl)).mpr
    (guardedRun_of_execChecked (fun _ _ h => flushOk_of_test h) rfl)

/-- After the flush, the account is loaded without its flag. -/
theorem flushed_account_not_remote :
    Run (step exampleQuery) (start remoteDb) (flushStart ++ flushEnd)
        (flagEnd (flushStart ++ flushEnd)) ∧
      ((flagEnd (flushStart ++ flushEnd)).db.doLoad exampleQuery).2 =
        .ok (some (AccountSharedData.fromStored
          (RemoteAccountLoader.remoteAccount exampleRpc), 1)) ∧
      ¬StaysRemote exampleQuery 1 (RemoteAccountLoader.remoteAccount exampleRpc)
        (flagEnd (flushStart ++ flushEnd)) := by
  have hload : ((flagEnd (flushStart ++ flushEnd)).db.doLoad exampleQuery).2 =
      .ok (some (AccountSharedData.fromStored
        (RemoteAccountLoader.remoteAccount exampleRpc), 1)) := by
    decide
  refine ⟨(run_iff_exec _).mpr rfl, hload, ?_⟩
  intro hstays
  exact absurd (hstays _ hload).2.1 (by decide)

end RemoteFlag
end Hypergrid
