import Hypergrid.AccountsCache
import Hypergrid.Lib.MapSum

/-!
# The size counters of the write cache

Every slot cache counts the bytes of its accounts, and all slot caches share one counter
through an `Arc`.  A slot cache that `remove_slot` or `remove_slots_le` takes out of the map
lives on until its last holder drops it; only `Drop` gives its size back to the shared
counter, and a writer that fetched the slot cache before still writes into it.

* `insert_accounted` : one write keeps both counters right.
* `step_accounted`, `run_accounted` : every operation does.
* `no_wrap` : no subtraction of an operation wraps while the live bytes fit into 64 bits.
-/

namespace Hypergrid
open SlotCacheInner AccountsCache MapSum List UInt64

namespace SlotCacheInner

/-- The bytes of the accounts that a slot cache holds. -/
def bytes (c : SlotCacheInner) : Nat := MapSum.total (fun a => a.data.length) c.cache

/-- The pairs `(counter, amount)` of the atomic subtractions of `insert`. -/
def insertSubtractions (c : SlotCacheInner) (totalSize : UInt64) (pubkey : Pubkey)
    (account : AccountSharedData) : List (UInt64 × UInt64) :=
  match c.getCloned pubkey with
  | some old =>
    let shrink := old.data.length - account.data.length
    if 0 < account.data.length - old.data.length then []
    else if 0 < shrink then [(c.size, UInt64.ofNat shrink), (totalSize, UInt64.ofNat shrink)]
    else []
  | none => []

end SlotCacheInner

/-- The write cache with the slot caches that were taken out of it and not yet dropped. -/
structure SharedCache where
  accountsCache : AccountsCache
  removed : List SlotCacheInner

/-- The operations on the write cache. -/
inductive CacheOp where
  | store (slot : Slot) (pubkey : Pubkey) (account : AccountSharedData)
  | load (slot : Slot) (pubkey : Pubkey)
  | removeSlot (slot : Slot)
  | removeSlotsLe (maxRoot : Slot)
  /-- a write into a slot cache that was removed after the writer had fetched it -/
  | insertRemoved (i : Nat) (pubkey : Pubkey) (account : AccountSharedData)
  /-- the last holder of a removed slot cache drops it -/
  | drop (i : Nat)
  /-- the remote loader changes under the cache -/
  | setRemoteLoader (l : RemoteAccountLoader)

namespace AccountsCache

def new (l : RemoteAccountLoader) : AccountsCache :=
  { cache := ∅, totalSize := 0, remoteLoader := l }

/-- `remove_slot`: the slot cache leaves the map and is handed to the caller. -/
def takeSlot (c : AccountsCache) (slot : Slot) : AccountsCache × Option SlotCacheInner :=
  ({ c with cache := c.cache.erase slot }, c.slotCache slot)

def removeSlotsLe (c : AccountsCache) (maxRoot : Slot) :
    AccountsCache × List (Slot × SlotCacheInner) :=
  ({ c with cache := MapSum.retain (fun slot => !decide (slot ≤ maxRoot)) c.cache },
    (c.cache.entries.filter (fun e => decide (e.1 ≤ maxRoot))).map (fun e => (e.1, e.2)))

/-- `should_aggressively_flush_cache`, which compares `size` with the limit. -/
def shouldAggressivelyFlushCache (c : AccountsCache) (writeCacheLimitBytes : Nat) : Bool :=
  decide (writeCacheLimitBytes < c.totalSize.toNat)

end AccountsCache

namespace SharedCache

variable (s : SharedCache)

def new (l : RemoteAccountLoader) : SharedCache :=
  { accountsCache := .new l, removed := [] }

/-- `Drop` of a removed slot cache. -/
def drop (i : Nat) : SharedCache :=
  match s.removed[i]? with
  | some inner =>
    { accountsCache :=
        { s.accountsCache with totalSize := s.accountsCache.totalSize - inner.size }
      removed := s.removed.eraseIdx i }
  | none => s

/-- A write into a removed slot cache. -/
def insertRemoved (i : Nat) (pubkey : Pubkey) (account : AccountSharedData) : SharedCache :=
  match s.removed[i]? with
  | some inner =>
    let r := inner.insert s.accountsCache.totalSize pubkey account
    { accountsCache := { s.accountsCache with totalSize := r.2 }
      removed := s.removed.set i r.1 }
  | none => s

def step : CacheOp → SharedCache
  | .store slot pubkey account =>
    { s with accountsCache := s.accountsCache.store slot pubkey account }
  | .load slot pubkey => { s with accountsCache := (s.accountsCache.load slot pubkey).1 }
  | .removeSlot slot =>
    let r := s.accountsCache.takeSlot slot
    { accountsCache := r.1, removed := s.removed ++ r.2.toList }
  | .removeSlotsLe maxRoot =>
    let r := s.accountsCache.removeSlotsLe maxRoot
    { accountsCache := r.1, removed := s.removed ++ r.2.map Prod.snd }
  | .insertRemoved i pubkey account => s.insertRemoved i pubkey account
  | .drop i => s.drop i
  | .setRemoteLoader l => { s with accountsCache := { s.accountsCache with remoteLoader := l } }

def run (ops : List CacheOp) : SharedCache := ops.foldl step s

/-- The slot caches that are alive. -/
def live : List SlotCacheInner :=
  s.accountsCache.cache.entries.map (fun e => e.2) ++ s.removed

def liveBytes : Nat := (s.live.map SlotCacheInner.bytes).sum

def storeSubtractions (slot : Slot) (pubkey : Pubkey) (account : AccountSharedData) :
    List (UInt64 × UInt64) :=
  ((s.accountsCache.slotCache slot).getD SlotCacheInner.newInner).insertSubtractions
    s.accountsCache.totalSize pubkey account

/-- The pairs `(counter, amount)` of the atomic subtractions of an operation. -/
def subtractions : CacheOp → List (UInt64 × UInt64)
  | .store slot pubkey account => s.storeSubtractions slot pubkey account
  | .load slot pubkey =>
    match s.accountsCache.holds slot pubkey, s.accountsCache.remoteLoader.getAccount pubkey with
    | none, some account => s.storeSubtractions slot pubkey account
    | _, _ => []
  | .insertRemoved i pubkey account =>
    match s.removed[i]? with
    | some inner => inner.insertSubtractions s.accountsCache.totalSize pubkey account
    | none => []
  | .drop i =>
    match s.removed[i]? with
    | some inner => [(s.accountsCache.totalSize, inner.size)]
    | none => []
  | .removeSlot _ => []
  | .removeSlotsLe _ => []
  | .setRemoteLoader _ => []

end SharedCache

section Counters
variable {c : SlotCacheInner} {total : UInt64} {k : Pubkey} {a : AccountSharedData}

/-- A slot cache whose counter is right. -/
def SlotCacheInner.Accounted (c : SlotCacheInner) : Prop := c.size = UInt64.ofNat c.bytes

theorem SlotCacheInner.newInner_accounted : newInner.Accounted := rfl

theorem SlotCacheInner.bytes_insert (c : SlotCacheInner) (total : UInt64) (k : Pubkey)
    (a : AccountSharedData) :
    (c.insert total k a).1.bytes + ((c.getCloned k).map (fun old => old.data.length)).getD 0 =
      c.bytes + a.data.length := by
  unfold bytes
  rw [insert_cache]
  exact total_insert _ c.cache k a


/-- What one write does to the counters: it adds to both of them, or subtracts from both of
them what the slot cache has lost. -/
theorem insert_cases (c : SlotCacheInner) (total : UInt64) (k : Pubkey) (a : AccountSharedData) :
    (∃ n, (c.insert total k a).1.bytes = c.bytes + n ∧
      (c.insert total k a).1.size = c.size + ofNat n ∧
      (c.insert total k a).2 = total + ofNat n ∧
      c.insertSubtractions total k a = []) ∨
    ∃ n, n ≤ c.bytes ∧ (c.insert total k a).1.bytes = c.bytes - n ∧
      (c.insert total k a).1.size = c.size - ofNat n ∧
      (c.insert total k a).2 = total - ofNat n ∧
      c.insertSubtractions total k a = [(c.size, ofNat n), (total, ofNat n)] := by
  have hbytes := c.bytes_insert total k a
  unfold insertSubtractions
  cases hold : c.getCloned k with
  | none =>
    rw [hold, Option.map_none, Option.getD_none, Nat.add_zero] at hbytes
    refine .inl ⟨_, hbytes, ?_, ?_, rfl⟩ <;>
      rw [SlotCacheInner.insert, hold]
  | some old =>
    rw [hold, Option.map_some, Option.getD_some] at hbytes
    by_cases hgrow : 0 < a.data.length - old.data.length
    · refine .inl ⟨a.data.length - old.data.length, by omega, ?_, ?_, if_pos hgrow⟩ <;>
        simp only [SlotCacheInner.insert, hold, if_pos hgrow]
    · by_cases hshrink : 0 < old.data.length - a.data.length
      · refine .inr ⟨old.data.length - a.data.length, by omega, by omega, ?_, ?_, ?_⟩ <;>
          simp only [SlotCacheInner.insert, hold, if_neg hgrow, if_pos hshrink]
      · have hsame : c.insert total k a = ({ c with cache := c.cache.insert k a }, total) := by
          simp only [SlotCacheInner.insert, hold, if_neg hgrow, if_neg hshrink]
        refine .inl ⟨0, by omega, ?_, ?_, ?_⟩
        · rw [hsame]
          exact (add_zero _).symm
        · rw [hsame]
          exact (add_zero _).symm
        · dsimp only
          rw [if_neg hgrow, if_neg hshrink]

/-- One write keeps the counter of the slot cache and the shared counter right; the other
slot caches hold the rest of the bytes. -/
theorem insert_accounted (hc : c.Accounted) {n : Nat} (hle : c.bytes ≤ n)
    (htotal : total = ofNat n) :
    (c.insert total k a).1.Accounted ∧
      (c.insert total k a).2 = ofNat (n - c.bytes + (c.insert total k a).1.bytes) := by
  rw [← Nat.sub_add_cancel hle] at htotal
  unfold SlotCacheInner.Accounted at hc ⊢
  rcases insert_cases c total k a with ⟨n, hbytes, hsize, htotal', _⟩ |
    ⟨n, hn, hbytes, hsize, htotal', _⟩
  · rw [hbytes, hsize, htotal', hc, htotal, ← ofNat_add, ← ofNat_add, Nat.add_assoc]
    exact ⟨rfl, rfl⟩
  · rw [hbytes, hsize, htotal', hc, htotal, ← ofNat_sub hn,
      ← ofNat_sub (hn.trans (Nat.le_add_left _ _)), Nat.add_sub_assoc hn]
    exact ⟨rfl, rfl⟩

end Counters

namespace SharedCache

variable {s : SharedCache}

/-- All counters are right, up to the width of the counters. -/
structure Accounted (s : SharedCache) : Prop where
  each : ∀ c ∈ s.live, c.Accounted
  total : s.accountsCache.totalSize = UInt64.ofNat s.liveBytes

theorem liveBytes_eq (s : SharedCache) :
    s.liveBytes = MapSum.total bytes s.accountsCache.cache +
      (s.removed.map bytes).sum := by
  unfold liveBytes live total
  rw [map_append, sum_append, map_map]
  rfl

theorem mem_live {c : SlotCacheInner} :
    c ∈ s.live ↔ (∃ slot, ⟨slot, c⟩ ∈ s.accountsCache.cache.entries) ∨ c ∈ s.removed := by
  unfold live
  rw [mem_append, mem_map]
  constructor
  · rintro (⟨⟨slot, c'⟩, he, rfl⟩ | hc)
    · exact .inl ⟨slot, he⟩
    · exact .inr hc
  · rintro (⟨slot, he⟩ | hc)
    · exact .inl ⟨_, he, rfl⟩
    · exact .inr hc

theorem inner_accounted (h : s.Accounted) (slot : Slot) :
    ((s.accountsCache.slotCache slot).getD newInner).Accounted := by
  cases hlookup : s.accountsCache.slotCache slot with
  | none => exact newInner_accounted
  | some inner =>
    exact h.each inner (mem_live.mpr (.inl ⟨slot, AList.mem_lookup_iff.mp hlookup⟩))

theorem weightAt_slotCache (s : SharedCache) (slot : Slot) :
    MapSum.weightAt bytes s.accountsCache.cache slot =
      ((s.accountsCache.slotCache slot).getD newInner).bytes := by
  unfold weightAt slotCache
  cases s.accountsCache.cache.lookup slot <;> rfl

theorem store_accounted (h : s.Accounted) (slot : Slot) (k : Pubkey) (a : AccountSharedData) :
    (s.step (.store slot k a)).Accounted := by
  have hle := weightAt_le bytes s.accountsCache.cache slot
  have hbytes := liveBytes_eq s
  have hinner := inner_accounted h slot
  have hweight := weightAt_slotCache s slot
  have hafter := liveBytes_eq (s.step (.store slot k a))
  simp only [step, store] at hafter ⊢
  generalize (s.accountsCache.slotCache slot).getD newInner = inner at *
  have hsum := total_insert bytes s.accountsCache.cache slot
    (inner.insert s.accountsCache.totalSize k a).1
  obtain ⟨hone, hshared⟩ := insert_accounted (k := k) (a := a) hinner (by omega) h.total
  refine ⟨?_, ?_⟩
  · intro c hc
    rcases mem_live.mp hc with ⟨slot', he⟩ | hremoved
    · rcases mem_cons.mp he with heq | he
      · obtain ⟨_, rfl⟩ := Sigma.mk.inj_iff.mp heq
        exact hone
      · exact h.each c (mem_live.mpr (.inl ⟨slot', (kerase_sublist _ _).subset he⟩))
    · exact h.each c (mem_live.mpr (.inr hremoved))
  · refine hshared.trans (congrArg ofNat ?_)
    omega

theorem Accounted.moved {s' : SharedCache} (h : s.Accounted) (hmem : ∀ c ∈ s'.live, c ∈ s.live)
    (hbytes : s'.liveBytes = s.liveBytes)
    (htotal : s'.accountsCache.totalSize = s.accountsCache.totalSize) : s'.Accounted where
  each := fun c hc => h.each c (hmem c hc)
  total := by rw [htotal, hbytes, h.total]

theorem removeSlot_accounted (h : s.Accounted) (slot : Slot) :
    (s.step (.removeSlot slot)).Accounted := by
  refine h.moved ?_ ?_ rfl
  · intro c hc
    rcases mem_live.mp hc with ⟨slot', he⟩ | hremoved
    · exact mem_live.mpr (.inl ⟨slot', (kerase_sublist _ _).subset he⟩)
    · rcases mem_append.mp hremoved with hremoved | htaken
      · exact mem_live.mpr (.inr hremoved)
      · exact mem_live.mpr
          (.inl ⟨slot, AList.mem_lookup_iff.mp (Option.mem_toList.mp htaken)⟩)
  · have herase := total_erase bytes s.accountsCache.cache slot
    have htaken : ((s.accountsCache.slotCache slot).toList.map bytes).sum =
        weightAt bytes s.accountsCache.cache slot := by
      unfold weightAt slotCache
      cases s.accountsCache.cache.lookup slot <;> simp
    rw [liveBytes_eq, liveBytes_eq]
    simp only [step, takeSlot, map_append, sum_append]
    omega

theorem removeSlotsLe_accounted (h : s.Accounted) (maxRoot : Slot) :
    (s.step (.removeSlotsLe maxRoot)).Accounted := by
  refine h.moved ?_ ?_ rfl
  · intro c hc
    rcases mem_live.mp hc with ⟨slot', he⟩ | hremoved
    · exact mem_live.mpr (.inl ⟨slot', mem_of_mem_filter he⟩)
    · rcases mem_append.mp hremoved with hremoved | htaken
      · exact mem_live.mpr (.inr hremoved)
      · simp only [removeSlotsLe, map_map, mem_map] at htaken
        obtain ⟨⟨slot, c'⟩, he, rfl⟩ := htaken
        exact mem_live.mpr (.inl ⟨slot, mem_of_mem_filter he⟩)
  · have hretain := total_retain bytes
      (fun slot => !decide (slot ≤ maxRoot)) s.accountsCache.cache
    simp only [Bool.not_not] at hretain
    rw [liveBytes_eq, liveBytes_eq, ← hretain]
    simp only [step, removeSlotsLe, map_append, sum_append, map_map]
    have hsame : (fun e : (_ : Slot) × SlotCacheInner => e.2.bytes) =
        bytes ∘ Prod.snd ∘ (fun e => (e.1, e.2)) := rfl
    rw [← hsame]
    omega

theorem sum_eraseIdx {i : Nat} {inner : SlotCacheInner} (hi : s.removed[i]? = some inner) :
    inner.bytes + ((s.removed.eraseIdx i).map bytes).sum = (s.removed.map bytes).sum := by
  obtain ⟨hlt, rfl⟩ := List.getElem?_eq_some_iff.mp hi
  have hperm := (List.getElem_cons_eraseIdx_perm hlt).map bytes
  have hsum := hperm.sum_eq
  exact hsum

theorem drop_accounted (h : s.Accounted) (i : Nat) : (s.drop i).Accounted := by
  unfold drop
  cases hi : s.removed[i]? with
  | none => exact h
  | some inner =>
    have hsum := sum_eraseIdx hi
    have hbytes := liveBytes_eq s
    refine ⟨?_, ?_⟩
    · intro c hc
      rcases mem_live.mp hc with hcache | hremoved
      · exact h.each c (mem_live.mpr (.inl hcache))
      · exact h.each c (mem_live.mpr (.inr (mem_of_mem_eraseIdx hremoved)))
    · have hinner : inner.Accounted := h.each inner (mem_live.mpr (.inr (mem_of_getElem? hi)))
      change s.accountsCache.totalSize - inner.size = _
      rw [h.total, hinner, ← ofNat_sub (by omega)]
      refine congrArg ofNat (Eq.trans ?_ (liveBytes_eq _).symm)
      dsimp only
      omega

theorem insertRemoved_accounted (h : s.Accounted) (i : Nat) (k : Pubkey)
    (a : AccountSharedData) : (s.insertRemoved i k a).Accounted := by
  unfold insertRemoved
  cases hi : s.removed[i]? with
  | none => exact h
  | some inner =>
    have hsum := sum_eraseIdx hi
    have hbytes := liveBytes_eq s
    have hinner : inner.Accounted := h.each inner (mem_live.mpr (.inr (mem_of_getElem? hi)))
    obtain ⟨hone, hshared⟩ := insert_accounted (k := k) (a := a) hinner (by omega) h.total
    refine ⟨?_, ?_⟩
    · intro c hc
      rcases mem_live.mp hc with hcache | hremoved
      · exact h.each c (mem_live.mpr (.inl hcache))
      · rcases mem_or_eq_of_mem_set hremoved with hremoved | rfl
        · exact h.each c (mem_live.mpr (.inr hremoved))
        · exact hone
    · have hlt := (List.getElem?_eq_some_iff.mp hi).1
      have hset := ((List.set_perm_cons_eraseIdx hlt
        (inner.insert s.accountsCache.totalSize k a).1).map bytes).sum_eq
      rw [map_cons, sum_cons] at hset
      refine hshared.trans (congrArg ofNat (Eq.trans ?_ (liveBytes_eq _).symm))
      dsimp only
      omega

theorem step_accounted (h : s.Accounted) (op : CacheOp) : (s.step op).Accounted := by
  cases op with
  | store slot k a => exact store_accounted h slot k a
  | load slot k =>
    -- a load is a store of the remote account, or it changes nothing
    change Accounted { s with accountsCache := (s.accountsCache.load slot k).1 }
    rw [load_eq]
    cases s.accountsCache.holds slot k with
    | some a => exact h
    | none =>
      cases s.accountsCache.remoteLoader.getAccount k with
      | some a => exact store_accounted h slot k a
      | none => exact h
  | removeSlot slot => exact removeSlot_accounted h slot
  | removeSlotsLe maxRoot => exact removeSlotsLe_accounted h maxRoot
  | insertRemoved i k a => exact insertRemoved_accounted h i k a
  | drop i => exact drop_accounted h i
  | setRemoteLoader l => exact ⟨h.each, h.total⟩

theorem run_accounted (h : s.Accounted) (ops : List CacheOp) : (s.run ops).Accounted := by
  induction ops generalizing s with
  | nil => exact h
  | cons op ops ih => exact ih (step_accounted h op)

theorem new_accounted (l : RemoteAccountLoader) : (new l).Accounted where
  each := fun _ hc => absurd hc not_mem_nil
  total := rfl

theorem Accounted.exact (h : s.Accounted) (hfits : s.liveBytes ≤ u64Max) :
    (∀ c ∈ s.live, c.size.toNat = c.bytes) ∧
      s.accountsCache.totalSize.toNat = (s.live.map (fun c => c.size.toNat)).sum := by
  have hlt : ∀ n, n ≤ s.liveBytes → (ofNat n).toNat = n := by
    intro n hn
    unfold u64Max at hfits
    exact Nat.mod_eq_of_lt (by omega)
  have heach : ∀ c ∈ s.live, c.size.toNat = c.bytes := by
    intro c hc
    rw [h.each c hc]
    exact hlt _ (single_le_sum (fun _ _ => Nat.zero_le _) _ (mem_map_of_mem hc))
  refine ⟨heach, ?_⟩
  rw [h.total, hlt _ le_rfl, map_congr_left heach]
  rfl

theorem insert_no_wrap {c : SlotCacheInner} {total : UInt64} (hsize : c.size.toNat = c.bytes)
    (htotal : c.bytes ≤ total.toNat) (k : Pubkey) (a : AccountSharedData) :
    ∀ x ∈ c.insertSubtractions total k a, x.2 ≤ x.1 := by
  intro x hx
  rcases insert_cases c total k a with ⟨n, _, _, _, hsub⟩ | ⟨n, hn, _, _, _, hsub⟩
  · rw [hsub] at hx
    cases hx
  · have hamount : (ofNat n).toNat ≤ c.bytes := by
      exact (Nat.mod_le _ _).trans hn
    rw [hsub] at hx
    rcases mem_pair.mp hx with rfl | rfl
    · rw [le_iff_toNat_le, hsize]
      exact hamount
    · rw [le_iff_toNat_le]
      exact hamount.trans htotal

theorem no_wrap (h : s.Accounted) (hfits : s.liveBytes ≤ u64Max) (op : CacheOp) :
    ∀ x ∈ s.subtractions op, x.2 ≤ x.1 := by
  obtain ⟨hsizes, htotal⟩ := h.exact hfits
  have hle : ∀ c ∈ s.live, c.bytes ≤ s.accountsCache.totalSize.toNat := by
    intro c hc
    rw [htotal, ← hsizes c hc]
    exact single_le_sum (fun _ _ => Nat.zero_le _) _ (mem_map_of_mem hc)
  have hlive : ∀ c ∈ s.live, ∀ k a,
      ∀ x ∈ c.insertSubtractions s.accountsCache.totalSize k a, x.2 ≤ x.1 :=
    fun c hc k a => insert_no_wrap (hsizes c hc) (hle c hc) k a
  have hstore : ∀ slot k a, ∀ x ∈ s.storeSubtractions slot k a, x.2 ≤ x.1 := by
    intro slot k a
    unfold storeSubtractions
    cases hlookup : s.accountsCache.slotCache slot with
    | none => exact insert_no_wrap rfl (Nat.zero_le _) k a
    | some inner =>
      exact hlive inner (mem_live.mpr (.inl ⟨slot, AList.mem_lookup_iff.mp hlookup⟩)) k a
  cases op with
  | store slot k a => exact hstore slot k a
  | load slot k =>
    simp only [subtractions]
    cases s.accountsCache.holds slot k with
    | some a => exact fun _ hx => absurd hx not_mem_nil
    | none =>
      cases s.accountsCache.remoteLoader.getAccount k with
      | some a => exact hstore slot k a
      | none => exact fun _ hx => absurd hx not_mem_nil
  | insertRemoved i k a =>
    simp only [subtractions]
    cases hi : s.removed[i]? with
    | none => exact fun _ hx => absurd hx not_mem_nil
    | some inner => exact hlive inner (mem_live.mpr (.inr (mem_of_getElem? hi))) k a
  | drop i =>
    simp only [subtractions]
    cases hi : s.removed[i]? with
    | none => exact fun _ hx => absurd hx not_mem_nil
    | some inner =>
      have hmem := mem_live.mpr (.inr (mem_of_getElem? hi))
      intro x hx
      rw [mem_singleton.mp hx, le_iff_toNat_le, hsizes inner hmem]
      exact hle inner hmem
  | removeSlot slot => exact fun _ hx => absurd hx not_mem_nil
  | removeSlotsLe maxRoot => exact fun _ hx => absurd hx not_mem_nil
  | setRemoteLoader l => exact fun _ hx => absurd hx not_mem_nil

/-- After any sequence of operations on an empty write cache every counter is the number of
bytes that it counts, modulo `2 ^ 64`.  While the live bytes fit into 64 bits the counters are
exact, the total is the sum of the sizes of the live slot caches, the flush policy compares
the live bytes with its limit, and no subtraction of the next operation wraps. -/
theorem cacheAccounting (l : RemoteAccountLoader) (ops : List CacheOp) :
    ((new l).run ops).Accounted ∧
      (((new l).run ops).liveBytes ≤ u64Max →
        (∀ c ∈ ((new l).run ops).live, c.size.toNat = c.bytes) ∧
        ((new l).run ops).accountsCache.totalSize.toNat =
          (((new l).run ops).live.map (fun c => c.size.toNat)).sum ∧
        (∀ limit, ((new l).run ops).accountsCache.shouldAggressivelyFlushCache limit =
          decide (limit < ((new l).run ops).liveBytes)) ∧
        ∀ op, ∀ x ∈ ((new l).run ops).subtractions op, x.2 ≤ x.1) := by
  have h := run_accounted (new_accounted l) ops
  refine ⟨h, fun hfits => ?_⟩
  obtain ⟨hsizes, htotal⟩ := h.exact hfits
  refine ⟨hsizes, htotal, ?_, no_wrap h hfits⟩
  intro limit
  unfold shouldAggressivelyFlushCache
  rw [htotal, map_congr_left hsizes]
  rfl

end SharedCache
end Hypergrid
