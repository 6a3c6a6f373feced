import Hypergrid.RemoteLoader

/-!
# The write cache

The model of `accounts-db/src/accounts_cache.rs`: one slot cache for every slot
that has not been flushed, and the remote loader beside them.

`load` is the function the coprocessor changed.  A key that the slot cache does
not hold is taken from the remote loader, and the copy is *stored into that slot
cache*; `load_eq` and `holds_load` say what a load returns and what it leaves
behind in terms of `holds`, the account that the write cache has for a slot and
a key.
-/

namespace Hypergrid

/-- `SlotCacheInner`: the accounts written in one slot. -/
structure SlotCacheInner where
  cache : AList (fun _ : Pubkey => AccountSharedData)
  size : UInt64
  isFrozen : Bool

namespace SlotCacheInner

def newInner : SlotCacheInner := { cache := ∅, size := 0, isFrozen := false }

def getCloned (c : SlotCacheInner) (pubkey : Pubkey) : Option AccountSharedData :=
  c.cache.lookup pubkey

/-- `insert`: the slot cache and the total size after the write. -/
def insert (c : SlotCacheInner) (totalSize : UInt64) (pubkey : Pubkey)
    (account : AccountSharedData) : SlotCacheInner × UInt64 :=
  let dataLen := account.data.length
  let cache := c.cache.insert pubkey account
  match c.getCloned pubkey with
  | some old =>
    let oldLen := old.data.length
    let grow := dataLen - oldLen
    if 0 < grow then
      ({ c with cache, size := c.size + UInt64.ofNat grow },
        totalSize + UInt64.ofNat grow)
    else
      let shrink := oldLen - dataLen
      if 0 < shrink then
        ({ c with cache, size := c.size - UInt64.ofNat shrink },
          totalSize - UInt64.ofNat shrink)
      else ({ c with cache }, totalSize)
  | none =>
    ({ c with cache, size := c.size + UInt64.ofNat dataLen },
      totalSize + UInt64.ofNat dataLen)

theorem insert_cache (c : SlotCacheInner) (total : UInt64) (k : Pubkey) (a : AccountSharedData) :
    (c.insert total k a).1.cache = c.cache.insert k a := by
  unfold insert
  cases c.getCloned k with
  | none => rfl
  | some old =>
    dsimp only
    split_ifs <;> rfl

end SlotCacheInner

structure AccountsCache where
  cache : AList (fun _ : Slot => SlotCacheInner)
  totalSize : UInt64
  remoteLoader : RemoteAccountLoader

namespace AccountsCache

variable (c : AccountsCache) (slot : Slot) (pubkey : Pubkey)

def slotCache : Option SlotCacheInner :=
  c.cache.lookup slot

/-- `store`: the slot cache is created when it is absent. -/
def store (account : AccountSharedData) : AccountsCache :=
  let inner := (c.slotCache slot).getD SlotCacheInner.newInner
  let r := inner.insert c.totalSize pubkey account
  { c with cache := c.cache.insert slot r.1, totalSize := r.2 }

/-- `load`: a miss is answered, and stored, from the remote loader. -/
def load : AccountsCache × Option AccountSharedData :=
  match (c.slotCache slot).bind (fun slotCache => slotCache.getCloned pubkey) with
  | some account => (c, some account)
  | none =>
    match c.remoteLoader.getAccount pubkey with
    | some acc => (c.store slot pubkey acc, some acc)
    | none => (c, none)

def hasAccountFromRemote : Bool :=
  c.remoteLoader.hasAccount pubkey

/-- `load_accounts_from_remote`; `rpc` gives the RPC answers for each key. -/
def loadAccountsFromRemote (rpc : Pubkey → List (Option RpcAccount)) (pubkeys : List Pubkey) :
    AccountsCache :=
  { c with
    remoteLoader :=
      pubkeys.foldl (fun l pubkey => (l.loadAccount pubkey (rpc pubkey)).1)
        c.remoteLoader }

def deactivateRemoteAccounts (pubkeys : List Pubkey) : AccountsCache :=
  { c with
    remoteLoader := pubkeys.foldl (fun l pubkey => l.deactivateAccount pubkey)
        c.remoteLoader }

/-- `remove_slot`; the removed slot cache is dropped and gives its size back. -/
def removeSlot : AccountsCache :=
  { c with
    cache := c.cache.erase slot
    totalSize := c.totalSize - ((c.slotCache slot).map SlotCacheInner.size).getD 0 }

/-- What the write cache holds for a key in a slot. -/
def holds : Option AccountSharedData :=
  (c.slotCache slot).bind (fun slotCache => slotCache.getCloned pubkey)

variable (c : AccountsCache)
variable (slot : Slot) (k : Pubkey)

theorem holds_store (a : AccountSharedData) (slot' : Slot) (k' : Pubkey) :
    (c.store slot k a).holds slot' k' =
      if slot' = slot ∧ k' = k then some a else c.holds slot' k' := by
  by_cases hs : slot' = slot
  · subst hs
    simp only [holds, slotCache, store, AList.lookup_insert, Option.bind_some,
      SlotCacheInner.getCloned, SlotCacheInner.insert_cache, true_and]
    by_cases hk : k' = k
    · subst hk
      simp
    · rw [AList.lookup_insert_ne hk, if_neg hk]
      cases c.cache.lookup slot' with
      | none => simp [SlotCacheInner.newInner]
      | some inner => simp
  · simp [holds, slotCache, store, AList.lookup_insert_ne hs, hs]

theorem holds_removeSlot (slot slot' : Slot) (k : Pubkey) :
    (c.removeSlot slot).holds slot' k =
      if slot' = slot then none else c.holds slot' k := by
  by_cases hs : slot' = slot
  · subst hs
    simp [holds, slotCache, removeSlot]
  · simp [holds, slotCache, removeSlot, AList.lookup_erase_ne hs, hs]

theorem load_eq :
    c.load slot k =
      match c.holds slot k, c.remoteLoader.getAccount k with
      | some a, _ => (c, some a)
      | none, some a => (c.store slot k a, some a)
      | none, none => (c, none) := by
  unfold load holds
  split
  · rename_i a h
    rw [h]
  · rename_i h
    rw [h]
    cases c.remoteLoader.getAccount k <;> rfl

theorem load_snd : (c.load slot k).2 = (c.holds slot k).or (c.remoteLoader.getAccount k) := by
  rw [load_eq]
  cases c.holds slot k with
  | some a => rfl
  | none => cases c.remoteLoader.getAccount k <;> rfl

@[simp] theorem load_remoteLoader : (c.load slot k).1.remoteLoader = c.remoteLoader := by
  rw [load_eq]
  cases c.holds slot k with
  | some a => rfl
  | none => cases c.remoteLoader.getAccount k <;> rfl

theorem holds_load (slot' : Slot) (k' : Pubkey) :
    (c.load slot k).1.holds slot' k' =
      if slot' = slot ∧ k' = k then (c.load slot k).2 else c.holds slot' k' := by
  rw [load_eq]
  cases hc : c.holds slot k with
  | some a =>
    by_cases h : slot' = slot ∧ k' = k
    · simp [h, hc]
    · simp [h]
  | none =>
    cases hl : c.remoteLoader.getAccount k with
    | some a => exact holds_store c slot k a slot' k'
    | none =>
      by_cases h : slot' = slot ∧ k' = k
      · simp [h, hc]
      · simp [h]

end AccountsCache
end Hypergrid
