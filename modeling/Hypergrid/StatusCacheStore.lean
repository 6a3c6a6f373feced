import Hypergrid.Bank
import Hypergrid.Lib.GuardedRun
import Hypergrid.Lib.PointUpdate

/-!
# The status cache

`runtime/src/status_cache.rs` with its three maps: the statuses by blockhash and key slice, the
roots, and the statuses that each slot added.

A key is a list of bytes and is stored under a slice of it.  The place of the slice is drawn
when a blockhash gets its first key and is clipped to the length of each key.  A panic of the
source is `none`.  The hash maps of a slot are visited in any order; the order is an argument.

* `getStatus_of_inserted` : an inserted key is found as long as its slot is not cleared and no
  root at or above its slot is dropped.
* `clearSlotEntries_cleared` : what clearing a slot does, if it does not panic.
-/

namespace Hypergrid
open AList Option Function

abbrev KeySlice := List UInt8

/-- The value of `KeyStatusMap`: the highest slot, the place of the slices and the statuses. -/
structure BlockhashStatuses (T : Type) where
  maxSlot : Slot
  keyIndex : Nat
  keyMap : AList (fun _ : KeySlice => List (Slot × T))

/-- `Status`: the statuses that a slot added, by blockhash. -/
abbrev SlotStatus (T : Type) := AList (fun _ : Hash => Nat × List (KeySlice × T))

/-- `SlotDelta`, the map of statuses as a list in the order in which it is visited. -/
structure SlotDelta (T : Type) where
  slot : Slot
  isRoot : Bool
  statuses : List (Hash × Nat × List (KeySlice × T))

/-- `StatusCache`. -/
structure StatusCacheStore (T : Type) where
  cache : Hash → Option (BlockhashStatuses T)
  roots : Finset Slot
  slotDeltas : Slot → Option (SlotStatus T)

namespace StatusCacheStore

def cachedKeySize : Nat := 20

def maxCacheEntries : Nat := 300

variable {T : Type}
variable (c : StatusCacheStore T) (transactionBlockhash : Hash) (slot : Slot) (key : List UInt8)

/-- `StatusCache::default`: 0 is always a root. -/
def default : StatusCacheStore T :=
  { cache := fun _ => none, roots := {0}, slotDeltas := fun _ => none }

def maxKeyIndex : Nat := key.length - (cachedKeySize + 1)

/-- The bytes of a key from a place on; out of bounds is a panic. -/
def sliceAt (index : Nat) : Option KeySlice :=
  if index + cachedKeySize ≤ key.length then some ((key.drop index).take cachedKeySize)
  else none

/-- The slice of a key for a blockhash. -/
def keySlice (entry : BlockhashStatuses T) (key : List UInt8) : Option KeySlice :=
  sliceAt key (min entry.keyIndex (maxKeyIndex key))

def getStatus (transactionBlockhash : Hash)
    (ancestors : Finset Slot) : Option (Option (Slot × T)) :=
  match c.cache transactionBlockhash with
  | none => some none
  | some entry => do
      let slice ← keySlice entry key
      match entry.keyMap.lookup slice with
      | some storedForks =>
        return storedForks.find? (fun fork =>
          decide (fork.1 ∈ ancestors) || decide (fork.1 ∈ c.roots))
      | none => return none

/-- The entry of a blockhash in `insert` and `insert_with_slice`: a new one if there is none,
with the highest slot it has been seen in. -/
def openBlockhash (keyIndex : Nat) : BlockhashStatuses T :=
  let hashMap := (c.cache transactionBlockhash).getD ⟨slot, keyIndex, ∅⟩
  { hashMap with maxSlot := max slot hashMap.maxSlot }

def setBlockhash (hashMap : BlockhashStatuses T) : StatusCacheStore T :=
  { c with cache := Function.update c.cache transactionBlockhash (some hashMap) }

def addDelta (keyIndex : Nat) (slice : KeySlice) (res : T) : SlotStatus T :=
  let slotDeltas := (c.slotDeltas slot).getD ∅
  let hashEntry := (slotDeltas.lookup transactionBlockhash).getD (keyIndex, [])
  slotDeltas.insert transactionBlockhash (hashEntry.1, hashEntry.2 ++ [(slice, res)])

def insertWithSlice (keyIndex : Nat) (slice : KeySlice) (res : T) : StatusCacheStore T :=
  let hashMap := c.openBlockhash transactionBlockhash slot keyIndex
  let forks := (hashMap.keyMap.lookup slice).getD [] ++ [(slot, res)]
  { c.setBlockhash transactionBlockhash
      { hashMap with keyMap := hashMap.keyMap.insert slice forks } with
    slotDeltas := Function.update c.slotDeltas slot
      (some (c.addDelta transactionBlockhash slot keyIndex slice res)) }

/-- `insert`; `random` is the number that is drawn for a new blockhash. -/
def insert (slot : Slot) (res : T) (random : Nat) : Option (StatusCacheStore T) :=
  let hashMap := c.openBlockhash transactionBlockhash slot (random % (maxKeyIndex key + 1))
  (keySlice hashMap key).map (fun slice =>
    (c.setBlockhash transactionBlockhash hashMap).insertWithSlice transactionBlockhash slot
      (min hashMap.keyIndex (maxKeyIndex key)) slice res)

/-- The root that `purge_roots` drops. -/
def purgedRoot : Option Slot :=
  if h : maxCacheEntries < c.roots.card then
    some (c.roots.min' (Finset.card_pos.mp (Nat.zero_lt_of_lt h)))
  else none

def purgeRoots : StatusCacheStore T :=
  match c.purgedRoot with
  | some min =>
    { cache := fun h => (c.cache h).filter (fun entry => decide (min < entry.maxSlot))
      roots := c.roots.erase min
      slotDeltas := fun slot => if min < slot then c.slotDeltas slot else none }
  | none => c

def addRoot (fork : Slot) : StatusCacheStore T :=
  { c with roots := Insert.insert fork c.roots }.purgeRoots

/-- The statuses of one blockhash in `append`. -/
def appendStatuses (c : StatusCacheStore T)
    (x : Hash × Nat × List (KeySlice × T)) : StatusCacheStore T :=
  x.2.2.foldl (fun c y => c.insertWithSlice x.1 slot x.2.1 y.1 y.2) c

/-- One slot delta of `append`. -/
def appendDelta (delta : SlotDelta T) : StatusCacheStore T :=
  let c := delta.statuses.foldl (appendStatuses delta.slot) c
  if delta.isRoot then c.addRoot delta.slot else c

def append (slotDeltas : List (SlotDelta T)) : StatusCacheStore T :=
  slotDeltas.foldl appendDelta c

/-- The innermost loop of `clear_slot_entries`: the statuses of one slice. -/
def clearKey (keyMap : AList (fun _ : KeySlice => List (Slot × T)))
    (x : KeySlice × T) : Option (AList (fun _ : KeySlice => List (Slot × T))) :=
  match keyMap.lookup x.1 with
  | some keyList =>
    let keyList := keyList.filter (fun y => decide (y.1 ≠ slot))
    some (if keyList.isEmpty then keyMap.erase x.1 else keyMap.insert x.1 keyList)
  | none => none

/-- The loop of `clear_slot_entries` over the statuses of one blockhash. -/
def clearBlockhash (keyList : List (KeySlice × T))
    (entry : Option (BlockhashStatuses T)) : Option (Option (BlockhashStatuses T)) :=
  match entry with
  | some entry => do
      let keyMap ← keyList.foldlM (clearKey slot) entry.keyMap
      return if keyMap.entries.isEmpty then none else some { entry with keyMap }
  | none => none

/-- `clear_slot_entries`, with the order in which the blockhashes of the slot are visited. -/
def clearSlotEntries (order : List Hash) : Option (StatusCacheStore T) :=
  match c.slotDeltas slot with
  | none => some c
  | some deltas => do
      let cache ← PointUpdate.visit
        (fun h => clearBlockhash slot ((deltas.lookup h).elim [] Prod.snd)) order c.cache
      return { c with cache, slotDeltas := Function.update c.slotDeltas slot none }

def blockhashesOf : List Hash :=
  (c.slotDeltas slot).elim [] AList.keys

def forks (keyMap : AList (fun _ : KeySlice => List (Slot × T))) (slice : KeySlice) :
    List (Slot × T) :=
  (keyMap.lookup slice).getD []

/-- The stored forks of a slice under a blockhash. -/
def forksAt (h : Hash) (slice : KeySlice) : List (Slot × T) :=
  (c.cache h).elim [] (fun entry => forks entry.keyMap slice)

def listed (h : Hash) : List KeySlice :=
  ((c.slotDeltas slot).bind (AList.lookup h)).elim [] (fun x => x.2.map Prod.fst)

section Lookup
variable {c : StatusCacheStore T} {h : Hash} {entry : BlockhashStatuses T}

theorem forksAt_of_cache (hcache : c.cache h = some entry) (slice : KeySlice) :
    c.forksAt h slice = forks entry.keyMap slice := by
  simp [forksAt, hcache]

theorem getStatus_eq (hcache : c.cache h = some entry) (key : List UInt8)
    (ancestors : Finset Slot) :
    c.getStatus key h ancestors = (keySlice entry key).map (fun slice =>
      (c.forksAt h slice).find? (fun fork =>
        decide (fork.1 ∈ ancestors) || decide (fork.1 ∈ c.roots))) := by
  unfold getStatus
  rw [hcache]
  dsimp only
  cases hslice : keySlice entry key with
  | none => rfl
  | some slice =>
    rw [map_some, forksAt_of_cache hcache, forks]
    cases hlookup : entry.keyMap.lookup slice with
    | none => simp [hlookup]
    | some storedForks => simp [hlookup]

theorem keySlice_isSome {key : List UInt8} (hkey : cachedKeySize ≤ key.length) :
    ∃ slice, keySlice entry key = some slice := by
  unfold keySlice sliceAt
  rw [if_pos]
  · exact ⟨_, rfl⟩
  · have hle : min entry.keyIndex (maxKeyIndex key) ≤ maxKeyIndex key := Nat.min_le_right _ _
    unfold maxKeyIndex at hle ⊢
    omega

end Lookup

section Clear
variable {slot : Slot} {keyMap keyMap' : AList (fun _ : KeySlice => List (Slot × T))}

/-- What is left of the forks of a slice when a slot is cleared. -/
def without (slot : Slot) (storedForks : List (Slot × T)) : List (Slot × T) :=
  storedForks.filter (fun y => decide (y.1 ≠ slot))

theorem mem_without {storedForks : List (Slot × T)} {x : Slot × T} :
    x ∈ without slot storedForks ↔ x ∈ storedForks ∧ x.1 ≠ slot := by
  simp [without]

theorem without_idem (storedForks : List (Slot × T)) :
    without slot (without slot storedForks) = without slot storedForks := by
  simp [without, List.filter_filter]

/-- The source keeps no empty lists. -/
def NoEmptyLists (keyMap : AList (fun _ : KeySlice => List (Slot × T))) : Prop :=
  ∀ slice, keyMap.lookup slice ≠ some []

theorem forks_clearKey {x : KeySlice × T} (h : clearKey slot keyMap x = some keyMap')
    (slice : KeySlice) :
    forks keyMap' slice =
      if slice = x.1 then without slot (forks keyMap slice) else forks keyMap slice := by
  unfold clearKey at h
  cases hlookup : keyMap.lookup x.1 with
  | none => simp [hlookup] at h
  | some keyList =>
    rw [hlookup] at h
    simp only [some.injEq] at h
    subst h
    by_cases hslice : slice = x.1
    · subst hslice
      rw [if_pos rfl]
      have hforks : forks keyMap x.1 = keyList := by simp [forks, hlookup]
      rw [hforks]
      split_ifs with hempty
      · rw [forks, lookup_erase, getD_none]
        exact (List.isEmpty_iff.mp hempty).symm
      · rw [forks, lookup_insert, getD_some]
        rfl
    · rw [if_neg hslice]
      unfold forks
      split_ifs
      · rw [lookup_erase_ne hslice]
      · rw [lookup_insert_ne hslice]

theorem NoEmptyLists.clearKey {x : KeySlice × T} (hne : NoEmptyLists keyMap)
    (h : clearKey slot keyMap x = some keyMap') : NoEmptyLists keyMap' := by
  intro slice
  unfold StatusCacheStore.clearKey at h
  cases hlookup : keyMap.lookup x.1 with
  | none => simp [hlookup] at h
  | some keyList =>
    rw [hlookup] at h
    simp only [some.injEq] at h
    subst h
    split_ifs with hempty
    · by_cases hslice : slice = x.1
      · rw [hslice, lookup_erase]
        simp
      · rw [lookup_erase_ne hslice]
        exact hne slice
    · by_cases hslice : slice = x.1
      · rw [hslice, lookup_insert]
        intro hnil
        exact hempty (List.isEmpty_iff.mpr (some.inj hnil))
      · rw [lookup_insert_ne hslice]
        exact hne slice

theorem forks_foldlM_clearKey (xs : List (KeySlice × T)) :
    ∀ {keyMap}, xs.foldlM (clearKey slot) keyMap = some keyMap' → ∀ slice, forks keyMap' slice =
        if slice ∈ xs.map Prod.fst then without slot (forks keyMap slice)
        else forks keyMap slice := by
  induction xs with
  | nil =>
    intro keyMap h slice
    simp only [List.foldlM_nil, pure_def, some.injEq] at h
    subst h
    simp
  | cons x xs ih =>
    intro keyMap h slice
    rw [List.foldlM_cons, bind_eq_bind, bind_eq_some_iff] at h
    obtain ⟨keyMap₁, hx, hxs⟩ := h
    rw [ih hxs slice, forks_clearKey hx slice]
    by_cases hslice : slice = x.1
    · have hmem : slice ∈ (x :: xs).map Prod.fst := by
        rw [List.map_cons, hslice]
        exact List.mem_cons_self
      rw [if_pos hslice, if_pos hmem, without_idem, ite_self]
    · simp only [List.map_cons, List.mem_cons, hslice, false_or, if_false]

theorem NoEmptyLists.foldlM_clearKey (xs : List (KeySlice × T)) :
    ∀ {keyMap}, NoEmptyLists keyMap → xs.foldlM (StatusCacheStore.clearKey slot) keyMap =
      some keyMap' → NoEmptyLists keyMap' := by
  induction xs with
  | nil =>
    intro keyMap hne h
    simp only [List.foldlM_nil, pure_def, some.injEq] at h
    exact h ▸ hne
  | cons x xs ih =>
    intro keyMap hne h
    rw [List.foldlM_cons, bind_eq_bind, bind_eq_some_iff] at h
    obtain ⟨keyMap₁, hx, hxs⟩ := h
    exact ih (hne.clearKey hx) hxs

theorem clearBlockhash_some {xs : List (KeySlice × T)} {entry entry' : Option (BlockhashStatuses T)}
    (h : clearBlockhash slot xs entry = some entry') :
    (∀ slice, entry'.elim [] (fun e => forks e.keyMap slice) =
      if slice ∈ xs.map Prod.fst then
        without slot (entry.elim [] (fun e => forks e.keyMap slice))
      else entry.elim [] (fun e => forks e.keyMap slice)) ∧
    ∃ e, entry = some e ∧ ∀ e', entry' = some e' →
      e'.keyIndex = e.keyIndex ∧ e'.maxSlot = e.maxSlot ∧
        (NoEmptyLists e.keyMap → NoEmptyLists e'.keyMap) := by
  unfold clearBlockhash at h
  cases entry with
  | none => simp at h
  | some e =>
    simp only [bind_eq_bind, bind_eq_some_iff, pure_def, some.injEq] at h
    obtain ⟨keyMap', hloop, hentry⟩ := h
    subst hentry
    refine ⟨fun slice => ?_, e, rfl, ?_⟩
    · have hforks := forks_foldlM_clearKey xs hloop slice
      split_ifs at hforks ⊢ with hempty hmem hmem <;>
        simp only [elim_none, elim_some] <;> rw [← hforks]
      all_goals
        simp [forks, lookup, List.isEmpty_iff.mp hempty]
    · intro e' he'
      split_ifs at he' with hempty
      simp only [some.injEq] at he'
      subst he'
      exact ⟨rfl, rfl, fun hne => hne.foldlM_clearKey xs hloop⟩

/-- What clearing a slot does: the listed slices lose the statuses of the slot. -/
structure Cleared (slot : Slot) (c c' : StatusCacheStore T) : Prop where
  roots : c'.roots = c.roots
  slotDeltas : c'.slotDeltas = Function.update c.slotDeltas slot none
  forksAt : ∀ h slice, c'.forksAt h slice =
    if slice ∈ c.listed slot h then without slot (c.forksAt h slice) else c.forksAt h slice
  entries : ∀ h e', c'.cache h = some e' → ∃ e, c.cache h = some e ∧
    e'.keyIndex = e.keyIndex ∧ e'.maxSlot = e.maxSlot ∧
      (NoEmptyLists e.keyMap → NoEmptyLists e'.keyMap)

theorem listed_of_slotDeltas {c : StatusCacheStore T} {deltas : SlotStatus T}
    (hdeltas : c.slotDeltas slot = some deltas) (h : Hash) :
    c.listed slot h = ((deltas.lookup h).elim [] Prod.snd).map Prod.fst := by
  unfold listed
  rw [hdeltas, bind_some]
  cases deltas.lookup h <;> rfl

theorem nodup_blockhashesOf (c : StatusCacheStore T) (slot : Slot) :
    (c.blockhashesOf slot).Nodup := by
  unfold blockhashesOf
  cases c.slotDeltas slot with
  | none => exact List.nodup_nil
  | some deltas => exact deltas.keys_nodup

theorem clearSlotEntries_cleared {c c' : StatusCacheStore T} {order : List Hash}
    (hperm : order.Perm (c.blockhashesOf slot))
    (h : c.clearSlotEntries slot order = some c') : Cleared slot c c' := by
  have hnodup : order.Nodup := hperm.nodup_iff.mpr (c.nodup_blockhashesOf slot)
  unfold clearSlotEntries at h
  cases hdeltas : c.slotDeltas slot with
  | none =>
    simp only [hdeltas, some.injEq] at h
    subst h
    refine ⟨rfl, ?_, ?_, fun h e' he' => ⟨e', he', rfl, rfl, id⟩⟩
    · rw [← hdeltas, update_eq_self]
    · intro h slice
      rw [if_neg (by simp [listed, hdeltas])]
  | some deltas =>
    simp only [hdeltas, bind_eq_bind, bind_eq_some_iff, pure_def, some.injEq] at h
    obtain ⟨cache, hvisit, hc'⟩ := h
    subst hc'
    have hpoint := PointUpdate.visit_apply hnodup hvisit
    have hkeys : ∀ h, h ∉ order → c.listed slot h = [] := by
      intro h hmem
      have hlookup : deltas.lookup h = none := by
        rw [lookup_eq_none, mem_keys]
        exact fun hin => hmem (hperm.mem_iff.mpr (by simpa [blockhashesOf, hdeltas] using hin))
      rw [listed_of_slotDeltas hdeltas, hlookup]
      rfl
    refine ⟨rfl, rfl, fun h slice => ?_, fun h e' he' => ?_⟩
    · have hh := hpoint h
      by_cases hmem : h ∈ order
      · rw [if_pos hmem] at hh
        rw [listed_of_slotDeltas hdeltas]
        exact (clearBlockhash_some hh).1 slice
      · rw [if_neg hmem] at hh
        rw [hkeys h hmem, if_neg List.not_mem_nil]
        unfold StatusCacheStore.forksAt
        dsimp only
        rw [hh]
    · have hh := hpoint h
      by_cases hmem : h ∈ order
      · rw [if_pos hmem] at hh
        obtain ⟨e, he, hsame⟩ := (clearBlockhash_some hh).2
        exact ⟨e, he, hsame e' he'⟩
      · rw [if_neg hmem] at hh
        exact ⟨e', hh ▸ he', rfl, rfl, id⟩

end Clear

variable {c c' c'' : StatusCacheStore T} {slot : Slot}

/-- A status of the slot that is found under a slice is still found there. -/
def KeepsSlot (slot : Slot) (c c' : StatusCacheStore T) : Prop :=
  ∀ h entry slice res, c.cache h = some entry → slot ≤ entry.maxSlot →
    (slot, res) ∈ forks entry.keyMap slice →
      ∃ entry', c'.cache h = some entry' ∧ entry'.keyIndex = entry.keyIndex ∧
        slot ≤ entry'.maxSlot ∧ (slot, res) ∈ forks entry'.keyMap slice

theorem KeepsSlot.refl (slot : Slot) (c : StatusCacheStore T) : KeepsSlot slot c c :=
  fun _ entry _ _ hcache hmax hmem => ⟨entry, hcache, rfl, hmax, hmem⟩

theorem KeepsSlot.trans (h : KeepsSlot slot c c') (h' : KeepsSlot slot c' c'') :
    KeepsSlot slot c c'' := by
  intro k entry slice res hcache hmax hmem
  obtain ⟨entry', hcache', hindex, hmax', hmem'⟩ := h k entry slice res hcache hmax hmem
  obtain ⟨entry'', hcache'', hindex', hmax'', hmem''⟩ := h' k entry' slice res hcache' hmax' hmem'
  exact ⟨entry'', hcache'', hindex'.trans hindex, hmax'', hmem''⟩

theorem openBlockhash_of_cache {h : Hash} {entry : BlockhashStatuses T}
    (hcache : c.cache h = some entry) (slot' : Slot) (keyIndex : Nat) :
    c.openBlockhash h slot' keyIndex = { entry with maxSlot := max slot' entry.maxSlot } := by
  unfold openBlockhash
  rw [hcache]
  rfl

/-- A new entry of a blockhash that keeps the place of the slices and the forks. -/
theorem keepsSlot_of_setBlockhash {h : Hash} {hashMap : BlockhashStatuses T}
    (hother : ∀ k, k ≠ h → c'.cache k = c.cache k) (hself : c'.cache h = some hashMap)
    (hkeeps : ∀ entry, c.cache h = some entry → hashMap.keyIndex = entry.keyIndex ∧
      entry.maxSlot ≤ hashMap.maxSlot ∧
      ∀ slice x, x ∈ forks entry.keyMap slice → x ∈ forks hashMap.keyMap slice) :
    KeepsSlot slot c c' := by
  intro k entry slice res hcache hmax hmem
  by_cases hk : k = h
  · subst hk
    obtain ⟨hindex, hle, hforks⟩ := hkeeps entry hcache
    exact ⟨hashMap, hself, hindex, le_trans hmax hle, hforks slice _ hmem⟩
  · exact ⟨entry, (hother k hk).trans hcache, rfl, hmax, hmem⟩

theorem forks_insert (keyMap : AList (fun _ : KeySlice => List (Slot × T))) (slice : KeySlice)
    (x : Slot × T) (slice' : KeySlice) :
    forks (keyMap.insert slice ((keyMap.lookup slice).getD [] ++ [x])) slice' =
      if slice' = slice then forks keyMap slice' ++ [x] else forks keyMap slice' := by
  by_cases hslice : slice' = slice
  · subst hslice
    rw [if_pos rfl, forks, lookup_insert, getD_some, forks]
  · rw [if_neg hslice, forks, lookup_insert_ne hslice, forks]

theorem insertWithSlice_keepsSlot (c : StatusCacheStore T) (h : Hash) (slot' : Slot)
    (keyIndex : Nat) (slice : KeySlice) (res : T) :
    KeepsSlot slot c (c.insertWithSlice h slot' keyIndex slice res) := by
  refine keepsSlot_of_setBlockhash (fun k hk => update_of_ne hk _ _)
    (update_self ..) ?_
  intro entry hcache
  rw [openBlockhash_of_cache hcache]
  refine ⟨rfl, Nat.le_max_right _ _, fun slice' x hx => ?_⟩
  rw [forks_insert]
  split_ifs
  · exact List.mem_append_left _ hx
  · exact hx

theorem openBlockhash_keepsSlot (c : StatusCacheStore T) (h : Hash) (slot' : Slot)
    (keyIndex : Nat) : KeepsSlot slot c (c.setBlockhash h (c.openBlockhash h slot' keyIndex)) := by
  refine keepsSlot_of_setBlockhash (fun k hk => update_of_ne hk _ _)
    (update_self ..) ?_
  intro entry hcache
  rw [openBlockhash_of_cache hcache]
  exact ⟨rfl, Nat.le_max_right _ _, fun _ _ hx => hx⟩

theorem insert_keepsSlot {h : Hash} {key : List UInt8} {slot' : Slot} {res : T} {random : Nat}
    (hins : c.insert h key slot' res random = some c') : KeepsSlot slot c c' := by
  obtain ⟨slice, _, rfl⟩ := map_eq_some_iff.mp hins
  exact (openBlockhash_keepsSlot c h slot' _).trans (insertWithSlice_keepsSlot _ _ _ _ _ _)

theorem purgeRoots_keepsSlot (hdrop : ∀ r ∈ c.purgedRoot, r < slot) :
    KeepsSlot slot c c.purgeRoots := by
  intro k entry slice res hcache hmax hmem
  unfold purgeRoots
  cases hroot : c.purgedRoot with
  | none => exact ⟨entry, hcache, rfl, hmax, hmem⟩
  | some r =>
    have hr : r < entry.maxSlot := lt_of_lt_of_le (hdrop r hroot) hmax
    exact ⟨entry, by simp [hcache, Option.filter, hr], rfl, hmax, hmem⟩

/-- The root that `add_root` drops. -/
def addRootDrops (c : StatusCacheStore T) (fork : Slot) : List Slot :=
  { c with roots := Insert.insert fork c.roots }.purgedRoot.toList

theorem addRoot_keepsSlot {fork : Slot} (hdrop : ∀ r ∈ c.addRootDrops fork, r < slot) :
    KeepsSlot slot c (c.addRoot fork) := by
  have htouch : KeepsSlot slot c { c with roots := Insert.insert fork c.roots } :=
    fun _ entry _ _ hcache hmax hmem => ⟨entry, hcache, rfl, hmax, hmem⟩
  exact htouch.trans (purgeRoots_keepsSlot fun r hr => hdrop r (mem_toList.mpr hr))

theorem appendStatuses_keepsSlot (slot' : Slot) (c : StatusCacheStore T)
    (x : Hash × Nat × List (KeySlice × T)) : KeepsSlot slot c (appendStatuses slot' c x) :=
  List.foldlRecOn x.2.2 _ (.refl slot c) fun c' h _ _ =>
    h.trans (insertWithSlice_keepsSlot c' _ _ _ _ _)

/-- The roots that `append` drops. -/
def appendDrops : StatusCacheStore T → List (SlotDelta T) → List Slot
  | _, [] => []
  | c, delta :: slotDeltas =>
    (if delta.isRoot then
      (delta.statuses.foldl (appendStatuses delta.slot) c).addRootDrops delta.slot
    else []) ++ appendDrops (c.appendDelta delta) slotDeltas

theorem append_keepsSlot (slotDeltas : List (SlotDelta T)) :
    ∀ {c : StatusCacheStore T}, (∀ r ∈ c.appendDrops slotDeltas, r < slot) →
      KeepsSlot slot c (c.append slotDeltas) := by
  induction slotDeltas with
  | nil => exact fun _ => .refl slot _
  | cons delta slotDeltas ih =>
    intro c hdrop
    rw [appendDrops, List.forall_mem_append] at hdrop
    have hstatuses : KeepsSlot slot c (delta.statuses.foldl (appendStatuses delta.slot) c) :=
      List.foldlRecOn _ _ (.refl slot c) fun c' h x _ =>
        h.trans (appendStatuses_keepsSlot delta.slot c' x)
    refine .trans ?_ (ih hdrop.2)
    unfold appendDelta
    split_ifs with hroot
    · rw [if_pos hroot] at hdrop
      exact hstatuses.trans (addRoot_keepsSlot hdrop.1)
    · exact hstatuses

theorem Cleared.keepsSlot {slot' : Slot} (h : Cleared slot' c c') (hne : slot ≠ slot') :
    KeepsSlot slot c c' := by
  intro k entry slice res hcache hmax hmem
  have hleft : (slot, res) ∈ c'.forksAt k slice := by
    rw [h.forksAt, forksAt_of_cache hcache]
    split_ifs
    · exact mem_without.mpr ⟨hmem, hne⟩
    · exact hmem
  cases hcache' : c'.cache k with
  | none => simp [StatusCacheStore.forksAt, hcache'] at hleft
  | some entry' =>
    obtain ⟨e, he, hindex, hmax', _⟩ := h.entries k entry' hcache'
    have hentry : e = entry := some.inj (he.symm.trans hcache)
    subst hentry
    rw [forksAt_of_cache hcache'] at hleft
    exact ⟨entry', rfl, hindex, hmax'.symm ▸ hmax, hleft⟩

end StatusCacheStore

/-- An operation of a history; `random` and `order` are the choices of the runtime. -/
inductive StatusOp (T : Type) where
  | insert (transactionBlockhash : Hash) (key : List UInt8) (slot : Slot) (res : T)
      (random : Nat)
  | append (slotDeltas : List (SlotDelta T))
  | addRoot (fork : Slot)
  | clearSlotEntries (slot : Slot) (order : List Hash)

namespace StatusCacheStore

variable {T : Type}

/-- One operation; `none` is a panic, or an order that the hash map does not have. -/
def step (c : StatusCacheStore T) : StatusOp T → Option (StatusCacheStore T)
  | .insert h key slot res random => c.insert h key slot res random
  | .append slotDeltas => some (c.append slotDeltas)
  | .addRoot fork => some (c.addRoot fork)
  | .clearSlotEntries slot order =>
    if order.Perm (c.blockhashesOf slot) then c.clearSlotEntries slot order else none

/-- The operation neither clears the slot nor drops a root at or above it. -/
def Spares (slot : Slot) (c : StatusCacheStore T) : StatusOp T → Prop
  | .insert .. => True
  | .append slotDeltas => ∀ r ∈ c.appendDrops slotDeltas, r < slot
  | .addRoot fork => ∀ r ∈ c.addRootDrops fork, r < slot
  | .clearSlotEntries slot' _ => slot' ≠ slot

variable {c c' : StatusCacheStore T} {slot : Slot}

theorem step_keepsSlot {op : StatusOp T} (hspares : Spares slot c op)
    (hstep : c.step op = some c') : KeepsSlot slot c c' := by
  cases op with
  | insert h key slot' res random => exact insert_keepsSlot hstep
  | append slotDeltas =>
    obtain rfl := some.inj hstep
    exact append_keepsSlot slotDeltas hspares
  | addRoot fork =>
    obtain rfl := some.inj hstep
    exact addRoot_keepsSlot hspares
  | clearSlotEntries slot' order =>
    simp only [step] at hstep
    split_ifs at hstep with hperm
    exact (clearSlotEntries_cleared hperm hstep).keepsSlot (Ne.symm hspares)

theorem run_keepsSlot {ops : List (StatusOp T)}
    (hrun : Machine.GuardedRun step (Spares slot) c ops c') : KeepsSlot slot c c' := by
  induction hrun with
  | nil c => exact .refl slot c
  | cons hspares hstep _ ih => exact (step_keepsSlot hspares hstep).trans ih

theorem insert_spec {h : Hash} {key : List UInt8} {res : T} {random : Nat}
    (hins : c.insert h key slot res random = some c') :
    ∃ entry slice, c'.cache h = some entry ∧ slot ≤ entry.maxSlot ∧
      keySlice entry key = some slice ∧ (slot, res) ∈ forks entry.keyMap slice := by
  obtain ⟨slice, hslice, rfl⟩ := map_eq_some_iff.mp hins
  refine ⟨_, slice, update_self .., Nat.le_max_left _ _, ?_, ?_⟩
  · rw [openBlockhash_of_cache (update_self ..)]
    exact hslice
  · rw [forks_insert, if_pos rfl]
    exact List.mem_append_right _ List.mem_cons_self

theorem insert_isSome (c : StatusCacheStore T) (h : Hash) {key : List UInt8}
    (hkey : cachedKeySize ≤ key.length) (slot : Slot) (res : T) (random : Nat) :
    ∃ c', c.insert h key slot res random = some c' := by
  obtain ⟨slice, hslice⟩ :=
    @keySlice_isSome T (c.openBlockhash h slot (random % (maxKeyIndex key + 1))) key hkey
  exact ⟨_, map_eq_some_iff.mpr ⟨slice, hslice, rfl⟩⟩

/-- Replay protection, from any state on: a key that is inserted in a slot is reported to the
descendants of the slot, and to everyone once the slot is a root, as long as the slot is not
cleared and no root at or above it is dropped. -/
theorem getStatus_of_inserted (c₁ : StatusCacheStore T) (h : Hash) {key : List UInt8}
    (hkey : cachedKeySize ≤ key.length) (slot : Slot) (res : T) (random : Nat) :
    ∃ c₂, c₁.insert h key slot res random = some c₂ ∧
      ∀ ops c₃, Machine.GuardedRun step (Spares slot) c₂ ops c₃ →
        ∀ ancestors : Finset Slot, slot ∈ ancestors ∨ slot ∈ c₃.roots →
          ∃ status, c₃.getStatus key h ancestors = some (some status) := by
  obtain ⟨c₂, hins⟩ := insert_isSome c₁ h hkey slot res random
  refine ⟨c₂, hins, fun ops c₃ hrun ancestors hseen => ?_⟩
  obtain ⟨entry, slice, hcache, hmax, hslice, hmem⟩ := insert_spec hins
  obtain ⟨entry', hcache', hindex, _, hmem'⟩ :=
    run_keepsSlot hrun h entry slice res hcache hmax hmem
  have hslice' : keySlice entry' key = some slice := by
    unfold keySlice at hslice ⊢
    rw [hindex]
    exact hslice
  rw [getStatus_eq hcache', hslice', map_some, forksAt_of_cache hcache']
  have hfound : (forks entry'.keyMap slice).find? (fun fork =>
      decide (fork.1 ∈ ancestors) || decide (fork.1 ∈ c₃.roots)) ≠ none := by
    rw [ne_eq, List.find?_eq_none]
    intro hnone
    exact hnone _ hmem' (by simpa using hseen)
  obtain ⟨status, hstatus⟩ := ne_none_iff_exists'.mp hfound
  exact ⟨status, congrArg some hstatus⟩

def sampleKey (last : UInt8) : List UInt8 := List.replicate 20 7 ++ [last]

theorem getStatus_of_inserted_sample :
    ∃ c₂, (default : StatusCacheStore Unit).insert ⟨1⟩ (sampleKey 1) 3 () 0 = some c₂ ∧
      ∃ status, (c₂.addRoot 5).getStatus (sampleKey 1) ⟨1⟩ {3} = some (some status) := by
  have hkey : cachedKeySize ≤ (sampleKey 1).length := by decide
  obtain ⟨c₂, hins, hstatus⟩ :=
    getStatus_of_inserted (default : StatusCacheStore Unit) ⟨1⟩ hkey 3 () 0
  refine ⟨c₂, hins, hstatus [.addRoot 5] _ ?_ {3} (.inl (by decide))⟩
  refine .cons ?_ rfl (.nil _)
  have hc₂ : c₂ = ((default : StatusCacheStore Unit).insert ⟨1⟩ (sampleKey 1) 3 () 0).get
      (by decide) := (get_of_eq_some _ hins).symm
  subst hc₂
  change ∀ r ∈ addRootDrops _ 5, r < 3
  decide

end StatusCacheStore
end Hypergrid
