import Hypergrid.Account

/-!
# The accounts index

The slot lists of `accounts-db/src/accounts_index.rs`.  For every key the index
keeps a list with one entry for each slot that holds a version of the account; an
absent key has the empty list.

`latestSlot` follows the two reversed scans of the source: the newest slot among
the ancestors first, then any newer alive root.  `get_eq_none_iff` and
`get_eq_some` state what a lookup returns without mentioning the scans: a visible
entry whose slot is the greatest one.
-/

namespace Hypergrid
open List

/-- Where the data of an account version is. -/
inductive StorageLocation where
  | appendVec (storeId : Nat) (offset : Nat)
  | cached
deriving DecidableEq

namespace StorageLocation

def isCached : StorageLocation → Bool
  | cached => true
  | appendVec _ _ => false

def isOffsetEqual : StorageLocation → StorageLocation → Bool
  | cached, cached => true
  | appendVec _ offset, appendVec _ otherOffset => otherOffset == offset
  | _, _ => false

def isStoreIdEqual : StorageLocation → StorageLocation → Bool
  | cached, cached => true
  | appendVec storeId _, appendVec otherStoreId _ => otherStoreId == storeId
  | _, _ => false

end StorageLocation

structure AccountInfo where
  storageLocation : StorageLocation
  isZeroLamport : Bool
deriving DecidableEq

instance : LawfulBEq (Slot × AccountInfo) := inferInstance

namespace AccountInfo

def new (storageLocation : StorageLocation) (lamports : Nat) : AccountInfo :=
  { storageLocation, isZeroLamport := lamports == 0 }

end AccountInfo

/-- `AccountsIndex`: slot lists and alive roots. -/
structure AccountsIndex where
  slotList : Pubkey → List (Slot × AccountInfo)
  aliveRoots : Finset Slot

namespace AccountsIndex

variable (index : AccountsIndex)
variable {slice : List (Slot × AccountInfo)}

/-- One scan of `latest_slot`: keep the newest slot that passes the test. -/
def scanNewest (test : Slot → Bool)
    (entries : List ((Slot × AccountInfo) × Nat)) (best : Slot × Option Nat) :
    Slot × Option Nat :=
  entries.foldl
    (fun best x =>
      if (best.2.isNone || decide (best.1 < x.1.1)) && test x.1.1 then
        (x.1.1, some x.2)
      else best)
    best

/-- `latest_slot`: an index into the slot list. -/
def latestSlot (ancestors : Finset Slot)
    (slice : List (Slot × AccountInfo)) (maxRootInclusive : Option Slot) :
    Option Nat :=
  let entries := slice.reverse.zipIdx
  let best :=
    if ancestors = ∅ then (0, none)
    else scanNewest (fun slot => decide (slot ∈ ancestors)) entries (0, none)
  let best :=
    scanNewest
      (fun slot =>
        decide (slot ≤ maxRootInclusive.getD u64Max) &&
          decide (slot ∈ index.aliveRoots))
      entries best
  best.2.map (fun i => slice.length - 1 - i)

/-- `get`: the entry found, or `none` for `AccountIndexGetResult::NotFound`. -/
def get (pubkey : Pubkey) (ancestors : Finset Slot)
    (maxRoot : Option Slot) : Option (Slot × AccountInfo) :=
  (index.latestSlot ancestors (index.slotList pubkey) maxRoot).bind
    (fun i => (index.slotList pubkey)[i]?)

/-- The slots that a lookup may return. -/
def Visible (ancestors : Finset Slot) (maxRoot : Option Slot) (slot : Slot) : Prop :=
  slot ∈ ancestors ∨ (slot ≤ maxRoot.getD u64Max ∧ slot ∈ index.aliveRoots)

instance (index : AccountsIndex) (ancestors : Finset Slot)
    (maxRoot : Option Slot) (slot : Slot) :
    Decidable (index.Visible ancestors maxRoot slot) :=
  inferInstanceAs (Decidable (_ ∨ _))

theorem visible_congr {index index' : AccountsIndex}
    (h : index'.aliveRoots = index.aliveRoots) (ancestors : Finset Slot)
    (maxRoot : Option Slot) (slot : Slot) :
    index'.Visible ancestors maxRoot slot ↔ index.Visible ancestors maxRoot slot := by
  unfold Visible
  rw [h]

/-- `update_slot_list` for a store whose old and new slot agree. -/
def updateSlotList (slot : Slot) (info : AccountInfo)
    (slotList : List (Slot × AccountInfo)) : List (Slot × AccountInfo) :=
  if slotList.any (fun e => e.1 == slot) then
    slotList.map (fun e => if e.1 = slot then (slot, info) else e)
  else slotList ++ [(slot, info)]

def upsert (slot : Slot) (pubkey : Pubkey) (info : AccountInfo) : AccountsIndex :=
  { index with
    slotList :=
      Function.update index.slotList pubkey
        (updateSlotList slot info (index.slotList pubkey)) }

def purgeExact (pubkey : Pubkey) (slot : Slot) : AccountsIndex :=
  { index with
    slotList :=
      Function.update index.slotList pubkey
        ((index.slotList pubkey).filter (fun e => e.1 ≠ slot)) }

theorem scanNewest_eq (test : Slot → Bool) :
    ∀ (entries : List ((Slot × AccountInfo) × Nat)) (best : Slot × Option Nat),
      scanNewest test entries best = best ∨ ∃ x ∈ entries, test x.1.1 = true ∧
          scanNewest test entries best = (x.1.1, some x.2)
  | [], best => .inl rfl
  | x :: entries, best => by
    simp only [scanNewest, List.foldl_cons]
    split_ifs with hx
    · rcases scanNewest_eq test entries (x.1.1, some x.2) with h | ⟨y, hy, ht, h⟩
      · right
        refine ⟨x, by simp, ?_, h⟩
        exact (Bool.and_eq_true_iff.mp hx).2
      · exact .inr ⟨y, List.mem_cons_of_mem _ hy, ht, h⟩
    · rcases scanNewest_eq test entries best with h | ⟨y, hy, ht, h⟩
      · exact .inl h
      · exact .inr ⟨y, List.mem_cons_of_mem _ hy, ht, h⟩

theorem scanNewest_mono (test : Slot → Bool) :
    ∀ (entries : List ((Slot × AccountInfo) × Nat)) (best : Slot × Option Nat),
      best.2.isSome = true →
      (scanNewest test entries best).2.isSome = true ∧ best.1 ≤ (scanNewest test entries best).1
  | [], best, h => ⟨h, le_refl _⟩
  | x :: entries, best, h => by
    simp only [scanNewest, foldl_cons]
    split_ifs with hx
    · have hlt : best.1 < x.1.1 := by
        have hnone : best.2.isNone = false := by
          cases hb : best.2 with
          | none => simp [hb] at h
          | some i => rfl
        simp only [hnone, Bool.false_or, Bool.and_eq_true, decide_eq_true_eq] at hx
        exact hx.1
      obtain ⟨h1, h2⟩ := scanNewest_mono test entries (x.1.1, some x.2) rfl
      exact ⟨h1, le_trans (le_of_lt hlt) h2⟩
    · exact scanNewest_mono test entries best h

theorem scanNewest_ge (test : Slot → Bool) :
    ∀ (entries : List ((Slot × AccountInfo) × Nat)) (best : Slot × Option Nat),
      ∀ y ∈ entries, test y.1.1 = true →
      (scanNewest test entries best).2.isSome = true ∧ y.1.1 ≤ (scanNewest test entries best).1
  | [], _, y, hy, _ => by simp at hy
  | x :: entries, best, y, hy, ht => by
    simp only [scanNewest, foldl_cons]
    rcases mem_cons.mp hy with rfl | hy
    · by_cases hbest : best.2.isSome = true ∧ y.1.1 ≤ best.1
      · split_ifs
        · exact scanNewest_mono test entries (y.1.1, some y.2) rfl
        · obtain ⟨h1, h2⟩ := scanNewest_mono test entries best hbest.1
          exact ⟨h1, le_trans hbest.2 h2⟩
      · have hcond : ((best.2.isNone || decide (best.1 < y.1.1)) && test y.1.1) = true := by
          cases hb : best.2 with
          | none => simp [ht]
          | some i =>
            simp only [hb, Option.isSome_some, true_and, not_le] at hbest
            simp [ht, hbest]
        rw [if_pos hcond]
        exact scanNewest_mono test entries (y.1.1, some y.2) rfl
    · split_ifs
      · exact scanNewest_ge test entries _ y hy ht
      · exact scanNewest_ge test entries _ y hy ht

theorem reverse_zipIdx_get {x : (Slot × AccountInfo) × Nat} (hx : x ∈ slice.reverse.zipIdx) :
    slice[slice.length - 1 - x.2]? = some x.1 := by
  obtain ⟨e, i⟩ := x
  rw [List.mem_zipIdx_iff_getElem?] at hx
  have hlt : i < slice.length := by
    have := (List.getElem?_eq_some_iff.mp hx).1
    simpa using this
  rwa [List.getElem?_reverse hlt] at hx

theorem mem_reverse_zipIdx {e : Slot × AccountInfo} (he : e ∈ slice) :
    ∃ i, (e, i) ∈ slice.reverse.zipIdx := by
  obtain ⟨i, hi, hget⟩ := mem_iff_getElem.mp (mem_reverse.mpr he)
  refine ⟨i, ?_⟩
  rw [mem_zipIdx_iff_getElem?, getElem?_eq_some_iff]
  exact ⟨hi, hget⟩

section Lookup
variable (index : AccountsIndex) (ancestors : Finset Slot)
  (slice : List (Slot × AccountInfo)) (maxRoot : Option Slot)

theorem latestSlot_scan :
    ∃ best : Slot × Option Nat, index.latestSlot ancestors slice maxRoot =
        best.2.map (fun i => slice.length - 1 - i) ∧
      (best.2 = none ∨ ∃ x ∈ slice.reverse.zipIdx,
          index.Visible ancestors maxRoot x.1.1 ∧ best = (x.1.1, some x.2)) ∧
      (∀ x ∈ slice.reverse.zipIdx, index.Visible ancestors maxRoot x.1.1 →
        best.2.isSome = true ∧ x.1.1 ≤ best.1) := by
  set entries := slice.reverse.zipIdx with hentries
  set test₁ : Slot → Bool := fun slot => decide (slot ∈ ancestors) with htest₁
  set test₂ : Slot → Bool := fun slot =>
    decide (slot ≤ maxRoot.getD u64Max) && decide (slot ∈ index.aliveRoots) with htest₂
  -- the guard on empty ancestors changes nothing: no slot passes the first test then
  have hfirst :
      (if ancestors = ∅ then (0, none) else scanNewest test₁ entries (0, none)) =
        scanNewest test₁ entries (0, none) := by
    split_ifs with hemp
    · rcases scanNewest_eq test₁ entries (0, none) with h | ⟨x, _, ht, _⟩
      · exact h.symm
      · simp [htest₁, hemp] at ht
    · rfl
  refine ⟨scanNewest test₂ entries (scanNewest test₁ entries (0, none)), ?_, ?_, ?_⟩
  · change Option.map _ (scanNewest test₂ entries
      (if ancestors = ∅ then (0, none) else scanNewest test₁ entries (0, none))).2 = _
    rw [hfirst]
  · rcases scanNewest_eq test₂ entries (scanNewest test₁ entries (0, none)) with
      h | ⟨x, hx, ht, h⟩
    · rw [h]
      rcases scanNewest_eq test₁ entries (0, none) with h' | ⟨x, hx, ht, h'⟩
      · left; rw [h']
      · right
        exact ⟨x, hx, .inl (by simpa [htest₁] using ht), h'⟩
    · right
      exact ⟨x, hx, .inr (by simpa [htest₂] using ht), h⟩
  · intro x hx hvis
    rcases hvis with hanc | hroot
    · obtain ⟨h1, h2⟩ := scanNewest_ge test₁ entries (0, none) x hx (by simpa [htest₁] using hanc)
      obtain ⟨h3, h4⟩ := scanNewest_mono test₂ entries _ h1
      exact ⟨h3, le_trans h2 h4⟩
    · exact scanNewest_ge test₂ entries _ x hx (by simpa [htest₂] using hroot)

end Lookup

variable {index : AccountsIndex} {slot : Slot}
variable {e : Slot × AccountInfo} {info : AccountInfo} {l : List (Slot × AccountInfo)}
  {ancestors : Finset Slot} {k : Pubkey} {maxRoot : Option Slot}

theorem get_eq_none_iff (index : AccountsIndex) (k : Pubkey)
    (ancestors : Finset Slot) (maxRoot : Option Slot) :
    index.get k ancestors maxRoot = none ↔
      ∀ e ∈ index.slotList k, ¬ index.Visible ancestors maxRoot e.1 := by
  obtain ⟨best, hlatest, hfound, hge⟩ := index.latestSlot_scan ancestors (index.slotList k) maxRoot
  unfold get
  rw [hlatest]
  constructor
  · intro hnone e he hvis
    obtain ⟨i, hi⟩ := mem_reverse_zipIdx he
    obtain ⟨hsome, _⟩ := hge _ hi hvis
    rcases hfound with hf | ⟨x, hx, _, hbest⟩
    · simp [hf] at hsome
    · rw [hbest] at hnone
      simp [reverse_zipIdx_get hx] at hnone
  · intro hall
    rcases hfound with hf | ⟨x, hx, hvis, _⟩
    · simp [hf]
    · have hmem : x.1 ∈ index.slotList k := mem_of_getElem? (reverse_zipIdx_get hx)
      exact absurd hvis (hall _ hmem)

theorem get_eq_some (hget : index.get k ancestors maxRoot = some e) :
    e ∈ index.slotList k ∧ index.Visible ancestors maxRoot e.1 ∧
      ∀ e' ∈ index.slotList k, index.Visible ancestors maxRoot e'.1 → e'.1 ≤ e.1 := by
  obtain ⟨best, hlatest, hfound, hge⟩ := index.latestSlot_scan ancestors (index.slotList k) maxRoot
  unfold get at hget
  rw [hlatest] at hget
  rcases hfound with hf | ⟨x, hx, hvis, hbest⟩
  · simp [hf] at hget
  · have hpos := reverse_zipIdx_get hx
    rw [hbest] at hget
    simp only [Option.map_some, Option.bind_some, hpos, Option.some.injEq] at hget
    subst hget
    refine ⟨mem_of_getElem? hpos, hvis, ?_⟩
    intro e' he' hvis'
    obtain ⟨i, hi⟩ := mem_reverse_zipIdx he'
    have := (hge _ hi hvis').2
    rwa [hbest] at this

theorem get_eq_some_of_max (hnodup : ((index.slotList k).map Prod.fst).Nodup)
    (hmem : e ∈ index.slotList k)
    (hvis : index.Visible ancestors maxRoot e.1)
    (hmax : ∀ e' ∈ index.slotList k, index.Visible ancestors maxRoot e'.1 → e'.1 ≤ e.1) :
    index.get k ancestors maxRoot = some e := by
  cases hget : index.get k ancestors maxRoot with
  | none =>
    exact absurd hvis ((get_eq_none_iff _ _ _ _).mp hget e hmem)
  | some f =>
    obtain ⟨hf, hfvis, hfmax⟩ := get_eq_some hget
    have heq : f.1 = e.1 := le_antisymm (hmax f hf hfvis) (hfmax e hmem hvis)
    rw [inj_on_of_nodup_map hnodup hf hmem heq]

theorem updateSlotList_slots (slot : Slot) (info : AccountInfo) (l : List (Slot × AccountInfo)) :
    (updateSlotList slot info l).map Prod.fst =
      if slot ∈ l.map Prod.fst then l.map Prod.fst
      else l.map Prod.fst ++ [slot] := by
  have hany : (l.any (fun e => e.1 == slot) = true) ↔ slot ∈ l.map Prod.fst := by
    simp [any_eq_true]
  unfold updateSlotList
  by_cases h : slot ∈ l.map Prod.fst
  · rw [if_pos (hany.mpr h), if_pos h, map_map]
    apply map_congr_left
    intro e _
    by_cases he : e.1 = slot <;> simp [he]
  · rw [if_neg (fun hc => h (hany.mp hc)), if_neg h]
    simp

theorem mem_updateSlotList :
    e ∈ updateSlotList slot info l ↔ e = (slot, info) ∨ (e ∈ l ∧ e.1 ≠ slot) := by
  unfold updateSlotList
  by_cases hany : l.any (fun e => e.1 == slot) = true
  · rw [if_pos hany]
    obtain ⟨f, hf, hfs⟩ := any_eq_true.mp hany
    simp only [mem_map]
    constructor
    · rintro ⟨x, hx, rfl⟩
      by_cases hxs : x.1 = slot
      · left; simp [hxs]
      · right; simp [hxs, hx]
    · rintro (rfl | ⟨he, hne⟩)
      · exact ⟨f, hf, by simp [beq_iff_eq.mp hfs]⟩
      · exact ⟨e, he, by simp [hne]⟩
  · rw [if_neg hany]
    simp only [mem_append, mem_singleton]
    constructor
    · rintro (he | rfl)
      · right
        refine ⟨he, fun hs => hany ?_⟩
        exact any_eq_true.mpr ⟨e, he, by simp [hs]⟩
      · exact .inl rfl
    · rintro (rfl | ⟨he, _⟩)
      · exact .inr rfl
      · exact .inl he

theorem updateSlotList_nodup (h : (l.map Prod.fst).Nodup) :
    ((updateSlotList slot info l).map Prod.fst).Nodup := by
  rw [updateSlotList_slots]
  split_ifs with hs
  · exact h
  · exact .append h (nodup_singleton _) (by simpa using hs)

theorem mem_upsert {k k' : Pubkey} :
    e ∈ (index.upsert slot k info).slotList k' ↔ (k' = k ∧ e = (slot, info)) ∨
        (e ∈ index.slotList k' ∧ ¬ (k' = k ∧ e.1 = slot)) := by
  by_cases hk : k' = k
  · subst hk
    simp only [upsert, Function.update_self, mem_updateSlotList]
    tauto
  · simp [upsert, hk]

theorem upsert_nodup (h : ∀ k', ((index.slotList k').map Prod.fst).Nodup) (k' : Pubkey) :
    (((index.upsert slot k info).slotList k').map Prod.fst).Nodup := by
  by_cases hk : k' = k
  · subst hk
    simp only [upsert, Function.update_self]
    exact updateSlotList_nodup (h k')
  · simp only [upsert, Function.update_of_ne hk]
    exact h k'

theorem mem_purgeExact {k k' : Pubkey} :
    e ∈ (index.purgeExact k slot).slotList k' ↔
      e ∈ index.slotList k' ∧ ¬ (k' = k ∧ e.1 = slot) := by
  by_cases hk : k' = k
  · subst hk
    simp [purgeExact]
  · simp [purgeExact, hk]

theorem purgeExact_nodup (h : ∀ k', ((index.slotList k').map Prod.fst).Nodup) (k' : Pubkey) :
    (((index.purgeExact k slot).slotList k').map Prod.fst).Nodup := by
  by_cases hk : k' = k
  · subst hk
    simp only [purgeExact, Function.update_self]
    exact .sublist (filter_sublist.map Prod.fst) (h k')
  · simp only [purgeExact, Function.update_of_ne hk]
    exact h k'

variable {index : AccountsIndex} {k : Pubkey} {ancestors : Finset Slot}
  {maxRoot : Option Slot}

variable (hnodup : ∀ k, ((index.slotList k).map Prod.fst).Nodup)
include hnodup

theorem get_upsert_same {info info' : AccountInfo}
    (hget : index.get k ancestors maxRoot = some (slot, info)) :
    (index.upsert slot k info').get k ancestors maxRoot = some (slot, info') := by
  obtain ⟨_, hvis, hmax⟩ := get_eq_some hget
  refine get_eq_some_of_max (upsert_nodup hnodup k) ?_ hvis ?_
  · exact mem_upsert.mpr (.inl ⟨rfl, rfl⟩)
  · intro e he hev
    rcases mem_upsert.mp he with ⟨_, rfl⟩ | ⟨he, _⟩
    · exact le_refl _
    · exact hmax e he hev

theorem get_upsert_of_le {slot slot' : Slot} {k' : Pubkey} {info info' : AccountInfo}
    (hget : index.get k ancestors maxRoot = some (slot, info)) (hne : ¬ (k = k' ∧ slot = slot'))
    (hle : k = k' → index.Visible ancestors maxRoot slot' → slot' ≤ slot) :
    (index.upsert slot' k' info').get k ancestors maxRoot = some (slot, info) := by
  obtain ⟨hmem, hvis, hmax⟩ := get_eq_some hget
  refine get_eq_some_of_max (upsert_nodup hnodup k) ?_ hvis ?_
  · exact mem_upsert.mpr (.inr ⟨hmem, hne⟩)
  · intro e he hev
    rcases mem_upsert.mp he with ⟨hk, rfl⟩ | ⟨he, _⟩
    · exact hle hk hev
    · exact hmax e he hev

theorem get_upsert_of_none {k' : Pubkey} (hget : index.get k ancestors maxRoot = none) :
    (index.upsert slot k' info).get k ancestors maxRoot = none ∨ k = k' ∧
        (index.upsert slot k' info).get k ancestors maxRoot = some (slot, info) := by
  have hall := (get_eq_none_iff _ _ _ _).mp hget
  by_cases hnew : k = k' ∧ index.Visible ancestors maxRoot slot
  · right
    refine ⟨hnew.1, get_eq_some_of_max (upsert_nodup hnodup k)
      (mem_upsert.mpr (.inl ⟨hnew.1, rfl⟩)) hnew.2 ?_⟩
    intro e he hev
    rcases mem_upsert.mp he with ⟨_, rfl⟩ | ⟨he, _⟩
    · exact le_refl _
    · exact absurd hev (hall e he)
  · left
    rw [get_eq_none_iff]
    intro e he hev
    rcases mem_upsert.mp he with ⟨hk, rfl⟩ | ⟨he, _⟩
    · exact hnew ⟨hk, hev⟩
    · exact hall e he hev

end AccountsIndex
end Hypergrid
