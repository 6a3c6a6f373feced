import Hypergrid.Clean

/-!
# Reclaiming index entries

The agreement of the index with the storages, `Agrees`, and the two things that `clean_accounts`
does to them: it drops entries from a slot list, which makes them reclaims, and it handles the
reclaims, which removes the storages without index entries.

* `Agrees.retainEntries` : dropping entries keeps the agreement, with more reclaims.
* `handleReclaims_spec` : handling the reclaims succeeds and restores the agreement without
  reclaims; a slot dies exactly if it has a reclaim and no index entry is left for it.
-/

namespace Hypergrid
open List Finset Function Option AccountStorageEntry

def AccountStorageEntry.copyOf (store : AccountStorageEntry) (k : Pubkey) :
    Option AccountSharedData :=
  (store.accounts.find? (fun x => decide (x.1 = k))).map Prod.snd

theorem AccountStorageEntry.copyOf_isSome {store : AccountStorageEntry} {k : Pubkey} :
    (store.copyOf k).isSome = true ↔ k ∈ store.accounts.map Prod.fst := by
  unfold copyOf
  simp

namespace CleanDb

variable (s : CleanDb)

def copyAt (slot : Slot) (k : Pubkey) : Option AccountSharedData :=
  (s.db.storage slot).bind (fun store => store.copyOf k)

/-- The index entry points to the stored copy of its slot, and knows whether it has lamports. -/
def PointsTo (k : Pubkey) (e : Slot × AccountInfo) : Prop :=
  ∃ store offset a, s.db.storage e.1 = some store ∧
    e.2.storageLocation = .appendVec store.id offset ∧
    store.accounts[offset]? = some (k, a) ∧ store.copyOf k = some a ∧
    e.2.isZeroLamport = a.isZeroLamport

def Indexed (slot : Slot) (k : Pubkey) : Prop :=
  ∃ e ∈ s.slotList k, e.1 = slot ∧ e.2.storageLocation.isCached = false

instance (s : CleanDb) (slot : Slot) (k : Pubkey) : Decidable (s.Indexed slot k) :=
  inferInstanceAs (Decidable (∃ e ∈ _, _))

def indexedIn (slot : Slot) : Finset Pubkey :=
  ((s.db.storage slot).elim [] (fun e => e.accounts.map Prod.fst)).toFinset.filter
    (fun k => s.Indexed slot k)

/-- The roots whose storages hold a copy of the account. -/
def holders (k : Pubkey) : Finset Slot :=
  s.aliveRoots.filter (fun slot => (s.copyAt slot k).isSome)

/-- Every index entry that is not cached points to a stored copy. -/
def Stored (s : CleanDb) : Prop :=
  ∀ k e, e ∈ s.slotList k → e.2.storageLocation.isCached = false → s.PointsTo k e

/-- The index agrees with the storages, apart from reclaims that are not handled yet. -/
structure Agrees (reclaims : List (Slot × AccountInfo)) (s : CleanDb) : Prop where
  /-- a slot list has one entry for a slot -/
  nodup : ∀ k, ((s.slotList k).map Prod.fst).Nodup
  /-- an index entry points to a stored copy -/
  stored : s.Stored
  /-- the storages are of rooted slots -/
  rooted : ∀ slot, (s.db.storage slot).isSome = true → slot ∈ s.aliveRoots
  /-- the count of a storage is the number of index entries into it -/
  counts : ∀ slot, (s.db.storage slot).isSome = true → s.count slot =
    (s.indexedIn slot).card + (reclaims.filter (fun e => e.1 = slot)).length
  /-- the reference count is the number of storages that hold a copy -/
  refs : ∀ k, s.slotList k ≠ [] → s.refCount k = (s.holders k).card
  reclaimed : ∀ e ∈ reclaims, ∃ k, s.PointsTo k e

section Lemmas
variable {s s' : CleanDb} {R : List (Slot × AccountInfo)} {k : Pubkey} {slot : Slot}
  {e : Slot × AccountInfo}

theorem PointsTo.storage_isSome (h : s.PointsTo k e) : (s.db.storage e.1).isSome = true := by
  obtain ⟨store, offset, a, hstore, _⟩ := h
  rw [hstore]
  rfl

theorem PointsTo.copyAt (h : s.PointsTo k e) :
    ∃ a, s.copyAt e.1 k = some a ∧ e.2.isZeroLamport = a.isZeroLamport := by
  obtain ⟨store, offset, a, hstore, _, _, hcopy, hzero⟩ := h
  refine ⟨a, ?_, hzero⟩
  rw [CleanDb.copyAt, hstore]
  exact hcopy

theorem PointsTo.key_unique {k' : Pubkey} {e' : Slot × AccountInfo} (h : s.PointsTo k e)
    (h' : s.PointsTo k' e') (hslot : e.1 = e'.1) (hoffset : e.2.offset = e'.2.offset) :
    k = k' := by
  obtain ⟨store, offset, a, hstore, hloc, hget, _⟩ := h
  obtain ⟨store', offset', a', hstore', hloc', hget', _⟩ := h'
  rw [hslot, hstore', some.injEq] at hstore
  subst hstore
  have hoff : offset = offset' := by
    simpa [AccountInfo.offset, hloc, hloc'] using hoffset
  subst hoff
  rw [hget, some.injEq, Prod.mk.injEq] at hget'
  exact hget'.1

theorem mem_holders (h : s.Agrees R) : slot ∈ s.holders k ↔ (s.copyAt slot k).isSome = true := by
  rw [holders, Finset.mem_filter, and_iff_right_iff_imp]
  intro hcopy
  refine h.rooted slot ?_
  by_contra hnone
  rw [copyAt, not_isSome_iff_eq_none.mp hnone] at hcopy
  cases hcopy

theorem mem_indexedIn (h : s.Stored) : k ∈ s.indexedIn slot ↔ s.Indexed slot k := by
  rw [indexedIn, Finset.mem_filter, and_iff_right_iff_imp]
  rintro ⟨e, he, rfl, hcached⟩
  obtain ⟨store, offset, a, hstore, _, hget, _⟩ := h k e he hcached
  rw [hstore, List.mem_toFinset]
  exact List.mem_map.mpr ⟨(k, a), List.mem_of_getElem? hget, rfl⟩

variable {p : Slot × AccountInfo → Bool}

theorem retainEntries_slotList (s : CleanDb) (k : Pubkey) (p : Slot × AccountInfo → Bool)
    (k' : Pubkey) : (s.retainEntries k p).1.slotList k' =
      if k' = k then (s.slotList k).filter (fun e => !p e) else s.slotList k' := by
  dsimp only [retainEntries, slotList]
  by_cases hk : k' = k
  · subst hk
    rw [update_self, if_pos rfl]
  · rw [update_of_ne hk, if_neg hk]

theorem mem_retainEntries {k' : Pubkey} {e : Slot × AccountInfo} :
    e ∈ (s.retainEntries k p).1.slotList k' ↔ e ∈ s.slotList k' ∧ ¬(k' = k ∧ p e = true) := by
  rw [retainEntries_slotList]
  by_cases hk : k' = k
  · subst hk
    simp
  · simp [hk]

theorem Stored.retainEntries (h : s.Stored) : (s.retainEntries k p).1.Stored :=
  fun k' e he hcached => h k' e (mem_retainEntries.mp he).1 hcached

variable (h : s.Agrees R)
include h

theorem mem_indexedIn_retainEntries {slot : Slot} {k' : Pubkey} :
    k' ∈ (s.retainEntries k p).1.indexedIn slot ↔
      k' ∈ s.indexedIn slot ∧ ¬(k' = k ∧ ∃ e ∈ (s.retainEntries k p).2, e.1 = slot) := by
  rw [mem_indexedIn h.stored, mem_indexedIn h.stored.retainEntries]
  constructor
  · rintro ⟨e, he, hes, hcached⟩
    obtain ⟨hmem, hkept⟩ := mem_retainEntries.mp he
    refine ⟨⟨e, hmem, hes, hcached⟩, ?_⟩
    rintro ⟨rfl, e', he', hes'⟩
    obtain ⟨hmem', hpe'⟩ := mem_filter.mp he'
    have heq := inj_on_of_nodup_map (h.nodup k') hmem hmem' (hes.trans hes'.symm)
    exact hkept ⟨rfl, heq ▸ hpe'⟩
  · rintro ⟨⟨e, hmem, hes, hcached⟩, hnot⟩
    refine ⟨e, mem_retainEntries.mpr ⟨hmem, ?_⟩, hes, hcached⟩
    rintro ⟨rfl, hpe⟩
    exact hnot ⟨rfl, e, mem_filter.mpr ⟨hmem, hpe⟩, hes⟩

theorem card_indexedIn_retainEntries
    (hp : ∀ e ∈ s.slotList k, p e = true → e.2.storageLocation.isCached = false) (slot : Slot) :
    (s.indexedIn slot).card = ((s.retainEntries k p).1.indexedIn slot).card +
      ((s.retainEntries k p).2.filter (fun e => e.1 = slot)).length := by
  have hnodup : (((s.retainEntries k p).2).map Prod.fst).Nodup :=
    (h.nodup k).sublist (filter_sublist.map _)
  rw [length_filter_slot hnodup]
  by_cases hpurged : ∃ e ∈ (s.retainEntries k p).2, e.1 = slot
  · obtain ⟨e, he, hes⟩ := hpurged
    obtain ⟨hmem, hpe⟩ := mem_filter.mp he
    have hk : k ∈ s.indexedIn slot := (mem_indexedIn h.stored).mpr ⟨e, hmem, hes, hp e hmem hpe⟩
    have herase : (s.retainEntries k p).1.indexedIn slot = (s.indexedIn slot).erase k := by
      ext k'
      rw [mem_indexedIn_retainEntries h, mem_erase]
      constructor
      · rintro ⟨hin, hnot⟩
        exact ⟨fun hk => hnot ⟨hk, e, he, hes⟩, hin⟩
      · rintro ⟨hne, hin⟩
        exact ⟨hin, fun hk => hne hk.1⟩
    rw [if_pos ⟨e, he, hes⟩, herase, card_erase_add_one hk]
  · have hsame : (s.retainEntries k p).1.indexedIn slot = s.indexedIn slot := by
      ext k'
      rw [mem_indexedIn_retainEntries h, and_iff_left_iff_imp]
      exact fun _ hk => hpurged hk.2
    rw [if_neg hpurged, add_zero, hsame]

theorem Agrees.retainEntries
    (hp : ∀ e ∈ s.slotList k, p e = true → e.2.storageLocation.isCached = false) :
    (s.retainEntries k p).1.Agrees (R ++ (s.retainEntries k p).2) where
  nodup := fun k' => by
    rw [retainEntries_slotList]
    split_ifs
    · exact (h.nodup k).sublist (filter_sublist.map _)
    · exact h.nodup k'
  stored := h.stored.retainEntries
  rooted := h.rooted
  counts := fun slot hslot => by
    rw [filter_append, length_append]
    have hcard := card_indexedIn_retainEntries h hp slot
    have hcount : (s.retainEntries k p).1.count slot = s.count slot := rfl
    rw [hcount, h.counts slot hslot]
    omega
  refs := fun k' hk' => by
    refine h.refs k' fun hnil => hk' ?_
    rw [retainEntries_slotList]
    split_ifs with hk
    · subst hk
      rw [hnil]
      rfl
    · exact hnil
  reclaimed := fun e he => by
    rcases mem_append.mp he with he | he
    · exact h.reclaimed e he
    · obtain ⟨hmem, hpe⟩ := mem_filter.mp he
      exact ⟨k, h.stored k e hmem (hp e hmem hpe)⟩

theorem Agrees.removeIfSlotListEmpty (k : Pubkey) : (s.removeIfSlotListEmpty k).Agrees R := by
  unfold CleanDb.removeIfSlotListEmpty
  split_ifs with hnil
  · refine ⟨h.nodup, h.stored, h.rooted, h.counts, fun k' hk' => ?_, h.reclaimed⟩
    have hne : k' ≠ k := by
      rintro rfl
      exact hk' hnil
    dsimp only
    rw [update_of_ne hne]
    exact h.refs k' hk'
  · exact h

end Lemmas

variable {s : CleanDb} {R : List (Slot × AccountInfo)} {e : Slot × AccountInfo}
  {offsets : Finset (Slot × Nat)} {dead : Finset Slot} {removed : Finset Pubkey}

/-- The database with other counts of the storages. -/
def withCounts (s : CleanDb) (count : Slot → Nat)
    (dirtyStores : List (Slot × AccountStorageEntry)) : CleanDb :=
  { s with count, dirtyStores }

theorem Agrees.withCounts (h : s.Agrees (e :: R)) (d : List (Slot × AccountStorageEntry)) :
    (s.withCounts (Function.update s.count e.1 (s.count e.1 - 1)) d).Agrees R where
  nodup := h.nodup
  stored := h.stored
  rooted := h.rooted
  counts := fun slot hslot => by
    have hcount := h.counts slot hslot
    have hin : (s.withCounts (Function.update s.count e.1 (s.count e.1 - 1)) d).indexedIn slot =
        s.indexedIn slot := rfl
    dsimp only [CleanDb.withCounts] at hin ⊢
    rw [hin]
    by_cases hes : e.1 = slot
    · subst hes
      rw [Function.update_self, hcount, List.filter_cons_of_pos (by simp), List.length_cons]
      omega
    · rw [Function.update_of_ne (Ne.symm hes), hcount, List.filter_cons_of_neg (by simp [hes])]
  refs := h.refs
  reclaimed := fun e' he' => h.reclaimed e' (mem_cons_of_mem _ he')

theorem removeDeadAccount_spec (h : s.Agrees (e :: R)) :
    ∃ d dead', removeDeadAccount (s, offsets, dead) e =
        some (s.withCounts (Function.update s.count e.1 (s.count e.1 - 1)) d,
          insert (e.1, e.2.offset) offsets, dead') ∧
      ∀ slot, slot ∈ dead' ↔ slot ∈ dead ∨ slot = e.1 ∧ s.count e.1 - 1 = 0 := by
  obtain ⟨k, store, offset, a, hstore, hloc, hget, _⟩ := h.reclaimed e mem_cons_self
  have hpos : s.count e.1 ≠ 0 := by
    rw [h.counts e.1 (by rw [hstore]; rfl), List.filter_cons_of_pos (by simp), List.length_cons]
    omega
  have hentry : s.db.getAccountStorageEntry e.1 store.id = some store := by
    rw [AccountsDb.getAccountStorageEntry, hstore]
    simp
  have hoffset : e.2.offset = offset := by
    rw [AccountInfo.offset, hloc]
  unfold removeDeadAccount
  rw [hloc]
  dsimp only
  rw [hentry]
  dsimp only
  rw [hget, hoffset, if_neg (by simp [hpos])]
  by_cases hzero : s.count e.1 - 1 = 0
  · rw [if_pos hzero]
    refine ⟨_, _, rfl, fun slot => ?_⟩
    rw [mem_insert]
    tauto
  · rw [if_neg hzero]
    refine ⟨_, _, rfl, fun slot => ?_⟩
    tauto

/-- The loop of `remove_dead_accounts`: it succeeds, and a slot whose count is 0 at the end is
dead if it was before or if it has a reclaim. -/
theorem removeDeadAccount_foldlM (h : s.Agrees R) :
    ∃ c d offsets' dead', R.foldlM removeDeadAccount (s, offsets, dead) =
        some (s.withCounts c d, offsets', dead') ∧ (s.withCounts c d).Agrees [] ∧
      (∀ x, x ∈ offsets' ↔ x ∈ offsets ∨ ∃ e ∈ R, (e.1, e.2.offset) = x) ∧
      (∀ slot ∈ dead', slot ∈ dead ∨ ∃ e ∈ R, e.1 = slot) ∧
      ∀ slot, c slot = 0 → (slot ∈ dead ∨ ∃ e ∈ R, e.1 = slot) → slot ∈ dead' := by
  induction R generalizing s offsets dead with
  | nil =>
    refine ⟨s.count, s.dirtyStores, offsets, dead, rfl, h, by simp, by simp, ?_⟩
    rintro slot _ (hslot | ⟨e, he, _⟩)
    · exact hslot
    · exact absurd he not_mem_nil
  | cons e R ih =>
    obtain ⟨d, dead₁, hstep, hdead₁⟩ := @removeDeadAccount_spec s R e offsets dead h
    have hrest := h.withCounts d
    obtain ⟨c', d', offsets', dead', hrun, hagrees, hoffsets, hsub, hzero⟩ :=
      @ih (s.withCounts (update s.count e.1 (s.count e.1 - 1)) d)
        (insert (e.1, e.2.offset) offsets) dead₁ hrest
    refine ⟨c', d', offsets', dead', ?_, hagrees, ?_, ?_, ?_⟩
    · rw [foldlM_cons, hstep]
      exact hrun
    · intro x
      rw [hoffsets, mem_insert, exists_mem_cons_iff, eq_comm]
      tauto
    · intro slot hslot
      rw [exists_mem_cons_iff]
      rcases hsub slot hslot with hslot | hslot
      · rcases (hdead₁ slot).mp hslot with hslot | ⟨hslot, _⟩
        · exact .inl hslot
        · exact .inr (.inl hslot.symm)
      · exact .inr (.inr hslot)
    · intro slot hc hslot
      refine hzero slot hc ?_
      rw [hdead₁, exists_mem_cons_iff] at *
      rcases hslot with hslot | hslot | hslot
      · exact .inl (.inl hslot)
      · -- without another reclaim of the slot, its count does not change any more
        subst hslot
        by_cases hmore : ∃ e' ∈ R, e'.1 = e.1
        · exact .inr hmore
        · refine .inl (.inr ⟨rfl, ?_⟩)
          obtain ⟨k, hpoints⟩ := h.reclaimed e mem_cons_self
          have hsome := hpoints.storage_isSome
          have hbefore := hrest.counts e.1 hsome
          have hafter := hagrees.counts e.1 hsome
          have hnone : R.filter (fun e' => e'.1 = e.1) = [] :=
            filter_eq_nil_iff.mpr fun e' he' hes =>
              hmore ⟨e', he', of_decide_eq_true hes⟩
          rw [hnone] at hbefore
          have hcard : (s.withCounts c' d').indexedIn e.1 = (s.withCounts
            (update s.count e.1 (s.count e.1 - 1)) d).indexedIn e.1 := rfl
          dsimp only [withCounts] at hbefore hafter hcard
          rw [update_self] at hbefore
          rw [hbefore, ← hcard, ← hc]
          exact hafter.symm
      · exact .inr hslot

/-- The slot has a reclaim, and no index entry is left for it. -/
def Dead (s : CleanDb) (R : List (Slot × AccountInfo)) (slot : Slot) : Prop :=
  (∃ e ∈ R, e.1 = slot) ∧ s.indexedIn slot = ∅

theorem removeDeadAccounts_spec (h : s.Agrees R) :
    ∃ c d offsets dead, s.removeDeadAccounts R = some (s.withCounts c d, offsets, dead) ∧
      (s.withCounts c d).Agrees [] ∧ (∀ x, x ∈ offsets ↔ ∃ e ∈ R, (e.1, e.2.offset) = x) ∧
      ∀ slot, slot ∈ dead ↔ s.Dead R slot := by
  obtain ⟨c, d, offsets, dead, hrun, hagrees, hoffsets, hsub, hzero⟩ :=
    @removeDeadAccount_foldlM s R ∅ ∅ h
  refine ⟨c, d, offsets,
    dead.filter (fun slot => (s.db.storage slot).isNone || c slot == 0), ?_, hagrees,
    fun x => by simp [hoffsets x], fun slot => ?_⟩
  · rw [removeDeadAccounts, hrun]
    rfl
  · have hcount : ∀ e ∈ R, e.1 = slot →
        (c slot = 0 ↔ s.indexedIn slot = ∅) ∧ (s.db.storage slot).isNone = false := by
      rintro e he rfl
      obtain ⟨k, hpoints⟩ := h.reclaimed e he
      have hsome := hpoints.storage_isSome
      have hc : c e.1 = (s.indexedIn e.1).card + 0 := hagrees.counts e.1 hsome
      rw [hc, add_zero, card_eq_zero]
      exact ⟨Iff.rfl, by rw [← not_isSome, hsome]; rfl⟩
    rw [Finset.mem_filter]
    constructor
    · rintro ⟨hslot, hcond⟩
      obtain ⟨e, he, hes⟩ := (hsub slot hslot).resolve_left (notMem_empty _)
      obtain ⟨hiff, hnone⟩ := hcount e he hes
      rw [hnone, Bool.false_or, beq_iff_eq] at hcond
      exact ⟨⟨e, he, hes⟩, hiff.mp hcond⟩
    · rintro ⟨⟨e, he, hes⟩, hempty⟩
      have hc := (hcount e he hes).1.mpr hempty
      exact ⟨hzero slot hc (.inr ⟨e, he, hes⟩), by simp [hc]⟩

theorem unref_iterate (n r : Nat) (h : n ≤ r) : unref^[n] r = r - n := by
  induction n generalizing r with
  | zero => rfl
  | succ n ih =>
    have hne : r ≠ 0 := by omega
    rw [iterate_succ_apply, unref, if_neg hne, ih (r - 1) (by omega)]
    omega

theorem mem_purgedSlotPubkeys {slot : Slot} {k : Pubkey} :
    (slot, k) ∈ s.purgedSlotPubkeys dead ↔ slot ∈ dead ∧ (s.copyAt slot k).isSome = true := by
  unfold purgedSlotPubkeys copyAt
  rw [mem_biUnion]
  constructor
  · rintro ⟨slot', hslot', hmem⟩
    cases hstore : s.db.storage slot' with
    | none =>
      rw [hstore] at hmem
      exact absurd hmem (notMem_empty _)
    | some store =>
      rw [hstore, Option.elim_some, List.mem_toFinset, List.mem_map] at hmem
      obtain ⟨x, hx, heq⟩ := hmem
      obtain ⟨rfl, rfl⟩ := Prod.mk.inj heq
      rw [hstore]
      exact ⟨hslot', copyOf_isSome.mpr (mem_map.mpr ⟨x, hx, rfl⟩)⟩
  · rintro ⟨hslot, hcopy⟩
    refine ⟨slot, hslot, ?_⟩
    cases hstore : s.db.storage slot with
    | none =>
      rw [hstore] at hcopy
      cases hcopy
    | some store =>
      rw [hstore] at hcopy
      obtain ⟨x, hx, rfl⟩ := List.mem_map.mp (copyOf_isSome.mp hcopy)
      rw [Option.elim_some, List.mem_toFinset, List.mem_map]
      exact ⟨x, hx, rfl⟩

theorem card_purgedSlotPubkeys (k : Pubkey) :
    ((s.purgedSlotPubkeys dead).filter (fun x => x.2 = k)).card =
      (dead.filter (fun slot => (s.copyAt slot k).isSome = true)).card := by
  have himage : (s.purgedSlotPubkeys dead).filter (fun x => x.2 = k) =
      (dead.filter (fun slot => (s.copyAt slot k).isSome = true)).image
        (fun slot => (slot, k)) := by
    ext ⟨slot, k'⟩
    rw [Finset.mem_filter, mem_purgedSlotPubkeys, Finset.mem_image]
    constructor
    · rintro ⟨hmem, rfl⟩
      exact ⟨slot, mem_filter.mpr hmem, rfl⟩
    · rintro ⟨slot', hmem, heq⟩
      obtain ⟨rfl, rfl⟩ := Prod.mk.inj heq
      exact ⟨mem_filter.mp hmem, rfl⟩
  rw [himage, card_image_of_injective _ (fun _ _ h => (Prod.mk.inj h).1)]

theorem processDeadSlots_copyAt (slot : Slot) (k : Pubkey) :
    (s.processDeadSlots dead removed).copyAt slot k =
      if slot ∈ dead then none else s.copyAt slot k := by
  unfold copyAt processDeadSlots
  dsimp only
  split_ifs <;> rfl

theorem Agrees.processDeadSlots (h : s.Agrees []) (hdead : ∀ slot ∈ dead, s.indexedIn slot = ∅)
    (hremoved : ∀ k ∈ removed, s.slotList k = []) :
    (s.processDeadSlots dead removed).Agrees [] := by
  have halive : ∀ k e, e ∈ s.slotList k → e.2.storageLocation.isCached = false → e.1 ∉ dead := by
    intro k e he hcached hmem
    have hk := (mem_indexedIn h.stored).mpr ⟨e, he, rfl, hcached⟩
    rw [hdead e.1 hmem] at hk
    exact absurd hk (notMem_empty _)
  have hstorage : ∀ slot ∉ dead,
      (s.processDeadSlots dead removed).db.storage slot = s.db.storage slot :=
    fun slot hslot => if_neg hslot
  have hkept : ∀ slot, ((s.processDeadSlots dead removed).db.storage slot).isSome = true →
      slot ∉ dead := by
    intro slot hsome hmem
    dsimp only [CleanDb.processDeadSlots] at hsome
    rw [if_pos hmem] at hsome
    cases hsome
  have hstored : (s.processDeadSlots dead removed).Stored := by
    intro k e he hcached
    obtain ⟨store, offset, a, hstore, hrest⟩ := h.stored k e he hcached
    exact ⟨store, offset, a, (hstorage e.1 (halive k e he hcached)).trans hstore, hrest⟩
  refine ⟨h.nodup, hstored, ?_, ?_, ?_, fun e he => absurd he not_mem_nil⟩
  · intro slot hsome
    have hslot := hkept slot hsome
    rw [hstorage slot hslot] at hsome
    exact mem_sdiff.mpr ⟨h.rooted slot hsome, hslot⟩
  · intro slot hsome
    have hslot := hkept slot hsome
    rw [hstorage slot hslot] at hsome
    have hin : (s.processDeadSlots dead removed).indexedIn slot = s.indexedIn slot := by
      ext k
      rw [mem_indexedIn hstored, mem_indexedIn h.stored]
      rfl
    rw [hin]
    exact h.counts slot hsome
  · intro k hk
    have hindexed : ¬(k ∈ removed ∨ s.slotList k = []) := fun hor => hk (hor.elim (hremoved k) id)
    have hholders : (s.processDeadSlots dead removed).holders k =
        s.holders k \ dead.filter (fun slot => (s.copyAt slot k).isSome = true) := by
      ext slot
      rw [holders, Finset.mem_filter, processDeadSlots_copyAt, holders, Finset.mem_sdiff,
        Finset.mem_filter, Finset.mem_filter]
      dsimp only [CleanDb.processDeadSlots, CleanDb.aliveRoots]
      by_cases hslot : slot ∈ dead
      · rw [if_pos hslot]
        simp only [isSome_none, Bool.false_eq_true, and_false, false_iff]
        exact fun hin => hin.2 ⟨hslot, hin.1.2⟩
      · simp [hslot]
    have hsub : dead.filter (fun slot => (s.copyAt slot k).isSome = true) ⊆ s.holders k :=
      fun slot hslot => (mem_holders h).mpr (mem_filter.mp hslot).2
    have hrefs := h.refs k hk
    have hle := card_le_card hsub
    rw [hholders, card_sdiff_of_subset hsub, ← hrefs]
    dsimp only [CleanDb.processDeadSlots]
    rw [if_neg hindexed, card_purgedSlotPubkeys, unref_iterate _ _ (by rw [hrefs]; exact hle)]

/-- What `handle_reclaims` does. -/
structure Reclaimed (s : CleanDb) (R : List (Slot × AccountInfo)) (s' : CleanDb)
    (r : ReclaimResult) : Prop where
  agrees : s'.Agrees []
  slotList : s'.db.accountsIndex.slotList = s.db.accountsIndex.slotList
  removed : ∀ slot, s.Dead R slot → s'.db.storage slot = none
  kept : ∀ slot, ¬s.Dead R slot → s'.db.storage slot = s.db.storage slot
  roots : ∀ slot, slot ∈ s'.aliveRoots ↔ slot ∈ s.aliveRoots ∧ ¬s.Dead R slot
  cache : s'.db.accountsCache = s.db.accountsCache
  readOnly : s'.db.readOnlyAccountsCache = s.db.readOnlyAccountsCache
  purged : ∀ k slot, (k, slot) ∈ r.purgedAccountSlots ↔
    s.Dead R slot ∧ (s.copyAt slot k).isSome = true
  offsets : ∀ x, x ∈ r.reclaimedOffsets ↔ ∃ e ∈ R, (e.1, e.2.offset) = x
  refCount : ∀ k, (∀ slot, (k, slot) ∉ r.purgedAccountSlots) → s'.refCount k = s.refCount k

theorem handleReclaims_spec (h : s.Agrees R) (hremoved : ∀ k ∈ removed, s.slotList k = []) :
    ∃ s' r, s.handleReclaims R removed = some (s', r) ∧ s.Reclaimed R s' r := by
  unfold handleReclaims
  by_cases hnil : R = []
  · subst hnil
    have halive : ∀ slot, ¬s.Dead [] slot := by
      rintro slot ⟨⟨e, he, _⟩, _⟩
      exact absurd he not_mem_nil
    refine ⟨s, .default, if_pos rfl, h, rfl, fun slot hd => absurd hd (halive slot),
      fun _ _ => rfl, fun slot => ⟨fun hs => ⟨hs, halive slot⟩, fun hs => hs.1⟩, rfl, rfl,
      fun k slot => ⟨fun hx => absurd hx (notMem_empty _), fun hx => absurd hx.1 (halive slot)⟩,
      fun x => ⟨fun hx => absurd hx (notMem_empty _), ?_⟩, fun _ _ => rfl⟩
    rintro ⟨e, he, _⟩
    exact absurd he not_mem_nil
  · obtain ⟨c, d, offsets, dead, hrun, hagrees, hoffsets, hdead⟩ := removeDeadAccounts_spec h
    rw [if_neg hnil, hrun]
    have hpurged : ∀ k slot, (k, slot) ∈
        ((s.withCounts c d).purgedSlotPubkeys dead).image Prod.swap ↔
          s.Dead R slot ∧ (s.copyAt slot k).isSome = true := by
      intro k slot
      rw [mem_image]
      constructor
      · rintro ⟨⟨slot', k'⟩, hmem, heq⟩
        obtain ⟨rfl, rfl⟩ := Prod.mk.inj heq
        obtain ⟨hslot, hcopy⟩ := mem_purgedSlotPubkeys.mp hmem
        exact ⟨(hdead _).mp hslot, hcopy⟩
      · rintro ⟨hslot, hcopy⟩
        exact ⟨(slot, k), mem_purgedSlotPubkeys.mpr ⟨(hdead slot).mpr hslot, hcopy⟩, rfl⟩
    refine ⟨_, _, rfl, hagrees.processDeadSlots (fun slot hs => ((hdead slot).mp hs).2) hremoved,
      rfl, fun slot hd => if_pos ((hdead slot).mpr hd),
      fun slot hd => if_neg (mt (hdead slot).mp hd), ?_, rfl, rfl, hpurged, hoffsets, ?_⟩
    · intro slot
      rw [← hdead slot]
      exact mem_sdiff
    · intro k hnone
      have hzero : ((s.withCounts c d).purgedSlotPubkeys dead).filter (fun x => x.2 = k) = ∅ := by
        rw [filter_eq_empty_iff]
        rintro ⟨slot, k'⟩ hmem rfl
        exact hnone slot (mem_image.mpr ⟨(slot, k'), hmem, rfl⟩)
      dsimp only [processDeadSlots]
      rw [hzero]
      exact ite_self _

end CleanDb
end Hypergrid
