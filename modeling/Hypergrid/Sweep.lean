import Hypergrid.Reclaims

/-!
# The two sweeps of a clean

A clean drops index entries twice, and handles the reclaims after each time: first the outdated
entries of the candidates with an uncleaned root, then the entries of the zero-lamport accounts
that it removes.  `Swept s drop s' r` says what such a sweep does, for the predicate `drop` of
the dropped entries.

* `Dropped.sweep` : dropping entries and handling the reclaims is a sweep.
* `cleanAccountsOlderThanRoot_spec` and `purgeKeysExact_spec` : the two sweeps.
-/

namespace Hypergrid
open List

namespace CleanDb

/-- The state after entries have been dropped from the index. -/
structure Dropped (s : CleanDb) (drop : Pubkey → Slot × AccountInfo → Prop) (x : CleanDb)
    (R : List (Slot × AccountInfo)) : Prop where
  agrees : x.Agrees R
  mem : ∀ k e, e ∈ x.slotList k ↔ e ∈ s.slotList k ∧ ¬drop k e
  reclaims : ∀ e, e ∈ R ↔ ∃ k, e ∈ s.slotList k ∧ drop k e
  storage : x.db.storage = s.db.storage
  roots : x.aliveRoots = s.aliveRoots
  cache : x.db.accountsCache = s.db.accountsCache
  readOnly : x.db.readOnlyAccountsCache = s.db.readOnlyAccountsCache
  refCount : ∀ k, x.slotList k ≠ [] → x.refCount k = s.refCount k

/-- The slot has a dropped entry, and no other entry into its storage. -/
def DeadSlot (s : CleanDb) (drop : Pubkey → Slot × AccountInfo → Prop) (slot : Slot) : Prop :=
  (∃ k, ∃ e ∈ s.slotList k, drop k e ∧ e.1 = slot) ∧
    ∀ k, ∀ e ∈ s.slotList k, e.1 = slot → e.2.storageLocation.isCached = false → drop k e

/-- The index without the dropped entries, and the storages without the dead slots. -/
structure Cleaned (s : CleanDb) (drop : Pubkey → Slot × AccountInfo → Prop) (s' : CleanDb) :
    Prop where
  agrees : s'.Agrees []
  mem : ∀ k e, e ∈ s'.slotList k ↔ e ∈ s.slotList k ∧ ¬drop k e
  removed : ∀ slot, s.DeadSlot drop slot → s'.db.storage slot = none
  kept : ∀ slot, ¬s.DeadSlot drop slot → s'.db.storage slot = s.db.storage slot
  roots : ∀ slot, slot ∈ s'.aliveRoots ↔ slot ∈ s.aliveRoots ∧ ¬s.DeadSlot drop slot
  cache : s'.db.accountsCache = s.db.accountsCache
  readOnly : s'.db.readOnlyAccountsCache = s.db.readOnlyAccountsCache

/-- What a sweep does. -/
structure Swept (s : CleanDb) (drop : Pubkey → Slot × AccountInfo → Prop) (s' : CleanDb)
    (r : ReclaimResult) : Prop extends s.Cleaned drop s' where
  purged : ∀ k slot, (k, slot) ∈ r.purgedAccountSlots ↔
    s.DeadSlot drop slot ∧ (s.copyAt slot k).isSome = true
  offsets : ∀ x, x ∈ r.reclaimedOffsets ↔
    ∃ k, ∃ e ∈ s.slotList k, drop k e ∧ (e.1, e.2.offset) = x
  refCount : ∀ k, (∀ slot, (k, slot) ∉ r.purgedAccountSlots) → s'.slotList k ≠ [] →
    s'.refCount k = s.refCount k

section Lemmas
variable {s x : CleanDb} {drop drop' : Pubkey → Slot × AccountInfo → Prop}
  {R : List (Slot × AccountInfo)} {k : Pubkey} {p : Slot × AccountInfo → Bool}
  {removed : Finset Pubkey}

theorem Dropped.start (h : s.Agrees []) : s.Dropped (fun _ _ => False) s [] :=
  ⟨h, fun _ _ => by simp, fun _ => by simp, rfl, rfl, rfl, rfl, fun _ _ => rfl⟩

theorem Dropped.congr (h : s.Dropped drop x R)
    (hiff : ∀ k, ∀ e ∈ s.slotList k, drop k e ↔ drop' k e) : s.Dropped drop' x R where
  agrees := h.agrees
  mem := fun k e => by
    rw [h.mem]
    exact and_congr_right fun he => not_congr (hiff k e he)
  reclaims := fun e => by
    rw [h.reclaims]
    exact exists_congr fun k => and_congr_right fun he => hiff k e he
  storage := h.storage
  roots := h.roots
  cache := h.cache
  readOnly := h.readOnly
  refCount := h.refCount

theorem Dropped.retainEntries (h : s.Dropped drop x R)
    (hp : ∀ e ∈ x.slotList k, p e = true → e.2.storageLocation.isCached = false) :
    s.Dropped (fun k' e => drop k' e ∨ k' = k ∧ p e = true) (x.retainEntries k p).1
      (R ++ (x.retainEntries k p).2) where
  agrees := h.agrees.retainEntries hp
  mem := fun k' e => by
    rw [mem_retainEntries, h.mem]
    tauto
  reclaims := fun e => by
    have hdropped : e ∈ (x.retainEntries k p).2 ↔ (e ∈ s.slotList k ∧ ¬drop k e) ∧ p e = true := by
      rw [← h.mem]
      exact mem_filter
    rw [mem_append, h.reclaims, hdropped]
    constructor
    · rintro (⟨k', he, hd⟩ | ⟨⟨he, _⟩, hpe⟩)
      · exact ⟨k', he, .inl hd⟩
      · exact ⟨k, he, .inr ⟨rfl, hpe⟩⟩
    · rintro ⟨k', he, hd⟩
      by_cases hdrop : drop k' e
      · exact .inl ⟨k', he, hdrop⟩
      · obtain ⟨rfl, hpe⟩ := hd.resolve_left hdrop
        exact .inr ⟨⟨he, hdrop⟩, hpe⟩
  storage := h.storage
  roots := h.roots
  cache := h.cache
  readOnly := h.readOnly
  refCount := fun k' hk' => by
    refine h.refCount k' fun hnil => hk' ?_
    rw [retainEntries_slotList]
    split_ifs with hk
    · subst hk
      rw [hnil]
      rfl
    · exact hnil

theorem Dropped.removeIfSlotListEmpty (h : s.Dropped drop x R) (k : Pubkey) :
    s.Dropped drop (x.removeIfSlotListEmpty k) R := by
  have hagrees := h.agrees.removeIfSlotListEmpty k
  unfold CleanDb.removeIfSlotListEmpty at hagrees ⊢
  split_ifs at hagrees ⊢ with hnil
  · refine ⟨hagrees, h.mem, h.reclaims, h.storage, h.roots, h.cache, h.readOnly, ?_⟩
    intro k' hk'
    have hne : k' ≠ k := by
      rintro rfl
      exact hk' hnil
    dsimp only
    rw [Function.update_of_ne hne]
    exact h.refCount k' hk'
  · exact h

theorem removeIfSlotListEmpty_slotList (s : CleanDb) (k k' : Pubkey) :
    (s.removeIfSlotListEmpty k).slotList k' = s.slotList k' := by
  unfold removeIfSlotListEmpty
  split_ifs <;> rfl

theorem Dropped.exists_reclaim (h : s.Dropped drop x R) (test : Slot × AccountInfo → Prop) :
    (∃ e ∈ R, test e) ↔ ∃ k, ∃ e ∈ s.slotList k, drop k e ∧ test e := by
  constructor
  · rintro ⟨e, he, hes⟩
    obtain ⟨k, hmem, hd⟩ := (h.reclaims e).mp he
    exact ⟨k, e, hmem, hd, hes⟩
  · rintro ⟨k, e, hmem, hd, hes⟩
    exact ⟨e, (h.reclaims e).mpr ⟨k, hmem, hd⟩, hes⟩

theorem Dropped.dead_iff (h : s.Dropped drop x R) (slot : Slot) :
    x.Dead R slot ↔ s.DeadSlot drop slot := by
  have hsecond : x.indexedIn slot = ∅ ↔ ∀ k, ∀ e ∈ s.slotList k, e.1 = slot →
      e.2.storageLocation.isCached = false → drop k e := by
    rw [Finset.eq_empty_iff_forall_notMem]
    constructor
    · intro hempty k e hmem hes hcached
      by_contra hd
      exact hempty k ((mem_indexedIn h.agrees.stored).mpr
        ⟨e, (h.mem k e).mpr ⟨hmem, hd⟩, hes, hcached⟩)
    · intro hall k hk
      obtain ⟨e, he, hes, hcached⟩ := (mem_indexedIn h.agrees.stored).mp hk
      obtain ⟨hmem, hd⟩ := (h.mem k e).mp he
      exact hd (hall k e hmem hes hcached)
  exact and_congr (h.exists_reclaim _) hsecond

theorem Dropped.sweep (h : s.Dropped drop x R) (hremoved : ∀ k ∈ removed, x.slotList k = []) :
    ∃ s' r, x.handleReclaims R removed = some (s', r) ∧ s.Swept drop s' r := by
  obtain ⟨s', r, hrun, hr⟩ := handleReclaims_spec h.agrees hremoved
  have hcopy : ∀ slot k, x.copyAt slot k = s.copyAt slot k := by
    intro slot k
    rw [copyAt, h.storage]
    rfl
  refine ⟨s', r, hrun, ?_⟩
  refine
    { agrees := hr.agrees
      mem := fun k e => ?_
      removed := fun slot hd => hr.removed slot ((h.dead_iff slot).mpr hd)
      kept := fun slot hd => ?_
      roots := fun slot => ?_
      cache := hr.cache.trans h.cache
      readOnly := hr.readOnly.trans h.readOnly
      purged := fun k slot => ?_
      offsets := fun y => ?_
      refCount := fun k hnone hne => ?_ }
  · rw [slotList, hr.slotList]
    exact h.mem k e
  · rw [hr.kept slot (mt (h.dead_iff slot).mp hd), h.storage]
  · rw [hr.roots, h.roots, h.dead_iff]
  · rw [hr.purged, h.dead_iff, hcopy]
  · rw [hr.offsets]
    exact h.exists_reclaim _
  · rw [slotList, hr.slotList] at hne
    rw [hr.refCount k hnone, h.refCount k hne]

theorem Cleaned.deadSlot_or {s₁ : CleanDb} (h₁ : s.Cleaned drop s₁)
    (hun : ∀ k, ∀ e ∈ s.slotList k, drop k e ∨ drop' k e →
      e.2.storageLocation.isCached = false) (slot : Slot) :
    s.DeadSlot (fun k e => drop k e ∨ drop' k e) slot ↔
      s.DeadSlot drop slot ∨ s₁.DeadSlot drop' slot := by
  constructor
  · rintro ⟨⟨k, e, he, hd, hes⟩, hall⟩
    by_cases hfirst : ∀ k, ∀ e ∈ s.slotList k, e.1 = slot →
        e.2.storageLocation.isCached = false → drop k e
    · exact .inl ⟨⟨k, e, he, hfirst k e he hes (hun k e he hd), hes⟩, hfirst⟩
    · push Not at hfirst
      obtain ⟨k', e', he', hes', hcached', hd'⟩ := hfirst
      refine .inr ⟨⟨k', e', (h₁.mem k' e').mpr ⟨he', hd'⟩,
        (hall k' e' he' hes' hcached').resolve_left hd', hes'⟩, fun k'' e'' he'' hes'' hc => ?_⟩
      obtain ⟨hmem, hnot⟩ := (h₁.mem k'' e'').mp he''
      exact (hall k'' e'' hmem hes'' hc).resolve_left hnot
  · rintro (⟨⟨k, e, he, hd, hes⟩, hall⟩ | ⟨⟨k, e, he, hd, hes⟩, hall⟩)
    · exact ⟨⟨k, e, he, .inl hd, hes⟩, fun k e he hes hc => .inl (hall k e he hes hc)⟩
    · refine ⟨⟨k, e, ((h₁.mem k e).mp he).1, .inr hd, hes⟩, fun k e he hes hc => ?_⟩
      by_cases hd : drop k e
      · exact .inl hd
      · exact .inr (hall k e ((h₁.mem k e).mpr ⟨he, hd⟩) hes hc)

theorem Cleaned.trans {s₁ s₂ : CleanDb} (h₁ : s.Cleaned drop s₁) (h₂ : s₁.Cleaned drop' s₂)
    (hun : ∀ k, ∀ e ∈ s.slotList k, drop k e ∨ drop' k e → e.2.storageLocation.isCached = false) :
    s.Cleaned (fun k e => drop k e ∨ drop' k e) s₂ := by
  have hdead := h₁.deadSlot_or hun
  refine ⟨h₂.agrees, fun k e => ?_, fun slot hd => ?_, fun slot hd => ?_, fun slot => ?_,
    h₂.cache.trans h₁.cache, h₂.readOnly.trans h₁.readOnly⟩
  · rw [h₂.mem, h₁.mem]
    tauto
  · by_cases hd₂ : s₁.DeadSlot drop' slot
    · exact h₂.removed slot hd₂
    · rw [h₂.kept slot hd₂]
      exact h₁.removed slot (((hdead slot).mp hd).resolve_right hd₂)
  · obtain ⟨hd₁, hd₂⟩ := not_or.mp (mt (hdead slot).mpr hd)
    rw [h₂.kept slot hd₂, h₁.kept slot hd₁]
  · rw [h₂.roots, h₁.roots, hdead]
    tauto

theorem DeadSlot.congr (hiff : ∀ k, ∀ e ∈ s.slotList k, drop k e ↔ drop' k e) (slot : Slot) :
    s.DeadSlot drop slot ↔ s.DeadSlot drop' slot := by
  refine and_congr (exists_congr fun k => exists_congr fun e => and_congr_right fun he => ?_)
    (forall_congr' fun k => forall_congr' fun e => forall_congr' fun he => ?_)
  · rw [hiff k e he]
  · rw [hiff k e he]

theorem Cleaned.congr {s' : CleanDb} (h : s.Cleaned drop s')
    (hiff : ∀ k, ∀ e ∈ s.slotList k, drop k e ↔ drop' k e) : s.Cleaned drop' s' where
  agrees := h.agrees
  mem := fun k e => by
    rw [h.mem]
    exact and_congr_right fun he => not_congr (hiff k e he)
  removed := fun slot hd => h.removed slot ((DeadSlot.congr hiff slot).mpr hd)
  kept := fun slot hd => h.kept slot (mt (DeadSlot.congr hiff slot).mp hd)
  roots := fun slot => by rw [h.roots, DeadSlot.congr hiff]
  cache := h.cache
  readOnly := h.readOnly

theorem Cleaned.copyAt {s' : CleanDb} (h : s.Cleaned drop s') {slot : Slot}
    {a : AccountSharedData} :
    s'.copyAt slot k = some a ↔ ¬s.DeadSlot drop slot ∧ s.copyAt slot k = some a := by
  by_cases hd : s.DeadSlot drop slot
  · rw [CleanDb.copyAt, h.removed slot hd]
    simp [hd]
  · rw [CleanDb.copyAt, h.kept slot hd]
    simp [hd, CleanDb.copyAt]

end Lemmas

/-- A newer entry of the list is not above the bound. -/
def Outdated (l : List (Slot × AccountInfo)) (bound : Slot) (e : Slot × AccountInfo) : Prop :=
  ∃ e' ∈ l, e'.1 ≤ bound ∧ e.1 < e'.1

/-- No entry at or below the bound is cached. -/
def Uncached (s : CleanDb) (bound : Slot) : Prop :=
  ∀ k, ∀ e ∈ s.slotList k, e.1 ≤ bound → e.2.storageLocation.isCached = false

section Older
variable {s x : CleanDb} {R : List (Slot × AccountInfo)} {bound : Slot} {k : Pubkey}
  {removed : Finset Pubkey} {done : Pubkey → Prop}
variable {e : Slot × AccountInfo}

theorem Agrees.root_of_le (h : s.Agrees R) (hun : s.Uncached bound)
    (he : e ∈ s.slotList k) (hle : e.1 ≤ bound) : e.1 ∈ s.aliveRoots :=
  h.rooted e.1 (h.stored k e he (hun k e he hle)).storage_isSome

theorem getNewestRootInSlotList_spec (s : CleanDb) (l : List (Slot × AccountInfo)) (bound : Slot) :
    (∀ e ∈ l, e.1 ≤ bound → e.1 ∈ s.aliveRoots → e.1 ≤ s.getNewestRootInSlotList l bound) ∧
      (s.getNewestRootInSlotList l bound = 0 ∨
        ∃ e ∈ l, e.1 = s.getNewestRootInSlotList l bound ∧ e.1 ≤ bound ∧ e.1 ∈ s.aliveRoots) := by
  have hfold : ∀ (l : List (Slot × AccountInfo)) (start : Slot),
      let newest := l.foldl (fun maxRoot e =>
        if e.1 ≤ bound ∧ maxRoot < e.1 ∧ e.1 ∈ s.aliveRoots then e.1 else maxRoot) start
      start ≤ newest ∧ (∀ e ∈ l, e.1 ≤ bound → e.1 ∈ s.aliveRoots → e.1 ≤ newest) ∧
        (newest = start ∨ ∃ e ∈ l, e.1 = newest ∧ e.1 ≤ bound ∧ e.1 ∈ s.aliveRoots) := by
    intro l
    induction l with
    | nil => exact fun start => ⟨le_rfl, fun _ h => absurd h not_mem_nil, .inl rfl⟩
    | cons e l ih =>
      intro start
      rw [foldl_cons]
      by_cases hnew : e.1 ≤ bound ∧ start < e.1 ∧ e.1 ∈ s.aliveRoots
      · rw [if_pos hnew]
        obtain ⟨hge, hall, hfound⟩ := ih e.1
        refine ⟨le_trans (le_of_lt hnew.2.1) hge, forall_mem_cons.mpr ⟨fun _ _ => hge, hall⟩,
          .inr ?_⟩
        rcases hfound with heq | ⟨e', he', heq, hle⟩
        · exact ⟨e, mem_cons_self, heq.symm, hnew.1, hnew.2.2⟩
        · exact ⟨e', mem_cons_of_mem _ he', heq, hle⟩
      · rw [if_neg hnew]
        obtain ⟨hge, hall, hfound⟩ := ih start
        refine ⟨hge, forall_mem_cons.mpr ⟨fun hle hroot => ?_, hall⟩, ?_⟩
        · have hstart : ¬start < e.1 := fun hlt => hnew ⟨hle, hlt, hroot⟩
          exact le_trans (not_lt.mp hstart) hge
        · rcases hfound with heq | ⟨e', he', heq, hle⟩
          · exact .inl heq
          · exact .inr ⟨e', mem_cons_of_mem _ he', heq, hle⟩
  exact (hfold l 0).2

/-- An entry of a root that `purge_older_root_entries` drops has a newer root, which stays. -/
theorem purgesOlder_newer (he : e ∈ x.slotList k)
    (hroot : e.1 ∈ x.aliveRoots) (hpurge : x.purgesOlder bound k e = true) :
    ∃ e' ∈ x.slotList k, e'.1 ∈ x.aliveRoots ∧ e'.1 ≤ bound ∧ e.1 < e'.1 ∧
      x.purgesOlder bound k e' = false := by
  obtain ⟨hall, hfound⟩ := x.getNewestRootInSlotList_spec (x.slotList k) bound
  unfold purgesOlder canPurgeOlderEntries at *
  rw [Bool.and_eq_true, Bool.and_eq_true, decide_eq_true_iff, decide_eq_true_iff] at hpurge
  obtain ⟨⟨hlt, hne⟩, _⟩ := hpurge
  have hlt' := lt_of_le_of_ne (hall e he (le_of_lt hlt) hroot) hne
  rcases hfound with hzero | ⟨e', he', heq, hle', hroot'⟩
  · rw [hzero] at hlt'
    exact absurd hlt' (Nat.not_lt_zero _)
  · refine ⟨e', he', hroot', hle', heq ▸ hlt', ?_⟩
    rw [heq, decide_eq_false (not_not_intro rfl), Bool.and_false, Bool.false_and]

theorem purgesOlder_lt (hpurge : x.purgesOlder bound k e = true) : e.1 < bound := by
  unfold purgesOlder canPurgeOlderEntries at hpurge
  rw [Bool.and_eq_true, Bool.and_eq_true, decide_eq_true_iff] at hpurge
  exact hpurge.1.1

/-- `purge_older_root_entries` drops the outdated entries. -/
theorem purgesOlder_iff (h : x.Agrees R) (hun : x.Uncached bound) (he : e ∈ x.slotList k) :
    x.purgesOlder bound k e = true ↔ Outdated (x.slotList k) bound e := by
  constructor
  · intro hpurge
    have hlt := purgesOlder_lt hpurge
    obtain ⟨e', he', _, hle, hlt', _⟩ :=
      purgesOlder_newer he (h.root_of_le hun he (le_of_lt hlt)) hpurge
    exact ⟨e', he', hle, hlt'⟩
  · rintro ⟨e', he', hle, hlt⟩
    obtain ⟨hall, _⟩ := x.getNewestRootInSlotList_spec (x.slotList k) bound
    have hnewest := hall e' he' hle (h.root_of_le hun he' hle)
    have hbelow := lt_of_lt_of_le hlt hle
    unfold purgesOlder canPurgeOlderEntries
    rw [Bool.and_eq_true, Bool.and_eq_true, decide_eq_true_iff, decide_eq_true_iff,
      Bool.not_eq_true_eq_eq_false]
    exact ⟨⟨hbelow, ne_of_lt (lt_of_lt_of_le hlt hnewest)⟩, hun k e he (le_of_lt hbelow)⟩

theorem cleanRootedEntries_step (hun : s.Uncached bound)
    (h : s.Dropped (fun k e => done k ∧ Outdated (s.slotList k) bound e) x R)
    (hremoved : ∀ k ∈ removed, x.slotList k = []) (k : Pubkey) :
    let y := cleanRootedEntries bound (x, R, removed) k
    s.Dropped (fun k' e => (done k' ∨ k' = k) ∧ Outdated (s.slotList k') bound e) y.1 y.2.1 ∧
      ∀ k' ∈ y.2.2, y.1.slotList k' = [] := by
  have hunx : x.Uncached bound := fun k e he hle => hun k e ((h.mem k e).mp he).1 hle
  have hiff : ∀ e ∈ x.slotList k, x.purgesOlder bound k e = true ↔
      Outdated (x.slotList k) bound e := fun e he => purgesOlder_iff h.agrees hunx he
  have hdrop := (h.retainEntries (fun e he hpe => by
    obtain ⟨e', he', hle, hlt⟩ := (hiff e he).mp hpe
    exact hunx k e he (le_trans (le_of_lt hlt) hle))).removeIfSlotListEmpty k
  refine ⟨hdrop.congr fun k' e he => ?_, fun k' hk' => ?_⟩
  · by_cases hout : Outdated (s.slotList k') bound e
    · by_cases hdone : done k'
      · exact ⟨fun _ => ⟨.inl hdone, hout⟩, fun _ => .inl ⟨hdone, hout⟩⟩
      · have hmem : ∀ e ∈ s.slotList k', e ∈ x.slotList k' :=
          fun e he => (h.mem k' e).mpr ⟨he, fun hd => hdone hd.1⟩
        obtain ⟨e', he', hle, hlt⟩ := hout
        constructor
        · rintro (hd | ⟨rfl, _⟩)
          · exact absurd hd.1 hdone
          · exact ⟨.inr rfl, e', he', hle, hlt⟩
        · rintro ⟨hor, _⟩
          obtain rfl := hor.resolve_left hdone
          exact .inr ⟨rfl, (hiff e (hmem e he)).mpr ⟨e', hmem e' he', hle, hlt⟩⟩
    · -- what is not outdated in the whole list is not outdated in what is left of it
      refine ⟨?_, fun hd => absurd hd.2 hout⟩
      rintro (hd | ⟨rfl, hpe⟩)
      · exact absurd hd.2 hout
      · obtain ⟨e', he', hle, hlt⟩ := (hiff e ((h.mem k' e).mpr ⟨he, fun hd => hout hd.2⟩)).mp hpe
        exact absurd ⟨e', ((h.mem k' e').mp he').1, hle, hlt⟩ hout
  · dsimp only [cleanRootedEntries] at hk' ⊢
    rw [removeIfSlotListEmpty_slotList]
    have hold : k' ∈ removed → (x.retainEntries k (x.purgesOlder bound k)).1.slotList k' = [] := by
      intro hk'
      refine eq_nil_iff_forall_not_mem.mpr fun e he => ?_
      have hmem := (mem_retainEntries.mp he).1
      rw [hremoved k' hk'] at hmem
      exact absurd hmem not_mem_nil
    split_ifs at hk' with hnil
    · rcases Finset.mem_insert.mp hk' with rfl | hk'
      · exact hnil
      · exact hold hk'
    · exact hold hk'

theorem cleanRootedEntries_foldl (hun : s.Uncached bound) (purges : List Pubkey)
    (h : s.Dropped (fun k e => done k ∧ Outdated (s.slotList k) bound e) x R)
    (hremoved : ∀ k ∈ removed, x.slotList k = []) :
    let y := purges.foldl (cleanRootedEntries bound) (x, R, removed)
    s.Dropped (fun k e => (done k ∨ k ∈ purges) ∧ Outdated (s.slotList k) bound e) y.1 y.2.1 ∧
      ∀ k ∈ y.2.2, y.1.slotList k = [] := by
  induction purges generalizing x R removed done with
  | nil => exact ⟨h.congr fun k e _ => by simp, hremoved⟩
  | cons k purges ih =>
    obtain ⟨hstep, hstep'⟩ := cleanRootedEntries_step hun h hremoved k
    obtain ⟨hrest, hrest'⟩ := ih hstep hstep'
    refine ⟨hrest.congr fun k' e _ => and_congr_left fun _ => ?_, hrest'⟩
    rw [mem_cons, or_assoc]

theorem cleanAccountsOlderThanRoot_spec (h : s.Agrees []) (hun : s.Uncached bound)
    (purges : List Pubkey) :
    ∃ s' r removed, s.cleanAccountsOlderThanRoot bound purges = some (s', r, removed) ∧
      s.Swept (fun k e => k ∈ purges ∧ Outdated (s.slotList k) bound e) s' r ∧
      ∀ k ∈ removed, s'.slotList k = [] := by
  have hstart : s.Dropped (fun k e => False ∧ Outdated (s.slotList k) bound e) s [] :=
    (Dropped.start h).congr fun _ _ _ => by simp
  obtain ⟨hdrop, hremoved⟩ := @cleanRootedEntries_foldl s s [] bound ∅ (fun _ => False) hun purges
    hstart (fun k hk => absurd hk (Finset.notMem_empty k))
  obtain ⟨s', r, hrun, hswept⟩ :=
    (hdrop.congr fun k e _ => and_congr_left fun _ => iff_of_eq (false_or _)).sweep hremoved
  refine ⟨s', r, (purges.foldl (cleanRootedEntries bound) (s, [], ∅)).2.2, ?_, hswept,
    fun k hk => ?_⟩
  · unfold cleanAccountsOlderThanRoot
    dsimp only
    rw [hrun]
    rfl
  · refine eq_nil_iff_forall_not_mem.mpr fun e he => ?_
    have hmem := (hdrop.mem k e).mpr (by
      obtain ⟨he, hd⟩ := (hswept.mem k e).mp he
      exact ⟨he, fun hd' => hd ⟨hd'.1.resolve_left id, hd'.2⟩⟩)
    rw [hremoved k hk] at hmem
    exact absurd hmem not_mem_nil

end Older

variable {s x : CleanDb} {R : List (Slot × AccountInfo)} {dead : List Pubkey}
  {done : Pubkey → Slot → Prop}

theorem purgeExact_foldl (purges : List (Pubkey × Purge))
    (hun : ∀ q ∈ purges, ∀ e ∈ s.slotList q.1, e.1 ∈ q.2.slots →
      e.2.storageLocation.isCached = false)
    (h : s.Dropped (fun k e => done k e.1) x R) (hdead : ∀ k ∈ dead, x.slotList k = []) :
    let y := purges.foldl purgeExact (x, R, dead)
    s.Dropped (fun k e => done k e.1 ∨ ∃ q ∈ purges, q.1 = k ∧ e.1 ∈ q.2.slots) y.1 y.2.1 ∧
      ∀ k ∈ y.2.2, y.1.slotList k = [] := by
  induction purges generalizing x R dead done with
  | nil => exact ⟨h.congr fun _ _ _ => by simp, hdead⟩
  | cons q purges ih =>
    have hdrop := h.retainEntries (fun e he hpe =>
      hun q mem_cons_self e ((h.mem q.1 e).mp he).1 (of_decide_eq_true hpe))
    have hstep : s.Dropped (fun k e => done k e.1 ∨ k = q.1 ∧ e.1 ∈ q.2.slots)
        (purgeExact (x, R, dead) q).1 (purgeExact (x, R, dead) q).2.1 :=
      hdrop.congr fun k e _ => by rw [decide_eq_true_iff]
    have hold : ∀ k ∈ dead, (purgeExact (x, R, dead) q).1.slotList k = [] := by
      intro k hk
      refine eq_nil_iff_forall_not_mem.mpr fun e he => ?_
      have hmem := (mem_retainEntries.mp he).1
      rw [hdead k hk] at hmem
      exact absurd hmem not_mem_nil
    have hdead' : ∀ k ∈ (purgeExact (x, R, dead) q).2.2,
        (purgeExact (x, R, dead) q).1.slotList k = [] := by
      intro k hk
      dsimp only [purgeExact] at hk
      split_ifs at hk with hnil
      · rcases mem_cons.mp hk with rfl | hk
        · exact hnil
        · exact hold k hk
      · exact hold k hk
    obtain ⟨hrest, hrest'⟩ :=
      @ih _ _ _ (fun k slot => done k slot ∨ k = q.1 ∧ slot ∈ q.2.slots)
        (fun q' hq' => hun q' (mem_cons_of_mem _ hq')) hstep hdead'
    refine ⟨hrest.congr fun k e _ => ?_, hrest'⟩
    rw [exists_mem_cons_iff, or_assoc, @eq_comm _ k]

theorem removeIfSlotListEmpty_foldl (drop : Pubkey → Slot × AccountInfo → Prop)
    (keys : List Pubkey) (h : s.Dropped drop x R) :
    s.Dropped drop (keys.foldl removeIfSlotListEmpty x) R ∧
      ∀ k, (keys.foldl removeIfSlotListEmpty x).slotList k = x.slotList k := by
  induction keys generalizing x with
  | nil => exact ⟨h, fun _ => rfl⟩
  | cons k keys ih =>
    obtain ⟨hdrop, hlist⟩ := ih (h.removeIfSlotListEmpty k)
    exact ⟨hdrop, fun k' => (hlist k').trans (removeIfSlotListEmpty_slotList x k k')⟩

theorem purgeKeysExact_spec (h : s.Agrees []) (purges : List (Pubkey × Purge))
    (hun : ∀ q ∈ purges, ∀ e ∈ s.slotList q.1, e.1 ∈ q.2.slots →
      e.2.storageLocation.isCached = false) {removed : Finset Pubkey}
    (hremoved : ∀ k ∈ removed, s.slotList k = []) :
    let y := s.purgeKeysExact purges
    ∃ s' r, y.1.handleReclaims y.2.1 (removed ∪ y.2.2) = some (s', r) ∧
      s.Swept (fun k e => ∃ q ∈ purges, q.1 = k ∧ e.1 ∈ q.2.slots) s' r := by
  have hstart : s.Dropped (fun _ _ => False) s [] := Dropped.start h
  obtain ⟨hdrop, hdead⟩ := @purgeExact_foldl s s [] [] (fun _ _ => False) purges hun hstart
    (fun k hk => absurd hk not_mem_nil)
  obtain ⟨hdrop', hlist⟩ := removeIfSlotListEmpty_foldl _
    (purges.foldl purgeExact (s, [], [])).2.2
    (hdrop.congr fun k e _ => iff_of_eq (false_or _))
  refine hdrop'.sweep fun k hk => ?_
  rcases Finset.mem_union.mp hk with hk | hk
  · refine eq_nil_iff_forall_not_mem.mpr fun e he => ?_
    have hmem := ((hdrop'.mem k e).mp he).1
    rw [hremoved k hk] at hmem
    exact absurd hmem not_mem_nil
  · exact (hlist k).trans (hdead k (mem_toFinset.mp hk))

end CleanDb
end Hypergrid
