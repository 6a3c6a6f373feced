import Hypergrid.CleanAccounts

/-!
# What a clean keeps

A clean neither loses nor resurrects an account, exactly under a condition on the accounts that
it removes.  The readers, a rebuild from the storages, a rebuild from a full snapshot and the
later storages, and the reference counts are compared before and after.

* `keepsReaders_iff` : what the loads return.
* `rebuilt_iff` and `rebuilt_snapshot` : what a rebuild gives.
* `keepsAccounts_iff` : the whole statement.
-/

namespace Hypergrid
open AccountsIndex AccountsDb List Option AccountSharedData AccountStorageEntry

namespace CleanDb

/-- A rebuild takes, for each key, the copy of the highest slot; one without lamports is no
account. -/
def Rebuilt (copy : Slot → Pubkey → Option AccountSharedData) (k : Pubkey)
    (a : AccountSharedData) : Prop :=
  a.lamports ≠ 0 ∧ ∃ slot, copy slot k = some a ∧ ∀ slot', slot < slot' → copy slot' k = none

/-- Every reader whose slots are roots or not below the bound loads what it loaded before. -/
def KeepsReaders (s s' : CleanDb) (bound : Slot) : Prop :=
  ∀ q : LoadQuery, (∀ slot ∈ q.ancestors, bound ≤ slot ∨ slot ∈ s.aliveRoots) →
    (s'.db.doLoad q).2 = (s.db.doLoad q).2

/-- The index agrees with the storages at the start of a clean. -/
structure Consistent (s : CleanDb) (bound : Slot) : Prop where
  coherent : s.db.Coherent
  agrees : s.Agrees []
  uncached : s.Uncached bound
  /-- the newest stored copy of a key is indexed -/
  newest : ∀ k slot, (s.copyAt slot k).isSome = true →
    (∀ slot', slot < slot' → s.copyAt slot' k = none) → s.Indexed slot k

/-- Without its local version, a reader sees a copy of the account on the base layer. -/
def Exposed (s : CleanDb) (bound : Slot) (k : Pubkey) : Prop :=
  (∀ e ∈ s.slotList k, bound < e.1 → e.1 ∉ s.aliveRoots) ∧
    ∃ a, s.db.remoteCopy k = some a ∧ a.lamports ≠ 0

/-- An old copy with lamports is the newest one in the storages that the clean keeps. -/
def Resurrected (s : CleanDb) (bound : Slot) (lastFull : Option Slot) (k : Pubkey) : Prop :=
  ∃ slot a, ¬s.DeadSlot (s.Drops bound lastFull) slot ∧ s.copyAt slot k = some a ∧
    a.lamports ≠ 0 ∧ ∀ slot', slot < slot' → ¬s.DeadSlot (s.Drops bound lastFull) slot' →
      s.copyAt slot' k = none

variable {s s' : CleanDb} {bound slot : Slot} {lastFull : Option Slot} {k : Pubkey}

section Lemmas
variable {e : Slot × AccountInfo} {ancestors : Finset Slot}

theorem Drops.le (h : s.Drops bound lastFull k e) : e.1 ≤ bound := by
  rcases h with ⟨_, e', _, hle, hlt⟩ | ⟨_, hle⟩
  · exact le_trans (le_of_lt hlt) hle
  · exact hle

theorem DeadSlot.le (h : s.DeadSlot (s.Drops bound lastFull) slot) : slot ≤ bound := by
  obtain ⟨⟨k, e, _, hd, rfl⟩, _⟩ := h
  exact hd.le

variable (hcl : s.Cleaned (s.Drops bound lastFull) s') (hs : s.Consistent bound)
include hcl

theorem newest_cleaned (hn : s.Newest bound k e) (hk : ¬s.Removable bound lastFull k) :
    e ∈ s'.slotList k := by
  refine (hcl.mem k e).mpr ⟨hn.1, ?_⟩
  rintro (hd | hd)
  · exact hn.not_outdated hd.2
  · exact hk hd.1

theorem remoteCopy_cleaned : s'.db.remoteCopy k = s.db.remoteCopy k := by
  unfold remoteCopy remoteLoader
  rw [hcl.cache]

include hs

theorem not_deadSlot_of_mem (he : e ∈ s'.slotList k) :
    ¬s.DeadSlot (s.Drops bound lastFull) e.1 := by
  intro hdead
  obtain ⟨hmem, hd⟩ := (hcl.mem k e).mp he
  exact hd (hdead.2 k e hmem rfl (hs.uncached k e hmem hdead.le))

theorem resolve_cleaned (he : e ∈ s'.slotList k) (loc : StorageLocation) :
    s'.db.resolve e.1 k loc = s.db.resolve e.1 k loc := by
  refine ReaderFlush.resolve_congr ?_ (hcl.kept e.1 (not_deadSlot_of_mem hcl hs he)) loc
  rw [hcl.cache]

theorem coherent_cleaned : s'.db.Coherent where
  nodup := hcl.agrees.nodup
  resolves := fun k e he => by
    rw [resolve_cleaned hcl hs he]
    exact hs.coherent.resolves k e ((hcl.mem k e).mp he).1
  readOnly := fun k e a he hcached hread => by
    rw [resolve_cleaned hcl hs he]
    rw [hcl.readOnly] at hread
    exact hs.coherent.readOnly k e a ((hcl.mem k e).mp he).1 hcached hread
  roots := fun slot hslot => hs.coherent.roots slot ((hcl.roots slot).mp hslot).1

theorem visible_cleaned_iff (he : e ∈ s'.slotList k) :
    s'.db.accountsIndex.Visible ancestors none e.1 ↔
      s.db.accountsIndex.Visible ancestors none e.1 := by
  refine or_congr_right (and_congr_right fun _ => ?_)
  rw [hcl.roots, and_iff_left (not_deadSlot_of_mem hcl hs he)]

theorem get_cleaned_some (hget : s'.db.accountsIndex.get k ancestors none = some e) :
    s.db.accountsIndex.get k ancestors none = some e := by
  obtain ⟨he, hvis, hmax⟩ := get_eq_some hget
  obtain ⟨hmem, hkept⟩ := (hcl.mem k e).mp he
  refine get_eq_some_of_max (hs.agrees.nodup k) hmem
    ((visible_cleaned_iff hcl hs he).mp hvis) fun e' he' hvis' => ?_
  by_cases hd : s.Drops bound lastFull k e'
  · by_cases hk : s.Removable bound lastFull k
    · exact le_trans hd.le (le_of_lt (not_le.mp fun hle => hkept (.inr ⟨hk, hle⟩)))
    · obtain ⟨en, hn⟩ := exists_newest hs.agrees hs.uncached he' hd.le
      have hen := newest_cleaned hcl hn hk
      have hroot := hs.agrees.root_of_le hs.uncached hn.1 hn.2.1
      have hvis_en : s'.db.accountsIndex.Visible ancestors none en.1 :=
        (visible_cleaned_iff hcl hs hen).mpr (visible_of_root hs.coherent hroot)
      exact le_trans (hn.2.2 e' he' hd.le) (hmax en hen hvis_en)
  · have hin := (hcl.mem k e').mpr ⟨he', hd⟩
    exact hmax e' hin ((visible_cleaned_iff hcl hs hin).mpr hvis')

theorem get_cleaned_none (hget : s'.db.accountsIndex.get k ancestors none = none)
    (hget₀ : s.db.accountsIndex.get k ancestors none = some e) :
    s.Removable bound lastFull k ∧ s.Newest bound k e := by
  have hnone := (get_eq_none_iff _ _ _ _).mp hget
  obtain ⟨he, hvis, hmax⟩ := get_eq_some hget₀
  have hd : s.Drops bound lastFull k e := by
    by_contra hd
    have hin := (hcl.mem k e).mpr ⟨he, hd⟩
    exact hnone e hin ((visible_cleaned_iff hcl hs hin).mpr hvis)
  obtain ⟨en, hn⟩ := exists_newest hs.agrees hs.uncached he hd.le
  have hroot : s.db.accountsIndex.Visible ancestors none en.1 := visible_of_root hs.coherent
    (hs.agrees.root_of_le hs.uncached hn.1 hn.2.1)
  have hk : s.Removable bound lastFull k := by
    by_contra hk
    have hin := newest_cleaned hcl hn hk
    exact hnone en hin ((visible_cleaned_iff hcl hs hin).mpr hroot)
  have hsame : e = en := inj_on_of_nodup_map (hs.agrees.nodup k) he hn.1
    (le_antisymm (hn.2.2 e he hd.le) (hmax en hn.1 hroot))
  exact ⟨hk, hsame ▸ hn⟩

omit hcl

theorem Removable.zero (hk : s.Removable bound lastFull k) (hn : s.Newest bound k e) :
    e.2.isZeroLamport = true := by
  obtain ⟨Z, hZ, hkZ⟩ := hk.1
  obtain ⟨en, hn', hzero⟩ := (hZ k hkZ).1.2
  rw [hn.unique hs.agrees hn']
  exact hzero

theorem Removable.loaded (hk : s.Removable bound lastFull k) (hn : s.Newest bound k e)
    (hget : s.db.accountsIndex.get k ancestors none = some e) :
    loaded s.db ancestors k = none := by
  obtain ⟨store, offset, a, hstore, hloc, hacc, _, hzero⟩ :=
    hs.agrees.stored k e hn.1 (hs.uncached k e hn.1 hn.2.1)
  have hres : s.db.resolve e.1 k e.2.storageLocation = some (fromStored a) := by
    rw [hloc, resolve, getAccountStorageEntry, hstore]
    simp [hacc]
  unfold Hypergrid.loaded visible
  rw [hget]
  dsimp only
  rw [hres]
  have hz : a.isZeroLamport = true := by rw [← hzero, hk.zero hs hn]
  simp [hz]

include hcl

theorem loaded_cleaned (hexp : s.Removable bound lastFull k → ¬s.Exposed bound k) :
    loaded s'.db ancestors k = loaded s.db ancestors k := by
  cases hget : s'.db.accountsIndex.get k ancestors none with
  | some e =>
    have he := (get_eq_some hget).1
    unfold loaded visible
    rw [hget, get_cleaned_some hcl hs hget]
    dsimp only
    rw [resolve_cleaned hcl hs he]
  | none =>
    cases hget₀ : s.db.accountsIndex.get k ancestors none with
    | none =>
      unfold loaded visible
      rw [hget, hget₀, remoteCopy_cleaned hcl]
    | some e =>
      obtain ⟨hk, hn⟩ := get_cleaned_none hcl hs hget hget₀
      have hhidden : ∀ e ∈ s.slotList k, bound < e.1 → e.1 ∉ s.aliveRoots := by
        intro e he hlt hroot
        have hin := (hcl.mem k e).mpr ⟨he, fun hd => absurd hd.le (not_le.mpr hlt)⟩
        exact (get_eq_none_iff _ _ _ _).mp hget e hin
          ((visible_cleaned_iff hcl hs hin).mpr (visible_of_root hs.coherent hroot))
      rw [hk.loaded hs hn hget₀]
      unfold loaded visible
      rw [hget, remoteCopy_cleaned hcl]
      split_ifs with hcard
      · cases hcopy : s.db.remoteCopy k with
        | none => rfl
        | some a =>
          have hz : a.lamports = 0 := by
            by_contra hz
            exact hexp hk ⟨hhidden, a, hcopy, hz⟩
          simp [isZeroLamport, hz]
      · rfl

/-- A reader with two ancestors sees the copy on the base layer of a removed account. -/
theorem loaded_exposed (hk : s.Removable bound lastFull k) (hexp : s.Exposed bound k)
    (hcard : 1 < ancestors.card) (hfresh : ∀ e ∈ s.slotList k, e.1 ∉ ancestors) :
    loaded s'.db ancestors k ≠ loaded s.db ancestors k := by
  obtain ⟨hhidden, a, hcopy, hz⟩ := hexp
  obtain ⟨Z, hZ, hkZ⟩ := hk.1
  obtain ⟨en, hn, _⟩ := (hZ k hkZ).1.2
  have hroot : s.db.accountsIndex.Visible ancestors none en.1 :=
    visible_of_root hs.coherent (hs.agrees.root_of_le hs.uncached hn.1 hn.2.1)
  have hget₀ : s.db.accountsIndex.get k ancestors none = some en := by
    refine get_eq_some_of_max (hs.agrees.nodup k) hn.1 hroot fun e he hvis => ?_
    refine hn.2.2 e he (not_lt.mp fun hlt => ?_)
    exact hvis.elim (hfresh e he) fun h => hhidden e he hlt h.2
  have hget : s'.db.accountsIndex.get k ancestors none = none := by
    refine (get_eq_none_iff _ _ _ _).mpr fun e he hvis => ?_
    obtain ⟨hmem, hd⟩ := (hcl.mem k e).mp he
    have hlt : bound < e.1 := not_le.mp fun hle => hd (.inr ⟨hk, hle⟩)
    exact hvis.elim (hfresh e hmem) fun h => hhidden e hmem hlt ((hcl.roots e.1).mp h.2).1
  rw [hk.loaded hs hn hget₀]
  unfold loaded visible
  rw [hget, remoteCopy_cleaned hcl, hcopy]
  rw [if_pos hcard]
  simp [isZeroLamport, hz]

/-- No reader notices the clean exactly if no removed account has a copy on the base layer. -/
theorem keepsReaders_iff (m : Slot) :
    s.KeepsReaders s' m ↔ ∀ k, s.Removable bound lastFull k → ¬s.Exposed bound k := by
  have hload : ∀ q : LoadQuery, (s'.db.doLoad q).2 = (s.db.doLoad q).2 ↔
      loaded s'.db q.ancestors q.pubkey = loaded s.db q.ancestors q.pubkey := by
    intro q
    rw [(doLoad_spec _ _ (coherent_cleaned hcl hs)).1, (doLoad_spec _ _ hs.coherent).1,
      Except.ok.injEq]
    rfl
  constructor
  · intro hkeeps k hk hexp
    -- two slots above the bound and above the slots of the key
    obtain ⟨top, htop⟩ : ∃ top, ∀ e ∈ s.slotList k, e.1 < top :=
      ⟨((s.slotList k).map Prod.fst).sum + 1, fun e he =>
        Nat.lt_succ_of_le (single_le_sum (fun _ _ => Nat.zero_le _) _
          (mem_map.mpr ⟨e, he, rfl⟩))⟩
    have hge : ∀ slot ∈ ({m + top, m + top + 1} : Finset Slot), m + top ≤ slot := by
      intro slot hslot
      rcases Finset.mem_insert.mp hslot with rfl | hslot
      · exact le_rfl
      · rw [Finset.mem_singleton.mp hslot]
        exact Nat.le_succ _
    have hcard : 1 < ({m + top, m + top + 1} : Finset Slot).card := by
      rw [Finset.card_pair (Nat.succ_ne_self _).symm]
      exact Nat.one_lt_two
    have hfresh : ∀ e ∈ s.slotList k, e.1 ∉ ({m + top, m + top + 1} : Finset Slot) := by
      intro e he hmem
      have h₁ := htop e he
      have h₂ := hge e.1 hmem
      dsimp only [Slot] at *
      omega
    refine loaded_exposed hcl hs hk hexp hcard hfresh
      ((hload ⟨_, k, .unspecified⟩).mp (hkeeps _ fun slot hslot => .inl ?_))
    exact le_trans (Nat.le_add_right _ _) (hge slot hslot)
  · intro hexp q _
    exact (hload q).mpr (loaded_cleaned hcl hs (hexp q.pubkey))

end Lemmas

section Rebuild
variable {copy : Slot → Pubkey → Option AccountSharedData}

theorem rebuilt_of_newest (hsub : ∀ slot a, copy slot k = some a → s.copyAt slot k = some a)
    (htop : ∀ slot, (s.copyAt slot k).isSome = true →
      (∀ slot', slot < slot' → s.copyAt slot' k = none) → copy slot k = s.copyAt slot k)
    (hex : ∀ slot, (s.copyAt slot k).isSome = true → ∃ top, slot ≤ top ∧
      (s.copyAt top k).isSome = true ∧ ∀ slot', top < slot' → s.copyAt slot' k = none)
    (a : AccountSharedData) : Rebuilt copy k a ↔ Rebuilt s.copyAt k a := by
  refine and_congr_right fun _ => ⟨?_, ?_⟩
  · rintro ⟨slot, ha, hnone⟩
    have ha' := hsub slot a ha
    obtain ⟨top, hle, hsome, htop'⟩ := hex slot (by rw [ha']; rfl)
    have heq : top = slot := by
      by_contra hne
      have hcopy := hnone top (lt_of_le_of_ne hle (Ne.symm hne))
      rw [htop top hsome htop'] at hcopy
      rw [hcopy] at hsome
      cases hsome
    subst heq
    exact ⟨top, ha', htop'⟩
  · rintro ⟨slot, ha, hnone⟩
    refine ⟨slot, ?_, fun slot' hlt => ?_⟩
    · rw [htop slot (by rw [ha]; rfl) hnone, ha]
    · cases hcopy : copy slot' k with
      | none => rfl
      | some a' =>
        have ha' := hsub slot' a' hcopy
        rw [hnone slot' hlt] at ha'
        cases ha'

theorem exists_top (hs : s.Agrees []) (hcopy : (s.copyAt slot k).isSome = true) :
    ∃ top, slot ≤ top ∧ (s.copyAt top k).isSome = true ∧
      ∀ slot', top < slot' → s.copyAt slot' k = none := by
  have hmem : slot ∈ s.holders k := (mem_holders hs).mpr hcopy
  obtain ⟨top, htop, hmax⟩ := (s.holders k).exists_max_image id ⟨slot, hmem⟩
  refine ⟨top, hmax slot hmem, (mem_holders hs).mp htop, fun slot' hlt => ?_⟩
  by_contra hne
  have hin := (mem_holders hs).mpr (isSome_iff_ne_none.mpr hne)
  exact absurd (hmax slot' hin) (not_le.mpr hlt)

variable (hs : s.Consistent bound)
include hs

theorem le_of_top (htop : ∀ slot', slot < slot' → s.copyAt slot' k = none)
    {e : Slot × AccountInfo} (he : e ∈ s.slotList k) (hle : e.1 ≤ bound) : e.1 ≤ slot := by
  refine not_lt.mp fun hlt => ?_
  obtain ⟨a, ha, _⟩ := (hs.agrees.stored k e he (hs.uncached k e he hle)).copyAt
  rw [htop e.1 hlt] at ha
  cases ha

/-- The storage of the newest copy dies only with the account. -/
theorem removable_of_dead_top (hcopy : (s.copyAt slot k).isSome = true)
    (htop : ∀ slot', slot < slot' → s.copyAt slot' k = none)
    (hdead : s.DeadSlot (s.Drops bound lastFull) slot) :
    s.Removable bound lastFull k ∧ ∃ e, s.Newest bound k e ∧ e.1 = slot := by
  obtain ⟨e, he, hes, hcached⟩ := hs.newest k slot hcopy htop
  have hd := hdead.2 k e he hes hcached
  have hn : s.Newest bound k e := ⟨he, hd.le, fun _ he' hle => hes ▸ le_of_top hs htop he' hle⟩
  rcases hd with hd | hd
  · exact absurd hd.2 hn.not_outdated
  · exact ⟨hd.1, e, hn, hes⟩

/-- The newest stored copy of a removed account is its newest version, without lamports. -/
theorem Removable.top (hk : s.Removable bound lastFull k) (hcopy : (s.copyAt slot k).isSome = true)
    (htop : ∀ slot', slot < slot' → s.copyAt slot' k = none) {a : AccountSharedData}
    (ha : s.copyAt slot k = some a) : a.lamports = 0 := by
  obtain ⟨Z, hZ, hkZ⟩ := hk.1
  obtain ⟨_, hholds, _⟩ := hZ k hkZ
  have halive : ¬s.DeadSlot (s.DropsOlder bound lastFull) slot := by
    intro hdead
    obtain ⟨e, he, hes, hcached⟩ := hs.newest k slot hcopy htop
    obtain ⟨_, e', he', hle, hlt⟩ := hdead.2 k e he hes hcached
    exact absurd (le_of_top hs htop he' hle) (not_le.mpr (hes ▸ hlt))
  obtain ⟨hle, e, he, rfl, hcached, _⟩ := hholds slot ⟨halive, hcopy⟩
  have hn : s.Newest bound k e := ⟨he, hle, fun _ he' hle' => le_of_top hs htop he' hle'⟩
  obtain ⟨a', ha', hzero⟩ := (hs.agrees.stored k e he hcached).copyAt
  rw [ha, some.injEq] at ha'
  rw [hk.zero hs hn, ← ha'] at hzero
  simpa [isZeroLamport] using hzero.symm

variable (hcl : s.Cleaned (s.Drops bound lastFull) s')
include hcl

theorem rebuilt_iff : (∀ k a, Rebuilt s'.copyAt k a ↔ Rebuilt s.copyAt k a) ↔
    ∀ k, s.Removable bound lastFull k → ¬s.Resurrected bound lastFull k := by
  have hbefore : ∀ k a, s.Removable bound lastFull k → ¬Rebuilt s.copyAt k a := by
    rintro k a hk ⟨hz, slot, ha, htop⟩
    exact hz (hk.top hs (by rw [ha]; rfl) htop ha)
  have hafter : ∀ k, (∃ a, Rebuilt s'.copyAt k a) ↔ s.Resurrected bound lastFull k := by
    intro k
    constructor
    · rintro ⟨a, hz, slot, ha, hnone⟩
      obtain ⟨hlive, ha'⟩ := hcl.copyAt.mp ha
      refine ⟨slot, a, hlive, ha', hz, fun slot' hlt hlive' => ?_⟩
      by_contra hne
      obtain ⟨a', ha''⟩ := ne_none_iff_exists'.mp hne
      have hcopy := hcl.copyAt.mpr ⟨hlive', ha''⟩
      rw [hnone slot' hlt] at hcopy
      cases hcopy
    · rintro ⟨slot, a, hlive, ha, hz, hnone⟩
      refine ⟨a, hz, slot, hcl.copyAt.mpr ⟨hlive, ha⟩, fun slot' hlt => ?_⟩
      by_contra hne
      obtain ⟨a', ha'⟩ := ne_none_iff_exists'.mp hne
      obtain ⟨hlive', ha''⟩ := hcl.copyAt.mp ha'
      rw [hnone slot' hlt hlive'] at ha''
      cases ha''
  constructor
  · intro hall k hk hres
    obtain ⟨a, ha⟩ := (hafter k).mpr hres
    exact hbefore k a hk ((hall k a).mp ha)
  · intro hcond k a
    by_cases hk : s.Removable bound lastFull k
    · exact iff_of_false (fun h => hcond k hk ((hafter k).mp ⟨a, h⟩)) (hbefore k a hk)
    · refine rebuilt_of_newest (fun slot a ha => (hcl.copyAt.mp ha).2) (fun slot hcopy htop => ?_)
        (fun slot hcopy => exists_top hs.agrees hcopy) a
      obtain ⟨a', ha'⟩ := isSome_iff_exists.mp hcopy
      rw [ha']
      exact hcl.copyAt.mpr ⟨fun hd => hk (removable_of_dead_top hs hcopy htop hd).1, ha'⟩

/-- A rebuild from the storages up to the full snapshot, as they were before the clean, and the
remaining storages above it. -/
theorem rebuilt_snapshot {f : Slot} (hf : lastFull = some f) (k : Pubkey) (a : AccountSharedData) :
    Rebuilt (fun slot k => if slot ≤ f then s.copyAt slot k else s'.copyAt slot k) k a ↔
      Rebuilt s.copyAt k a := by
  refine rebuilt_of_newest (fun slot a ha => ?_) (fun slot hcopy htop => ?_)
    (fun slot hcopy => exists_top hs.agrees hcopy) a
  · split_ifs at ha with hle
    · exact ha
    · exact (hcl.copyAt.mp ha).2
  · split_ifs with hle
    · rfl
    · obtain ⟨a', ha'⟩ := isSome_iff_exists.mp hcopy
      rw [ha']
      refine hcl.copyAt.mpr ⟨fun hd => ?_, ha'⟩
      -- the filter keeps an account whose newest version the full snapshot does not have
      obtain ⟨hk, e, hn, rfl⟩ := removable_of_dead_top hs hcopy htop hd
      exact hle (hk.2 f hf (lt_of_lt_of_le (not_le.mp hle) hn.2.1) e hn)

end Rebuild

/-- `clean_accounts` neither loses nor resurrects an account. -/
def KeepsAccounts (order : HashOrder) (m : Slot) (lastFull : Option Slot) (s : CleanDb) : Prop :=
  ∃ s', cleanAccounts order m lastFull s = some s' ∧ s.KeepsReaders s' m ∧
    (∀ k a, Rebuilt s'.copyAt k a ↔ Rebuilt s.copyAt k a) ∧
    (∀ f, lastFull = some f → ∀ k a,
      Rebuilt (fun slot k => if slot ≤ f then s.copyAt slot k else s'.copyAt slot k) k a ↔
        Rebuilt s.copyAt k a) ∧
    (∀ k, s'.slotList k ≠ [] → ∃ slots : Finset Slot,
      (∀ slot, slot ∈ slots ↔ (s'.copyAt slot k).isSome = true) ∧
        s'.refCount k = slots.card) ∧
    (lastFull = none → ∀ k,
      (s.ZeroCandidate (s.cleanBound m) none k ∧ ∀ e ∈ s'.slotList k, s.cleanBound m < e.1) ↔
        s.Deletable (s.cleanBound m) none k)

/-- Without the filter for incremental snapshots, every storage with a copy of a removed account
dies. -/
theorem Removable.not_resurrected (hf : ∀ f, lastFull = some f → bound ≤ f)
    (hk : s.Removable bound lastFull k) : ¬s.Resurrected bound lastFull k := by
  rintro ⟨slot, a, hlive, ha, _, _⟩
  obtain ⟨Z, hZ, hkZ⟩ := hk.1
  obtain ⟨_, hholds, hshut⟩ := hZ k hkZ
  have halive : ¬s.DeadSlot (s.DropsOlder bound lastFull) slot := by
    rintro ⟨⟨k', e, he, hd, hes⟩, hall⟩
    exact hlive ⟨⟨k', e, he, .inl hd, hes⟩, fun k e he hes hc => .inl (hall k e he hes hc)⟩
  obtain ⟨hle, hremains⟩ := hholds slot ⟨halive, by rw [ha]; rfl⟩
  have hremovable : ∀ k' ∈ Z, s.Removable bound lastFull k' := fun k' hk' =>
    ⟨⟨Z, hZ, hk'⟩, fun f hf' hlt => absurd (hf f hf') (not_le.mpr hlt)⟩
  refine hlive ⟨?_, fun k' e he hes hc => ?_⟩
  · obtain ⟨e, he, hes, _, _⟩ := hremains
    exact ⟨k, e, he, .inr ⟨hk, hes ▸ hle⟩, hes⟩
  · by_cases hd : s.DropsOlder bound lastFull k' e
    · exact .inl hd
    · exact .inr ⟨hremovable k' (hshut slot hle hremains k' ⟨e, he, hes, hc, hd⟩), hes ▸ hle⟩

/-- Without a full snapshot the removed accounts are the deletable ones. -/
theorem removed_iff_deletable (hcl : s.Cleaned (s.Drops bound none) s') :
    (s.ZeroCandidate bound none k ∧ ∀ e ∈ s'.slotList k, bound < e.1) ↔
      s.Deletable bound none k := by
  constructor
  · rintro ⟨⟨_, e, hn, _⟩, hleft⟩
    by_contra hk
    have hmem := newest_cleaned hcl hn (fun h => hk h.1)
    exact absurd hn.2.1 (not_le.mpr (hleft e hmem))
  · intro hk
    obtain ⟨Z, hZ, hkZ⟩ := hk
    refine ⟨(hZ k hkZ).1, fun e he => not_le.mp fun hle => ?_⟩
    have hremovable : s.Removable bound none k := ⟨⟨Z, hZ, hkZ⟩, fun f hf => nomatch hf⟩
    exact ((hcl.mem k e).mp he).2 (.inr ⟨hremovable, hle⟩)

/-- A clean keeps the accounts, exactly when the list of a former full snapshot is empty or there
is a full snapshot, and no account that it removes has a copy that a reader or a rebuild would
find instead. -/
theorem keepsAccounts_iff (order : HashOrder) (m : Slot) (lastFull : Option Slot) (s : CleanDb)
    (hs : s.Consistent (s.cleanBound m)) (hbound : s.cleanBound m ≤ u64Max) :
    s.KeepsAccounts order m lastFull ↔ s.LaterOk lastFull ∧
      ∀ k, s.Removable (s.cleanBound m) lastFull k →
        ¬s.Exposed (s.cleanBound m) k ∧ ¬s.Resurrected (s.cleanBound m) lastFull k := by
  have hspec : s.LaterOk lastFull → ∃ s', cleanAccounts order m lastFull s = some s' ∧
      s.Cleaned (s.Drops (s.cleanBound m) lastFull) s' :=
    cleanAccounts_spec hs.agrees hs.uncached hbound
  constructor
  · rintro ⟨s', hrun, hreaders, hrebuilt, _⟩
    have hlater : s.LaterOk lastFull := by
      by_contra hno
      rw [cleanAccounts_eq_none hno] at hrun
      cases hrun
    obtain ⟨s'', hrun', hcl⟩ := hspec hlater
    rw [hrun, some.injEq] at hrun'
    subst hrun'
    refine ⟨hlater, fun k hk => ⟨?_, ?_⟩⟩
    · exact (keepsReaders_iff hcl hs m).mp hreaders k hk
    · exact (rebuilt_iff hs hcl).mp hrebuilt k hk
  · rintro ⟨hlater, hcond⟩
    obtain ⟨s', hrun, hcl⟩ := hspec hlater
    refine ⟨s', hrun, ?_, ?_, ?_, ?_, ?_⟩
    · exact (keepsReaders_iff hcl hs m).mpr fun k hk => (hcond k hk).1
    · exact (rebuilt_iff hs hcl).mpr fun k hk => (hcond k hk).2
    · exact fun f hf => rebuilt_snapshot hs hcl hf
    · exact fun k hk => ⟨s'.holders k, fun slot => mem_holders hcl.agrees, hcl.agrees.refs k hk⟩
    · rintro rfl k
      exact removed_iff_deletable hcl

def firstKey : Pubkey := .ofNat (2 ^ 255 + 51)

def secondKey : Pubkey := .ofNat (2 ^ 255 + 52)

def version (lamports : Nat) : AccountSharedData :=
  AccountSharedData.create lamports [] systemProgramId false 0

/-- The keys in the given order, and the highest store next. -/
def someOrder : HashOrder where
  keys := id
  keys_perm := fun _ => .refl _
  next := fun stores => stores.sup id
  next_mem := fun stores hne => by
    obtain ⟨slot, hslot, heq⟩ := Finset.exists_mem_eq_sup stores hne id
    rw [heq]
    exact hslot

/-- Two accounts of slot 3; the first one is closed in slot 9, the second one in slot 5. -/
def twoClosed : CleanDb where
  toFlushDb := .withoutRoots
    { AccountsDb.new { sonicProgramId := firstKey.toString } {3, 5, 9} with
      accountsIndex :=
        { slotList := fun k =>
            if k = firstKey then
              [(3, .new (.appendVec 0 0) 7), (9, .new (.appendVec 2 0) 0)]
            else if k = secondKey then
              [(3, .new (.appendVec 0 1) 8), (5, .new (.appendVec 1 0) 0)]
            else []
          aliveRoots := {3, 5, 9} }
      storage := fun slot =>
        if slot = 3 then some ⟨0, [(firstKey, version 7), (secondKey, version 8)]⟩
        else if slot = 5 then some ⟨1, [(secondKey, version 0)]⟩
        else if slot = 9 then some ⟨2, [(firstKey, version 0)]⟩
        else none } 9
  refCount := fun k => if k = firstKey ∨ k = secondKey then 2 else 0
  count := fun slot => if slot = 3 then 2 else if slot = 5 ∨ slot = 9 then 1 else 0
  dirtyStores := []
  uncleanedPubkeys := [(9, [firstKey, secondKey])]
  zeroLamportAccountsToPurgeAfterFullSnapshot := []

theorem twoClosed_entry {e : Slot × AccountInfo} (he : e ∈ twoClosed.slotList k) :
    k = firstKey ∧ (e = (3, .new (.appendVec 0 0) 7) ∨ e = (9, .new (.appendVec 2 0) 0)) ∨
      k = secondKey ∧ (e = (3, .new (.appendVec 0 1) 8) ∨ e = (5, .new (.appendVec 1 0) 0)) := by
  dsimp only [CleanDb.slotList, twoClosed, FlushDb.withoutRoots] at he
  split_ifs at he with h₁ h₂
  · exact .inl ⟨h₁, by simpa using he⟩
  · exact .inr ⟨h₂, by simpa using he⟩
  · cases he

theorem twoClosed_storage (h : (twoClosed.db.storage slot).isSome = true) :
    slot ∈ ({3, 5, 9} : Finset Slot) := by
  dsimp only [twoClosed, FlushDb.withoutRoots] at h
  split_ifs at h with h₁ h₂ h₃
  · subst h₁; decide
  · subst h₂; decide
  · subst h₃; decide
  · cases h

theorem twoClosed_slot
    (h : (twoClosed.copyAt slot k).isSome = true) : slot = 3 ∨ slot = 5 ∨ slot = 9 := by
  have hstored : (twoClosed.db.storage slot).isSome = true := by
    by_contra hnone
    rw [CleanDb.copyAt, not_isSome_iff_eq_none.mp hnone] at h
    cases h
  simpa using twoClosed_storage hstored

theorem twoClosed_copy
    (h : (twoClosed.copyAt slot k).isSome = true) : twoClosed.Indexed slot k := by
  rcases twoClosed_slot h with rfl | rfl | rfl
  · have hk : k ∈ [firstKey, secondKey] := copyOf_isSome.mp h
    simp only [mem_cons, not_mem_nil, or_false] at hk
    rcases hk with rfl | rfl <;> decide
  · have hk : k ∈ [secondKey] := copyOf_isSome.mp h
    rw [mem_singleton] at hk
    subst hk
    decide
  · have hk : k ∈ [firstKey] := copyOf_isSome.mp h
    rw [mem_singleton] at hk
    subst hk
    decide

theorem twoClosed_agrees : twoClosed.Agrees [] where
  nodup := fun k => by
    dsimp only [CleanDb.slotList, twoClosed, FlushDb.withoutRoots]
    split_ifs <;> decide
  stored := by
    intro k e he _
    rcases twoClosed_entry he with ⟨rfl, rfl | rfl⟩ | ⟨rfl, rfl | rfl⟩
    · exact ⟨_, 0, version 7, rfl, rfl, rfl, by decide, rfl⟩
    · exact ⟨_, 0, version 0, rfl, rfl, rfl, by decide, rfl⟩
    · exact ⟨_, 1, version 8, rfl, rfl, rfl, by decide, rfl⟩
    · exact ⟨_, 0, version 0, rfl, rfl, rfl, by decide, rfl⟩
  rooted := fun slot hslot => twoClosed_storage hslot
  counts := fun slot hslot => by
    have hmem := twoClosed_storage hslot
    simp only [Finset.mem_insert, Finset.mem_singleton] at hmem
    rcases hmem with rfl | rfl | rfl <;> decide
  refs := fun k hk => by
    obtain ⟨e, he⟩ := exists_mem_of_ne_nil _ hk
    rcases twoClosed_entry he with ⟨rfl, _⟩ | ⟨rfl, _⟩ <;> decide
  reclaimed := fun e he => absurd he not_mem_nil

theorem twoClosed_consistent (bound : Slot) : twoClosed.Consistent bound where
  coherent :=
    { nodup := twoClosed_agrees.nodup
      resolves := fun k e he => by
        rcases twoClosed_entry he with ⟨rfl, rfl | rfl⟩ | ⟨rfl, rfl | rfl⟩ <;> decide
      readOnly := fun k e a _ _ hread => nomatch hread
      roots := by decide }
  agrees := twoClosed_agrees
  uncached := fun k e he _ => by
    rcases twoClosed_entry he with ⟨rfl, rfl | rfl⟩ | ⟨rfl, rfl | rfl⟩ <;> rfl
  newest := fun k slot hcopy _ => twoClosed_copy hcopy

/-- Without a full snapshot, both accounts are removed together with their storages. -/
theorem keepsAccounts_twoClosed :
    twoClosed.Consistent (twoClosed.cleanBound 10) ∧
      twoClosed.KeepsAccounts someOrder 10 none := by
  refine ⟨twoClosed_consistent _, (keepsAccounts_iff someOrder 10 none twoClosed
    (twoClosed_consistent _) (by decide)).mpr ⟨.inr rfl, fun k hk => ⟨?_, ?_⟩⟩⟩
  · rintro ⟨_, a, ha, _⟩
    have hremote : twoClosed.db.remoteLoader.hasAccount k = false := ite_self _
    rw [remoteCopy, hremote, if_neg Bool.false_ne_true] at ha
    cases ha
  · exact hk.not_resurrected (by rintro f ⟨⟩)

/-- With a full snapshot at slot 6, the marker of the second account goes, but its older copy
stays with the first account's. -/
theorem clean_resurrects_account :
    twoClosed.Consistent (twoClosed.cleanBound 10) ∧
      ¬twoClosed.KeepsAccounts someOrder 10 (some 6) := by
  refine ⟨twoClosed_consistent _, ?_⟩
  rintro ⟨s', hrun, _, hrebuilt, _⟩
  have hcopies : (cleanAccounts someOrder 10 (some 6) twoClosed).map
      (fun s => [3, 5, 9].map (fun slot => s.copyAt slot secondKey)) =
      some [some (version 8), none, none] := by
    decide
  rw [hrun, map_some, some.injEq] at hcopies
  obtain ⟨h3, h5, h9, _⟩ := by simpa only [map, cons.injEq] using hcopies
  obtain ⟨s'', hrun', hcl⟩ : ∃ s'', cleanAccounts someOrder 10 (some 6) twoClosed = some s'' ∧
      twoClosed.Cleaned (twoClosed.Drops (twoClosed.cleanBound 10) (some 6)) s'' :=
    cleanAccounts_spec twoClosed_agrees (twoClosed_consistent _).uncached (by decide) (.inl rfl)
  rw [hrun, some.injEq] at hrun'
  subst hrun'
  have hafter : Rebuilt s'.copyAt secondKey (version 8) := by
    refine ⟨by decide, 3, h3, fun slot hlt => ?_⟩
    by_contra hne
    obtain ⟨a, ha⟩ := ne_none_iff_exists'.mp hne
    have hsome : (twoClosed.copyAt slot secondKey).isSome = true := by
      rw [(hcl.copyAt.mp ha).2]
      rfl
    rcases twoClosed_slot hsome with rfl | rfl | rfl
    · exact lt_irrefl _ hlt
    · exact hne h5
    · exact hne h9
  obtain ⟨_, slot, ha, hnone⟩ := (hrebuilt secondKey (version 8)).mp hafter
  rcases twoClosed_slot (isSome_iff_exists.mpr ⟨_, ha⟩) with rfl | rfl | rfl
  · exact absurd (hnone 5 (by decide)) (by decide)
  · exact absurd ha (by decide)
  · exact absurd ha (by decide)

end CleanDb
end Hypergrid
