import Hypergrid.DeleteDependencies

/-!
# What a clean does

`clean_accounts` as one sweep of the database: the entries that it drops and the slots that die
are described without mentioning the steps of the code.

* `DropsOlder` : the outdated entries of the candidates with an uncleaned root.
* `Deletable` : the greatest set of zero-lamport candidates whose stores hold index entries of
  candidates of the set only.
* `Removable` : the deletable candidates that the filter for incremental snapshots lets go.
* `cleanAccounts_spec` : a clean succeeds and drops exactly the entries of `Drops`.
-/

namespace Hypergrid
open List

section Filter
variable {bound : Slot} {lastFull : Option Slot} {counts : StoreCounts}
  {purges acc : List (Pubkey × Purge)} {later : List (Slot × Pubkey)}
variable {l : List (Slot × AccountInfo)}

theorem maxBySlot_spec {e : Slot × AccountInfo}
    (h : maxBySlot l = some e) : e ∈ l ∧ ∀ e' ∈ l, e'.1 ≤ e.1 := by
  have hfold : ∀ (l : List (Slot × AccountInfo)) (start : Slot × AccountInfo),
      let best := l.foldl (fun best e => if best.1 ≤ e.1 then e else best) start
      (best = start ∨ best ∈ l) ∧ start.1 ≤ best.1 ∧ ∀ e' ∈ l, e'.1 ≤ best.1 := by
    intro l
    induction l with
    | nil => exact fun start => ⟨.inl rfl, le_rfl, fun _ he => absurd he not_mem_nil⟩
    | cons e l ih =>
      intro start
      rw [foldl_cons]
      by_cases hle : start.1 ≤ e.1
      · rw [if_pos hle]
        obtain ⟨hmem, hge, hall⟩ := ih e
        exact ⟨.inr (mem_cons.mpr hmem), le_trans hle hge, forall_mem_cons.mpr ⟨hge, hall⟩⟩
      · rw [if_neg hle]
        obtain ⟨hmem, hge, hall⟩ := ih start
        exact ⟨hmem.imp_right (mem_cons_of_mem _), hge,
          forall_mem_cons.mpr ⟨le_trans (le_of_lt (not_le.mp hle)) hge, hall⟩⟩
  cases l with
  | nil => cases h
  | cons e₀ l =>
    obtain ⟨hmem, hge, hall⟩ := hfold l e₀
    cases h
    exact ⟨mem_cons.mpr hmem, forall_mem_cons.mpr ⟨hge, hall⟩⟩

theorem maxBySlot_eq_none (h : maxBySlot l = none) : l = [] := by
  cases l with
  | nil => rfl
  | cons e l => cases h

/-- The filter keeps the candidate. -/
def Purge.Passes (p : Purge) (bound : Slot) (lastFull : Option Slot) (counts : StoreCounts) :
    Prop :=
  (∀ e ∈ p.accountInfos, (counts e.1).any (fun c => c.1 == 0) = true) ∧
    ∀ f, lastFull = some f → f < bound → ∀ e, maxBySlot p.accountInfos = some e → e.1 ≤ f

theorem filterStep_spec {q : Pubkey × Purge} (hbound : bound ≤ u64Max)
    (hzero : ∀ e, maxBySlot q.2.accountInfos = some e → e.2.isZeroLamport = true) :
    ∃ later', filterStep bound lastFull counts (acc, later) q = some (acc, later') ∧
        ¬q.2.Passes bound lastFull counts ∨
      filterStep bound lastFull counts (acc, later) q = some (acc ++ [q], later') ∧
        q.2.Passes bound lastFull counts := by
  unfold filterStep Purge.Passes
  by_cases hall : q.2.accountInfos.all (fun e => (counts e.1).any (fun c => c.1 == 0)) = true
  · rw [if_pos hall]
    have hall' := all_eq_true.mp hall
    by_cases hfilter : lastFull.getD u64Max < bound
    · rw [if_pos hfilter]
      cases hlast : lastFull with
      | none =>
        rw [hlast] at hfilter
        exact absurd hfilter (not_lt.mpr hbound)
      | some f =>
        rw [hlast] at hfilter
        cases hmax : maxBySlot q.2.accountInfos with
        | none => exact ⟨later, .inr ⟨rfl, hall', fun _ _ _ e he => by cases he⟩⟩
        | some e =>
          dsimp only
          rw [hzero e hmax]
          by_cases hlt : f < e.1
          · refine ⟨later.insert (e.1, q.1), .inl ⟨by simp [hlt], fun hpass => ?_⟩⟩
            exact absurd (hpass.2 f rfl hfilter e rfl) (not_le.mpr hlt)
          · refine ⟨later, .inr ⟨by simp [hlt], hall', ?_⟩⟩
            rintro f' hf' _ e' he'
            obtain rfl := Option.some.inj hf'
            obtain rfl := Option.some.inj he'
            exact not_lt.mp hlt
    · rw [if_neg hfilter]
      refine ⟨later, .inr ⟨rfl, hall', ?_⟩⟩
      rintro f rfl hlt
      exact absurd hlt hfilter
  · rw [if_neg hall]
    exact ⟨later, .inl ⟨rfl, fun hpass => hall (all_eq_true.mpr hpass.1)⟩⟩

theorem filterZeroLamportClean_spec (hbound : bound ≤ u64Max)
    (hzero : ∀ q ∈ purges, ∀ e, maxBySlot q.2.accountInfos = some e → e.2.isZeroLamport = true) :
    ∃ purges' later', filterZeroLamportClean bound lastFull counts purges later =
        some (purges', later') ∧
      ∀ q, q ∈ purges' ↔ q ∈ purges ∧ q.2.Passes bound lastFull counts := by
  have hfold : ∀ (purges acc : List (Pubkey × Purge)) (later : List (Slot × Pubkey)),
      (∀ q ∈ purges, ∀ e, maxBySlot q.2.accountInfos = some e → e.2.isZeroLamport = true) →
      ∃ purges' later', purges.foldlM (filterStep bound lastFull counts) (acc, later) =
          some (purges', later') ∧
        ∀ q, q ∈ purges' ↔ q ∈ acc ∨ q ∈ purges ∧ q.2.Passes bound lastFull counts := by
    intro purges
    induction purges with
    | nil => exact fun acc later _ => ⟨acc, later, rfl, fun q => by simp⟩
    | cons q purges ih =>
      intro acc later hzero
      have hrest := fun q' hq' => hzero q' (mem_cons_of_mem _ hq')
      rw [foldlM_cons]
      obtain ⟨later₁, ⟨hstep, hpass⟩ | ⟨hstep, hpass⟩⟩ :=
        @filterStep_spec bound lastFull counts acc later q hbound (hzero q mem_cons_self)
      · obtain ⟨purges', later', hrun, hmem⟩ := ih acc later₁ hrest
        refine ⟨purges', later', by rw [hstep]; exact hrun, fun q' => ?_⟩
        rw [hmem, mem_cons]
        refine or_congr_right ⟨fun h => ⟨.inr h.1, h.2⟩, ?_⟩
        rintro ⟨rfl | h, hp⟩
        · exact absurd hp hpass
        · exact ⟨h, hp⟩
      · obtain ⟨purges', later', hrun, hmem⟩ := ih (acc ++ [q]) later₁ hrest
        refine ⟨purges', later', by rw [hstep]; exact hrun, fun q' => ?_⟩
        rw [hmem, mem_append, mem_singleton, mem_cons, or_assoc]
        refine or_congr_right ⟨?_, ?_⟩
        · rintro (rfl | h)
          · exact ⟨.inl rfl, hpass⟩
          · exact ⟨.inr h.1, h.2⟩
        · rintro ⟨rfl | h, hp⟩
          · exact .inl rfl
          · exact .inr ⟨h, hp⟩
  obtain ⟨purges', later', hrun, hmem⟩ := hfold purges [] later hzero
  refine ⟨purges', later', ?_, fun q => by simpa using hmem q⟩
  unfold filterZeroLamportClean
  rw [if_neg]
  · exact hrun
  · rintro ⟨hnone, hlt⟩
    rw [Option.isNone_iff_eq_none.mp hnone] at hlt
    exact absurd hlt (not_lt.mpr hbound)

end Filter

namespace CleanDb

section Statement
variable (s : CleanDb) (bound : Slot) (lastFull : Option Slot)
variable (k : Pubkey) (e : Slot × AccountInfo)

/-- The newest entry of a key that is not above the bound. -/
def Newest : Prop :=
  e ∈ s.slotList k ∧ e.1 ≤ bound ∧ ∀ e' ∈ s.slotList k, e'.1 ≤ bound → e'.1 ≤ e.1

/-- The first sweep drops the entry: it is an outdated entry of a candidate whose newest root
is uncleaned. -/
def DropsOlder : Prop :=
  (k ∈ s.candidates bound lastFull ∧ s.scanOldAccounts bound k = true) ∧
    Outdated (s.slotList k) bound e

/-- The newest version of the candidate has no lamports. -/
def ZeroCandidate : Prop :=
  k ∈ s.candidates bound lastFull ∧ ∃ e, s.Newest bound k e ∧ e.2.isZeroLamport = true

/-- The key has an entry into the store of the slot after the first sweep. -/
def Remains (slot : Slot) (k : Pubkey) : Prop :=
  ∃ e ∈ s.slotList k, e.1 = slot ∧ e.2.storageLocation.isCached = false ∧
    ¬s.DropsOlder bound lastFull k e

/-- The storage of the slot holds a copy of the account after the first sweep. -/
def StillHolds (slot : Slot) (k : Pubkey) : Prop :=
  ¬s.DeadSlot (s.DropsOlder bound lastFull) slot ∧ (s.copyAt slot k).isSome = true

/-- A set of zero-lamport candidates that can be deleted together: every store with a copy of
one of them is at or below the bound and holds index entries of keys of the set only. -/
def DeletableSet (Z : Set Pubkey) : Prop :=
  ∀ k ∈ Z, s.ZeroCandidate bound lastFull k ∧
    (∀ slot, s.StillHolds bound lastFull slot k → slot ≤ bound ∧ s.Remains bound lastFull slot k) ∧
    ∀ slot, slot ≤ bound → s.Remains bound lastFull slot k →
      ∀ k', s.Remains bound lastFull slot k' → k' ∈ Z

/-- The greatest set of zero-lamport candidates that can be deleted together. -/
def Deletable : Prop := ∃ Z, s.DeletableSet bound lastFull Z ∧ k ∈ Z

/-- The candidate is deletable, and the full snapshot has its newest version. -/
def Removable : Prop :=
  s.Deletable bound lastFull k ∧
    ∀ f, lastFull = some f → f < bound → ∀ e, s.Newest bound k e → e.1 ≤ f

/-- The entries that a clean drops. -/
def Drops : Prop :=
  s.DropsOlder bound lastFull k e ∨ s.Removable bound lastFull k ∧ e.1 ≤ bound

end Statement

section Newest
variable {s : CleanDb} {R : List (Slot × AccountInfo)} {bound : Slot} {k : Pubkey}
  {e : Slot × AccountInfo}

theorem get_eq_some_iff_newest (h : s.Agrees R) (hun : s.Uncached bound) :
    s.db.accountsIndex.get k ∅ (some bound) = some e ↔ s.Newest bound k e := by
  have hvisible : ∀ e' ∈ s.slotList k,
      (s.db.accountsIndex.Visible ∅ (some bound) e'.1 ↔ e'.1 ≤ bound) := by
    intro e' he'
    unfold AccountsIndex.Visible
    rw [or_iff_right (Finset.notMem_empty _), Option.getD_some, and_iff_left_iff_imp]
    exact h.root_of_le hun he'
  constructor
  · intro hget
    obtain ⟨he, hvis, hmax⟩ := AccountsIndex.get_eq_some hget
    exact ⟨he, (hvisible e he).mp hvis, fun e' he' hle => hmax e' he' ((hvisible e' he').mpr hle)⟩
  · rintro ⟨he, hle, hmax⟩
    exact AccountsIndex.get_eq_some_of_max (h.nodup k) he ((hvisible e he).mpr hle)
      (fun e' he' hvis => hmax e' he' ((hvisible e' he').mp hvis))

theorem Newest.not_outdated (h : s.Newest bound k e) : ¬Outdated (s.slotList k) bound e :=
  fun ⟨e', he', hle, hlt⟩ => absurd (h.2.2 e' he' hle) (not_le.mpr hlt)

theorem Newest.unique (h : s.Agrees R) {e' : Slot × AccountInfo} (he : s.Newest bound k e)
    (he' : s.Newest bound k e') : e = e' :=
  inj_on_of_nodup_map (h.nodup k) he.1 he'.1
    (le_antisymm (he'.2.2 e he.1 he.2.1) (he.2.2 e' he'.1 he'.2.1))

theorem exists_newest (h : s.Agrees R) (hun : s.Uncached bound) (he : e ∈ s.slotList k)
    (hle : e.1 ≤ bound) : ∃ e', s.Newest bound k e' := by
  cases hget : s.db.accountsIndex.get k ∅ (some bound) with
  | some e' => exact ⟨e', (get_eq_some_iff_newest h hun).mp hget⟩
  | none =>
    refine absurd (.inr ⟨hle, h.root_of_le hun he hle⟩)
      ((AccountsIndex.get_eq_none_iff _ _ _ _).mp hget e he)

variable {keys : List Pubkey}

def zeroLamports (s : CleanDb) (bound : Slot) (keys : List Pubkey) : List (Pubkey × Purge) :=
  keys.filterMap (fun k => (s.scanZeroLamports bound k).map (fun p => (k, p)))

theorem zeroLamports_keys :
    (s.zeroLamports bound keys).map Prod.fst =
      keys.filter (fun k => (s.scanZeroLamports bound k).isSome) := by
  unfold zeroLamports
  induction keys with
  | nil => rfl
  | cons k keys ih =>
    cases hscan : s.scanZeroLamports bound k with
    | none => simp [hscan, ih]
    | some p => simp [hscan, ih]

variable (h : s.Agrees []) (hun : s.Uncached bound)
include h hun

theorem mem_zeroLamports {q : Pubkey × Purge} :
    q ∈ s.zeroLamports bound keys ↔ q.1 ∈ keys ∧
      (∃ e, s.Newest bound q.1 e ∧ e.2.isZeroLamport = true) ∧
      q.2 = ⟨s.getRootedEntries (s.slotList q.1) bound, s.refCount q.1⟩ := by
  have hscan : ∀ p, s.scanZeroLamports bound q.1 = some p ↔
      (∃ e, s.Newest bound q.1 e ∧ e.2.isZeroLamport = true) ∧
        p = ⟨s.getRootedEntries (s.slotList q.1) bound, s.refCount q.1⟩ := by
    intro p
    unfold scanZeroLamports
    rw [Option.bind_eq_some_iff]
    constructor
    · rintro ⟨e, hget, hif⟩
      split_ifs at hif with hzero
      · exact ⟨⟨e, (get_eq_some_iff_newest h hun).mp hget, hzero⟩, (Option.some.inj hif).symm⟩
    · rintro ⟨⟨e, he, hzero⟩, rfl⟩
      exact ⟨e, (get_eq_some_iff_newest h hun).mpr he, if_pos hzero⟩
  unfold zeroLamports
  rw [mem_filterMap, ← hscan]
  constructor
  · rintro ⟨k, hk, hmap⟩
    obtain ⟨p, hp, rfl⟩ := Option.map_eq_some_iff.mp hmap
    exact ⟨hk, hp⟩
  · rintro ⟨hk, hp⟩
    exact ⟨q.1, hk, Option.map_eq_some_iff.mpr ⟨q.2, hp, rfl⟩⟩

theorem mem_getRootedEntries {k : Pubkey} {e : Slot × AccountInfo} :
    e ∈ s.getRootedEntries (s.slotList k) bound ↔ e ∈ s.slotList k ∧ e.1 ≤ bound := by
  unfold getRootedEntries
  rw [mem_filter, Bool.and_eq_true, decide_eq_true_iff, decide_eq_true_iff]
  exact and_congr_right fun he => and_iff_left_of_imp (h.root_of_le hun he)

end Newest

/-- The candidate was counted in the store of the slot. -/
def Counts (s : CleanDb) (bound : Slot) (lastFull : Option Slot) (k : Pubkey) (slot : Slot) :
    Prop :=
  s.ZeroCandidate bound lastFull k ∧ slot ≤ bound ∧ s.Remains bound lastFull slot k

section Middle
variable {s s₁ : CleanDb} {bound : Slot} {lastFull : Option Slot} {r : ReclaimResult}
  {keys : List Pubkey} {k : Pubkey} {slot : Slot}

theorem remains_iff (hsw : s.Swept (s.DropsOlder bound lastFull) s₁ r) :
    s.Remains bound lastFull slot k ↔ s₁.Indexed slot k := by
  constructor
  · rintro ⟨e, he, hes, hcached, hd⟩
    exact ⟨e, (hsw.mem k e).mpr ⟨he, hd⟩, hes, hcached⟩
  · rintro ⟨e, he, hes, hcached⟩
    obtain ⟨hmem, hd⟩ := (hsw.mem k e).mp he
    exact ⟨e, hmem, hes, hcached, hd⟩

theorem stillHolds_iff (hsw : s.Swept (s.DropsOlder bound lastFull) s₁ r) :
    s.StillHolds bound lastFull slot k ↔ slot ∈ s₁.holders k := by
  rw [mem_holders hsw.agrees, Option.isSome_iff_exists]
  unfold StillHolds
  rw [Option.isSome_iff_exists]
  constructor
  · rintro ⟨hd, a, ha⟩
    exact ⟨a, hsw.copyAt.mpr ⟨hd, ha⟩⟩
  · rintro ⟨a, ha⟩
    obtain ⟨hd, ha⟩ := hsw.copyAt.mp ha
    exact ⟨hd, a, ha⟩

theorem Newest.mem_swept {e : Slot × AccountInfo} (he : s.Newest bound k e)
    (hsw : s.Swept (s.DropsOlder bound lastFull) s₁ r) : e ∈ s₁.slotList k :=
  (hsw.mem k e).mpr ⟨he.1, fun hd => he.not_outdated hd.2⟩

/-- The state between the two sweeps, with the candidates in some order. -/
structure Midway (s s₁ : CleanDb) (bound : Slot) (lastFull : Option Slot) (r : ReclaimResult)
    (keys : List Pubkey) : Prop where
  agrees : s.Agrees []
  uncached : s.Uncached bound
  swept : s.Swept (s.DropsOlder bound lastFull) s₁ r
  nodup : keys.Nodup
  keys : ∀ k, k ∈ keys ↔ k ∈ s.candidates bound lastFull

/-- The candidates with what is left of their entries. -/
def recounted (s s₁ : CleanDb) (bound : Slot) (keys : List Pubkey) : List (Pubkey × Purge) :=
  (s.zeroLamports bound keys).map s₁.recount

namespace Midway

variable (h : s.Midway s₁ bound lastFull r keys)
include h

theorem recountable_of_swept {q : Pubkey × Purge} (hq : q ∈ s.zeroLamports bound keys) :
    s₁.Recountable r q := by
  obtain ⟨_, ⟨en, hnewest, _⟩, heq⟩ := (mem_zeroLamports h.agrees h.uncached).mp hq
  have hinfos : ∀ e, e ∈ q.2.accountInfos ↔ e ∈ s.slotList q.1 ∧ e.1 ≤ bound := by
    intro e
    rw [heq]
    exact mem_getRootedEntries h.agrees h.uncached
  refine ⟨?_, fun e he => ?_, fun e he => ?_, fun hnone => ?_⟩
  · rw [heq]
    exact (h.agrees.nodup q.1).sublist (filter_sublist.map _)
  · obtain ⟨hmem, hle⟩ := (hinfos e).mp he
    exact h.uncached q.1 e hmem hle
  · obtain ⟨hmem, hle⟩ := (hinfos e).mp he
    have hcached := h.uncached q.1 e hmem hle
    rw [h.swept.mem, not_and_not_right, h.swept.purged, h.swept.offsets]
    constructor
    · rintro (⟨hdead, _⟩ | ⟨k', e', hmem', hd, hsame⟩) _
      · exact hdead.2 q.1 e hmem rfl hcached
      · -- an entry with the same slot and offset is the same entry
        obtain ⟨hslot, hoffset⟩ := Prod.mk.inj hsame
        have hcached' := h.uncached k' e' hmem' (hslot ▸ hle)
        have hkey := (h.agrees.stored k' e' hmem' hcached').key_unique
          (h.agrees.stored q.1 e hmem hcached) hslot hoffset
        subst hkey
        rw [← inj_on_of_nodup_map (h.agrees.nodup q.1) hmem' hmem hslot]
        exact hd
    · intro hd
      exact .inr ⟨q.1, e, hmem, hd hmem, rfl⟩
  · have hrefs : q.2.refCount = s.refCount q.1 := by rw [heq]
    rw [hrefs]
    refine (h.swept.refCount q.1 (fun slot hmem => hnone ?_) ?_).symm
    · exact Finset.mem_image.mpr ⟨_, hmem, rfl⟩
    · exact ne_nil_of_mem (hnewest.mem_swept h.swept)

theorem mem_slots_recount {q : Pubkey × Purge} (hq : q ∈ s.zeroLamports bound keys) :
    slot ∈ (s₁.recount q).2.slots ↔ slot ≤ bound ∧ s.Remains bound lastFull slot q.1 := by
  obtain ⟨_, _, heq⟩ := (mem_zeroLamports h.agrees h.uncached).mp hq
  rw [remains_iff h.swept, Purge.slots, mem_toFinset, mem_map]
  constructor
  · rintro ⟨e, he, rfl⟩
    obtain ⟨hinfo, hmem⟩ := mem_filter.mp he
    rw [heq] at hinfo
    obtain ⟨hmem₀, hle⟩ := (mem_getRootedEntries h.agrees h.uncached).mp hinfo
    exact ⟨hle, e, of_decide_eq_true hmem, rfl, h.uncached q.1 e hmem₀ hle⟩
  · rintro ⟨hle, e, he, rfl, _⟩
    refine ⟨e, mem_filter.mpr ⟨?_, decide_eq_true he⟩, rfl⟩
    rw [heq]
    exact (mem_getRootedEntries h.agrees h.uncached).mpr ⟨((h.swept.mem q.1 e).mp he).1, hle⟩

theorem nodup_zeroLamports : ((s.zeroLamports bound keys).map Prod.fst).Nodup := by
  rw [zeroLamports_keys]
  exact h.nodup.filter _

theorem nodup_recounted : ((s.recounted s₁ bound keys).map Prod.fst).Nodup := by
  have hfst : Prod.fst ∘ s₁.recount = Prod.fst := rfl
  rw [recounted, map_map, hfst]
  exact h.nodup_zeroLamports

theorem zeroCandidate_of_mem {q : Pubkey × Purge} (hq : q ∈ s.zeroLamports bound keys) :
    s.ZeroCandidate bound lastFull q.1 := by
  obtain ⟨hmem, hzero, _⟩ := (mem_zeroLamports h.agrees h.uncached).mp hq
  exact ⟨(h.keys q.1).mp hmem, hzero⟩

theorem exists_of_zeroCandidate (hk : s.ZeroCandidate bound lastFull k) :
    ∃ q ∈ s.zeroLamports bound keys, q.1 = k :=
  ⟨(k, ⟨s.getRootedEntries (s.slotList k) bound, s.refCount k⟩),
    (mem_zeroLamports h.agrees h.uncached).mpr ⟨(h.keys k).mpr hk.1, hk.2, rfl⟩, rfl⟩

theorem countStores_spec :
    ∃ counts, (s.zeroLamports bound keys).foldlM (s₁.countStores r) (fun _ => none, []) =
        some (counts, s.recounted s₁ bound keys) ∧
      s₁.Counted (s.Counts bound lastFull) counts := by
  obtain ⟨counts, hrun, hcounted⟩ := countStores_foldlM (s.zeroLamports bound keys) []
    h.swept.agrees h.nodup_zeroLamports (fun q hq => h.recountable_of_swept hq)
    (Counted.start s₁) (fun _ _ _ h => h)
  refine ⟨counts, hrun, hcounted.congr fun k slot => ?_⟩
  rw [false_or]
  constructor
  · rintro ⟨q, hq, rfl, e, he, hmem, hes⟩
    have hslot : slot ≤ bound ∧ s.Remains bound lastFull slot q.1 :=
      (h.mem_slots_recount hq).mp (mem_toFinset.mpr (mem_map.mpr
        ⟨e, mem_filter.mpr ⟨he, decide_eq_true hmem⟩, hes⟩))
    exact ⟨h.zeroCandidate_of_mem hq, hslot⟩
  · rintro ⟨hzero, hslot⟩
    obtain ⟨q, hq, rfl⟩ := h.exists_of_zeroCandidate hzero
    obtain ⟨e, he, hes⟩ := mem_map.mp
      (mem_toFinset.mp ((h.mem_slots_recount hq).mpr hslot))
    obtain ⟨hinfo, hmem⟩ := mem_filter.mp he
    exact ⟨q, hq, rfl, e, hinfo, of_decide_eq_true hmem, hes⟩

theorem storesOf_recount (hk : s.ZeroCandidate bound lastFull k) :
    slot ∈ storesOf (s.recounted s₁ bound keys) k ↔
      slot ≤ bound ∧ s.Remains bound lastFull slot k := by
  obtain ⟨q, hq, rfl⟩ := h.exists_of_zeroCandidate hk
  have hmem : s₁.recount q ∈ s.recounted s₁ bound keys := mem_map.mpr ⟨q, hq, rfl⟩
  have hstores := storesOf_of_mem h.nodup_recounted hmem
  dsimp only [recount] at hstores
  rw [hstores]
  exact h.mem_slots_recount hq

variable {counts : StoreCounts} (hcounted : s₁.Counted (s.Counts bound lastFull) counts)
include hcounted

theorem fits_recount : Fits (s.recounted s₁ bound keys) counts where
  nodup := h.nodup_recounted
  keys := fun slot n ks hcount k => by
    rw [(hcounted.present slot n ks hcount).1 k]
    constructor
    · intro hin
      exact (h.storesOf_recount hin.1).mpr hin.2
    · intro hin
      obtain ⟨_, q, hq, hqk, _⟩ := exists_of_mem_storesOf hin
      obtain ⟨q₀, hq₀, rfl⟩ := mem_map.mp hq
      have hzero := h.zeroCandidate_of_mem hq₀
      subst hqk
      exact ⟨hzero, (h.storesOf_recount hzero).mp hin⟩
  present := fun q hq slot hslot => by
    obtain ⟨q₀, hq₀, rfl⟩ := mem_map.mp hq
    have hin := (h.mem_slots_recount hq₀).mp hslot
    by_contra hnone
    exact hcounted.absent slot (Option.not_isSome_iff_eq_none.mp hnone) q₀.1
      ⟨h.zeroCandidate_of_mem hq₀, hin⟩

/-- A candidate is not blocked exactly if every store with a copy of it holds an entry of it at
or below the bound, and holds entries of candidates only. -/
theorem not_blocked_iff {q : Pubkey × Purge} (hq : q ∈ s.zeroLamports bound keys) :
    ¬(s₁.recount q).2.Blocked counts ↔ (∀ slot, s.StillHolds bound lastFull slot q.1 →
        slot ≤ bound ∧ s.Remains bound lastFull slot q.1) ∧
      ∀ slot, slot ≤ bound → s.Remains bound lastFull slot q.1 →
        ∀ k', s.Remains bound lastFull slot k' → s.ZeroCandidate bound lastFull k' := by
  have hzero := h.zeroCandidate_of_mem hq
  obtain ⟨en, hnewest, _⟩ := hzero.2
  have hslots : ∀ slot, slot ∈ (s₁.recount q).2.slots ↔
      slot ≤ bound ∧ s.Remains bound lastFull slot q.1 :=
    fun slot => h.mem_slots_recount hq
  have hsub : (s₁.recount q).2.slots ⊆ s₁.holders q.1 := by
    intro slot hslot
    obtain ⟨e, he, hes, hcached⟩ := (remains_iff h.swept).mp ((hslots slot).mp hslot).2
    obtain ⟨a, ha, _⟩ := (h.swept.agrees.stored q.1 e he hcached).copyAt
    rw [mem_holders h.swept.agrees, ← hes, ha]
    rfl
  have hlength : (s₁.recount q).2.accountInfos.length = (s₁.recount q).2.slots.card := by
    have hinfos : ((s₁.recount q).2.accountInfos.map Prod.fst).Nodup :=
      (h.recountable_of_swept hq).nodup.sublist (filter_sublist.map _)
    rw [Purge.slots, toFinset_card_of_nodup hinfos, length_map]
  have hrefs : (s₁.recount q).2.refCount = (s₁.holders q.1).card :=
    h.swept.agrees.refs q.1 (ne_nil_of_mem (hnewest.mem_swept h.swept))
  have hcount : (s₁.recount q).2.accountInfos.length = (s₁.recount q).2.refCount ↔
      ∀ slot, s.StillHolds bound lastFull slot q.1 →
        slot ≤ bound ∧ s.Remains bound lastFull slot q.1 := by
    rw [hlength, hrefs]
    constructor
    · intro hcard slot hslot
      have heq := Finset.eq_of_subset_of_card_le hsub (le_of_eq hcard.symm)
      exact (hslots slot).mp (heq ▸ (stillHolds_iff h.swept).mp hslot)
    · intro hall
      refine congrArg Finset.card (Finset.Subset.antisymm hsub fun slot hslot => ?_)
      exact (hslots slot).mpr (hall slot ((stillHolds_iff h.swept).mpr hslot))
  have hzeros : (∀ e ∈ (s₁.recount q).2.accountInfos, (counts e.1).any (fun c => c.1 == 0) = true) ↔
      ∀ slot, slot ≤ bound → s.Remains bound lastFull slot q.1 →
        ∀ k', s.Remains bound lastFull slot k' → s.ZeroCandidate bound lastFull k' := by
    have hany : ∀ slot, slot ≤ bound → s.Remains bound lastFull slot q.1 →
        ((counts slot).any (fun c => c.1 == 0) = true ↔
          ∀ k', s.Remains bound lastFull slot k' → s.ZeroCandidate bound lastFull k') := by
      intro slot hle hrem
      rw [hcounted.any_zero_iff h.swept.agrees ⟨hzero, hle, hrem⟩]
      refine forall_congr' fun k' => ?_
      rw [remains_iff h.swept]
      exact ⟨fun hin hk' => (hin hk').1,
        fun hin hk' => ⟨hin hk', hle, (remains_iff h.swept).mpr hk'⟩⟩
    constructor
    · intro hall slot hle hrem
      obtain ⟨e, he, rfl⟩ := mem_map.mp
        (mem_toFinset.mp ((hslots slot).mpr ⟨hle, hrem⟩))
      exact (hany e.1 hle hrem).mp (hall e he)
    · intro hall e he
      obtain ⟨hle, hrem⟩ := (hslots e.1).mp
        (mem_toFinset.mpr (mem_map.mpr ⟨e, he, rfl⟩))
      exact (hany e.1 hle hrem).mpr (hall e.1 hle hrem)
  unfold Purge.Blocked Purge.allStoresBeingDeleted
  rw [not_not, Bool.and_eq_true, decide_eq_true_iff, all_eq_true, hcount, hzeros]

/-- The sets of candidates of the worklist are the sets that can be deleted together. -/
theorem selfContained_iff_deletableSet (Z : Set Pubkey) :
    Worklist.SelfContained
        (fun k => ∃ q ∈ s.recounted s₁ bound keys, q.1 = k)
        (storesOf (s.recounted s₁ bound keys))
        (fun k => ∃ q ∈ s.recounted s₁ bound keys, q.1 = k ∧ q.2.Blocked counts) Z ↔
      s.DeletableSet bound lastFull Z := by
  have hfits := h.fits_recount hcounted
  have hkey : ∀ k, (∃ q ∈ s.recounted s₁ bound keys, q.1 = k) ↔
      s.ZeroCandidate bound lastFull k := by
    intro k
    constructor
    · rintro ⟨q, hq, rfl⟩
      obtain ⟨q₀, hq₀, rfl⟩ := mem_map.mp hq
      have hzero := h.zeroCandidate_of_mem hq₀
      exact hzero
    · intro hk
      obtain ⟨q₀, hq₀, rfl⟩ := h.exists_of_zeroCandidate hk
      exact ⟨s₁.recount q₀, mem_map.mpr ⟨q₀, hq₀, rfl⟩, rfl⟩
  have hblocked : ∀ q₀ ∈ s.zeroLamports bound keys,
      ((∃ q ∈ s.recounted s₁ bound keys, q.1 = q₀.1 ∧ q.2.Blocked counts) ↔
        (s₁.recount q₀).2.Blocked counts) := by
    intro q₀ hq₀
    have hmem : s₁.recount q₀ ∈ s.recounted s₁ bound keys := mem_map.mpr ⟨q₀, hq₀, rfl⟩
    refine ⟨?_, fun h => ⟨_, hmem, rfl, h⟩⟩
    rintro ⟨q, hq, hqk, hb⟩
    rwa [← inj_on_of_nodup_map hfits.nodup hq hmem hqk]
  constructor
  · intro hZ k hkZ
    obtain ⟨hk, hfree, hshare⟩ := hZ k hkZ
    have hzero := (hkey k).mp hk
    obtain ⟨q₀, hq₀, rfl⟩ := h.exists_of_zeroCandidate hzero
    obtain ⟨hholds, hzeros⟩ := (h.not_blocked_iff hcounted hq₀).mp
      (mt (hblocked q₀ hq₀).mpr hfree)
    refine ⟨hzero, hholds, fun slot hle hrem k' hrem' => ?_⟩
    have hzero' := hzeros slot hle hrem k' hrem'
    exact hshare k' ((hkey k').mpr hzero') slot
      ((h.storesOf_recount hzero).mpr ⟨hle, hrem⟩)
      ((h.storesOf_recount hzero').mpr ⟨hle, hrem'⟩)
  · intro hZ k hkZ
    obtain ⟨hzero, hholds, hshare⟩ := hZ k hkZ
    obtain ⟨q₀, hq₀, rfl⟩ := h.exists_of_zeroCandidate hzero
    refine ⟨(hkey q₀.1).mpr hzero, mt (hblocked q₀ hq₀).mp
      ((h.not_blocked_iff hcounted hq₀).mpr
        ⟨hholds, fun slot hle hrem k' hrem' => (hZ k' (hshare slot hle hrem k' hrem')).1⟩), ?_⟩
    intro k' hk' slot hslot hslot'
    obtain ⟨hle, hrem⟩ := (h.storesOf_recount hzero).mp hslot
    obtain ⟨_, hrem'⟩ := (h.storesOf_recount ((hkey k').mp hk')).mp hslot'
    exact hshare slot hle hrem k' hrem'

/-- The counts that `calc_delete_dependencies` leaves are 0 in all stores of a candidate
exactly if the candidate is deletable. -/
theorem deletable_iff {V : Finset Slot} {c : StoreCounts} (hw : Without counts V c)
    (hV : Worklist.LeastClosed
      (storeSucc (s.recounted s₁ bound keys) counts)
      (fun x => ∃ q ∈ s.recounted s₁ bound keys, q.2.Blocked counts ∧ x ∈ q.2.slots) V)
    {q : Pubkey × Purge} (hq : q ∈ s.zeroLamports bound keys) :
    (∀ e ∈ (s₁.recount q).2.accountInfos, (c e.1).any (fun x => x.1 == 0) = true) ↔
      s.Deletable bound lastFull q.1 := by
  have hfits := h.fits_recount hcounted
  have hmem : s₁.recount q ∈ s.recounted s₁ bound keys := mem_map.mpr ⟨q, hq, rfl⟩
  have hV' : Worklist.LeastClosed
      (storeSucc (s.recounted s₁ bound keys) counts)
      (fun x => ∃ k, (∃ q ∈ s.recounted s₁ bound keys, q.1 = k) ∧
        (∃ q ∈ s.recounted s₁ bound keys, q.1 = k ∧ q.2.Blocked counts) ∧
        x ∈ storesOf (s.recounted s₁ bound keys) k) V := by
    refine hV.congr fun x => ⟨?_, ?_⟩
    · rintro ⟨q', hq', hb, hx⟩
      exact ⟨q'.1, ⟨q', hq', rfl⟩, ⟨q', hq', rfl, hb⟩,
        by rw [storesOf_of_mem hfits.nodup hq']; exact hx⟩
    · rintro ⟨k, _, ⟨q', hq', rfl, hb⟩, hx⟩
      rw [storesOf_of_mem hfits.nodup hq'] at hx
      exact ⟨q', hq', hb, hx⟩
  have hne : ∀ k, (∃ q ∈ s.recounted s₁ bound keys, q.1 = k) →
      (storesOf (s.recounted s₁ bound keys) k).Nonempty := by
    rintro k ⟨q', hq', rfl⟩
    obtain ⟨q₀, hq₀, rfl⟩ := mem_map.mp hq'
    have hzero := h.zeroCandidate_of_mem hq₀
    obtain ⟨en, hnewest, _⟩ := hzero.2
    refine ⟨en.1, (h.storesOf_recount hzero).mpr ⟨hnewest.2.1, ?_⟩⟩
    exact ⟨en, hnewest.1, rfl, h.uncached q₀.1 en hnewest.1 hnewest.2.1,
      fun hd => hnewest.not_outdated hd.2⟩
  have hfree := Worklist.selfContained_iff (fun x y => mem_storeSucc hfits) hne hV'
    ⟨s₁.recount q, hmem, rfl⟩
  have hdel : (∃ Z, Worklist.SelfContained
      (fun k => ∃ q ∈ s.recounted s₁ bound keys, q.1 = k)
      (storesOf (s.recounted s₁ bound keys))
      (fun k => ∃ q ∈ s.recounted s₁ bound keys,
        q.1 = k ∧ q.2.Blocked counts) Z ∧ q.1 ∈ Z) ↔ s.Deletable bound lastFull q.1 :=
    exists_congr fun Z => and_congr_left fun _ =>
      h.selfContained_iff_deletableSet hcounted Z
  refine .trans ?_ (hfree.trans hdel)
  have hstores : storesOf (s.recounted s₁ bound keys) (s₁.recount q).1 =
      (s₁.recount q).2.slots := storesOf_of_mem hfits.nodup hmem
  have hslot : ∀ e ∈ (s₁.recount q).2.accountInfos, e.1 ∈ (s₁.recount q).2.slots :=
    fun e he => mem_toFinset.mpr (mem_map.mpr ⟨e, he, rfl⟩)
  rw [hstores]
  constructor
  · intro hall x hx hxV
    obtain ⟨e, he, rfl⟩ := mem_map.mp (mem_toFinset.mp hx)
    have hzero := hall e he
    rw [hw, if_pos hxV] at hzero
    cases hzero
  · intro hout e he
    -- a candidate without a store in the closed set is not blocked
    have hnot : ¬(s₁.recount q).2.Blocked counts := fun hb =>
      hout e.1 (hslot e he) (hV.start e.1 ⟨s₁.recount q, hmem, hb, hslot e he⟩)
    unfold Purge.Blocked Purge.allStoresBeingDeleted at hnot
    rw [not_not, Bool.and_eq_true, all_eq_true] at hnot
    rw [hw, if_neg (hout e.1 (hslot e he))]
    exact hnot.2 e he

omit hcounted in
theorem maxBySlot_recount {q : Pubkey × Purge} (hq : q ∈ s.zeroLamports bound keys) :
    ∃ e, maxBySlot (s₁.recount q).2.accountInfos = some e ∧ s.Newest bound q.1 e ∧
      e.2.isZeroLamport = true := by
  obtain ⟨_, ⟨en, hnewest, hzero⟩, heq⟩ := (mem_zeroLamports h.agrees h.uncached).mp hq
  have hinfos : ∀ e, e ∈ (s₁.recount q).2.accountInfos ↔
      (e ∈ s.slotList q.1 ∧ e.1 ≤ bound) ∧ e ∈ s₁.slotList q.1 := by
    intro e
    dsimp only [recount]
    rw [mem_filter, heq, mem_getRootedEntries h.agrees h.uncached, decide_eq_true_iff]
  have hmem := (hinfos en).mpr ⟨⟨hnewest.1, hnewest.2.1⟩, hnewest.mem_swept h.swept⟩
  cases hmax : maxBySlot (s₁.recount q).2.accountInfos with
  | none =>
    rw [maxBySlot_eq_none hmax] at hmem
    exact absurd hmem not_mem_nil
  | some e =>
    obtain ⟨he, hge⟩ := maxBySlot_spec hmax
    obtain ⟨⟨he₀, hle⟩, _⟩ := (hinfos e).mp he
    have hsame : e = en := inj_on_of_nodup_map (h.agrees.nodup q.1) he₀ hnewest.1
      (le_antisymm (hnewest.2.2 e he₀ hle) (hge en hmem))
    subst hsame
    exact ⟨e, rfl, hnewest, hzero⟩

end Midway
end Middle

variable {s : CleanDb} {order : HashOrder} {lastFull : Option Slot} {bound : Slot}

theorem second_sweep {s₁ : CleanDb} {r : ReclaimResult} {keys : List Pubkey}
    {removed : Finset Pubkey} {later : List (Slot × Pubkey)}
    (h : s.Midway s₁ bound lastFull r keys) (hbound : bound ≤ u64Max)
    (hremoved : ∀ k ∈ removed, s₁.slotList k = []) :
    ∃ counts purges c purges' later' s' r',
      (s.zeroLamports bound keys).foldlM (s₁.countStores r) (fun _ => none, []) =
        some (counts, purges) ∧
      calcDeleteDependencies order purges counts = some c ∧
      filterZeroLamportClean bound lastFull c purges later = some (purges', later') ∧
      (let y := purgeKeysExact
          { s₁ with zeroLamportAccountsToPurgeAfterFullSnapshot := later' } purges';
        y.1.handleReclaims y.2.1 (removed ∪ y.2.2) = some (s', r')) ∧
      s.Cleaned (s.Drops bound lastFull) s' := by
  obtain ⟨counts, hcount, hcounted⟩ := h.countStores_spec
  have hfits := h.fits_recount hcounted
  obtain ⟨c, V, hcalc, hw, hV⟩ := @calcDeleteDependencies_spec order _ _ hfits
  obtain ⟨purges', later', hfilter, hmem⟩ := @filterZeroLamportClean_spec bound lastFull c
    (s.recounted s₁ bound keys) later hbound (fun q hq e he => by
      obtain ⟨q₀, hq₀, rfl⟩ := mem_map.mp hq
      obtain ⟨e', he', _, hzero⟩ := h.maxBySlot_recount hq₀
      rw [he, Option.some.injEq] at he'
      rw [he']
      exact hzero)
  -- the candidates that pass the filter are the removable keys
  have hpasses : ∀ q₀ ∈ s.zeroLamports bound keys,
      ((s₁.recount q₀).2.Passes bound lastFull c ↔ s.Removable bound lastFull q₀.1) := by
    intro q₀ hq₀
    obtain ⟨e', he', hnewest, _⟩ := h.maxBySlot_recount hq₀
    refine and_congr (h.deletable_iff hcounted hw hV hq₀)
      (forall_congr' fun f => forall_congr' fun _ => forall_congr' fun _ => ?_)
    constructor
    · intro hin e he
      rw [he.unique h.agrees hnewest]
      exact hin e' he'
    · intro hin e he
      rw [he', Option.some.injEq] at he
      exact hin e (he ▸ hnewest)
  have hdrop : ∀ k, ∀ e ∈ s₁.slotList k, (∃ q ∈ purges', q.1 = k ∧ e.1 ∈ q.2.slots) ↔
        s.Removable bound lastFull k ∧ e.1 ≤ bound := by
    intro k e he
    constructor
    · rintro ⟨q, hq, rfl, hslot⟩
      obtain ⟨hq', hpass⟩ := (hmem q).mp hq
      obtain ⟨q₀, hq₀, rfl⟩ := mem_map.mp hq'
      exact ⟨(hpasses q₀ hq₀).mp hpass, ((h.mem_slots_recount hq₀).mp hslot).1⟩
    · rintro ⟨hrem, hle⟩
      obtain ⟨Z, hZ, hkZ⟩ := hrem.1
      obtain ⟨q₀, hq₀, rfl⟩ := h.exists_of_zeroCandidate (hZ k hkZ).1
      obtain ⟨he₀, hd⟩ := (h.swept.mem q₀.1 e).mp he
      refine ⟨s₁.recount q₀, (hmem _).mpr ⟨mem_map.mpr ⟨q₀, hq₀, rfl⟩,
        (hpasses q₀ hq₀).mpr hrem⟩, rfl, (h.mem_slots_recount hq₀).mpr ⟨hle, ?_⟩⟩
      exact ⟨e, he₀, rfl, h.uncached q₀.1 e he₀ hle, hd⟩
  have hsw := h.swept
  have hagrees := hsw.agrees
  have hfirst : s.Cleaned (s.DropsOlder bound lastFull)
      { s₁ with zeroLamportAccountsToPurgeAfterFullSnapshot := later' } :=
    ⟨⟨hagrees.nodup, hagrees.stored, hagrees.rooted, hagrees.counts, hagrees.refs,
      hagrees.reclaimed⟩, hsw.mem, hsw.removed, hsw.kept, hsw.roots, hsw.cache, hsw.readOnly⟩
  obtain ⟨s', r', hrun, hsw'⟩ := @purgeKeysExact_spec _ hfirst.agrees purges'
    (fun q hq e he hslot => by
      have hle := ((hdrop q.1 e he).mp ⟨q, hq, rfl, hslot⟩).2
      exact h.uncached q.1 e ((hsw.mem q.1 e).mp he).1 hle) removed hremoved
  refine ⟨counts, _, c, purges', later', s', r', hcount, hcalc, hfilter, hrun, ?_⟩
  have hsecond := hsw'.toCleaned.congr hdrop
  refine hfirst.trans hsecond fun k e he hd => ?_
  rcases hd with ⟨_, e', he', hle, hlt⟩ | ⟨_, hle⟩
  · exact h.uncached k e he (le_trans (le_of_lt hlt) hle)
  · exact h.uncached k e he hle

/-- The assertion on the accounts that an earlier clean has kept. -/
def LaterOk (s : CleanDb) (lastFull : Option Slot) : Prop :=
  lastFull.isSome = true ∨ s.zeroLamportAccountsToPurgeAfterFullSnapshot = []

theorem cleanAccounts_eq_none {m : Slot} (h : ¬s.LaterOk lastFull) :
    cleanAccounts order m lastFull s = none := by
  obtain ⟨hnone, hne⟩ := not_or.mp h
  have hcond : (lastFull.isNone && !s.zeroLamportAccountsToPurgeAfterFullSnapshot.isEmpty) =
      true := by
    rw [Bool.and_eq_true, Bool.not_eq_true', isEmpty_eq_false_iff]
    exact ⟨by simpa using hnone, hne⟩
  unfold cleanAccounts constructCandidateCleanKeys
  dsimp only
  rw [if_pos hcond]
  rfl

theorem cleanAccounts_spec {m : Slot} (hs : s.Agrees []) (hun : s.Uncached (s.cleanBound m))
    (hbound : s.cleanBound m ≤ u64Max) (hlater : s.LaterOk lastFull) :
    ∃ s', cleanAccounts order m lastFull s = some s' ∧
      s.Cleaned (s.Drops (s.cleanBound m) lastFull) s' := by
  have hcond : ¬(lastFull.isNone && !s.zeroLamportAccountsToPurgeAfterFullSnapshot.isEmpty) =
      true := by
    rw [Bool.and_eq_true, Bool.not_eq_true', isEmpty_eq_false_iff]
    rintro ⟨hnone, hne⟩
    rcases hlater with hsome | hnil
    · rw [Option.isNone_iff_eq_none.mp hnone] at hsome
      cases hsome
    · exact hne hnil
  unfold cleanAccounts constructCandidateCleanKeys
  dsimp only
  rw [if_neg hcond]
  generalize s.cleanBound m = bound at *
  rw [Option.bind_eq_bind, Option.bind_some]
  generalize hs₀ : ({ s with
    dirtyStores := s.dirtyStores.filter (fun x => decide (bound < x.1))
    uncleanedPubkeys := s.uncleanedPubkeys.filter (fun x => decide (bound < x.1))
    zeroLamportAccountsToPurgeAfterFullSnapshot :=
      s.zeroLamportAccountsToPurgeAfterFullSnapshot.filter
        (fun x => !purgesLater bound lastFull x) } : CleanDb) = s₀
  have hkeys : ∀ k, k ∈ order.keys (s.candidates bound lastFull) ↔
      k ∈ s.candidates bound lastFull := fun k => (order.keys_perm _).mem_iff
  generalize order.keys (s.candidates bound lastFull) = pubkeys at hkeys ⊢
  -- the candidates are taken out of the lists, which no later step reads
  have hagrees₀ : s₀.Agrees [] := by
    subst hs₀
    exact ⟨hs.nodup, hs.stored, hs.rooted, hs.counts, hs.refs, hs.reclaimed⟩
  have hun₀ : s₀.Uncached bound := by
    subst hs₀
    exact hun
  obtain ⟨s₁, r, removed, hrun₁, hsw₀, hremoved⟩ := cleanAccountsOlderThanRoot_spec hagrees₀ hun₀
    (pubkeys.filter (s₀.scanOldAccounts bound))
  have hdrop : (fun k e => k ∈ pubkeys.filter (s₀.scanOldAccounts bound) ∧
      Outdated (s₀.slotList k) bound e) = s.DropsOlder bound lastFull := by
    subst hs₀
    funext k e
    refine propext (and_congr_left fun _ => ?_)
    rw [mem_filter, hkeys]
    rfl
  rw [hdrop] at hsw₀
  have hsw : s.Swept (s.DropsOlder bound lastFull) (s₁.resetUncleanedRoots bound) r := by
    subst hs₀
    have hagrees := hsw₀.agrees
    exact ⟨⟨⟨hagrees.nodup, hagrees.stored, hagrees.rooted, hagrees.counts, hagrees.refs,
      hagrees.reclaimed⟩, hsw₀.mem, hsw₀.removed, hsw₀.kept, hsw₀.roots, hsw₀.cache,
      hsw₀.readOnly⟩, hsw₀.purged, hsw₀.offsets, hsw₀.refCount⟩
  have hperm := order.keys_perm pubkeys.dedup
  obtain ⟨counts, purges, c, purges', later', s', r', hcount, hcalc, hfilter, hrun, hcleaned⟩ :=
    @second_sweep s order lastFull bound (s₁.resetUncleanedRoots bound) r
      (order.keys pubkeys.dedup) removed
      (s₁.resetUncleanedRoots bound).zeroLamportAccountsToPurgeAfterFullSnapshot
      ⟨hs, hun, hsw, hperm.nodup_iff.mpr (nodup_dedup _),
        fun k => by rw [hperm.mem_iff, mem_dedup, hkeys]⟩ hbound hremoved
  have hcount' : (s₀.zeroLamports bound (order.keys pubkeys.dedup)).foldlM
      ((s₁.resetUncleanedRoots bound).countStores r) (fun _ => none, []) =
        some (counts, purges) := by
    subst hs₀
    exact hcount
  unfold zeroLamports at hcount'
  refine ⟨s', ?_, hcleaned⟩
  rw [hrun₁, Option.bind_eq_bind, Option.bind_some]
  rw [hcount', Option.bind_eq_bind, Option.bind_some]
  rw [hcalc, Option.bind_eq_bind, Option.bind_some, hfilter, Option.bind_eq_bind, Option.bind_some]
  rw [hrun]
  rfl

end CleanDb
end Hypergrid
