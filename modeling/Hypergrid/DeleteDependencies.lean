import Hypergrid.Sweep

/-!
# Which zero-lamport accounts can be deleted

The middle of `clean_accounts`: the counts of the stores as if every zero-lamport candidate
were purged, and the worklist that takes back the stores that can not be deleted.

* `countStores_foldlM` : the counts say, for every store, which candidates have an entry in it
  and how many entries of other keys are left.
* `calcDeleteDependencies_spec` : the stores taken back are the least closed set of
  `Worklist.LeastClosed` that contains the stores of the blocked candidates.
-/

namespace Hypergrid
open List Finset Function

namespace CleanDb

/-- The counts of the stores, when `has k slot` says that the candidate `k` was counted in the
store of `slot`. -/
structure Counted (s : CleanDb) (has : Pubkey → Slot → Prop) (counts : StoreCounts) : Prop where
  absent : ∀ slot, counts slot = none → ∀ k, ¬has k slot
  present : ∀ slot n keys, counts slot = some (n, keys) →
    (∀ k, k ∈ keys ↔ has k slot) ∧ keys.Nonempty ∧ n + keys.card = s.count slot
  indexed : ∀ k slot, has k slot → s.Indexed slot k

variable {s : CleanDb} {r : ReclaimResult} {has has' : Pubkey → Slot → Prop}
  {counts : StoreCounts} {k : Pubkey} {e : Slot × AccountInfo}

theorem Counted.start (s : CleanDb) : s.Counted (fun _ _ => False) (fun _ => none) :=
  ⟨fun _ _ _ h => h, fun _ _ _ h => (Option.noConfusion rfl (heq_of_eq h)), fun _ _ h => h.elim⟩

theorem Counted.congr (h : s.Counted has counts) (hiff : ∀ k slot, has k slot ↔ has' k slot) :
    s.Counted has' counts := by
  have heq : has = has' := funext fun k => funext fun slot => propext (hiff k slot)
  exact heq ▸ h

theorem Counted.card_lt (hs : s.Agrees []) {slot : Slot} {keys : Finset Pubkey}
    (hkeys : ∀ k ∈ keys, s.Indexed slot k) (hnew : k ∉ keys) (hk : s.Indexed slot k) :
    keys.card < s.count slot := by
  have hsub : insert k keys ⊆ s.indexedIn slot := by
    intro k' hk'
    rcases mem_insert.mp hk' with rfl | hk'
    · exact (mem_indexedIn hs.stored).mpr hk
    · exact (mem_indexedIn hs.stored).mpr (hkeys k' hk')
  have hcard := card_le_card hsub
  obtain ⟨e, he, hes, hcached⟩ := hk
  have hsome := (hs.stored k e he hcached).storage_isSome
  rw [card_insert_of_notMem hnew] at hcard
  have hcount := hs.counts slot (hes ▸ hsome)
  omega

theorem Counted.update (h : s.Counted has counts) (hk : s.Indexed e.1 k) {n : Nat}
    {keys : Finset Pubkey} (hkeys : ∀ k', k' ∈ keys ↔ has k' e.1 ∨ k' = k)
    (hsum : n + keys.card = s.count e.1) :
    s.Counted (fun k' slot => has k' slot ∨ k' = k ∧ slot = e.1)
      (update counts e.1 (some (n, keys))) where
  absent := fun slot hslot k' => by
    by_cases hes : slot = e.1
    · subst hes
      rw [update_self] at hslot
      cases hslot
    · rw [update_of_ne hes] at hslot
      rintro (hk' | ⟨_, hk'⟩)
      · exact h.absent slot hslot k' hk'
      · exact hes hk'
  present := fun slot n' keys' hslot => by
    by_cases hes : slot = e.1
    · subst hes
      rw [update_self, Option.some.injEq, Prod.mk.injEq] at hslot
      obtain ⟨rfl, rfl⟩ := hslot
      refine ⟨fun k' => ?_, ⟨k, (hkeys k).mpr (.inr rfl)⟩, hsum⟩
      rw [hkeys]
      tauto
    · rw [update_of_ne hes] at hslot
      obtain ⟨hkeys', hrest⟩ := h.present slot n' keys' hslot
      exact ⟨fun k' => (hkeys' k').trans (by tauto), hrest⟩
  indexed := by
    rintro k' slot (hk' | ⟨rfl, rfl⟩)
    · exact h.indexed k' slot hk'
    · exact hk

theorem countStore_spec (kept : List (Slot × AccountInfo)) (hs : s.Agrees [])
    (h : s.Counted has counts) (hnew : ¬has k e.1)
    (he : e ∈ s.slotList k) (hcached : e.2.storageLocation.isCached = false)
    (hkept : ¬((k, e.1) ∈ r.purgedAccountSlots ∨ (e.1, e.2.offset) ∈ r.reclaimedOffsets)) :
    ∃ counts', s.countStore r k (counts, kept) e = some (counts', kept ++ [e]) ∧
      s.Counted (fun k' slot => has k' slot ∨ k' = k ∧ slot = e.1) counts' := by
  have hindexed : s.Indexed e.1 k := ⟨e, he, rfl, hcached⟩
  unfold countStore
  rw [if_neg hkept]
  dsimp only
  cases hcount : counts e.1 with
  | some x =>
    obtain ⟨n, keys⟩ := x
    obtain ⟨hkeys, _, hsum⟩ := h.present e.1 n keys hcount
    have hfresh := mt (hkeys k).mp hnew
    have hlt := Counted.card_lt hs (fun k' hk' => h.indexed k' e.1 ((hkeys k').mp hk'))
      hfresh hindexed
    have hn : n ≠ 0 := by omega
    dsimp only
    rw [if_neg hn]
    refine ⟨_, rfl, h.update hindexed (fun k' => ?_) ?_⟩
    · rw [mem_insert, hkeys, or_comm]
    · rw [card_insert_of_notMem hfresh]
      omega
  | none =>
    obtain ⟨store, offset, a, hstore, hloc, _⟩ := hs.stored k e he hcached
    have hlt := @Counted.card_lt s k hs e.1 ∅ (fun k' hk' => absurd hk' (notMem_empty k'))
      (notMem_empty k) hindexed
    have hpos : s.count e.1 ≠ 0 := by omega
    rw [hloc]
    dsimp only
    rw [if_neg (by simp [AccountsDb.getAccountStorageEntry, hstore, hpos])]
    refine ⟨_, rfl, h.update hindexed (fun k' => ?_) ?_⟩
    · rw [Finset.mem_singleton, or_iff_right (h.absent e.1 hcount k')]
    · rw [Finset.card_singleton]
      omega

theorem countStore_foldlM (l kept : List (Slot × AccountInfo)) (hs : s.Agrees [])
    (hnodup : (l.map Prod.fst).Nodup) (h : s.Counted has counts)
    (hnew : ∀ e ∈ l, ¬has k e.1)
    (hcached : ∀ e ∈ l, e.2.storageLocation.isCached = false)
    (hdropped : ∀ e ∈ l, ((k, e.1) ∈ r.purgedAccountSlots ∨
      (e.1, e.2.offset) ∈ r.reclaimedOffsets) ↔ e ∉ s.slotList k) :
    ∃ counts', l.foldlM (s.countStore r k) (counts, kept) =
        some (counts', kept ++ l.filter (fun e => decide (e ∈ s.slotList k))) ∧
      s.Counted (fun k' slot => has k' slot ∨
        k' = k ∧ ∃ e ∈ l, e ∈ s.slotList k ∧ e.1 = slot) counts' := by
  induction l generalizing counts kept has with
  | nil =>
    refine ⟨counts, by rw [filter_nil, append_nil]; rfl, h.congr fun k' slot => ?_⟩
    simp
  | cons e l ih =>
    obtain ⟨hfresh, hnodup'⟩ := nodup_cons.mp hnodup
    have hcached' := fun e' he' => hcached e' (mem_cons_of_mem _ he')
    have hdropped' := fun e' he' => hdropped e' (mem_cons_of_mem _ he')
    rw [foldlM_cons]
    by_cases he : e ∈ s.slotList k
    · have hkept := mt (hdropped e mem_cons_self).mp (not_not.mpr he)
      obtain ⟨counts₁, hstep, hcounted⟩ := countStore_spec kept hs h
        (hnew e mem_cons_self) he (hcached e mem_cons_self) hkept
      have hnew' : ∀ e' ∈ l, ¬(has k e'.1 ∨ k = k ∧ e'.1 = e.1) := by
        rintro e' he' (hhas | ⟨_, hes⟩)
        · exact hnew e' (mem_cons_of_mem _ he') hhas
        · exact hfresh (mem_map.mpr ⟨e', he', hes⟩)
      obtain ⟨counts', hrun, hcounted'⟩ :=
        ih (kept ++ [e]) hnodup' hcounted hnew' hcached' hdropped'
      refine ⟨counts', ?_, hcounted'.congr fun k' slot => ?_⟩
      · rw [hstep]
        refine hrun.trans ?_
        rw [List.filter_cons_of_pos (by simpa using he), List.append_assoc]
        rfl
      · rw [List.exists_mem_cons_iff, or_assoc]
        refine or_congr_right ?_
        constructor
        · rintro (⟨hk, hes⟩ | ⟨hk, hrest⟩)
          · exact ⟨hk, .inl ⟨he, hes.symm⟩⟩
          · exact ⟨hk, .inr hrest⟩
        · rintro ⟨hk, ⟨_, hes⟩ | hrest⟩
          · exact .inl ⟨hk, hes.symm⟩
          · exact .inr ⟨hk, hrest⟩
    · have hdrop := (hdropped e mem_cons_self).mpr he
      obtain ⟨counts', hrun, hcounted'⟩ := ih kept hnodup' h
        (fun e' he' => hnew e' (mem_cons_of_mem _ he')) hcached' hdropped'
      refine ⟨counts', ?_, hcounted'.congr fun k' slot => ?_⟩
      · rw [countStore, if_pos hdrop, List.filter_cons_of_neg (by simpa using he)]
        exact hrun
      · rw [List.exists_mem_cons_iff]
        simp [he]

theorem Counted.any_zero_iff (hs : s.Agrees []) (h : s.Counted has counts) {slot : Slot}
    (hk : has k slot) :
    (counts slot).any (fun c => c.1 == 0) = true ↔ ∀ k', s.Indexed slot k' → has k' slot := by
  cases hcount : counts slot with
  | none => exact absurd hk (h.absent slot hcount k)
  | some c =>
    obtain ⟨n, keys⟩ := c
    obtain ⟨hkeys, _, hsum⟩ := h.present slot n keys hcount
    obtain ⟨e, he, hes, hcached⟩ := h.indexed k slot hk
    have hcard := hs.counts slot (hes ▸ (hs.stored k e he hcached).storage_isSome)
    rw [filter_nil, length_nil, add_zero] at hcard
    have hsub : keys ⊆ s.indexedIn slot := fun k' hk' =>
      (mem_indexedIn hs.stored).mpr (h.indexed k' slot ((hkeys k').mp hk'))
    rw [Option.any_some, beq_iff_eq]
    constructor
    · intro hn k' hk'
      have heq := eq_of_subset_of_card_le hsub (by omega)
      exact (hkeys k').mp (heq ▸ (mem_indexedIn hs.stored).mpr hk')
    · intro hall
      have hle := card_le_card (fun k' hk' =>
        (hkeys k').mpr (hall k' ((mem_indexedIn hs.stored).mp hk')) : s.indexedIn slot ⊆ keys)
      omega

/-- A candidate with what the loop leaves of it. -/
def recount (s : CleanDb) (q : Pubkey × Purge) : Pubkey × Purge :=
  (q.1, ⟨q.2.accountInfos.filter (fun e => decide (e ∈ s.slotList q.1)), s.refCount q.1⟩)

/-- What the loop needs to know about a candidate. -/
structure Recountable (s : CleanDb) (r : ReclaimResult) (q : Pubkey × Purge) : Prop where
  nodup : (q.2.accountInfos.map Prod.fst).Nodup
  cached : ∀ e ∈ q.2.accountInfos, e.2.storageLocation.isCached = false
  dropped : ∀ e ∈ q.2.accountInfos, ((q.1, e.1) ∈ r.purgedAccountSlots ∨
    (e.1, e.2.offset) ∈ r.reclaimedOffsets) ↔ e ∉ s.slotList q.1
  refCount : q.1 ∉ r.purgedAccountSlots.image Prod.fst → q.2.refCount = s.refCount q.1

theorem countStores_foldlM (P acc : List (Pubkey × Purge)) (hs : s.Agrees [])
    (hnodup : (P.map Prod.fst).Nodup) (hP : ∀ q ∈ P, s.Recountable r q)
    (h : s.Counted has counts) (hnew : ∀ q ∈ P, ∀ slot, ¬has q.1 slot) :
    ∃ counts', P.foldlM (s.countStores r) (counts, acc) = some (counts', acc ++ P.map s.recount) ∧
      s.Counted (fun k slot => has k slot ∨
        ∃ q ∈ P, k = q.1 ∧ ∃ e ∈ q.2.accountInfos, e ∈ s.slotList q.1 ∧ e.1 = slot) counts' := by
  induction P generalizing counts acc has with
  | nil =>
    refine ⟨counts, by rw [map_nil, append_nil]; rfl, h.congr fun k slot => ?_⟩
    simp
  | cons q P ih =>
    obtain ⟨hfresh, hnodup'⟩ := nodup_cons.mp hnodup
    have hq := hP q mem_cons_self
    obtain ⟨counts₁, hstep, hcounted⟩ := countStore_foldlM q.2.accountInfos [] hs hq.nodup h
      (fun e _ => hnew q mem_cons_self e.1) hq.cached hq.dropped
    have hstep' : s.countStores r (counts, acc) q = some (counts₁, acc ++ [s.recount q]) := by
      have href : (if q.1 ∈ r.purgedAccountSlots.image Prod.fst then s.refCount q.1
          else q.2.refCount) = s.refCount q.1 := by
        split_ifs with hmem
        · rfl
        · exact hq.refCount hmem
      unfold countStores
      rw [hstep, href]
      rfl
    have hnew' : ∀ q' ∈ P, ∀ slot, ¬(has q'.1 slot ∨ q'.1 = q.1 ∧
        ∃ e ∈ q.2.accountInfos, e ∈ s.slotList q.1 ∧ e.1 = slot) := by
      rintro q' hq' slot (hhas | ⟨heq, _⟩)
      · exact hnew q' (mem_cons_of_mem _ hq') slot hhas
      · exact hfresh (mem_map.mpr ⟨q', hq', heq⟩)
    obtain ⟨counts', hrun, hcounted'⟩ := ih (acc ++ [s.recount q]) hnodup'
      (fun q' hq' => hP q' (mem_cons_of_mem _ hq')) hcounted hnew'
    refine ⟨counts', ?_, hcounted'.congr fun k slot => ?_⟩
    · rw [foldlM_cons, hstep']
      refine hrun.trans ?_
      rw [List.map_cons, List.append_assoc]
      rfl
    · rw [List.exists_mem_cons_iff, or_assoc]

end CleanDb

open Worklist
variable {order : HashOrder} {purges : List (Pubkey × Purge)} {counts : StoreCounts}

def storesOf (purges : List (Pubkey × Purge)) (k : Pubkey) : Finset Slot :=
  (purges.lookup k).elim ∅ Purge.slots

/-- The candidate can not be deleted, whatever happens to the other candidates. -/
def Purge.Blocked (p : Purge) (counts : StoreCounts) : Prop :=
  ¬(p.allStoresBeingDeleted counts = true)

/-- The stores that the visit of a store makes pending. -/
def storeSucc (purges : List (Pubkey × Purge)) (counts : StoreCounts) (slot : Slot) : Finset Slot :=
  (counts slot).elim ∅ (fun x => x.2.biUnion (storesOf purges))

/-- The counts without the stores that were taken back. -/
def Without (counts : StoreCounts) (V : Finset Slot) (counts' : StoreCounts) : Prop :=
  ∀ slot, counts' slot = if slot ∈ V then none else counts slot

theorem lookup_of_mem {q : Pubkey × Purge} (hnodup : (purges.map Prod.fst).Nodup)
    (hq : q ∈ purges) : purges.lookup q.1 = some q.2 := by
  induction purges with
  | nil => exact absurd hq not_mem_nil
  | cons p purges ih =>
    obtain ⟨hfresh, hnodup'⟩ := nodup_cons.mp hnodup
    rcases mem_cons.mp hq with rfl | hq
    · exact lookup_cons_self
    · have hne : (q.1 == p.1) = false := by
        rw [beq_eq_false_iff_ne]
        rintro heq
        exact hfresh (mem_map.mpr ⟨q, hq, heq⟩)
      rw [lookup_cons, hne]
      exact ih hnodup' hq

/-- The candidates of the counts are those of the list. -/
structure Fits (purges : List (Pubkey × Purge)) (counts : StoreCounts) : Prop where
  nodup : (purges.map Prod.fst).Nodup
  keys : ∀ slot n keys, counts slot = some (n, keys) →
    ∀ k, k ∈ keys ↔ slot ∈ storesOf purges k
  present : ∀ q ∈ purges, ∀ slot ∈ q.2.slots, (counts slot).isSome = true

def allSlots (purges : List (Pubkey × Purge)) : Finset Slot :=
  (purges.flatMap (fun q => q.2.accountInfos.map Prod.fst)).toFinset

theorem mem_allSlots {slot : Slot} : slot ∈ allSlots purges ↔ ∃ q ∈ purges, slot ∈ q.2.slots := by
  simp [allSlots, Purge.slots]

theorem storesOf_of_mem (hnodup : (purges.map Prod.fst).Nodup) {q : Pubkey × Purge}
    (hq : q ∈ purges) : storesOf purges q.1 = q.2.slots := by
  rw [storesOf, lookup_of_mem hnodup hq]
  rfl

theorem exists_of_mem_storesOf {k : Pubkey} {slot : Slot} (h : slot ∈ storesOf purges k) :
    (purges.lookup k).isSome = true ∧ ∃ q ∈ purges, q.1 = k ∧ slot ∈ q.2.slots := by
  unfold storesOf at h
  cases hlookup : purges.lookup k with
  | none =>
    rw [hlookup] at h
    exact absurd h (notMem_empty _)
  | some p =>
    rw [hlookup] at h
    obtain ⟨l₁, l₂, heq, _⟩ := lookup_eq_some_iff.mp hlookup
    exact ⟨rfl, (k, p), by rw [heq]; simp, rfl, h⟩

variable (hfits : Fits purges counts)
include hfits

theorem mem_storeSucc {x y : Slot} :
    y ∈ storeSucc purges counts x ↔
      ∃ k, (∃ q ∈ purges, q.1 = k) ∧ x ∈ storesOf purges k ∧ y ∈ storesOf purges k := by
  unfold storeSucc
  cases hcount : counts x with
  | none =>
    refine ⟨fun h => absurd h (notMem_empty _), ?_⟩
    rintro ⟨k, _, hx, _⟩
    obtain ⟨_, q, hq, _, hslot⟩ := exists_of_mem_storesOf hx
    have hsome := hfits.present q hq x hslot
    rw [hcount] at hsome
    cases hsome
  | some c =>
    obtain ⟨n, keys⟩ := c
    rw [Option.elim_some, mem_biUnion]
    constructor
    · rintro ⟨k, hk, hy⟩
      have hx := (hfits.keys x n keys hcount k).mp hk
      obtain ⟨_, q, hq, hqk, _⟩ := exists_of_mem_storesOf hx
      exact ⟨k, ⟨q, hq, hqk⟩, hx, hy⟩
    · rintro ⟨k, _, hx, hy⟩
      exact ⟨k, (hfits.keys x n keys hcount k).mpr hx, hy⟩

theorem visitStore_spec (V : Finset Slot) (c : StoreCounts) (x : Slot)
    (hc : Without counts V c) (hx : x ∈ allSlots purges) (hV : x ∉ V) :
    ∃ c', visitStore purges c x = some (c', storeSucc purges counts x) ∧
      Without counts (insert x V) c' := by
  obtain ⟨q, hq, hslot⟩ := mem_allSlots.mp hx
  obtain ⟨⟨n, keys⟩, hcount⟩ := Option.isSome_iff_exists.mp (hfits.present q hq x hslot)
  have hcx : c x = some (n, keys) := by
    rw [hc, if_neg hV, hcount]
  have hall : ∀ k ∈ keys, (purges.lookup k).isSome = true :=
    fun k hk => (exists_of_mem_storesOf ((hfits.keys x n keys hcount k).mp hk)).1
  refine ⟨update c x none, ?_, fun slot => ?_⟩
  · unfold visitStore
    rw [hcx]
    dsimp only
    rw [if_pos hall, storeSucc, hcount]
    rfl
  · by_cases hs : slot = x
    · subst hs
      rw [update_self, if_pos (mem_insert_self _ _)]
    · rw [update_of_ne hs, hc]
      simp [hs]

theorem storeSucc_subset (x : Slot) : storeSucc purges counts x ⊆ allSlots purges := by
  intro y hy
  obtain ⟨k, _, _, hyk⟩ := (mem_storeSucc hfits).mp hy
  obtain ⟨_, q, hq, _, hslot⟩ := exists_of_mem_storesOf hyk
  exact mem_allSlots.mpr ⟨q, hq, hslot⟩

/-- A candidate that passes the test of the loop is not blocked, and one that fails without
being blocked has all its stores taken back. -/
theorem not_blocked_cases {V : Finset Slot} {c : StoreCounts} (hc : Without counts V c)
    (hclosed : ∀ x ∈ V, ∀ y ∈ storeSucc purges counts x, y ∈ V) {q : Pubkey × Purge}
    (hq : q ∈ purges) :
    (q.2.allStoresBeingDeleted c = true → ¬q.2.Blocked counts) ∧
      (¬q.2.Blocked counts → ¬q.2.allStoresBeingDeleted c = true → q.2.slots ⊆ V) := by
  unfold Purge.Blocked Purge.allStoresBeingDeleted
  simp only [Bool.and_eq_true, decide_eq_true_iff, all_eq_true, not_not]
  constructor
  · rintro ⟨hlen, hall⟩
    refine ⟨hlen, fun e he => ?_⟩
    have hzero := hall e he
    rw [hc] at hzero
    split_ifs at hzero with hV
    · cases hzero
    · exact hzero
  · rintro ⟨hlen, hall⟩ hfail
    have hsome : ∃ e ∈ q.2.accountInfos, e.1 ∈ V := by
      by_contra hnone
      push Not at hnone
      refine hfail ⟨hlen, fun e he => ?_⟩
      rw [hc, if_neg (hnone e he)]
      exact hall e he
    obtain ⟨e, he, hV⟩ := hsome
    have hstores := storesOf_of_mem hfits.nodup hq
    intro y hy
    refine hclosed e.1 hV y ((mem_storeSucc hfits).mpr ⟨q.1, ⟨q, hq, rfl⟩, ?_, ?_⟩)
    · rw [hstores]
      exact mem_toFinset.mpr (mem_map.mpr ⟨e, he, rfl⟩)
    · rw [hstores]
      exact hy

theorem dependencyStep_spec {P : Slot → Prop} {V : Finset Slot} {c : StoreCounts}
    (hc : Without counts V c) (hV : LeastClosed (storeSucc purges counts) P V)
    (hPU : ∀ x, P x → x ∈ allSlots purges) {q : Pubkey × Purge} (hq : q ∈ purges) :
    ∃ c' V', dependencyStep order purges (c, V) q = some (c', V') ∧ Without counts V' c' ∧
      LeastClosed (storeSucc purges counts)
        (fun x => P x ∨ q.2.Blocked counts ∧ x ∈ q.2.slots) V' := by
  obtain ⟨hpass, hfail⟩ := not_blocked_cases hfits hc hV.closed hq
  have hVU : V ⊆ allSlots purges := fun x hx =>
    hV.least {x | x ∈ allSlots purges} (fun x _ y hy => storeSucc_subset hfits x hy) hPU x hx
  unfold dependencyStep
  by_cases hdel : q.2.allStoresBeingDeleted c = true
  · rw [if_pos hdel]
    refine ⟨c, V, rfl, hc, hV.congr fun x => ?_⟩
    rw [or_iff_left fun h => hpass hdel h.1]
  · rw [if_neg hdel]
    have hslots : q.2.slots ⊆ allSlots purges := fun x hx => mem_allSlots.mpr ⟨q, hq, hx⟩
    obtain ⟨c', V', hrun, hc', hV'⟩ := run_spec order.next_mem (visitStore_spec hfits)
      (fun x _ => storeSucc_subset hfits x) hc hV hVU
      (sdiff_subset.trans hslots : q.2.slots \ V ⊆ allSlots purges)
      (fun x hx => (mem_sdiff.mp hx).2)
    refine ⟨c', V', hrun, hc', ?_⟩
    by_cases hblocked : q.2.Blocked counts
    · have hVV' : ∀ x, x ∈ q.2.slots ∧ x ∈ V → x ∈ V' := fun x hx =>
        hV.least {x | x ∈ V'} hV'.closed (fun y hy => hV'.start y (.inl hy)) x hx.2
      refine (hV'.or_of_subset hVV').congr fun x => ?_
      rw [mem_sdiff]
      tauto
    · have hempty : q.2.slots \ V = ∅ := sdiff_eq_empty_iff_subset.mpr (hfail hblocked hdel)
      refine hV'.congr fun x => ?_
      rw [hempty]
      simp [hblocked]

theorem dependencyStep_foldlM (rest : List (Pubkey × Purge)) (hrest : ∀ q ∈ rest, q ∈ purges)
    {P : Slot → Prop} {V : Finset Slot} {c : StoreCounts} (hc : Without counts V c)
    (hV : LeastClosed (storeSucc purges counts) P V) (hPU : ∀ x, P x → x ∈ allSlots purges) :
    ∃ c' V', rest.foldlM (dependencyStep order purges) (c, V) = some (c', V') ∧
      Without counts V' c' ∧ LeastClosed (storeSucc purges counts)
        (fun x => P x ∨ ∃ q ∈ rest, q.2.Blocked counts ∧ x ∈ q.2.slots) V' := by
  induction rest generalizing P V c with
  | nil => exact ⟨c, V, rfl, hc, hV.congr fun x => by simp⟩
  | cons q rest ih =>
    have hq := hrest q mem_cons_self
    obtain ⟨c₁, V₁, hstep, hc₁, hV₁⟩ := dependencyStep_spec hfits hc hV hPU hq
    have hPU₁ : ∀ x, P x ∨ q.2.Blocked counts ∧ x ∈ q.2.slots → x ∈ allSlots purges := by
      rintro x (hx | ⟨_, hx⟩)
      · exact hPU x hx
      · exact mem_allSlots.mpr ⟨q, hq, hx⟩
    obtain ⟨c', V', hrun, hc', hV'⟩ :=
      ih (fun q' hq' => hrest q' (mem_cons_of_mem _ hq')) hc₁ hV₁ hPU₁
    refine ⟨c', V', ?_, hc', hV'.congr fun x => ?_⟩
    · rw [foldlM_cons, hstep]
      exact hrun
    · rw [exists_mem_cons_iff, or_assoc]

theorem calcDeleteDependencies_spec :
    ∃ c V, calcDeleteDependencies order purges counts = some c ∧ Without counts V c ∧
      LeastClosed (storeSucc purges counts)
        (fun x => ∃ q ∈ purges, q.2.Blocked counts ∧ x ∈ q.2.slots) V := by
  have hstart : Without counts ∅ counts := fun slot => by simp
  obtain ⟨c, V, hrun, hc, hV⟩ := @dependencyStep_foldlM order purges counts hfits purges
    (fun _ hq => hq) (fun _ => False) ∅ counts hstart (LeastClosed.empty _)
    (fun x hx => hx.elim)
  refine ⟨c, V, ?_, hc, hV.congr fun x => by rw [false_or]⟩
  rw [calcDeleteDependencies, hrun]
  rfl

end Hypergrid
