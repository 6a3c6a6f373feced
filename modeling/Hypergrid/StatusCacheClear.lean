import Hypergrid.StatusCacheStore

/-!
# Clearing a slot of the status cache

`clear_slot_entries` relies on the statuses that the slot added being those of the cache.  The
list of a slot may name a slice twice, and the cache may have statuses of the slot that the list
has lost when a root at or above the slot was dropped.

* `Indexed` holds in every state of a history: what a slot lists is in the cache.
* `clearSlotEntries_isSome_iff` : when clearing does not panic.
* `clearsExactly_iff` : when clearing removes the statuses of the slot and nothing else.
-/

namespace Hypergrid
open List Option Function AList

namespace StatusCacheStore

variable {T : Type}

section Loop
variable {slot : Slot} {keyMap : AList (fun _ : KeySlice => List (Slot × T))}

theorem clearKey_isSome {x : KeySlice × T} (hne : NoEmptyLists keyMap) :
    (clearKey slot keyMap x).isSome = true ↔ forks keyMap x.1 ≠ [] := by
  unfold clearKey forks
  cases hlookup : keyMap.lookup x.1 with
  | none => simp
  | some keyList =>
    have hnil : keyList ≠ [] := fun hnil => hne x.1 (hnil ▸ hlookup)
    simp [hnil]

/-- The loop meets no missing slice exactly if every slice has forks, and a slice that is listed
twice has forks of other slots. -/
theorem foldlM_clearKey_isSome (xs : List (KeySlice × T)) :
    ∀ {keyMap}, NoEmptyLists keyMap → ((xs.foldlM (clearKey slot) keyMap).isSome = true ↔
        ∀ slice ∈ xs.map Prod.fst, forks keyMap slice ≠ [] ∧
          (2 ≤ (xs.map Prod.fst).count slice → without slot (forks keyMap slice) ≠ [])) := by
  induction xs with
  | nil => simp
  | cons x xs ih =>
    intro keyMap hne
    have hhead := @clearKey_isSome T slot keyMap x hne
    rw [foldlM_cons, bind_eq_bind]
    cases hx : clearKey slot keyMap x with
    | none =>
      rw [hx] at hhead
      have hempty : forks keyMap x.1 = [] := by
        by_contra hnil
        exact absurd (hhead.mpr hnil) (by simp)
      constructor
      · intro h
        simp at h
      · intro h
        exact absurd hempty (h x.1 (by simp)).1
    | some keyMap₁ =>
      have hx₁ : forks keyMap x.1 ≠ [] := hhead.mp (by rw [hx]; rfl)
      rw [bind_some, ih (hne.clearKey hx), map_cons, forall_mem_cons]
      have hforks := forks_clearKey hx
      constructor
      · intro h
        refine ⟨⟨hx₁, ?_⟩, ?_⟩
        · intro htwice
          rw [count_cons_self] at htwice
          have hmem : x.1 ∈ xs.map Prod.fst := count_pos_iff.mp (by omega)
          have hleft := (h x.1 hmem).1
          rwa [hforks, if_pos rfl] at hleft
        · intro slice hmem
          obtain ⟨hleft, htwice⟩ := h slice hmem
          rw [hforks] at hleft htwice
          by_cases hslice : slice = x.1
          · rw [if_pos hslice] at hleft
            exact ⟨hslice ▸ hx₁, fun _ => hleft⟩
          · rw [if_neg hslice] at hleft htwice
            rw [count_cons_of_ne (Ne.symm hslice)]
            exact ⟨hleft, htwice⟩
      · rintro ⟨⟨_, htwice⟩, hrest⟩ slice hmem
        rw [hforks]
        by_cases hslice : slice = x.1
        · have hmem' : x.1 ∈ xs.map Prod.fst := hslice ▸ hmem
          have hleft : without slot (forks keyMap x.1) ≠ [] := by
            refine htwice ?_
            rw [count_cons_self]
            have := count_pos_iff.mpr hmem'
            omega
          rw [if_pos hslice, hslice, without_idem]
          exact ⟨hleft, fun _ => hleft⟩
        · rw [if_neg hslice]
          have h := hrest slice hmem
          rwa [count_cons_of_ne (Ne.symm hslice)] at h

end Loop

/-- The slot lists and the cache agree: what a slot lists is stored, and no blockhash is newer
than its highest slot. -/
structure Indexed (c : StatusCacheStore T) : Prop where
  noEmptyLists : ∀ h e, c.cache h = some e → NoEmptyLists e.keyMap
  le_maxSlot : ∀ h e, c.cache h = some e → ∀ slice, ∀ x ∈ forks e.keyMap slice, x.1 ≤ e.maxSlot
  listed : ∀ slot h, ∀ slice ∈ c.listed slot h, ∃ e res,
    c.cache h = some e ∧ (slot, res) ∈ forks e.keyMap slice
  lists : ∀ slot, ∀ h ∈ c.blockhashesOf slot, c.listed slot h ≠ []

section Steps
variable {c c' : StatusCacheStore T} {slot : Slot} {h : Hash}

theorem default_indexed : Indexed (default : StatusCacheStore T) where
  noEmptyLists := fun h e he => by simp [default] at he
  le_maxSlot := fun h e he => by simp [default] at he
  listed := fun slot h slice hmem => by simp [listed, default] at hmem
  lists := fun slot h hmem => by simp [blockhashesOf, default] at hmem

theorem Indexed.listed_of_keeps (hc : Indexed c) (hkeeps : KeepsSlot slot c c')
    {slice : KeySlice} (hmem : slice ∈ c.listed slot h) :
    ∃ e res, c'.cache h = some e ∧ (slot, res) ∈ forks e.keyMap slice := by
  obtain ⟨e, res, hcache, hfork⟩ := hc.listed slot h slice hmem
  obtain ⟨e', hcache', _, _, hfork'⟩ :=
    hkeeps h e slice res hcache (hc.le_maxSlot h e hcache slice _ hfork) hfork
  exact ⟨e', res, hcache', hfork'⟩

section Insert
variable (c : StatusCacheStore T) (h : Hash) (slot : Slot) (keyIndex : Nat) (slice : KeySlice)
  (res : T)

theorem listed_insertWithSlice (slot' : Slot) (h' : Hash) :
    (c.insertWithSlice h slot keyIndex slice res).listed slot' h' =
      if slot' = slot ∧ h' = h then c.listed slot h ++ [slice] else c.listed slot' h' := by
  unfold listed insertWithSlice addDelta
  dsimp only
  by_cases hslot : slot' = slot
  · subst hslot
    rw [update_self, bind_some]
    by_cases hh : h' = h
    · subst hh
      rw [lookup_insert, if_pos ⟨rfl, rfl⟩]
      cases hdeltas : c.slotDeltas slot' with
      | none => simp
      | some deltas => cases hlookup : deltas.lookup h' <;> simp [hlookup]
    · rw [lookup_insert_ne hh, if_neg (fun hand => hh hand.2)]
      cases hdeltas : c.slotDeltas slot' with
      | none => simp
      | some deltas => simp
  · rw [update_of_ne hslot, if_neg (fun hand => hslot hand.1)]

theorem mem_blockhashesOf_insertWithSlice (slot' : Slot) (h' : Hash) :
    h' ∈ (c.insertWithSlice h slot keyIndex slice res).blockhashesOf slot' ↔
      slot' = slot ∧ h' = h ∨ h' ∈ c.blockhashesOf slot' := by
  unfold blockhashesOf insertWithSlice addDelta
  dsimp only
  by_cases hslot : slot' = slot
  · subst hslot
    rw [update_self]
    cases hdeltas : c.slotDeltas slot' with
    | none => simp
    | some deltas =>
      simp only [elim_some, getD_some, ← AList.mem_keys, AList.mem_insert, true_and]
  · rw [update_of_ne hslot]
    simp [hslot]

theorem insertWithSlice_cache_self :
    (c.insertWithSlice h slot keyIndex slice res).cache h = some
      { c.openBlockhash h slot keyIndex with
        keyMap := (c.openBlockhash h slot keyIndex).keyMap.insert slice
          (((c.openBlockhash h slot keyIndex).keyMap.lookup slice).getD [] ++ [(slot, res)]) } :=
  update_self ..

theorem forksAt_insertWithSlice (h' : Hash) (slice' : KeySlice) :
    (c.insertWithSlice h slot keyIndex slice res).forksAt h' slice' =
      if h' = h ∧ slice' = slice then c.forksAt h' slice' ++ [(slot, res)]
      else c.forksAt h' slice' := by
  by_cases hh : h' = h
  · subst hh
    have hopen : forks (c.openBlockhash h' slot keyIndex).keyMap slice' = c.forksAt h' slice' := by
      unfold openBlockhash forksAt
      cases c.cache h' <;> rfl
    rw [forksAt_of_cache (c.insertWithSlice_cache_self h' slot keyIndex slice res), forks_insert,
      hopen]
    simp
  · have hcache : (c.insertWithSlice h slot keyIndex slice res).cache h' = c.cache h' :=
      update_of_ne hh _ _
    rw [if_neg (fun hand => hh hand.1), forksAt, hcache, forksAt]

end Insert

section Indexed
variable (hc : Indexed c)
include hc

theorem Indexed.noEmptyLists_open (keyIndex : Nat) :
    NoEmptyLists (c.openBlockhash h slot keyIndex).keyMap := by
  cases hcache : c.cache h with
  | none => simp [openBlockhash, hcache, NoEmptyLists]
  | some e =>
    rw [openBlockhash_of_cache hcache]
    exact hc.noEmptyLists h e hcache

theorem Indexed.le_maxSlot_open {keyIndex : Nat} {slice : KeySlice} {x : Slot × T}
    (hx : x ∈ forks (c.openBlockhash h slot keyIndex).keyMap slice) :
    x.1 ≤ (c.openBlockhash h slot keyIndex).maxSlot := by
  cases hcache : c.cache h with
  | none => simp [openBlockhash, hcache, forks] at hx
  | some e =>
    rw [openBlockhash_of_cache hcache] at hx ⊢
    exact le_trans (hc.le_maxSlot h e hcache slice x hx) (Nat.le_max_right _ _)

theorem Indexed.of_entry {e : BlockhashStatuses T} (hnew : c'.cache h = some e)
    (hother : ∀ k, k ≠ h → c'.cache k = c.cache k) (hne : NoEmptyLists e.keyMap)
    (hle : ∀ slice, ∀ x ∈ forks e.keyMap slice, x.1 ≤ e.maxSlot)
    (hlisted : ∀ slot k, ∀ slice ∈ c'.listed slot k, ∃ e res,
      c'.cache k = some e ∧ (slot, res) ∈ forks e.keyMap slice)
    (hlists : ∀ slot, ∀ k ∈ c'.blockhashesOf slot, c'.listed slot k ≠ []) : Indexed c' := by
  refine ⟨fun k e' he' => ?_, fun k e' he' => ?_, hlisted, hlists⟩ <;> by_cases hk : k = h
  · subst hk
    exact some.inj (hnew.symm.trans he') ▸ hne
  · exact hc.noEmptyLists k e' ((hother k hk).symm.trans he')
  · subst hk
    exact some.inj (hnew.symm.trans he') ▸ hle
  · exact hc.le_maxSlot k e' ((hother k hk).symm.trans he')

theorem Indexed.insertWithSlice (h : Hash) (slot : Slot) (keyIndex : Nat) (slice : KeySlice)
    (res : T) : Indexed (c.insertWithSlice h slot keyIndex slice res) := by
  have hnew := c.insertWithSlice_cache_self h slot keyIndex slice res
  refine hc.of_entry hnew (fun k hk => update_of_ne hk _ _) ?_ ?_ ?_ ?_
  · intro slice'
    by_cases hslice : slice' = slice
    · subst hslice
      simp
    · rw [lookup_insert_ne hslice]
      exact hc.noEmptyLists_open keyIndex slice'
  · intro slice' x hx
    rw [forks_insert] at hx
    have hcases : x ∈ forks (c.openBlockhash h slot keyIndex).keyMap slice' ∨ x = (slot, res) := by
      split_ifs at hx
      · simpa using hx
      · exact .inl hx
    rcases hcases with hx | rfl
    · exact hc.le_maxSlot_open hx
    · exact Nat.le_max_left _ _
  · intro slot' k slice' hmem
    rw [listed_insertWithSlice] at hmem
    split_ifs at hmem with hsame
    · obtain ⟨rfl, rfl⟩ := hsame
      rcases mem_append.mp hmem with hmem | hmem
      · exact hc.listed_of_keeps (insertWithSlice_keepsSlot _ _ _ _ _ _) hmem
      · obtain rfl := mem_singleton.mp hmem
        refine ⟨_, res, hnew, ?_⟩
        rw [forks_insert, if_pos rfl]
        exact mem_append_right _ mem_cons_self
    · exact hc.listed_of_keeps (insertWithSlice_keepsSlot _ _ _ _ _ _) hmem
  · intro slot' k hmem
    rw [mem_blockhashesOf_insertWithSlice] at hmem
    rw [listed_insertWithSlice]
    split_ifs with hsame
    · simp
    · exact hc.lists slot' k (hmem.resolve_left hsame)

theorem Indexed.openBlockhash (h : Hash) (slot : Slot) (keyIndex : Nat) :
    Indexed (c.setBlockhash h (c.openBlockhash h slot keyIndex)) := by
  refine hc.of_entry (update_self ..) (fun k hk => update_of_ne hk _ _)
    (hc.noEmptyLists_open keyIndex) (fun _ _ => hc.le_maxSlot_open) ?_ hc.lists
  exact fun slot' k slice hmem =>
    hc.listed_of_keeps (openBlockhash_keepsSlot c h slot keyIndex) hmem

theorem Indexed.purgeRoots : Indexed c.purgeRoots := by
  unfold StatusCacheStore.purgeRoots
  cases c.purgedRoot with
  | none => exact hc
  | some min =>
    have hcache : ∀ k e, (c.cache k).filter (fun entry => decide (min < entry.maxSlot)) =
        some e ↔ c.cache k = some e ∧ min < e.maxSlot := by
      intro k e
      rw [filter_eq_some_iff, decide_eq_true_iff]
    constructor
    · exact fun k e he => hc.noEmptyLists k e ((hcache k e).mp he).1
    · exact fun k e he => hc.le_maxSlot k e ((hcache k e).mp he).1
    · intro slot k slice hmem
      unfold StatusCacheStore.listed at hmem
      dsimp only at hmem
      split_ifs at hmem with hslot
      · obtain ⟨e, res, he, hfork⟩ := hc.listed slot k slice hmem
        have hmax := hc.le_maxSlot k e he slice _ hfork
        exact ⟨e, res, (hcache k e).mpr ⟨he, lt_of_lt_of_le hslot hmax⟩, hfork⟩
      · simp at hmem
    · intro slot k hmem
      unfold blockhashesOf at hmem
      unfold StatusCacheStore.listed
      dsimp only at hmem ⊢
      split_ifs at hmem ⊢ with hslot
      · exact hc.lists slot k hmem
      · simp at hmem

theorem Indexed.addRoot (fork : Slot) : Indexed (c.addRoot fork) := by
  have hroots : Indexed { c with roots := Insert.insert fork c.roots } :=
    ⟨hc.noEmptyLists, hc.le_maxSlot, hc.listed, hc.lists⟩
  exact hroots.purgeRoots

theorem Indexed.cleared (hclear : Cleared slot c c') : Indexed c' := by
  have hlisted : ∀ slot' k, c'.listed slot' k = if slot' = slot then [] else c.listed slot' k := by
    intro slot' k
    unfold StatusCacheStore.listed
    rw [hclear.slotDeltas]
    by_cases hslot : slot' = slot
    · rw [hslot, update_self, if_pos rfl]
      rfl
    · rw [update_of_ne hslot, if_neg hslot]
  constructor
  · intro k e' he'
    obtain ⟨e, he, _, _, hne⟩ := hclear.entries k e' he'
    exact hne (hc.noEmptyLists k e he)
  · intro k e' he' slice x hx
    obtain ⟨e, he, _, hmax, _⟩ := hclear.entries k e' he'
    rw [hmax]
    refine hc.le_maxSlot k e he slice x ?_
    have hforks := hclear.forksAt k slice
    rw [forksAt_of_cache he', forksAt_of_cache he] at hforks
    rw [hforks] at hx
    split_ifs at hx
    · exact (mem_without.mp hx).1
    · exact hx
  · intro slot' k slice hmem
    rw [hlisted] at hmem
    split_ifs at hmem with hslot
    · simp at hmem
    · exact hc.listed_of_keeps (hclear.keepsSlot hslot) hmem
  · intro slot' k hmem
    rw [hlisted]
    unfold blockhashesOf at hmem
    rw [hclear.slotDeltas] at hmem
    by_cases hslot : slot' = slot
    · rw [hslot, update_self] at hmem
      simp at hmem
    · rw [update_of_ne hslot] at hmem
      rw [if_neg hslot]
      exact hc.lists slot' k hmem

end Indexed

theorem Indexed.appendDelta (hc : Indexed c) (delta : SlotDelta T) :
    Indexed (c.appendDelta delta) := by
  have hstatuses : Indexed (delta.statuses.foldl (appendStatuses delta.slot) c) :=
    foldlRecOn _ _ hc fun _ hc x _ => foldlRecOn _ _ hc fun _ hc y _ =>
      hc.insertWithSlice x.1 delta.slot x.2.1 y.1 y.2
  unfold StatusCacheStore.appendDelta
  split_ifs
  · exact hstatuses.addRoot delta.slot
  · exact hstatuses

theorem step_indexed {op : StatusOp T} (hc : Indexed c) (hstep : c.step op = some c') :
    Indexed c' := by
  cases op with
  | insert h key slot res random =>
    obtain ⟨slice, _, rfl⟩ := map_eq_some_iff.mp hstep
    exact (hc.openBlockhash h slot _).insertWithSlice h slot _ slice res
  | append slotDeltas =>
    obtain rfl := some.inj hstep
    exact foldlRecOn slotDeltas _ hc fun _ hc delta _ => hc.appendDelta delta
  | addRoot fork =>
    obtain rfl := some.inj hstep
    exact hc.addRoot fork
  | clearSlotEntries slot order =>
    simp only [step] at hstep
    split_ifs at hstep with hperm
    exact hc.cleared (clearSlotEntries_cleared hperm hstep)

theorem run_indexed {ops : List (StatusOp T)} (hrun : Machine.Run step default ops c) : Indexed c :=
  Machine.GuardedRun.invariant (fun _ _ _ hc _ hstep => step_indexed hc hstep) hrun
    default_indexed

end Steps

variable {c c' : StatusCacheStore T} {slot : Slot} {order : List Hash}

/-- Clearing the slot does not panic, leaves no status of the slot, and changes no lookup that
did not report the slot. -/
def ClearsExactly (c : StatusCacheStore T) (slot : Slot) (order : List Hash) : Prop :=
  ∃ c', c.clearSlotEntries slot order = some c' ∧
    (∀ h slice, ∀ x ∈ c'.forksAt h slice, x.1 ≠ slot) ∧
    ∀ key h ancestors result, c.getStatus key h ancestors = some result →
      (∀ res, result ≠ some (slot, res)) → c'.getStatus key h ancestors = some result

/-- No slice is listed twice in the slot, unless other slots have a status of it. -/
def NoRepeats (c : StatusCacheStore T) (slot : Slot) : Prop :=
  ∀ h slice, 2 ≤ (c.listed slot h).count slice → ∃ x ∈ c.forksAt h slice, x.1 ≠ slot

/-- The slot lists every status of it that is stored. -/
def ListsAll (c : StatusCacheStore T) (slot : Slot) : Prop :=
  ∀ h slice res, (slot, res) ∈ c.forksAt h slice → slice ∈ c.listed slot h

theorem clearSlotEntries_isSome_iff (hc : Indexed c) (hperm : order.Perm (c.blockhashesOf slot)) :
    (c.clearSlotEntries slot order).isSome = true ↔ c.NoRepeats slot := by
  have hnodup : order.Nodup := hperm.nodup_iff.mpr (c.nodup_blockhashesOf slot)
  unfold clearSlotEntries NoRepeats
  cases hdeltas : c.slotDeltas slot with
  | none => simp [listed, hdeltas]
  | some deltas =>
    have hvisit : ∀ h ∈ order, ((clearBlockhash slot ((deltas.lookup h).elim [] Prod.snd)
        (c.cache h)).isSome = true ↔ ∀ slice, 2 ≤ (c.listed slot h).count slice →
          ∃ x ∈ c.forksAt h slice, x.1 ≠ slot) := by
      intro h hmem
      -- a visited blockhash lists a slice, and listed slices are stored
      obtain ⟨slice₀, hslice₀⟩ := exists_mem_of_ne_nil _ (hc.lists slot h (hperm.mem_iff.mp hmem))
      obtain ⟨e, _, he, _⟩ := hc.listed slot h slice₀ hslice₀
      have hloop := @foldlM_clearKey_isSome T slot ((deltas.lookup h).elim [] Prod.snd)
        e.keyMap (hc.noEmptyLists h e he)
      rw [← listed_of_slotDeltas hdeltas] at hloop
      have hsome : (clearBlockhash slot ((deltas.lookup h).elim [] Prod.snd)
          (c.cache h)).isSome = (((deltas.lookup h).elim [] Prod.snd).foldlM (clearKey slot)
            e.keyMap).isSome := by
        rw [he, clearBlockhash]
        cases ((deltas.lookup h).elim [] Prod.snd).foldlM (clearKey slot) e.keyMap <;> rfl
      rw [hsome, hloop]
      constructor
      · intro hall slice htwice
        have hslice : slice ∈ c.listed slot h := count_pos_iff.mp (by omega)
        obtain ⟨x, hx⟩ := exists_mem_of_ne_nil _ ((hall slice hslice).2 htwice)
        rw [forksAt_of_cache he]
        exact ⟨x, (mem_without.mp hx).1, (mem_without.mp hx).2⟩
      · intro hall slice hslice
        obtain ⟨e', res, he', hfork⟩ := hc.listed slot h slice hslice
        obtain rfl := some.inj (he'.symm.trans he)
        refine ⟨ne_nil_of_mem hfork, fun htwice => ?_⟩
        obtain ⟨x, hx, hne⟩ := hall slice htwice
        rw [forksAt_of_cache he] at hx
        exact ne_nil_of_mem (mem_without.mpr ⟨hx, hne⟩)
    have hloop := @PointUpdate.visit_isSome_iff _ _ _
      (fun h => clearBlockhash slot ((deltas.lookup h).elim [] Prod.snd)) order hnodup c.cache
    have hsome : ((PointUpdate.visit (fun h => clearBlockhash slot
        ((deltas.lookup h).elim [] Prod.snd)) order c.cache).bind (fun cache =>
          some ({ c with cache, slotDeltas := Function.update c.slotDeltas slot none }))).isSome =
        (PointUpdate.visit (fun h => clearBlockhash slot
          ((deltas.lookup h).elim [] Prod.snd)) order c.cache).isSome := by
      cases PointUpdate.visit (fun h => clearBlockhash slot
        ((deltas.lookup h).elim [] Prod.snd)) order c.cache <;> rfl
    simp only [Option.bind_eq_bind, Option.pure_def]
    rw [hsome, hloop]
    constructor
    · intro hall h slice htwice
      have hslice : slice ∈ c.listed slot h := count_pos_iff.mp (by omega)
      have hmem : h ∈ order := by
        rw [hperm.mem_iff, blockhashesOf, hdeltas]
        rw [listed_of_slotDeltas hdeltas] at hslice
        by_contra hnot
        rw [elim_some, ← AList.mem_keys, ← AList.lookup_eq_none] at hnot
        simp [hnot] at hslice
      exact (hvisit h hmem).mp (hall h hmem) slice htwice
    · intro hall h hmem
      exact (hvisit h hmem).mpr (hall h)

theorem find?_without {storedForks : List (Slot × T)} {test : Slot × T → Bool}
    (h : ∀ res, storedForks.find? test ≠ some (slot, res)) :
    (without slot storedForks).find? test = storedForks.find? test := by
  induction storedForks with
  | nil => rfl
  | cons x xs ih =>
    by_cases htest : test x = true
    · rw [find?_cons_of_pos htest] at h ⊢
      have hx : x.1 ≠ slot := fun hx => h x.2 (by rw [← hx])
      unfold without
      rw [filter_cons_of_pos (by simpa using hx), find?_cons_of_pos htest]
    · rw [find?_cons_of_neg htest] at h ⊢
      unfold without at ih ⊢
      rw [filter_cons]
      split_ifs
      · rw [find?_cons_of_neg htest]
        exact ih h
      · exact ih h

/-- Clearing changes no lookup that did not report the slot. -/
theorem Cleared.getStatus_eq (hclear : Cleared slot c c') {key : List UInt8} {h : Hash}
    {ancestors : Finset Slot} {result : Option (Slot × T)}
    (hstatus : c.getStatus key h ancestors = some result)
    (hother : ∀ res, result ≠ some (slot, res)) :
    c'.getStatus key h ancestors = some result := by
  cases he : c.cache h with
  | none =>
    have he' : c'.cache h = none := by
      by_contra hne
      obtain ⟨e', he'⟩ := ne_none_iff_exists'.mp hne
      obtain ⟨e, hsome, _⟩ := hclear.entries h e' he'
      exact absurd (he.symm.trans hsome) (by simp)
    unfold getStatus at hstatus ⊢
    rw [he] at hstatus
    rw [he']
    exact hstatus
  | some e =>
    rw [StatusCacheStore.getStatus_eq he] at hstatus
    obtain ⟨slice, hslice, hfind⟩ := map_eq_some_iff.mp hstatus
    have hsame : (c'.forksAt h slice).find? (fun fork =>
        decide (fork.1 ∈ ancestors) || decide (fork.1 ∈ c'.roots)) = result := by
      rw [hclear.forksAt, hclear.roots, ← hfind]
      split_ifs
      · exact find?_without (by rw [hfind]; exact hother)
      · rfl
    cases he' : c'.cache h with
    | none =>
      unfold getStatus
      rw [he']
      have hnil : c'.forksAt h slice = [] := by simp [StatusCacheStore.forksAt, he']
      rw [hnil] at hsame
      exact congrArg some hsame
    | some e' =>
      obtain ⟨e₀, he₀, hindex, _⟩ := hclear.entries h e' he'
      obtain rfl := some.inj (he₀.symm.trans he)
      rw [StatusCacheStore.getStatus_eq he']
      have hslice' : keySlice e' key = some slice := by
        unfold keySlice at hslice ⊢
        rw [hindex]
        exact hslice
      rw [hslice', map_some, hsame]

/-- In every history, clearing a slot is exact if and only if no slice is listed twice in the
slot without a status of another slot, and the slot lists all its statuses. -/
theorem clearsExactly_iff {ops : List (StatusOp T)} (hrun : Machine.Run step default ops c)
    (hperm : order.Perm (c.blockhashesOf slot)) :
    c.ClearsExactly slot order ↔ c.NoRepeats slot ∧ c.ListsAll slot := by
  have hc := run_indexed hrun
  constructor
  · rintro ⟨c', hclear, hremoved, _⟩
    have hsome : (c.clearSlotEntries slot order).isSome = true := by rw [hclear]; rfl
    refine ⟨(clearSlotEntries_isSome_iff hc hperm).mp hsome, fun h slice res hmem => ?_⟩
    by_contra hnot
    -- a status that the slot does not list stays
    have hforks := (clearSlotEntries_cleared hperm hclear).forksAt h slice
    rw [if_neg hnot] at hforks
    exact hremoved h slice (slot, res) (hforks ▸ hmem) rfl
  · rintro ⟨hrepeats, hlists⟩
    have hsome := (clearSlotEntries_isSome_iff hc hperm).mpr hrepeats
    obtain ⟨c', hclear⟩ := isSome_iff_exists.mp hsome
    have hcleared := clearSlotEntries_cleared hperm hclear
    refine ⟨c', hclear, fun h slice x hx => ?_, fun key h ancestors result =>
      hcleared.getStatus_eq⟩
    rw [hcleared.forksAt] at hx
    split_ifs at hx with hmem
    · exact (mem_without.mp hx).2
    · intro hslot
      exact hmem (hlists h slice x.2 (hslot ▸ hx))

/-- Slot 3 has two statuses of one blockhash, and slot 4 one for a slice of slot 3. -/
def sharedCache : StatusCacheStore Unit :=
  default.append [⟨3, false, [(⟨1⟩, 0, [(replicate 20 7, ()), (replicate 20 8, ())])]⟩,
    ⟨4, false, [(⟨1⟩, 0, [(replicate 20 7, ())])]⟩]

theorem clearsExactly_sharedCache :
    sharedCache.listed 3 ⟨1⟩ = [replicate 20 7, replicate 20 8] ∧
      sharedCache.ClearsExactly 3 [⟨1⟩] := by
  have hcache : sharedCache = ((default.insertWithSlice ⟨1⟩ 3 0 (replicate 20 7) ()).insertWithSlice
      ⟨1⟩ 3 0 (replicate 20 8) ()).insertWithSlice ⟨1⟩ 4 0 (replicate 20 7) () := rfl
  have hlisted : ∀ h, sharedCache.listed 3 h =
      if h = ⟨1⟩ then [replicate 20 7, replicate 20 8] else [] := by
    intro h
    have hnone : (default : StatusCacheStore Unit).listed 3 h = [] := rfl
    rw [hcache]
    by_cases hh : h = ⟨1⟩ <;> simp [listed_insertWithSlice, hh, hnone]
    rfl
  have hrun : Machine.Run step default
      [.append [⟨3, false, [(⟨1⟩, 0, [(replicate 20 7, ()), (replicate 20 8, ())])]⟩,
        ⟨4, false, [(⟨1⟩, 0, [(replicate 20 7, ())])]⟩]] sharedCache :=
    Machine.GuardedRun.cons trivial rfl (.nil _)
  refine ⟨hlisted ⟨1⟩, (clearsExactly_iff hrun (by decide)).mpr ⟨?_, ?_⟩⟩
  · intro h slice htwice
    have hnodup : (sharedCache.listed 3 h).Nodup := by
      rw [hlisted]
      split_ifs <;> decide
    exact absurd (nodup_iff_count_le_one.mp hnodup slice) (by omega)
  · intro h slice res hmem
    have hnone : (default : StatusCacheStore Unit).forksAt h slice = [] := rfl
    rw [hcache] at hmem
    simp only [forksAt_insertWithSlice, hnone] at hmem
    rw [hlisted]
    grind

/-- Two keys of one slot and blockhash with the same slice. -/
def collidingOps : List (StatusOp Unit) :=
  [.insert ⟨1⟩ (sampleKey 1) 3 () 0, .insert ⟨1⟩ (sampleKey 2) 3 () 0]

def collidingCache : StatusCacheStore Unit :=
  (Machine.exec step default collidingOps).get (by decide)

/-- Clearing the slot of two keys with the same slice panics. -/
theorem clear_colliding_keys_panics :
    ¬∀ (ops : List (StatusOp Unit)) (c : StatusCacheStore Unit) (slot : Slot) (order : List Hash),
      Machine.Run step default ops c → order.Perm (c.blockhashesOf slot) →
        c.ClearsExactly slot order := by
  intro hall
  have hrun : Machine.Run step default collidingOps collidingCache :=
    (Machine.run_iff_exec step).mpr (some_get _).symm
  obtain ⟨c', hclear, _⟩ := hall collidingOps collidingCache 3 [⟨1⟩] hrun (by decide)
  have hpanic : (collidingCache.clearSlotEntries 3 [⟨1⟩]).isNone = true := by decide
  rw [hclear] at hpanic
  simp at hpanic

end StatusCacheStore
end Hypergrid
