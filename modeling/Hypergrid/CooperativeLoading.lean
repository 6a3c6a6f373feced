import Hypergrid.ProgramPrune
import Hypergrid.Lib.GuardedRun

/-!
# Cooperative loading of programs

Batches of transactions that run the loop of `replenish_program_cache` (`runtime/src/bank.rs`) on
threads of their own, with pruning and removing in between.  A batch has the cache for itself for
one step: it submits the program that it has loaded and takes its next task.

* `Exclusive` : a program is loaded by one batch, which holds its lock.
* `exclusive_iff` : this holds in every state of a run exactly if no program is removed while a
  batch is loading it.
* `removed_while_loading` : a run in which two batches load one program.
-/

namespace Hypergrid
open Function Option
open LoadedPrograms

def LoadedPrograms.lockOf (c : LoadedPrograms) (key : Pubkey) : Option (Slot × Nat) :=
  (c.entries key).cooperativeLoadingLock

/-- A batch in the loop of `replenish_program_cache`. -/
structure LoadingBatch where
  slot : Slot
  epoch : Epoch
  limitToLoadPrograms : Bool
  missingPrograms : List ProgramSearch
  loadedProgramsForTxs : Option LoadedProgramsForTxBatch
  /-- the program that the batch is loading, if any -/
  programToLoad : Option Pubkey
  slot_eq : ∀ loaded ∈ loadedProgramsForTxs, loaded.slot = slot

namespace LoadingBatch

variable (b : LoadingBatch)

/-- The local cache of the batch, which the first round makes. -/
def txBatch (cache : LoadedPrograms) : LoadedProgramsForTxBatch :=
  b.loadedProgramsForTxs.getD (.newFromCache b.slot b.epoch cache)

theorem txBatch_slot (cache : LoadedPrograms) : (b.txBatch cache).slot = b.slot := by
  unfold txBatch
  cases h : b.loadedProgramsForTxs with
  | none => rfl
  | some loaded => exact b.slot_eq loaded h

/-- The batch after a call of `extract`; `none` is the end of the loop. -/
def next (thread : Nat) (cache : LoadedPrograms) : Option LoadingBatch :=
  let r := cache.extract thread (b.txBatch cache) none b.missingPrograms
  if r.cooperativeLoadingTask.isNone ∧ r.searchFor = [] then none
  else some
    { b with
      missingPrograms := r.searchFor
      loadedProgramsForTxs := some r.batch
      programToLoad := r.cooperativeLoadingTask.map Prod.fst
      slot_eq := fun loaded hloaded => by
        cases hloaded
        dsimp only [r]
        rw [LoadedPrograms.extract_eq]
        exact (cache.fill_slot _ _).trans (b.txBatch_slot cache) }

end LoadingBatch

/-- The cache, and the batches by their threads. -/
structure Loaders where
  cache : LoadedPrograms
  batches : Nat → Option LoadingBatch

namespace Loaders

/-- What happens to the cache. -/
inductive Event where
  | start (thread : Nat) (slot : Slot) (epoch : Epoch) (limitToLoadPrograms : Bool)
      (missingPrograms : List ProgramSearch)
  /-- a batch takes the lock of the cache, with the program that it has loaded -/
  | enter (thread : Nat) (program : LoadedProgram)
  | prune (newRootSlot : Slot) (newRootEpoch : Epoch)
  | pruneByDeploymentSlot (slot : Slot)
  | removePrograms (keys : List Pubkey)

def takeTask (s : Loaders) (thread : Nat) (b : LoadingBatch) (cache : LoadedPrograms) :
    Loaders where
  cache := (cache.extract thread (b.txBatch cache) none b.missingPrograms).cache
  batches := Function.update s.batches thread (b.next thread cache)

def step (s : Loaders) : Event → Option Loaders
  | .start thread slot epoch limitToLoadPrograms missingPrograms =>
    if (s.batches thread).isSome then none
    else some { s with
      batches := Function.update s.batches thread (some
        { slot, epoch, limitToLoadPrograms, missingPrograms
          loadedProgramsForTxs := none
          programToLoad := none
          slot_eq := by simp }) }
  | .enter thread program =>
    (s.batches thread).map fun b =>
      match b.programToLoad with
      | none => s.takeTask thread b s.cache
      | some key =>
        let r := s.cache.finishCooperativeLoadingTask key program
        if r.2 && b.limitToLoadPrograms then
          { cache := r.1, batches := Function.update s.batches thread none }
        else s.takeTask thread b r.1
  | .prune newRootSlot newRootEpoch =>
    some { s with cache := s.cache.prune newRootSlot newRootEpoch }
  | .pruneByDeploymentSlot slot => some { s with cache := s.cache.pruneByDeploymentSlot slot }
  | .removePrograms keys => some { s with cache := s.cache.removePrograms keys }

def Loading (s : Loaders) (thread : Nat) (b : LoadingBatch) (key : Pubkey) : Prop :=
  s.batches thread = some b ∧ b.programToLoad = some key

/-- A program is loaded by one batch, which holds its lock; when it finishes, the program is
unlocked and has a version. -/
structure Exclusive (s : Loaders) : Prop where
  held : ∀ {thread : Nat} {b : LoadingBatch} {key : Pubkey}, s.Loading thread b key →
    s.cache.lockOf key = some (b.slot, thread)
  one : ∀ {thread thread' : Nat} {b b' : LoadingBatch} {key : Pubkey}, s.Loading thread b key →
    s.Loading thread' b' key → thread = thread'
  finished : ∀ {thread : Nat} {b : LoadingBatch} {key : Pubkey} (program : LoadedProgram),
    s.Loading thread b key →
    (s.cache.finishCooperativeLoadingTask key program).1.lockOf key = none ∧
      ∃ v ∈ ((s.cache.finishCooperativeLoadingTask key program).1.entries key).slotVersions,
        v.SameSlots program

/-- No program is removed while a batch is loading it. -/
def Spares (s : Loaders) : Event → Prop
  | .removePrograms keys => ∀ thread b key, s.Loading thread b key → key ∉ keys
  | _ => True

def idle (cache : LoadedPrograms) : Loaders := { cache, batches := fun _ => none }

section Locks
variable {s s' : Loaders} {thread : Nat} {b : LoadingBatch} {c : LoadedPrograms} {key : Pubkey}

theorem lockOf_finish (c : LoadedPrograms) (key : Pubkey) (program : LoadedProgram) (k : Pubkey) :
    (c.finishCooperativeLoadingTask key program).1.lockOf k =
      if k = key then none else c.lockOf k := by
  simp only [lockOf, finishCooperativeLoadingTask, assignProgram, withEntry, update_apply]
  split_ifs <;> rfl

theorem exists_sameSlots_finish (c : LoadedPrograms) (key : Pubkey) (program : LoadedProgram) :
    ∃ v ∈ ((c.finishCooperativeLoadingTask key program).1.entries key).slotVersions,
      v.SameSlots program := by
  have hversions : ((c.finishCooperativeLoadingTask key program).1.entries key).slotVersions =
      (assign program (c.entries key).slotVersions).1 := by
    simp [finishCooperativeLoadingTask, assignProgram,
      withEntry, SecondLevel.assign, SecondLevel.withLock]
  rw [hversions]
  obtain ⟨older, same, newer, hvs, _, hsame, _, ⟨_, hassign⟩ | ⟨⟨v, hv, _⟩, hassign⟩⟩ :=
    assign_split program (c.entries key).sorted
  · rw [hassign]
    exact ⟨program, by simp, rfl, rfl⟩
  · rw [hassign, hvs]
    exact ⟨v, by simp [hv], hsame v hv⟩

theorem exclusive_of_held (h : ∀ {thread b key}, s.Loading thread b key →
    s.cache.lockOf key = some (b.slot, thread)) : s.Exclusive where
  held := h
  one := fun hfirst hsecond => by
    have hlock := (h hfirst).symm.trans (h hsecond)
    exact (Prod.mk.inj (some.inj hlock)).2
  finished := fun {_ _ key} program _ =>
    ⟨by rw [lockOf_finish, if_pos rfl], exists_sameSlots_finish s.cache key program⟩

theorem lockOf_extract (c : LoadedPrograms) (thread : Nat) (batch : LoadedProgramsForTxBatch)
    (xs : List ProgramSearch) (k : Pubkey) :
    (c.extract thread batch none xs).cache.lockOf k =
      if (c.nextTask batch xs).map ProgramSearch.key = some k then some (batch.slot, thread)
      else c.lockOf k := by
  rw [extract_eq]
  cases c.nextTask batch xs with
  | none => rfl
  | some x =>
    by_cases hk : k = x.key
    · subst hk
      simp [lockOf, withEntry, SecondLevel.withLock]
    · simp [lockOf, withEntry, update_of_ne hk, Ne.symm hk]

theorem lockOf_nextTask {batch : LoadedProgramsForTxBatch} {xs : List ProgramSearch}
    (h : (c.nextTask batch xs).map ProgramSearch.key = some key) : c.lockOf key = none := by
  obtain ⟨x, hx, rfl⟩ := map_eq_some_iff.mp h
  have hfree := List.find?_some hx
  exact isNone_iff_eq_none.mp hfree

theorem next_spec {b' : LoadingBatch} (h : b.next thread c = some b') :
    b'.slot = b.slot ∧
      b'.programToLoad = (c.nextTask (b.txBatch c) b.missingPrograms).map ProgramSearch.key := by
  unfold LoadingBatch.next at h
  dsimp only at h
  split_ifs at h
  cases h
  refine ⟨rfl, ?_⟩
  dsimp only
  rw [extract_eq, map_map]
  rfl

theorem takeTask_exclusive (hothers : ∀ {t b' k}, t ≠ thread → s.Loading t b' k →
    c.lockOf k = some (b'.slot, t)) : (s.takeTask thread b c).Exclusive := by
  refine exclusive_of_held fun {t b' k} hloading => ?_
  obtain ⟨hb', htask⟩ := hloading
  rw [takeTask, lockOf_extract]
  by_cases ht : t = thread
  · subst ht
    simp only [takeTask, update_self] at hb'
    obtain ⟨hslot, hnext⟩ := next_spec hb'
    rw [if_pos (hnext.symm.trans htask), b.txBatch_slot, hslot]
  · simp only [takeTask, update_of_ne ht] at hb'
    have hlock := hothers ht ⟨hb', htask⟩
    rw [if_neg, hlock]
    intro hnext
    rw [lockOf_nextTask hnext] at hlock
    cases hlock

variable {e : Event}

theorem Exclusive.enter (h : s.Exclusive) {thread : Nat} {program : LoadedProgram}
    (hstep : s.step (.enter thread program) = some s') : s'.Exclusive := by
  rw [step, map_eq_some_iff] at hstep
  obtain ⟨b, hb, rfl⟩ := hstep
  cases hkey : b.programToLoad with
  | none => exact takeTask_exclusive fun _ hloading => h.held hloading
  | some key =>
    have hothers : ∀ {t b' k}, t ≠ thread → s.Loading t b' k →
        (s.cache.finishCooperativeLoadingTask key program).1.lockOf k = some (b'.slot, t) := by
      intro t b' k ht hloading
      have hk : k ≠ key := by
        rintro rfl
        exact ht (h.one hloading ⟨hb, hkey⟩)
      rw [lockOf_finish, if_neg hk, h.held hloading]
    dsimp only
    split
    · refine exclusive_of_held fun {t b' k} hloading => ?_
      obtain ⟨hb', htask⟩ := hloading
      by_cases ht : t = thread
      · simp [ht] at hb'
      · exact hothers ht ⟨by simpa [ht] using hb', htask⟩
    · exact takeTask_exclusive hothers

theorem Exclusive.start (h : s.Exclusive) {thread : Nat} {slot : Slot} {epoch : Epoch}
    {limit : Bool}
    {missing : List ProgramSearch}
    (hstep : s.step (.start thread slot epoch limit missing) = some s') : s'.Exclusive := by
  rw [step] at hstep
  split_ifs at hstep
  cases hstep
  refine exclusive_of_held fun {t b key} hloading => ?_
  obtain ⟨hb, htask⟩ := hloading
  by_cases ht : t = thread
  · simp only [ht, update_self, some_inj] at hb
    rw [← hb] at htask
    cases htask
  · exact h.held ⟨by simpa [ht] using hb, htask⟩

theorem lockOf_removePrograms (c : LoadedPrograms) (keys : List Pubkey) (key : Pubkey) :
    (c.removePrograms keys).lockOf key = if key ∈ keys then none else c.lockOf key := by
  unfold lockOf removePrograms
  dsimp only
  split_ifs <;> rfl

/-- Removing a program drops its lock, so that the batch that is loading it no longer holds it. -/
theorem Exclusive.remove_iff (h : s.Exclusive) (keys : List Pubkey) :
    ({ s with cache := s.cache.removePrograms keys } : Loaders).Exclusive ↔
      ∀ thread b key, s.Loading thread b key → key ∉ keys := by
  constructor
  · intro h' thread b key hloading hkey
    have hlock := @Exclusive.held _ h' thread b key hloading
    rw [lockOf_removePrograms, if_pos hkey] at hlock
    cases hlock
  · intro hspares
    refine exclusive_of_held fun {thread b key} hloading => ?_
    rw [lockOf_removePrograms, if_neg (hspares thread b key hloading)]
    exact h.held hloading

/-- Pruning keeps all locks. -/
theorem Exclusive.step_iff (h : s.Exclusive) (hstep : s.step e = some s') :
    s'.Exclusive ↔ s.Spares e := by
  cases e with
  | start => exact iff_of_true (h.start hstep) trivial
  | enter => exact iff_of_true (h.enter hstep) trivial
  | prune =>
    cases hstep
    exact iff_of_true (exclusive_of_held h.held) trivial
  | pruneByDeploymentSlot =>
    cases hstep
    exact iff_of_true (exclusive_of_held h.held) trivial
  | removePrograms keys =>
    cases hstep
    exact h.remove_iff keys

end Locks

/-- In every run from a cache without batches, the loading tasks are exclusive in every state
exactly if no step removes a program that a batch is loading. -/
theorem exclusive_iff (cache : LoadedPrograms) {es : List Event} {s : Loaders}
    (hrun : Machine.Run step (idle cache) es s) :
    Machine.StaysGood step Exclusive (idle cache) es ↔
      Machine.GuardedRun step Spares (idle cache) es s :=
  Machine.staysGood_iff_guardedRun (fun _ _ _ (_ : True) _ _ => trivial)
    (fun _ _ _ _ h hstep => h.step_iff hstep) hrun trivial
    (exclusive_of_held fun hloading => absurd hloading.1 (by simp [idle]))

def noPrograms : LoadedPrograms where
  entries := fun _ => .default
  latestRootSlot := 0
  latestRootEpoch := 0
  environments := { programRuntimeV1 := 0, programRuntimeV2 := 1 }
  upcomingEnvironments := none
  forkGraph := fun _ _ => .unknown

/-- Two batches that need the same program, of which the first one starts to load it. -/
def sharedStart : List Event :=
  [.start 0 5 0 false [{ key := .ofNat 7, criteria := .noCriteria, count := 1 }],
    .start 1 5 0 false [{ key := .ofNat 7, criteria := .noCriteria, count := 1 }],
    .enter 0 (.newTombstone 5 .closed)]

/-- While the first batch loads the program, it is pruned, and the second batch waits. -/
theorem exclusive_of_prune : ∃ s, Machine.Run step (idle noPrograms)
      (sharedStart ++ [.prune 5 0, .enter 1 (.newTombstone 5 .closed)]) s ∧
    Machine.StaysGood step Exclusive (idle noPrograms)
      (sharedStart ++ [.prune 5 0, .enter 1 (.newTombstone 5 .closed)]) := by
  have hrun := (Machine.run_iff_exec step).mpr (Eq.refl (Machine.exec step (idle noPrograms)
    (sharedStart ++ [.prune 5 0, .enter 1 (.newTombstone 5 .closed)])))
  refine ⟨_, hrun, (exclusive_iff noPrograms hrun).mpr ?_⟩
  exact .cons trivial rfl (.cons trivial rfl (.cons trivial rfl (.cons trivial rfl
    (.cons trivial rfl (.nil _)))))

/-- The program is removed while the first batch loads it.  The second batch takes the lock and
loads it as well, and the assertion of `finish_cooperative_loading_task` fails for the first. -/
theorem removed_while_loading : ∃ s, Machine.Run step (idle noPrograms)
      (sharedStart ++ [.removePrograms [.ofNat 7], .enter 1 (.newTombstone 5 .closed)]) s ∧
    (s.batches 0).bind LoadingBatch.programToLoad = some (.ofNat 7) ∧
    (s.batches 1).bind LoadingBatch.programToLoad = some (.ofNat 7) ∧
    s.cache.lockOf (.ofNat 7) = some (5, 1) :=
  ⟨_, (Machine.run_iff_exec step).mpr rfl, rfl, rfl, rfl⟩

end Loaders
end Hypergrid
