import Hypergrid.LoadProgram

/-!
# Filling the program cache for a batch

The model of `replenish_program_cache` of `runtime/src/bank.rs`.  The loop has no bound of its
own, so the model has fuel and an outcome for a loop that is still running.

* `run_step` : one round of the loop, when no other batch is loading its programs.
* `run_returns`, `run_not_returned` : without the limit on loaded programs, the loop returns
  exactly when every program is found in the cache, at the latest after it was loaded once.
* `run_limited_returns` : with the limit the loop always returns.
* `run_nonexistent` : where the loop crashes.
-/

namespace Hypergrid
open LoadedPrograms Bank List LoadedProgramsForTxBatch

/-- The outcome of `replenish_program_cache`. -/
inductive ReplenishOutcome where
  /-- the loop is still running when the fuel is used up -/
  | running
  /-- all missing programs are being loaded by other batches -/
  | waiting
  /-- `expect("called load_program() with nonexistent account")` -/
  | nonexistentAccount (key : Pubkey)
  /-- the panic of `new_internal` -/
  | noLoader (key : Pubkey)
  | returned (batch : LoadedProgramsForTxBatch)

/-- The batch that the loop returned. -/
def ReplenishOutcome.batch? : ReplenishOutcome → Option LoadedProgramsForTxBatch
  | returned batch => some batch
  | _ => none

/-- `program_accounts_map`: the owner of a program and how often it occurs.  The order of the
list is the iteration order of the hash map. -/
abbrev ProgramAccountsMap := List (Pubkey × Pubkey × Nat)

namespace Bank

variable (platform : Platform) (bank : Bank) (threadId : Nat) (limitToLoadPrograms : Bool)

def missingPrograms : ProgramAccountsMap → Reads (List ProgramSearch)
  | [] => return []
  | (key, _, count) :: rest => do
      let criteria ← bank.matchCriteria key
      let xs ← missingPrograms rest
      return { key, criteria, count } :: xs

/-- The loop of `replenish_program_cache`. -/
def replenishLoop : Nat → LoadedPrograms → List ProgramSearch → LoadedProgramsForTxBatch →
    Option (Pubkey × LoadedProgram) → Reads (LoadedPrograms × ReplenishOutcome)
  | 0, cache, _, _, _ => return (cache, .running)
  | fuel + 1, cache, missing, batch, programToStore =>
    let stored :=
      match programToStore with
      | some (key, program) => cache.finishCooperativeLoadingTask key program
      | none => (cache, false)
    if stored.2 && limitToLoadPrograms then
      return (stored.1, .returned
        { LoadedProgramsForTxBatch.newFromCache bank.slot bank.epoch stored.1 with
          hitMaxLimit := true })
    else
      let r := stored.1.extract threadId batch none missing
      match r.cooperativeLoadingTask with
      | some (key, _) => do
          match ← bank.loadProgram platform r.cache key false false with
          | .nonexistent => return (r.cache, .nonexistentAccount key)
          | .panicked => return (r.cache, .noLoader key)
          | .loaded program =>
            replenishLoop fuel r.cache r.searchFor r.batch (some (key, program))
      | none =>
        if r.searchFor.isEmpty then return (r.cache, .returned r.batch)
        else return (r.cache, .waiting)

def replenishProgramCache (fuel : Nat) (cache : LoadedPrograms)
    (programAccountsMap : ProgramAccountsMap) : Reads (LoadedPrograms × ReplenishOutcome) := do
  let missing ← bank.missingPrograms programAccountsMap
  bank.replenishLoop platform threadId limitToLoadPrograms fuel cache missing
    (LoadedProgramsForTxBatch.newFromCache bank.slot bank.epoch cache) none

end Bank

namespace LoadedPrograms

variable {environments : ProgramRuntimeEnvironments} {c : LoadedPrograms} {x : ProgramSearch}

/-- No other batch is loading one of these programs. -/
def Free (c : LoadedPrograms) (xs : List ProgramSearch) : Prop :=
  ∀ x ∈ xs, (c.entries x.key).cooperativeLoadingLock = none

/-- `finish_cooperative_loading_task` gives back the lock that `extract` took. -/
theorem finish_withLock {key : Pubkey} (lock : Option (Slot × Nat))
    (program : LoadedProgram) (hfree : (c.entries key).cooperativeLoadingLock = none) :
    (c.withEntry key ((c.entries key).withLock lock)).finishCooperativeLoadingTask key program =
      c.assignProgram key program := by
  have hback : ((c.entries key).withLock lock).withLock none = c.entries key := by
    unfold SecondLevel.withLock
    rw [← hfree]
  simp [finishCooperativeLoadingTask, assignProgram, withEntry, hback]

theorem assignProgram_lock (c : LoadedPrograms) (key k : Pubkey) (program : LoadedProgram) :
    ((c.assignProgram key program).1.entries k).cooperativeLoadingLock =
      (c.entries k).cooperativeLoadingLock := by
  simp only [assignProgram, withEntry, Function.update_apply]
  split_ifs with h
  · rw [h]
    rfl
  · rfl

theorem Free.assignProgram {xs : List ProgramSearch} (h : c.Free xs)
    (key : Pubkey) (program : LoadedProgram) : (c.assignProgram key program).1.Free xs := by
  intro x hx
  rw [assignProgram_lock]
  exact h x hx

theorem lookup_assignProgram_self {slot : Slot} (program : LoadedProgram) :
    (c.assignProgram x.key program).1.lookup slot environments x =
      c.scan slot environments x.criteria
        (assign program (c.entries x.key).slotVersions).1.reverse := by
  rw [assignProgram, lookup_withEntry, if_pos rfl]
  rfl

theorem assign_again (s : SecondLevel) (program : LoadedProgram) :
    (s.assign program).assign program = s.assign program := by
  simp only [SecondLevel.assign, assign_idempotent]

theorem assignProgram_again (c : LoadedPrograms) (key : Pubkey) (program : LoadedProgram) :
    (c.assignProgram key program).1.assignProgram key program =
      ((c.assignProgram key program).1, true) := by
  simp only [assignProgram, withEntry, Function.update_self, Function.update_idem, assign_again]
  simp only [SecondLevel.assign, assign_idempotent]

end LoadedPrograms

variable {platform : Platform} {bank : Bank} {threadId : Nat} {limit : Bool}
  {view : Pubkey → Option AccountSharedData}

section Run
variable {c : LoadedPrograms} {batch : LoadedProgramsForTxBatch} {fuel : Nat}
variable {xs : List ProgramSearch} {x : ProgramSearch} {program : LoadedProgram}
  {rest : List ProgramSearch} {key : Pubkey}

/-- The result of the loop at the start of a round, with nothing to store. -/
def Bank.run (platform : Platform) (bank : Bank) (threadId : Nat) (limit : Bool)
    (view : Pubkey → Option AccountSharedData) (fuel : Nat) (c : LoadedPrograms)
    (xs : List ProgramSearch) (batch : LoadedProgramsForTxBatch) :
    LoadedPrograms × ReplenishOutcome :=
  (bank.replenishLoop platform threadId limit fuel c xs batch none).eval
    (fun r => view r.key)

/-- What `load_program` returns for a key. -/
def Bank.load (platform : Platform) (bank : Bank)
    (view : Pubkey → Option AccountSharedData) (c : LoadedPrograms) (key : Pubkey) :
    ProgramLoad :=
  (bank.loadProgram platform c key false false).eval (fun r => view r.key)

@[simp] theorem load_assignProgram (c : LoadedPrograms) (key key' : Pubkey)
    (program : LoadedProgram) :
    bank.load platform view (c.assignProgram key program).1 key' =
      bank.load platform view c key' := rfl

theorem run_of_nil
    (hfree : c.Free xs) (hnil : c.missing batch xs = []) :
    bank.run platform threadId limit view (fuel + 1) c xs batch =
      (c, .returned (c.fill batch xs)) := by
  simp [run, replenishLoop, extract_eq, nextTask_of_free _ hfree, hnil]

theorem run_of_cons
    (hfree : c.Free xs) (hcons : c.missing batch xs = x :: rest) :
    bank.run platform threadId limit view (fuel + 1) c xs batch =
      match bank.load platform view c x.key with
      | .nonexistent =>
        (c.withEntry x.key ((c.entries x.key).withLock (some (batch.slot, threadId))),
          .nonexistentAccount x.key)
      | .panicked =>
        (c.withEntry x.key ((c.entries x.key).withLock (some (batch.slot, threadId))),
          .noLoader x.key)
      | .loaded program =>
        (bank.replenishLoop platform threadId limit fuel
          (c.withEntry x.key ((c.entries x.key).withLock (some (batch.slot, threadId))))
          (x :: rest) (c.fill batch xs) (some (x.key, program))).eval
            (fun r => view r.key) := by
  simp only [run, replenishLoop, extract_eq, nextTask_of_free _ hfree, hcons, Bool.false_and,
    Bool.false_eq_true, if_false, head?_cons, Option.map_some, ReadM.eval_bind]
  rw [show (bank.loadProgram platform (c.withEntry x.key
      ((c.entries x.key).withLock (some (batch.slot, threadId)))) x.key false false).eval
        (fun r => view r.key) = bank.load platform view c x.key from rfl]
  cases bank.load platform view c x.key <;> rfl

theorem loop_store
    (lock : Option (Slot × Nat))
    (hfree : (c.entries key).cooperativeLoadingLock = none) :
    (bank.replenishLoop platform threadId limit (fuel + 1)
        (c.withEntry key ((c.entries key).withLock lock)) xs batch
        (some (key, program))).eval (fun r => view r.key) =
      if (c.assignProgram key program).2 && limit then
        ((c.assignProgram key program).1, .returned
          { newFromCache bank.slot bank.epoch
              (c.assignProgram key program).1 with
            hitMaxLimit := true })
      else
        bank.run platform threadId limit view (fuel + 1) (c.assignProgram key program).1 xs
          batch := by
  simp only [run, replenishLoop, finish_withLock lock program hfree]
  split_ifs <;> simp_all

/-- The loop goes from one round to the next, or ends after it stored a program. -/
theorem run_of_loaded
    (hfree : c.Free xs) (hcons : c.missing batch xs = x :: rest)
    (hload : bank.load platform view c x.key = .loaded program) :
    bank.run platform threadId limit view (fuel + 2) c xs batch =
      if (c.assignProgram x.key program).2 && limit then
        ((c.assignProgram x.key program).1, .returned
          { newFromCache bank.slot bank.epoch
              (c.assignProgram x.key program).1 with
            hitMaxLimit := true })
      else
        bank.run platform threadId limit view (fuel + 1) (c.assignProgram x.key program).1
          (x :: rest) (c.fill batch xs) := by
  have hx : x ∈ xs := by
    have hmem : x ∈ c.missing batch xs := by simp [hcons]
    exact (mem_filter.mp hmem).1
  rw [run_of_cons hfree hcons, hload]
  exact loop_store (some (batch.slot, threadId)) (hfree x hx)

/-- The cache has an entry for the search. -/
def Bank.Found (bank : Bank) (c : LoadedPrograms) (x : ProgramSearch) : Prop :=
  (c.lookup bank.slot (bank.environments c) x).isSome = true

/-- The cache has an entry for the search, or has one once the program was loaded. -/
def Bank.Refills (platform : Platform) (bank : Bank)
    (view : Pubkey → Option AccountSharedData) (c : LoadedPrograms) (x : ProgramSearch) :
    Prop :=
  bank.Found c x ∨ ∃ program, bank.load platform view c x.key = .loaded program ∧
    bank.Found (c.assignProgram x.key program).1 x

def Bank.Serves (bank : Bank) (c : LoadedPrograms) (batch : LoadedProgramsForTxBatch) : Prop :=
  batch.slot = bank.slot ∧ batch.environments = bank.environments c

theorem mem_missing_iff (hbatch : bank.Serves c batch) :
    x ∈ c.missing batch xs ↔ x ∈ xs ∧ ¬bank.Found c x := by
  rw [missing, mem_filter, hbatch.1, hbatch.2, Bank.Found]
  simp

theorem Bank.Serves.next (h : bank.Serves c batch) (key : Pubkey) (program : LoadedProgram)
    (xs : List ProgramSearch) :
    bank.Serves (c.assignProgram key program).1 (c.fill batch xs) := by
  constructor
  · rw [fill_slot]
    exact h.1
  · rw [fill_environments]
    exact h.2

theorem found_assignProgram_of_ne (program : LoadedProgram) (h : x.key ≠ key) :
    bank.Found (c.assignProgram key program).1 x ↔ bank.Found c x := by
  unfold Bank.Found
  rw [assignProgram, lookup_withEntry, if_neg h]
  rfl

theorem refills_assignProgram_of_ne (program : LoadedProgram) (h : x.key ≠ key) :
    bank.Refills platform view (c.assignProgram key program).1 x ↔
      bank.Refills platform view c x := by
  unfold Bank.Refills
  simp only [found_assignProgram_of_ne program h, load_assignProgram]
  refine or_congr_right (exists_congr fun program' => and_congr_right fun _ => ?_)
  have hentry : (c.assignProgram key program).1.entries x.key = c.entries x.key := by
    simp [assignProgram, withEntry, h]
  unfold Bank.Found
  rw [lookup_assignProgram_self, lookup_assignProgram_self, hentry, scan_eq_find, scan_eq_find]
  rfl

/-- Storing the program of a key once more does not help its search. -/
theorem refills_assignProgram_self (hload : bank.load platform view c x.key = .loaded program)
    (h : bank.Refills platform view (c.assignProgram x.key program).1 x) :
    bank.Found (c.assignProgram x.key program).1 x := by
  rcases h with hfound | ⟨program', hload', hfound⟩
  · exact hfound
  · rw [load_assignProgram, hload] at hload'
    cases hload'
    rwa [assignProgram_again] at hfound

theorem not_refills_step {x y : ProgramSearch}
    (hload : bank.load platform view c y.key = .loaded program)
    (hx : ¬bank.Refills platform view c x) :
    ¬bank.Refills platform view (c.assignProgram y.key program).1 x := by
  by_cases hkey : x.key = y.key
  · rw [← hkey] at hload ⊢
    exact fun h => hx (.inr ⟨program, hload, refills_assignProgram_self hload h⟩)
  · rwa [refills_assignProgram_of_ne program hkey]

theorem refills_step {x y : ProgramSearch}
    (hload : bank.load platform view c y.key = .loaded program)
    (hmissing : ¬bank.Found c x) (hx : bank.Refills platform view c x) :
    bank.Refills platform view (c.assignProgram y.key program).1 x := by
  by_cases hkey : x.key = y.key
  · rcases hx with hfound | ⟨program', hload', hfound⟩
    · exact absurd hfound hmissing
    · rw [hkey, hload] at hload'
      cases hload'
      rw [← hkey]
      exact .inl hfound
  · rwa [refills_assignProgram_of_ne program hkey]

theorem missing_cons_subset
    (hcons : c.missing batch xs = x :: rest) : ∀ y ∈ x :: rest, y ∈ xs := by
  intro y hy
  rw [← hcons] at hy
  exact (mem_filter.mp hy).1

theorem free_next (hfree : c.Free xs) (hcons : c.missing batch xs = x :: rest) :
    (c.assignProgram key program).1.Free (x :: rest) := fun y hy =>
  hfree.assignProgram key program y (missing_cons_subset hcons y hy)

theorem run_returns_of_nil (hfree : c.Free xs) (hnil : c.missing batch xs = []) :
    (bank.run platform threadId limit view (fuel + 1) c xs batch).2.batch?.isSome = true := by
  rw [run_of_nil hfree hnil]
  rfl

theorem length_missing_lt (hbatch : bank.Serves c batch) (hfound : bank.Found c x) :
    (c.missing batch (x :: rest)).length ≤ rest.length := by
  have hx : (c.lookup batch.slot batch.environments x).isNone = false := by
    rw [hbatch.1, hbatch.2, Option.isNone_eq_false_iff]
    exact hfound
  rw [missing, filter_cons, hx]
  exact length_filter_le _ rest

variable (hfree : c.Free xs) (hbatch : bank.Serves c batch)
include hfree hbatch

/-- When every missing program is found once it was loaded, the loop returns after as many
rounds as there are missing programs. -/
theorem run_returns {m : Nat} (hlength : (c.missing batch xs).length ≤ m)
    (hrefills : ∀ x ∈ c.missing batch xs, bank.Refills platform view c x) :
    (bank.run platform threadId limit view (m + 1) c xs batch).2.batch?.isSome = true := by
  induction m generalizing c xs batch with
  | zero =>
    exact run_returns_of_nil hfree (length_eq_zero_iff.mp (Nat.le_zero.mp hlength))
  | succ m ih =>
    cases hcons : c.missing batch xs with
    | nil => exact run_returns_of_nil hfree hcons
    | cons x rest =>
      have hmiss : ∀ y ∈ x :: rest, ¬bank.Found c y := by
        intro y hy
        rw [← hcons] at hy
        exact ((mem_missing_iff hbatch).mp hy).2
      rw [hcons] at hrefills hlength
      -- the first missing program is loaded, and found in the next round
      rcases hrefills x mem_cons_self with hfound | ⟨program, hload, hfound⟩
      · exact absurd hfound (hmiss x mem_cons_self)
      · rw [run_of_loaded hfree hcons hload]
        split_ifs
        · rfl
        · have hbatch' := hbatch.next x.key program xs
          refine ih (free_next hfree hcons) hbatch' ?_ ?_
          · exact le_trans (length_missing_lt hbatch' hfound)
              (Nat.le_of_succ_le_succ hlength)
          · intro y hy
            have hmem := ((mem_missing_iff hbatch').mp hy).1
            exact refills_step hload (hmiss y hmem) (hrefills y hmem)

/-- Without the limit, one program that is not found after it was loaded keeps the loop from
returning, however long it runs. -/
theorem run_not_returned (hx : x ∈ xs) (hstuck : ¬bank.Refills platform view c x) :
    (bank.run platform threadId false view fuel c xs batch).2.batch? = none := by
  induction fuel generalizing c xs batch with
  | zero => rfl
  | succ fuel ih =>
    have hmem : x ∈ c.missing batch xs :=
      (mem_missing_iff hbatch).mpr ⟨hx, fun h => hstuck (.inl h)⟩
    cases hcons : c.missing batch xs with
    | nil => simp [hcons] at hmem
    | cons y rest =>
      cases hload : bank.load platform view c y.key with
      | nonexistent =>
        rw [run_of_cons hfree hcons, hload]
        rfl
      | panicked =>
        rw [run_of_cons hfree hcons, hload]
        rfl
      | loaded program =>
        cases fuel with
        | zero =>
          rw [run_of_cons hfree hcons, hload]
          rfl
        | succ fuel =>
          rw [run_of_loaded hfree hcons hload, Bool.and_false]
          exact ih (free_next hfree hcons) (hbatch.next y.key program xs) (hcons ▸ hmem)
            (not_refills_step hload hstuck)

theorem run_limited_returns {m : Nat} (hlength : (c.missing batch xs).length ≤ m)
    (hloads : ∀ x ∈ c.missing batch xs,
      ∃ program, bank.load platform view c x.key = .loaded program) :
    (bank.run platform threadId true view (m + 2) c xs batch).2.batch?.isSome = true := by
  induction m generalizing c xs batch with
  | zero =>
    exact run_returns_of_nil hfree (length_eq_zero_iff.mp (Nat.le_zero.mp hlength))
  | succ m ih =>
    cases hcons : c.missing batch xs with
    | nil => exact run_returns_of_nil hfree hcons
    | cons x rest =>
      rw [hcons] at hloads
      obtain ⟨program, hload⟩ := hloads x mem_cons_self
      have hfree' : (c.assignProgram x.key program).1.Free (x :: rest) := free_next hfree hcons
      have hbatch' := hbatch.next x.key program xs
      rw [run_of_loaded hfree hcons hload]
      split_ifs
      · rfl
      · by_cases hfound : bank.Found (c.assignProgram x.key program).1 x
        · refine ih hfree' hbatch' ?_
            (fun y hy => hloads y ((mem_missing_iff hbatch').mp hy).1)
          rw [hcons] at hlength
          exact le_trans (length_missing_lt hbatch' hfound)
            (Nat.le_of_succ_le_succ hlength)
        · -- the same program is loaded again, and its place is occupied now
          have hcons' : ∃ rest', (c.assignProgram x.key program).1.missing
              (c.fill batch xs) (x :: rest) = x :: rest' := by
            have hx : ((c.assignProgram x.key program).1.lookup (c.fill batch xs).slot
                (c.fill batch xs).environments x).isNone = true := by
              rw [hbatch'.1, hbatch'.2]
              simpa [Bank.Found] using hfound
            exact ⟨_, by rw [missing, filter_cons, if_pos hx]⟩
          obtain ⟨rest', hcons'⟩ := hcons'
          rw [run_of_loaded hfree' hcons' hload, assignProgram_again]
          rfl

theorem run_nonexistent
    (h : (bank.run platform threadId limit view fuel c xs batch).2 = .nonexistentAccount key) :
    ∃ x ∈ xs, x.key = key ∧ ¬bank.Found c x ∧ bank.load platform view c key = .nonexistent := by
  induction fuel generalizing c xs batch with
  | zero => cases h
  | succ fuel ih =>
    cases hcons : c.missing batch xs with
    | nil =>
      rw [run_of_nil hfree hcons] at h
      cases h
    | cons y rest =>
      have hsub := missing_cons_subset hcons
      have hy : y ∈ c.missing batch xs := by simp [hcons]
      cases hload : bank.load platform view c y.key with
      | nonexistent =>
        rw [run_of_cons hfree hcons, hload] at h
        cases h
        exact ⟨y, hsub y mem_cons_self, rfl, ((mem_missing_iff hbatch).mp hy).2, hload⟩
      | panicked =>
        rw [run_of_cons hfree hcons, hload] at h
        cases h
      | loaded program =>
        cases fuel with
        | zero =>
          rw [run_of_cons hfree hcons, hload] at h
          cases h
        | succ fuel =>
          rw [run_of_loaded hfree hcons hload] at h
          split_ifs at h
          obtain ⟨x, hx, rfl, hnot, hnone⟩ := ih (free_next hfree hcons)
            (hbatch.next y.key program xs) h
          rw [load_assignProgram] at hnone
          -- the key that crashes is not the one that was just loaded
          have hne : x.key ≠ y.key := by
            intro heq
            rw [heq, hload] at hnone
            cases hnone
          rw [found_assignProgram_of_ne program hne] at hnot
          exact ⟨x, hsub x hx, rfl, hnot, hnone⟩

end Run

section Fills
variable {cache : LoadedPrograms}
variable {x : Pubkey × Pubkey × Nat} {st : ProgramState}

/-- The search for a program of the map. -/
def Bank.search (bank : Bank) (view : Pubkey → Option AccountSharedData)
    (x : Pubkey × Pubkey × Nat) : ProgramSearch :=
  { key := x.1, criteria := (bank.matchCriteria x.1).eval (fun r => view r.key), count := x.2.2 }

theorem missingPrograms_eval (map : ProgramAccountsMap) :
    (bank.missingPrograms map).eval (fun r => view r.key) = map.map (bank.search view) := by
  induction map with
  | nil => rfl
  | cons x xs ih =>
    obtain ⟨key, owner, count⟩ := x
    simp [missingPrograms, ih, search]

/-- Over a fixed view, `replenish_program_cache` is its loop. -/
theorem replenishProgramCache_eval (fuel : Nat) (map : ProgramAccountsMap) :
    (bank.replenishProgramCache platform threadId limit fuel cache map).eval
        (fun r => view r.key) =
      bank.run platform threadId limit view fuel cache (map.map (bank.search view))
        (newFromCache bank.slot bank.epoch cache) := by
  rw [replenishProgramCache, ReadM.eval_bind, missingPrograms_eval]
  rfl

theorem serves_newFromCache : bank.Serves cache (newFromCache bank.slot bank.epoch cache) :=
  ⟨rfl, rfl⟩

/-- The cache can be refilled with the program: the search is answered already, or the slot
at which the entry counts as deployed is on the fork of the bank and not in its future, no
newer entry of the program stops the search, and no entry of the same kind has its place. -/
def Bank.CanRefill (platform : Platform) (bank : Bank)
    (view : Pubkey → Option AccountSharedData) (cache : LoadedPrograms)
    (x : Pubkey × Pubkey × Nat) (st : ProgramState) : Prop :=
  bank.Found cache (bank.search view x) ∨
    (cache.onFork (st.deploymentSlot platform.vm (bank.environments cache) bank.slot)
          bank.slot = true ∧
        st.deploymentSlot platform.vm (bank.environments cache) bank.slot ≤ bank.slot) ∧
      (∀ v ∈ (cache.entries x.1).slotVersions, (bank.builtEntry platform cache st).Before v →
        cache.stops bank.slot (bank.environments cache) v = false) ∧
      ∀ v ∈ (cache.entries x.1).slotVersions,
        v.SameSlots (bank.builtEntry platform cache st) → v.program.discriminant ≠
          (st.kind platform.vm (bank.environments cache)).discriminant

/-- When entry and criterion agree, loading the program refills the cache exactly under the
condition on the cache. -/
theorem refills_iff_canRefill (hcheck : bank.checkProgramModificationSlot = true)
    (hstate : programState view x.1 = some st) (hloader : st.HasLoader)
    (hagrees : st.Agrees platform.vm (bank.environments cache) bank.slot) :
    bank.Refills platform view cache (bank.search view x) ↔
      bank.CanRefill platform view cache x st := by
  have hload : bank.load platform view cache (bank.search view x).key =
      .loaded (bank.builtEntry platform cache st) := loadProgram_eval hstate hloader
  have hmatch := (@matches_criterion_iff platform bank cache view x.1 st hcheck hstate).mpr
    hagrees
  have hiff := scan_assign_isSome_iff (cache.entries x.1).sorted
    (builtEntry_effectiveSlot hloader).1 (stops_builtEntry_iff hloader)
    (fun _ => answer_builtEntry_isSome hmatch)
  rw [stops_builtEntry_iff hloader, builtEntry_program, builtEntry_deploymentSlot] at hiff
  refine .trans ?_ hiff
  refine or_congr_right ⟨?_, ?_⟩
  · rintro ⟨program, hload', hfound⟩
    rw [hload] at hload'
    cases hload'
    rwa [Bank.Found, lookup_assignProgram_self] at hfound
  · intro hscan
    refine ⟨_, hload, ?_⟩
    rw [Bank.Found, lookup_assignProgram_self]
    exact hscan

/-- The bank sees an account of one of the four loaders. -/
def AccountsDb.HasProgram (db : AccountsDb) (ancestors : Finset Slot) (k : Pubkey) : Prop :=
  ∃ program, db.seen ancestors k = some program ∧ program.owner ∈ programOwners

theorem exists_programState {db : AccountsDb} {ancestors : Finset Slot} {k : Pubkey}
    (h : db.HasProgram ancestors k) :
    ∃ st, programState (db.seen ancestors) k = some st ∧ st.HasLoader := by
  obtain ⟨program, hview, howner⟩ := h
  have hstate : ∃ st, programState (db.seen ancestors) k = some st := by
    simp [programState, hview]
  obtain ⟨st, hstate⟩ := hstate
  exact ⟨st, hstate, hasLoader_of_owner hview hstate howner⟩

/-- The entries that are built meet their criteria, and the cache is filled after finitely
many rounds, exactly when for every program the two deployment slots agree and the cache can
be refilled with it.  The limit on loaded programs makes up for the second condition.  The
map may have keys without such an account, as the builtin programs, if they are cached. -/
theorem fillsProgramCache_iff
    (db : AccountsDb)
    (hwf : db.WellFormed)
    (platform : Platform)
    (bank : Bank)
    (threadId : Nat)
    (limit : Bool)
    (cache : LoadedPrograms)
    (map : ProgramAccountsMap)
    (hcheck : bank.checkProgramModificationSlot = true)
    (hkeys : ∀ x ∈ map, db.HasProgram bank.ancestors x.1 ∨
      bank.Found cache (bank.search (db.seen bank.ancestors) x))
    (hfree : ∀ x ∈ map, (cache.entries x.1).cooperativeLoadingLock = none) :
    ((∀ x ∈ map, db.HasProgram bank.ancestors x.1 → ∃ entry,
          (db.runReads bank.ancestors
            (bank.loadProgram platform cache x.1 false false)).2 = .loaded entry ∧
          LoadedPrograms.matchesLoadedProgramCriteria entry
            (db.runReads bank.ancestors (bank.matchCriteria x.1)).2 = true) ∧
        ∃ fuel, (db.runReads bank.ancestors (bank.replenishProgramCache platform threadId
          limit fuel cache map)).2.2.batch?.isSome = true) ↔
      ∀ x ∈ map, db.HasProgram bank.ancestors x.1 →
        ∀ st, programState (db.seen bank.ancestors) x.1 = some st →
          st.Agrees platform.vm (bank.environments cache) bank.slot ∧
            (limit = true ∨
              bank.CanRefill platform (db.seen bank.ancestors) cache x st) := by
  simp only [(AccountsDb.runReads_spec hwf bank.ancestors _).2.2, replenishProgramCache_eval]
  have hfree' : cache.Free (map.map (bank.search (db.seen bank.ancestors))) := by
    intro y hy
    obtain ⟨x, hx, rfl⟩ := mem_map.mp hy
    exact hfree x hx
  have hbatch := @serves_newFromCache bank cache
  constructor
  · rintro ⟨hmatches, fuel, hreturned⟩ x hx hprogram st hstate
    obtain ⟨st', hstate', hloader⟩ := exists_programState hprogram
    rw [hstate] at hstate'
    cases hstate'
    obtain ⟨entry, hload, hmatch⟩ := hmatches x hx hprogram
    rw [loadProgram_eval hstate hloader] at hload
    cases hload
    have hagrees := (matches_criterion_iff hcheck hstate).mp hmatch
    refine ⟨hagrees, ?_⟩
    cases limit with
    | true => exact .inl rfl
    | false =>
      refine .inr ((refills_iff_canRefill hcheck hstate hloader hagrees).mp ?_)
      by_contra hstuck
      rw [run_not_returned hfree' hbatch (mem_map_of_mem hx) hstuck] at hreturned
      cases hreturned
  · intro hgood
    constructor
    · intro x hx hprogram
      obtain ⟨st, hstate, hloader⟩ := exists_programState hprogram
      exact ⟨_, loadProgram_eval hstate hloader,
        (matches_criterion_iff hcheck hstate).mpr (hgood x hx hprogram st hstate).1⟩
    · -- every program that is missing has an account of a loader
      have hmissing : ∀ y ∈ cache.missing (newFromCache bank.slot
          bank.epoch cache) (map.map (bank.search (db.seen bank.ancestors))),
          ∃ x ∈ map, y = bank.search (db.seen bank.ancestors) x ∧
            db.HasProgram bank.ancestors x.1 := by
        intro y hy
        obtain ⟨hmem, hnot⟩ := (mem_missing_iff hbatch).mp hy
        obtain ⟨x, hx, rfl⟩ := mem_map.mp hmem
        exact ⟨x, hx, rfl, (hkeys x hx).resolve_right hnot⟩
      cases limit with
      | true =>
        refine ⟨_, run_limited_returns hfree' hbatch le_rfl ?_⟩
        intro y hy
        obtain ⟨x, hx, rfl, hprogram⟩ := hmissing y hy
        obtain ⟨st, hstate, hloader⟩ := exists_programState hprogram
        exact ⟨_, loadProgram_eval hstate hloader⟩
      | false =>
        refine ⟨_, run_returns hfree' hbatch le_rfl ?_⟩
        intro y hy
        obtain ⟨x, hx, rfl, hprogram⟩ := hmissing y hy
        obtain ⟨st, hstate, hloader⟩ := exists_programState hprogram
        obtain ⟨hagrees, hcan⟩ := hgood x hx hprogram st hstate
        exact (refills_iff_canRefill hcheck hstate hloader hagrees).mpr
          (hcan.resolve_left (by simp))

/-- For a program without cached entries, the cache can be refilled exactly when the slot at
which the entry counts as deployed is on the fork and not in the future. -/
theorem canRefill_cold_iff (hcold : (cache.entries x.1).slotVersions = []) :
    bank.CanRefill platform view cache x st ↔
      cache.onFork (st.deploymentSlot platform.vm (bank.environments cache) bank.slot)
          bank.slot = true ∧
        st.deploymentSlot platform.vm (bank.environments cache) bank.slot ≤ bank.slot := by
  have hnot : ¬bank.Found cache (bank.search view x) := by
    simp [Bank.Found, Bank.search, LoadedPrograms.lookup, hcold, LoadedPrograms.scan]
  simp [Bank.CanRefill, hnot, hcold]

end Fills

/-- A virtual machine that accepts every program, and no fees. -/
def examplePlatform : Platform :=
  { vm := { load := fun _ _ => true, verify := fun _ => true, jitCompile := fun _ => true }
    durableNonceFromBlockhash := id
    constructInstructionsData := fun _ => []
    calculateFee := fun _ _ => 0
    loadedAccountsBytes := fun _ => 1000
    computeBudgetError := fun _ => none }

/-- A bank at slot 10 that checks modification slots. -/
def exampleBank : Bank :=
  { slot := 10
    epoch := 0
    ancestors := {9, 10}
    epochSchedule := { slotsPerEpoch := 432000, firstNormalEpoch := 0, firstNormalSlot := 0 }
    slotInEpoch := by decide
    blockhashQueue :=
      { lastHashIndex := 0, lastHash := ⟨0⟩
        ages := fun _ => some { lamportsPerSignature := 5000, hashIndex := 0 } }
    builtinPrograms := []
    checkProgramModificationSlot := true
    rentCollector :=
      { epoch := 0
        epochSchedule :=
          { slotsPerEpoch := 432000, firstNormalEpoch := 0, firstNormalSlot := 0 }
        rent := { minimumBalance := fun _ => 0, dueAmount := fun _ _ => 0 } }
    setExemptRentEpochMax := false
    shouldCollectRent := false
    insideRewardInterval := false }

def coldCache : LoadedPrograms :=
  { entries := fun _ => SecondLevel.default
    latestRootSlot := 9
    latestRootEpoch := 0
    environments := { programRuntimeV1 := 1, programRuntimeV2 := 2 }
    upcomingEnvironments := none
    forkGraph := fun _ _ => .unknown }

def programKey : Pubkey := .ofNat (2 ^ 255 + 7)

/-- A program of loader v4 on the base layer, deployed there at slot 5. -/
def loaderV4Program : RpcAccount :=
  { lamports := 1
    data := [5, 0, 0, 0, 0, 0, 0, 0] ++ List.replicate 32 0 ++ [1, 0, 0, 0, 0, 0, 0, 0]
    owner := loaderV4Id
    executable := true
    rentEpoch := 0 }

/-- A database that knows the program from the base layer only. -/
def remoteProgramDb : AccountsDb :=
  let db := AccountsDb.new { sonicProgramId := [] } ∅
  db.withRemoteLoader
    (db.remoteLoader.insert programKey (RemoteAccountLoader.remoteAccount loaderV4Program))

theorem remoteProgramDb_wellFormed : remoteProgramDb.WellFormed :=
  (AccountsDb.WellFormed.new _ _ (by simp)).withRemoteLoader _

def loaderV4Entry : LoadedProgram :=
  { program := .typed { loader := 2, elfBytes := [] }
    accountSize := 48
    deploymentSlot := 0
    effectiveSlot := 1
    maybeExpirationSlot := none }

/-- The criterion asks for an entry from slot 5 on, and the loop loads the program in every
round. -/
theorem remote_loaderV4_program_loaded_forever :
    (remoteProgramDb.runReads exampleBank.ancestors
        (exampleBank.loadProgram examplePlatform coldCache programKey false false)).2 =
          .loaded loaderV4Entry ∧
      LoadedPrograms.matchesLoadedProgramCriteria loaderV4Entry
        (remoteProgramDb.runReads exampleBank.ancestors
          (exampleBank.matchCriteria programKey)).2 = false ∧
      ∀ fuel, (remoteProgramDb.runReads exampleBank.ancestors
        (exampleBank.replenishProgramCache examplePlatform 0 false fuel coldCache
          [(programKey, loaderV4Id, 1)])).2.2.batch? = none := by
  refine ⟨by decide, by decide, fun fuel => ?_⟩
  rw [(AccountsDb.runReads_spec remoteProgramDb_wellFormed _ _).2.2, replenishProgramCache_eval]
  refine run_not_returned ?_ serves_newFromCache mem_cons_self ?_
  · intro x _
    rfl
  · rintro (hfound | ⟨program, hload, hfound⟩)
    · revert hfound
      unfold Bank.Found
      decide
    · have hentry : exampleBank.load examplePlatform
          (remoteProgramDb.seen exampleBank.ancestors) coldCache programKey =
            .loaded loaderV4Entry := by decide
      cases hload.symm.trans hentry
      revert hfound
      unfold Bank.Found
      decide

def localProgramDb : AccountsDb :=
  (AccountsDb.new { sonicProgramId := [] } ∅).storeCached 9
    [(programKey, AccountSharedData.create 1 [7] bpfLoaderId true 0)]

/-- The cache is filled with a program of the second loader. -/
theorem fillsProgramCache_localProgram :
    ∃ fuel, (localProgramDb.runReads exampleBank.ancestors
      (exampleBank.replenishProgramCache examplePlatform 0 false fuel coldCache
        [(programKey, bpfLoaderId, 1)])).2.2.batch?.isSome = true := by
  have hprogram : localProgramDb.seen exampleBank.ancestors programKey =
      some (AccountSharedData.create 1 [7] bpfLoaderId true 0) := by decide
  refine ((fillsProgramCache_iff localProgramDb
    ((AccountsDb.WellFormed.new _ _ (by simp)).storeCached 9 _) examplePlatform exampleBank 0 false
    coldCache [(programKey, bpfLoaderId, 1)] rfl ?_ ?_).mpr ?_).2
  · intro x hx
    rw [mem_singleton.mp hx]
    exact .inl ⟨_, hprogram, by decide⟩
  · intro x _
    rfl
  · intro x hx _ st hstate
    rw [mem_singleton.mp hx] at hstate ⊢
    have hlegacy : programState (localProgramDb.seen exampleBank.ancestors) programKey =
        some (.legacy (AccountSharedData.create 1 [7] bpfLoaderId true 0)) := by decide
    cases hstate.symm.trans hlegacy
    refine ⟨trivial, .inr ((canRefill_cold_iff rfl).mpr ?_)⟩
    decide

end Hypergrid
