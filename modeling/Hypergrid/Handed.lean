import Hypergrid.Replenish

/-!
# The programs that a batch gets

What `replenish_program_cache` returns for one program, whatever else is in the batch and
whatever other batches are loading.

* `extract_extracts` : one call of `extract`, with the locks of other batches.
* `replenishLoop_handed` : the entries of the batch, by induction on the rounds of the loop.
* `handed_iff` : a batch may get the entry that the scan finds in the cache, or, if there is
  none, the one that it finds after the program was loaded.
-/

namespace Hypergrid
open LoadedPrograms LoadedProgramsForTxBatch
variable (platform : Platform) (bank : Bank) (view : Pubkey → Option AccountSharedData)
  (c₀ : LoadedPrograms)

/-- What the scan finds among some entries of a key. -/
def Bank.scanFor (k : Pubkey) (vs : List LoadedProgram) : Option LoadedProgram :=
  c₀.scan bank.slot (bank.environments c₀) ((bank.matchCriteria k).eval (fun r => view r.key))
    vs.reverse

/-- The batch loads the program itself: it is not found, and no other batch is loading it. -/
def Bank.Stores (k : Pubkey) (program : LoadedProgram) : Prop :=
  (c₀.entries k).cooperativeLoadingLock = none ∧
    bank.scanFor view c₀ k (c₀.entries k).slotVersions = none ∧
    bank.load platform view c₀ k = .loaded program

/-- The entry is found, before or after the batch has loaded the program. -/
def Bank.Handed (k : Pubkey) (e : LoadedProgram) : Prop :=
  bank.scanFor view c₀ k (c₀.entries k).slotVersions = some e ∨
    ∃ program, bank.Stores platform view c₀ k program ∧
      bank.scanFor view c₀ k (assign program (c₀.entries k).slotVersions).1 = some e

/-- A cache to which the batch has added programs. -/
structure Bank.Progress (c : LoadedPrograms) : Prop where
  fixed : ∃ entries, c = { c₀ with entries }
  versions : ∀ k, (c.entries k).slotVersions = (c₀.entries k).slotVersions ∨
    ∃ program, bank.Stores platform view c₀ k program ∧
      (c.entries k).slotVersions = (assign program (c₀.entries k).slotVersions).1
  lock : ∀ k, (c.entries k).cooperativeLoadingLock = none →
    (c₀.entries k).cooperativeLoadingLock = none

variable {platform bank view c₀} {c : LoadedPrograms} {batch : LoadedProgramsForTxBatch}
  {threadId : Nat} {limit : Bool} {xs : List ProgramSearch}
variable {e : LoadedProgram} {r : LoadedPrograms.Extracted} {x : ProgramSearch}
  {program : LoadedProgram} {k : Pubkey}

theorem Bank.Progress.refl : bank.Progress platform view c₀ c₀ :=
  ⟨⟨_, rfl⟩, fun _ => .inl rfl, fun _ h => h⟩

def Bank.Searches (bank : Bank) (view : Pubkey → Option AccountSharedData)
    (xs : List ProgramSearch) : Prop :=
  ∀ x ∈ xs, x.criteria = (bank.matchCriteria x.key).eval (fun r => view r.key)

section Progress
variable (h : bank.Progress platform view c₀ c)
variable (hx : x.criteria = (bank.matchCriteria x.key).eval (fun r => view r.key))
include h hx

theorem Bank.Progress.lookup :
    c.lookup bank.slot (bank.environments c₀) x =
      bank.scanFor view c₀ x.key (c.entries x.key).slotVersions := by
  obtain ⟨entries, rfl⟩ := h.fixed
  unfold lookup Bank.scanFor
  rw [scan_eq_find, scan_eq_find, hx]
  rfl

theorem Bank.Progress.handed (hfound : c.lookup bank.slot (bank.environments c₀) x = some e) :
    bank.Handed platform view c₀ x.key e := by
  rw [h.lookup hx] at hfound
  rcases h.versions x.key with hsame | ⟨program, hstores, hassign⟩
  · rw [hsame] at hfound
    exact .inl hfound
  · rw [hassign] at hfound
    exact .inr ⟨program, hstores, hfound⟩

theorem Bank.Progress.not_found (hnone : c.lookup bank.slot (bank.environments c₀) x = none) :
    bank.scanFor view c₀ x.key (c₀.entries x.key).slotVersions = none := by
  rw [h.lookup hx] at hnone
  rcases h.versions x.key with hsame | ⟨program, hstores, _⟩
  · rwa [hsame] at hnone
  · exact hstores.2.1

end Progress

theorem Bank.Progress.finish (h : bank.Progress platform view c₀ c) {key : Pubkey}
    (hstores : bank.Stores platform view c₀ key program) :
    bank.Progress platform view c₀ (c.finishCooperativeLoadingTask key program).1 where
  fixed := by
    obtain ⟨entries, rfl⟩ := h.fixed
    exact ⟨_, rfl⟩
  versions := by
    intro k
    simp only [finishCooperativeLoadingTask, assignProgram, withEntry, Function.update_apply]
    by_cases hk : k = key
    · subst hk
      simp only [if_true, SecondLevel.assign, SecondLevel.withLock]
      refine .inr ⟨program, hstores, ?_⟩
      rcases h.versions k with hsame | ⟨program', hstores', hassign⟩
      · rw [hsame]
      · have heq : program' = program := by
          have := hstores'.2.2.symm.trans hstores.2.2
          cases this
          rfl
        rw [hassign, heq, assign_idempotent]
    · simp only [hk, if_false]
      exact h.versions k
  lock := by
    intro k
    simp only [finishCooperativeLoadingTask, assignProgram, withEntry, Function.update_apply]
    by_cases hk : k = key
    · intro _
      rw [hk]
      exact hstores.1
    · simp only [hk, if_false]
      exact h.lock k

/-- What `extract` does, whatever other batches are loading. -/
structure Extracts (c : LoadedPrograms) (batch : LoadedProgramsForTxBatch)
    (task : Option (Pubkey × Nat)) (xs : List ProgramSearch) (r : LoadedPrograms.Extracted) :
    Prop where
  cache : ∃ entries, r.cache = { c with entries } ∧ ∀ k,
    (entries k).slotVersions = (c.entries k).slotVersions ∧
      ((entries k).cooperativeLoadingLock = none →
        (c.entries k).cooperativeLoadingLock = none)
  slot : r.batch.slot = batch.slot
  environments : r.batch.environments = batch.environments
  found : ∀ k e, r.batch.entries k = some e → batch.entries k = some e ∨
    ∃ x ∈ xs, x.key = k ∧ c.lookup batch.slot batch.environments x = some e
  searchFor : ∀ x ∈ r.searchFor, x ∈ xs
  task : ∀ t, r.cooperativeLoadingTask = some t → task = some t ∨
    ∃ x ∈ xs, x.key = t.1 ∧ c.lookup batch.slot batch.environments x = none ∧
      (c.entries x.key).cooperativeLoadingLock = none

theorem fill_found (c : LoadedPrograms) (h : (c.fill batch xs).entries k = some e) :
    batch.entries k = some e ∨
      ∃ x ∈ xs, x.key = k ∧ c.lookup batch.slot batch.environments x = some e := by
  induction xs generalizing batch with
  | nil => exact .inl h
  | cons x xs ih =>
    rw [fill] at h
    cases hx : c.lookup batch.slot batch.environments x with
    | none =>
      rw [hx] at h
      rcases ih h with hbatch | ⟨y, hy, hfound⟩
      · exact .inl hbatch
      · exact .inr ⟨y, List.mem_cons_of_mem x hy, hfound⟩
    | some entry =>
      rw [hx] at h
      rcases ih h with hbatch | ⟨y, hy, hfound⟩
      · simp only [Function.update_apply] at hbatch
        split_ifs at hbatch with hkey
        · exact .inr ⟨x, List.mem_cons_self, hkey.symm, hx.trans hbatch⟩
        · exact .inl hbatch
      · exact .inr ⟨y, List.mem_cons_of_mem x hy, hfound⟩

theorem extract_extracts (c : LoadedPrograms) (batch : LoadedProgramsForTxBatch)
    (xs : List ProgramSearch) : Extracts c batch none xs (c.extract threadId batch none xs) := by
  rw [extract_eq]
  refine ⟨?_, c.fill_slot batch xs, c.fill_environments batch xs, fun _ _ h => fill_found c h,
    fun x hx => List.mem_of_mem_filter hx, fun t ht => .inr ?_⟩
  · cases c.nextTask batch xs with
    | none => exact ⟨c.entries, rfl, fun _ => ⟨rfl, fun h => h⟩⟩
    | some x =>
      refine ⟨_, rfl, fun k => ?_⟩
      by_cases hk : k = x.key
      · subst hk
        simp [SecondLevel.withLock]
      · simp [Function.update_of_ne hk]
  · obtain ⟨x, hx, rfl⟩ := Option.map_eq_some_iff.mp ht
    obtain ⟨hmem, hnone⟩ := List.mem_filter.mp (List.mem_of_find?_eq_some hx)
    have hlock := List.find?_some hx
    exact ⟨x, hmem, rfl, by simpa using hnone, by simpa using hlock⟩

section Progress
variable (h : bank.Progress platform view c₀ c)
include h

theorem Bank.Progress.extract {task : Option (Pubkey × Nat)} (hr : Extracts c batch task xs r) :
    bank.Progress platform view c₀ r.cache := by
  obtain ⟨entries, hcache, hentries⟩ := hr.cache
  rw [hcache]
  refine ⟨?_, fun k => ?_, fun k hk => h.lock k ((hentries k).2 hk)⟩
  · obtain ⟨entries', rfl⟩ := h.fixed
    exact ⟨entries, rfl⟩
  · dsimp only
    rw [(hentries k).1]
    exact h.versions k

theorem Bank.Progress.stores (hbatch : bank.Serves c₀ batch) (hxs : bank.Searches view xs)
    (hr : Extracts c batch none xs r) {t : Pubkey × Nat} (ht : r.cooperativeLoadingTask = some t)
    (hload : bank.load platform view c₀ t.1 = .loaded program) :
    bank.Stores platform view c₀ t.1 program := by
  rcases hr.task t ht with hnone | ⟨x, hx, hkey, hnone, hlock⟩
  · cases hnone
  · rw [hbatch.1, hbatch.2] at hnone
    rw [← hkey] at hload ⊢
    exact ⟨h.lock x.key hlock, h.not_found (hxs x hx) hnone, hload⟩

theorem Bank.Progress.load (k : Pubkey) :
    bank.load platform view c k = bank.load platform view c₀ k := by
  obtain ⟨entries, rfl⟩ := h.fixed
  rfl

end Progress

/-- The start of a round, which stores the program of the last one. -/
def LoadedPrograms.storeTask (c : LoadedPrograms) :
    Option (Pubkey × LoadedProgram) → LoadedPrograms × Bool
  | some (key, program) => c.finishCooperativeLoadingTask key program
  | none => (c, false)

theorem replenishLoop_succ (fuel : Nat) (toStore : Option (Pubkey × LoadedProgram)) :
    bank.replenishLoop platform threadId limit (fuel + 1) c xs batch toStore =
      let stored := c.storeTask toStore
      if stored.2 && limit then
        return (stored.1, .returned
          { newFromCache bank.slot bank.epoch stored.1 with
            hitMaxLimit := true })
      else
        let r := stored.1.extract threadId batch none xs
        match r.cooperativeLoadingTask with
        | some (key, _) => do
            match ← bank.loadProgram platform r.cache key false false with
            | .nonexistent => return (r.cache, .nonexistentAccount key)
            | .panicked => return (r.cache, .noLoader key)
            | .loaded program =>
              bank.replenishLoop platform threadId limit fuel r.cache r.searchFor r.batch
                (some (key, program))
        | none =>
          if r.searchFor.isEmpty then return (r.cache, .returned r.batch)
          else return (r.cache, .waiting) := by
  cases toStore <;> rfl

theorem replenishLoop_handed (fuel : Nat) {toStore : Option (Pubkey × LoadedProgram)}
    (h : bank.Progress platform view c₀ c) (hxs : bank.Searches view xs)
    (hbatch : bank.Serves c₀ batch)
    (hentries : ∀ k e, batch.entries k = some e → bank.Handed platform view c₀ k e)
    (hstore : ∀ k program, toStore = some (k, program) → bank.Stores platform view c₀ k program)
    {batch' : LoadedProgramsForTxBatch}
    (hret : ((bank.replenishLoop platform threadId limit fuel c xs batch toStore).eval
      (fun r => view r.key)).2 = .returned batch') :
    ∀ k e, batch'.entries k = some e → bank.Handed platform view c₀ k e := by
  induction fuel generalizing c xs batch toStore with
  | zero => cases hret
  | succ fuel ih =>
    rw [replenishLoop_succ] at hret
    have hstored : bank.Progress platform view c₀ (c.storeTask toStore).1 := by
      cases toStore with
      | none => exact h
      | some x => exact h.finish (hstore x.1 x.2 rfl)
    generalize c.storeTask toStore = stored at hret hstored
    dsimp only at hret
    by_cases hlimit : (stored.2 && limit) = true
    · rw [if_pos hlimit] at hret
      cases hret
      intro k e hk
      cases hk
    · rw [if_neg hlimit] at hret
      have hr := @extract_extracts threadId stored.1 batch xs
      generalize stored.1.extract threadId batch none xs = r at hret hr
      have hprogress := hstored.extract hr
      have hserves : bank.Serves c₀ r.batch :=
        ⟨hr.slot.trans hbatch.1, hr.environments.trans hbatch.2⟩
      have hfound : ∀ k e, r.batch.entries k = some e → bank.Handed platform view c₀ k e := by
        intro k e hk
        rcases hr.found k e hk with hold | ⟨x, hx, rfl, hlookup⟩
        · exact hentries k e hold
        · rw [hbatch.1, hbatch.2] at hlookup
          exact hstored.handed (hxs x hx) hlookup
      cases htask : r.cooperativeLoadingTask with
      | none =>
        rw [htask] at hret
        split_ifs at hret
        · cases hret
          exact hfound
        · cases hret
      | some t =>
        rw [htask] at hret
        simp only [ReadM.eval_bind] at hret
        have hload : (bank.loadProgram platform r.cache t.1 false false).eval
            (fun r => view r.key) = bank.load platform view c₀ t.1 :=
          hprogress.load t.1
        rw [hload] at hret
        cases hprogram : bank.load platform view c₀ t.1 with
        | nonexistent =>
          rw [hprogram] at hret
          cases hret
        | panicked =>
          rw [hprogram] at hret
          cases hret
        | loaded program =>
          rw [hprogram] at hret
          refine ih hprogress (fun x hx => hxs x (hr.searchFor x hx)) hserves hfound ?_
            hret
          intro k p hkp
          cases hkp
          exact hstored.stores hbatch hxs hr htask hprogram

theorem run_of_found (h : bank.scanFor view c₀ k (c₀.entries k).slotVersions = some e) :
    ((bank.run platform threadId limit view 1 c₀ [bank.search view (k, default, 0)]
      (newFromCache bank.slot bank.epoch c₀)).2.batch?.bind
        (fun batch => batch.entries k)) = some e := by
  have hlookup : c₀.lookup bank.slot (bank.environments c₀) (bank.search view (k, default, 0)) =
      some e := h
  have hextract : c₀.extract threadId
      (newFromCache bank.slot bank.epoch c₀) none
      [bank.search view (k, default, 0)] =
        { cache := c₀, searchFor := []
          batch := (newFromCache bank.slot bank.epoch c₀).replenish k e
          cooperativeLoadingTask := none } := by
    simp only [extract, newFromCache]
    rw [show c₀.getEnvironmentsForEpoch bank.epoch = bank.environments c₀ from rfl, hlookup]
    rfl
  rw [Bank.run, replenishLoop_succ]
  simp only [storeTask, Bool.false_and, Bool.false_eq_true, if_false, hextract]
  simp [ReplenishOutcome.batch?, replenish]

theorem run_of_stores (h : bank.Stores platform view c₀ k program)
    (hfound : bank.scanFor view c₀ k (assign program (c₀.entries k).slotVersions).1 = some e) :
    ((bank.run platform threadId false view 2 c₀ [bank.search view (k, default, 0)]
      (newFromCache bank.slot bank.epoch c₀)).2.batch?.bind
        (fun batch => batch.entries k)) = some e := by
  obtain ⟨hlock, hnone, hload⟩ := h
  have hfree : c₀.Free [bank.search view (k, default, 0)] := by
    intro x hx
    rw [List.mem_singleton.mp hx]
    exact hlock
  have hlookup : c₀.lookup bank.slot (bank.environments c₀) (bank.search view (k, default, 0)) =
      none := hnone
  have hmissing : c₀.missing (newFromCache bank.slot bank.epoch c₀)
      [bank.search view (k, default, 0)] = [bank.search view (k, default, 0)] := by
    rw [missing, List.filter_cons, serves_newFromCache.1, serves_newFromCache.2, hlookup]
    rfl
  have hfill : c₀.fill (newFromCache bank.slot bank.epoch c₀)
      [bank.search view (k, default, 0)] = newFromCache bank.slot bank.epoch c₀ := by
    rw [fill, serves_newFromCache.1, serves_newFromCache.2, hlookup]
    rfl
  rw [run_of_loaded hfree hmissing hload, Bool.and_false, if_neg Bool.false_ne_true, hfill]
  have hscan : bank.scanFor view (c₀.assignProgram k program).1 k
      ((c₀.assignProgram k program).1.entries k).slotVersions = some e := by
    rw [← hfound]
    simp only [assignProgram, withEntry, Function.update_self, Bank.scanFor, scan_eq_find]
    rfl
  exact run_of_found hscan

theorem handed_iff :
    (∃ threadId limit fuel map batch,
        ((bank.replenishProgramCache platform threadId limit fuel c₀ map).eval
          (fun r => view r.key)).2.batch? = some batch ∧ batch.entries k = some e) ↔
      bank.Handed platform view c₀ k e := by
  constructor
  · rintro ⟨threadId, limit, fuel, map, batch, hret, hk⟩
    rw [replenishProgramCache_eval, Bank.run] at hret
    have hxs : bank.Searches view (map.map (bank.search view)) := by
      intro x hx
      obtain ⟨y, _, rfl⟩ := List.mem_map.mp hx
      rfl
    have hhanded := @replenishLoop_handed platform bank view c₀ c₀
      (newFromCache bank.slot bank.epoch c₀) threadId limit _ fuel
      none Bank.Progress.refl hxs serves_newFromCache (fun _ _ h => by cases h)
      (fun _ _ h => by cases h) batch
    refine hhanded ?_ k e hk
    generalize (bank.replenishLoop platform threadId limit fuel c₀
      (map.map (bank.search view)) _ none).eval _ = r at hret
    obtain ⟨c, outcome⟩ := r
    cases outcome <;> cases hret
    rfl
  · intro h
    have hbatch : ∃ fuel, ((bank.run platform 0 false view fuel c₀
        [bank.search view (k, default, 0)]
        (newFromCache bank.slot bank.epoch c₀)).2.batch?.bind
          (fun batch => batch.entries k)) = some e := by
      rcases h with hfound | ⟨program, hstores, hfound⟩
      · exact ⟨1, run_of_found hfound⟩
      · exact ⟨2, run_of_stores hstores hfound⟩
    obtain ⟨fuel, hbatch⟩ := hbatch
    obtain ⟨batch, hret, hk⟩ := Option.bind_eq_some_iff.mp hbatch
    refine ⟨0, false, fuel, [(k, default, 0)], batch, ?_, hk⟩
    rw [replenishProgramCache_eval]
    exact hret

end Hypergrid
