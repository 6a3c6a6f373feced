import Hypergrid.Freshness
import Hypergrid.Handed

/-!
# Upgrades of remote programs

A remote program of the upgradeable loader is kept in three places: its two accounts are in
the map of the remote loader and, once they were read, in the dummy slot-0 cache, and the
executable is in the program cache.  A migration changes the first only.  Every version of
the program counts as deployed at slot 0, so the program cache does not notice the change.

* `hands_iff` : the executables that the batches of a bank may get.
* `handsLatest_iff` : after any history of migrations, reads and batches, exactly when the
  executables of a batch are built from the programdata fetched last.
* `upgrade_without_effect` : a history after which they are not.
-/

namespace Hypergrid
open ProgramState LoadedPrograms Freshness List Option

namespace Upgrade

variable (platform : Platform) (bank : Bank) (c : LoadedPrograms)

open Machine

/-- The accounts with the history of fetches, and the program cache. -/
structure State where
  accounts : Freshness.State
  programs : LoadedPrograms

inductive Event where
  /-- migrations, deactivations, reloads and loads -/
  | accounts (e : Freshness.Event)
  /-- a batch fills its programs -/
  | batch (bank : Bank) (threadId : Nat) (limit : Bool) (fuel : Nat) (map : ProgramAccountsMap)
  /-- other work on the program cache: new roots, evictions, recompilations -/
  | programs (cache : LoadedPrograms)

def step (platform : Platform) (s : State) : Event → Option State
  | .accounts e => (Freshness.step s.accounts e).map (fun accounts => { s with accounts })
  | .batch bank threadId limit fuel map =>
    let r := s.accounts.db.runReads bank.ancestors
      (bank.replenishProgramCache platform threadId limit fuel s.programs map)
    some { accounts := { s.accounts with db := r.1 }, programs := r.2.1 }
  | .programs cache => some { s with programs := cache }

def start (db : AccountsDb) (cache : LoadedPrograms) : State :=
  { accounts := Freshness.start db, programs := cache }

def elfBytes (programdata : AccountSharedData) : List UInt8 :=
  programdata.data.drop UpgradeableLoaderState.sizeOfProgramdataMetadata

/-- A batch of the bank may get this executable for the key. -/
def Hands (s : State) (bank : Bank) (k : Pubkey) (executable : Executable) : Prop :=
  ∃ threadId limit fuel map batch entry,
    (s.accounts.db.runReads bank.ancestors (bank.replenishProgramCache platform threadId limit
        fuel s.programs map)).2.2.batch? = some batch ∧
      batch.entries k = some entry ∧ entry.program = .legacyV1 executable

/-- The executables that a batch of the bank gets are built from the programdata that was
fetched last. -/
def HandsLatest (program programdata : Pubkey) (s : State) (bank : Bank) : Prop :=
  ∀ executable v, Hands platform s bank program executable →
    Freshness.latest s.accounts.fetches programdata = some v →
      executable.elfBytes = elfBytes v

/-- The fetched accounts are those of a program of the upgradeable loader and of its
programdata. -/
structure IsUpgradeable (program programdata : Pubkey)
    (fetches : List (Pubkey × AccountSharedData)) : Prop where
  program : ∀ v, (program, v) ∈ fetches → v.lamports ≠ 0 ∧ v.owner = bpfLoaderUpgradeableId ∧
    UpgradeableLoaderState.deserialize v.data = some (.program programdata)
  programdata : ∀ v, (programdata, v) ∈ fetches → v.lamports ≠ 0 ∧
    ∃ slot authority,
      UpgradeableLoaderState.deserialize v.data = some (.programData slot authority)

/-- The bank reads the two remote accounts. -/
structure Readable (program programdata : Pubkey) (s : State) (bank : Bank) : Prop where
  ancestors : 1 < bank.ancestors.card
  program : s.accounts.db.remoteLoader.hasAccount program = true
  programdata : s.accounts.db.remoteLoader.hasAccount programdata = true

/-- The newest entry of a program that the bank can see: on its fork, and effective in its
environments or delayed. -/
def visibleEntry (k : Pubkey) : Option LoadedProgram :=
  (c.entries k).slotVersions.reverse.find? (c.stops bank.slot (bank.environments c))

def Effective (e : LoadedProgram) : Prop :=
  e.effectiveSlot ≤ bank.slot ∧
    LoadedPrograms.matchesEnvironment e (bank.environments c) = true

def expired (e : LoadedProgram) : Bool :=
  (e.maybeExpirationSlot.map (fun x => decide (x ≤ bank.slot))).getD false

/-- The effective slot of the entry of a remote program, which counts as deployed at slot 0. -/
def remoteEffectiveSlot (bank : Bank) (c : LoadedPrograms) : Slot :=
  if bank.environments c ≠ c.environments then
    max 1 (bank.epochSchedule.getFirstSlotInEpoch bank.epoch)
  else 1

/-- The bank loads the remote program again and uses what it has loaded: no entry is usable,
no other batch is loading the program, and neither a newer entry nor an executable in the
same place keeps the new entry out. -/
structure Reloads (bank : Bank) (c : LoadedPrograms) (k : Pubkey) : Prop where
  started : 0 < bank.slot
  free : (c.entries k).cooperativeLoadingLock = none
  unusable : ∀ e, visibleEntry bank c k = some e →
    Effective bank c e ∧ (expired bank e = true ∨ e.program.isUnloaded = true)
  newest : ∀ e ∈ (c.entries k).slotVersions, remoteEffectiveSlot bank c < e.effectiveSlot ∨
    remoteEffectiveSlot bank c = e.effectiveSlot ∧ 0 < e.deploymentSlot →
      c.stops bank.slot (bank.environments c) e = false
  vacant : ∀ e ∈ (c.entries k).slotVersions, e.effectiveSlot = remoteEffectiveSlot bank c →
    e.deploymentSlot = 0 → ∀ executable, e.program ≠ .legacyV1 executable

/-- The virtual machine accepts the bytes of a programdata account. -/
def Accepts (w : AccountSharedData) : Prop :=
  UpgradeableLoaderState.sizeOfProgramdataMetadata ≤ w.data.length ∧
    platform.vm.accepts (bank.environments c).programRuntimeV1 (elfBytes w) = true

/-- The entry that the bank uses is built from the programdata fetched last; or else, where
the bank loads the program again, the slot-0 cache has no copy with other bytes. -/
def UpToDate (program programdata : Pubkey) (s : State) (bank : Bank) : Prop :=
  ∀ v, Freshness.latest s.accounts.fetches programdata = some v →
    (∀ e executable, visibleEntry bank s.programs program = some e →
      e.program = .legacyV1 executable → Effective bank s.programs e →
      expired bank e = false →
      (bank.checkProgramModificationSlot = true → Readable program programdata s bank) →
        executable.elfBytes = elfBytes v) ∧
    (Readable program programdata s bank → Reloads bank s.programs program →
      ∀ w, s.accounts.db.accountsCache.holds 0 programdata = some w →
        Accepts platform bank s.programs w → elfBytes w = elfBytes v)

section Known
variable {k : Pubkey} {s s' : Freshness.State} {e : Freshness.Event}

/-- What is known of a remote key: the copy in the slot-0 cache was fetched at some time. -/
structure Known (k : Pubkey) (s : Freshness.State) : Prop extends Freshness.Inv k s where
  copies : ∀ v, s.db.accountsCache.holds 0 k = some v → (k, v) ∈ s.fetches
  remote : ∀ v, (k, v) ∈ s.fetches → v.remote = true

theorem known_step (h : Known k s) (hs : Freshness.step s e = some s') : Known k s' := by
  have he := step_effect h.toInv hs
  refine { toInv := inv_step h.toInv hs, copies := ?_, remote := ?_ }
  · intro v hv
    rw [he.fetches]
    refine mem_append_left _ ?_
    rcases he.slotZero with hsame | ⟨_, _, hcopy⟩
    · rw [hsame] at hv
      exact h.copies v hv
    · rw [hcopy] at hv
      exact mem_of_latest (h.fetched v hv)
  · intro v hv
    rw [he.fetches] at hv
    rcases mem_append.mp hv with hv | hv
    · exact h.remote v hv
    · exact (of_mem_inserted hv).2

theorem known_reads {db : AccountsDb} (h : Known k s) (hwf : db.WellFormed)
    (hmore : AccountsDb.CachedMore s.db db) : Known k { s with db } where
  wellFormed := hwf
  enable := by
    rw [hmore.loader]
    exact h.enable
  noEntry := by
    rw [hmore.index]
    exact h.noEntry
  fetched := by
    rw [hmore.loader]
    exact h.fetched
  copies := by
    intro v hv
    rcases hmore.copied 0 k v hv with hold | ⟨_, hget⟩
    · exact h.copies v hold
    · unfold RemoteAccountLoader.getAccount at hget
      split_ifs at hget
      exact mem_of_latest (h.fetched v hget)
  remote := h.remote

theorem Known.seen (h : Known k s) (hlamports : ∀ v, (k, v) ∈ s.fetches → v.lamports ≠ 0)
    (ancestors : Finset Slot) :
    s.db.seen ancestors k =
      if 1 < ancestors.card ∧ s.db.remoteLoader.hasAccount k = true then
        (s.db.accountsCache.holds 0 k).or (s.db.remoteLoader.accountCache k)
      else none := by
  have hget : s.db.accountsIndex.get k ancestors none = none := by
    rw [AccountsIndex.get_eq_none_iff, h.noEntry]
    exact fun _ hx => absurd hx not_mem_nil
  unfold AccountsDb.seen AccountsDb.visible
  rw [hget]
  by_cases hcard : 1 < ancestors.card
  · by_cases hhas : s.db.remoteLoader.hasAccount k = true
    · have hloader : s.db.remoteLoader.getAccount k = s.db.remoteLoader.accountCache k := by
        obtain ⟨hig, _⟩ := (hasAccount_iff _ h.enable).mp hhas
        simp [RemoteAccountLoader.getAccount, h.enable, hig]
      rw [if_pos hcard, if_pos ⟨hcard, hhas⟩, AccountsDb.remoteCopy, if_pos hhas, hloader]
      cases hcopy : (s.db.accountsCache.holds 0 k).or (s.db.remoteLoader.accountCache k) with
      | none => rfl
      | some v =>
        have hv : v.lamports ≠ 0 := by
          rcases or_eq_some_iff.mp hcopy with hold | ⟨_, hcache⟩
          · exact hlamports v (h.copies v hold)
          · exact hlamports v (mem_of_latest (h.fetched v hcache))
        simp [AccountSharedData.isZeroLamport, hv]
    · simp [AccountsDb.remoteCopy, hhas]
  · simp [hcard]

end Known

section Exact
variable {platform : Platform} {program programdata : Pubkey} {s : State} {bank : Bank}

/-- What every event keeps: both keys are known. -/
structure Inv (program programdata : Pubkey) (s : State) : Prop where
  program : Known program s.accounts
  programdata : Known programdata s.accounts

theorem inv_step {s' : State} {e : Event} (h : Inv program programdata s)
    (hs : step platform s e = some s') : Inv program programdata s' := by
  cases e with
  | accounts e =>
    simp only [step, map_eq_some_iff] at hs
    obtain ⟨accounts, hs, rfl⟩ := hs
    exact ⟨known_step h.program hs, known_step h.programdata hs⟩
  | batch bank threadId limit fuel map =>
    simp only [step, some.injEq] at hs
    subst hs
    obtain ⟨hwf, hmore, _⟩ := AccountsDb.runReads_spec h.program.wellFormed bank.ancestors
      (bank.replenishProgramCache platform threadId limit fuel s.programs map)
    exact ⟨known_reads h.program hwf hmore, known_reads h.programdata hwf hmore⟩
  | programs cache =>
    simp only [step, some.injEq] at hs
    subst hs
    exact ⟨h.program, h.programdata⟩

/-- The programdata account that the bank reads: the copy of the slot-0 cache, or else the one
of the loader. -/
def copyOf (s : State) (k : Pubkey) : Option AccountSharedData :=
  (s.accounts.db.accountsCache.holds 0 k).or (s.accounts.db.remoteLoader.accountCache k)

theorem Known.mem_of_copy {k : Pubkey} (h : Known k s.accounts) {v : AccountSharedData}
    (hv : copyOf s k = some v) : (k, v) ∈ s.accounts.fetches := by
  rcases or_eq_some_iff.mp hv with hold | ⟨_, hcache⟩
  · exact h.copies v hold
  · exact mem_of_latest (h.fetched v hcache)

theorem Known.copy_of_hasAccount {k : Pubkey} (h : Known k s.accounts)
    (hhas : s.accounts.db.remoteLoader.hasAccount k = true) : ∃ v, copyOf s k = some v := by
  obtain ⟨_, hsome⟩ := (hasAccount_iff _ h.enable).mp hhas
  obtain ⟨v, hv⟩ := isSome_iff_exists.mp hsome
  unfold copyOf
  rw [hv]
  cases s.accounts.db.accountsCache.holds 0 k with
  | none => exact ⟨v, rfl⟩
  | some w => exact ⟨w, rfl⟩

/-- What the scan answers with: the visible entry itself, if it is effective and usable. -/
theorem scanFor_eq (k : Pubkey) :
    bank.scanFor (s.accounts.db.seen bank.ancestors) s.programs k
        (s.programs.entries k).slotVersions =
      (visibleEntry bank s.programs k).bind (answer bank.slot
        (bank.environments s.programs) ((bank.matchCriteria k).eval
          (fun r => s.accounts.db.seen bank.ancestors r.key))) := by
  rw [Bank.scanFor, scan_eq_find]
  rfl

theorem answer_executable_iff {matchCriteria : LoadedProgramMatchCriteria}
    {c : LoadedPrograms} {e : LoadedProgram} {executable : Executable} :
    (∃ r, answer bank.slot (bank.environments c) matchCriteria e = some r ∧
        r.program = .legacyV1 executable) ↔
      e.program = .legacyV1 executable ∧ Effective bank c e ∧ expired bank e = false ∧
        matchesLoadedProgramCriteria e matchCriteria = true := by
  unfold answer isEntryUsable Effective expired
  by_cases heff : (decide (e.effectiveSlot ≤ bank.slot) &&
      matchesEnvironment e (bank.environments c)) = true
  · rw [if_pos heff]
    rw [Bool.and_eq_true, decide_eq_true_eq] at heff
    by_cases hexp : (e.maybeExpirationSlot.map (fun x => decide (x ≤ bank.slot))).getD false = true
    · simp [hexp]
    · cases hmatch : matchesLoadedProgramCriteria e matchCriteria with
      | false => simp [hexp]
      | true =>
        cases hunloaded : e.program.isUnloaded with
        | true =>
          have hne : e.program ≠ .legacyV1 executable := by
            intro heq
            rw [heq] at hunloaded
            cases hunloaded
          simp [hexp, hne]
        | false => simp [hexp, heff]
  · rw [if_neg heff]
    simp only [Bool.and_eq_true, decide_eq_true_eq] at heff
    simp [LoadedProgram.newTombstone, heff]

/-- The executable that a bank builds from the programdata account. -/
abbrev executableOf (bank : Bank) (c : LoadedPrograms) (w : AccountSharedData) : Executable :=
  { loader := (bank.environments c).programRuntimeV1, elfBytes := elfBytes w }

theorem builtEntry_accepted {c : LoadedPrograms} {account w : AccountSharedData} {slot : Slot}
    (hremote : account.remote = true) (haccepts : Accepts platform bank c w) :
    (bank.builtEntry platform c (.upgradeable account w slot)).program =
        .legacyV1 (executableOf bank c w) ∧
      (bank.builtEntry platform c (.upgradeable account w slot)).deploymentSlot = 0 ∧
      (bank.builtEntry platform c (.upgradeable account w slot)).effectiveSlot =
        remoteEffectiveSlot bank c := by
  have hloads : (upgradeable account w slot).elfLoads platform.vm
      (bank.environments c) = true := by
    simp only [elfLoads, Bool.and_eq_true, decide_eq_true_eq]
    exact haccepts
  have hkind : (upgradeable account w slot).kind platform.vm
      (bank.environments c) = .legacyV1 (executableOf bank c w) := by
    simp [kind, hloads, elfBytes]
  have hdeployed : (upgradeable account w slot).deploymentSlot platform.vm
      (bank.environments c) bank.slot = 0 := by
    simp [deploymentSlot, hloads, hremote]
  refine ⟨?_, ?_, ?_⟩
  · rw [builtEntry_program, hkind]
  · rw [builtEntry_deploymentSlot, hdeployed]
  · have heffective : (upgradeable account w slot).effectiveSlot platform.vm
        (bank.environments c) bank.slot = 1 := by
      rw [effectiveSlot, hkind, hdeployed]
      rfl
    unfold Bank.builtEntry remoteEffectiveSlot
    split_ifs <;> simp only [entry, heffective]

theorem builtEntry_executable {c : LoadedPrograms} {account w : AccountSharedData} {slot : Slot}
    {executable : Executable}
    (h : (bank.builtEntry platform c (.upgradeable account w slot)).program =
      .legacyV1 executable) : Accepts platform bank c w := by
  rw [builtEntry_program, kind] at h
  split_ifs at h with hloads
  simp only [elfLoads, Bool.and_eq_true, decide_eq_true_eq] at hloads
  exact hloads

theorem remoteEffectiveSlot_le_iff {c : LoadedPrograms} :
    remoteEffectiveSlot bank c ≤ bank.slot ↔ 0 < bank.slot := by
  have hepoch := bank.slotInEpoch
  unfold remoteEffectiveSlot
  dsimp only [Slot] at *
  split_ifs <;> omega

theorem discriminant_ne_iff {p : LoadedProgramType} {executable : Executable} :
    p.discriminant ≠ (LoadedProgramType.legacyV1 executable).discriminant ↔
      ∀ x, p ≠ .legacyV1 x := by
  cases p <;> simp [LoadedProgramType.discriminant]

variable (h : Inv program programdata s)
  (hprogram : IsUpgradeable program programdata s.accounts.fetches)

include h hprogram

theorem programState_of_readable
    (hread : Readable program programdata s bank) :
    ∃ account w slot, copyOf s programdata = some w ∧
      programState (s.accounts.db.seen bank.ancestors) program =
        some (.upgradeable account w slot) ∧
      (upgradeable account w slot).HasLoader ∧
      account.remote = true ∧ w.remote = true := by
  obtain ⟨account, haccount⟩ := h.program.copy_of_hasAccount hread.program
  obtain ⟨w, hw⟩ := h.programdata.copy_of_hasAccount hread.programdata
  have hmem := h.program.mem_of_copy haccount
  have hmemw := h.programdata.mem_of_copy hw
  obtain ⟨_, howner, hpoints⟩ := hprogram.program account hmem
  obtain ⟨_, slot, authority, hdata⟩ := hprogram.programdata w hmemw
  refine ⟨account, w, slot, hw, ?_, ⟨howner, deserialize_programData_le hdata⟩,
    h.program.remote account hmem, h.programdata.remote w hmemw⟩
  have hseen : s.accounts.db.seen bank.ancestors program = some account := by
    rw [h.program.seen (fun v hv => (hprogram.program v hv).1),
      if_pos ⟨hread.ancestors, hread.program⟩]
    exact haccount
  have hseenw : s.accounts.db.seen bank.ancestors programdata = some w := by
    rw [h.programdata.seen (fun v hv => (hprogram.programdata v hv).1),
      if_pos ⟨hread.ancestors, hread.programdata⟩]
    exact hw
  simp [programState, hseen, howner, hpoints, hseenw, hdata]

/-- Where the bank cannot read one of the accounts, it sees no program. -/
theorem programState_of_not_readable
    (hread : ¬Readable program programdata s bank) :
    programState (s.accounts.db.seen bank.ancestors) program = none ∨
      programState (s.accounts.db.seen bank.ancestors) program = some .invalid := by
  have hseen := h.program.seen (fun v hv => (hprogram.program v hv).1) bank.ancestors
  have hseenw := h.programdata.seen (fun v hv => (hprogram.programdata v hv).1) bank.ancestors
  by_cases hp : 1 < bank.ancestors.card ∧ s.accounts.db.remoteLoader.hasAccount program = true
  · have hpd : ¬(1 < bank.ancestors.card ∧
        s.accounts.db.remoteLoader.hasAccount programdata = true) :=
      fun hpd => hread ⟨hp.1, hp.2, hpd.2⟩
    obtain ⟨account, haccount⟩ := h.program.copy_of_hasAccount hp.2
    obtain ⟨_, howner, hpoints⟩ := hprogram.program account (h.program.mem_of_copy haccount)
    rw [if_pos hp] at hseen
    rw [if_neg hpd] at hseenw
    refine .inr ?_
    rw [← copyOf, haccount] at hseen
    simp [programState, hseen, howner, hpoints, hseenw]
  · rw [if_neg hp] at hseen
    refine .inl ?_
    simp [programState, hseen]

theorem matches_of_readable (hread : bank.checkProgramModificationSlot = true →
    Readable program programdata s bank) (e : LoadedProgram) :
    matchesLoadedProgramCriteria e ((bank.matchCriteria program).eval
        (fun r => s.accounts.db.seen bank.ancestors r.key)) = true := by
  by_cases hcheck : bank.checkProgramModificationSlot = true
  · obtain ⟨account, w, slot, _, hstate, _, _, hremote⟩ :=
      programState_of_readable h hprogram (hread hcheck)
    rw [matchCriteria_eval hcheck hstate]
    simp [modificationSlot, hremote, matchesLoadedProgramCriteria]
  · rw [Bank.matchCriteria, if_neg hcheck]
    rfl

/-- An executable meets the criterion of no other bank. -/
theorem matches_executable_iff {e : LoadedProgram} (he : e.isTombstone = false) :
    matchesLoadedProgramCriteria e ((bank.matchCriteria program).eval
        (fun r => s.accounts.db.seen bank.ancestors r.key)) = true ↔
      (bank.checkProgramModificationSlot = true → Readable program programdata s bank) := by
  refine ⟨fun hmatch hcheck => ?_, fun hread => matches_of_readable h hprogram hread e⟩
  by_contra hread
  have htombstone : (bank.matchCriteria program).eval
      (fun r => s.accounts.db.seen bank.ancestors r.key) = .tombstone := by
    rw [Bank.matchCriteria, if_pos hcheck, ReadM.eval_bind, programModificationSlot_eval]
    rcases programState_of_not_readable h hprogram hread with hstate | hstate
    · rw [hstate]
      rfl
    · rw [hstate]
      rfl
  rw [htombstone] at hmatch
  simp [matchesLoadedProgramCriteria, he] at hmatch

theorem found_executable_iff
    {executable : Executable} :
    (∃ r, bank.scanFor (s.accounts.db.seen bank.ancestors) s.programs program
          (s.programs.entries program).slotVersions = some r ∧
        r.program = .legacyV1 executable) ↔
      ∃ e, visibleEntry bank s.programs program = some e ∧
        e.program = .legacyV1 executable ∧ Effective bank s.programs e ∧
        expired bank e = false ∧
        (bank.checkProgramModificationSlot = true → Readable program programdata s bank) := by
  simp only [scanFor_eq, bind_eq_some_iff]
  constructor
  · rintro ⟨r, ⟨e, hvisible, hanswer⟩, hr⟩
    obtain ⟨hkind, heff, hexp, hmatch⟩ := answer_executable_iff.mp ⟨r, hanswer, hr⟩
    refine ⟨e, hvisible, hkind, heff, hexp, (matches_executable_iff h hprogram ?_).mp hmatch⟩
    rw [LoadedProgram.isTombstone, hkind]
    rfl
  · rintro ⟨e, hvisible, hkind, heff, hexp, hread⟩
    have htombstone : e.isTombstone = false := by
      rw [LoadedProgram.isTombstone, hkind]
      rfl
    obtain ⟨r, hanswer, hr⟩ := answer_executable_iff.mpr
      ⟨hkind, heff, hexp, (matches_executable_iff h hprogram htombstone).mpr hread⟩
    exact ⟨r, ⟨e, hvisible, hanswer⟩, hr⟩

theorem not_found_iff
    (hread : Readable program programdata s bank) :
    bank.scanFor (s.accounts.db.seen bank.ancestors) s.programs program
        (s.programs.entries program).slotVersions = none ↔
      ∀ e, visibleEntry bank s.programs program = some e → Effective bank s.programs e ∧
          (expired bank e = true ∨ e.program.isUnloaded = true) := by
  rw [scanFor_eq, bind_eq_none_iff]
  refine forall_congr' fun e => imp_congr_right fun _ => ?_
  have hmatch := matches_of_readable h hprogram (fun _ => hread) e
  unfold answer isEntryUsable Effective expired
  rw [hmatch]
  by_cases heff : (decide (e.effectiveSlot ≤ bank.slot) &&
      matchesEnvironment e (bank.environments s.programs)) = true
  · rw [if_pos heff]
    rw [Bool.and_eq_true, decide_eq_true_eq] at heff
    cases (e.maybeExpirationSlot.map (fun x => decide (x ≤ bank.slot))).getD false <;>
      cases e.program.isUnloaded <;> simp [heff]
  · rw [if_neg heff]
    simp only [Bool.and_eq_true, decide_eq_true_eq] at heff
    simp [heff]

/-- What is built is in the right place exactly under the conditions on the cache. -/
theorem found_built_iff
    (hread : Readable program programdata s bank) {account w : AccountSharedData} {slot : Slot}
    (hloader : (upgradeable account w slot).HasLoader)
    (hremote : account.remote = true)
    (hnone : bank.scanFor (s.accounts.db.seen bank.ancestors) s.programs program
      (s.programs.entries program).slotVersions = none) {executable : Executable} :
    (∃ r, bank.scanFor (s.accounts.db.seen bank.ancestors) s.programs program
          (assign (bank.builtEntry platform s.programs (.upgradeable account w slot))
            (s.programs.entries program).slotVersions).1 = some r ∧
        r.program = .legacyV1 executable) ↔
      0 < bank.slot ∧ (∀ e ∈ (s.programs.entries program).slotVersions,
          remoteEffectiveSlot bank s.programs < e.effectiveSlot ∨
            remoteEffectiveSlot bank s.programs = e.effectiveSlot ∧ 0 < e.deploymentSlot →
          s.programs.stops bank.slot (bank.environments s.programs) e = false) ∧
        (∀ e ∈ (s.programs.entries program).slotVersions,
          e.effectiveSlot = remoteEffectiveSlot bank s.programs → e.deploymentSlot = 0 →
          ∀ x, e.program ≠ .legacyV1 x) ∧
        Accepts platform bank s.programs w ∧
        executable = executableOf bank s.programs w := by
  have hle := (@builtEntry_effectiveSlot platform bank s.programs _ hloader).1
  have hstops := @stops_builtEntry_iff platform bank s.programs _ hloader
  unfold Bank.scanFor at hnone ⊢
  simp only [scan_assign_of_none (s.programs.entries program).sorted hle hstops hnone]
  have henv := (@builtEntry_kind platform bank s.programs (.upgradeable account w slot)).1
  constructor
  · rintro ⟨r, ⟨hanswer, _, hnewer, hsame⟩, hr⟩
    obtain ⟨hkind, heff, _, _⟩ := answer_executable_iff.mp ⟨r, hanswer, hr⟩
    have haccepts := builtEntry_executable hkind
    obtain ⟨hkind', hdep, heffective⟩ :=
      @builtEntry_accepted platform bank s.programs account w slot hremote haccepts
    have hexecutable := LoadedProgramType.legacyV1.inj (hkind'.symm.trans hkind)
    unfold LoadedProgram.Before at hnewer
    unfold LoadedProgram.SameSlots at hsame
    rw [heffective, hdep] at hnewer
    rw [heffective, hdep] at hsame
    refine ⟨?_, hnewer, ?_, haccepts, hexecutable.symm⟩
    · rw [← remoteEffectiveSlot_le_iff, ← heffective]
      exact heff.1
    · intro e he hslot hzero
      have hne := hsame e he ⟨hslot, hzero⟩
      rw [hkind'] at hne
      exact discriminant_ne_iff.mp hne
  · rintro ⟨hstarted, hnewer, hvacant, haccepts, rfl⟩
    obtain ⟨hkind, hdep, heffective⟩ :=
      @builtEntry_accepted platform bank s.programs account w slot hremote haccepts
    have heff : Effective bank s.programs
        (bank.builtEntry platform s.programs (.upgradeable account w slot)) := by
      refine ⟨?_, henv⟩
      rw [heffective]
      exact remoteEffectiveSlot_le_iff.mpr hstarted
    have hexpired : expired bank
        (bank.builtEntry platform s.programs (.upgradeable account w slot)) = false := by
      rw [expired, builtEntry_maybeExpirationSlot]
      rfl
    obtain ⟨r, hanswer, hr⟩ := answer_executable_iff.mpr
      ⟨hkind, heff, hexpired, matches_of_readable h hprogram (fun _ => hread) _⟩
    refine ⟨r, ⟨hanswer, ?_, ?_, ?_⟩, hr⟩
    · rw [stops_builtEntry_iff hloader, hdep]
      simp [onFork]
    · unfold LoadedProgram.Before
      rw [heffective, hdep]
      exact hnewer
    · unfold LoadedProgram.SameSlots
      rw [heffective, hdep]
      intro e he hslots
      rw [hkind]
      exact discriminant_ne_iff.mpr (hvacant e he hslots.1 hslots.2)

/-- What a bank gets that loads the program itself. -/
theorem loaded_executable_iff
    {executable : Executable} :
    (∃ r stored, bank.Stores platform (s.accounts.db.seen bank.ancestors) s.programs program
          stored ∧
        bank.scanFor (s.accounts.db.seen bank.ancestors) s.programs program
          (assign stored (s.programs.entries program).slotVersions).1 = some r ∧
        r.program = .legacyV1 executable) ↔
      Readable program programdata s bank ∧ Reloads bank s.programs program ∧
        ∃ w, copyOf s programdata = some w ∧ Accepts platform bank s.programs w ∧
          executable = executableOf bank s.programs w := by
  by_cases hread : Readable program programdata s bank
  · obtain ⟨account, w, slot, hcopy, hstate, hloader, hremote, _⟩ :=
      programState_of_readable h hprogram hread
    have hload : bank.load platform (s.accounts.db.seen bank.ancestors) s.programs program =
        .loaded (bank.builtEntry platform s.programs (.upgradeable account w slot)) :=
      loadProgram_eval hstate hloader
    constructor
    · rintro ⟨r, stored, ⟨hfree, hnone, hstored⟩, hfound, hr⟩
      rw [hload, ProgramLoad.loaded.injEq] at hstored
      subst hstored
      obtain ⟨hstarted, hnewer, hvacant, haccepts, hexecutable⟩ :=
        (found_built_iff h hprogram hread hloader hremote hnone).mp ⟨r, hfound, hr⟩
      exact ⟨hread, ⟨hstarted, hfree, (not_found_iff h hprogram hread).mp hnone, hnewer,
        hvacant⟩, w, hcopy, haccepts, hexecutable⟩
    · rintro ⟨_, hreloads, w', hcopy', haccepts, hexecutable⟩
      rw [hcopy, some.injEq] at hcopy'
      subst hcopy'
      have hnone := (not_found_iff h hprogram hread).mpr hreloads.unusable
      obtain ⟨r, hfound, hr⟩ := (found_built_iff h hprogram hread hloader hremote hnone).mpr
        ⟨hreloads.started, hreloads.newest, hreloads.vacant, haccepts, hexecutable⟩
      exact ⟨r, _, ⟨hreloads.free, hnone, hload⟩, hfound, hr⟩
  · constructor
    · rintro ⟨r, stored, ⟨_, hnone, hstored⟩, hfound, hr⟩
      rcases programState_of_not_readable h hprogram hread with hstate | hstate
      · have hview : s.accounts.db.seen bank.ancestors program = none := by
          rwa [programState, map_eq_none_iff] at hstate
        rw [Bank.load, loadProgram_nonexistent_iff.mpr hview] at hstored
        cases hstored
      · -- the entry of an account without a program is a tombstone
        have hload : bank.load platform (s.accounts.db.seen bank.ancestors) s.programs program =
            .loaded (bank.builtEntry platform s.programs .invalid) :=
          loadProgram_eval hstate trivial
        rw [hload, ProgramLoad.loaded.injEq] at hstored
        subst hstored
        have hle := (@builtEntry_effectiveSlot platform bank s.programs .invalid trivial).1
        have hstops := @stops_builtEntry_iff platform bank s.programs .invalid trivial
        unfold Bank.scanFor at hnone hfound
        rw [scan_assign_of_none (s.programs.entries program).sorted hle hstops hnone] at hfound
        obtain ⟨hkind, _⟩ := answer_executable_iff.mp ⟨r, hfound.1, hr⟩
        rw [builtEntry_program] at hkind
        cases hkind
    · rintro ⟨hread', _⟩
      exact absurd hread' hread

theorem hands_iff
    {executable : Executable} :
    Hands platform s bank program executable ↔ (∃ e, visibleEntry bank s.programs program = some e ∧
          e.program = .legacyV1 executable ∧ Effective bank s.programs e ∧
          expired bank e = false ∧
          (bank.checkProgramModificationSlot = true → Readable program programdata s bank)) ∨
        Readable program programdata s bank ∧ Reloads bank s.programs program ∧
          ∃ w, copyOf s programdata = some w ∧ Accepts platform bank s.programs w ∧
            executable = executableOf bank s.programs w := by
  rw [← found_executable_iff h hprogram, ← loaded_executable_iff h hprogram]
  have hhanded : Hands platform s bank program executable ↔
      ∃ e, bank.Handed platform (s.accounts.db.seen bank.ancestors) s.programs program e ∧
        e.program = .legacyV1 executable := by
    simp only [Hands, (AccountsDb.runReads_spec h.program.wellFormed bank.ancestors _).2.2,
      ← handed_iff]
    constructor
    · rintro ⟨threadId, limit, fuel, map, batch, e, hret, he, hkind⟩
      exact ⟨e, ⟨threadId, limit, fuel, map, batch, hret, he⟩, hkind⟩
    · rintro ⟨e, ⟨threadId, limit, fuel, map, batch, hret, he⟩, hkind⟩
      exact ⟨threadId, limit, fuel, map, batch, e, hret, he, hkind⟩
  rw [hhanded]
  constructor
  · rintro ⟨e, hfound | ⟨stored, hstores, hfound⟩, hkind⟩
    · exact .inl ⟨e, hfound, hkind⟩
    · exact .inr ⟨e, stored, hstores, hfound, hkind⟩
  · rintro (⟨e, hfound, hkind⟩ | ⟨e, stored, hstores, hfound, hkind⟩)
    · exact ⟨e, .inl hfound, hkind⟩
    · exact ⟨e, .inr ⟨stored, hstores, hfound⟩, hkind⟩

theorem handsLatest_of_inv :
    HandsLatest platform program programdata s bank ↔
      UpToDate platform program programdata s bank := by
  simp only [HandsLatest, hands_iff h hprogram]
  constructor
  · intro hhands v hv
    constructor
    · intro e executable hvisible hkind heff hexp hread
      exact hhands executable v (.inl ⟨e, hvisible, hkind, heff, hexp, hread⟩) hv
    · intro hread hreloads w hw haccepts
      refine hhands
        (executableOf bank s.programs w) v
        (.inr ⟨hread, hreloads, w, ?_, haccepts, rfl⟩) hv
      rw [copyOf, hw]
      rfl
  · intro hup executable v hhanded hv
    obtain ⟨hcached, hcopy⟩ := hup v hv
    rcases hhanded with ⟨e, hvisible, hkind, heff, hexp, hread⟩ |
      ⟨hread, hreloads, w, hw, haccepts, rfl⟩
    · exact hcached e executable hvisible hkind heff hexp hread
    · rcases or_eq_some_iff.mp hw with hold | ⟨_, hcache⟩
      · exact hcopy hread hreloads w hold haccepts
      · have hlatest := h.programdata.fetched w hcache
        rw [hv, some.injEq] at hlatest
        rw [hlatest]

end Exact

/-- After every history, the batches of a bank get executables of the programdata fetched last
exactly if the program cache and the slot-0 cache are up to date. -/
theorem handsLatest_iff (platform : Platform) (config : Config) (program programdata : Pubkey)
    (db : AccountsDb) (hwf : db.WellFormed)
    (hloader : db.remoteLoader = RemoteAccountLoader.new config)
    (hindex : ∀ k, k = program ∨ k = programdata →
      db.accountsIndex.slotList k = [] ∧ db.accountsCache.holds 0 k = none)
    (cache : LoadedPrograms) {es : List Event} {s : State}
    (hrun : Run (step platform) (start db cache) es s)
    (hprogram : IsUpgradeable program programdata s.accounts.fetches) (bank : Bank) :
    HandsLatest platform program programdata s bank ↔
      UpToDate platform program programdata s bank := by
  have hknown : ∀ k, k = program ∨ k = programdata → Known k (Freshness.start db) := by
    intro k hk
    refine { wellFormed := hwf, enable := ?_, noEntry := (hindex k hk).1, fetched := ?_
             copies := ?_, remote := ?_ }
    · simp [Freshness.start, hloader, RemoteAccountLoader.new]
    · intro v hv
      simp [Freshness.start, hloader, RemoteAccountLoader.new] at hv
    · intro v hv
      exact absurd (hv.symm.trans (hindex k hk).2) (by simp)
    · intro v hv
      cases hv
  have hstart : Inv program programdata (start db cache) :=
    ⟨hknown program (.inl rfl), hknown programdata (.inr rfl)⟩
  have hinv := GuardedRun.invariant (fun _ _ _ h _ hs => inv_step h hs) hrun hstart
  exact handsLatest_of_inv hinv hprogram

def upgradeableKey : Pubkey := .ofNat (2 ^ 255 + 31)

def programdataBytes : List UInt8 := List.replicate 31 7 ++ [9]

def programdataKey : Pubkey := Pubkey.ofBytes programdataBytes

def upgradeableRpc : RpcAccount :=
  { lamports := 1, data := [2, 0, 0, 0] ++ programdataBytes, owner := bpfLoaderUpgradeableId
    executable := true, rentEpoch := 0 }

/-- The programdata account at a version of the program, which has one byte. -/
def programdataRpc (version : UInt8) : RpcAccount :=
  { lamports := 1
    data := [3, 0, 0, 0] ++ [5, 0, 0, 0, 0, 0, 0, 0] ++ [0] ++ List.replicate 32 0 ++ [version]
    owner := bpfLoaderUpgradeableId, executable := false, rentEpoch := 0 }

def upgradeDb : AccountsDb := AccountsDb.new { sonicProgramId := [] } ∅

def migrateVersion (version : UInt8) : Event :=
  .accounts (.migrate upgradeableKey [some upgradeableRpc, some (programdataRpc version)])

def upgradeBatch : Event :=
  .batch exampleBank 0 false 5 [(upgradeableKey, bpfLoaderUpgradeableId, 1)]

def upgradeEnd (es : List Event) : State :=
  (exec (step examplePlatform) (start upgradeDb coldCache) es).getD (start upgradeDb coldCache)

def nextKind (s : State) : Option LoadedProgramType :=
  ((s.accounts.db.runReads exampleBank.ancestors (exampleBank.replenishProgramCache
      examplePlatform 0 false 5 s.programs
      [(upgradeableKey, bpfLoaderUpgradeableId, 1)])).2.2.batch?.bind
    (fun batch => batch.entries upgradeableKey)).map LoadedProgram.program

theorem hands_of_nextKind {s : State} {executable : Executable}
    (h : nextKind s = some (.legacyV1 executable)) :
    Hands examplePlatform s exampleBank upgradeableKey executable := by
  obtain ⟨entry, hentry, hkind⟩ := map_eq_some_iff.mp h
  obtain ⟨batch, hbatch, he⟩ := bind_eq_some_iff.mp hentry
  exact ⟨0, false, 5, _, batch, entry, hbatch, he, hkind⟩

/-- A migration, a batch, and a migration of the next version. -/
def staleEvents : List Event := [migrateVersion 1, upgradeBatch, migrateVersion 2]

/-- The next batch gets the first version: from the program cache, and also from the slot-0
cache when the program cache is emptied. -/
theorem upgrade_without_effect :
    Run (step examplePlatform) (start upgradeDb coldCache) staleEvents
        (upgradeEnd staleEvents) ∧
      Freshness.latest (upgradeEnd staleEvents).accounts.fetches programdataKey =
        some (RemoteAccountLoader.remoteAccount (programdataRpc 2)) ∧
      Hands examplePlatform (upgradeEnd staleEvents) exampleBank upgradeableKey
        { loader := 1, elfBytes := [1] } ∧
      Hands examplePlatform (upgradeEnd (staleEvents ++ [.programs coldCache])) exampleBank
        upgradeableKey { loader := 1, elfBytes := [1] } ∧
      ¬HandsLatest examplePlatform upgradeableKey programdataKey (upgradeEnd staleEvents)
        exampleBank := by
  have hlatest : latest (upgradeEnd staleEvents).accounts.fetches programdataKey =
      some (RemoteAccountLoader.remoteAccount (programdataRpc 2)) := by decide
  have hhands : Hands examplePlatform (upgradeEnd staleEvents) exampleBank upgradeableKey
      { loader := 1, elfBytes := [1] } := hands_of_nextKind (by decide)
  refine ⟨(run_iff_exec _).mpr rfl, hlatest, hhands, hands_of_nextKind (by decide), ?_⟩
  intro hup
  have hbytes := hup _ _ hhands hlatest
  revert hbytes
  decide

/-- Two migrations before the first batch. -/
def freshEvents : List Event := [migrateVersion 1, migrateVersion 2]

theorem freshEvents_isUpgradeable :
    IsUpgradeable upgradeableKey programdataKey
      (upgradeEnd freshEvents).accounts.fetches where
  program := by
    have hall : ∀ x ∈ (upgradeEnd freshEvents).accounts.fetches, x.1 = upgradeableKey →
        x.2.lamports ≠ 0 ∧ x.2.owner = bpfLoaderUpgradeableId ∧
          UpgradeableLoaderState.deserialize x.2.data = some (.program programdataKey) := by
      decide
    exact fun v hv => hall _ hv rfl
  programdata := by
    have hall : ∀ x ∈ (upgradeEnd freshEvents).accounts.fetches, x.1 = programdataKey →
        x.2.lamports ≠ 0 ∧
          UpgradeableLoaderState.deserialize x.2.data = some (.programData 5 none) := by
      decide
    intro v hv
    obtain ⟨hlamports, hdata⟩ := hall _ hv rfl
    exact ⟨hlamports, 5, none, hdata⟩

/-- Without a read between the two migrations, the batches get the second version. -/
theorem handsLatest_freshEvents :
    HandsLatest examplePlatform upgradeableKey programdataKey (upgradeEnd freshEvents)
        exampleBank ∧
      Hands examplePlatform (upgradeEnd freshEvents) exampleBank upgradeableKey
        { loader := 1, elfBytes := [2] } := by
  refine ⟨?_, hands_of_nextKind (by decide)⟩
  have hrun : Run (step examplePlatform) (start upgradeDb coldCache) freshEvents
      (upgradeEnd freshEvents) := (run_iff_exec _).mpr rfl
  have hindex : ∀ k, k = upgradeableKey ∨ k = programdataKey →
      upgradeDb.accountsIndex.slotList k = [] ∧ upgradeDb.accountsCache.holds 0 k = none :=
    fun _ _ => ⟨rfl, rfl⟩
  refine (handsLatest_iff examplePlatform _ upgradeableKey programdataKey upgradeDb
    (.new _ _ (by simp)) rfl hindex coldCache hrun
    freshEvents_isUpgradeable exampleBank).mpr ?_
  have hcopy : (upgradeEnd freshEvents).accounts.db.accountsCache.holds 0 programdataKey =
      none := by decide
  have hvisible : visibleEntry exampleBank (upgradeEnd freshEvents).programs upgradeableKey =
      none := by decide
  intro v _
  refine ⟨fun e _ he => ?_, fun _ _ w hw => ?_⟩
  · exact absurd (hvisible.symm.trans he) (by simp)
  · exact absurd (hcopy.symm.trans hw) (by simp)

end Upgrade
end Hypergrid
