import Hypergrid.Account

/-!
# The cache of loaded programs

The model of `program-runtime/src/loaded_programs.rs`, as far as a batch of transactions
uses it: the entries of a program, sorted by slot, the scan of `extract` for an entry that
the batch can use, and `assign_program`.  Usage counters and statistics are left out.

An environment is shared by reference in the source and compared by `Arc::ptr_eq`; here it
is a number.  The virtual machine that loads a program is a parameter (`Vm`).

* `scan_eq_find` : the scan stops at the newest entry that the batch can see and that is
  effective or delayed.
* `assign_idempotent` : assigning an entry a second time changes nothing.
* `scan_assign_of_none` : what the scan finds after an entry was assigned.
* `extract_eq` : the result of `extract`.
-/

namespace Hypergrid
open List Option

/-- A shared runtime environment, known by its address. -/
abbrev ProgramRuntimeEnvironment := Nat

structure ProgramRuntimeEnvironments where
  programRuntimeV1 : ProgramRuntimeEnvironment
  programRuntimeV2 : ProgramRuntimeEnvironment
deriving DecidableEq

/-- `Executable`: the bytes that were loaded, and the environment. -/
structure Executable where
  loader : ProgramRuntimeEnvironment
  elfBytes : List UInt8
deriving DecidableEq

/-- The virtual machine: which steps of `new_internal` succeed. -/
structure Vm where
  load : ProgramRuntimeEnvironment → List UInt8 → Bool
  verify : Executable → Bool
  jitCompile : Executable → Bool

inductive LoadedProgramType where
  | failedVerification (environment : ProgramRuntimeEnvironment)
  | closed
  | delayVisibility
  | unloaded (environment : ProgramRuntimeEnvironment)
  | legacyV0 (executable : Executable)
  | legacyV1 (executable : Executable)
  | typed (executable : Executable)
  | builtin
deriving DecidableEq

namespace LoadedProgramType

def getEnvironment : LoadedProgramType → Option ProgramRuntimeEnvironment
  | legacyV0 program => some program.loader
  | legacyV1 program => some program.loader
  | typed program => some program.loader
  | failedVerification env => some env
  | unloaded env => some env
  | _ => none

def discriminant : LoadedProgramType → Nat
  | failedVerification _ => 0
  | closed => 1
  | delayVisibility => 2
  | unloaded _ => 3
  | legacyV0 _ => 4
  | legacyV1 _ => 5
  | typed _ => 6
  | builtin => 7

def isTombstone : LoadedProgramType → Bool
  | failedVerification _ => true
  | closed => true
  | delayVisibility => true
  | _ => false

def isUnloaded : LoadedProgramType → Bool
  | unloaded _ => true
  | _ => false

/-- The kind of a program by its loader; there is none for other keys. -/
def ofLoader (loaderKey : Pubkey) (executable : Executable) : Option LoadedProgramType :=
  if loaderKey = bpfLoaderDeprecatedId then some (legacyV0 executable)
  else if loaderKey = bpfLoaderId ∨ loaderKey = bpfLoaderUpgradeableId then
    some (legacyV1 executable)
  else if loaderKey = loaderV4Id then some (typed executable)
  else none

end LoadedProgramType

def delayVisibilitySlotOffset : Slot := 1

structure LoadedProgram where
  program : LoadedProgramType
  accountSize : Nat
  deploymentSlot : Slot
  effectiveSlot : Slot
  maybeExpirationSlot : Option Slot
deriving DecidableEq

namespace LoadedProgram

variable {a b : LoadedProgram}

/-- `new_internal`, where `none` is an error of the virtual machine and `some none` the
panic for a key that is no loader. -/
def newInternal (vm : Vm) (loaderKey : Pubkey) (environment : ProgramRuntimeEnvironment)
    (deploymentSlot effectiveSlot : Slot) (maybeExpirationSlot : Option Slot)
    (elfBytes : List UInt8) (accountSize : Nat) (reloading : Bool) :
    Option (Option LoadedProgram) :=
  let executable : Executable := { loader := environment, elfBytes }
  if !vm.load environment elfBytes then none
  else if !reloading && !vm.verify executable then none
  else if !vm.jitCompile executable then none
  else
    some ((LoadedProgramType.ofLoader loaderKey executable).map (fun program =>
      { program, accountSize, deploymentSlot, effectiveSlot, maybeExpirationSlot }))

def newTombstone (slot : Slot) (reason : LoadedProgramType) : LoadedProgram :=
  { program := reason
    accountSize := 0
    deploymentSlot := slot
    effectiveSlot := slot
    maybeExpirationSlot :=
      if reason = .delayVisibility then some (saturatingAdd slot delayVisibilitySlotOffset)
      else none }

def isTombstone (p : LoadedProgram) : Bool := p.program.isTombstone

def isImplicitDelayVisibilityTombstone (p : LoadedProgram) (slot : Slot) : Bool :=
  decide (p.program ≠ .builtin) &&
    decide (p.effectiveSlot - p.deploymentSlot = delayVisibilitySlotOffset) &&
    decide (p.deploymentSlot ≤ slot) && decide (slot < p.effectiveSlot)

/-- The order of the entries of a program: effective slot, then deployment slot. -/
def Before (a b : LoadedProgram) : Prop :=
  a.effectiveSlot < b.effectiveSlot ∨
    a.effectiveSlot = b.effectiveSlot ∧ a.deploymentSlot < b.deploymentSlot

instance (a b : LoadedProgram) : Decidable (a.Before b) :=
  inferInstanceAs (Decidable (_ ∨ _))

def SameSlots (a b : LoadedProgram) : Prop :=
  a.effectiveSlot = b.effectiveSlot ∧ a.deploymentSlot = b.deploymentSlot

instance (a b : LoadedProgram) : Decidable (a.SameSlots b) :=
  inferInstanceAs (Decidable (_ ∧ _))

theorem before_trans {a b c : LoadedProgram} (hab : a.Before b) (hbc : b.Before c) :
    a.Before c := by
  unfold Before Slot at *
  omega

theorem not_before_self (a : LoadedProgram) : ¬a.Before a := by
  unfold Before Slot
  omega

theorem before_asymm (h : a.Before b) : ¬b.Before a :=
  fun h' => not_before_self a (before_trans h h')

theorem sameSlots_of_not_before (hab : ¬a.Before b) (hba : ¬b.Before a) : a.SameSlots b := by
  unfold Before SameSlots Slot at *
  omega

theorem not_before_of_sameSlots (h : a.SameSlots b) : ¬a.Before b := by
  unfold Before SameSlots Slot at *
  omega

end LoadedProgram

inductive LoadedProgramMatchCriteria where
  | deployedOnOrAfterSlot (slot : Slot)
  | tombstone
  | noCriteria
deriving DecidableEq

inductive BlockRelation where
  | ancestor
  | equal
  | descendant
  | unrelated
  | unknown
deriving DecidableEq

/-- The insertion of `assign_program` into the sorted entries of a program; the Boolean
says that the place was occupied by an entry of the same kind. -/
def assign (entry : LoadedProgram) : List LoadedProgram → List LoadedProgram × Bool
  | [] => ([entry], false)
  | existing :: rest =>
    if existing.Before entry then
      let r := assign entry rest
      (existing :: r.1, r.2)
    else if entry.Before existing then (entry :: existing :: rest, false)
    else if existing.program.discriminant ≠ entry.program.discriminant then
      (entry :: rest, false)
    else (existing :: rest, true)

theorem mem_assign {entry x : LoadedProgram} {vs : List LoadedProgram}
    (h : x ∈ (assign entry vs).1) : x = entry ∨ x ∈ vs := by
  induction vs with
  | nil => simpa [assign] using h
  | cons v vs ih =>
    unfold assign at h
    split_ifs at h <;> simp only [mem_cons] at h ⊢ <;> tauto

open LoadedProgram

theorem assign_sorted (entry : LoadedProgram) {vs : List LoadedProgram}
    (h : vs.Pairwise LoadedProgram.Before) :
    (assign entry vs).1.Pairwise LoadedProgram.Before := by
  induction vs with
  | nil => simp [assign]
  | cons v vs ih =>
    obtain ⟨hhead, htail⟩ := pairwise_cons.mp h
    unfold assign
    split_ifs with hlt hgt hkind
    · refine pairwise_cons.mpr ⟨?_, ih htail⟩
      intro x hx
      rcases mem_assign hx with rfl | hx
      · exact hlt
      · exact hhead x hx
    · refine pairwise_cons.mpr ⟨?_, h⟩
      intro x hx
      rcases mem_cons.mp hx with rfl | hx
      · exact hgt
      · exact before_trans hgt (hhead x hx)
    · -- the replaced entry has the slots of the new one
      refine pairwise_cons.mpr ⟨?_, htail⟩
      intro x hx
      have hvx := hhead x hx
      unfold LoadedProgram.Before Slot at *
      omega
    · exact h

theorem assign_idempotent (entry : LoadedProgram) (vs : List LoadedProgram) :
    assign entry (assign entry vs).1 = ((assign entry vs).1, true) := by
  induction vs with
  | nil => simp [assign, not_before_self]
  | cons v vs ih =>
    by_cases hlt : v.Before entry
    · simp [assign, hlt, ih]
    · by_cases hgt : entry.Before v
      · simp [assign, hlt, hgt, not_before_self]
      · by_cases hkind : v.program.discriminant = entry.program.discriminant
        · simp [assign, hlt, hgt, hkind]
        · simp [assign, hlt, hgt, hkind, not_before_self]

structure SecondLevel where
  slotVersions : List LoadedProgram
  /-- the slot and the thread of the batch that is loading the program -/
  cooperativeLoadingLock : Option (Slot × Nat)
  sorted : slotVersions.Pairwise LoadedProgram.Before

namespace SecondLevel

def default : SecondLevel :=
  { slotVersions := [], cooperativeLoadingLock := none, sorted := List.Pairwise.nil }

def assign (s : SecondLevel) (entry : LoadedProgram) : SecondLevel :=
  { s with
    slotVersions := (Hypergrid.assign entry s.slotVersions).1
    sorted := assign_sorted entry s.sorted }

def withLock (s : SecondLevel) (lock : Option (Slot × Nat)) : SecondLevel :=
  { s with cooperativeLoadingLock := lock }

end SecondLevel

/-- `LoadedPrograms`; a program without entries has the default second level. -/
structure LoadedPrograms where
  entries : Pubkey → SecondLevel
  latestRootSlot : Slot
  latestRootEpoch : Epoch
  environments : ProgramRuntimeEnvironments
  upcomingEnvironments : Option ProgramRuntimeEnvironments
  /-- the relation of the first slot to the second -/
  forkGraph : Slot → Slot → BlockRelation

structure LoadedProgramsForTxBatch where
  entries : Pubkey → Option LoadedProgram
  slot : Slot
  environments : ProgramRuntimeEnvironments
  upcomingEnvironments : Option ProgramRuntimeEnvironments
  latestRootEpoch : Epoch
  hitMaxLimit : Bool

/-- An entry of `missing_programs`. -/
structure ProgramSearch where
  key : Pubkey
  criteria : LoadedProgramMatchCriteria
  count : Nat
deriving DecidableEq

namespace LoadedPrograms

variable (c : LoadedPrograms)

def getEnvironmentsForEpoch (epoch : Epoch) : ProgramRuntimeEnvironments :=
  if epoch ≠ c.latestRootEpoch then c.upcomingEnvironments.getD c.environments
  else c.environments

def getUpcomingEnvironmentsForEpoch (epoch : Epoch) : Option ProgramRuntimeEnvironments :=
  if epoch = c.latestRootEpoch then c.upcomingEnvironments else none

def withEntry (key : Pubkey) (s : SecondLevel) : LoadedPrograms :=
  { c with entries := Function.update c.entries key s }

def assignProgram (key : Pubkey) (entry : LoadedProgram) : LoadedPrograms × Bool :=
  (c.withEntry key ((c.entries key).assign entry),
    (assign entry (c.entries key).slotVersions).2)

def matchesEnvironment (entry : LoadedProgram) (environments : ProgramRuntimeEnvironments) : Bool :=
  match entry.program.getEnvironment with
  | none => true
  | some environment =>
    environment == environments.programRuntimeV1 ||
      environment == environments.programRuntimeV2

def matchesLoadedProgramCriteria (program : LoadedProgram) :
    LoadedProgramMatchCriteria → Bool
  | .deployedOnOrAfterSlot slot => decide (slot ≤ program.deploymentSlot)
  | .tombstone => program.isTombstone
  | .noCriteria => true

def isEntryUsable (entry : LoadedProgram) (currentSlot : Slot)
    (matchCriteria : LoadedProgramMatchCriteria) : Bool :=
  if (entry.maybeExpirationSlot.map (fun e => decide (e ≤ currentSlot))).getD false then false
  else matchesLoadedProgramCriteria entry matchCriteria

/-- The test on the fork of an entry. -/
def onFork (deploymentSlot slot : Slot) : Bool :=
  decide (deploymentSlot ≤ c.latestRootSlot) ||
    match c.forkGraph deploymentSlot slot with
    | .equal => true
    | .ancestor => true
    | _ => false

/-- The loop of `extract` over the entries of one program, the newest first.  The result
is the entry for the batch. -/
def scan (c : LoadedPrograms) (slot : Slot) (environments : ProgramRuntimeEnvironments)
    (matchCriteria : LoadedProgramMatchCriteria) : List LoadedProgram → Option LoadedProgram
  | [] => none
  | entry :: older =>
    if c.onFork entry.deploymentSlot slot then
      if decide (entry.effectiveSlot ≤ slot) && matchesEnvironment entry environments then
        if !isEntryUsable entry slot matchCriteria then none
        else if entry.program.isUnloaded then none
        else some entry
      else if entry.isImplicitDelayVisibilityTombstone slot then
        some (LoadedProgram.newTombstone entry.deploymentSlot .delayVisibility)
      else scan c slot environments matchCriteria older
    else scan c slot environments matchCriteria older

def lookup (slot : Slot) (environments : ProgramRuntimeEnvironments)
    (x : ProgramSearch) : Option LoadedProgram :=
  c.scan slot environments x.criteria (c.entries x.key).slotVersions.reverse

/-- The results of `extract`. -/
structure Extracted where
  cache : LoadedPrograms
  searchFor : List ProgramSearch
  batch : LoadedProgramsForTxBatch
  cooperativeLoadingTask : Option (Pubkey × Nat)

def extract (threadId : Nat) (c : LoadedPrograms) (batch : LoadedProgramsForTxBatch)
    (task : Option (Pubkey × Nat)) : List ProgramSearch → Extracted
  | [] => { cache := c, searchFor := [], batch, cooperativeLoadingTask := task }
  | x :: xs =>
    match c.lookup batch.slot batch.environments x with
    | some entry =>
      extract threadId c
        { batch with entries := Function.update batch.entries x.key (some entry) } task xs
    | none =>
      let r :=
        if task.isNone ∧ (c.entries x.key).cooperativeLoadingLock.isNone then
          extract threadId
            (c.withEntry x.key
              ((c.entries x.key).withLock (some (batch.slot, threadId))))
            batch (some (x.key, x.count)) xs
        else extract threadId c batch task xs
      { r with searchFor := x :: r.searchFor }

def finishCooperativeLoadingTask (key : Pubkey)
    (loadedProgram : LoadedProgram) : LoadedPrograms × Bool :=
  (c.withEntry key ((c.entries key).withLock none)).assignProgram key loadedProgram

end LoadedPrograms

namespace LoadedProgramsForTxBatch

def newFromCache (slot : Slot) (epoch : Epoch) (cache : LoadedPrograms) :
    LoadedProgramsForTxBatch :=
  { entries := fun _ => none
    slot
    environments := cache.getEnvironmentsForEpoch epoch
    upcomingEnvironments := cache.getUpcomingEnvironmentsForEpoch epoch
    latestRootEpoch := cache.latestRootEpoch
    hitMaxLimit := false }

def replenish (b : LoadedProgramsForTxBatch) (key : Pubkey) (entry : LoadedProgram) :
    LoadedProgramsForTxBatch :=
  { b with entries := Function.update b.entries key (some entry) }

def find (b : LoadedProgramsForTxBatch) (key : Pubkey) : Option LoadedProgram :=
  (b.entries key).map (fun entry =>
    if entry.isImplicitDelayVisibilityTombstone b.slot then
      LoadedProgram.newTombstone entry.deploymentSlot .delayVisibility
    else entry)

end LoadedProgramsForTxBatch

open LoadedPrograms

section Entries
variable (c : LoadedPrograms) (slot : Slot) (environments : ProgramRuntimeEnvironments)

/-- The scan does not go past this entry. -/
def LoadedPrograms.stops (entry : LoadedProgram) : Bool :=
  c.onFork entry.deploymentSlot slot &&
    ((decide (entry.effectiveSlot ≤ slot) &&
        LoadedPrograms.matchesEnvironment entry environments) ||
      entry.isImplicitDelayVisibilityTombstone slot)

/-- What the scan finds where it stops. -/
def LoadedPrograms.answer (matchCriteria : LoadedProgramMatchCriteria)
    (entry : LoadedProgram) : Option LoadedProgram :=
  if decide (entry.effectiveSlot ≤ slot) &&
      LoadedPrograms.matchesEnvironment entry environments then
    if !LoadedPrograms.isEntryUsable entry slot matchCriteria then none
    else if entry.program.isUnloaded then none
    else some entry
  else some (LoadedProgram.newTombstone entry.deploymentSlot .delayVisibility)

theorem scan_eq_find (matchCriteria : LoadedProgramMatchCriteria) (vs : List LoadedProgram) :
    c.scan slot environments matchCriteria vs = (vs.find? (c.stops slot environments)).bind
        (answer slot environments matchCriteria) := by
  induction vs with
  | nil => rfl
  | cons v vs ih =>
    rw [scan, find?_cons, stops]
    cases hfork : c.onFork v.deploymentSlot slot with
    | false => simpa using ih
    | true =>
      cases heff : decide (v.effectiveSlot ≤ slot) &&
          matchesEnvironment v environments with
      | true => simp [answer, heff]
      | false =>
        cases hdelay : v.isImplicitDelayVisibilityTombstone slot with
        | true => simp [answer, heff]
        | false => simpa using ih

end Entries

theorem assign_split (e : LoadedProgram) {vs : List LoadedProgram}
    (h : vs.Pairwise LoadedProgram.Before) :
    ∃ older same newer : List LoadedProgram, vs = older ++ (same ++ newer) ∧
      (∀ v ∈ older, v.Before e) ∧ (∀ v ∈ same, v.SameSlots e) ∧ (∀ v ∈ newer, e.Before v) ∧
        ((∀ v ∈ same, v.program.discriminant ≠ e.program.discriminant) ∧
            assign e vs = (older ++ e :: newer, false) ∨
          (∃ v ∈ same, v.program.discriminant = e.program.discriminant) ∧
            assign e vs = (vs, true)) := by
  induction vs with
  | nil => exact ⟨[], [], [], rfl, by simp, by simp, by simp, .inl ⟨by simp, rfl⟩⟩
  | cons v vs ih =>
    obtain ⟨hhead, htail⟩ := pairwise_cons.mp h
    by_cases hlt : v.Before e
    · obtain ⟨older, same, newer, hvs, holder, hsame, hnewer, hcases⟩ := ih htail
      refine ⟨v :: older, same, newer, by rw [hvs]; rfl, ?_, hsame, hnewer, ?_⟩
      · intro w hw
        rcases mem_cons.mp hw with rfl | hw
        · exact hlt
        · exact holder w hw
      · rcases hcases with ⟨hne, hassign⟩ | ⟨heq, hassign⟩
        · exact .inl ⟨hne, by simp [assign, hlt, hassign]⟩
        · exact .inr ⟨heq, by simp [assign, hlt, hassign]⟩
    · by_cases hgt : e.Before v
      · refine ⟨[], [], v :: vs, rfl, by simp, by simp, ?_,
          .inl ⟨by simp, by simp [assign, hlt, hgt]⟩⟩
        intro w hw
        rcases mem_cons.mp hw with rfl | hw
        · exact hgt
        · exact before_trans hgt (hhead w hw)
      · have hslots := sameSlots_of_not_before hlt hgt
        refine ⟨[], [v], vs, rfl, by simp, by simpa using hslots, ?_, ?_⟩
        · intro w hw
          have hvw := hhead w hw
          unfold LoadedProgram.Before Slot at *
          omega
        · by_cases hkind : v.program.discriminant = e.program.discriminant
          · exact .inr ⟨⟨v, by simp, hkind⟩, by simp [assign, hlt, hgt, hkind]⟩
          · exact .inl ⟨by simpa using hkind, by simp [assign, hlt, hgt, hkind]⟩

section Refill
variable {c : LoadedPrograms} {slot : Slot} {environments : ProgramRuntimeEnvironments}

theorem onFork_of_stops {v : LoadedProgram} (hle : v.deploymentSlot ≤ v.effectiveSlot)
    (h : c.stops slot environments v = true) :
    c.onFork v.deploymentSlot slot = true ∧ v.deploymentSlot ≤ slot := by
  simp only [stops, isImplicitDelayVisibilityTombstone,
    Bool.and_eq_true, Bool.or_eq_true, decide_eq_true_eq] at h
  obtain ⟨hfork, ⟨heff, _⟩ | ⟨⟨_, hdep⟩, _⟩⟩ := h
  · exact ⟨hfork, le_trans hle heff⟩
  · exact ⟨hfork, hdep⟩

variable {matchCriteria : LoadedProgramMatchCriteria} {e : LoadedProgram}
  {vs : List LoadedProgram} (hsorted : vs.Pairwise LoadedProgram.Before)
  (hle : e.deploymentSlot ≤ e.effectiveSlot)
  (hstops : c.stops slot environments e = true ↔
    c.onFork e.deploymentSlot slot = true ∧ e.deploymentSlot ≤ slot)

include hsorted hle hstops

/-- What the scan finds after an entry was assigned, where it found nothing before: the new
entry, unless a newer entry stops the scan or an entry of its kind already has its place. -/
theorem scan_assign_of_none {r : LoadedProgram}
    (hnone : c.scan slot environments matchCriteria vs.reverse = none) :
    c.scan slot environments matchCriteria (assign e vs).1.reverse = some r ↔
      answer slot environments matchCriteria e = some r ∧ c.stops slot environments e = true ∧
        (∀ v ∈ vs, e.Before v → c.stops slot environments v = false) ∧
        ∀ v ∈ vs, v.SameSlots e → v.program.discriminant ≠ e.program.discriminant := by
  obtain ⟨older, same, newer, rfl, holder, hsame, hnewer, ⟨hkind, hassign⟩ | ⟨hkind, hassign⟩⟩ :=
    assign_split e hsorted
  · have hnone_newer : (∀ v ∈ older ++ (same ++ newer), e.Before v →
        c.stops slot environments v = false) ↔
          newer.reverse.find? (c.stops slot environments) = none := by
      simp only [find?_eq_none, mem_reverse, Bool.not_eq_true]
      refine ⟨fun h v hv => h v (by simp [hv]) (hnewer v hv), fun h v hv hlt => ?_⟩
      rcases mem_append.mp hv with hv | hv
      · exact absurd hlt (before_asymm (holder v hv))
      · rcases mem_append.mp hv with hv | hv
        · have hslots := hsame v hv
          exact absurd hlt
            (not_before_of_sameSlots ⟨hslots.1.symm, hslots.2.symm⟩)
        · exact h v hv
    have hdifferent : ∀ v ∈ older ++ (same ++ newer), v.SameSlots e →
        v.program.discriminant ≠ e.program.discriminant := by
      intro v hv hslots
      rcases mem_append.mp hv with hv | hv
      · exact absurd (holder v hv) (not_before_of_sameSlots hslots)
      · rcases mem_append.mp hv with hv | hv
        · exact hkind v hv
        · exact absurd (hnewer v hv)
            (not_before_of_sameSlots ⟨hslots.1.symm, hslots.2.symm⟩)
    simp only [scan_eq_find, reverse_append, append_assoc, find?_append] at hnone
    simp only [hnone_newer, scan_eq_find, hassign, reverse_append, reverse_cons,
      append_assoc, find?_append, and_iff_left hdifferent]
    cases hnew : newer.reverse.find? (c.stops slot environments) with
    | some n =>
      rw [hnew] at hnone
      simp only [some_or, bind_some] at hnone ⊢
      simp [hnone]
    | none =>
      cases hst : c.stops slot environments e with
      | true => simp [hst]
      | false =>
        -- an entry with the same slots would stop only where the new one does
        have hquiet : same.reverse.find? (c.stops slot environments) = none := by
          rw [find?_eq_none]
          intro v hv hvstops
          obtain ⟨heff, hdep⟩ := hsame v (mem_reverse.mp hv)
          rw [← hdep, ← heff] at hle
          have hreach := onFork_of_stops hle hvstops
          rw [hdep] at hreach
          rw [hstops.mpr hreach] at hst
          cases hst
        rw [hnew, hquiet, none_or, none_or] at hnone
        simp [hst, hnone]
  · obtain ⟨v, hv, hv'⟩ := hkind
    rw [hassign, hnone]
    refine ⟨fun h => (by cases h), ?_⟩
    rintro ⟨_, _, _, hdifferent⟩
    exact absurd hv' (hdifferent v (by simp [hv]) (hsame v hv))

/-- When the scan finds something, at the latest after an entry was assigned that answers
it. -/
theorem scan_assign_isSome_iff
    (hanswer : c.stops slot environments e = true →
      (answer slot environments matchCriteria e).isSome = true) :
    ((c.scan slot environments matchCriteria vs.reverse).isSome = true ∨
        (c.scan slot environments matchCriteria (assign e vs).1.reverse).isSome = true) ↔
      (c.scan slot environments matchCriteria vs.reverse).isSome = true ∨
        c.stops slot environments e = true ∧
          (∀ v ∈ vs, e.Before v → c.stops slot environments v = false) ∧
          ∀ v ∈ vs, v.SameSlots e → v.program.discriminant ≠ e.program.discriminant := by
  cases hscan : c.scan slot environments matchCriteria vs.reverse with
  | some r => simp
  | none =>
    simp only [isSome_none, Bool.false_eq_true, false_or, isSome_iff_exists,
      scan_assign_of_none hsorted hle hstops hscan]
    refine ⟨fun ⟨_, _, h⟩ => h, fun h => ?_⟩
    obtain ⟨r, hr⟩ := isSome_iff_exists.mp (hanswer h.1)
    exact ⟨r, hr, h⟩

end Refill

namespace LoadedPrograms

variable (c : LoadedPrograms) (slot : Slot) (environments : ProgramRuntimeEnvironments)
variable (batch : LoadedProgramsForTxBatch) (xs : List ProgramSearch) (key : Pubkey)
  (lock : Option (Slot × Nat))

theorem lookup_withEntry (s : SecondLevel) (x : ProgramSearch) :
    (c.withEntry key s).lookup slot environments x =
      if x.key = key then
        c.scan slot environments x.criteria s.slotVersions.reverse
      else c.lookup slot environments x := by
  unfold lookup
  simp only [scan_eq_find, withEntry, Function.update_apply]
  split_ifs <;> rfl

/-- A lock does not matter to a search. -/
@[simp] theorem lookup_withLock (x : ProgramSearch) :
    (c.withEntry key ((c.entries key).withLock lock)).lookup slot environments x =
      c.lookup slot environments x := by
  rw [lookup_withEntry]
  split_ifs with h
  · rw [lookup, h]
    rfl
  · rfl

/-- The searches that `extract` does not answer. -/
def missing : List ProgramSearch :=
  xs.filter (fun x => (c.lookup batch.slot batch.environments x).isNone)

/-- The batch with the entries that `extract` finds. -/
def fill (batch : LoadedProgramsForTxBatch) : List ProgramSearch → LoadedProgramsForTxBatch
  | [] => batch
  | x :: xs =>
    match c.lookup batch.slot batch.environments x with
    | some entry =>
      fill { batch with entries := Function.update batch.entries x.key (some entry) } xs
    | none => fill batch xs

@[simp] theorem fill_slot : (c.fill batch xs).slot = batch.slot := by
  induction xs generalizing batch with
  | nil => rfl
  | cons x xs ih =>
    rw [fill]
    split <;> exact ih _

@[simp] theorem fill_environments : (c.fill batch xs).environments = batch.environments := by
  induction xs generalizing batch with
  | nil => rfl
  | cons x xs ih =>
    rw [fill]
    split <;> exact ih _

@[simp] theorem fill_withLock (batch : LoadedProgramsForTxBatch) (xs : List ProgramSearch) :
    (c.withEntry key ((c.entries key).withLock lock)).fill batch xs = c.fill batch xs := by
  induction xs generalizing batch with
  | nil => rfl
  | cons x xs ih =>
    rw [fill, fill, lookup_withLock]
    split <;> exact ih _

@[simp] theorem missing_withLock (batch : LoadedProgramsForTxBatch) (xs : List ProgramSearch) :
    (c.withEntry key ((c.entries key).withLock lock)).missing batch xs = c.missing batch xs := by
  simp [missing]

theorem extract_some (threadId : Nat) (batch : LoadedProgramsForTxBatch)
    (task : Pubkey × Nat) (xs : List ProgramSearch) :
    c.extract threadId batch (some task) xs =
      { cache := c, searchFor := c.missing batch xs, batch := c.fill batch xs
        cooperativeLoadingTask := some task } := by
  induction xs generalizing batch with
  | nil => rfl
  | cons x xs ih =>
    cases hx : c.lookup batch.slot batch.environments x with
    | some entry => simp [extract, fill, missing, hx, ih]
    | none => simp [extract, fill, missing, hx, ih]

/-- The first search that is not answered and that no batch is loading. -/
def nextTask : Option ProgramSearch :=
  (c.missing batch xs).find? (fun x => (c.entries x.key).cooperativeLoadingLock.isNone)

/-- What `extract` does: it answers the searches that it can, and locks its next task. -/
theorem extract_eq (threadId : Nat) (batch : LoadedProgramsForTxBatch) (xs : List ProgramSearch) :
    c.extract threadId batch none xs =
      { cache :=
          match c.nextTask batch xs with
          | none => c
          | some x =>
            c.withEntry x.key ((c.entries x.key).withLock (some (batch.slot, threadId)))
        searchFor := c.missing batch xs
        batch := c.fill batch xs
        cooperativeLoadingTask := (c.nextTask batch xs).map (fun x => (x.key, x.count)) } := by
  induction xs generalizing batch with
  | nil => rfl
  | cons x xs ih =>
    cases hx : c.lookup batch.slot batch.environments x with
    | some entry => simp [extract, fill, missing, nextTask, hx, ih]
    | none =>
      have hmissing : c.missing batch (x :: xs) = x :: c.missing batch xs := by
        simp [missing, hx]
      rw [nextTask, hmissing, find?_cons]
      cases hlock : (c.entries x.key).cooperativeLoadingLock with
      | none =>
        simp [extract, hx, hlock, extract_some, fill, fill_withLock, missing_withLock]
      | some lock => simp [extract, hx, hlock, ih, fill, nextTask]

theorem nextTask_of_free {batch : LoadedProgramsForTxBatch} {xs : List ProgramSearch}
    (hfree : ∀ x ∈ xs, (c.entries x.key).cooperativeLoadingLock = none) :
    c.nextTask batch xs = (c.missing batch xs).head? := by
  rw [nextTask]
  cases hmissing : c.missing batch xs with
  | nil => rfl
  | cons x rest =>
    have hx : x ∈ xs := mem_of_mem_filter (hmissing ▸ mem_cons_self)
    rw [find?_cons, hfree x hx]
    rfl

end LoadedPrograms
end Hypergrid
