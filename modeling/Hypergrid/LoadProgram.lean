import Hypergrid.Bank

/-!
# Loading a program into the cache

The model of `program_modification_slot`, `load_program_accounts` and `load_program` of
`runtime/src/bank.rs`.  The first decides which cached entry of a program is recent enough,
the last builds a new entry.

`ProgramState` is what the accounts of a key say, and the two functions are described by it:

* `programModificationSlot_eval`, `loadProgram_eval` : the two functions over a state.
* `matches_criterion_iff` : the entry meets the criterion exactly when the two functions
  take the deployment slot from the same place (`ProgramState.Agrees`).
-/

namespace Hypergrid
open LoadedProgramType LoadedPrograms Bank Option

inductive ProgramAccountLoadResult where
  | invalidAccountData
  | programOfLoaderV1orV2 (programAccount : AccountSharedData)
  | programOfLoaderV3 (programAccount programdataAccount : AccountSharedData) (slot : Slot)
  | programOfLoaderV4 (programAccount : AccountSharedData) (slot : Slot)
deriving DecidableEq

/-- The result of `load_program`. -/
inductive ProgramLoad where
  /-- there is no program account -/
  | nonexistent
  /-- the panic of `new_internal` for an owner that is no loader -/
  | panicked
  | loaded (program : LoadedProgram)
deriving DecidableEq

namespace Bank

variable (platform : Platform) (bank : Bank)

/-- `program_modification_slot`, where `none` is the error `ProgramAccountNotFound`. -/
def programModificationSlot (pubkey : Pubkey) : Reads (Option Slot) := do
  match ← getAccountWithFixedRoot pubkey with
  | none => return none
  | some program =>
    if program.owner = bpfLoaderUpgradeableId then
      match UpgradeableLoaderState.deserialize program.data with
      | some (.program programdataAddress) => do
          match ← getAccountWithFixedRoot programdataAddress with
          | none => return none
          | some programdata =>
            match UpgradeableLoaderState.deserialize programdata.data with
            | some (.programData slot _) =>
              if programdata.remote then return some 0
              else return some slot
            | _ => return none
      | _ => return none
    else if program.owner = loaderV4Id then
      return (LoaderV4State.getState program.data).map LoaderV4State.slot
    else return some 0

def loadProgramAccounts (pubkey : Pubkey) : Reads (Option ProgramAccountLoadResult) := do
  match ← getAccountWithFixedRoot pubkey with
  | none => return none
  | some programAccount =>
    if programAccount.owner = loaderV4Id then
      match LoaderV4State.getState programAccount.data with
      | some state =>
        if state.status ≠ .retracted then
          return some (.programOfLoaderV4 programAccount state.slot)
        else return some .invalidAccountData
      | none => return some .invalidAccountData
    else if programAccount.owner ≠ bpfLoaderUpgradeableId then
      return some (.programOfLoaderV1orV2 programAccount)
    else
      match UpgradeableLoaderState.deserialize programAccount.data with
      | some (.program programdataAddress) => do
          match ← getAccountWithFixedRoot programdataAddress with
          | some programdataAccount =>
            match UpgradeableLoaderState.deserialize programdataAccount.data with
            | some (.programData slot _) =>
              return some
                (.programOfLoaderV3 programAccount programdataAccount slot)
            | _ => return some .invalidAccountData
          | none => return some .invalidAccountData
      | _ => return some .invalidAccountData

/-- `load_program_from_bytes`; both of its branches call `new_internal`. -/
def loadProgramFromBytes (programdata : List UInt8) (loaderKey : Pubkey) (accountSize : Nat)
    (deploymentSlot : Slot) (environment : ProgramRuntimeEnvironment) (reloading : Bool) :
    Option (Option LoadedProgram) :=
  LoadedProgram.newInternal platform.vm loaderKey environment deploymentSlot
    (saturatingAdd deploymentSlot delayVisibilitySlotOffset) none programdata accountSize
    reloading

/-- The bytes behind an offset: `data.get(offset..)`. -/
def bytesFrom (offset : Nat) (data : List UInt8) : Option (List UInt8) :=
  if offset ≤ data.length then some (data.drop offset) else none

/-- The entry of an account load result, before the environments are compared; an error
becomes a tombstone. -/
def loadedProgram (environments : ProgramRuntimeEnvironments) (reload : Bool) :
    ProgramAccountLoadResult → Option LoadedProgram
  | .invalidAccountData => some (LoadedProgram.newTombstone bank.slot .closed)
  | .programOfLoaderV1orV2 programAccount =>
    (loadProgramFromBytes platform programAccount.data programAccount.owner
        programAccount.data.length 0 environments.programRuntimeV1 reload).getD
      (some (LoadedProgram.newTombstone 0
        (.failedVerification environments.programRuntimeV1)))
  | .programOfLoaderV3 programAccount programdataAccount slot =>
    ((bytesFrom UpgradeableLoaderState.sizeOfProgramdataMetadata
        programdataAccount.data).bind (fun programdata =>
      let depSlot := if programAccount.remote then 0 else slot
      loadProgramFromBytes platform programdata programAccount.owner
        (programAccount.data.length + programdataAccount.data.length) depSlot
        environments.programRuntimeV1 reload)).getD
      (some (LoadedProgram.newTombstone slot
        (.failedVerification environments.programRuntimeV1)))
  | .programOfLoaderV4 programAccount slot =>
    ((bytesFrom LoaderV4State.programDataOffset programAccount.data).bind (fun elfBytes =>
      let depSlot := if programAccount.remote then 0 else slot
      loadProgramFromBytes platform elfBytes loaderV4Id programAccount.data.length depSlot
        environments.programRuntimeV2 reload)).getD
      (some (LoadedProgram.newTombstone slot
        (.failedVerification environments.programRuntimeV2)))

/-- `load_program`; of the entry to recompile only its presence matters here. -/
def loadProgram (cache : LoadedPrograms) (pubkey : Pubkey) (reload recompile : Bool) :
    Reads ProgramLoad := do
  let effectiveEpoch := if recompile then saturatingAdd cache.latestRootEpoch 1 else bank.epoch
  let environments := cache.getEnvironmentsForEpoch effectiveEpoch
  match ← loadProgramAccounts pubkey with
  | none => return .nonexistent
  | some result =>
    match bank.loadedProgram platform environments reload result with
    | none => return .panicked
    | some program =>
      if environments ≠ cache.environments then
        return .loaded {
          program with
          effectiveSlot := max program.effectiveSlot
            (bank.epochSchedule.getFirstSlotInEpoch effectiveEpoch) }
      else return .loaded program

/-- The criterion that `replenish_program_cache` searches an entry with. -/
def matchCriteria (pubkey : Pubkey) : Reads LoadedProgramMatchCriteria :=
  if bank.checkProgramModificationSlot then do
    match ← programModificationSlot pubkey with
    | some slot => return .deployedOnOrAfterSlot slot
    | none => return .tombstone
  else return .noCriteria

end Bank

def Vm.accepts (vm : Vm) (environment : ProgramRuntimeEnvironment) (elfBytes : List UInt8) : Bool :=
  vm.load environment elfBytes && vm.verify { loader := environment, elfBytes } &&
    vm.jitCompile { loader := environment, elfBytes }

/-- What the accounts of a program say. -/
inductive ProgramState where
  /-- an account of the loaders v1 and v2, or of no loader -/
  | legacy (program : AccountSharedData)
  | upgradeable (program programdata : AccountSharedData) (slot : Slot)
  | loaderV4 (program : AccountSharedData) (state : LoaderV4State)
  /-- an account of the upgradeable loader or of loader v4 without a program -/
  | invalid
deriving DecidableEq

def programState (view : Pubkey → Option AccountSharedData) (pubkey : Pubkey) :
    Option ProgramState :=
  (view pubkey).map (fun program =>
    if program.owner = bpfLoaderUpgradeableId then
      match UpgradeableLoaderState.deserialize program.data with
      | some (.program programdataAddress) =>
        match view programdataAddress with
        | some programdata =>
          match UpgradeableLoaderState.deserialize programdata.data with
          | some (.programData slot _) => .upgradeable program programdata slot
          | _ => .invalid
        | none => .invalid
      | _ => .invalid
    else if program.owner = loaderV4Id then
      match LoaderV4State.getState program.data with
      | some state => .loaderV4 program state
      | none => .invalid
    else .legacy program)

namespace ProgramState

/-- What holds of a state that was read from an account of one of the four loaders. -/
def HasLoader : ProgramState → Prop
  | legacy program => program.owner = bpfLoaderId ∨ program.owner = bpfLoaderDeprecatedId
  | upgradeable program _ slot => program.owner = bpfLoaderUpgradeableId ∧ slot ≤ u64Max
  | loaderV4 program state =>
    LoaderV4State.programDataOffset ≤ program.data.length ∧
      program.owner = loaderV4Id ∧ state.slot ≤ u64Max
  | invalid => True

/-- The slot that `program_modification_slot` returns. -/
def modificationSlot : ProgramState → Option Slot
  | legacy _ => some 0
  | upgradeable _ programdata slot => some (if programdata.remote then 0 else slot)
  | loaderV4 _ state => some state.slot
  | invalid => none

/-- The result of `load_program_accounts`. -/
def loadResult : ProgramState → ProgramAccountLoadResult
  | legacy program => .programOfLoaderV1orV2 program
  | upgradeable program programdata slot => .programOfLoaderV3 program programdata slot
  | loaderV4 program state =>
    if state.status ≠ .retracted then .programOfLoaderV4 program state.slot
    else .invalidAccountData
  | invalid => .invalidAccountData

variable (vm : Vm) (environments : ProgramRuntimeEnvironments) (slot : Slot)

def elfLoads : ProgramState → Bool
  | legacy program => vm.accepts environments.programRuntimeV1 program.data
  | upgradeable _ programdata _ =>
    decide (UpgradeableLoaderState.sizeOfProgramdataMetadata ≤ programdata.data.length) &&
      vm.accepts environments.programRuntimeV1
        (programdata.data.drop UpgradeableLoaderState.sizeOfProgramdataMetadata)
  | loaderV4 program _ =>
    vm.accepts environments.programRuntimeV2
      (program.data.drop LoaderV4State.programDataOffset)
  | invalid => false

/-- The deployment slot of the entry that is built in a bank at the given slot.  A remote
program counts as deployed at slot 0, but only if its bytes are accepted. -/
def deploymentSlot : ProgramState → Slot
  | legacy _ => 0
  | upgradeable program programdata deployed =>
    if elfLoads vm environments (upgradeable program programdata deployed) && program.remote
    then 0 else deployed
  | loaderV4 program state =>
    if state.status = .retracted then slot
    else if elfLoads vm environments (loaderV4 program state) && program.remote then 0
    else state.slot
  | invalid => slot

def kind : ProgramState → LoadedProgramType
  | legacy program =>
    if elfLoads vm environments (legacy program) then
      let executable : Executable :=
        { loader := environments.programRuntimeV1, elfBytes := program.data }
      if program.owner = bpfLoaderDeprecatedId then .legacyV0 executable
      else .legacyV1 executable
    else .failedVerification environments.programRuntimeV1
  | upgradeable program programdata deployed =>
    if elfLoads vm environments (upgradeable program programdata deployed) then
      .legacyV1 {
        loader := environments.programRuntimeV1
        elfBytes :=
          programdata.data.drop UpgradeableLoaderState.sizeOfProgramdataMetadata }
    else .failedVerification environments.programRuntimeV1
  | loaderV4 program state =>
    if state.status = .retracted then .closed
    else if elfLoads vm environments (loaderV4 program state) then
      .typed {
        loader := environments.programRuntimeV2
        elfBytes := program.data.drop LoaderV4State.programDataOffset }
    else .failedVerification environments.programRuntimeV2
  | invalid => .closed

def accountSize : ProgramState → Nat
  | legacy program => program.data.length
  | upgradeable program programdata _ => program.data.length + programdata.data.length
  | loaderV4 program _ => program.data.length
  | invalid => 0

/-- The effective slot of the entry that is built, when the environments of the epoch are
the ones of the cache; a tombstone is effective at once. -/
def effectiveSlot (st : ProgramState) : Slot :=
  if (st.kind vm environments).isTombstone then st.deploymentSlot vm environments slot
  else saturatingAdd (st.deploymentSlot vm environments slot) delayVisibilitySlotOffset

/-- The entry, when the environments of the epoch are the ones of the cache. -/
def entry (st : ProgramState) : LoadedProgram :=
  { program := st.kind vm environments
    accountSize := if (st.kind vm environments).isTombstone then 0 else st.accountSize
    deploymentSlot := st.deploymentSlot vm environments slot
    effectiveSlot := st.effectiveSlot vm environments slot
    maybeExpirationSlot := none }

/-- The criterion takes the deployment slot from where the entry takes it, or from an
earlier one.  It looks at the programdata account where the entry looks at the program
account, it does not look whether a program of loader v4 is remote, and it takes the slot of
a retracted program as it is. -/
def Agrees : ProgramState → Prop
  | legacy _ => True
  | upgradeable program programdata deployed =>
    elfLoads vm environments (upgradeable program programdata deployed) = true →
      program.remote = true → programdata.remote = true ∨ deployed = 0
  | loaderV4 program state =>
    if state.status = .retracted then state.slot ≤ slot
    else
      elfLoads vm environments (loaderV4 program state) = true →
        program.remote = true → state.slot = 0
  | invalid => True

end ProgramState

open ProgramState
open UpgradeableLoaderState

section Eval
variable {platform : Platform} {bank : Bank} {view : Pubkey → Option AccountSharedData}
  {k : Pubkey}

@[simp] theorem getAccountWithFixedRoot_eval (k : Pubkey) :
    (getAccountWithFixedRoot k).eval (fun r => view r.key) = view k := rfl

theorem programModificationSlot_eval :
    (programModificationSlot k).eval (fun r => view r.key) =
      (programState view k).bind modificationSlot := by
  unfold programModificationSlot programState
  rw [ReadM.eval_bind, getAccountWithFixedRoot_eval]
  cases view k with
  | none => rfl
  | some program =>
    dsimp only [map_some, bind_some]
    split_ifs with hup hv4
    · split
      · rename_i programdataAddress _
        rw [ReadM.eval_bind, getAccountWithFixedRoot_eval]
        cases view programdataAddress with
        | none => rfl
        | some programdata =>
          dsimp only
          split
          · rename_i slot _ _
            cases hremote : programdata.remote <;>
              simp [modificationSlot, hremote]
          · rfl
      · rfl
    · cases LoaderV4State.getState program.data <;> rfl
    · rfl

theorem loadProgramAccounts_eval :
    (loadProgramAccounts k).eval (fun r => view r.key) = (programState view k).map loadResult := by
  unfold loadProgramAccounts programState
  rw [ReadM.eval_bind, getAccountWithFixedRoot_eval]
  cases view k with
  | none => rfl
  | some program =>
    dsimp only [map_some]
    by_cases hv4 : program.owner = loaderV4Id
    · have hup : program.owner ≠ bpfLoaderUpgradeableId := by
        rw [hv4]
        decide
      rw [if_pos hv4, if_neg hup, if_pos hv4]
      cases LoaderV4State.getState program.data with
      | none => rfl
      | some state =>
        dsimp only [loadResult]
        split_ifs <;> rfl
    · by_cases hup : program.owner = bpfLoaderUpgradeableId
      · rw [if_neg hv4, if_neg (not_not.mpr hup), if_pos hup]
        split
        · rename_i programdataAddress _
          rw [ReadM.eval_bind, getAccountWithFixedRoot_eval]
          cases view programdataAddress with
          | none => rfl
          | some programdata =>
            dsimp only
            split <;> rfl
        · rfl
      · rw [if_neg hv4, if_pos hup, if_neg hup, if_neg hv4]
        rfl

theorem littleEndian_lt (bs : List UInt8) : Pubkey.littleEndian bs < 256 ^ bs.length := by
  induction bs with
  | nil => simp [Pubkey.littleEndian]
  | cons b bs ih =>
    have hb := b.toNat_lt
    rw [Pubkey.littleEndian, List.length_cons, pow_succ]
    omega

theorem littleEndian_take_le (bs : List UInt8) : Pubkey.littleEndian (bs.take 8) ≤ u64Max := by
  have hlt := littleEndian_lt (bs.take 8)
  have hpow : 256 ^ (bs.take 8).length ≤ 256 ^ 8 := Nat.pow_le_pow_right (by norm_num) (by simp)
  unfold u64Max
  omega

theorem deserialize_programData_le {data : List UInt8} {slot : Slot} {a : Option Pubkey}
    (h : deserialize data = some (.programData slot a)) :
    slot ≤ u64Max := by
  unfold deserialize takeBytes at h
  split_ifs at h with hlen
  · simp only [bind_eq_bind, bind_some] at h
    split at h <;> try simp at h
    split_ifs at h with hlen'
    · simp only [bind_some, map_eq_some_iff, programData.injEq, exists_eq_right_right] at h
      obtain ⟨_, _, rfl, _⟩ := h
      exact littleEndian_take_le _
    · simp at h
  · simp at h

theorem hasLoader_of_owner {program : AccountSharedData} {st : ProgramState}
    (hview : view k = some program) (hstate : programState view k = some st)
    (howner : program.owner ∈ programOwners) : st.HasLoader := by
  simp only [programState, hview, map_some, some.injEq] at hstate
  split_ifs at hstate with hup hv4
  · split at hstate
    · split at hstate
      · split at hstate <;> subst hstate
        · rename_i hdata
          exact ⟨hup, deserialize_programData_le hdata⟩
        · trivial
      · subst hstate
        trivial
    · subst hstate
      trivial
  · cases hget : LoaderV4State.getState program.data with
    | none =>
      rw [hget] at hstate
      subst hstate
      trivial
    | some state =>
      rw [hget] at hstate
      subst hstate
      unfold LoaderV4State.getState at hget
      split_ifs at hget with hlen
      cases hget
      exact ⟨Nat.le_of_not_lt hlen, hv4, littleEndian_take_le _⟩
  · subst hstate
    simp only [programOwners, List.mem_cons, List.not_mem_nil, or_false] at howner
    tauto

theorem newInternal_eq (vm : Vm) (loaderKey : Pubkey)
    (environment : ProgramRuntimeEnvironment) (dep eff : Slot) (elfBytes : List UInt8)
    (size : Nat) :
    LoadedProgram.newInternal vm loaderKey environment dep eff none elfBytes size false =
      if vm.accepts environment elfBytes then
        some ((ofLoader loaderKey ⟨environment, elfBytes⟩).map
          (fun program => ⟨program, size, dep, eff, none⟩))
      else none := by
  unfold LoadedProgram.newInternal Vm.accepts
  by_cases hload : vm.load environment elfBytes = true
  · by_cases hverify : vm.verify ⟨environment, elfBytes⟩ = true
    · by_cases hjit : vm.jitCompile ⟨environment, elfBytes⟩ = true
      · simp [hload, hverify, hjit]
      · simp [hload, hverify, hjit]
    · simp [hload, hverify]
  · simp [hload]

theorem ofLoader_legacy {owner : Pubkey} (executable : Executable)
    (howner : owner = bpfLoaderId ∨ owner = bpfLoaderDeprecatedId) :
    ofLoader owner executable =
      some (if owner = bpfLoaderDeprecatedId then .legacyV0 executable
        else .legacyV1 executable) := by
  have hne : bpfLoaderId ≠ bpfLoaderDeprecatedId := by decide
  rcases howner with rfl | rfl
  · simp [ofLoader, hne]
  · simp [ofLoader]

theorem ofLoader_upgradeable (executable : Executable) :
    ofLoader bpfLoaderUpgradeableId executable = some (.legacyV1 executable) := by
  have hne : bpfLoaderUpgradeableId ≠ bpfLoaderDeprecatedId := by decide
  simp [ofLoader, hne]

theorem ofLoader_loaderV4 (executable : Executable) :
    ofLoader loaderV4Id executable = some (.typed executable) := by
  have hne : loaderV4Id ≠ bpfLoaderDeprecatedId := by decide
  have hne' : ¬(loaderV4Id = bpfLoaderId ∨ loaderV4Id = bpfLoaderUpgradeableId) := by decide
  simp [ofLoader, hne, hne']

theorem loadedProgram_loadResult (environments : ProgramRuntimeEnvironments)
    {st : ProgramState} (hloader : st.HasLoader) :
    bank.loadedProgram platform environments false st.loadResult =
      some (st.entry platform.vm environments bank.slot) := by
  cases st with
  | legacy program =>
    simp only [loadResult, loadedProgram, loadProgramFromBytes, newInternal_eq, entry,
      effectiveSlot, kind, elfLoads, deploymentSlot, ofLoader_legacy _ hloader]
    by_cases helf : platform.vm.accepts environments.programRuntimeV1 program.data = true
    · by_cases howner : program.owner = bpfLoaderDeprecatedId <;>
        simp [helf, howner, isTombstone, accountSize]
    · simp [helf, isTombstone, LoadedProgram.newTombstone]
  | upgradeable program programdata slot =>
    have howner : program.owner = bpfLoaderUpgradeableId := hloader.1
    simp only [loadResult, loadedProgram, loadProgramFromBytes, bytesFrom, newInternal_eq, entry,
      effectiveSlot, kind, elfLoads, deploymentSlot, howner, ofLoader_upgradeable]
    by_cases hlen : sizeOfProgramdataMetadata ≤
        programdata.data.length
    · by_cases helf : platform.vm.accepts environments.programRuntimeV1
          (programdata.data.drop sizeOfProgramdataMetadata) = true
      · simp [hlen, helf, isTombstone, accountSize]
      · simp [hlen, helf, isTombstone, LoadedProgram.newTombstone]
    · simp [hlen, isTombstone, LoadedProgram.newTombstone]
  | loaderV4 program state =>
    obtain ⟨hlen, _⟩ := hloader
    simp only [loadResult, entry, effectiveSlot, kind, elfLoads, deploymentSlot]
    by_cases hretracted : state.status = .retracted
    · simp [hretracted, loadedProgram, isTombstone, LoadedProgram.newTombstone]
    · simp only [hretracted, ne_eq, not_false_eq_true, if_true, if_false, loadedProgram,
        loadProgramFromBytes, bytesFrom, hlen, newInternal_eq, ofLoader_loaderV4]
      by_cases helf : platform.vm.accepts environments.programRuntimeV2
          (program.data.drop LoaderV4State.programDataOffset) = true
      · simp [helf, isTombstone, accountSize]
      · simp [helf, isTombstone, LoadedProgram.newTombstone]
  | invalid => rfl

/-- `load_program` finds nothing only when there is no account. -/
theorem loadProgram_nonexistent_iff {cache : LoadedPrograms} {reload recompile : Bool} :
    (bank.loadProgram platform cache k reload recompile).eval (fun r => view r.key) =
      .nonexistent ↔ view k = none := by
  unfold loadProgram
  rw [ReadM.eval_bind, loadProgramAccounts_eval]
  cases hview : view k with
  | none => simp [programState, hview]
  | some program =>
    simp only [programState, hview, map_some, reduceCtorEq, iff_false]
    split
    · simp
    · split_ifs <;> simp

end Eval

section States
variable {st : ProgramState} (vm : Vm) (environments : ProgramRuntimeEnvironments) (slot : Slot)

theorem deploymentSlot_le (hloader : st.HasLoader)
    (hkind : (st.kind vm environments).isTombstone = false) :
    st.deploymentSlot vm environments slot ≤ u64Max := by
  cases st with
  | legacy program => exact Nat.zero_le _
  | upgradeable program programdata deployed =>
    rw [deploymentSlot]
    split_ifs
    · exact Nat.zero_le _
    · exact hloader.2
  | loaderV4 program state =>
    rw [deploymentSlot]
    split_ifs with hretracted
    · simp [kind, hretracted, isTombstone] at hkind
    · exact Nat.zero_le _
    · exact hloader.2.2
  | invalid => simp [kind, isTombstone] at hkind

theorem effectiveSlot_cases (hloader : st.HasLoader) :
    st.effectiveSlot vm environments slot = st.deploymentSlot vm environments slot ∨
      st.effectiveSlot vm environments slot = st.deploymentSlot vm environments slot + 1 := by
  unfold effectiveSlot
  split_ifs with hkind
  · exact .inl rfl
  · have hle := deploymentSlot_le vm environments slot hloader (by simpa using hkind)
    unfold saturatingAdd delayVisibilitySlotOffset
    unfold Slot at *
    omega

theorem kind_cases (st : ProgramState) :
    st.kind vm environments = .closed ∨
      ∃ env, (env = environments.programRuntimeV1 ∨ env = environments.programRuntimeV2) ∧
        (st.kind vm environments = .failedVerification env ∨ ∃ bytes,
          st.kind vm environments = .legacyV0 ⟨env, bytes⟩ ∨
            st.kind vm environments = .legacyV1 ⟨env, bytes⟩ ∨
              st.kind vm environments = .typed ⟨env, bytes⟩) := by
  cases st with
  | legacy program =>
    refine .inr ⟨_, .inl rfl, ?_⟩
    dsimp only [kind]
    split_ifs <;> simp
  | upgradeable program programdata deployed =>
    refine .inr ⟨_, .inl rfl, ?_⟩
    dsimp only [kind]
    split_ifs <;> simp
  | loaderV4 program state =>
    dsimp only [kind]
    split_ifs
    · exact .inl rfl
    · exact .inr ⟨_, .inr rfl, by simp⟩
    · exact .inr ⟨_, .inr rfl, by simp⟩
  | invalid => exact .inl rfl

end States

variable (platform : Platform) (bank : Bank) (cache : LoadedPrograms)

def Bank.environments : ProgramRuntimeEnvironments :=
  cache.getEnvironmentsForEpoch bank.epoch

/-- The entry that `load_program` builds for a state. -/
def Bank.builtEntry (st : ProgramState) : LoadedProgram :=
  let e := st.entry platform.vm (bank.environments cache) bank.slot
  if bank.environments cache ≠ cache.environments then
    { e with
      effectiveSlot :=
        max e.effectiveSlot (bank.epochSchedule.getFirstSlotInEpoch bank.epoch) }
  else e

variable {platform bank cache} {view : Pubkey → Option AccountSharedData} {k : Pubkey}
  {st : ProgramState}

theorem loadProgram_eval (hstate : programState view k = some st) (hloader : st.HasLoader) :
    (bank.loadProgram platform cache k false false).eval (fun r => view r.key) =
      .loaded (bank.builtEntry platform cache st) := by
  unfold Bank.loadProgram Bank.builtEntry Bank.environments
  rw [ReadM.eval_bind, loadProgramAccounts_eval, hstate]
  simp only [Bool.false_eq_true, if_false, map_some, loadedProgram_loadResult _ hloader]
  split_ifs <;> rfl

@[simp] theorem builtEntry_program :
    (bank.builtEntry platform cache st).program =
      st.kind platform.vm (bank.environments cache) := by
  unfold builtEntry
  split_ifs <;> rfl

@[simp] theorem builtEntry_deploymentSlot :
    (bank.builtEntry platform cache st).deploymentSlot =
      st.deploymentSlot platform.vm (bank.environments cache) bank.slot := by
  unfold builtEntry
  split_ifs <;> rfl

@[simp] theorem builtEntry_maybeExpirationSlot :
    (bank.builtEntry platform cache st).maybeExpirationSlot = none := by
  unfold builtEntry
  split_ifs <;> rfl

/-- The effective slot of an entry: a tombstone is effective at its deployment slot, another
entry at the slot after it.  The first slot of the epoch only matters to entries that are
effective already. -/
theorem builtEntry_effectiveSlot (hloader : st.HasLoader) :
    (bank.builtEntry platform cache st).deploymentSlot ≤
        (bank.builtEntry platform cache st).effectiveSlot ∧
      ((bank.builtEntry platform cache st).effectiveSlot ≤ bank.slot ∨
        (bank.builtEntry platform cache st).effectiveSlot =
          (bank.builtEntry platform cache st).deploymentSlot ∨
        (bank.builtEntry platform cache st).effectiveSlot =
          (bank.builtEntry platform cache st).deploymentSlot + 1) := by
  have hepoch := bank.slotInEpoch
  have hstate := effectiveSlot_cases platform.vm (bank.environments cache) bank.slot hloader
  unfold builtEntry
  dsimp only [Slot] at *
  split_ifs <;> simp only [entry] <;> omega

theorem matchCriteria_eval (hcheck : bank.checkProgramModificationSlot = true)
    (hstate : programState view k = some st) :
    (bank.matchCriteria k).eval (fun r => view r.key) =
      match st.modificationSlot with
      | some slot => .deployedOnOrAfterSlot slot
      | none => .tombstone := by
  rw [matchCriteria, if_pos hcheck, ReadM.eval_bind, programModificationSlot_eval, hstate,
    bind_some]
  cases st.modificationSlot <;> rfl

theorem matches_criterion_iff (hcheck : bank.checkProgramModificationSlot = true)
    (hstate : programState view k = some st) :
    matchesLoadedProgramCriteria (bank.builtEntry platform cache st)
        ((bank.matchCriteria k).eval (fun r => view r.key)) = true ↔
      st.Agrees platform.vm (bank.environments cache) bank.slot := by
  rw [matchCriteria_eval hcheck hstate]
  cases st with
  | legacy program =>
    simp [modificationSlot, matchesLoadedProgramCriteria, ProgramState.Agrees]
  | upgradeable program programdata deployed =>
    simp only [modificationSlot, matchesLoadedProgramCriteria, ProgramState.Agrees,
      builtEntry_deploymentSlot, deploymentSlot, decide_eq_true_eq]
    generalize (upgradeable program programdata deployed).elfLoads platform.vm
      (bank.environments cache) = loads
    cases loads <;> cases program.remote <;> cases programdata.remote <;> simp
  | loaderV4 program state =>
    simp only [modificationSlot, matchesLoadedProgramCriteria, ProgramState.Agrees,
      builtEntry_deploymentSlot, deploymentSlot, decide_eq_true_eq]
    generalize (loaderV4 program state).elfLoads platform.vm
      (bank.environments cache) = loads
    split_ifs with hretracted hremote
    · rfl
    · simp only [Bool.and_eq_true] at hremote
      simp [hremote]
    · simp only [Bool.and_eq_true, not_and] at hremote
      simp only [le_refl, true_iff]
      exact fun hloads hr => absurd hr (hremote hloads)
  | invalid =>
    simp [modificationSlot, matchesLoadedProgramCriteria, ProgramState.Agrees,
      LoadedProgram.isTombstone, kind, isTombstone]

/-- An entry that was built belongs to the environments of the epoch, and is neither a
builtin nor unloaded. -/
theorem builtEntry_kind :
    matchesEnvironment (bank.builtEntry platform cache st)
        (bank.environments cache) = true ∧
      (bank.builtEntry platform cache st).program ≠ .builtin ∧
        (bank.builtEntry platform cache st).program.isUnloaded = false := by
  unfold matchesEnvironment
  rcases kind_cases platform.vm (bank.environments cache) st with
    h | ⟨env, rfl | rfl, h | ⟨bytes, h | h | h⟩⟩ <;>
    simp [h, getEnvironment, isUnloaded]

/-- The scan of `extract` stops at the entry that was built exactly when its deployment slot
is on the fork and not in the future. -/
theorem stops_builtEntry_iff (hloader : st.HasLoader) :
    cache.stops bank.slot (bank.environments cache) (bank.builtEntry platform cache st) = true ↔
      cache.onFork (bank.builtEntry platform cache st).deploymentSlot bank.slot = true ∧
        (bank.builtEntry platform cache st).deploymentSlot ≤ bank.slot := by
  obtain ⟨henv, hbuiltin, _⟩ := @builtEntry_kind platform bank cache st
  obtain ⟨hle, heff⟩ := @builtEntry_effectiveSlot platform bank cache st hloader
  refine ⟨onFork_of_stops hle, fun h => ?_⟩
  generalize bank.builtEntry platform cache st = e at *
  simp only [stops, henv, LoadedProgram.isImplicitDelayVisibilityTombstone, Bool.and_eq_true,
    Bool.or_eq_true, decide_eq_true_eq, and_true, ne_eq, hbuiltin, not_false_eq_true, true_and]
  refine ⟨h.1, ?_⟩
  have hdep := h.2
  unfold delayVisibilitySlotOffset Slot at *
  omega

theorem answer_builtEntry_isSome {matchCriteria : LoadedProgramMatchCriteria}
    (hmatch : matchesLoadedProgramCriteria
      (bank.builtEntry platform cache st) matchCriteria = true) :
    (answer bank.slot (bank.environments cache) matchCriteria
      (bank.builtEntry platform cache st)).isSome = true := by
  obtain ⟨_, _, hunloaded⟩ := @builtEntry_kind platform bank cache st
  unfold answer isEntryUsable
  split_ifs <;> simp_all

end Hypergrid
