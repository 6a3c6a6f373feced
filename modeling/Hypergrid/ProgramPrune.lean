import Hypergrid.ProgramCache

/-!
# Pruning the cache of loaded programs

The model of `prune`, `prune_by_deployment_slot` and `remove_programs` of
`program-runtime/src/loaded_programs.rs`.  A program without versions and without a lock has the
default second level, so `remove_programs_with_no_entries` needs no step of its own.
-/

namespace Hypergrid
namespace SecondLevel

def retain (s : SecondLevel) (vs : List LoadedProgram) (h : vs.Sublist s.slotVersions) :
    SecondLevel :=
  { s with
    slotVersions := vs
    sorted := s.sorted.sublist h }

end SecondLevel

namespace LoadedPrograms

variable (c : LoadedPrograms) (newRootSlot : Slot)

def pruneByDeploymentSlot (slot : Slot) : LoadedPrograms :=
  { c with
    entries := fun key => (c.entries key).retain
      ((c.entries key).slotVersions.filter (fun entry => entry.deploymentSlot ≠ slot))
      List.filter_sublist }

/-- The version lies on the path to the new root, or is rooted already. -/
def onRootPath (entry : LoadedProgram) : Bool :=
  c.forkGraph entry.deploymentSlot newRootSlot == .ancestor ||
    decide (entry.deploymentSlot ≤ c.latestRootSlot)

/-- Both versions have an environment, and not the same. -/
def environmentsDiffer : Option ProgramRuntimeEnvironment → Option ProgramRuntimeEnvironment → Bool
  | some entryEnv, some env => decide (entryEnv ≠ env)
  | _, _ => false

/-- The test of the first filter of `prune`.  The environment of the first ancestor is there once it
was found. -/
def keepsFork (found : Option (Option ProgramRuntimeEnvironment)) (entry : LoadedProgram) : Bool :=
  if newRootSlot ≤ entry.deploymentSlot then
    c.forkGraph entry.deploymentSlot newRootSlot == .equal ||
      c.forkGraph entry.deploymentSlot newRootSlot == .descendant
  else if c.onRootPath newRootSlot entry then
    match found with
    | none => true
    | some env => environmentsDiffer entry.program.getEnvironment env
  else false

/-- The first filter of `prune`, the newest version first. -/
def filterForks (newRootSlot : Slot) (found : Option (Option ProgramRuntimeEnvironment)) :
    List LoadedProgram → List LoadedProgram
  | [] => []
  | entry :: older =>
    let found' :=
      if entry.deploymentSlot < newRootSlot ∧ c.onRootPath newRootSlot entry then
        some (found.getD entry.program.getEnvironment)
      else found
    if c.keepsFork newRootSlot found entry then entry :: filterForks newRootSlot found' older
    else filterForks newRootSlot found' older

/-- The second filter of `prune`. -/
def unexpired (ends : Bool) (environments : ProgramRuntimeEnvironments)
    (entry : LoadedProgram) : Bool :=
  !(entry.maybeExpirationSlot.any (fun expiration => decide (expiration ≤ newRootSlot))) &&
    !(ends && !matchesEnvironment entry environments)

theorem filterForks_sublist (vs : List LoadedProgram) :
    ∀ found, (c.filterForks newRootSlot found vs).Sublist vs := by
  induction vs with
  | nil => exact fun found => List.Sublist.refl _
  | cons v vs ih =>
    intro found
    rw [filterForks]
    split_ifs
    · exact (ih _).cons_cons v
    · exact (ih _).cons_cons v
    · exact (ih _).cons v
    · exact (ih _).cons v

/-- The versions that `prune` leaves. -/
def pruneVersions (ends : Bool) (environments : ProgramRuntimeEnvironments)
    (vs : List LoadedProgram) : List LoadedProgram :=
  ((c.filterForks newRootSlot none vs.reverse).filter
    (unexpired newRootSlot ends environments)).reverse

theorem pruneVersions_sublist (ends : Bool)
    (environments : ProgramRuntimeEnvironments) (vs : List LoadedProgram) :
    (c.pruneVersions newRootSlot ends environments vs).Sublist vs := by
  rw [pruneVersions, ← List.reverse_sublist, List.reverse_reverse]
  exact List.filter_sublist.trans (c.filterForks_sublist newRootSlot vs.reverse none)

def prune (newRootEpoch : Epoch) : LoadedPrograms :=
  let newEpoch := decide (c.latestRootEpoch ≠ newRootEpoch)
  let ends := newEpoch && c.upcomingEnvironments.isSome
  let environments :=
    if newEpoch then c.upcomingEnvironments.getD c.environments else c.environments
  { c with
    latestRootEpoch := newRootEpoch
    upcomingEnvironments := if newEpoch then none else c.upcomingEnvironments
    environments
    entries := fun key => (c.entries key).retain
      (c.pruneVersions newRootSlot ends environments (c.entries key).slotVersions)
      (c.pruneVersions_sublist newRootSlot ends environments _)
    latestRootSlot := newRootSlot }

def removePrograms (keys : List Pubkey) : LoadedPrograms :=
  { c with entries := fun key => if key ∈ keys then SecondLevel.default else c.entries key }

end LoadedPrograms
end Hypergrid
