import Hypergrid.ProgramPrune
import Hypergrid.Lib.ParentTree

/-!
# What a batch sees of the programs after pruning

Histories of `assign_program` and `prune` over a forest of slots, without upcoming environments.  A
batch at the new root or below it finds the newest version in force for it; `prune` may drop this
version because it is expired, or because a newer version below the root was found first.

* `filterForks_none` : the first filter of `prune` keeps what the first ancestor leaves.
* `lookup_prune` : a search after `prune` meets the surviving versions.
* `visible_after_prune_iff` : the searches have the same answers after `prune` exactly if the newest
  version in force survives, or it and the newest surviving one are spent.
* `expired_version_uncovered` : a history in which they have not.
-/

namespace Hypergrid
open List LoadedProgram

namespace LoadedPrograms

/-- The fork graph gives the relations of a forest. -/
structure FollowsTree (tree : ParentTree Slot id) (graph : Slot → Slot → BlockRelation) : Prop where
  equal : ∀ {a b}, graph a b = .equal ↔ b = a
  ancestor : ∀ {a b}, graph a b = .ancestor ↔ tree.Ancestor a b
  descendant : ∀ {a b}, graph a b = .descendant ↔ tree.Ancestor b a

/-- The effective slot of a version is its deployment slot or the next one. -/
def Timely (v : LoadedProgram) : Prop :=
  v.effectiveSlot = v.deploymentSlot ∨
    v.effectiveSlot = v.deploymentSlot + delayVisibilitySlotOffset

/-- A cache after assignments and prunings, of roots that only advance. -/
inductive History (tree : ParentTree Slot id) : LoadedPrograms → Prop
  | new {c : LoadedPrograms} : FollowsTree tree c.forkGraph → c.upcomingEnvironments = none →
      (∀ key, c.entries key = SecondLevel.default) → History tree c
  | assign {c : LoadedPrograms} (key : Pubkey) {entry : LoadedProgram} : History tree c →
      Timely entry → History tree (c.assignProgram key entry).1
  | prune {c : LoadedPrograms} {root : Slot} (epoch : Epoch) : History tree c →
      tree.AncestorOrSelf c.latestRootSlot root → History tree (c.prune root epoch)

/-- What every history keeps. -/
structure Regular (tree : ParentTree Slot id) (c : LoadedPrograms) : Prop where
  graph : FollowsTree tree c.forkGraph
  current : c.upcomingEnvironments = none
  timely : ∀ key, ∀ v ∈ (c.entries key).slotVersions, Timely v

section Visibility
variable (c : LoadedPrograms) (root slot : Slot) (versions : List LoadedProgram)

/-- The versions of a program, the newest first. -/
def newestFirst (key : Pubkey) : List LoadedProgram := (c.entries key).slotVersions.reverse

/-- The newest version that is deployed below the new root, on the path to it. -/
def firstAncestor : Option LoadedProgram :=
  versions.find? (fun v => decide (v.deploymentSlot < root) && c.onRootPath root v)

/-- The version is on the fork of the new root; below it, it is the first ancestor or has another
environment. -/
def onNewFork (first : Option LoadedProgram) (v : LoadedProgram) : Bool :=
  c.keepsFork root
    (if first = none ∨ first = some v then none else first.map (·.program.getEnvironment)) v

/-- The version is on the fork of the new root, and has not expired there. -/
def survives (v : LoadedProgram) : Bool :=
  c.onNewFork root (c.firstAncestor root versions) v && unexpired root false c.environments v

/-- The version has come into effect, but is expired or unloaded. -/
def isSpent (v : LoadedProgram) : Bool :=
  decide (v.effectiveSlot ≤ slot) && matchesEnvironment v c.environments &&
    (!isEntryUsable v slot .noCriteria || v.program.isUnloaded)

/-- A search of a batch ends at the version. -/
def inForce (v : LoadedProgram) : Bool := c.stops slot c.environments v

/-- The newest version in force for a batch is kept, or it is spent and so is the newest one that is
kept. -/
def Settled (keep : LoadedProgram → Bool) : Prop :=
  ∀ v ∈ versions.find? (c.inForce slot), keep v = true ∨ c.isSpent slot v = true ∧
    ∀ w ∈ (versions.filter keep).find? (c.inForce slot), c.isSpent slot w = true

variable {c root slot versions} {tree : ParentTree Slot id} {v w : LoadedProgram}

theorem filterForks_some (env : Option ProgramRuntimeEnvironment) :
    c.filterForks root (some env) versions = versions.filter (c.keepsFork root (some env)) := by
  induction versions with
  | nil => rfl
  | cons v versions ih => simp [filterForks, filter_cons, ih]

theorem filterForks_none (h : versions.Nodup) :
    c.filterForks root none versions =
      versions.filter (c.onNewFork root (c.firstAncestor root versions)) := by
  induction versions with
  | nil => rfl
  | cons v versions ih =>
    obtain ⟨hv, hrest⟩ := nodup_cons.mp h
    rw [filterForks, filter_cons, firstAncestor, find?_cons]
    by_cases hfirst : v.deploymentSlot < root ∧ c.onRootPath root v
    · have hother : versions.filter (c.onNewFork root (some v)) =
          versions.filter (c.keepsFork root (some v.program.getEnvironment)) := by
        refine filter_congr fun w hw => ?_
        have hne : v ≠ w := fun heq => hv (heq ▸ hw)
        simp [onNewFork, hne]
      simp [hfirst, onNewFork, keepsFork, not_le.mpr hfirst.1, filterForks_some, hother]
    · have hkeeps : ∀ found, c.keepsFork root found v = c.keepsFork root none v := by
        intro found
        unfold keepsFork
        split_ifs with hle hpath
        · rfl
        · exact absurd ⟨not_le.mp hle, hpath⟩ hfirst
        · rfl
      have hnot : (decide (v.deploymentSlot < root) && c.onRootPath root v) = false := by
        simpa using hfirst
      have hnew : ∀ first, c.onNewFork root first v = c.keepsFork root none v := fun _ => hkeeps _
      rw [hnot, if_neg hfirst, ih hrest, hnew]
      rfl

theorem onFork_iff (h : Regular tree c) (a : Slot) :
    c.onFork a slot = true ↔ a ≤ c.latestRootSlot ∨ tree.AncestorOrSelf a slot := by
  rw [onFork, Bool.or_eq_true, decide_eq_true_eq, ParentTree.ancestorOrSelf_iff, ← h.graph.equal,
    ← h.graph.ancestor]
  cases c.forkGraph a slot <;> simp

theorem Regular.prune (h : Regular tree c) (epoch : Epoch) : Regular tree (c.prune root epoch) :=
  ⟨h.graph, by simp [LoadedPrograms.prune, h.current],
    fun key v hv => h.timely key v ((pruneVersions_sublist ..).subset hv)⟩

theorem History.regular (h : History tree c) : Regular tree c := by
  induction h with
  | new hgraph hcurrent hentries =>
    refine ⟨hgraph, hcurrent, fun key v hv => ?_⟩
    rw [hentries] at hv
    cases hv
  | @assign c key entry _ htimely ih =>
    refine ⟨ih.graph, ih.current, fun key' v hv => ?_⟩
    have hv' :
      v ∈ (Function.update c.entries key ((c.entries key).assign entry) key').slotVersions :=
      hv
    rw [Function.update_apply] at hv'
    split_ifs at hv' with hkey
    · rcases mem_assign hv' with rfl | hold
      · exact htimely
      · exact ih.timely key v hold
    · exact ih.timely key' v hv'
  | prune epoch _ _ ih => exact ih.prune epoch

theorem onFork_prune (h : Regular tree c) (epoch : Epoch) (hroot : c.latestRootSlot ≤ root)
    (hslot : tree.AncestorOrSelf root slot) {found : Option (Option ProgramRuntimeEnvironment)}
    (hv : c.keepsFork root found v = true) :
    (c.prune root epoch).onFork v.deploymentSlot slot = c.onFork v.deploymentSlot slot := by
  rw [Bool.eq_iff_iff, onFork_iff (h.prune epoch), onFork_iff h]
  refine ⟨fun hfork => ?_, Or.imp_left (le_trans · hroot)⟩
  rcases hfork with hle | hpath
  · unfold keepsFork at hv
    split_ifs at hv with hge hon
    · rw [le_antisymm hle hge]
      exact .inr hslot
    · rw [onRootPath, Bool.or_eq_true, beq_iff_eq, h.graph.ancestor, decide_eq_true_eq] at hon
      exact hon.symm.imp_right (fun hanc => hanc.orSelf.trans hslot)
  · exact .inr hpath

theorem lookup_prune (h : Regular tree c) (epoch : Epoch) (hroot : c.latestRootSlot ≤ root)
    (hslot : tree.AncestorOrSelf root slot) (x : ProgramSearch) :
    (c.prune root epoch).lookup slot c.environments x =
      (((c.newestFirst x.key).filter (c.survives root (c.newestFirst x.key))).find?
        (c.inForce slot)).bind (answer slot c.environments x.criteria) := by
  have hnodup : (c.newestFirst x.key).Nodup := by
    rw [newestFirst, nodup_reverse]
    refine List.Pairwise.imp ?_ (c.entries x.key).sorted
    rintro a _ hab rfl
    exact not_before_self a hab
  have hpruned : ((c.prune root epoch).entries x.key).slotVersions =
      ((c.newestFirst x.key).filter (c.survives root (c.newestFirst x.key))).reverse := by
    dsimp only [prune, SecondLevel.retain, pruneVersions]
    rw [← newestFirst, filterForks_none hnodup, filter_filter, h.current]
    congr 1
    refine filter_congr fun v _ => ?_
    simp [survives, unexpired, Bool.and_comm]
  rw [lookup, scan_eq_find, hpruned, reverse_reverse]
  congr 1
  refine find?_congr fun v hv => ?_
  have hsurvives := of_mem_filter hv
  rw [survives, Bool.and_eq_true] at hsurvives
  simp [inForce, stops, onFork_prune h epoch hroot hslot hsurvives.1]

theorem answer_of_isSpent (h : c.isSpent slot v = true)
    (criteria : LoadedProgramMatchCriteria) : answer slot c.environments criteria v = none := by
  simp only [isSpent, isEntryUsable, Bool.and_eq_true] at h
  unfold answer isEntryUsable
  grind [matchesLoadedProgramCriteria]

/-- A version at which the scan stops has come into effect, or does so in the next slot. -/
theorem inForce_cases (h : c.inForce slot v = true) :
    (v.effectiveSlot ≤ slot ∧ ∀ criteria, answer slot c.environments criteria v =
      if c.isSpent slot v || !matchesLoadedProgramCriteria v criteria then none else some v) ∨
    (v.deploymentSlot = slot ∧ v.effectiveSlot = slot + 1 ∧
      ∀ criteria, answer slot c.environments criteria v =
        some (newTombstone slot .delayVisibility)) := by
  simp only [inForce, stops, isImplicitDelayVisibilityTombstone, Bool.and_eq_true,
    Bool.or_eq_true, decide_eq_true_eq] at h
  cases heffect : decide (v.effectiveSlot ≤ slot) && matchesEnvironment v c.environments with
  | true =>
    refine .inl ⟨(by simpa using heffect : _ ∧ _).1, fun criteria => ?_⟩
    simp only [answer, isSpent, heffect, isEntryUsable, matchesLoadedProgramCriteria]
    grind
  | false =>
    obtain ⟨⟨⟨_, hone⟩, hdep⟩, hnext⟩ := h.2.resolve_left (by simpa using heffect)
    unfold delayVisibilitySlotOffset Slot at *
    have hslot : v.deploymentSlot = slot := Nat.le_antisymm hdep (by omega)
    refine .inr ⟨hslot, Nat.le_antisymm (by omega) hnext, fun criteria => ?_⟩
    simp [answer, heffect, hslot]

theorem isSpent_of_answer (hv : c.inForce slot v = true) (hw : c.inForce slot w = true)
    (hbefore : w.Before v) (htimely : Timely w)
    (hall : ∀ criteria,
      answer slot c.environments criteria w = answer slot c.environments criteria v) :
    c.isSpent slot v = true ∧ c.isSpent slot w = true := by
  have hne : w ≠ v := by
    rintro rfl
    exact not_before_self w hbefore
  rcases inForce_cases hv with ⟨heff, hanswer⟩ | ⟨hdep, heff, hanswer⟩
  · rcases inForce_cases hw with ⟨_, hanswer'⟩ | ⟨_, heff', _⟩
    · have heq := hall .noCriteria
      simp only [hanswer, hanswer', matchesLoadedProgramCriteria] at heq
      grind
    · unfold LoadedProgram.Before Slot at *
      omega
  · rcases inForce_cases hw with ⟨heff', hanswer'⟩ | ⟨hdep', heff', _⟩
    · have heq := hall (.deployedOnOrAfterSlot (slot + 1))
      have hlate : ¬slot + 1 ≤ w.deploymentSlot := by
        unfold Timely delayVisibilitySlotOffset Slot at *
        omega
      simp [hanswer, hanswer', matchesLoadedProgramCriteria, hlate] at heq
    · unfold LoadedProgram.Before Slot at *
      omega

theorem before_of_find {p : LoadedProgram → Bool}
    (hsorted : versions.Pairwise (fun a b => b.Before a)) (hv : versions.find? p = some v)
    (hw : w ∈ versions) (hp : p w = true) : w = v ∨ w.Before v := by
  obtain ⟨_, newer, older, rfl, hnewer⟩ := find?_eq_some_iff_append.mp hv
  rcases mem_append.mp hw with hw | hw
  · have hnot := hnewer w hw
    simp [hp] at hnot
  · rcases mem_cons.mp hw with rfl | hw
    · exact .inl rfl
    · exact .inr ((pairwise_cons.mp (pairwise_append.mp hsorted).2.1).1 w hw)

theorem find?_filter_of_keep {keep p : LoadedProgram → Bool} (hv : versions.find? p = some v)
    (hkeep : keep v = true) : (versions.filter keep).find? p = some v := by
  obtain ⟨hp, newer, older, rfl, hnewer⟩ := find?_eq_some_iff_append.mp hv
  rw [filter_append, filter_cons, if_pos hkeep]
  refine find?_eq_some_iff_append.mpr ⟨hp, _, _, rfl, fun w hw => ?_⟩
  exact hnewer w (mem_of_mem_filter hw)

/-- Dropping versions does not matter exactly if it drops no version in force, except spent ones. -/
theorem find_survivors_iff (keep : LoadedProgram → Bool)
    (hsorted : versions.Pairwise (fun a b => b.Before a)) (htimely : ∀ v ∈ versions, Timely v) :
    (∀ criteria, ((versions.filter keep).find? (c.inForce slot)).bind
        (answer slot c.environments criteria) =
      (versions.find? (c.inForce slot)).bind (answer slot c.environments criteria)) ↔
    c.Settled slot versions keep := by
  unfold Settled
  cases hv : versions.find? (c.inForce slot) with
  | none =>
    have hnone : (versions.filter keep).find? (c.inForce slot) = none := by
      rw [find?_eq_none] at hv ⊢
      exact fun w hw => hv w (mem_of_mem_filter hw)
    simp [hnone]
  | some v =>
    have hstops := find?_some hv
    cases hkeep : keep v with
    | true => simp [find?_filter_of_keep hv hkeep, hkeep]
    | false =>
      simp only [Option.mem_some_iff, forall_eq', hkeep, Bool.false_eq_true, false_or,
        Option.bind_some]
      constructor
      · intro hall
        cases hw : (versions.filter keep).find? (c.inForce slot) with
        | none =>
          refine ⟨?_, by simp⟩
          have hnone := hall .noCriteria
          rcases inForce_cases hstops with ⟨_, hanswer⟩ | ⟨_, _, hanswer⟩
          · simpa [hw, hanswer, matchesLoadedProgramCriteria] using hnone
          · simp [hw, hanswer] at hnone
        | some w =>
          have hstopsw := find?_some hw
          obtain ⟨hmemw, hkeepw⟩ := mem_filter.mp (mem_of_find?_eq_some hw)
          have hbefore := (before_of_find hsorted hv hmemw hstopsw).resolve_left
            (fun heq => by simp [heq, hkeep] at hkeepw)
          rw [hw] at hall
          have hspent := isSpent_of_answer hstops hstopsw hbefore (htimely w hmemw) hall
          exact ⟨hspent.1, by simpa using hspent.2⟩
      · rintro ⟨hspent, hrest⟩ criteria
        rw [answer_of_isSpent hspent]
        cases hw : (versions.filter keep).find? (c.inForce slot) with
        | none => rfl
        | some w => exact answer_of_isSpent (hrest w hw) criteria

/-- For every cache of a history and every new root: the versions are sorted, before and after
`prune`, and the batches at and below the new root find the same versions after it exactly if for
every program and slot the newest version in force survives, or is spent as its successor is. -/
theorem visible_after_prune_iff (tree : ParentTree Slot id) (c : LoadedPrograms)
    (h : History tree c) (root : Slot) (epoch : Epoch)
    (hroot : tree.AncestorOrSelf c.latestRootSlot root) :
    (∀ key, (c.entries key).slotVersions.Pairwise LoadedProgram.Before ∧
      ((c.prune root epoch).entries key).slotVersions.Pairwise LoadedProgram.Before) ∧
    ((∀ slot, tree.AncestorOrSelf root slot → ∀ x,
        (c.prune root epoch).lookup slot c.environments x = c.lookup slot c.environments x) ↔
      ∀ slot, tree.AncestorOrSelf root slot → ∀ key,
        c.Settled slot (c.newestFirst key) (c.survives root (c.newestFirst key))) := by
  refine ⟨fun key => ⟨(c.entries key).sorted, ((c.prune root epoch).entries key).sorted⟩, ?_⟩
  have hle : c.latestRootSlot ≤ root := by
    rcases ParentTree.ancestorOrSelf_iff.mp hroot with rfl | hanc
    · exact le_rfl
    · exact hanc.rank_lt.le
  refine forall₂_congr fun slot hslot => ?_
  have hiff : ∀ key, (∀ criteria count, (c.prune root epoch).lookup slot c.environments
      ⟨key, criteria, count⟩ = c.lookup slot c.environments ⟨key, criteria, count⟩) ↔
        c.Settled slot (c.newestFirst key) (c.survives root (c.newestFirst key)) := by
    intro key
    simp only [lookup_prune h.regular epoch hle hslot]
    simp only [lookup, scan_eq_find, forall_const]
    exact find_survivors_iff _ (pairwise_reverse.mpr (c.entries key).sorted)
      (fun v hv => h.regular.timely key v (mem_reverse.mp hv))
  exact ⟨fun hall key => (hiff key).mp fun criteria count => hall _,
    fun hall x => (hiff x.key).mpr (hall x.key) x.criteria x.count⟩

end Visibility

def chain : ParentTree Slot id where
  parent := fun n => if n = 0 then none else some (n - 1)
  parent_lt := fun {a p} h => by
    split_ifs at h with ha
    cases h
    exact Nat.sub_one_lt ha

theorem chain_ancestor {a b : Slot} : chain.Ancestor a b ↔ a < b := by
  refine ⟨fun h => h.rank_lt, fun h => ?_⟩
  induction b with
  | zero => cases h
  | succ b ih =>
    have hstep : chain.parent (b + 1) = some b := rfl
    rcases Nat.lt_succ_iff_lt_or_eq.mp h with hlt | rfl
    · exact (ih hlt).tail hstep
    · exact .single hstep

def chainCache : LoadedPrograms :=
  { entries := fun _ => SecondLevel.default
    latestRootSlot := 0
    latestRootEpoch := 0
    environments := { programRuntimeV1 := 1, programRuntimeV2 := 2 }
    upcomingEnvironments := none
    forkGraph := fun a b => if b = a then .equal else if a < b then .ancestor else .descendant }

theorem chainCache_history : History chain chainCache := by
  refine .new ⟨?_, ?_, ?_⟩ rfl (fun _ => rfl)
  all_goals
    intro a b
    simp only [chainCache, chain_ancestor]
    grind

/-- A version for each of two environments; the second one expires at slot 5. -/
def exampleVersion (environment : ProgramRuntimeEnvironment) (slot : Slot)
    (maybeExpirationSlot : Option Slot) : LoadedProgram :=
  { program := .typed { loader := environment, elfBytes := [] }
    accountSize := 48
    deploymentSlot := slot
    effectiveSlot := slot + 1
    maybeExpirationSlot }

def olderCache : LoadedPrograms := (chainCache.assignProgram (.ofNat 7) (exampleVersion 2 1 none)).1

/-- The expired version hides the older one before `prune`, and no more after it. -/
theorem expired_version_uncovered :
    ¬∀ (tree : ParentTree Slot id) (c : LoadedPrograms), History tree c → ∀ root epoch,
      tree.AncestorOrSelf c.latestRootSlot root → ∀ slot, tree.AncestorOrSelf root slot → ∀ x,
        (c.prune root epoch).lookup slot c.environments x = c.lookup slot c.environments x := by
  intro h
  have hhistory :
    History chain (olderCache.assignProgram (.ofNat 7) (exampleVersion 1 3 (some 5))).1 :=
    (chainCache_history.assign _ (.inr rfl)).assign _ (.inr rfl)
  have hsame := h chain _ hhistory 6 0 (chain_ancestor.mpr (by decide)).orSelf 6
    (.refl _) ⟨.ofNat 7, .noCriteria, 1⟩
  exact absurd hsame (by decide)

/-- A newer version for the same environment. -/
def newerCache : LoadedPrograms :=
  (olderCache.assignProgram (.ofNat 7) (exampleVersion 2 3 none)).1

/-- The newer one of two versions is found before and after the older one is dropped. -/
theorem visible_after_prune_newer :
    (newerCache.prune 6 0).lookup 7 newerCache.environments ⟨.ofNat 7, .noCriteria, 1⟩ =
      newerCache.lookup 7 newerCache.environments ⟨.ofNat 7, .noCriteria, 1⟩ := by
  have hhistory : History chain newerCache :=
    (chainCache_history.assign _ (.inr rfl)).assign _ (.inr rfl)
  refine (visible_after_prune_iff chain newerCache hhistory 6 0
    (chain_ancestor.mpr (by decide)).orSelf).2.mpr ?_ 7 (chain_ancestor.mpr (by decide)).orSelf _
  intro slot hslot key v hv
  by_cases hkey : key = .ofNat 7
  · subst hkey
    have hversions : newerCache.newestFirst (.ofNat 7) =
        [exampleVersion 2 3 none, exampleVersion 2 1 none] := by
      decide
    have hle : 6 ≤ slot := by
      rcases ParentTree.ancestorOrSelf_iff.mp hslot with rfl | hanc
      · exact le_rfl
      · exact (chain_ancestor.mp hanc).le
    have hfork : newerCache.onFork 3 slot = true := by
      have hgraph : newerCache.forkGraph 3 slot = .ancestor := by
        simp only [newerCache, olderCache, assignProgram, withEntry, chainCache]
        grind
      rw [onFork, hgraph, Bool.or_true]
    have hforce : newerCache.inForce slot (exampleVersion 2 3 none) = true := by
      have heffective : 4 ≤ slot := (by decide : 4 ≤ 6).trans hle
      have henvironment : matchesEnvironment (exampleVersion 2 3 none)
          newerCache.environments = true := by decide
      simp_all [inForce, stops, exampleVersion]
    rw [hversions, find?_cons_of_pos hforce] at hv
    cases hv
    exact .inl (by decide)
  · have hmem := mem_reverse.mp (mem_of_find?_eq_some hv)
    simp [newerCache, olderCache, assignProgram, withEntry, hkey, chainCache,
      SecondLevel.default] at hmem

end LoadedPrograms
end Hypergrid
