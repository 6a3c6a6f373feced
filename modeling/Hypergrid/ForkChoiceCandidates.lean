import Hypergrid.ForkChoiceLeaf
import Hypergrid.Lib.GuardedRun

/-!
# Candidate status and marks

Runs of `mark_fork_invalid_candidate`, `mark_fork_valid_candidate` and `add_new_leaf_slot`, with the
marks that were set remembered beside the tree.

The status of a node is meant to say whether one of its ancestors, or the node itself, was marked
invalid and is still unconfirmed.  A valid mark below an invalid block only clears the subtree of
the marked block and the path above it.

* `Recorded.step` : what every step keeps.
* `staysExact_iff` : the status is exact along a run exactly if no valid mark confirms the last
  unconfirmed invalid ancestor of a node beside the marked block.
* `sibling_not_candidate` : a run in which a node stays without candidate status for good.
-/

namespace Hypergrid
open List Option HeaviestSubtreeForkChoice

/-- A fork choice with the marks that were set on blocks of its tree. -/
structure MarkedForkChoice where
  forkChoice : HeaviestSubtreeForkChoice
  markedInvalid : List SlotHashKey
  markedValid : List SlotHashKey

namespace MarkedForkChoice

variable (s : MarkedForkChoice)

inductive Call where
  | addNewLeafSlot (leaf parent : SlotHashKey)
  | markForkInvalidCandidate (key : SlotHashKey)
  | markForkValidCandidate (key : SlotHashKey)

/-- The marks after a call for a block; a block that is not in the tree is not marked. -/
def record (fc : HeaviestSubtreeForkChoice) (key : SlotHashKey) (marks : List SlotHashKey) :
    List SlotHashKey :=
  if fc.containsBlock key then key :: marks else marks

/-- One call.  A leaf comes after its parent, and invalid marks are not set on blocks that are
duplicate-confirmed. -/
def step : Call → Option MarkedForkChoice
  | .addNewLeafSlot leaf parent =>
    if parent.slot < leaf.slot then do
      let forkChoice ← s.forkChoice.addNewLeafSlot leaf (some parent)
      return { s with forkChoice }
    else none
  | .markForkInvalidCandidate key =>
    if s.forkChoice.isDuplicateConfirmed key = some true then none
    else do
      let forkChoice ← s.forkChoice.markForkInvalidCandidate key
      return { s with forkChoice, markedInvalid := record s.forkChoice key s.markedInvalid }
  | .markForkValidCandidate key => do
      let (forkChoice, _) ← s.forkChoice.markForkValidCandidate key
      return { s with forkChoice, markedValid := record s.forkChoice key s.markedValid }

/-- A block is confirmed by a valid mark on it or on one of its descendants. -/
def ConfirmedByMark (a : SlotHashKey) : Prop :=
  ∃ d ∈ s.markedValid, s.forkChoice.InSubtree a d

/-- No ancestor of the block, and not the block itself, was marked invalid and is still
unconfirmed. -/
def Cleared (x : SlotHashKey) : Prop :=
  ∀ a, s.forkChoice.InSubtree a x → a ∈ s.markedInvalid → s.ConfirmedByMark a

/-- The candidate status of every node is the one that the marks give. -/
def Exact : Prop :=
  ∀ x, s.forkChoice.containsBlock x = true →
    (s.forkChoice.isCandidate x = some true ↔ s.Cleared x)

/-- The exact condition on a call: a block is marked valid only if every node beside it that is not
a candidate has an unconfirmed invalid ancestor, or is one, that is not an ancestor of the block. -/
def Confirms : Call → Prop
  | .markForkValidCandidate key =>
    ∀ x, s.forkChoice.isCandidate x = some false →
      ¬s.forkChoice.InSubtree x key → ¬s.forkChoice.InSubtree key x →
      ∃ a, s.forkChoice.InSubtree a x ∧ a ∈ s.markedInvalid ∧ ¬s.ConfirmedByMark a ∧
        ¬s.forkChoice.InSubtree a key
  | _ => True

/-- A tree in which nothing was marked invalid.  The default key stands for no block in the source;
it is at most the root, and then confirmed. -/
structure Start (s : MarkedForkChoice) : Prop where
  tree : s.forkChoice.Tree
  confirmed_parent : ∀ {x p}, s.forkChoice.Confirmed x → s.forkChoice.parent x = some p →
    s.forkChoice.Confirmed p
  latest : ∀ x, s.forkChoice.latestInvalidAncestor x = none
  default_confirmed : s.forkChoice.containsBlock SlotHashKey.default = true →
    s.forkChoice.Confirmed SlotHashKey.default
  markedInvalid : s.markedInvalid = []
  markedValid : s.markedValid = []

/-- What every step keeps: the latest invalid ancestor is one that was marked, and no unconfirmed
one lies above it. -/
structure Recorded (s : MarkedForkChoice) : Prop where
  tree : s.forkChoice.Tree
  flags : s.forkChoice.Flags
  default_confirmed : s.forkChoice.containsBlock SlotHashKey.default = true →
    s.forkChoice.Confirmed SlotHashKey.default
  valid_confirmed : ∀ {d}, d ∈ s.markedValid → s.forkChoice.Confirmed d
  invalid_info : ∀ {a}, a ∈ s.markedInvalid → ∃ i, s.forkChoice.info a = some i
  invalid_ne : ∀ {a}, a ∈ s.markedInvalid → a ≠ SlotHashKey.default
  latest_marked : ∀ {x t}, s.forkChoice.latestInvalidAncestor x = some t →
    ∃ a, s.forkChoice.InSubtree a x ∧ a ∈ s.markedInvalid ∧ a.slot = t
  latest_ge : ∀ {a x i}, s.forkChoice.info x = some i → s.forkChoice.InSubtree a x →
    a ∈ s.markedInvalid → ¬s.ConfirmedByMark a →
    ∃ t, s.forkChoice.latestInvalidAncestor x = some t ∧ a.slot ≤ t

variable {x a k : SlotHashKey} {i : ForkInfo} {s' : MarkedForkChoice}
  {fc' : HeaviestSubtreeForkChoice}

section Reads
variable {s : MarkedForkChoice} {t : Slot}

theorem isCandidate_iff (hi : s.forkChoice.info x = some i) :
    s.forkChoice.isCandidate x = some true ↔ s.forkChoice.latestInvalidAncestor x = none := by
  rw [latestInvalidAncestor_of_info hi]
  exact candidate_of_info hi

theorem Start.recorded (h : s.Start) : s.Recorded where
  tree := h.tree
  flags :=
    { confirmed_latest := fun _ => h.latest _
      confirmed_parent := h.confirmed_parent
      latest_child := fun _ hs => absurd ((h.latest _).symm.trans hs) (by simp)
      latest_le := fun hs => absurd ((h.latest _).symm.trans hs) (by simp) }
  default_confirmed := h.default_confirmed
  valid_confirmed := fun hd => absurd (h.markedValid ▸ hd) not_mem_nil
  invalid_info := fun ha => absurd (h.markedInvalid ▸ ha) not_mem_nil
  invalid_ne := fun ha => absurd (h.markedInvalid ▸ ha) not_mem_nil
  latest_marked := fun hs => absurd ((h.latest _).symm.trans hs) (by simp)
  latest_ge := fun _ _ ha => absurd (h.markedInvalid ▸ ha) not_mem_nil

theorem start_rootOnly (root : SlotHashKey) : Start ⟨rootOnly root, [], []⟩ where
  tree := rootOnly_tree root
  confirmed_parent := fun _ hp => absurd hp (parent_rootOnly _ _)
  latest := rootOnly_latest root
  default_confirmed := by
    intro hdefault
    obtain ⟨i, hi⟩ := containsBlock_iff.mp hdefault
    rw [confirmed_of_info hi, (info_rootOnly hi).2]
    rfl
  markedInvalid := rfl
  markedValid := rfl

theorem Start.exact (h : s.Start) : s.Exact := by
  intro x hx
  obtain ⟨i, hi⟩ := containsBlock_iff.mp hx
  rw [isCandidate_iff hi]
  refine iff_of_true (h.latest x) fun a _ ha => ?_
  exact absurd (h.markedInvalid ▸ ha) not_mem_nil

theorem Recorded.cleared_of_candidate (h : s.Recorded) (hi : s.forkChoice.info x = some i)
    (hx : s.forkChoice.latestInvalidAncestor x = none) : s.Cleared x := by
  intro a hax ha
  by_contra hnot
  obtain ⟨t, ht, _⟩ := h.latest_ge hi hax ha hnot
  exact absurd (hx.symm.trans ht) (by simp)

/-- If the status is exact, the latest invalid ancestor is unconfirmed: an unconfirmed one lies on
the path above it, and what confirms the lower one confirms both. -/
theorem Recorded.latest_unconfirmed (h : s.Recorded) (hexact : s.Exact)
    (ht : s.forkChoice.latestInvalidAncestor x = some t) :
    ∃ a, s.forkChoice.InSubtree a x ∧ a ∈ s.markedInvalid ∧ a.slot = t ∧ ¬s.ConfirmedByMark a := by
  obtain ⟨i, hi, _⟩ := bind_eq_some_iff.mp ht
  obtain ⟨a, hax, ha, hslot⟩ := h.latest_marked ht
  refine ⟨a, hax, ha, hslot, ?_⟩
  rintro ⟨d, hd, had⟩
  have hnot : ¬s.Cleared x := by
    rw [← hexact x (containsBlock_iff.mpr ⟨i, hi⟩), isCandidate_iff hi, ht]
    simp
  refine hnot fun b hbx hb => ?_
  by_contra hunconfirmed
  obtain ⟨t', ht', hle⟩ := h.latest_ge hi hbx hb hunconfirmed
  obtain rfl := some.inj (ht.symm.trans ht')
  exact hunconfirmed ⟨d, hd, (h.tree.inSubtree_of_slot_le hbx hax (hslot ▸ hle)).trans had⟩

variable {leaf p : SlotHashKey}

theorem addNewLeafSlot_cases {fc : HeaviestSubtreeForkChoice} (hlt : p.slot < leaf.slot)
    (h : fc.addNewLeafSlot leaf (some p) = some fc') : fc' = fc ∨ ∃ i, fc.NewLeaf leaf p i := by
  unfold addNewLeafSlot at h
  split_ifs at h with hleaf
  · exact .inl (some.inj h).symm
  · refine .inr ?_
    have hne : p ≠ leaf := fun heq => absurd hlt (heq ▸ lt_irrefl _)
    obtain ⟨i, hi, _⟩ := bind_eq_some_iff.mp h
    rw [info_setInfo_ne hne] at hi
    refine ⟨i, ?_, hi, hlt⟩
    exact not_isSome_iff_eq_none.mp hleaf

/-- The marks after a leaf was added to a tree that does not have it. -/
structure LeafRecorded (s s' : MarkedForkChoice) (leaf p : SlotHashKey) : Prop where
  inSubtree : ∀ {a x}, x ≠ leaf → (s'.forkChoice.InSubtree a x ↔ s.forkChoice.InSubtree a x)
  inSubtree_leaf : ∀ {a}, s'.forkChoice.InSubtree a leaf ↔ a = leaf ∨ s.forkChoice.InSubtree a p
  confirmed : ∀ {x}, s'.forkChoice.Confirmed x ↔ s.forkChoice.Confirmed x
  latest : ∀ {x}, x ≠ leaf →
    s'.forkChoice.latestInvalidAncestor x = s.forkChoice.latestInvalidAncestor x
  latest_leaf : s'.forkChoice.latestInvalidAncestor leaf = s.forkChoice.latestInvalidAncestor p
  info_iff : ∀ {x}, (∃ i, s'.forkChoice.info x = some i) ↔
    x = leaf ∨ ∃ i, s.forkChoice.info x = some i
  markedInvalid : s'.markedInvalid = s.markedInvalid
  markedValid : s'.markedValid = s.markedValid

section Recorded
variable (h : s.Recorded) (hleaf : s.forkChoice.NewLeaf leaf p i)
include h hleaf

theorem leafRecorded (hagree : Agree ForkInfo.core (s.forkChoice.attach leaf p i) fc') :
    LeafRecorded s { s with forkChoice := fc' } leaf p where
  inSubtree := by
    intro a x hx
    rw [← inSubtree_attach h.tree hleaf hx]
    exact iff_of_eq (congrFun (congrFun hagree.sameShape.inSubtree_eq a) x)
  inSubtree_leaf := by
    intro a
    rw [← inSubtree_attach_leaf h.tree hleaf]
    exact iff_of_eq (congrFun (congrFun hagree.sameShape.inSubtree_eq a) leaf)
  confirmed := hagree.confirmed_iff.trans (confirmed_attach hleaf)
  latest := fun hx => hagree.latest_eq.trans (sameEntry_attach hleaf hx).latest
  latest_leaf := hagree.latest_eq.trans (latest_attach_leaf hleaf)
  info_iff := by
    intro x
    refine (hagree.sameShape.info_iff x).trans ?_
    by_cases hx : x = leaf
    · subst hx
      exact iff_of_true ⟨_, info_attach_leaf hleaf⟩ (.inl rfl)
    · rw [or_iff_right hx]
      by_cases hp : x = p
      · subst hp
        exact iff_of_true ⟨_, info_attach_parent⟩ ⟨i, hleaf.info⟩
      · rw [info_attach_other hx hp]
  markedInvalid := rfl
  markedValid := rfl

theorem LeafRecorded.confirmedByMark (hr : LeafRecorded s s' leaf p) :
    s'.ConfirmedByMark a ↔ s.ConfirmedByMark a := by
  unfold ConfirmedByMark
  rw [hr.markedValid]
  refine exists_congr fun d => and_congr_right fun hd => hr.inSubtree fun heq => ?_
  exact not_confirmed_of_absent (heq ▸ hleaf.absent) (h.valid_confirmed hd)

theorem LeafRecorded.recorded (hr : LeafRecorded s s' leaf p) (htree : s'.forkChoice.Tree)
    (hflags : s'.forkChoice.Flags) : s'.Recorded where
  tree := htree
  flags := hflags
  default_confirmed := by
    intro hdefault
    rw [containsBlock_iff, hr.info_iff] at hdefault
    refine hr.confirmed.mpr (h.default_confirmed (containsBlock_iff.mpr ?_))
    exact hdefault.resolve_left fun heq => absurd (heq ▸ hleaf.lt) (Nat.not_lt_zero _)
  valid_confirmed := fun hd => hr.confirmed.mpr (h.valid_confirmed (hr.markedValid ▸ hd))
  invalid_info := fun ha => hr.info_iff.mpr (.inr (h.invalid_info (hr.markedInvalid ▸ ha)))
  invalid_ne := fun ha => h.invalid_ne (hr.markedInvalid ▸ ha)
  latest_marked := by
    intro x t ht
    rw [hr.markedInvalid]
    by_cases hx : x = leaf
    · subst hx
      obtain ⟨a, hap, ha, hslot⟩ := h.latest_marked (hr.latest_leaf ▸ ht)
      exact ⟨a, hr.inSubtree_leaf.mpr (.inr hap), ha, hslot⟩
    · obtain ⟨a, hax, ha, hslot⟩ := h.latest_marked (hr.latest hx ▸ ht)
      exact ⟨a, (hr.inSubtree hx).mpr hax, ha, hslot⟩
  latest_ge := by
    intro a x j hj hax ha hnot
    rw [hr.markedInvalid] at ha
    rw [hr.confirmedByMark h hleaf] at hnot
    by_cases hx : x = leaf
    · subst hx
      obtain ⟨k, hk⟩ := h.invalid_info ha
      rw [hr.latest_leaf]
      refine h.latest_ge hleaf.info ((hr.inSubtree_leaf.mp hax).resolve_left ?_) ha hnot
      exact hleaf.ne_of_info hk
    · obtain ⟨k, hk⟩ := (hr.info_iff.mp ⟨j, hj⟩).resolve_left hx
      rw [hr.latest hx]
      exact h.latest_ge hk ((hr.inSubtree hx).mp hax) ha hnot

end Recorded

theorem LeafRecorded.exact (h : s.Recorded) (hexact : s.Exact)
    (hleaf : s.forkChoice.NewLeaf leaf p i) (hr : LeafRecorded s s' leaf p) : s'.Exact := by
  intro x hx
  obtain ⟨j, hj⟩ := containsBlock_iff.mp hx
  rw [isCandidate_iff hj]
  by_cases hxl : x = leaf
  · -- the leaf has the status of its parent
    subst hxl
    rw [hr.latest_leaf, ← isCandidate_iff hleaf.info,
      hexact p (containsBlock_iff.mpr ⟨i, hleaf.info⟩)]
    unfold Cleared
    simp only [hr.inSubtree_leaf, hr.markedInvalid, hr.confirmedByMark h hleaf]
    refine ⟨fun hclear a hap ha => hclear a (hap.resolve_left ?_) ha,
      fun hclear a hap => hclear a (.inr hap)⟩
    obtain ⟨k, hk⟩ := h.invalid_info ha
    exact hleaf.ne_of_info hk
  · obtain ⟨k, hk⟩ := (hr.info_iff.mp ⟨j, hj⟩).resolve_left hxl
    rw [hr.latest hxl, ← isCandidate_iff hk, hexact x (containsBlock_iff.mpr ⟨k, hk⟩)]
    unfold Cleared
    simp only [hr.inSubtree hxl, hr.markedInvalid, hr.confirmedByMark h hleaf]

/-- A block of the tree was marked invalid. -/
structure InvalidRecorded (s s' : MarkedForkChoice) (k : SlotHashKey) : Prop where
  info : ∃ i, s.forkChoice.info k = some i
  unconfirmed : ¬s.forkChoice.Confirmed k
  flags : s.forkChoice.MarkedInvalid k s'.forkChoice
  markedInvalid : s'.markedInvalid = k :: s.markedInvalid
  markedValid : s'.markedValid = s.markedValid

theorem InvalidRecorded.ne (h : s.Recorded) (hr : InvalidRecorded s s' k) :
    k ≠ SlotHashKey.default := by
  rintro rfl
  exact hr.unconfirmed (h.default_confirmed (containsBlock_iff.mpr hr.info))

theorem InvalidRecorded.confirmedByMark (hr : InvalidRecorded s s' k) :
    s'.ConfirmedByMark a ↔ s.ConfirmedByMark a := by
  unfold ConfirmedByMark
  rw [hr.markedValid, hr.flags.sameShape.inSubtree_eq]

theorem Recorded.not_confirmedByMark (h : s.Recorded) (hk : ¬s.forkChoice.Confirmed k) :
    ¬s.ConfirmedByMark k := by
  rintro ⟨d, hd, hkd⟩
  exact hk (h.flags.confirmed_up hkd (h.valid_confirmed hd))

theorem InvalidRecorded.latest_below (h : s.Recorded) (hr : InvalidRecorded s s' k)
    (hi : s.forkChoice.info x = some i) (hkx : s.forkChoice.InSubtree k x) :
    s'.forkChoice.latestInvalidAncestor x =
      some (max ((s.forkChoice.latestInvalidAncestor x).getD 0) k.slot) :=
  hr.flags.latest_marked hi ((markedWith_iff h.tree (hr.ne h)).mpr hkx)

theorem InvalidRecorded.latest_other (hr : InvalidRecorded s s' k)
    (hkx : ¬s.forkChoice.InSubtree k x) :
    s'.forkChoice.latestInvalidAncestor x = s.forkChoice.latestInvalidAncestor x :=
  hr.flags.latest_other fun hmarked => hkx hmarked.1

theorem InvalidRecorded.recorded (h : s.Recorded) (hr : InvalidRecorded s s' k) : s'.Recorded where
  tree := hr.flags.sameShape.tree h.tree
  flags := hr.flags.flags h.tree h.flags hr.unconfirmed
  default_confirmed := by
    intro hdefault
    rw [containsBlock_iff, hr.flags.sameShape.info_iff] at hdefault
    exact hr.flags.confirmed.mpr (h.default_confirmed (containsBlock_iff.mpr hdefault))
  valid_confirmed := fun hd => hr.flags.confirmed.mpr (h.valid_confirmed (hr.markedValid ▸ hd))
  invalid_info := by
    intro a ha
    rw [hr.flags.sameShape.info_iff]
    rw [hr.markedInvalid] at ha
    rcases mem_cons.mp ha with rfl | ha
    · exact hr.info
    · exact h.invalid_info ha
  invalid_ne := by
    intro a ha
    rw [hr.markedInvalid] at ha
    rcases mem_cons.mp ha with rfl | ha
    · exact hr.ne h
    · exact h.invalid_ne ha
  latest_marked := by
    intro x t ht
    rw [hr.flags.sameShape.inSubtree_eq, hr.markedInvalid]
    by_cases hkx : s.forkChoice.InSubtree k x
    · obtain ⟨i, hi, _⟩ := bind_eq_some_iff.mp ht
      obtain ⟨j, hj⟩ := (hr.flags.sameShape.info_iff x).mp ⟨i, hi⟩
      rw [hr.latest_below h hj hkx, some.injEq] at ht
      rcases max_choice ((s.forkChoice.latestInvalidAncestor x).getD 0) k.slot with hmax | hmax
      · -- the latest one from before
        cases hlatest : s.forkChoice.latestInvalidAncestor x with
        | none =>
          refine ⟨k, hkx, mem_cons_self, ?_⟩
          rw [hlatest, getD_none, Nat.zero_max] at ht
          exact ht
        | some latest =>
          obtain ⟨a, hax, ha, hslot⟩ := h.latest_marked hlatest
          refine ⟨a, hax, mem_cons_of_mem _ ha, ?_⟩
          rw [hslot, ← ht, hmax, hlatest, getD_some]
      · exact ⟨k, hkx, mem_cons_self, hmax ▸ ht⟩
    · rw [hr.latest_other hkx] at ht
      obtain ⟨a, hax, ha, hslot⟩ := h.latest_marked ht
      exact ⟨a, hax, mem_cons_of_mem _ ha, hslot⟩
  latest_ge := by
    intro a x j hj hax ha hnot
    rw [hr.flags.sameShape.inSubtree_eq] at hax
    rw [hr.confirmedByMark] at hnot
    obtain ⟨i, hi⟩ := (hr.flags.sameShape.info_iff x).mp ⟨j, hj⟩
    rw [hr.markedInvalid] at ha
    by_cases hkx : s.forkChoice.InSubtree k x
    · refine ⟨_, hr.latest_below h hi hkx, ?_⟩
      rcases mem_cons.mp ha with rfl | ha
      · exact le_max_right _ _
      · obtain ⟨t, ht, hle⟩ := h.latest_ge hi hax ha hnot
        rw [ht]
        exact hle.trans (le_max_left _ _)
    · rw [hr.latest_other hkx]
      rcases mem_cons.mp ha with rfl | ha
      · exact absurd hax hkx
      · exact h.latest_ge hi hax ha hnot

theorem InvalidRecorded.exact (h : s.Recorded) (hexact : s.Exact) (hr : InvalidRecorded s s' k) :
    s'.Exact := by
  intro x hx
  obtain ⟨j, hj⟩ := containsBlock_iff.mp hx
  obtain ⟨i, hi⟩ := (hr.flags.sameShape.info_iff x).mp ⟨j, hj⟩
  rw [isCandidate_iff hj]
  by_cases hkx : s.forkChoice.InSubtree k x
  · -- the marked block is an unconfirmed invalid ancestor
    rw [hr.latest_below h hi hkx]
    refine iff_of_false (by simp) fun hclear => h.not_confirmedByMark hr.unconfirmed ?_
    rw [← hr.confirmedByMark]
    refine hclear k ?_ (hr.markedInvalid ▸ mem_cons_self)
    rw [hr.flags.sameShape.inSubtree_eq]
    exact hkx
  · rw [hr.latest_other hkx, ← isCandidate_iff hi, hexact x (containsBlock_iff.mpr ⟨i, hi⟩)]
    unfold Cleared
    simp only [hr.flags.sameShape.inSubtree_eq, hr.markedInvalid, hr.confirmedByMark, mem_cons]
    refine forall_congr' fun a => forall_congr' fun hax => ?_
    have hne : a ≠ k := fun heq => hkx (heq ▸ hax)
    rw [or_iff_right hne]

/-- A block of the tree was marked valid. -/
structure ValidRecorded (s s' : MarkedForkChoice) (k : SlotHashKey) : Prop where
  info : ∃ i, s.forkChoice.info k = some i
  flags : s.forkChoice.MarkedValid k s'.forkChoice
  markedInvalid : s'.markedInvalid = s.markedInvalid
  markedValid : s'.markedValid = k :: s.markedValid

theorem ValidRecorded.confirmedByMark (hr : ValidRecorded s s' k) :
    s'.ConfirmedByMark a ↔ s.ConfirmedByMark a ∨ s.forkChoice.InSubtree a k := by
  unfold ConfirmedByMark
  rw [hr.markedValid, hr.flags.sameShape.inSubtree_eq, exists_mem_cons_iff, or_comm]

theorem ValidRecorded.recorded (h : s.Recorded) (hr : ValidRecorded s s' k) : s'.Recorded where
  tree := hr.flags.sameShape.tree h.tree
  flags := hr.flags.flags h.flags
  default_confirmed := by
    intro hdefault
    rw [containsBlock_iff, hr.flags.sameShape.info_iff] at hdefault
    exact hr.flags.confirmed.mpr (.inl (h.default_confirmed (containsBlock_iff.mpr hdefault)))
  valid_confirmed := by
    intro d hd
    rw [hr.markedValid] at hd
    refine hr.flags.confirmed.mpr ?_
    rcases mem_cons.mp hd with rfl | hd
    · exact .inr (InSubtree.refl _)
    · exact .inl (h.valid_confirmed hd)
  invalid_info := by
    intro a ha
    rw [hr.flags.sameShape.info_iff]
    exact h.invalid_info (hr.markedInvalid ▸ ha)
  invalid_ne := fun ha => h.invalid_ne (hr.markedInvalid ▸ ha)
  latest_marked := by
    intro x t ht
    rw [hr.flags.sameShape.inSubtree_eq, hr.markedInvalid]
    refine h.latest_marked ?_
    by_cases hxk : s.forkChoice.InSubtree x k
    · exact absurd ((hr.flags.latest_above hxk).symm.trans ht) (by simp)
    · by_cases hkx : s.forkChoice.InSubtree k x
      · rw [hr.flags.latest_below hkx, filter_eq_some_iff] at ht
        exact ht.1
      · rw [← hr.flags.latest_other hxk hkx]
        exact ht
  latest_ge := by
    intro a x j hj hax ha hnot
    rw [hr.flags.sameShape.inSubtree_eq] at hax
    rw [hr.confirmedByMark, not_or] at hnot
    rw [hr.markedInvalid] at ha
    obtain ⟨i, hi⟩ := (hr.flags.sameShape.info_iff x).mp ⟨j, hj⟩
    obtain ⟨t, ht, hle⟩ := h.latest_ge hi hax ha hnot.1
    have hxk : ¬s.forkChoice.InSubtree x k := fun hxk => hnot.2 (hax.trans hxk)
    refine ⟨t, ?_, hle⟩
    by_cases hkx : s.forkChoice.InSubtree k x
    · -- an ancestor that is not above the marked block is below it
      have hlt : k.slot < a.slot := by
        by_contra hge
        exact hnot.2 (h.tree.inSubtree_of_slot_le hax hkx (le_of_not_gt hge))
      rw [hr.flags.latest_below hkx, ht, filter_some, if_pos]
      exact decide_eq_true (lt_of_lt_of_le hlt hle)
    · rw [hr.flags.latest_other hxk hkx, ht]

theorem ValidRecorded.confirmed_of_cleared (hr : ValidRecorded s s' k) (hclear : s'.Cleared x)
    {a : SlotHashKey} (hax : s.forkChoice.InSubtree a x) (ha : a ∈ s.markedInvalid) :
    s.ConfirmedByMark a ∨ s.forkChoice.InSubtree a k := by
  refine hr.confirmedByMark.mp (hclear a ?_ (hr.markedInvalid ▸ ha))
  rw [hr.flags.sameShape.inSubtree_eq]
  exact hax

variable (h : s.Recorded) (hexact : s.Exact) (hr : ValidRecorded s s' k)
include h hexact hr

theorem ValidRecorded.latest_none_below (hkx : s.forkChoice.InSubtree k x) (hclear : s'.Cleared x) :
    s'.forkChoice.latestInvalidAncestor x = none := by
  by_contra hne
  obtain ⟨t, ht⟩ := ne_none_iff_exists'.mp hne
  rw [hr.flags.latest_below hkx, filter_eq_some_iff] at ht
  obtain ⟨a, hax, ha, hslot, hnot⟩ := h.latest_unconfirmed hexact ht.1
  have hle := h.tree.slot_le ((hr.confirmed_of_cleared hclear hax ha).resolve_left hnot)
  rw [hslot] at hle
  exact absurd (of_decide_eq_true ht.2) (Nat.not_lt_of_le hle)

/-- The status stays exact exactly if the mark does not confirm the last unconfirmed invalid
ancestor of a node beside the marked block. -/
theorem ValidRecorded.exact_iff : s'.Exact ↔ s.Confirms (.markForkValidCandidate k) := by
  have hcandidate : ∀ {x i}, s.forkChoice.info x = some i →
      (s.forkChoice.isCandidate x = some false ↔ s.forkChoice.latestInvalidAncestor x ≠ none) := by
    intro x i hi
    rw [Ne, ← isCandidate_iff hi, isCandidate, hi, map_some]
    simp
  constructor
  · intro hexact' x hx hxk hkx
    obtain ⟨i, hi, _⟩ := map_eq_some_iff.mp hx
    obtain ⟨j, hj⟩ := (hr.flags.sameShape.info_iff x).mpr ⟨i, hi⟩
    have hnot : ¬s'.Cleared x := by
      rw [← hexact' x (containsBlock_iff.mpr ⟨j, hj⟩), isCandidate_iff hj,
        hr.flags.latest_other hxk hkx]
      exact (hcandidate hi).mp hx
    unfold Cleared at hnot
    push Not at hnot
    obtain ⟨a, hax, ha, hunconfirmed⟩ := hnot
    rw [hr.confirmedByMark, not_or] at hunconfirmed
    rw [hr.flags.sameShape.inSubtree_eq] at hax
    exact ⟨a, hax, hr.markedInvalid ▸ ha, hunconfirmed⟩
  · intro hconfirms x hx
    obtain ⟨j, hj⟩ := containsBlock_iff.mp hx
    obtain ⟨i, hi⟩ := (hr.flags.sameShape.info_iff x).mp ⟨j, hj⟩
    rw [isCandidate_iff hj]
    refine ⟨(hr.recorded h).cleared_of_candidate hj, fun hclear => ?_⟩
    by_cases hxk : s.forkChoice.InSubtree x k
    · exact hr.flags.latest_above hxk
    · by_cases hkx : s.forkChoice.InSubtree k x
      · exact hr.latest_none_below h hexact hkx hclear
      · rw [hr.flags.latest_other hxk hkx]
        by_contra hne
        obtain ⟨a, hax, ha, hnot, hak⟩ := hconfirms x ((hcandidate hi).mpr hne) hxk hkx
        exact (hr.confirmed_of_cleared hclear hax ha).elim hnot hak

end Reads

variable {s t : MarkedForkChoice} {e : Call} {es : List Call}

/-- A valid mark on the default key changes nothing, and there is nothing to change: it is the root
and confirmed, and no block of slot 0 was marked invalid. -/
theorem Recorded.markedValid_default {batch : List OperationEntry}
    (h : s.Recorded) (hk : ∃ i, s.forkChoice.info SlotHashKey.default = some i)
    (hbatch : s.forkChoice.MarkBatch SlotHashKey.default (.markValid 0) batch)
    (hp : s.forkChoice.Processed batch fc') : s.forkChoice.MarkedValid SlotHashKey.default fc' := by
  have hparent : s.forkChoice.parent SlotHashKey.default = none := by
    by_contra hne
    obtain ⟨p, hp⟩ := ne_none_iff_exists'.mp hne
    exact absurd (h.tree.parent_lt hp) (Nat.not_lt_zero _)
  have hagg : ∀ x, ¬AggregatedIn batch x := by
    intro x hx
    rcases hbatch.aggregated.mp hx with hmarked | ⟨p, hp, _⟩
    · exact not_markedWith_default hmarked
    · exact absurd (hparent.symm.trans hp) (by simp)
  have hinfo : ∀ x, fc'.info x = s.forkChoice.info x := by
    intro x
    cases hi : s.forkChoice.info x with
    | none => exact hp.absent hi
    | some i =>
      obtain ⟨j, hsettled, _, _, _, hsame⟩ :=
        hbatch.entry h.tree hp hi fun _ => @markValid_onInfo x SlotHashKey.default i
      obtain rfl := hsame not_markedWith_default
      exact hsettled.elim And.right fun hx => absurd hx.1 (hagg x)
  have hself : ∀ {x}, s.forkChoice.InSubtree x SlotHashKey.default → x = SlotHashKey.default := by
    intro x hx
    rcases inSubtree_iff_parent.mp hx with heq | ⟨p, hp, _⟩
    · exact heq
    · exact absurd (hparent.symm.trans hp) (by simp)
  have hconfirmed := h.default_confirmed (containsBlock_iff.mpr hk)
  have hlatest :
    ∀ x, fc'.latestInvalidAncestor x = s.forkChoice.latestInvalidAncestor x := fun x => by
    rw [latestInvalidAncestor, hinfo, latestInvalidAncestor]
  refine ⟨hp.sameShape, fun {x} => ?_, fun {x} hx => ?_, fun {x} hx => ?_, fun {x} _ _ => hlatest x⟩
  · rw [Confirmed, isDuplicateConfirmed, hinfo, or_iff_left_of_imp fun hx => hself hx ▸ hconfirmed]
    rfl
  · rw [hlatest, hself hx]
    exact h.flags.confirmed_latest hconfirmed
  · rw [hlatest]
    cases ht : s.forkChoice.latestInvalidAncestor x with
    | none => rfl
    | some t =>
      obtain ⟨a, hax, ha, hslot⟩ := h.latest_marked ht
      have hpos : SlotHashKey.default.slot < t := by
        rw [← hslot]
        have hroot := h.tree.inSubtree_of_slot_le hx hax (Nat.zero_le _)
        exact h.tree.slot_lt hroot (h.invalid_ne ha).symm
      rw [filter_some, if_pos (decide_eq_true hpos)]

theorem Recorded.step_cases (h : s.Recorded) (hstep : s.step e = some s') :
    (∃ leaf p, e = .addNewLeafSlot leaf p ∧ (s' = s ∨ ∃ i, s.forkChoice.NewLeaf leaf p i ∧
      LeafRecorded s s' leaf p ∧ s'.forkChoice.Tree ∧ s'.forkChoice.Flags)) ∨
    (∃ k, e = .markForkInvalidCandidate k ∧ (s' = s ∨ InvalidRecorded s s' k)) ∨
    (∃ k, e = .markForkValidCandidate k ∧ ValidRecorded s s' k) := by
  cases e with
  | addNewLeafSlot leaf p =>
    refine .inl ⟨leaf, p, rfl, ?_⟩
    simp only [step] at hstep
    split_ifs at hstep with hlt
    obtain ⟨fc', hadd, hs'⟩ := bind_eq_some_iff.mp hstep
    obtain rfl := some.inj hs'
    rcases addNewLeafSlot_cases hlt hadd with rfl | ⟨i, hleaf⟩
    · exact .inl rfl
    · obtain ⟨best, fc'', hadd', hadded⟩ := addNewLeafSlot_added h.tree hleaf
      obtain rfl := some.inj (hadd.symm.trans hadd')
      refine .inr ⟨i, hleaf, leafRecorded h hleaf hadded.agree, ?_, ?_⟩
      · exact hadded.agree.sameShape.tree (attach_tree h.tree hleaf)
      · exact hadded.agree.flags (attach_flags h.tree h.flags hleaf)
  | markForkInvalidCandidate k =>
    refine .inr (.inl ⟨k, rfl, ?_⟩)
    simp only [step] at hstep
    split_ifs at hstep with hconfirmed
    obtain ⟨fc', hmark, hs'⟩ := bind_eq_some_iff.mp hstep
    obtain rfl := some.inj hs'
    cases hi : s.forkChoice.info k with
    | none =>
      rw [markForkInvalidCandidate, hi] at hmark
      obtain rfl := some.inj hmark
      refine .inl ?_
      rw [record, containsBlock, hi]
      rfl
    | some i =>
      have hfree : i.isDuplicateConfirmed = false := by
        rw [isDuplicateConfirmed, hi, map_some] at hconfirmed
        simpa using hconfirmed
      obtain ⟨fc'', batch, hmark', hp, hbatch⟩ :=
        markForkInvalidCandidate_processed h.tree h.flags hi hfree
      obtain rfl := some.inj (hmark.symm.trans hmark')
      refine .inr ⟨⟨i, hi⟩, hconfirmed, hbatch.markedInvalid h.tree h.flags hconfirmed hp, ?_, rfl⟩
      rw [record, if_pos (containsBlock_iff.mpr ⟨i, hi⟩)]
  | markForkValidCandidate k =>
    refine .inr (.inr ⟨k, rfl, ?_⟩)
    obtain ⟨⟨fc', newlyConfirmed⟩, hmark, hs'⟩ := bind_eq_some_iff.mp hstep
    obtain rfl := some.inj hs'
    have hinfo : ∃ i, s.forkChoice.info k = some i := by
      by_contra hnone
      have habsent := eq_none_iff_forall_ne_some.mpr fun i hi => hnone ⟨i, hi⟩
      rw [markForkValidCandidate, filterM, filterAuxM, isDuplicateConfirmed, habsent] at hmark
      exact absurd hmark (by simp)
    obtain ⟨i, hi⟩ := hinfo
    obtain ⟨fc'', confirmed', batch, hmark', hp, hbatch⟩ :=
      markForkValidCandidate_processed h.tree hi
    obtain ⟨rfl, rfl⟩ := Prod.ext_iff.mp (some.inj (hmark.symm.trans hmark'))
    refine ⟨⟨i, hi⟩, ?_, rfl, ?_⟩
    · by_cases hdefault : k = SlotHashKey.default
      · subst hdefault
        exact h.markedValid_default ⟨i, hi⟩ hbatch hp
      · exact hbatch.markedValid h.tree h.flags ⟨i, hi⟩ hdefault hp
    · dsimp only
      rw [record, if_pos (containsBlock_iff.mpr ⟨i, hi⟩)]

theorem Recorded.step (h : s.Recorded) (hstep : s.step e = some s') : s'.Recorded := by
  rcases h.step_cases hstep with ⟨leaf, p, rfl, rfl | ⟨i, hleaf, hr, htree, hflags⟩⟩ |
      ⟨k, rfl, rfl | hr⟩ | ⟨k, rfl, hr⟩
  · exact h
  · exact hr.recorded h hleaf htree hflags
  · exact h
  · exact hr.recorded h
  · exact hr.recorded h

theorem Recorded.exact_step_iff (h : s.Recorded) (hexact : s.Exact) (hstep : s.step e = some s') :
    s'.Exact ↔ s.Confirms e := by
  rcases h.step_cases hstep with ⟨leaf, p, rfl, rfl | ⟨i, hleaf, hr, _, _⟩⟩ |
      ⟨k, rfl, rfl | hr⟩ | ⟨k, rfl, hr⟩
  · exact iff_of_true hexact trivial
  · exact iff_of_true (hr.exact h hexact hleaf) trivial
  · exact iff_of_true hexact trivial
  · exact iff_of_true (hr.exact h hexact) trivial
  · exact hr.exact_iff h hexact

/-- In a run from a tree without invalid marks the candidate status of all nodes is exact in every
state exactly if all calls of the run meet the condition. -/
theorem staysExact_iff (hstart : s.Start) (hrun : Machine.Run step s es t) :
    Machine.StaysGood step Exact s es ↔ Machine.GuardedRun step Confirms s es t :=
  Machine.staysGood_iff_guardedRun (fun _ _ _ h _ hstep => h.step hstep)
    (fun _ _ _ h hexact hstep => h.exact_step_iff hexact hstep) hrun hstart.recorded hstart.exact

def exampleKey (slot : Slot) : SlotHashKey := ⟨slot, ⟨0⟩⟩

def exampleStart : MarkedForkChoice := ⟨rootOnly (exampleKey 0), [], []⟩

theorem exampleStart_start : exampleStart.Start := start_rootOnly (exampleKey 0)

/-- A block below an invalid one. -/
def childCalls : List Call :=
  [.addNewLeafSlot (exampleKey 1) (exampleKey 0), .addNewLeafSlot (exampleKey 2) (exampleKey 1),
    .markForkInvalidCandidate (exampleKey 1)]

def Call.isValidMark : Call → Bool
  | .markForkValidCandidate _ => true
  | _ => false

theorem confirms_of_not_isValidMark {e : Call} (h : e.isValidMark = false) : s.Confirms e := by
  cases e with
  | addNewLeafSlot leaf parent => trivial
  | markForkInvalidCandidate key => trivial
  | markForkValidCandidate key => cases h

/-- The block is marked valid, and with it the invalid one, which has no other blocks below it. -/
theorem staysExact_childCalls :
    ∃ t, Machine.Run step exampleStart
        (childCalls ++ [.markForkValidCandidate (exampleKey 2)]) t ∧
      Machine.StaysGood step Exact exampleStart
        (childCalls ++ [.markForkValidCandidate (exampleKey 2)]) := by
  have hexec : (Machine.execChecked step (fun _ e => !e.isValidMark) exampleStart childCalls).map
      (fun m => (m.forkChoice.forkInfos.keys.filter
          (fun x => m.forkChoice.isCandidate x = some false),
        m.forkChoice.parent (exampleKey 2),
        (m.step (.markForkValidCandidate (exampleKey 2))).isSome)) =
      some ([exampleKey 1, exampleKey 2], some (exampleKey 1), true) := by
    decide +kernel
  obtain ⟨m, hm, hfacts⟩ := map_eq_some_iff.mp hexec
  simp only [Prod.mk.injEq] at hfacts
  obtain ⟨hinvalid, hparent, hsome⟩ := hfacts
  obtain ⟨t, ht⟩ := isSome_iff_exists.mp hsome
  have hbefore : Machine.GuardedRun step Confirms exampleStart childCalls m :=
    Machine.guardedRun_of_execChecked (fun _ _ h =>
      confirms_of_not_isValidMark (by simpa using h)) hm
  have hconfirms : m.Confirms (.markForkValidCandidate (exampleKey 2)) := by
    intro x hx hnot _
    have hmem : x ∈ m.forkChoice.forkInfos.keys.filter
        (fun x => m.forkChoice.isCandidate x = some false) := by
      refine mem_filter.mpr ⟨mem_keys_iff.mpr ?_, decide_eq_true hx⟩
      obtain ⟨i, hi, -⟩ := map_eq_some_iff.mp hx
      exact ⟨i, hi⟩
    rw [hinvalid] at hmem
    rcases mem_cons.mp hmem with rfl | hmem
    · exact absurd (InSubtree.of_parent hparent) hnot
    · exact absurd (mem_singleton.mp hmem ▸ .refl _) hnot
  have hguarded := hbefore.append (.cons hconfirms ht (.nil t))
  have hrun : Machine.Run step exampleStart
      (childCalls ++ [.markForkValidCandidate (exampleKey 2)]) t :=
    (Machine.guardedRun_of_execChecked (fun _ _ _ => trivial) hm).append
      (.cons trivial ht (.nil t))
  exact ⟨t, hrun, (staysExact_iff exampleStart_start hrun).mpr hguarded⟩

/-- Two blocks below an invalid one, of which the first is marked valid. -/
def siblingCalls : List Call :=
  [.addNewLeafSlot (exampleKey 1) (exampleKey 0), .addNewLeafSlot (exampleKey 2) (exampleKey 1),
    .addNewLeafSlot (exampleKey 3) (exampleKey 1), .markForkInvalidCandidate (exampleKey 1),
    .markForkValidCandidate (exampleKey 2)]

/-- The second block stays without candidate status although its invalid ancestor is confirmed. -/
theorem sibling_not_candidate :
    ¬∀ (s t : MarkedForkChoice) (es : List Call), s.Start → Machine.Run step s es t → t.Exact := by
  intro hall
  have hexec : (Machine.exec step exampleStart siblingCalls).map (fun t =>
      (t.forkChoice.isCandidate (exampleKey 3), t.markedInvalid, t.markedValid,
        t.forkChoice.parent (exampleKey 2), t.forkChoice.containsBlock (exampleKey 3))) =
      some (some false, [exampleKey 1], [exampleKey 2], some (exampleKey 1), true) := by
    decide +kernel
  obtain ⟨t, ht, hfacts⟩ := map_eq_some_iff.mp hexec
  simp only [Prod.mk.injEq] at hfacts
  obtain ⟨hcandidate, hinvalid, hvalid, hparent, hmem⟩ := hfacts
  have hexact := hall _ t _ exampleStart_start ((Machine.run_iff_exec step).mpr ht)
    (exampleKey 3) hmem
  rw [hcandidate] at hexact
  refine absurd (hexact.mpr fun a _ ha => ?_) (by simp)
  rw [hinvalid, mem_singleton] at ha
  exact ⟨exampleKey 2, by rw [hvalid]; exact mem_singleton_self _,
    ha ▸ InSubtree.of_parent hparent⟩

end MarkedForkChoice
end Hypergrid
