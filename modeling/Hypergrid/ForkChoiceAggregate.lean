import Hypergrid.ForkChoiceUpdate
import Hypergrid.Lib.Top

/-!
# Aggregating the children of a node

What `aggregate_slot` computes from the entries of the children: the stake of the subtree, whether a
child is duplicate-confirmed, the best block of the heaviest candidate child and the deepest block
of the deepest child.

* `aggregateChildren_gathered` : the variables after the loop.
* `LocalAt` : the entry of a node is the one that its children give; `Settled.localAt` says that an
  aggregated node has it.
-/

namespace Hypergrid
open List Option ForkInfo

/-- An entry without its parent and its children. -/
def ForkInfo.unlinked (i : ForkInfo) : ForkInfo := { i with parent := none, children := [] }

namespace HeaviestSubtreeForkChoice

section Fields
variable (fc : HeaviestSubtreeForkChoice)
variable (x : SlotHashKey)

/-- The stake that voted on a block itself; 0 for a block that is not in the tree. -/
def votedAt : Nat := ((fc.info x).map ForkInfo.stakeVotedAt).getD 0

/-- The stake that voted in the subtree; 0 for a block that is not in the tree. -/
def weightOf : Nat := (fc.stakeVotedSubtree x).getD 0

/-- The height of the subtree; 0 for a block that is not in the tree. -/
def heightOf : Nat := (fc.height x).getD 0

def bestOf : SlotHashKey := (fc.bestSlot x).getD x

def deepestOf : SlotHashKey := ((fc.info x).map ForkInfo.deepestSlot).getD x

def Candidate : Prop := fc.isCandidate x = some true

def Confirmed : Prop := fc.isDuplicateConfirmed x = some true

/-- The first block is heavier: more stake voted in its subtree, or as much and its key is
smaller. -/
def Heavier (a b : SlotHashKey) : Prop :=
  fc.weightOf b < fc.weightOf a ∨ fc.weightOf b = fc.weightOf a ∧ a < b

/-- The first block is deeper: its subtree is higher, or as high and it is heavier. -/
def Deeper (a b : SlotHashKey) : Prop :=
  fc.heightOf b < fc.heightOf a ∨ fc.heightOf b = fc.heightOf a ∧ fc.Heavier a b

/-- The heaviest candidate among the children of a block. -/
def HeaviestChild (x c : SlotHashKey) : Prop := IsTop fc.Heavier fc.Candidate (fc.childrenOf x) c

def DeepestChild (x c : SlotHashKey) : Prop :=
  IsTop fc.Deeper (fun _ => True) (fc.childrenOf x) c

variable {fc} {x : SlotHashKey} {i : ForkInfo}
variable (h : fc.info x = some i)
include h

theorem votedAt_of_info : fc.votedAt x = i.stakeVotedAt := by
  rw [votedAt, h, map_some, getD_some]

theorem weightOf_of_info : fc.weightOf x = i.stakeVotedSubtree := by
  rw [weightOf, stakeVotedSubtree, h, map_some, getD_some]

theorem heightOf_of_info : fc.heightOf x = i.height := by
  rw [heightOf, height, h, map_some, getD_some]

theorem bestOf_of_info : fc.bestOf x = i.bestSlot := by
  rw [bestOf, bestSlot, h, map_some, getD_some]

theorem deepestOf_of_info : fc.deepestOf x = i.deepestSlot := by
  rw [deepestOf, h, map_some, getD_some]

theorem candidate_of_info : fc.Candidate x ↔ i.latestInvalidAncestor = none := by
  rw [Candidate, isCandidate, h, map_some, some.injEq, ForkInfo.isCandidate, isNone_iff_eq_none]

theorem confirmed_of_info : fc.Confirmed x ↔ i.isDuplicateConfirmed = true := by
  rw [Confirmed, isDuplicateConfirmed, h, map_some, some.injEq]

theorem latestInvalidAncestor_of_info : fc.latestInvalidAncestor x = i.latestInvalidAncestor := by
  rw [latestInvalidAncestor, h, bind_some]

end Fields

section Parts
variable {fc fc' : HeaviestSubtreeForkChoice} {x : SlotHashKey} {i j : ForkInfo}

/-- Two fork choices have the same entry of a block, but for its parent and its children. -/
def SameEntry (fc fc' : HeaviestSubtreeForkChoice) (x : SlotHashKey) : Prop :=
  (fc'.info x).map ForkInfo.unlinked = (fc.info x).map ForkInfo.unlinked

namespace SameEntry

theorem of_eq (h : fc'.info x = fc.info x) : fc.SameEntry fc' x := by
  rw [SameEntry, h]

theorem of_info (hi : fc.info x = some i) (hj : fc'.info x = some j)
    (h : j.unlinked = i.unlinked) : fc.SameEntry fc' x := by
  rw [SameEntry, hi, hj, map_some, map_some, h]

variable (h : fc.SameEntry fc' x)
include h

theorem field {γ : Type} (f : ForkInfo → γ) :
    (fc'.info x).map (fun i => f i.unlinked) = (fc.info x).map (fun i => f i.unlinked) := by
  have hfield := congrArg (Option.map f) h
  rw [Option.map_map, Option.map_map] at hfield
  exact hfield

theorem votedAt : fc'.votedAt x = fc.votedAt x := congrArg (·.getD 0) (h.field stakeVotedAt)

theorem weightOf : fc'.weightOf x = fc.weightOf x :=
  congrArg (·.getD 0) (h.field ForkInfo.stakeVotedSubtree)

theorem heightOf : fc'.heightOf x = fc.heightOf x := congrArg (·.getD 0) (h.field ForkInfo.height)

theorem bestOf : fc'.bestOf x = fc.bestOf x := congrArg (·.getD x) (h.field ForkInfo.bestSlot)

theorem deepestOf : fc'.deepestOf x = fc.deepestOf x := congrArg (·.getD x) (h.field deepestSlot)

theorem candidate : fc'.Candidate x ↔ fc.Candidate x :=
  iff_of_eq (congrArg (· = some true) (h.field ForkInfo.isCandidate))

theorem confirmed : fc'.Confirmed x ↔ fc.Confirmed x :=
  iff_of_eq (congrArg (· = some true) (h.field ForkInfo.isDuplicateConfirmed))

theorem latest : fc'.latestInvalidAncestor x = fc.latestInvalidAncestor x := by
  have hlatest := congrArg (Option.bind · id) (h.field ForkInfo.latestInvalidAncestor)
  rw [Option.bind_map, Option.bind_map] at hlatest
  exact hlatest

end SameEntry
end Parts

section Orders
variable (fc : HeaviestSubtreeForkChoice)

instance : Std.Asymm fc.Heavier := inferInstanceAs (Std.Asymm (ByRank fc.weightOf (· < ·)))

instance : IsTrans _ fc.Heavier := inferInstanceAs (IsTrans _ (ByRank fc.weightOf (· < ·)))

instance : Std.Trichotomous fc.Heavier :=
  inferInstanceAs (Std.Trichotomous (ByRank fc.weightOf (· < ·)))

instance : Std.Asymm fc.Deeper := inferInstanceAs (Std.Asymm (ByRank fc.heightOf fc.Heavier))

instance : IsTrans _ fc.Deeper := inferInstanceAs (IsTrans _ (ByRank fc.heightOf fc.Heavier))

instance : Std.Trichotomous fc.Deeper :=
  inferInstanceAs (Std.Trichotomous (ByRank fc.heightOf fc.Heavier))

end Orders

open Aggregation

section Loop
variable {fc : HeaviestSubtreeForkChoice} {x c : SlotHashKey} {i child : ForkInfo}
variable {a : Aggregation} {l : List SlotHashKey}

/-- The best child variables after the children of a list. -/
def GatheredBest (fc : HeaviestSubtreeForkChoice) (x : SlotHashKey) (l : List SlotHashKey)
    (a : Aggregation) : Prop :=
  (a.bestChildKey = x ∧ a.bestSlot = x ∧ ∀ c ∈ l, ¬fc.Candidate c) ∨
    (IsTop fc.Heavier fc.Candidate l a.bestChildKey ∧
      a.bestChildStake = fc.weightOf a.bestChildKey ∧ a.bestSlot = fc.bestOf a.bestChildKey)

/-- The deepest child variables after the children of a list. -/
def GatheredDeepest (fc : HeaviestSubtreeForkChoice) (x : SlotHashKey) (l : List SlotHashKey)
    (a : Aggregation) : Prop :=
  (a.deepestChildKey = x ∧ a.deepestSlot = x ∧ a.deepestChildHeight = 0 ∧ l = []) ∨
    (IsTop fc.Deeper (fun _ => True) l a.deepestChildKey ∧
      a.deepestChildStake = fc.weightOf a.deepestChildKey ∧
      a.deepestChildHeight = fc.heightOf a.deepestChildKey ∧
      a.deepestSlot = fc.deepestOf a.deepestChildKey)

/-- The variables of `aggregate_slot` after the children of a list. -/
structure Gathered (fc : HeaviestSubtreeForkChoice) (x : SlotHashKey) (i : ForkInfo)
    (l : List SlotHashKey) (a : Aggregation) : Prop where
  stake : a.stakeVotedSubtree = i.stakeVotedAt + (l.map fc.weightOf).sum
  confirmed : a.isDuplicateConfirmed = true ↔ ∃ c ∈ l, fc.Confirmed c
  best : fc.GatheredBest x l a
  deepest : fc.GatheredDeepest x l a

theorem takeBest_gathered (h : fc.GatheredBest x l a) (hx : x ∉ l) (hc : fc.info c = some child) :
    fc.GatheredBest x (l ++ [c]) (a.takeBest x c child) := by
  have hcandidate : fc.Candidate c ↔ child.isCandidate = true := by
    rw [Candidate, isCandidate, hc, map_some, some.injEq]
  have hweight := weightOf_of_info hc
  have htaken : fc.weightOf c = child.stakeVotedSubtree ∧ fc.bestOf c = child.bestSlot :=
    ⟨hweight, bestOf_of_info hc⟩
  unfold takeBest
  rcases h with ⟨hkey, hslot, hnone⟩ | ⟨htop, hstake, hslot⟩
  · -- no candidate so far
    by_cases hok : fc.Candidate c
    · rw [if_pos ⟨hcandidate.mp hok, .inl hkey⟩]
      exact .inr ⟨IsTop.concat_of_none hnone hok, htaken.1.symm, htaken.2.symm⟩
    · rw [if_neg fun hif => hok (hcandidate.mpr hif.1)]
      refine .inl ⟨hkey, hslot, fun d hd => ?_⟩
      rcases mem_append.mp hd with hd | hd
      · exact hnone d hd
      · exact mem_singleton.mp hd ▸ hok
  · have hkey : a.bestChildKey ≠ x := fun heq => hx (heq ▸ htop.mem)
    have hbeats : fc.Heavier c a.bestChildKey ↔ a.bestChildStake < child.stakeVotedSubtree ∨
        child.stakeVotedSubtree = a.bestChildStake ∧ c < a.bestChildKey := by
      rw [Heavier, hweight, hstake]
      exact or_congr_right (and_congr_left fun _ => eq_comm)
    by_cases hif : fc.Candidate c ∧ fc.Heavier c a.bestChildKey
    · rw [if_pos ⟨hcandidate.mp hif.1, .inr (hbeats.mp hif.2)⟩]
      exact .inr ⟨htop.concat_of_beats hif.1 hif.2, htaken.1.symm, htaken.2.symm⟩
    · rw [if_neg fun h => hif ⟨hcandidate.mpr h.1, hbeats.mpr (h.2.resolve_left hkey)⟩]
      exact .inr ⟨htop.concat_of_not fun hok hheavier => hif ⟨hok, hheavier⟩, hstake, hslot⟩

theorem takeDeepest_gathered (h : fc.GatheredDeepest x l a) (hx : x ∉ l)
    (hc : fc.info c = some child) :
    fc.GatheredDeepest x (l ++ [c]) (a.takeDeepest x c child) := by
  have hweight := weightOf_of_info hc
  have hheight := heightOf_of_info hc
  have hslot' := deepestOf_of_info hc
  unfold takeDeepest
  rcases h with ⟨hkey, hslot, hzero, rfl⟩ | ⟨htop, hstake, hdepth, hslot⟩
  · rw [if_pos (.inl hkey)]
    exact .inr ⟨IsTop.singleton trivial, hweight.symm, hheight.symm, hslot'.symm⟩
  · have hkey : a.deepestChildKey ≠ x := fun heq => hx (heq ▸ htop.mem)
    have hbeats : fc.Deeper c a.deepestChildKey ↔ a.deepestChildHeight < child.height ∨
        child.height = a.deepestChildHeight ∧ (a.deepestChildStake < child.stakeVotedSubtree ∨
          child.stakeVotedSubtree = a.deepestChildStake ∧ c < a.deepestChildKey) := by
      rw [Deeper, Heavier, hweight, hheight, hstake, hdepth]
      refine or_congr_right (and_congr eq_comm (or_congr_right (and_congr_left fun _ => eq_comm)))
    by_cases hif : fc.Deeper c a.deepestChildKey
    · rw [if_pos (.inr (hbeats.mp hif))]
      exact .inr ⟨htop.concat_of_beats trivial hif, hweight.symm, hheight.symm, hslot'.symm⟩
    · rw [if_neg fun h => hif (hbeats.mpr (h.resolve_left hkey))]
      exact .inr ⟨htop.concat_of_not fun _ => hif, hstake, hdepth, hslot⟩

theorem takeBest_counts : (a.takeBest x c child).stakeVotedSubtree = a.stakeVotedSubtree ∧
    (a.takeBest x c child).isDuplicateConfirmed = a.isDuplicateConfirmed := by
  unfold takeBest
  split_ifs <;> exact ⟨rfl, rfl⟩

theorem takeBest_gatheredDeepest :
    fc.GatheredDeepest x l (a.takeBest x c child) ↔ fc.GatheredDeepest x l a := by
  unfold takeBest
  split_ifs <;> rfl

theorem takeDeepest_counts : (a.takeDeepest x c child).stakeVotedSubtree = a.stakeVotedSubtree ∧
    (a.takeDeepest x c child).isDuplicateConfirmed = a.isDuplicateConfirmed := by
  unfold takeDeepest
  split_ifs <;> exact ⟨rfl, rfl⟩

theorem takeDeepest_gatheredBest :
    fc.GatheredBest x l (a.takeDeepest x c child) ↔ fc.GatheredBest x l a := by
  unfold takeDeepest
  split_ifs <;> rfl

theorem Gathered.step {b : Aggregation} (h : fc.Gathered x i l a) (hx : x ∉ l)
    (hb : fc.aggregateChild x a c = some b) : fc.Gathered x i (l ++ [c]) b := by
  obtain ⟨child, hc, hb⟩ := bind_eq_some_iff.mp hb
  obtain rfl := some.inj hb
  refine ⟨?_, ?_, ?_, ?_⟩
  · rw [takeDeepest_counts.1, takeBest_counts.1, map_append, sum_append, map_singleton,
      sum_singleton, weightOf_of_info hc, ← Nat.add_assoc, ← h.stake]
  · rw [takeDeepest_counts.2, takeBest_counts.2, Bool.or_eq_true, h.confirmed,
      ← confirmed_of_info hc]
    simp
  · exact takeDeepest_gatheredBest.mpr (takeBest_gathered h.best hx hc)
  · exact takeDeepest_gathered (takeBest_gatheredDeepest.mpr h.deepest) hx hc

theorem Gathered.run (hx : x ∉ l) (h : l.foldlM (fc.aggregateChild x) (start x i) = some a) :
    fc.Gathered x i l a := by
  induction l using reverseRec generalizing a with
  | nil =>
    obtain rfl := some.inj h
    exact ⟨rfl, by simp [start], .inl ⟨rfl, rfl, by simp⟩, .inl ⟨rfl, rfl, rfl, rfl⟩⟩
  | append_singleton l c ih =>
    rw [foldlM_append] at h
    obtain ⟨a', ha', hlast⟩ := bind_eq_some_iff.mp h
    have hx' : x ∉ l := fun hmem => hx (mem_append_left _ hmem)
    obtain ⟨b, hb, hnil⟩ := bind_eq_some_iff.mp hlast
    obtain rfl := some.inj hnil
    exact (ih hx' ha').step hx' hb

theorem aggregateChildren_gathered (hx : x ∉ i.children) (h : fc.aggregateChildren x i = some a) :
    fc.Gathered x i i.children a :=
  Gathered.run hx h

end Loop

variable {fc fc' : HeaviestSubtreeForkChoice} {x c : SlotHashKey} {i j : ForkInfo}
variable {a : Aggregation} {batch : List OperationEntry}

structure LocalAt (fc : HeaviestSubtreeForkChoice) (x : SlotHashKey) : Prop where
  stake : fc.weightOf x = fc.votedAt x + ((fc.childrenOf x).map fc.weightOf).sum
  best_self : fc.Candidate x → (∀ c ∈ fc.childrenOf x, ¬fc.Candidate c) → fc.bestOf x = x
  best_child : ∀ {c}, fc.Candidate x → fc.HeaviestChild x c → fc.bestOf x = fc.bestOf c
  deepest_self : fc.childrenOf x = [] → fc.deepestOf x = x ∧ fc.heightOf x = 1
  deepest_child : ∀ {c}, fc.DeepestChild x c →
    fc.deepestOf x = fc.deepestOf c ∧ fc.heightOf x = fc.heightOf c + 1

theorem withAggregation_confirmed :
    (withAggregation i a).isDuplicateConfirmed =
      (i.isDuplicateConfirmed || a.isDuplicateConfirmed) := by
  unfold withAggregation setDuplicateConfirmed
  split <;> simp_all

theorem withAggregation_latest : (withAggregation i a).latestInvalidAncestor =
    if a.isDuplicateConfirmed then none else i.latestInvalidAncestor := by
  unfold withAggregation setDuplicateConfirmed
  split <;> rfl

theorem withAggregation_votedAt : (withAggregation i a).stakeVotedAt = i.stakeVotedAt := by
  unfold withAggregation setDuplicateConfirmed
  split <;> rfl

theorem localAt_of_aggregate (hx : x ∉ j.children) (ha : fc.aggregateChildren x j = some a)
    (hinfo : fc.info x = some (withAggregation j a)) : fc.LocalAt x := by
  have hgathered := aggregateChildren_gathered hx ha
  have hchildren : fc.childrenOf x = j.children :=
    (childrenOf_of_info hinfo).trans (withAggregation_edges j a).2
  have hbest : fc.bestOf x = a.bestSlot := bestOf_of_info hinfo
  have hdeepest : fc.deepestOf x = a.deepestSlot := deepestOf_of_info hinfo
  have hheight : fc.heightOf x = a.deepestChildHeight + 1 := heightOf_of_info hinfo
  refine ⟨?_, fun _ hnone => ?_, fun {c} _ hc => ?_, fun hnil => ?_, fun {c} hc => ?_⟩
  · rw [weightOf_of_info hinfo, votedAt_of_info hinfo, withAggregation_votedAt, hchildren]
    exact hgathered.stake
  · rw [hchildren] at hnone
    rcases hgathered.best with h | ⟨htop, _⟩
    · exact hbest.trans h.2.1
    · exact absurd htop.ok (hnone _ htop.mem)
  · rw [HeaviestChild, hchildren] at hc
    rcases hgathered.best with h | ⟨htop, _, hslot⟩
    · exact absurd hc.ok (h.2.2 c hc.mem)
    · rw [hbest, hslot, htop.unique hc]
  · rw [hchildren] at hnil
    rcases hgathered.deepest with h | ⟨htop, _⟩
    · exact ⟨hdeepest.trans h.2.1, hheight.trans (congrArg (· + 1) h.2.2.1)⟩
    · exact absurd (hnil ▸ htop.mem) not_mem_nil
  · rw [DeepestChild, hchildren] at hc
    rcases hgathered.deepest with h | ⟨htop, _, hdepth, hslot⟩
    · exact absurd (h.2.2.2 ▸ hc.mem) not_mem_nil
    · rw [hdeepest, hheight, hslot, hdepth, htop.unique hc]
      exact ⟨rfl, rfl⟩

structure SameButStakes (i j : ForkInfo) : Prop where
  height : j.height = i.height
  best : j.bestSlot = i.bestSlot
  deepest : j.deepestSlot = i.deepestSlot
  children : j.children = i.children
  latest : j.latestInvalidAncestor = i.latestInvalidAncestor
  confirmed : j.isDuplicateConfirmed = i.isDuplicateConfirmed
  balance : j.stakeVotedSubtree + i.stakeVotedAt = i.stakeVotedSubtree + j.stakeVotedAt

theorem SameButStakes.refl (i : ForkInfo) : SameButStakes i i := ⟨rfl, rfl, rfl, rfl, rfl, rfl, rfl⟩

/-- A node whose children are as before stays as its children give it when only stakes on it
change. -/
theorem LocalAt.congr (h : fc.LocalAt x) (hi : fc.info x = some i) (hj : fc'.info x = some j)
    (hsame : SameButStakes i j) (hchildren : ∀ c ∈ fc.childrenOf x, fc'.info c = fc.info c) :
    fc'.LocalAt x := by
  have hlist : fc'.childrenOf x = fc.childrenOf x := by
    rw [childrenOf_of_info hj, childrenOf_of_info hi, hsame.children]
  have hentry : ∀ c ∈ fc.childrenOf x, fc.SameEntry fc' c := fun c hc => .of_eq (hchildren c hc)
  have hbest : fc'.bestOf x = fc.bestOf x := by
    rw [bestOf_of_info hj, bestOf_of_info hi, hsame.best]
  have hself : fc'.Candidate x ↔ fc.Candidate x := by
    rw [candidate_of_info hj, candidate_of_info hi, hsame.latest]
  have hheavier : ∀ a ∈ fc.childrenOf x, ∀ b ∈ fc.childrenOf x,
      fc'.Heavier a b ↔ fc.Heavier a b := fun a ha b hb => by
    rw [Heavier, (hentry a ha).weightOf, (hentry b hb).weightOf, Heavier]
  refine ⟨?_, fun hx hnone => ?_, fun {c} hx hc => ?_, fun hnil => ?_, fun {c} hc => ?_⟩
  · have hsum : (fc'.childrenOf x).map fc'.weightOf = (fc.childrenOf x).map fc.weightOf := by
      rw [hlist]
      exact map_congr_left fun c hc => (hentry c hc).weightOf
    have hstake := h.stake
    rw [weightOf_of_info hi, votedAt_of_info hi] at hstake
    have hbalance := hsame.balance
    rw [weightOf_of_info hj, votedAt_of_info hj, hsum]
    omega
  · rw [hbest]
    rw [hlist] at hnone
    exact h.best_self (hself.mp hx) fun c hc hok => hnone c hc ((hentry c hc).candidate.mpr hok)
  · have hc' : fc.HeaviestChild x c := by
      rw [HeaviestChild, hlist] at hc
      exact hc.congr (fun _ => .rfl) (fun c hc => (hentry c hc).candidate) fun b hb =>
        (hheavier c hc.mem b hb).mp
    rw [hbest, h.best_child (hself.mp hx) hc', (hentry c hc'.mem).bestOf]
  · rw [hlist] at hnil
    rw [deepestOf_of_info hj, heightOf_of_info hj, hsame.deepest, hsame.height,
      ← deepestOf_of_info hi, ← heightOf_of_info hi]
    exact h.deepest_self hnil
  · have hc' : fc.DeepestChild x c := by
      rw [DeepestChild, hlist] at hc
      refine hc.congr (fun _ => .rfl) (fun _ _ => .rfl) fun b hb hdeeper => ?_
      rw [Deeper, (hentry c hc.mem).heightOf, (hentry b hb).heightOf,
        hheavier c hc.mem b hb] at hdeeper
      exact hdeeper
    rw [deepestOf_of_info hj, heightOf_of_info hj, hsame.deepest, hsame.height,
      ← deepestOf_of_info hi, ← heightOf_of_info hi, (hentry c hc'.mem).deepestOf,
      (hentry c hc'.mem).heightOf]
    exact h.deepest_child hc'

def StakeOnly (changes : List UpdateOperation) : Prop :=
  ∀ op ∈ changes, (∃ n, op = .add n) ∨ ∃ n, op = .subtract n

theorem onInfo_sameButStakes {op : UpdateOperation} {k : ForkInfo}
    (hop : (∃ n, op = .add n) ∨ ∃ n, op = .subtract n) (h : SameButStakes i j)
    (hk : op.onInfo x j = some k) : SameButStakes i k := by
  have hbalance := h.balance
  rcases hop with ⟨n, rfl⟩ | ⟨n, rfl⟩
  · obtain rfl := some.inj hk
    refine ⟨h.height, h.best, h.deepest, h.children, h.latest, h.confirmed, ?_⟩
    dsimp only
    omega
  · simp only [UpdateOperation.onInfo] at hk
    split_ifs at hk with hle
    obtain rfl := some.inj hk
    refine ⟨h.height, h.best, h.deepest, h.children, h.latest, h.confirmed, ?_⟩
    dsimp only
    omega

theorem onInfos_sameButStakes {changes : List UpdateOperation} (hstake : StakeOnly changes)
    (h : onInfos x changes i = some j) : SameButStakes i j :=
  onInfos_induction (P := SameButStakes i)
    (fun op hop _ _ hi hk => onInfo_sameButStakes (hstake op hop) hi hk) h (.refl i)

/-- The batch reaches every node whose children change. -/
structure Propagates (fc : HeaviestSubtreeForkChoice) (batch : List OperationEntry) : Prop where
  aggregated : ∀ {x p}, AggregatedIn batch x → fc.parent x = some p → AggregatedIn batch p
  changed : ∀ {x p}, changesAt batch x ≠ [] → fc.parent x = some p → AggregatedIn batch p
  stakeOnly : ∀ {x}, ¬AggregatedIn batch x → StakeOnly (changesAt batch x)

theorem Processed.sameButStakes (h : fc.Processed batch fc') (hbatch : fc.Propagates batch)
    (hx : ¬AggregatedIn batch x) (hi : fc.info x = some i) :
    ∃ j, fc'.info x = some j ∧ SameButStakes i j := by
  obtain ⟨j, hj, hsettled⟩ := h.entry hi
  rcases hsettled with ⟨_, hinfo⟩ | ⟨hagg, _⟩
  · exact ⟨j, hinfo, onInfos_sameButStakes (hbatch.stakeOnly hx) hj⟩
  · exact absurd hagg hx

variable (hlinked : fc.Linked) (h : fc.Processed batch fc')
include hlinked h

theorem Processed.info_child (hbatch : fc.Propagates batch) (hx : ¬AggregatedIn batch x)
    (hc : c ∈ fc.childrenOf x) : fc'.info c = fc.info c := by
  have hparent := hlinked.parent hc
  obtain ⟨i, hi⟩ := hlinked.info hc
  obtain ⟨j, hj, hsettled⟩ := h.entry hi
  have hchanges : changesAt batch c = [] := by
    by_contra hne
    exact hx (hbatch.changed hne hparent)
  rw [hchanges] at hj
  obtain rfl := some.inj hj
  rcases hsettled with ⟨_, hinfo⟩ | ⟨hagg, _⟩
  · rw [hinfo, hi]
  · exact absurd (hbatch.aggregated hagg hparent) hx

theorem Processed.aggregate (hi : fc.info x = some i) (hagg : AggregatedIn batch x) :
    ∃ j a, x ∉ j.children ∧ fc'.aggregateChildren x j = some a ∧
      fc'.info x = some (withAggregation j a) := by
  obtain ⟨j, hj, ⟨hnot, _⟩ | ⟨_, a, ha, hinfo⟩⟩ := h.entry hi
  · exact absurd hagg hnot
  · refine ⟨j, a, ?_, ha, hinfo⟩
    rw [(onInfos_edges hj).2, ← childrenOf_of_info hi]
    exact hlinked.not_mem x

theorem Processed.best_cases (hi : fc.info x = some i) (hagg : AggregatedIn batch x) :
    fc'.bestOf x = x ∨ ∃ c ∈ fc.childrenOf x, fc'.bestOf x = fc'.bestOf c := by
  obtain ⟨j, a, hx, ha, hinfo⟩ := h.aggregate hlinked hi hagg
  rcases (aggregateChildren_gathered hx ha).best with hnone | ⟨htop, _, hslot⟩
  · exact .inl ((bestOf_of_info hinfo).trans hnone.2.1)
  · refine .inr ⟨a.bestChildKey, ?_, (bestOf_of_info hinfo).trans hslot⟩
    rw [← h.sameShape.childrenOf_eq, childrenOf_of_info hinfo, (withAggregation_edges _ _).2]
    exact htop.mem

/-- After a batch every node has the entry that its children give, if the nodes that are not
aggregated had it before. -/
theorem Processed.localAt (hbatch : fc.Propagates batch) (hi : fc.info x = some i)
    (hlocal : ¬AggregatedIn batch x → fc.LocalAt x) : fc'.LocalAt x := by
  by_cases hagg : AggregatedIn batch x
  · obtain ⟨j, a, hx, ha, hinfo⟩ := h.aggregate hlinked hi hagg
    exact localAt_of_aggregate hx ha hinfo
  · obtain ⟨j, hinfo, hsame⟩ := h.sameButStakes hbatch hagg hi
    exact (hlocal hagg).congr hi hinfo hsame fun c hc => h.info_child hlinked hbatch hagg hc

end HeaviestSubtreeForkChoice
end Hypergrid
