import Hypergrid.ForkChoice
import Hypergrid.Lib.ParentTree

/-!
# The tree of the fork choice

What the entries of the fork choice have to satisfy to be a tree, and what the walks over it visit.

* `Tree` : parents and children agree, parents have lower slots, and only the root has no parent.
* `Tree.leaf_induction` : induction from the leaves to the root.
* `mem_ancestorIterator` : the iterator visits the proper ancestors.
* `subtreeDiff_spec` : the stack walk visits the subtree of the first block without the subtree of
  the second one, and never fails.
-/

namespace Hypergrid
open List

namespace HeaviestSubtreeForkChoice

variable {fc : HeaviestSubtreeForkChoice} {x y a b c p r : SlotHashKey} {i : ForkInfo}

/-- Writing an entry changes this entry only. -/
theorem info_setInfo (fc : HeaviestSubtreeForkChoice) (x y : SlotHashKey) (i : ForkInfo) :
    (fc.setInfo x i).info y = if y = x then some i else fc.info y := by
  split_ifs with h
  · rw [h]
    exact AList.lookup_insert _
  · exact AList.lookup_insert_ne h

@[simp]
theorem info_setInfo_self : (fc.setInfo x i).info x = some i := by
  rw [info_setInfo, if_pos rfl]

theorem info_setInfo_ne (h : y ≠ x) : (fc.setInfo x i).info y = fc.info y := by
  rw [info_setInfo, if_neg h]

/-- The nodes are the blocks with an entry. -/
theorem containsBlock_iff : fc.containsBlock x = true ↔ ∃ i, fc.info x = some i :=
  Option.isSome_iff_exists

theorem mem_keys_iff : x ∈ fc.forkInfos.keys ↔ ∃ i, fc.info x = some i := by
  rw [← AList.mem_keys, ← AList.lookup_isSome]
  exact Option.isSome_iff_exists

theorem parent_of_info (h : fc.info x = some i) : fc.parent x = i.parent := by
  rw [parent, h, Option.bind_some]

/-- A block with a parent has an entry. -/
theorem exists_info_of_parent (h : fc.parent x = some p) :
    ∃ i, fc.info x = some i ∧ i.parent = some p :=
  Option.bind_eq_some_iff.mp h

section Shape

/-- The children of a block; none if it is not in the tree. -/
def childrenOf (fc : HeaviestSubtreeForkChoice) (x : SlotHashKey) : List SlotHashKey :=
  (fc.children x).getD []

/-- The second block lies in the subtree of the first one. -/
def InSubtree (fc : HeaviestSubtreeForkChoice) : SlotHashKey → SlotHashKey → Prop :=
  Relation.ReflTransGen (fun p x => fc.parent x = some p)

/-- The entries form a tree. -/
structure Tree (fc : HeaviestSubtreeForkChoice) : Prop where
  parent_lt : ∀ {x p}, fc.parent x = some p → p.slot < x.slot
  mem_children : ∀ {x c}, c ∈ fc.childrenOf x ↔ fc.parent c = some x
  children_nodup : ∀ x, (fc.childrenOf x).Nodup
  root_mem : ∃ i, fc.info fc.treeRoot = some i
  root_iff : ∀ {x i}, fc.info x = some i → (i.parent = none ↔ x = fc.treeRoot)

/-- The children of a node are nodes of higher slots that have it as their parent.  A tree from
which a subtree is cut off, but not yet removed, still has this. -/
structure Linked (fc : HeaviestSubtreeForkChoice) : Prop where
  parent : ∀ {x c}, c ∈ fc.childrenOf x → fc.parent c = some x
  slot_lt : ∀ {x c}, c ∈ fc.childrenOf x → x.slot < c.slot

/-- Two fork choices with the same blocks, the same parents and the same children. -/
structure SameShape (fc fc' : HeaviestSubtreeForkChoice) : Prop where
  shape : ∀ x, (fc'.info x).map (fun i => (i.parent, i.children)) =
    (fc.info x).map (fun i => (i.parent, i.children))
  treeRoot : fc'.treeRoot = fc.treeRoot

variable {fc' : HeaviestSubtreeForkChoice}

theorem childrenOf_of_info (h : fc.info x = some i) : fc.childrenOf x = i.children := by
  rw [childrenOf, children, h, Option.map_some, Option.getD_some]

theorem info_of_mem_childrenOf (h : c ∈ fc.childrenOf x) : ∃ i, fc.info x = some i := by
  cases hx : fc.info x with
  | none =>
    rw [childrenOf, children, hx] at h
    exact absurd h not_mem_nil
  | some i => exact ⟨i, rfl⟩

namespace SameShape

variable (h : fc.SameShape fc')
include h

/-- The parents are the same. -/
theorem parent_eq (x : SlotHashKey) : fc'.parent x = fc.parent x := by
  have hshape := congrArg (Option.bind · Prod.fst) (h.shape x)
  rw [Option.bind_map, Option.bind_map] at hshape
  exact hshape

/-- So are the children. -/
theorem childrenOf_eq (x : SlotHashKey) : fc'.childrenOf x = fc.childrenOf x := by
  have hshape := congrArg (fun o => (o.map Prod.snd).getD []) (h.shape x)
  simp only [Option.map_map] at hshape
  exact hshape

/-- The same blocks are nodes. -/
theorem info_iff (x : SlotHashKey) : (∃ i, fc'.info x = some i) ↔ ∃ i, fc.info x = some i := by
  have hshape := congrArg Option.isSome (h.shape x)
  rw [Option.isSome_map, Option.isSome_map] at hshape
  rw [← Option.isSome_iff_exists, ← Option.isSome_iff_exists, hshape]

/-- The subtrees are the same. -/
theorem inSubtree_eq : fc'.InSubtree = fc.InSubtree := by
  unfold InSubtree
  simp only [h.parent_eq]

theorem linked (hlinked : fc.Linked) : fc'.Linked where
  parent := by
    intro x c hc
    rw [h.childrenOf_eq] at hc
    exact (h.parent_eq c).trans (hlinked.parent hc)
  slot_lt := fun hc => hlinked.slot_lt (h.childrenOf_eq _ ▸ hc)

/-- The second one is a tree if the first one is. -/
theorem tree (htree : fc.Tree) : fc'.Tree where
  parent_lt := fun hp => htree.parent_lt (h.parent_eq _ ▸ hp)
  mem_children := by
    intro x c
    rw [h.parent_eq, h.childrenOf_eq]
    exact htree.mem_children
  children_nodup := fun x => h.childrenOf_eq x ▸ htree.children_nodup x
  root_mem := by
    rw [h.treeRoot, h.info_iff]
    exact htree.root_mem
  root_iff := by
    intro x i hi
    obtain ⟨j, hj⟩ := (h.info_iff x).mp ⟨i, hi⟩
    have hparent := h.parent_eq x
    rw [parent_of_info hi, parent_of_info hj] at hparent
    rw [h.treeRoot, hparent]
    exact htree.root_iff hj

end SameShape
end Shape

theorem Tree.linked (h : fc.Tree) : fc.Linked :=
  ⟨h.mem_children.mp, fun hc => h.parent_lt (h.mem_children.mp hc)⟩

/-- A child comes after its parent. -/
theorem Linked.lt (h : fc.Linked) (hc : c ∈ fc.childrenOf x) : x < c :=
  SlotHashKey.lt_of_slot_lt (h.slot_lt hc)

theorem Linked.info (h : fc.Linked) (hc : c ∈ fc.childrenOf x) : ∃ i, fc.info c = some i :=
  (exists_info_of_parent (h.parent hc)).imp fun _ => And.left

theorem Linked.not_mem (h : fc.Linked) (x : SlotHashKey) : x ∉ fc.childrenOf x :=
  fun hx => lt_irrefl _ (h.lt hx)

/-- Induction from the leaves to the root, along the lists of children. -/
theorem Linked.children_induction (h : fc.Linked) {P : SlotHashKey → Prop}
    (step : ∀ x, (∀ c ∈ fc.childrenOf x, P c) → P x) (x : SlotHashKey) : P x := by
  -- slots grow towards the leaves and are bounded by the greatest slot of the tree
  let bound := fc.forkInfos.keys.toFinset.sup SlotHashKey.slot
  have hbound : ∀ c i, fc.info c = some i → c.slot ≤ bound := fun c i hi =>
    Finset.le_sup (f := SlotHashKey.slot) (mem_toFinset.mpr (mem_keys_iff.mpr ⟨i, hi⟩))
  induction hn : bound - x.slot using Nat.strong_induction_on generalizing x with
  | _ n ih =>
    refine step x fun c hc => ih (bound - c.slot) ?_ c rfl
    obtain ⟨i, hi⟩ := h.info hc
    rw [← hn]
    exact Nat.sub_lt_sub_left (lt_of_lt_of_le (h.slot_lt hc) (hbound c i hi)) (h.slot_lt hc)

section Subtrees

theorem InSubtree.refl (x : SlotHashKey) : fc.InSubtree x x := Relation.ReflTransGen.refl

theorem InSubtree.trans (h : fc.InSubtree a b) (h' : fc.InSubtree b c) : fc.InSubtree a c :=
  Relation.ReflTransGen.trans h h'

theorem InSubtree.of_parent (h : fc.parent x = some p) : fc.InSubtree p x := .single h

/-- A subtree has a block exactly if the block is its root, or has a parent in it. -/
theorem inSubtree_iff_parent :
    fc.InSubtree a x ↔ a = x ∨ ∃ p, fc.parent x = some p ∧ fc.InSubtree a p := by
  constructor
  · intro h
    cases h with
    | refl => exact .inl rfl
    | tail hpath hp => exact .inr ⟨_, hp, hpath⟩
  · rintro (rfl | ⟨p, hp, hpath⟩)
    · exact .refl _
    · exact hpath.tail hp

/-- The blocks below a block are below one of its children. -/
theorem inSubtree_iff_child :
    fc.InSubtree x y ↔ x = y ∨ ∃ c, fc.parent c = some x ∧ fc.InSubtree c y := by
  constructor
  · intro h
    rcases h.cases_head with rfl | ⟨c, hc, hpath⟩
    · exact .inl rfl
    · exact .inr ⟨c, hc, hpath⟩
  · rintro (rfl | ⟨c, hc, hpath⟩)
    · exact .refl _
    · exact (InSubtree.of_parent hc).trans hpath

namespace Tree

/-- The blocks as a forest ranked by slots. -/
def forest (h : fc.Tree) : ParentTree SlotHashKey SlotHashKey.slot := ⟨fc.parent, h.parent_lt⟩

variable (h : fc.Tree)
include h

/-- Slots grow on the way down. -/
theorem slot_lt (hab : fc.InSubtree a b) (hne : a ≠ b) : a.slot < b.slot := by
  have hab : h.forest.AncestorOrSelf a b := hab
  rcases ParentTree.ancestorOrSelf_iff.mp hab with rfl | hab
  · exact absurd rfl hne
  · exact hab.rank_lt

theorem slot_le (hab : fc.InSubtree a b) : a.slot ≤ b.slot := by
  by_cases hne : a = b
  · exact hne ▸ le_rfl
  · exact (h.slot_lt hab hne).le

theorem eq_of_inSubtree (hab : fc.InSubtree a b) (hba : fc.InSubtree b a) : a = b := by
  by_contra hne
  exact absurd (h.slot_le hba) (Nat.not_le_of_lt (h.slot_lt hab hne))

/-- Of two ancestors of a block one is an ancestor of the other. -/
theorem comparable (hac : fc.InSubtree a c) (hbc : fc.InSubtree b c) :
    fc.InSubtree a b ∨ fc.InSubtree b a :=
  have hac : h.forest.AncestorOrSelf a c := hac
  hac.comparable hbc

/-- The one with the lower slot is above. -/
theorem inSubtree_of_slot_le (hac : fc.InSubtree a c) (hbc : fc.InSubtree b c)
    (hle : a.slot ≤ b.slot) : fc.InSubtree a b :=
  have hac : h.forest.AncestorOrSelf a c := hac
  hac.of_rank_le hbc hle

theorem not_inSubtree_parent (hp : fc.parent x = some p) : ¬fc.InSubtree x p :=
  fun hxp => absurd (h.slot_le hxp) (Nat.not_le_of_lt (h.parent_lt hp))

theorem child_eq (hx : fc.parent x = some p) (hy : fc.parent y = some p)
    (hxy : fc.InSubtree x y) : x = y := by
  rcases inSubtree_iff_parent.mp hxy with heq | ⟨q, hq, hxq⟩
  · exact heq
  · obtain rfl := Option.some.inj (hy.symm.trans hq)
    exact absurd hxq (h.not_inSubtree_parent hx)

/-- No block is below two children of a block. -/
theorem child_unique (hx : fc.parent x = some p) (hy : fc.parent y = some p)
    (hxa : fc.InSubtree x a) (hya : fc.InSubtree y a) : x = y := by
  rcases h.comparable hxa hya with hxy | hyx
  · exact h.child_eq hx hy hxy
  · exact (h.child_eq hy hx hyx).symm

theorem info_of_parent (hp : fc.parent x = some p) : ∃ i, fc.info p = some i :=
  info_of_mem_childrenOf (h.mem_children.mpr hp)

/-- The ancestors of a node are nodes. -/
theorem info_of_inSubtree (hab : fc.InSubtree a b) (hb : ∃ i, fc.info b = some i) :
    ∃ i, fc.info a = some i := by
  induction hab with
  | refl => exact hb
  | tail _ hp ih => exact ih (h.info_of_parent hp)

/-- Induction from the leaves to the root, along the parents. -/
theorem leaf_induction {P : SlotHashKey → Prop}
    (step : ∀ x, (∀ c, fc.parent c = some x → P c) → P x) (x : SlotHashKey) : P x :=
  h.linked.children_induction (fun y hy => step y fun c hc => hy c (h.mem_children.mpr hc)) x

/-- All nodes are below the root. -/
theorem inSubtree_root (hx : ∃ i, fc.info x = some i) : fc.InSubtree fc.treeRoot x := by
  induction hn : x.slot using Nat.strong_induction_on generalizing x with
  | _ n ih =>
    obtain ⟨i, hi⟩ := hx
    cases hp : i.parent with
    | none =>
      rw [(h.root_iff hi).mp hp]
      exact .refl _
    | some p =>
      have hparent : fc.parent x = some p := (parent_of_info hi).trans hp
      have hlt : p.slot < n := hn ▸ h.parent_lt hparent
      exact (ih p.slot hlt (h.info_of_parent hparent) rfl).trans (.of_parent hparent)

end Tree

/-- The iterator runs through the ancestors from the parent on. -/
theorem mem_ancestorIterator (h : fc.Tree) :
    a ∈ fc.ancestorIterator x ↔ ∃ p, fc.parent x = some p ∧ fc.InSubtree a p := by
  fun_induction ancestorIterator fc x with
  | case1 x hp => simp [hp]
  | case2 x p hp _ ih =>
    rw [mem_cons, ih, hp]
    constructor
    · rintro (rfl | ⟨q, hq, haq⟩)
      · exact ⟨_, rfl, .refl _⟩
      · exact ⟨p, rfl, haq.trans (.of_parent hq)⟩
    · rintro ⟨q, hq, haq⟩
      obtain rfl := Option.some.inj hq
      exact inSubtree_iff_parent.mp haq
  | case3 x p hp hlt => exact absurd (h.parent_lt hp) hlt

end Subtrees

variable {pending : List SlotHashKey}

/-- The blocks of a stack have disjoint subtrees. -/
def Separate (fc : HeaviestSubtreeForkChoice) (pending : List SlotHashKey) : Prop :=
  pending.Pairwise (fun a b => ¬fc.InSubtree a b ∧ ¬fc.InSubtree b a)

/-- The block lies in the subtree of a block of the stack. -/
def Covers (fc : HeaviestSubtreeForkChoice) (pending : List SlotHashKey) (y : SlotHashKey) : Prop :=
  ∃ x ∈ pending, fc.InSubtree x y

open Classical in
/-- The nodes that a walk with these pending blocks has still to visit. -/
noncomputable def covered (fc : HeaviestSubtreeForkChoice) (pending : List SlotHashKey) :
    Finset SlotHashKey :=
  fc.forkInfos.keys.toFinset.filter (fc.Covers pending)

open Classical in
theorem mem_covered : y ∈ fc.covered pending ↔ (∃ i, fc.info y = some i) ∧ fc.Covers pending y := by
  rw [covered, Finset.mem_filter, mem_toFinset, mem_keys_iff]

theorem card_covered_le {fc' : HeaviestSubtreeForkChoice}
    (h : ∀ x, (∃ i, fc.info x = some i) → ∃ i, fc'.info x = some i) :
    (fc.covered pending).card ≤ fc'.forkInfos.entries.length := by
  calc (fc.covered pending).card ≤ fc'.forkInfos.keys.toFinset.card :=
        Finset.card_le_card fun y hy =>
          mem_toFinset.mpr (mem_keys_iff.mpr (h y (mem_covered.mp hy).1))
    _ ≤ fc'.forkInfos.keys.length := toFinset_card_le _
    _ = fc'.forkInfos.entries.length := length_map _

/-- What is below the children of a block is below it. -/
theorem covers_pop (h : fc.Tree) (hy : fc.Covers ((fc.childrenOf x).reverse ++ pending) y) :
    fc.Covers (x :: pending) y := by
  obtain ⟨z, hz, hzy⟩ := hy
  rcases mem_append.mp hz with hz | hz
  · have hparent := h.mem_children.mp (mem_reverse.mp hz)
    exact ⟨x, mem_cons_self, (InSubtree.of_parent hparent).trans hzy⟩
  · exact ⟨z, mem_cons_of_mem _ hz, hzy⟩

theorem not_covers_pop (h : fc.Tree) (hsep : fc.Separate (x :: pending)) :
    ¬fc.Covers ((fc.childrenOf x).reverse ++ pending) x := by
  rintro ⟨z, hz, hzx⟩
  rcases mem_append.mp hz with hz | hz
  · exact h.not_inSubtree_parent (h.mem_children.mp (mem_reverse.mp hz)) hzx
  · exact ((pairwise_cons.mp hsep).1 z hz).2 hzx

theorem separate_children (h : fc.Tree) (x : SlotHashKey) : fc.Separate (fc.childrenOf x) := by
  refine .imp_of_mem ?_ (h.children_nodup x)
  intro a b ha hb hne
  have hpa := h.mem_children.mp ha
  have hpb := h.mem_children.mp hb
  exact ⟨fun hab => hne (h.child_eq hpa hpb hab), fun hba => hne (h.child_eq hpb hpa hba).symm⟩

/-- Pending blocks stay apart when one is replaced by its children. -/
theorem separate_pop (h : fc.Tree) (hsep : fc.Separate (x :: pending)) :
    fc.Separate ((fc.childrenOf x).reverse ++ pending) := by
  obtain ⟨hx, hpending⟩ := pairwise_cons.mp hsep
  refine pairwise_append.mpr ⟨?_, hpending, ?_⟩
  · refine pairwise_reverse.mpr ((separate_children h x).imp ?_)
    exact fun hab => ⟨hab.2, hab.1⟩
  · intro c hc b hb
    have hparent := h.mem_children.mp (mem_reverse.mp hc)
    refine ⟨fun hcb => (hx b hb).1 ((InSubtree.of_parent hparent).trans hcb), fun hbc => ?_⟩
    rcases inSubtree_iff_parent.mp hbc with rfl | ⟨q, hq, hbq⟩
    · exact (hx _ hb).1 (.of_parent hparent)
    · obtain rfl := Option.some.inj (hparent.symm.trans hq)
      exact (hx b hb).2 hbq

/-- A walk that goes on from a block has fewer nodes left. -/
theorem card_covered_lt {rest : List SlotHashKey} (hx : ∃ i, fc.info x = some i)
    (hsub : ∀ y, fc.Covers rest y → fc.Covers (x :: pending) y) (hnot : ¬fc.Covers rest x) :
    (fc.covered rest).card < (fc.covered (x :: pending)).card := by
  refine Finset.card_lt_card (Finset.ssubset_iff.mpr ⟨x, ?_, ?_⟩)
  · exact fun hmem => hnot (mem_covered.mp hmem).2
  · intro y hy
    rcases Finset.mem_insert.mp hy with rfl | hy
    · exact mem_covered.mpr ⟨hx, _, mem_cons_self, .refl _⟩
    · obtain ⟨hinfo, hcovers⟩ := mem_covered.mp hy
      exact mem_covered.mpr ⟨hinfo, hsub y hcovers⟩

/-- The second block lies in the subtree of the first one, and not behind the block `r`. -/
def ReachesBefore (fc : HeaviestSubtreeForkChoice) (r x y : SlotHashKey) : Prop :=
  fc.InSubtree x y ∧ ¬(fc.InSubtree x r ∧ fc.InSubtree r y)

theorem not_reachesBefore_self : ¬fc.ReachesBefore r r y := fun h => h.2 ⟨.refl r, h.1⟩

/-- A way down that avoids a block starts with a child. -/
theorem reachesBefore_iff (h : fc.Tree) (hne : x ≠ r) :
    fc.ReachesBefore r x y ↔ y = x ∨ ∃ c ∈ fc.childrenOf x, fc.ReachesBefore r c y := by
  constructor
  · rintro ⟨hxy, hnot⟩
    rcases inSubtree_iff_child.mp hxy with rfl | ⟨c, hc, hcy⟩
    · exact .inl rfl
    · refine .inr ⟨c, h.mem_children.mpr hc, hcy, fun hr => hnot ⟨?_, hr.2⟩⟩
      exact (InSubtree.of_parent hc).trans hr.1
  · rintro (rfl | ⟨c, hc, hcy, hnot⟩)
    · exact ⟨.refl _, fun hr => hne (h.eq_of_inSubtree hr.1 hr.2)⟩
    · have hparent := h.mem_children.mp hc
      refine ⟨(InSubtree.of_parent hparent).trans hcy, fun hr => ?_⟩
      rcases h.comparable hcy hr.2 with hcr | hrc
      · exact hnot ⟨hcr, hr.2⟩
      · rcases inSubtree_iff_parent.mp hrc with rfl | ⟨q, hq, hrq⟩
        · exact hnot ⟨.refl _, hcy⟩
        · obtain rfl := Option.some.inj (hparent.symm.trans hq)
          exact hne (h.eq_of_inSubtree hr.1 hrq)

theorem eq_nil_of_covered (hinfo : ∀ x ∈ pending, ∃ i, fc.info x = some i)
    (hcard : (fc.covered pending).card ≤ 0) : pending = [] := by
  refine eq_nil_iff_forall_not_mem.mpr fun x hx => ?_
  have hmem : x ∈ fc.covered pending := mem_covered.mpr ⟨hinfo x hx, x, hx, .refl x⟩
  exact absurd (Finset.card_pos.mpr ⟨x, hmem⟩) (Nat.not_lt_of_le hcard)

/-- The walk visits, once each, the blocks that it reaches without passing the given one. -/
theorem walkSubtree_spec (h : fc.Tree) (r : SlotHashKey) (fuel : Nat)
    (pending reachable : List SlotHashKey) (hinfo : ∀ x ∈ pending, ∃ i, fc.info x = some i)
    (hsep : fc.Separate pending) (hfuel : (fc.covered pending).card ≤ fuel)
    (hnodup : reachable.Nodup) :
    ∃ visited, fc.walkSubtree r fuel pending reachable = some visited ∧ visited.Nodup ∧
      ∀ y, y ∈ visited ↔ y ∈ reachable ∨ ∃ x ∈ pending, fc.ReachesBefore r x y := by
  -- every step takes a block off the stack that is not met again, so the fuel suffices
  induction fuel generalizing pending reachable with
  | zero =>
    obtain rfl := eq_nil_of_covered hinfo hfuel
    exact ⟨reachable, rfl, hnodup, by simp⟩
  | succ fuel ih =>
    cases pending with
    | nil => exact ⟨reachable, rfl, hnodup, by simp⟩
    | cons x pending =>
      have hx := hinfo x mem_cons_self
      have hrest : ∀ y ∈ pending, ∃ i, fc.info y = some i :=
        fun y hy => hinfo y (mem_cons_of_mem _ hy)
      by_cases hxr : x = r
      · -- the subtree of `r` is skipped
        have hlt : (fc.covered pending).card < (fc.covered (x :: pending)).card :=
          card_covered_lt hx (fun y ⟨z, hz, hzy⟩ => ⟨z, mem_cons_of_mem _ hz, hzy⟩)
            fun ⟨z, hz, hzx⟩ => ((pairwise_cons.mp hsep).1 z hz).2 hzx
        obtain ⟨visited, hwalk, hvisited, hmem⟩ := ih pending reachable hrest
          (pairwise_cons.mp hsep).2 (Nat.le_of_lt_succ (lt_of_lt_of_le hlt hfuel)) hnodup
        refine ⟨visited, ?_, hvisited, fun y => ?_⟩
        · rw [walkSubtree, if_pos hxr, hwalk]
        · rw [hmem y, exists_mem_cons_iff, hxr, or_iff_right not_reachesBefore_self]
      · obtain ⟨i, hi⟩ := hx
        have hlt := card_covered_lt ⟨i, hi⟩ (fun y => covers_pop (y := y) h)
          (not_covers_pop h hsep)
        have hinfo' : ∀ y ∈ (fc.childrenOf x).reverse ++ pending, ∃ i, fc.info y = some i := by
          intro y hy
          rcases mem_append.mp hy with hy | hy
          · exact h.linked.info (mem_reverse.mp hy)
          · exact hrest y hy
        obtain ⟨visited, hwalk, hvisited, hmem⟩ := ih _ (reachable.insert x) hinfo'
          (separate_pop h hsep) (Nat.le_of_lt_succ (lt_of_lt_of_le hlt hfuel)) hnodup.insert
        refine ⟨visited, ?_, hvisited, fun y => ?_⟩
        · have hchildren : fc.children x = some (fc.childrenOf x) := by
            rw [childrenOf_of_info hi, children, hi, Option.map_some]
          rw [walkSubtree, if_neg hxr, hchildren]
          exact hwalk
        · rw [hmem y, exists_mem_cons_iff, reachesBefore_iff h hxr, mem_insert_iff]
          simp only [mem_append, mem_reverse, or_and_right, exists_or]
          rw [@or_comm (y = x), or_assoc, or_assoc]

/-- The difference of two subtrees, without repetitions. -/
theorem subtreeDiff_spec (h : fc.Tree) (hx : ∃ i, fc.info x = some i) (r : SlotHashKey) :
    ∃ visited, fc.subtreeDiff x r = some visited ∧ visited.Nodup ∧
      ∀ y, y ∈ visited ↔ fc.ReachesBefore r x y := by
  obtain ⟨visited, hwalk, hnodup, hmem⟩ := walkSubtree_spec h r fc.forkInfos.entries.length [x] []
    (by simpa using hx) (pairwise_singleton _ _) (card_covered_le fun _ => id) nodup_nil
  refine ⟨visited, ?_, hnodup, fun y => ?_⟩
  · rw [subtreeDiff, if_pos (containsBlock_iff.mpr hx), hwalk]
  · rw [hmem y]
    simp

end HeaviestSubtreeForkChoice
end Hypergrid
