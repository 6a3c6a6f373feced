import Hypergrid.ForkChoiceExact

/-!
# A new leaf and the aggregates

A new leaf changes the best and the deepest blocks of its ancestors only as far as the two loops of
`propagate_new_leaf` go.  The first loop stops at an ancestor whose best block is not the one of the
parent: since the best block of a node lies in its subtree, such an ancestor has its best block in
another branch.  The second loop stops where the branch of the leaf is not the deepest child.

* `Grown.bestAt`, `LeafAdded.deepestAt` : both are again the ones that the children give.
* `LeafAdded.consistent_iff` : the tree with the leaf is consistent exactly if no stake of an
  earlier vote waits for the leaf.
-/

namespace Hypergrid
open List Option ForkInfo

namespace HeaviestSubtreeForkChoice

def BestInSubtree (fc : HeaviestSubtreeForkChoice) : Prop :=
  ∀ x, fc.InSubtree x (fc.bestOf x)

variable {fc fc' best : HeaviestSubtreeForkChoice} {x y a c p leaf d : SlotHashKey}
  {chain : List SlotHashKey} {i j : ForkInfo} {stakes : VoteStakes}

section Chain
variable {q : SlotHashKey}

/-- A test holds on the first part of a chain of ancestors: up to a block exactly if it holds of all
blocks between the start and it. -/
theorem AncestorChain.mem_takeWhile (htree : fc.Tree) (f : SlotHashKey → Bool)
    (hchain : fc.AncestorChain x chain) : a ∈ chain.takeWhile f ↔
      ∃ p, fc.parent x = some p ∧ fc.InSubtree a p ∧
        ∀ b, fc.InSubtree a b → fc.InSubtree b p → f b = true := by
  induction chain generalizing x with
  | nil =>
    have hx : fc.parent x = none := hchain
    simp [hx]
  | cons q rest ih =>
    rw [hchain.1]
    by_cases hq : f q = true
    · rw [takeWhile_cons_of_pos hq, mem_cons, ih hchain.2]
      constructor
      · rintro (rfl | ⟨r, hr, har, hall⟩)
        · refine ⟨a, rfl, .refl a, fun b hab hba => ?_⟩
          rw [htree.eq_of_inSubtree hba hab]
          exact hq
        · refine ⟨q, rfl, har.trans (.of_parent hr), fun b hab hbq => ?_⟩
          rcases inSubtree_iff_parent.mp hbq with rfl | ⟨r', hr', hbr⟩
          · exact hq
          · obtain rfl := some.inj (hr.symm.trans hr')
            exact hall b hab hbr
      · rintro ⟨q', hq', haq, hall⟩
        obtain rfl := some.inj hq'
        rcases inSubtree_iff_parent.mp haq with rfl | ⟨r, hr, har⟩
        · exact .inl rfl
        · refine .inr ⟨r, hr, har, fun b hab hbr => hall b hab ?_⟩
          exact hbr.trans (.of_parent hr)
    · rw [takeWhile_cons_of_neg hq]
      refine iff_of_false not_mem_nil ?_
      rintro ⟨q', hq', haq, hall⟩
      obtain rfl := some.inj hq'
      exact hq (hall q haq (.refl q))

end Chain

section Best

/-- The best block is the one that the children give. -/
structure BestAt (fc : HeaviestSubtreeForkChoice) (x : SlotHashKey) : Prop where
  self : (∀ c ∈ fc.childrenOf x, ¬fc.Candidate c) → fc.bestOf x = x
  child : ∀ {c}, fc.HeaviestChild x c → fc.bestOf x = fc.bestOf c

theorem BestPath.candidate (h : fc.BestPath x y) (hx : fc.Candidate x) : fc.Candidate y := by
  induction h with
  | stop _ => exact hx
  | child hc _ ih => exact ih hc.ok

theorem Flags.candidate_up (htree : fc.Tree) (hflags : fc.Flags) (hxy : fc.InSubtree x y)
    (hy : fc.Candidate y) : fc.Candidate x := by
  obtain ⟨j, hj⟩ := info_of_candidate hy
  obtain ⟨i, hi⟩ := htree.info_of_inSubtree hxy ⟨j, hj⟩
  rw [candidate_of_info hj, ← latestInvalidAncestor_of_info hj] at hy
  rw [candidate_of_info hi, ← latestInvalidAncestor_of_info hi]
  by_contra hne
  obtain ⟨s, hs⟩ := ne_none_iff_exists'.mp hne
  obtain ⟨s', hs', _⟩ := hflags.latest_down hxy hs
  exact absurd (hy.symm.trans hs') (by simp)

/-- The ancestors of the leaf that take it as their best block. -/
def Spreads (fc : HeaviestSubtreeForkChoice) (p x : SlotHashKey) : Prop :=
  fc.InSubtree x p ∧ ∀ a, fc.InSubtree x a → fc.InSubtree a p → fc.bestOf a = fc.bestOf p

section NewLeaf
variable (h : fc.NewLeaf leaf p i)
include h

theorem weightOf_attach (x : SlotHashKey) : (fc.attach leaf p i).weightOf x = fc.weightOf x := by
  by_cases hx : x = leaf
  · subst hx
    rw [weightOf_of_info (info_attach_leaf h), weightOf, stakeVotedSubtree, h.absent]
    rfl
  · exact (sameEntry_attach h hx).weightOf

theorem votedAt_attach (x : SlotHashKey) : (fc.attach leaf p i).votedAt x = fc.votedAt x := by
  by_cases hx : x = leaf
  · subst hx
    rw [votedAt_of_info (info_attach_leaf h), votedAt, h.absent]
    rfl
  · exact (sameEntry_attach h hx).votedAt

theorem bestOf_attach (x : SlotHashKey) : (fc.attach leaf p i).bestOf x = fc.bestOf x := by
  by_cases hx : x = leaf
  · subst hx
    rw [bestOf_of_info (info_attach_leaf h), bestOf, bestSlot, h.absent]
    rfl
  · exact (sameEntry_attach h hx).bestOf

theorem candidate_attach_leaf : (fc.attach leaf p i).Candidate leaf ↔ fc.Candidate p := by
  rw [candidate_of_info (info_attach_leaf h), candidate_of_info h.info,
    ← latestInvalidAncestor_of_info h.info]
  rfl

end NewLeaf

theorem mem_spread (htree : fc.Tree) (h : fc.NewLeaf leaf p i) :
    x ∈ (p :: (fc.attach leaf p i).ancestorIterator p).takeWhile
      (fun a => (fc.attach leaf p i).bestOf a = i.bestSlot) ↔ fc.Spreads p x := by
  rw [(attach_chain htree h).mem_takeWhile (attach_tree htree h), parent_attach_leaf h]
  have hleaf : ∀ {b}, fc.InSubtree b p → b ≠ leaf := by
    rintro b hbp rfl
    obtain ⟨j, hj⟩ := htree.info_of_inSubtree hbp ⟨i, h.info⟩
    exact h.ne_of_info hj rfl
  simp only [some.injEq, exists_eq_left', decide_eq_true_eq, bestOf_attach h,
    ← bestOf_of_info h.info, inSubtree_attach htree h h.ne, Spreads]
  refine and_congr_right fun _ => forall_congr' fun b => ?_
  constructor
  · intro hall hxb hbp
    exact hall ((inSubtree_attach htree h (hleaf hbp)).mpr hxb) hbp
  · intro hall hxb hbp
    exact hall ((inSubtree_attach htree h (hleaf hbp)).mp hxb) hbp

/-- The best blocks after the leaf was added. -/
structure BestSpread (fc : HeaviestSubtreeForkChoice) (leaf p : SlotHashKey)
    (fc' : HeaviestSubtreeForkChoice) : Prop where
  beats : ∀ c ∈ fc.childrenOf p, fc.Candidate c → ¬fc.Heavier c leaf
  spread : ∀ {x}, fc.Spreads p x → fc'.bestOf x = leaf
  other : ∀ {x}, ¬fc.Spreads p x → fc'.bestOf x = fc.bestOf x

/-- The leaf does not become the best block of any other block. -/
structure BestKept (fc : HeaviestSubtreeForkChoice) (leaf p : SlotHashKey)
    (fc' : HeaviestSubtreeForkChoice) : Prop where
  beaten : ∃ c ∈ fc.childrenOf p, fc.Candidate c ∧ fc.Heavier c leaf
  kept : ∀ x, fc'.bestOf x = fc.bestOf x

theorem heavier_attach (h : fc.NewLeaf leaf p i) :
    (fc.attach leaf p i).Heavier x y ↔ fc.Heavier x y := by
  rw [Heavier, weightOf_attach h, weightOf_attach h, Heavier]

theorem LeafAdded.bestOf_eq (h : fc.LeafAdded leaf p i best fc') (x : SlotHashKey) :
    fc'.bestOf x = best.bestOf x :=
  congrArg (·.getD x) ((h.agree_deepest.map ForkInfo.bestSlot).entry x)

theorem LeafAdded.best_cases (htree : fc.Tree) (hleaf : fc.NewLeaf leaf p i)
    (h : fc.LeafAdded leaf p i best fc') :
    fc.BestSpread leaf p fc' ∨ fc.BestKept leaf p fc' := by
  have hchild : ∀ {c}, c ∈ fc.childrenOf p → c ≠ leaf := by
    rintro c hc rfl
    obtain ⟨j, hj⟩ := htree.linked.info hc
    exact hleaf.ne_of_info hj rfl
  rcases h.spread_best with ⟨hbeats, hrun⟩ | ⟨⟨c, hc, hok, hheavier⟩, rfl⟩
  · obtain ⟨best', hrun', _, hinfo⟩ := propagateBest_spec leaf i.bestSlot _
      (fun a => attach_chain_info htree hleaf)
      ((attach_chain htree hleaf).nodup (attach_tree htree hleaf))
    obtain rfl := some.inj (hrun.symm.trans hrun')
    refine .inl ⟨fun c hc hok hheavier => ?_, fun {x} hx => ?_, fun {x} hx => ?_⟩
    · refine hbeats c ?_ ((sameEntry_attach hleaf (hchild hc)).candidate.mpr hok)
        ((heavier_attach hleaf).mpr hheavier)
      rw [childrenOf_attach_parent hleaf, mem_orderedInsert]
      exact .inr hc
    · have hmem := (mem_spread htree hleaf).mpr hx
      obtain ⟨j, hj⟩ := attach_chain_info htree hleaf (takeWhile_subset _ hmem)
      have hx' := hinfo x
      rw [if_pos hmem, hj, map_some] at hx'
      rw [h.bestOf_eq, bestOf_of_info hx']
    · have hx' := hinfo x
      rw [if_neg ((mem_spread htree hleaf).not.mpr hx)] at hx'
      rw [h.bestOf_eq, bestOf, bestSlot, hx', ← bestOf_attach hleaf x, bestOf, bestSlot]
  · refine .inr ⟨⟨c, ?_, ?_, (heavier_attach hleaf).mp hheavier⟩, fun x => ?_⟩
    · rw [childrenOf_attach_parent hleaf, mem_orderedInsert] at hc
      refine hc.resolve_left ?_
      rintro rfl
      exact Std.Asymm.asymm _ _ hheavier hheavier
    · refine (sameEntry_attach hleaf ?_).candidate.mp hok
      rintro rfl
      exact Std.Asymm.asymm _ _ hheavier hheavier
    · rw [h.bestOf_eq, bestOf_attach hleaf]

/-- A tree with one leaf more; its best and deepest blocks are left open. -/
structure Grown (fc : HeaviestSubtreeForkChoice) (leaf p : SlotHashKey)
    (fc' : HeaviestSubtreeForkChoice) : Prop where
  tree : fc.Tree
  tree' : fc'.Tree
  absent : fc.info leaf = none
  mem_children : ∀ {x c}, c ≠ leaf → (c ∈ fc'.childrenOf x ↔ c ∈ fc.childrenOf x)
  leaf_mem_children : ∀ {x}, leaf ∈ fc'.childrenOf x ↔ x = p
  leaf_children : fc'.childrenOf leaf = []
  candidate : ∀ {x}, x ≠ leaf → (fc'.Candidate x ↔ fc.Candidate x)
  candidate_leaf : fc'.Candidate leaf ↔ fc.Candidate p
  weightOf : ∀ x, fc'.weightOf x = fc.weightOf x

theorem grown_of_agree (htree : fc.Tree) (hleaf : fc.NewLeaf leaf p i)
    (h : Agree ForkInfo.core (fc.attach leaf p i) fc') : fc.Grown leaf p fc' where
  tree := htree
  tree' := h.sameShape.tree (attach_tree htree hleaf)
  absent := hleaf.absent
  mem_children := by
    intro x c hc
    rw [h.sameShape.childrenOf_eq, mem_childrenOf_attach htree hleaf, parent_attach hleaf hc,
      htree.mem_children]
  leaf_mem_children := by
    intro x
    rw [h.sameShape.childrenOf_eq, mem_childrenOf_attach htree hleaf,
      parent_attach_leaf hleaf, some.injEq, eq_comm]
  leaf_children := (h.sameShape.childrenOf_eq leaf).trans (childrenOf_attach_leaf hleaf)
  candidate := fun hx => h.candidate_iff.trans (sameEntry_attach hleaf hx).candidate
  candidate_leaf := h.candidate_iff.trans (candidate_attach_leaf hleaf)
  weightOf := fun x => (h.weightOf_eq x).trans (weightOf_attach hleaf x)

namespace Grown

variable (h : fc.Grown leaf p fc')
include h

theorem ne_of_mem (hc : c ∈ fc.childrenOf x) : c ≠ leaf := by
  rintro rfl
  obtain ⟨j, hj⟩ := h.tree.linked.info hc
  exact absurd (h.absent.symm.trans hj) (by simp)

theorem heavier : fc'.Heavier x y ↔ fc.Heavier x y := by
  rw [Heavier, h.weightOf, h.weightOf, Heavier]

theorem heaviestChild (hc : fc'.HeaviestChild x c) (hne : c ≠ leaf) : fc.HeaviestChild x c where
  mem := (h.mem_children hne).mp hc.mem
  ok := (h.candidate hne).mp hc.ok
  beats := by
    intro d hd hok hdc
    have hdl := h.ne_of_mem hd
    exact h.heavier.mp (hc.beats d ((h.mem_children hdl).mpr hd) ((h.candidate hdl).mpr hok) hdc)

theorem no_candidate (hnone : ∀ c ∈ fc'.childrenOf x, ¬fc'.Candidate c) :
    ∀ c ∈ fc.childrenOf x, ¬fc.Candidate c := by
  intro c hc hok
  have hcl := h.ne_of_mem hc
  exact hnone c ((h.mem_children hcl).mpr hc) ((h.candidate hcl).mpr hok)

end Grown

theorem spreads_child_iff (htree : fc.Tree) (hbelow : fc.BestInSubtree) (hc : fc.parent c = some x)
    (hbest : fc.bestOf x = fc.bestOf c) (hne : x ≠ p) : fc.Spreads p x ↔ fc.Spreads p c := by
  constructor
  · rintro ⟨hxp, hall⟩
    -- the best block of the child lies below `p` as well
    have hcp : fc.InSubtree c p := by
      have hcb : fc.InSubtree c (fc.bestOf p) := by
        rw [← hall x (.refl x) hxp, hbest]
        exact hbelow c
      rcases htree.comparable hcb (hbelow p) with hcp | hpc
      · exact hcp
      · rcases inSubtree_iff_parent.mp hpc with rfl | ⟨q, hq, hpq⟩
        · exact .refl _
        · obtain rfl := some.inj (hc.symm.trans hq)
          exact absurd (htree.eq_of_inSubtree hxp hpq) hne
    exact ⟨hcp, fun a hca hap => hall a ((InSubtree.of_parent hc).trans hca) hap⟩
  · rintro ⟨hcp, hall⟩
    refine ⟨(InSubtree.of_parent hc).trans hcp, fun a hxa hap => ?_⟩
    rcases inSubtree_iff_child.mp hxa with rfl | ⟨d, hd, hda⟩
    · rw [hbest]
      exact hall c (.refl c) hcp
    · obtain rfl := htree.child_unique hd hc (hda.trans hap) hcp
      exact hall a hda hap

theorem Grown.bestAt (h : fc.Grown leaf p fc') (hflags : fc.Flags) (hbelow : fc.BestInSubtree)
    (hlocal : ∀ {x i}, fc.info x = some i → fc.LocalAt x)
    (hpath : ∀ x, fc.Candidate x → fc.BestPath x (fc.bestOf x))
    (hbest : fc.BestSpread leaf p fc' ∨ fc.BestKept leaf p fc')
    (hleaf : fc'.bestOf leaf = leaf) (hx : fc'.Candidate x) : fc'.BestAt x := by
  by_cases hxl : x = leaf
  · subst hxl
    refine ⟨fun _ => hleaf, fun {c} hc => ?_⟩
    exact absurd (h.leaf_children ▸ hc.mem) not_mem_nil
  have hx' := (h.candidate hxl).mp hx
  obtain ⟨i, hi⟩ := info_of_candidate hx'
  rcases hbest with hspread | hkept
  · by_cases hpok : fc.Candidate p
    · by_cases hxp : x = p
      · -- the leaf is the heaviest candidate child of its parent
        subst hxp
        have hself : fc.Spreads x x :=
          ⟨.refl x, fun a hxa hax => by rw [h.tree.eq_of_inSubtree hxa hax]⟩
        have htop : fc'.HeaviestChild x leaf := by
          refine ⟨h.leaf_mem_children.mpr rfl, h.candidate_leaf.mpr hpok, fun c hc hok hne => ?_⟩
          by_contra hnot
          have hmem := (h.mem_children hne).mp hc
          have heavier := hspread.beats c hmem ((h.candidate hne).mp hok)
          exact hne (Std.Trichotomous.trichotomous _ _ heavier fun hl => hnot (h.heavier.mpr hl))
        refine ⟨fun hnone => absurd htop.ok (hnone _ htop.mem), fun {c} hc => ?_⟩
        rw [htop.unique hc |>.symm, hspread.spread hself, hleaf]
      · refine ⟨fun hnone => ?_, fun {c} hc => ?_⟩
        · have hnone' := h.no_candidate hnone
          rw [hspread.other fun hs => ?_]
          · exact (hlocal hi).best_self hx' hnone'
          · -- a child on the way to the leaf would be a candidate
            rcases inSubtree_iff_child.mp hs.1 with heq | ⟨c, hc, hcp⟩
            · exact hxp heq
            · exact hnone' c (h.tree.mem_children.mpr hc) (hflags.candidate_up h.tree hcp hpok)
        · have hcl : c ≠ leaf := fun heq => hxp (h.leaf_mem_children.mp (heq ▸ hc.mem))
          have hc' := h.heaviestChild hc hcl
          have heq := (hlocal hi).best_child hx' hc'
          have hiff := spreads_child_iff h.tree hbelow (h.tree.mem_children.mp hc'.mem) heq hxp
          by_cases hs : fc.Spreads p x
          · rw [hspread.spread hs, hspread.spread (hiff.mp hs)]
          · rw [hspread.other hs, hspread.other (hiff.not.mp hs), heq]
    · -- below `p` there is no candidate, so no candidate has its best block there
      have hnot : ∀ {y}, fc.Candidate y → ¬fc.Spreads p y := by
        intro y hy hs
        have hbest := (hpath y hy).candidate hy
        rw [hs.2 y (.refl y) hs.1] at hbest
        exact hpok (hflags.candidate_up h.tree (hbelow p) hbest)
      have hcl : ∀ {c}, fc'.Candidate c → c ≠ leaf := by
        rintro c hc rfl
        exact hpok (h.candidate_leaf.mp hc)
      refine ⟨fun hnone => ?_, fun {c} hc => ?_⟩
      · rw [hspread.other (hnot hx')]
        exact (hlocal hi).best_self hx' (h.no_candidate hnone)
      · have hc' := h.heaviestChild hc (hcl hc.ok)
        rw [hspread.other (hnot hx'), hspread.other (hnot hc'.ok)]
        exact (hlocal hi).best_child hx' hc'
  · refine ⟨fun hnone => ?_, fun {c} hc => ?_⟩
    · rw [hkept.kept]
      exact (hlocal hi).best_self hx' (h.no_candidate hnone)
    · have hcl : c ≠ leaf := by
        rintro rfl
        obtain ⟨d, hd, hok, hheavier⟩ := hkept.beaten
        have hxp := h.leaf_mem_children.mp hc.mem
        subst hxp
        have hdl := h.ne_of_mem hd
        refine Std.Asymm.asymm _ _ hheavier (h.heavier.mp ?_)
        exact hc.beats d ((h.mem_children hdl).mpr hd) ((h.candidate hdl).mpr hok) hdl
      rw [hkept.kept, hkept.kept]
      exact (hlocal hi).best_child hx' (h.heaviestChild hc hcl)

end Best

section Deepest

/-- The deepest block and the height are the ones that the children give. -/
structure DeepestAt (fc : HeaviestSubtreeForkChoice) (x : SlotHashKey) : Prop where
  self : fc.childrenOf x = [] → fc.deepestOf x = x ∧ fc.heightOf x = 1
  child : ∀ {c}, fc.DeepestChild x c →
    fc.deepestOf x = fc.deepestOf c ∧ fc.heightOf x = fc.heightOf c + 1

/-- The child `c` of a block has grown since the block was computed: the block is right if another
child is the deepest, and not too high if `c` is. -/
structure PendingAt (fc : HeaviestSubtreeForkChoice) (x c : SlotHashKey) : Prop where
  child : c ∈ fc.childrenOf x
  other : ∀ {d}, d ≠ c → fc.DeepestChild x d →
    fc.deepestOf x = fc.deepestOf d ∧ fc.heightOf x = fc.heightOf d + 1
  height_le : fc.DeepestChild x c → fc.heightOf x ≤ fc.heightOf c + 1

theorem PendingAt.deepestAt (h : fc.PendingAt x c) (hnot : ¬fc.DeepestChild x c) :
    fc.DeepestAt x where
  self := fun hnil => absurd (hnil ▸ h.child) not_mem_nil
  child := by
    intro d hd
    exact h.other (fun heq => hnot (heq ▸ hd)) hd

theorem deepestChild_of_not (hc : c ∈ fc.childrenOf x)
    (h : ∀ d ∈ fc.childrenOf x, ¬fc.Deeper d c) : fc.DeepestChild x c where
  mem := hc
  ok := trivial
  beats := by
    intro d hd _ hdc
    by_contra hnot
    exact hdc (Std.Trichotomous.trichotomous _ _ (h d hd) hnot)

theorem DeepestChild.not_deeper (h : fc.DeepestChild x c) (hd : d ∈ fc.childrenOf x) :
    ¬fc.Deeper d c := by
  intro hdeeper
  by_cases hdc : d = c
  · subst hdc
    exact Std.Asymm.asymm _ _ hdeeper hdeeper
  · exact Std.Asymm.asymm _ _ hdeeper (h.beats d hd trivial hdc)

/-- The heights after one block was raised. -/
structure Raised (fc : HeaviestSubtreeForkChoice) (a leaf : SlotHashKey) (n : Nat)
    (fc' : HeaviestSubtreeForkChoice) : Prop where
  children : ∀ x, fc'.childrenOf x = fc.childrenOf x
  weightOf : ∀ x, fc'.weightOf x = fc.weightOf x
  heightOf : ∀ {x}, x ≠ a → fc'.heightOf x = fc.heightOf x
  deepestOf : ∀ {x}, x ≠ a → fc'.deepestOf x = fc.deepestOf x
  height_self : fc'.heightOf a = n
  deepest_self : fc'.deepestOf a = leaf

theorem raised_setInfo (leaf : SlotHashKey) (n : Nat) (ha : fc.info a = some j) :
    fc.Raised a leaf n (fc.setInfo a { j with deepestSlot := leaf, height := n }) := by
  have hagree : Agree exceptDeepest fc
      (fc.setInfo a { j with deepestSlot := leaf, height := n }) := .setInfo ha rfl
  refine ⟨Agree.sameShape (hagree.map core) |>.childrenOf_eq,
    Agree.weightOf_eq (hagree.map core), fun {x} hx => ?_, fun {x} hx => ?_, ?_, ?_⟩
  · rw [heightOf, height, info_setInfo_ne hx, heightOf, height]
  · rw [deepestOf, info_setInfo_ne hx, deepestOf]
  · exact heightOf_of_info info_setInfo_self
  · exact deepestOf_of_info info_setInfo_self

namespace Raised

variable {n : Nat}
variable (h : fc.Raised a leaf n fc')
include h

theorem heavier : fc'.Heavier x y ↔ fc.Heavier x y := by
  rw [Heavier, h.weightOf, h.weightOf, Heavier]

theorem deeper (hx : x ≠ a) (hy : y ≠ a) : fc'.Deeper x y ↔ fc.Deeper x y := by
  rw [Deeper, h.heightOf hx, h.heightOf hy, h.heavier, Deeper]

theorem deeper_self (hn : fc.heightOf a ≤ n) (hx : x ≠ a)
    (hdeeper : fc'.Deeper x a) : fc.Deeper x a := by
  rw [Deeper, h.height_self, h.heightOf hx, h.heavier] at hdeeper
  rcases hdeeper with hlt | ⟨heq, hheavier⟩
  · exact .inl (lt_of_le_of_lt hn hlt)
  · rcases Nat.lt_or_ge (fc.heightOf a) (fc.heightOf x) with hlt | hge
    · exact .inl hlt
    · exact .inr ⟨le_antisymm (hn.trans heq.le) hge, hheavier⟩

theorem deepestAt (hx : x ≠ a) (hchild : a ∉ fc.childrenOf x)
    (hat : fc.DeepestAt x) : fc'.DeepestAt x := by
  have hne : ∀ {d}, d ∈ fc.childrenOf x → d ≠ a := fun hd heq => hchild (heq ▸ hd)
  refine ⟨fun hnil => ?_, fun {c} hc => ?_⟩
  · rw [h.children] at hnil
    rw [h.deepestOf hx, h.heightOf hx]
    exact hat.self hnil
  · have hc' : fc.DeepestChild x c := by
      rw [DeepestChild, h.children] at hc
      exact hc.congr (fun _ => .rfl) (fun _ _ => .rfl)
        fun b hb => (h.deeper (hne hc.mem) (hne hb)).mp
    rw [h.deepestOf hx, h.heightOf hx, h.deepestOf (hne hc'.mem), h.heightOf (hne hc'.mem)]
    exact hat.child hc'

theorem pendingAt (hn : fc.heightOf a ≤ n) (hx : x ≠ a)
    (ha : a ∈ fc.childrenOf x) (hat : fc.DeepestAt x) : fc'.PendingAt x a where
  child := h.children x ▸ ha
  other := by
    intro d hda hd
    have hd' : fc.DeepestChild x d := by
      rw [DeepestChild, h.children] at hd
      refine hd.congr (fun _ => .rfl) (fun _ _ => .rfl) fun b hb hdeeper => ?_
      by_cases hba : b = a
      · subst hba
        exact h.deeper_self hn hda hdeeper
      · exact (h.deeper hda hba).mp hdeeper
    rw [h.deepestOf hx, h.heightOf hx, h.deepestOf hda, h.heightOf hda]
    exact hat.child hd'
  height_le := by
    intro htop
    obtain ⟨e, he⟩ := exists_deepestChild (ne_nil_of_mem ha)
    rw [h.heightOf hx, h.height_self, (hat.child he).2]
    refine Nat.succ_le_succ ?_
    by_cases hea : e = a
    · rw [hea]
      exact hn
    · -- the raised block beats the child that was the deepest
      rw [DeepestChild, h.children] at htop
      have hbeats := htop.beats e he.mem trivial hea
      rw [Deeper, h.height_self, h.heightOf hea] at hbeats
      rcases hbeats with hlt | ⟨heq, _⟩
      · exact hlt.le
      · exact heq.le

theorem deepestAt_self (hnot : a ∉ fc.childrenOf a)
    (htop : fc.DeepestChild a c) (hleaf : fc.deepestOf c = leaf) (hn : n = fc.heightOf c + 1) :
    fc'.DeepestAt a := by
  have hne : ∀ {d}, d ∈ fc.childrenOf a → d ≠ a := by
    rintro d hd rfl
    exact hnot hd
  refine ⟨fun hnil => ?_, fun {d} hd => ?_⟩
  · rw [h.children] at hnil
    exact absurd (hnil ▸ htop.mem) not_mem_nil
  · have hd' : fc.DeepestChild a d := by
      rw [DeepestChild, h.children] at hd
      exact hd.congr (fun _ => .rfl) (fun _ _ => .rfl)
        fun b hb => (h.deeper (hne hd.mem) (hne hb)).mp
    obtain rfl := hd'.unique htop
    rw [h.deepest_self, h.height_self, h.deepestOf (hne htop.mem), h.heightOf (hne htop.mem), hleaf]
    exact ⟨rfl, hn⟩

end Raised

theorem propagateDeepest_deepestAt (htree : fc.Tree) (hchain : fc.AncestorChain c chain)
    (hc : fc.info c = some i) (hdeepest : fc.deepestOf c = leaf)
    (hpending : ∀ a, fc.parent c = some a → fc.PendingAt a c)
    (hother : ∀ x j, fc.info x = some j → fc.parent c ≠ some x → fc.DeepestAt x)
    (hrun : propagateDeepest leaf chain c (fc.heightOf c) fc = some fc') :
    ∀ x j, fc'.info x = some j → fc'.DeepestAt x := by
  induction chain generalizing fc c i with
  | nil =>
    obtain rfl := some.inj hrun
    have hnone : fc.parent c = none := hchain
    exact fun x j hj => hother x j hj (by simp [hnone])
  | cons a rest ih =>
    obtain ⟨b, hb, hiff⟩ := isDeepestChild_eq htree hc hchain.1
    obtain ⟨b', hb', hrest⟩ := bind_eq_some_iff.mp hrun
    obtain rfl := some.inj (hb.symm.trans hb')
    have hpend := hpending a hchain.1
    cases b with
    | false =>
      obtain rfl := some.inj hrest
      intro x j hj
      by_cases hxa : fc.parent c = some x
      · obtain rfl := some.inj (hchain.1.symm.trans hxa)
        refine hpend.deepestAt fun htop => ?_
        exact absurd (hiff.mpr fun d hd => htop.not_deeper hd) (by simp)
      · exact hother x j hj hxa
    | true =>
      obtain ⟨k, hk, hrest⟩ := bind_eq_some_iff.mp hrest
      have htop := deepestChild_of_not hpend.child (hiff.mp rfl)
      have hraised := raised_setInfo leaf (fc.heightOf c + 1) hk
      have hagree : Agree exceptDeepest fc
          (fc.setInfo a { k with deepestSlot := leaf, height := fc.heightOf c + 1 }) :=
        Agree.setInfo hk rfl
      have hshape := Agree.sameShape (hagree.map core)
      refine ih (hshape.tree htree) (hchain.2.congr hshape) info_setInfo_self
        hraised.deepest_self (fun q hq => ?_) (fun x j hj hxq => ?_)
        (hraised.height_self.symm ▸ hrest)
      · rw [hshape.parent_eq] at hq
        obtain ⟨m, hm⟩ := htree.info_of_parent hq
        have hqa : q ≠ a := fun heq => lt_irrefl _ (heq ▸ htree.parent_lt hq)
        refine hraised.pendingAt (hpend.height_le htop) hqa (htree.mem_children.mpr hq) ?_
        refine hother q m hm fun heq => hqa ?_
        exact some.inj (heq.symm.trans hchain.1)
      · rw [hshape.parent_eq] at hxq
        obtain ⟨m, hm⟩ := (hshape.info_iff x).mp ⟨j, hj⟩
        by_cases hxa : x = a
        · subst hxa
          exact hraised.deepestAt_self (htree.linked.not_mem x) htop hdeepest rfl
        · refine hraised.deepestAt hxa (fun ha => hxq (htree.mem_children.mp ha)) ?_
          refine hother x m hm fun heq => hxa ?_
          exact some.inj (heq.symm.trans hchain.1)

end Deepest

/-- The state between the two loops, as far as heights and deepest blocks go: the leaf has height 1
and everything else is as before. -/
structure Planted (fc : HeaviestSubtreeForkChoice) (leaf p : SlotHashKey)
    (best : HeaviestSubtreeForkChoice) : Prop where
  grown : fc.Grown leaf p best
  heightOf : ∀ {x}, x ≠ leaf → best.heightOf x = fc.heightOf x
  deepestOf : ∀ {x}, x ≠ leaf → best.deepestOf x = fc.deepestOf x
  height_leaf : best.heightOf leaf = 1
  deepest_leaf : best.deepestOf leaf = leaf

theorem LeafAdded.planted (htree : fc.Tree) (hleaf : fc.NewLeaf leaf p i)
    (h : fc.LeafAdded leaf p i best fc') : fc.Planted leaf p best := by
  have hheight : ∀ x, best.heightOf x = (fc.attach leaf p i).heightOf x := fun x =>
    congrArg (·.getD 0) ((h.agree_best.map ForkInfo.height).entry x)
  have hdeepest : ∀ x, best.deepestOf x = (fc.attach leaf p i).deepestOf x := fun x =>
    congrArg (·.getD x) ((h.agree_best.map ForkInfo.deepestSlot).entry x)
  refine ⟨grown_of_agree htree hleaf (h.agree_best.map core),
    fun hx => (hheight _).trans (sameEntry_attach hleaf hx).heightOf,
    fun hx => (hdeepest _).trans (sameEntry_attach hleaf hx).deepestOf, ?_, ?_⟩
  · rw [hheight, heightOf_of_info (info_attach_leaf hleaf)]
    rfl
  · rw [hdeepest, deepestOf_of_info (info_attach_leaf hleaf)]
    rfl

namespace Planted

variable (h : fc.Planted leaf p best)
include h

theorem deeper (hx : x ≠ leaf) (hy : y ≠ leaf) : best.Deeper x y ↔ fc.Deeper x y := by
  rw [Deeper, h.heightOf hx, h.heightOf hy, h.grown.heavier, Deeper]

theorem deepestChild (hc : best.DeepestChild x c) (hne : c ≠ leaf) :
    fc.DeepestChild x c where
  mem := (h.grown.mem_children hne).mp hc.mem
  ok := trivial
  beats := by
    intro d hd _ hdc
    have hdl := h.grown.ne_of_mem hd
    exact (h.deeper hne hdl).mp (hc.beats d ((h.grown.mem_children hdl).mpr hd) trivial hdc)

theorem deepestAt (hat : x ≠ leaf → fc.DeepestAt x) (hxp : x ≠ p) : best.DeepestAt x := by
  by_cases hxl : x = leaf
  · subst hxl
    refine ⟨fun _ => ⟨h.deepest_leaf, h.height_leaf⟩, fun {c} hc => ?_⟩
    exact absurd (h.grown.leaf_children ▸ hc.mem) not_mem_nil
  · refine ⟨fun hnil => ?_, fun {c} hc => ?_⟩
    · rw [h.deepestOf hxl, h.heightOf hxl]
      refine (hat hxl).self (eq_nil_iff_forall_not_mem.mpr fun c hc => ?_)
      have hmem := (h.grown.mem_children (h.grown.ne_of_mem hc)).mpr hc
      exact absurd (hnil ▸ hmem) not_mem_nil
    · have hcl : c ≠ leaf := fun heq => hxp (h.grown.leaf_mem_children.mp (heq ▸ hc.mem))
      rw [h.deepestOf hxl, h.heightOf hxl, h.deepestOf hcl, h.heightOf hcl]
      exact (hat hxl).child (h.deepestChild hc hcl)

theorem pendingAt (hp : p ≠ leaf) (hat : fc.DeepestAt p) :
    best.PendingAt p leaf where
  child := h.grown.leaf_mem_children.mpr rfl
  other := by
    intro d hdl hd
    rw [h.deepestOf hp, h.heightOf hp, h.deepestOf hdl, h.heightOf hdl]
    exact hat.child (h.deepestChild hd hdl)
  height_le := by
    intro htop
    rw [h.heightOf hp, h.height_leaf]
    by_cases hnil : fc.childrenOf p = []
    · rw [(hat.self hnil).2]
      decide
    · obtain ⟨e, he⟩ := exists_deepestChild hnil
      have hel := h.grown.ne_of_mem he.mem
      have hbeats := htop.beats e ((h.grown.mem_children hel).mpr he.mem) trivial hel
      rw [Deeper, h.height_leaf, h.heightOf hel] at hbeats
      rw [(hat.child he).2]
      rcases hbeats with hlt | ⟨heq, _⟩
      · exact Nat.succ_le_succ hlt.le
      · exact Nat.succ_le_succ heq.le

end Planted

theorem BestSpread.or_kept_leaf (hleaf : fc.info leaf = none) (hp : ∃ i, fc.info p = some i)
    (htree : fc.Tree) (h : fc.BestSpread leaf p fc' ∨ fc.BestKept leaf p fc') :
    fc'.bestOf leaf = leaf := by
  have hself : fc.bestOf leaf = leaf := by
    rw [bestOf, bestSlot, hleaf]
    rfl
  rcases h with hspread | hkept
  · rw [hspread.other fun hs => ?_, hself]
    obtain ⟨j, hj⟩ := htree.info_of_inSubtree hs.1 hp
    exact absurd (hleaf.symm.trans hj) (by simp)
  · rw [hkept.kept, hself]

section Tree
variable (htree : fc.Tree) (hleaf : fc.NewLeaf leaf p i) (h : fc.LeafAdded leaf p i best fc')
include htree hleaf h

theorem LeafAdded.deepestAt (hat : ∀ x j, fc.info x = some j → fc.DeepestAt x) :
    ∀ x j, fc'.info x = some j → fc'.DeepestAt x := by
  have hplanted := h.planted htree hleaf
  have hshape := Agree.sameShape (h.agree_best.map core)
  have hparent :
    best.parent leaf = some p := (hshape.parent_eq leaf).trans (parent_attach_leaf hleaf)
  obtain ⟨j, hj⟩ := (hshape.info_iff leaf).mpr ⟨_, info_attach_leaf hleaf⟩
  refine propagateDeepest_deepestAt hplanted.grown.tree'
    ((attach_chain htree hleaf).congr hshape) hj
    hplanted.deepest_leaf (fun a ha => ?_) (fun x k hk hx => ?_)
    (hplanted.height_leaf.symm ▸ h.spread_deepest)
  · obtain rfl := some.inj (hparent.symm.trans ha)
    exact hplanted.pendingAt hleaf.ne (hat p i hleaf.info)
  · refine hplanted.deepestAt (fun hxl => ?_) fun heq => hx (heq ▸ hparent)
    obtain ⟨m, hm⟩ := (hshape.info_iff x).mp ⟨k, hk⟩
    by_cases hxp : x = p
    · exact absurd (hxp ▸ hparent) hx
    · exact hat x m ((info_attach_other hxl hxp).symm.trans hm)

theorem LeafAdded.stake
    (hstake : ∀ {x j}, fc.info x = some j →
      fc.weightOf x = fc.votedAt x + ((fc.childrenOf x).map fc.weightOf).sum)
    (hj : fc'.info x = some j) :
    fc'.weightOf x = fc'.votedAt x + ((fc'.childrenOf x).map fc'.weightOf).sum := by
  have hgrown := grown_of_agree htree hleaf h.agree
  have hvoted : fc'.votedAt x = fc.votedAt x :=
    (h.agree.votedAt_eq x).trans (votedAt_attach hleaf x)
  have hzero : fc.weightOf leaf = 0 := by
    rw [weightOf, stakeVotedSubtree, hleaf.absent]
    rfl
  have hweights : fc'.weightOf = fc.weightOf := funext hgrown.weightOf
  rw [hweights, hvoted]
  by_cases hxl : x = leaf
  · subst hxl
    rw [hgrown.leaf_children, hzero, votedAt, hleaf.absent]
    rfl
  · rw [h.agree.sameShape.childrenOf_eq]
    by_cases hxp : x = p
    · subst hxp
      have hperm := (perm_orderedInsert (· ≤ ·) leaf (fc.childrenOf x)).map fc.weightOf
      rw [childrenOf_attach_parent hleaf, hperm.sum_eq, map_cons, sum_cons, hzero, Nat.zero_add]
      exact hstake hleaf.info
    · obtain ⟨m, hm⟩ := (h.agree.sameShape.info_iff x).mp ⟨j, hj⟩
      rw [childrenOf_attach_other hxl hxp]
      exact hstake ((info_attach_other hxl hxp).symm.trans hm)

theorem LeafAdded.localAt (hflags : fc.Flags) (hbelow : fc.BestInSubtree)
    (hcons : fc.Consistent stakes) (hj : fc'.info x = some j) : fc'.LocalAt x := by
  have hgrown := grown_of_agree htree hleaf h.agree
  have hbest := h.best_cases htree hleaf
  have hbestAt : fc'.Candidate x → fc'.BestAt x := hgrown.bestAt hflags hbelow hcons.localAt
    (hcons.bestPath htree) hbest (BestSpread.or_kept_leaf hleaf.absent ⟨i, hleaf.info⟩ htree hbest)
  have hdeepest := h.deepestAt htree hleaf
    (fun y k hk => ⟨(hcons.localAt hk).deepest_self, (hcons.localAt hk).deepest_child⟩) x j hj
  exact ⟨h.stake htree hleaf (fun hk => (hcons.localAt hk).stake) hj,
    fun hx => (hbestAt hx).self, fun hx => (hbestAt hx).child, hdeepest.self, hdeepest.child⟩

theorem LeafAdded.consistent_iff (hflags : fc.Flags) (hbelow : fc.BestInSubtree)
    (hcons : fc.Consistent stakes) :
    fc'.Consistent stakes ↔ votesAt stakes fc.latestVotes leaf = 0 := by
  have hvotes : fc'.latestVotes = fc.latestVotes := h.agree.latestVotes
  have hvoted : ∀ y, fc'.votedAt y = fc.votedAt y := fun y =>
    (h.agree.votedAt_eq y).trans (votedAt_attach hleaf y)
  have hzero : fc.votedAt leaf = 0 := by
    rw [votedAt, hleaf.absent]
    rfl
  constructor
  · intro hcons'
    obtain ⟨j, hj, _⟩ := h.agree.info (info_attach_leaf hleaf)
    rw [← hvotes, ← hcons'.votedAt hj, hvoted, hzero]
  · intro hnone
    refine ⟨h.localAt htree hleaf hflags hbelow hcons, fun {x j} hj => ?_⟩
    rw [hvoted, hvotes]
    by_cases hxl : x = leaf
    · rw [hxl, hzero, hnone]
    · obtain ⟨m, hm⟩ := (h.agree.sameShape.info_iff x).mp ⟨j, hj⟩
      by_cases hxp : x = p
      · subst hxp
        exact hcons.votedAt hleaf.info
      · exact hcons.votedAt ((info_attach_other hxl hxp).symm.trans hm)

theorem LeafAdded.bestInSubtree (hbelow : fc.BestInSubtree) : fc'.BestInSubtree := by
  have hsub := h.agree.sameShape.inSubtree_eq
  have hold : ∀ y, (fc.attach leaf p i).InSubtree y (fc.bestOf y) := by
    intro y
    by_cases hy : fc.bestOf y = leaf
    · have hyb := hbelow y
      rw [hy] at hyb ⊢
      rcases inSubtree_iff_parent.mp hyb with heq | ⟨q, hq, _⟩
      · exact heq ▸ InSubtree.refl _
      · exact absurd (hleaf.parent_none.symm.trans hq) (by simp)
    · exact (inSubtree_attach htree hleaf hy).mpr (hbelow y)
  intro x
  rw [hsub]
  rcases h.best_cases htree hleaf with hspread | hkept
  · by_cases hs : fc.Spreads p x
    · rw [hspread.spread hs]
      exact (inSubtree_attach_leaf htree hleaf).mpr (.inr hs.1)
    · rw [hspread.other hs]
      exact hold x
  · rw [hkept.kept]
    exact hold x

end Tree
end HeaviestSubtreeForkChoice
end Hypergrid
