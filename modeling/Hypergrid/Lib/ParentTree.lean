import Mathlib

/-!
# Forests given by parents

A forest in which every node knows its parent, and a parent has a lower rank than its children.

* `ancestors` computes the ancestors of a node; `mem_ancestors` says that they are the ones of the
  transitive closure of the parent relation.
* `AncestorOrSelf.of_rank_le` : of two ancestors of one node, the one of lower rank is an ancestor
  of the other.
-/

namespace Hypergrid
universe u

/-- A forest over ranked nodes: parents have a lower rank than their children. -/
structure ParentTree (α : Type u) (rank : α → Nat) where
  parent : α → Option α
  parent_lt : ∀ {a p : α}, parent a = some p → rank p < rank a

namespace ParentTree

section Ancestors
variable {α : Type u} {rank : α → Nat} (tree : ParentTree α rank)

/-- The first node is a proper ancestor of the second one. -/
def Ancestor : α → α → Prop := Relation.TransGen (fun p a => tree.parent a = some p)

/-- The first node is an ancestor of the second one, or equal to it. -/
def AncestorOrSelf : α → α → Prop := Relation.ReflTransGen (fun p a => tree.parent a = some p)

variable {tree} {a b c : α}

theorem Ancestor.rank_lt (h : tree.Ancestor a b) : rank a < rank b := by
  induction h with
  | single hparent => exact tree.parent_lt hparent
  | tail _ hparent ih => exact lt_trans ih (tree.parent_lt hparent)

theorem Ancestor.orSelf (h : tree.Ancestor a b) : tree.AncestorOrSelf a b :=
  Relation.TransGen.to_reflTransGen h

theorem AncestorOrSelf.refl (a : α) : tree.AncestorOrSelf a a := Relation.ReflTransGen.refl

theorem AncestorOrSelf.trans (h : tree.AncestorOrSelf a b) (h' : tree.AncestorOrSelf b c) :
    tree.AncestorOrSelf a c :=
  Relation.ReflTransGen.trans h h'

theorem AncestorOrSelf.trans_ancestor (h : tree.AncestorOrSelf a b) (h' : tree.Ancestor b c) :
    tree.Ancestor a c :=
  Relation.TransGen.trans_right h h'

theorem ancestorOrSelf_iff : tree.AncestorOrSelf a b ↔ b = a ∨ tree.Ancestor a b :=
  Relation.reflTransGen_iff_eq_or_transGen

variable (h : tree.AncestorOrSelf a c) (h' : tree.AncestorOrSelf b c)
include h h'

theorem AncestorOrSelf.comparable : tree.AncestorOrSelf a b ∨ tree.AncestorOrSelf b a := by
  induction h with
  | refl => exact .inr h'
  | tail hpath hparent ih =>
    cases h' with
    | refl => exact .inl (hpath.tail hparent)
    | tail hpath' hparent' =>
      have heq := Option.some.inj (hparent.symm.trans hparent')
      exact ih (heq ▸ hpath')

theorem AncestorOrSelf.of_rank_le (hle : rank a ≤ rank b) : tree.AncestorOrSelf a b := by
  rcases h.comparable h' with hab | hba
  · exact hab
  · rcases ancestorOrSelf_iff.mp hba with rfl | hba
    · exact .refl _
    · exact absurd hba.rank_lt (Nat.not_lt_of_le hle)

end Ancestors

variable {α : Type u} {rank : α → Nat} [DecidableEq α]

/-- The proper ancestors of a node. -/
def ancestors (tree : ParentTree α rank) (a : α) : Finset α :=
  match h : tree.parent a with
  | none => ∅
  | some p =>
    have := tree.parent_lt h
    insert p (ancestors tree p)
termination_by rank a

theorem mem_ancestors {tree : ParentTree α rank} {a b : α} :
    a ∈ tree.ancestors b ↔ tree.Ancestor a b := by
  fun_induction ancestors tree b with
  | case1 b hparent =>
    refine iff_of_false (Finset.notMem_empty a) fun h => ?_
    obtain ⟨p, _, hp⟩ := Relation.TransGen.tail'_iff.mp h
    exact absurd (hparent.symm.trans hp) (by simp)
  | case2 b p hparent _ ih =>
    rw [Finset.mem_insert, ih]
    constructor
    · rintro (rfl | h)
      · exact .single hparent
      · exact .tail h hparent
    · intro h
      obtain ⟨q, hq, hparent'⟩ := Relation.TransGen.tail'_iff.mp h
      obtain rfl := Option.some.inj (hparent.symm.trans hparent')
      exact (Relation.reflTransGen_iff_eq_or_transGen.mp hq).imp Eq.symm id

end ParentTree
end Hypergrid
