import Mathlib

/-!
# The top element of a list

The greatest of the elements of a list that satisfy a predicate, for a strict order `R` in which
`R a b` says that `a` beats `b`.  A loop that keeps the best element so far computes it.

* `IsTop.concat` : the top of a list with one more element.
* `exists_isTop` : a list with an element that satisfies the predicate has a top.
* `IsTop.unique` : there is only one.
* `forall_perm_foldl_keepBest_iff` : the loop does not depend on the order of the list exactly if
  the list has a top, also if `R` is no order.
* `ByRank` : an order by a rank, refined by another order; it is strict if that one is.
-/

namespace Hypergrid
open List
universe u
variable {α : Type u} {R : α → α → Prop} {P Q : α → Prop} {l l' : List α} {a b : α}

/-- The element beats every other element of the list that satisfies the predicate. -/
structure IsTop (R : α → α → Prop) (P : α → Prop) (l : List α) (a : α) : Prop where
  mem : a ∈ l
  ok : P a
  beats : ∀ b ∈ l, P b → b ≠ a → R a b

namespace IsTop

theorem unique [Std.Asymm R] (ha : IsTop R P l a) (hb : IsTop R P l b) : a = b := by
  by_contra hne
  exact Std.Asymm.asymm _ _ (ha.beats b hb.mem hb.ok (Ne.symm hne)) (hb.beats a ha.mem ha.ok hne)

theorem singleton (ha : P a) : IsTop R P [a] a where
  mem := mem_singleton_self a
  ok := ha
  beats := fun _ hb _ hne => absurd (mem_singleton.mp hb) hne

theorem concat_of_not [Std.Trichotomous R] (ha : IsTop R P l a) (hb : P b → ¬R b a) :
    IsTop R P (l ++ [b]) a where
  mem := mem_append_left _ ha.mem
  ok := ha.ok
  beats := by
    intro c hc hok hne
    rcases mem_append.mp hc with hc | hc
    · exact ha.beats c hc hok hne
    · rw [mem_singleton.mp hc] at hok hne ⊢
      by_contra hnot
      exact hne (Std.Trichotomous.trichotomous _ _ (hb hok) hnot)

theorem concat_of_beats [IsTrans α R] (ha : IsTop R P l a) (hok : P b) (hb : R b a) :
    IsTop R P (l ++ [b]) b where
  mem := mem_append_right _ (mem_singleton_self b)
  ok := hok
  beats := by
    intro c hc hcok hne
    rcases mem_append.mp hc with hc | hc
    · by_cases hca : c = a
      · exact hca ▸ hb
      · exact IsTrans.trans _ _ _ hb (ha.beats c hc hcok hca)
    · exact absurd (mem_singleton.mp hc) hne

theorem concat_of_none (hnone : ∀ c ∈ l, ¬P c) (hok : P b) : IsTop R P (l ++ [b]) b where
  mem := mem_append_right _ (mem_singleton_self b)
  ok := hok
  beats := by
    intro c hc hcok hne
    rcases mem_append.mp hc with hc | hc
    · exact absurd hcok (hnone c hc)
    · exact absurd (mem_singleton.mp hc) hne

theorem congr {S : α → α → Prop} (hmem : ∀ b, b ∈ l ↔ b ∈ l') (hok : ∀ b ∈ l, P b ↔ Q b)
    (hbeats : ∀ b ∈ l, R a b → S a b) (ha : IsTop R P l a) : IsTop S Q l' a where
  mem := (hmem a).mp ha.mem
  ok := (hok a ha.mem).mp ha.ok
  beats := by
    intro b hb hbok hne
    have hb' := (hmem b).mpr hb
    exact hbeats b hb' (ha.beats b hb' ((hok b hb').mpr hbok) hne)

end IsTop

theorem exists_isTop [IsTrans α R] [Std.Trichotomous R] (h : ∃ a ∈ l, P a) :
    ∃ a, IsTop R P l a := by
  induction l using reverseRec with
  | nil =>
    obtain ⟨a, ha, _⟩ := h
    exact absurd ha not_mem_nil
  | append_singleton l b ih =>
    by_cases hl : ∃ a ∈ l, P a
    · obtain ⟨a, ha⟩ := ih hl
      by_cases hb : P b ∧ R b a
      · exact ⟨b, ha.concat_of_beats hb.1 hb.2⟩
      · exact ⟨a, ha.concat_of_not fun hok hbeats => hb ⟨hok, hbeats⟩⟩
    · obtain ⟨a, ha, hok⟩ := h
      have hnone : ∀ c ∈ l, ¬P c := fun c hc hok => hl ⟨c, hc, hok⟩
      rcases mem_append.mp ha with ha | ha
      · exact absurd hok (hnone a ha)
      · rw [mem_singleton.mp ha] at hok
        exact ⟨b, IsTop.concat_of_none hnone hok⟩

/-- A loop keeps the first element until another one beats it. -/
def keepBest (R : α → α → Prop) [DecidableRel R] (best : Option α) (b : α) : Option α :=
  match best with
  | none => some b
  | some a => if R b a then some b else some a

section KeepBest
variable [DecidableRel R]

theorem exists_foldl_keepBest (l : List α) (a : α) :
    ∃ c ∈ a :: l, l.foldl (keepBest R) (some a) = some c := by
  induction l generalizing a with
  | nil => exact ⟨a, mem_cons_self, rfl⟩
  | cons b l ih =>
    rw [foldl_cons, keepBest]
    split
    · obtain ⟨c, hc, hfold⟩ := ih b
      exact ⟨c, mem_cons_of_mem _ hc, hfold⟩
    · obtain ⟨c, hc, hfold⟩ := ih a
      exact ⟨c, by grind, hfold⟩

theorem foldl_keepBest_of_not (h : ∀ b ∈ l, ¬R b a) : l.foldl (keepBest R) (some a) = some a := by
  induction l with
  | nil => rfl
  | cons b l ih =>
    rw [foldl_cons, keepBest, if_neg (h b mem_cons_self)]
    exact ih fun c hc => h c (mem_cons_of_mem _ hc)

variable [Std.Asymm R]

theorem IsTop.foldl_keepBest (ha : IsTop R (fun _ => True) l a) :
    l.foldl (keepBest R) none = some a := by
  have hnot : ∀ b ∈ l, ¬R b a := by
    intro b hb hba
    by_cases hne : b = a
    · subst hne
      exact Std.Asymm.asymm _ _ hba hba
    · exact Std.Asymm.asymm _ _ hba (ha.beats b hb trivial hne)
  obtain ⟨front, rest, rfl⟩ := append_of_mem ha.mem
  have hrest := foldl_keepBest_of_not (l := rest) fun b hb => hnot b (by simp [hb])
  rw [foldl_append, foldl_cons]
  cases front with
  | nil => exact hrest
  | cons b front =>
    obtain ⟨c, hc, hfold⟩ := exists_foldl_keepBest (R := R) front b
    rw [foldl_cons, keepBest, hfold, keepBest]
    split
    · exact hrest
    · next hca =>
      by_cases hne : c = a
      · exact hne ▸ hrest
      · exact absurd (ha.beats c (mem_append_left _ hc) trivial hne) hca

theorem forall_perm_foldl_keepBest_iff (htotal : ∀ a ∈ l, ∀ b ∈ l, a ≠ b → R a b ∨ R b a) :
    (∀ l₁ l₂ : List α, l₁.Perm l → l₂.Perm l →
      l₁.foldl (keepBest R) none = l₂.foldl (keepBest R) none) ↔
      l = [] ∨ ∃ a, IsTop R (fun _ => True) l a := by
  classical
  constructor
  · intro h
    rcases l with _ | ⟨b, l⟩
    · exact .inl rfl
    obtain ⟨a, ha, hfold⟩ := exists_foldl_keepBest (R := R) l b
    refine .inr ⟨a, ha, trivial, fun c hc _ hne => ?_⟩
    -- The loop that meets `c` last keeps `a`.
    have hlast := h (((b :: l).erase c) ++ [c]) (b :: l)
      ((perm_append_singleton _ _).trans (perm_cons_erase hc).symm) (List.Perm.refl _)
    change _ = l.foldl (keepBest R) (some b) at hlast
    rw [hfold, foldl_append, foldl_cons, foldl_nil] at hlast
    refine (htotal a ha c hc hne.symm).resolve_right fun hca => hne (Option.some.inj ?_)
    rw [← hlast]
    generalize ((b :: l).erase c).foldl (keepBest R) none = best at hlast
    cases best with
    | none => rfl
    | some d =>
      rw [keepBest]
      split_ifs with hcd
      · rfl
      · rw [keepBest, if_neg hcd, Option.some.injEq] at hlast
        exact absurd (hlast ▸ hca) hcd
  · rintro (rfl | ⟨a, ha⟩) l₁ l₂ h₁ h₂
    · rw [h₁.eq_nil, h₂.eq_nil]
    · have htop : ∀ l' : List α, l'.Perm l → l'.foldl (keepBest R) none = some a := fun l' h =>
        (ha.congr (fun _ => h.symm.mem_iff) (fun _ _ => Iff.rfl) (fun _ _ h => h)).foldl_keepBest
      rw [htop l₁ h₁, htop l₂ h₂]

end KeepBest

/-- The higher rank wins, and among equal ranks the order `R` decides. -/
def ByRank (rank : α → Nat) (R : α → α → Prop) (a b : α) : Prop :=
  rank b < rank a ∨ rank b = rank a ∧ R a b

variable {rank : α → Nat}

instance [Std.Asymm R] : Std.Asymm (ByRank rank R) where
  asymm := by
    rintro a b (hab | ⟨hab, hlt⟩) (hba | ⟨hba, hlt'⟩)
    · exact absurd hab (Nat.lt_asymm hba)
    · exact absurd hba (Nat.ne_of_lt hab).symm
    · exact absurd hab (Nat.ne_of_lt hba).symm
    · exact Std.Asymm.asymm _ _ hlt hlt'

instance [IsTrans α R] : IsTrans α (ByRank rank R) where
  trans := by
    rintro a b c (hab | ⟨hab, hlt⟩) (hbc | ⟨hbc, hlt'⟩)
    · exact Or.inl (Nat.lt_trans hbc hab)
    · exact Or.inl (hbc ▸ hab)
    · exact Or.inl (hab ▸ hbc)
    · exact Or.inr ⟨hbc.trans hab, IsTrans.trans _ _ _ hlt hlt'⟩

instance [Std.Trichotomous R] : Std.Trichotomous (ByRank rank R) where
  trichotomous := by
    intro a b hab hba
    have hrank : rank b = rank a :=
      Nat.le_antisymm (Nat.le_of_not_lt fun h => hba (Or.inl h))
        (Nat.le_of_not_lt fun h => hab (Or.inl h))
    exact Std.Trichotomous.trichotomous a b (fun h => hab (Or.inr ⟨hrank, h⟩))
      (fun h => hba (Or.inr ⟨hrank.symm, h⟩))

end Hypergrid
