import Mathlib

/-!
# Readers of a list of versions

A list holds the versions of one value, each with a version number.  A reader sees the versions
whose number passes its test, and reads the newest one of them.  A collector removes versions
while the reader is running.

* `Newest` is what a reader reads.
* `Keeps` is a change of the list that leaves a reader what it reads, or removes a version that
  counts as no version at all.
* `Holds.step` : what a reader expects is kept by such a change.
* `Keeps.of_unseen`, `Keeps.of_outdated` and `Keeps.of_purged` : three ways to change a list.
-/

namespace Hypergrid
namespace VersionList
universe u v
variable {ι : Type u} {α : Type v} [LinearOrder ι] {V : ι → Prop}
  {gone gone' : ι × α → Prop} {l l' : List (ι × α)} {e : ι × α} {r : Option (ι × α)}

/-- The reader sees no version. -/
def Absent (V : ι → Prop) (l : List (ι × α)) : Prop := ∀ e ∈ l, ¬V e.1

/-- The newest version that the reader sees. -/
structure Newest (V : ι → Prop) (l : List (ι × α)) (e : ι × α) : Prop where
  mem : e ∈ l
  visible : V e.1
  le : ∀ e' ∈ l, V e'.1 → e'.1 ≤ e.1

/-- The list still has the version that the reader expects, or it is gone and the reader sees
none. -/
def Holds (V : ι → Prop) (gone : ι × α → Prop) (l : List (ι × α)) : Option (ι × α) → Prop
  | none => Absent V l
  | some e => Newest V l e ∨ gone e ∧ Absent V l

/-- A change of the list that leaves the reader the newest version, if it is not gone. -/
structure Keeps (V : ι → Prop) (gone : ι × α → Prop) (l l' : List (ι × α)) : Prop where
  sub : ∀ e ∈ l', V e.1 → e ∈ l
  newest : ∀ e, Newest V l e → e ∈ l' ∨ gone e ∧ Absent V l'

theorem Absent.step (h : Absent V l) (hk : Keeps V gone l l') : Absent V l' :=
  fun e he hv => h e (hk.sub e he hv) hv

theorem Holds.step (h : Holds V gone l r) (hk : Keeps V gone' l l')
    (hmono : ∀ e, gone e → gone' e) : Holds V gone' l' r := by
  cases r with
  | none => exact Absent.step h hk
  | some e =>
    rcases h with h | ⟨hgone, habsent⟩
    · rcases hk.newest e h with hmem | hgone
      · exact Or.inl ⟨hmem, h.visible, fun e' he' hv => h.le e' (hk.sub e' he' hv) hv⟩
      · exact Or.inr hgone
    · exact Or.inr ⟨hmono e hgone, habsent.step hk⟩

theorem Keeps.of_unseen (h : ∀ e, V e.1 → (e ∈ l' ↔ e ∈ l)) : Keeps V gone l l' where
  sub := fun e he hv => (h e hv).mp he
  newest := fun e he => Or.inl ((h e he.visible).mpr he.mem)

theorem Keeps.of_outdated (hsub : ∀ e ∈ l', e ∈ l)
    (hnewer : ∀ e ∈ l, V e.1 → e ∉ l' → ∃ e' ∈ l, V e'.1 ∧ e.1 < e'.1) :
    Keeps V gone l l' where
  sub := fun e he _ => hsub e he
  newest := fun e he => by
    by_contra hno
    obtain ⟨hnot, _⟩ := not_or.mp hno
    obtain ⟨e', he', hv, hlt⟩ := hnewer e he.mem he.visible hnot
    exact absurd (he.le e' he' hv) (not_le.mpr hlt)

/-- With a version, all older versions go; one without a newer version counts as none. -/
theorem Keeps.of_purged (hsub : ∀ e ∈ l', e ∈ l)
    (hgone : ∀ e ∈ l, V e.1 → e ∉ l' → gone e ∨ ∃ e' ∈ l, V e'.1 ∧ e.1 < e'.1)
    (hold : ∀ e ∈ l, V e.1 → e ∉ l' → ∀ e' ∈ l', V e'.1 → e.1 < e'.1) :
    Keeps V gone l l' where
  sub := fun e he _ => hsub e he
  newest := fun e he => by
    by_cases hmem : e ∈ l'
    · exact Or.inl hmem
    · refine Or.inr ⟨?_, fun e' he' hv => ?_⟩
      · rcases hgone e he.mem he.visible hmem with h | ⟨e', he', hv, hlt⟩
        · exact h
        · exact absurd (he.le e' he' hv) (not_le.mpr hlt)
      · exact absurd (he.le e' (hsub e' he') hv)
          (not_le.mpr (hold e he.mem he.visible hmem e' he' hv))

end VersionList
end Hypergrid
