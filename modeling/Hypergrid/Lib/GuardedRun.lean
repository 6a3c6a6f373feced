import Mathlib

/-!
# Runs of a machine under a condition on its steps

A machine is a partial step function `step : σ → ε → Option σ`: `none` means that
the event is not enabled.  A *guarded run* is a run in which every step meets a
condition `ok` on the state before the step and on the event.

* `exec` computes the final state of a run; `run_iff_exec` says so of runs without a condition.
* `GuardedRun.invariant` is the invariant rule.
* `staysGood_iff_guardedRun` is the exact form: when a step from a good state reaches a good state
  exactly if it meets the condition, a run stays good exactly if all of its steps meet it.
* `guardedRun_of_execChecked` gets a guarded run from an executable test.
* `HoldsUntil` is a condition on the steps up to a releasing one.
-/

namespace Hypergrid
open Option
namespace Machine
universe u v
variable {σ : Type u} {ε : Type v}

/-- Runs in which every step is enabled and meets the condition `ok`. -/
inductive GuardedRun (step : σ → ε → Option σ) (ok : σ → ε → Prop) :
    σ → List ε → σ → Prop
  | nil (s : σ) : GuardedRun step ok s [] s
  | cons {s s' t : σ} {e : ε} {es : List ε} :
      ok s e →
      step s e = some s' →
      GuardedRun step ok s' es t →
      GuardedRun step ok s (e :: es) t

/-- Runs without a condition on their steps. -/
def Run (step : σ → ε → Option σ) : σ → List ε → σ → Prop :=
  GuardedRun step (fun _ _ => True)

/-- The final state of a run, when every event is enabled. -/
def exec (step : σ → ε → Option σ) : σ → List ε → Option σ
  | s, [] => some s
  | s, e :: es => (step s e).bind (fun s' => exec step s' es)

theorem run_iff_exec (step : σ → ε → Option σ) {s t : σ} {es : List ε} :
    Run step s es t ↔ exec step s es = some t := by
  constructor
  · intro h
    induction h with
    | nil s => rfl
    | cons _ hstep _ ih =>
      simp only [exec, hstep, bind_some]
      exact ih
  · intro h
    induction es generalizing s with
    | nil =>
      simp only [exec, some.injEq] at h
      subst h
      exact .nil s
    | cons e es ih =>
      simp only [exec, bind_eq_some_iff] at h
      obtain ⟨s', hstep, hrest⟩ := h
      exact .cons trivial hstep (ih hrest)

/-- The final state of a run whose steps all pass a test. -/
def execChecked (step : σ → ε → Option σ) (test : σ → ε → Bool) :
    σ → List ε → Option σ
  | s, [] => some s
  | s, e :: es =>
    if test s e then (step s e).bind (fun s' => execChecked step test s' es) else none

/-- A run whose steps all pass a test that implies the condition is a guarded run. -/
theorem guardedRun_of_execChecked {step : σ → ε → Option σ} {test : σ → ε → Bool}
    {ok : σ → ε → Prop}
    (htest : ∀ s e, test s e = true → ok s e)
    {s t : σ} {es : List ε}
    (h : execChecked step test s es = some t) :
    GuardedRun step ok s es t := by
  induction es generalizing s with
  | nil =>
    simp only [execChecked, some.injEq] at h
    subst h
    exact .nil s
  | cons e es ih =>
    simp only [execChecked] at h
    split_ifs at h with hpass
    obtain ⟨s', hstep, hrest⟩ := bind_eq_some_iff.mp h
    exact .cons (htest s e hpass) hstep (ih hrest)

namespace GuardedRun

variable {step : σ → ε → Option σ} {ok : σ → ε → Prop}

theorem invariant {Inv : σ → Prop} (hstep : ∀ s e s', Inv s → ok s e → step s e = some s' → Inv s')
    {s t : σ} {es : List ε}
    (hrun : GuardedRun step ok s es t)
    (hinit : Inv s) :
    Inv t := by
  induction hrun with
  | nil _ => exact hinit
  | cons hok hs _ ih => exact ih (hstep _ _ _ hinit hok hs)

theorem split {s t : σ} {es fs : List ε} (hrun : GuardedRun step ok s (es ++ fs) t) :
    ∃ m, GuardedRun step ok s es m ∧ GuardedRun step ok m fs t := by
  induction es generalizing s with
  | nil => exact ⟨s, .nil s, hrun⟩
  | cons e es ih =>
    cases hrun with
    | cons hok hs hrest =>
      obtain ⟨m, hleft, hright⟩ := ih hrest
      exact ⟨m, .cons hok hs hleft, hright⟩

theorem append {s m t : σ} {es fs : List ε}
    (hleft : GuardedRun step ok s es m) (hright : GuardedRun step ok m fs t) :
    GuardedRun step ok s (es ++ fs) t := by
  induction hleft with
  | nil _ => exact hright
  | cons hok hs _ ih => exact .cons hok hs (ih hright)

end GuardedRun

section Exact
variable {step : σ → ε → Option σ} {ok : σ → ε → Prop}

/-- Every state of the run with the given events is good. -/
def StaysGood (step : σ → ε → Option σ) (Good : σ → Prop) (s : σ) (es : List ε) : Prop :=
  ∀ es₁ es₂ m, es = es₁ ++ es₂ → Run step s es₁ m → Good m

/-- The exact rule.  `Inv` is what every step keeps, met or not; `Good` is what a step
keeps exactly if it meets the condition. -/
theorem staysGood_iff_guardedRun {Inv Good : σ → Prop}
    (hinv : ∀ s e s', Inv s → Good s → step s e = some s' → Inv s')
    (hgood : ∀ s e s', Inv s → Good s → step s e = some s' → (Good s' ↔ ok s e))
    {s t : σ} {es : List ε}
    (hrun : Run step s es t)
    (hi : Inv s)
    (hg : Good s) :
    StaysGood step Good s es ↔ GuardedRun step ok s es t := by
  unfold Run at hrun
  induction hrun with
  | nil s =>
    constructor
    · intro _
      exact .nil s
    · intro _ es₁ es₂ m hes hm
      have hnil : es₁ = [] := (List.append_eq_nil_iff.mp hes.symm).1
      subst hnil
      cases hm
      exact hg
  | @cons s s' t e es _ hs hrest ih =>
    constructor
    · intro hall
      have hs' : Good s' := hall [e] es s' rfl (.cons trivial hs (.nil s'))
      refine .cons ((hgood s e s' hi hg hs).mp hs') hs ?_
      refine (ih (hinv s e s' hi hg hs) hs').mp ?_
      intro es₁ es₂ m hes hm
      exact hall (e :: es₁) es₂ m (by rw [hes]; rfl) (.cons trivial hs hm)
    · intro hguard
      cases hguard with
      | cons hok hs₂ hrest₂ =>
        have heq := some.inj (hs.symm.trans hs₂)
        subst heq
        have hs' : Good s' := (hgood s e s' hi hg hs).mpr hok
        have hrec := (ih (hinv s e s' hi hg hs) hs').mpr hrest₂
        intro es₁ es₂ m hes hm
        cases es₁ with
        | nil =>
          cases hm
          exact hg
        | cons e₁ es₁ =>
          rw [List.cons_append, List.cons.injEq] at hes
          obtain ⟨rfl, hes⟩ := hes
          cases hm with
          | cons _ hs₃ hm =>
            have heq := some.inj (hs.symm.trans hs₃)
            subst heq
            exact hrec es₁ es₂ m hes hm

end Exact

variable {step : σ → ε → σ} {release P Q : σ → ε → Prop}

/-- Every step of a run meets a condition, up to and including the first step that
releases. -/
def HoldsUntil (step : σ → ε → σ) (release P : σ → ε → Prop) : σ → List ε → Prop
  | _, [] => True
  | s, e :: es => P s e ∧ (¬release s e → HoldsUntil step release P (step s e) es)

/-- Conditions that agree in every state with an invariant hold of the same runs. -/
theorem holdsUntil_congr {Inv : σ → Prop} (hinv : ∀ s e, Inv s → Inv (step s e))
    (hagree : ∀ s e, Inv s → (P s e ↔ Q s e))
    {s : σ} (hs : Inv s) (es : List ε) :
    HoldsUntil step release P s es ↔ HoldsUntil step release Q s es := by
  induction es generalizing s with
  | nil => exact .rfl
  | cons e es ih =>
    exact and_congr (hagree s e hs) (imp_congr_right (fun _ => ih (hinv s e hs)))

end Machine
end Hypergrid
