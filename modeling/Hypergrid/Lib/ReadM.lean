import Mathlib

/-!
# Programs that only read

`ReadM ρ ν α` are the programs that ask requests of type `ρ`, get answers of type `ν` and
return a value of type `α`.  A program can be run in two ways:

* `run` answers the requests from a state, which the answers may change;
* `eval` answers them from a fixed view.

`run_of_view` is the simulation: when a state answers every request as its view says and
keeps that view, a run returns what the evaluation over the view returns.
-/

namespace Hypergrid
universe u

/-- Programs that ask requests and return a value. -/
inductive ReadM (ρ ν α : Type u) where
  | pure (a : α)
  | read (r : ρ) (next : ν → ReadM ρ ν α)

namespace ReadM

variable {ρ ν α β σ : Type u}

def bind : ReadM ρ ν α → (α → ReadM ρ ν β) → ReadM ρ ν β
  | .pure a, f => f a
  | .read r next, f => .read r (fun v => (next v).bind f)

instance : Monad (ReadM ρ ν) where
  pure := ReadM.pure
  bind := ReadM.bind

def ask (r : ρ) : ReadM ρ ν ν := .read r .pure

def run (answer : σ → ρ → σ × ν) : σ → ReadM ρ ν α → σ × α
  | s, .pure a => (s, a)
  | s, .read r next => run answer (answer s r).1 (next (answer s r).2)

def eval (view : ρ → ν) : ReadM ρ ν α → α
  | .pure a => a
  | .read r next => eval view (next (view r))

section Laws
variable (view : ρ → ν)

@[simp] theorem eval_pure (a : α) : eval view (Pure.pure a : ReadM ρ ν α) = a := rfl

@[simp] theorem eval_ask (r : ρ) : eval view (ask r) = view r := rfl

@[simp] theorem eval_bind (p : ReadM ρ ν α) (f : α → ReadM ρ ν β) :
    eval view (p >>= f) = eval view (f (eval view p)) := by
  induction p with
  | pure a => rfl
  | read r next ih => exact ih (view r)

variable {view}

/-- What a program returns that ends with the error of its first part. -/
theorem eval_bind_ok {ε : Type u} {p : ReadM ρ ν (Except ε α)}
    {f : Except ε α → ReadM ρ ν (Except ε β)} {b : β}
    (hf : ∀ e, eval view (f (.error e)) = .error e) (h : eval view (p >>= f) = .ok b) :
    ∃ a, eval view p = .ok a ∧ eval view (f (.ok a)) = .ok b := by
  rw [eval_bind] at h
  cases hp : eval view p with
  | error e => simp [hp, hf] at h
  | ok a => exact ⟨a, rfl, hp ▸ h⟩

end Laws

/-- The simulation of a run by an evaluation.  `Step` relates the states before and after
one request; it carries what a run leaves unchanged. -/
theorem run_of_view {answer : σ → ρ → σ × ν} {view : σ → ρ → ν} {Step : σ → σ → Prop}
    (hrefl : ∀ s, Step s s) (htrans : ∀ s t u, Step s t → Step t u → Step s u)
    {Inv : σ → Prop}
    (hstep : ∀ s r, Inv s → Inv (answer s r).1 ∧ Step s (answer s r).1 ∧
      (answer s r).2 = view s r ∧ ∀ r', view (answer s r).1 r' = view s r')
    (p : ReadM ρ ν α) {s : σ} (hinv : Inv s) :
    Inv (run answer s p).1 ∧ Step s (run answer s p).1 ∧
      (run answer s p).2 = eval (view s) p ∧ ∀ r, view (run answer s p).1 r = view s r := by
  induction p generalizing s with
  | pure a => exact ⟨hinv, hrefl s, rfl, fun _ => rfl⟩
  | read r next ih =>
    obtain ⟨hinv', hs, hans, hview⟩ := hstep s r hinv
    obtain ⟨hinv'', hs', heval, hview'⟩ := ih (answer s r).2 hinv'
    refine ⟨hinv'', htrans _ _ _ hs hs', ?_, fun r' => (hview' r').trans (hview r')⟩
    change (run answer (answer s r).1 (next (answer s r).2)).2 = _
    rw [heval, funext hview, hans]
    rfl

end ReadM
end Hypergrid
