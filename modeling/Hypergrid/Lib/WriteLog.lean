import Mathlib

/-!
# Logs of writes to a map

A map is a partial function, and a write sets or removes the value of one key.  After a
log of writes a key has the value of its last write, or its old value when the log does
not write it (`applyWrites_apply`).
-/

namespace Hypergrid
namespace WriteLog
universe u v
variable {κ : Type u} {β : Type v} [DecidableEq κ]

/-- The map after a log of writes. -/
def applyWrites (m : κ → Option β) (ws : List (κ × Option β)) : κ → Option β :=
  ws.foldl (fun m w => Function.update m w.1 w.2) m

/-- The last write to a key. -/
def lastWrite (k : κ) (ws : List (κ × Option β)) : Option (Option β) :=
  (ws.reverse.find? (fun w => w.1 = k)).map Prod.snd

variable {m : κ → Option β} {k : κ} {ws ws' : List (κ × Option β)}

theorem applyWrites_append : applyWrites m (ws ++ ws') = applyWrites (applyWrites m ws) ws' :=
  List.foldl_append

theorem lastWrite_append : lastWrite k (ws ++ ws') = (lastWrite k ws').or (lastWrite k ws) := by
  unfold lastWrite
  rw [List.reverse_append, List.find?_append]
  cases ws'.reverse.find? (fun w => w.1 = k) <;> simp

theorem lastWrite_singleton (w : κ × Option β) :
    lastWrite k [w] = if w.1 = k then some w.2 else none := by
  by_cases hk : w.1 = k <;> simp [lastWrite, hk]

theorem applyWrites_apply : applyWrites m ws k = (lastWrite k ws).getD (m k) := by
  induction ws using List.reverseRecOn with
  | nil => rfl
  | append_singleton ws w ih =>
    rw [applyWrites_append, lastWrite_append, lastWrite_singleton]
    change Function.update (applyWrites m ws) w.1 w.2 k = _
    by_cases hk : w.1 = k
    · subst hk
      simp
    · rw [Function.update_of_ne (Ne.symm hk), ih, if_neg hk, Option.none_or]

end WriteLog
end Hypergrid
