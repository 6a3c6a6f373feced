import Hypergrid.Consensus

/-!
# Adjusting a restored tower

After a restart the tower is compared with the slot history of the root bank: the votes up to the
newest slot that the tower and the history share are dropped.

The walk goes over the tower from the newest vote to the root.  `walk_spec` describes it without
its flags: it returns exactly if the slots fall and no slot below the first shared one is missing
in the history.  `check_exact_iff` says what the history answers.
-/

namespace Hypergrid
open LandedVote Checked Option Except
open List

def maxEntries : Nat := 1024 * 1024

structure SlotHistory where
  bits : Nat → Bool
  nextSlot : Slot

inductive Check where
  | future
  | tooOld
  | found
  | notFound
deriving DecidableEq

namespace SlotHistory

def default : SlotHistory where
  bits := fun i => decide (i = 0)
  nextSlot := 1

/-- The bits that `add` leaves before it sets the bit of the slot. -/
def clearSkipped (h : SlotHistory) (slot : Slot) : Nat → Bool :=
  if h.nextSlot < slot ∧ maxEntries ≤ slot - h.nextSlot then fun _ => false
  else
    (List.range' h.nextSlot (slot - h.nextSlot)).foldl
      (fun bits skipped => Function.update bits (skipped % maxEntries) false) h.bits

/-- The counter is a `u64` and wraps after the largest slot. -/
def add (h : SlotHistory) (slot : Slot) : SlotHistory where
  bits := Function.update (h.clearSkipped slot) (slot % maxEntries) true
  nextSlot := if slot = u64Max then 0 else slot + 1

def oldest (h : SlotHistory) : Slot := h.nextSlot - maxEntries

/-- The subtraction wraps at zero. -/
def newest (h : SlotHistory) : Slot := if h.nextSlot = 0 then u64Max else h.nextSlot - 1

def check (h : SlotHistory) (slot : Slot) : Check :=
  if h.newest < slot then .future
  else if slot < h.oldest then .tooOld
  else if h.bits (slot % maxEntries) then .found
  else .notFound

variable {h : SlotHistory} {slot : Slot}

theorem check_eq_future_iff : h.check slot = .future ↔ h.newest < slot := by
  unfold check
  split_ifs <;> simp_all

theorem newest_add (h : SlotHistory) (slot : Slot) : (h.add slot).newest = slot := by
  unfold newest add
  dsimp only
  split_ifs <;> simp_all

theorem check_eq_tooOld_iff : h.check slot = .tooOld ↔ slot < h.oldest := by
  have hle : h.oldest ≤ h.newest := by
    unfold oldest newest
    split_ifs with hzero
    · simp [hzero]
    · exact Nat.sub_le_sub_left (by decide) h.nextSlot
  unfold check
  split_ifs with hfuture hold
  · simp only [false_iff, not_lt]
    exact le_trans hle (le_of_lt hfuture)
  · simp [hold]
  · simp [hold]
  · simp [hold]

section Window
variable {h : SlotHistory} {added slots : List Nat} {last slot s : Nat}

theorem mod_ne (hlt : s < slot) (hnear : slot < s + maxEntries) :
    s % maxEntries ≠ slot % maxEntries := by
  unfold maxEntries at *
  omega

theorem clear_foldl (bits : Nat → Bool) (skipped : List Nat) (p : Nat) :
    skipped.foldl (fun bits skipped => Function.update bits (skipped % maxEntries) false) bits p =
      (decide (∀ s ∈ skipped, s % maxEntries ≠ p) && bits p) := by
  induction skipped generalizing bits with
  | nil => simp
  | cons s skipped ih =>
    rw [foldl_cons, ih, Function.update_apply]
    by_cases hs : p = s % maxEntries
    · simp [hs]
    · simp [hs, Ne.symm hs]

/-- The bits of the slots from the last added one back to the end of the window. -/
structure Window (added : List Nat) (last : Nat) (h : SlotHistory) : Prop where
  next : h.nextSlot = last + 1
  most : ∀ s ∈ added, s ≤ last
  bits : ∀ s ≤ last, last < s + maxEntries → (h.bits (s % maxEntries) = true ↔ s ∈ added)

theorem Window.add (hw : Window added last h) (hlast : last < slot) (hfit : slot < u64Max) :
    Window (added ++ [slot]) slot (h.add slot) := by
  have hnext : h.nextSlot = last + 1 := hw.next
  refine ⟨if_neg hfit.ne, fun s hs => ?_, fun s hs hnear => ?_⟩
  · rcases mem_append.mp hs with hs | hs
    · exact (hw.most s hs).trans hlast.le
    · exact (List.mem_singleton.mp hs).le
  rcases hs.eq_or_lt with rfl | hlt
  · simp [SlotHistory.add]
  have hmem : s ∈ added ++ [slot] ↔ s ∈ added := by simp [hlt.ne]
  dsimp only [SlotHistory.add]
  rw [Function.update_of_ne (mod_ne hlt hnear), hmem, clearSkipped, hnext]
  by_cases hold : s ≤ last
  · -- the slot stays in the window, and only slots above it are cleared
    have hkept : ∀ k ∈ range' (last + 1) (slot - (last + 1)), k % maxEntries ≠ s % maxEntries := by
      intro k hk
      rw [mem_range'_1] at hk
      exact (mod_ne (by omega) (by omega)).symm
    rw [if_neg (by omega), clear_foldl, decide_eq_true hkept, Bool.true_and]
    exact hw.bits s hold (by omega)
  · refine iff_of_false (ne_true_of_eq_false ?_) fun hs => hold (hw.most s hs)
    split_ifs
    · rfl
    · have hskipped : s ∈ range' (last + 1) (slot - (last + 1)) := by
        rw [mem_range'_1]
        omega
      rw [clear_foldl, decide_eq_false fun hall => hall s hskipped rfl, Bool.false_and]

theorem Window.run (hw : Window added last h) (hchain : (last :: slots).IsChain (· < ·))
    (hfit : ∀ slot ∈ slots, slot < u64Max) :
    Window (added ++ slots) (slots.getLastD last) (slots.foldl SlotHistory.add h) := by
  induction slots generalizing added last h with
  | nil => rwa [append_nil]
  | cons slot slots ih =>
    obtain ⟨hlast, hchain⟩ := isChain_cons_cons.mp hchain
    obtain ⟨hslot, hfit⟩ := forall_mem_cons.mp hfit
    have hrest := ih (hw.add hlast hslot) hchain hfit
    rw [append_assoc] at hrest
    rwa [getLastD_cons]

theorem Window.start : Window [0] 0 default where
  next := rfl
  most := by simp
  bits s hs _ := by simp [Nat.le_zero.mp hs, SlotHistory.default]

/-- After the slots were added, `check` tells the future, the slots that are too old, and which of
the others were added. -/
def Exact (slots : List Nat) : Prop :=
  ∀ s, let answer := (slots.foldl SlotHistory.add default).check s
    let last := slots.getLastD 0
    (answer = .future ↔ last < s) ∧ (answer = .tooOld ↔ s + maxEntries ≤ last) ∧
      (s ≤ last → last < s + maxEntries →
        (answer = .found ↔ s = 0 ∨ s ∈ slots) ∧ (answer = .notFound ↔ ¬(s = 0 ∨ s ∈ slots)))

theorem exact_of_fits (hchain : (0 :: slots).IsChain (· < ·))
    (hfit : ∀ slot ∈ slots, slot < u64Max) : Exact slots := by
  intro s answer last
  have hw : Window (0 :: slots) last (slots.foldl SlotHistory.add default) :=
    Window.start.run hchain hfit
  have hbits := hw.bits s
  rw [mem_cons] at hbits
  have holdest : s < last + 1 - maxEntries ↔ s + maxEntries ≤ last :=
    Nat.lt_sub_iff_add_lt.trans Nat.lt_succ_iff
  dsimp only [answer]
  rw [check, newest, oldest, hw.next, if_neg (Nat.succ_ne_zero last), Nat.add_sub_cancel,
    if_congr holdest rfl rfl]
  split_ifs with hfuture hold hbit <;> grind

/-- For an increasing sequence of slots, `check` is exact exactly if the largest `u64` is not among
them. -/
theorem check_exact_iff (hchain : (0 :: slots).IsChain (· < ·))
    (hu64 : ∀ slot ∈ slots, slot ≤ u64Max) : Exact slots ↔ ∀ slot ∈ slots, slot < u64Max := by
  refine ⟨fun hexact => ?_, exact_of_fits hchain⟩
  obtain rfl | ⟨front, last, rfl⟩ := slots.eq_nil_or_concat'
  · simp
  -- the last slot is the largest, and after the largest `u64` slot zero is not too old
  have hlast : last ≠ u64Max := by
    rintro rfl
    have holdest : ∀ h : SlotHistory, (h.add u64Max).oldest = 0 := fun h => by
      simp [oldest, SlotHistory.add]
    have hold := (hexact 0).2.1
    rw [foldl_append, getLastD_concat, check_eq_tooOld_iff, foldl_cons, foldl_nil, holdest] at hold
    exact Nat.lt_irrefl 0 (hold.mpr (by decide))
  have hsorted : (front ++ [last]).Pairwise (· < ·) := hchain.pairwise.of_cons
  intro slot hslot
  refine lt_of_le_of_ne (hu64 slot hslot) fun heq => hlast ?_
  rcases mem_append.mp hslot with hfront | hend
  · have hlt := (pairwise_append.mp hsorted).2.2 slot hfront last (mem_singleton_self last)
    exact le_antisymm (hu64 last (by simp)) (heq ▸ hlt.le)
  · rw [← mem_singleton.mp hend, heq]

theorem check_exact_two : ([2, 5].foldl SlotHistory.add default).check 3 = .notFound :=
  ((@check_exact_iff [2, 5] (by decide) (by decide)).mpr (by decide) 3).2.2 (by decide)
    (by decide) |>.2.mpr (by decide)

/-- After the largest slot the counter is zero, and no slot is too old. -/
theorem check_wrapped :
    (default.add u64Max).check 0 = .notFound ∧ 0 + maxEntries ≤ u64Max := by
  decide

end Window
end SlotHistory

namespace Consensus

/-- `TowerError`, as far as the modelled functions return it. -/
inductive TowerError where
  | tooOldTower (lastVotedSlot oldest : Slot)
  | fatallyInconsistent (reason : String)
deriving DecidableEq

/-- How the adjustment of a tower fails: an assertion, or an error. -/
inductive AdjustFailure where
  | panic
  | error (e : TowerError)
deriving DecidableEq

def assert (p : Prop) [Decidable p] : Except AdjustFailure Unit :=
  if p then .ok () else .error .panic

/-- The variables of the walk of `adjust_lockouts_with_slot_history`. -/
structure AdjustWalk where
  stillInFuture : Bool
  pastOutsideHistory : Bool
  checkedSlot : Option Slot
  anchoredSlot : Option Slot
  retainFlagsInReverse : List Bool
deriving DecidableEq

namespace AdjustWalk

def start : AdjustWalk where
  stillInFuture := true
  pastOutsideHistory := false
  checkedSlot := none
  anchoredSlot := none
  retainFlagsInReverse := []

/-- The anchor is the first slot that is found. -/
def anchor (anchoredSlot : Option Slot) (check : Check) (slot : Slot) :
    Except AdjustFailure (Option Slot) :=
  match anchoredSlot with
  | none => .ok (if check = .found then some slot else none)
  | some anchored =>
    if check = .notFound then .error (.error (.fatallyInconsistent "diverged ancestor?"))
    else .ok (some anchored)

/-- Slots in the future come first. -/
def leaveFuture (stillInFuture : Bool) (check : Check) : Except AdjustFailure Bool :=
  if !stillInFuture ∧ check = .future then
    .error (.error (.fatallyInconsistent "time warped?"))
  else .ok (stillInFuture && check = .future)

/-- Slots that are too old come last. -/
def leaveHistory (pastOutsideHistory : Bool) (check : Check) : Except AdjustFailure Bool :=
  if pastOutsideHistory ∧ check ≠ .tooOld then
    .error (.error (.fatallyInconsistent "not too old once after got too old?"))
  else .ok (pastOutsideHistory || check = .tooOld)

/-- The slots fall; only a vote for the root may repeat the root. -/
def checkOrder (towerRoot : Slot) (checkedSlot : Option Slot) (slot : Slot) :
    Except AdjustFailure Unit :=
  match checkedSlot with
  | none => .ok ()
  | some checked => assert (slot = checked ∧ slot = towerRoot ∨ slot < checked)

def visit (history : SlotHistory) (towerRoot : Slot) (w : AdjustWalk) (slot : Slot) :
    Except AdjustFailure AdjustWalk := do
  let check := history.check slot
  let anchoredSlot ← anchor w.anchoredSlot check slot
  let stillInFuture ← leaveFuture w.stillInFuture check
  let pastOutsideHistory ← leaveHistory w.pastOutsideHistory check
  let _ ← checkOrder towerRoot w.checkedSlot slot
  return {
    stillInFuture
    pastOutsideHistory
    checkedSlot := some slot
    anchoredSlot
    retainFlagsInReverse := w.retainFlagsInReverse ++ [anchoredSlot.isNone] }

variable {history : SlotHistory} {towerRoot slot : Slot} {w w' : AdjustWalk} {slots : List Slot}

/-- What a slot makes of the variables when no check fails. -/
def after (history : SlotHistory) (w : AdjustWalk) (slot : Slot) : AdjustWalk :=
  let anchoredSlot := w.anchoredSlot.or (if history.check slot = .found then some slot else none)
  { stillInFuture := w.stillInFuture && history.check slot = .future
    pastOutsideHistory := w.pastOutsideHistory || history.check slot = .tooOld
    checkedSlot := some slot
    anchoredSlot
    retainFlagsInReverse := w.retainFlagsInReverse ++ [anchoredSlot.isNone] }

theorem assert_ok_iff {p : Prop} [Decidable p] {u : Unit} : assert p = .ok u ↔ p := by
  unfold assert
  split_ifs with hp <;> simp [hp]

theorem visit_ok_iff :
    visit history towerRoot w slot = .ok w' ↔
      (w.anchoredSlot.isSome → history.check slot ≠ .notFound) ∧
      (history.check slot = .future → w.stillInFuture = true) ∧
      (w.pastOutsideHistory = true → history.check slot = .tooOld) ∧
      (∀ checked, w.checkedSlot = some checked → slot = checked ∧ slot = towerRoot ∨
        slot < checked) ∧
      w' = w.after history slot := by
  have hanchor : ∀ a, anchor w.anchoredSlot (history.check slot) slot = .ok a ↔
      (w.anchoredSlot.isSome → history.check slot ≠ .notFound) ∧
        a = w.anchoredSlot.or (if history.check slot = .found then some slot else none) := by
    intro a
    unfold anchor
    cases w.anchoredSlot with
    | none => simp [eq_comm]
    | some anchored =>
      rw [ite_error_ok_iff]
      simp [eq_comm]
  have hfuture : ∀ b, leaveFuture w.stillInFuture (history.check slot) = .ok b ↔
      (history.check slot = .future → w.stillInFuture = true) ∧
        b = (w.stillInFuture && history.check slot = .future) := by
    intro b
    unfold leaveFuture
    rw [ite_error_ok_iff]
    cases w.stillInFuture <;> simp [eq_comm]
  have hhistory : ∀ b, leaveHistory w.pastOutsideHistory (history.check slot) = .ok b ↔
      (w.pastOutsideHistory = true → history.check slot = .tooOld) ∧
        b = (w.pastOutsideHistory || history.check slot = .tooOld) := by
    intro b
    unfold leaveHistory
    rw [ite_error_ok_iff]
    cases w.pastOutsideHistory <;> simp [eq_comm]
  have horder : ∀ u, checkOrder towerRoot w.checkedSlot slot = .ok u ↔
      ∀ checked, w.checkedSlot = some checked → slot = checked ∧ slot = towerRoot ∨
        slot < checked := by
    intro u
    unfold checkOrder
    cases w.checkedSlot with
    | none => simp
    | some checked => simp [assert_ok_iff]
  unfold visit
  simp only [bind_ok_iff, hanchor, hfuture, hhistory, horder]
  constructor
  · rintro ⟨_, ⟨ha, rfl⟩, _, ⟨hf, rfl⟩, _, ⟨hh, rfl⟩, _, ho, hw⟩
    exact ⟨ha, hf, hh, ho, (ok.inj hw).symm⟩
  · rintro ⟨ha, hf, hh, ho, rfl⟩
    exact ⟨_, ⟨ha, rfl⟩, _, ⟨hf, rfl⟩, _, ⟨hh, rfl⟩, (), ho, rfl⟩

def walked (history : SlotHistory) (slots : List Slot) : AdjustWalk :=
  slots.foldl (after history) start

/-- Slots of a tower from the newest one: they fall, except that the root may repeat. -/
def Falling (towerRoot : Slot) (slots : List Slot) : Prop :=
  slots.IsChain (fun checked slot => slot = checked ∧ slot = towerRoot ∨ slot < checked)

theorem Falling.pairwise (h : Falling towerRoot slots) : slots.Pairwise (fun a b => b ≤ a) := by
  have : IsTrans Slot (fun a b => b ≤ a) := ⟨fun _ _ _ h h' => le_trans h' h⟩
  refine (h.imp fun a b hab => ?_).pairwise
  exact hab.elim (fun h => le_of_eq h.1) le_of_lt

theorem walked_concat (history : SlotHistory) (slots : List Slot) (slot : Slot) :
    walked history (slots ++ [slot]) = (walked history slots).after history slot := by
  unfold walked
  rw [foldl_append]
  rfl

theorem walked_fields (history : SlotHistory) (slots : List Slot) :
    ((walked history slots).stillInFuture = true ↔ ∀ a ∈ slots, history.check a = .future) ∧
    ((walked history slots).pastOutsideHistory = true ↔ ∃ a ∈ slots, history.check a = .tooOld) ∧
    (walked history slots).checkedSlot = slots.getLast? ∧
    ((walked history slots).anchoredSlot.isSome ↔ ∃ a ∈ slots, history.check a = .found) ∧
    (walked history slots).retainFlagsInReverse.length = slots.length := by
  induction slots using reverseRecOn with
  | nil => simp [walked, start]
  | append_singleton slots slot ih =>
    obtain ⟨hfuture, hold, _, hfound, hlength⟩ := ih
    rw [walked_concat]
    refine ⟨?_, ?_, ?_, ?_, ?_⟩
    · simp [after, hfuture, or_imp, forall_and]
    · simp [after, hold, or_and_right, exists_or]
    · simp [after]
    · simp only [after, isSome_or, Bool.or_eq_true, hfound]
      by_cases hslot : history.check slot = .found
      · simp [hslot]
      · simp [hslot, or_and_right, exists_or]
    · simp [after, hlength]

/-- The walk returns exactly if the slots fall and no slot below the first shared one is
missing in the history.  The future and the past are then in order by themselves. -/
theorem walk_ok_iff :
    slots.foldlM (visit history towerRoot) start = .ok w ↔ Falling towerRoot slots ∧
      slots.Pairwise (fun a b => history.check a = .found → history.check b ≠ .notFound) ∧
      w = walked history slots := by
  induction slots using reverseRecOn generalizing w with
  | nil =>
    constructor
    · intro h
      exact ⟨isChain_nil, List.Pairwise.nil, (ok.inj h).symm⟩
    · rintro ⟨_, _, rfl⟩
      rfl
  | append_singleton slots slot ih =>
    obtain ⟨hfuture, hold, hchecked, hfound, _⟩ := walked_fields history slots
    have hfalling : Falling towerRoot (slots ++ [slot]) ↔ Falling towerRoot slots ∧
        ∀ checked, slots.getLast? = some checked →
          slot = checked ∧ slot = towerRoot ∨ slot < checked := by
      unfold Falling
      rw [isChain_append]
      simp
    rw [foldlM_append, pairwise_append, hfalling, walked_concat]
    simp only [bind_ok_iff, foldlM_cons, foldlM_nil]
    constructor
    · rintro ⟨w₁, hw₁, w₂, hvisit, hw⟩
      obtain ⟨hslots, hconsistent, rfl⟩ := ih.mp hw₁
      obtain ⟨hanchor, _, _, horder, rfl⟩ := visit_ok_iff.mp hvisit
      refine ⟨⟨hslots, fun checked h => horder checked (hchecked.trans h)⟩,
        ⟨hconsistent, pairwise_singleton _ _, ?_⟩, (ok.inj hw).symm⟩
      intro a ha b hb hfa
      rw [mem_singleton.mp hb]
      exact hanchor (hfound.mpr ⟨a, ha, hfa⟩)
    · rintro ⟨⟨hslots, horder⟩, ⟨hconsistent, _, hlast⟩, rfl⟩
      have hle : ∀ a ∈ slots, slot ≤ a := fun a ha =>
        (pairwise_append.mp (hfalling.mpr ⟨hslots, horder⟩).pairwise).2.2 a ha slot
          (mem_singleton_self slot)
      refine ⟨_, ih.mpr ⟨hslots, hconsistent, rfl⟩, _, visit_ok_iff.mpr ⟨?_, ?_, ?_, ?_, rfl⟩, rfl⟩
      · intro h
        obtain ⟨a, ha, hfa⟩ := hfound.mp h
        exact hlast a ha slot (mem_singleton_self slot) hfa
      · rw [hfuture]
        intro h a ha
        rw [SlotHistory.check_eq_future_iff] at h ⊢
        exact lt_of_lt_of_le h (hle a ha)
      · rw [hold]
        rintro ⟨a, ha, h⟩
        rw [SlotHistory.check_eq_tooOld_iff] at h ⊢
        exact lt_of_le_of_lt (hle a ha) h
      · exact fun checked h => horder checked (hchecked.symm.trans h)

def fresh (history : SlotHistory) (slots : List Slot) : List Slot :=
  slots.takeWhile (fun a => decide (history.check a ≠ .found))

/-- From some point on: the flags are set before the anchor, and not from it on. -/
theorem foldl_after_flags (history : SlotHistory) (slots : List Slot) (w : AdjustWalk) :
    (slots.foldl (after history) w).retainFlagsInReverse = w.retainFlagsInReverse ++
      if w.anchoredSlot.isSome then List.replicate slots.length false
      else List.replicate (fresh history slots).length true ++
        List.replicate (slots.length - (fresh history slots).length) false := by
  induction slots generalizing w with
  | nil => cases w.anchoredSlot <;> simp [fresh]
  | cons slot slots ih =>
    rw [foldl_cons, ih]
    cases hanchored : w.anchoredSlot with
    | some anchored => simp [after, hanchored, replicate_succ]
    | none =>
      by_cases hfound : history.check slot = .found <;>
        simp [after, fresh, hanchored, hfound, replicate_succ]

theorem walked_flags (history : SlotHistory) (slots : List Slot) :
    (walked history slots).retainFlagsInReverse =
      List.replicate (fresh history slots).length true ++
        List.replicate (slots.length - (fresh history slots).length) false :=
  foldl_after_flags history slots start

end AdjustWalk

namespace Tower

/-- `retain` with one flag for each vote; running out of flags would panic. -/
def retainFlagged : List LandedVote → List Bool → Except AdjustFailure (List LandedVote)
  | [], _ => .ok []
  | _ :: _, [] => .error .panic
  | v :: votes, flag :: flags => do
      let kept ← retainFlagged votes flags
      return if flag then v :: kept else kept

def unwrapRoot (t : Tower) : Except AdjustFailure Slot :=
  match t.root with
  | none => .error .panic
  | some root => .ok root

/-- The end of `adjust_lockouts_with_slot_history`: the last vote is reset if no vote is left. -/
def finishAdjust (t : Tower) (votes : List LandedVote) : Except AdjustFailure Tower := do
  let t := { t with voteState := { t.voteState with votes } }
  if votes.isEmpty then return { t with lastVote := .vote Vote.default }
  else
    let _ ← assert (t.lastVotedSlot = t.votedSlots.getLast?)
    return { t with strayRestoredSlot := t.lastVote.lastVotedSlot }

/-- An anchor is needed. -/
def checkAnchored (anchoredSlot : Option Slot) : Except AdjustFailure Unit :=
  if anchoredSlot.isNone then
    .error (.error (.fatallyInconsistent "no common slot for rooted tower"))
  else .ok ()

def adjustLockoutsWithSlotHistory (t : Tower) (history : SlotHistory) :
    Except AdjustFailure Tower := do
  let towerRoot ← t.unwrapRoot
  let slotsInTower := towerRoot :: t.votedSlots
  let w ← slotsInTower.reverse.foldlM (AdjustWalk.visit history towerRoot) AdjustWalk.start
  let _ ← checkAnchored w.anchoredSlot
  let _ ← assert (slotsInTower.length = w.retainFlagsInReverse.length)
  -- the flag of the root is dropped
  let votes ← retainFlagged t.voteState.votes w.retainFlagsInReverse.dropLast.reverse
  t.finishAdjust votes

def initializeRoot (t : Tower) (root : Slot) : Tower :=
  { t with voteState := { t.voteState with rootSlot := some root } }

/-- A tower whose last vote is too old is refused. -/
def checkNotTooOld (history : SlotHistory) (lastVotedSlot : Slot) : Except AdjustFailure Unit :=
  if history.check lastVotedSlot = .tooOld then
    .error (.error (.tooOldTower lastVotedSlot history.oldest))
  else .ok ()

def adjustLockoutsAfterReplay (t : Tower) (replayedRoot : Slot) (history : SlotHistory) :
    Except AdjustFailure Tower := do
  let towerRoot ← t.unwrapRoot
  let _ ← assert (history.check replayedRoot = .found)
  let empty : VoteTransaction := .voteStateUpdate VoteStateUpdate.default
  let _ ← assert (t.lastVote = empty ∧ t.voteState.votes = [] ∨
    t.lastVote ≠ empty ∧ t.voteState.votes ≠ [])
  match t.lastVotedSlot with
  | some lastVotedSlot =>
    if towerRoot ≤ replayedRoot then
      let _ ← checkNotTooOld history lastVotedSlot
      let t ← t.adjustLockoutsWithSlotHistory history
      return t.initializeRoot replayedRoot
    else t.adjustLockoutsWithSlotHistory (history.add towerRoot)
  | none =>
    let _ ← assert (towerRoot = replayedRoot)
    return t

/-- The vote is newer than every slot of a tower that is found in the history. -/
def NewerThanFound (history : SlotHistory) (slotsInTower : List Slot) (v : LandedVote) : Prop :=
  ∀ a ∈ slotsInTower, history.check a = .found → a < v.slot

instance (history : SlotHistory) (slotsInTower : List Slot) :
    DecidablePred (NewerThanFound history slotsInTower) :=
  fun v => inferInstanceAs (Decidable (∀ a ∈ slotsInTower, history.check a = .found → a < v.slot))

variable {history : SlotHistory} {towerRoot replayedRoot : Slot} {votes : List LandedVote}
  {t t' : Tower}

theorem retainFlagged_replicate (votes : List LandedVote) {m n : Nat}
    (hlength : votes.length = m + n) :
    retainFlagged votes (List.replicate m false ++ List.replicate n true) = .ok (votes.drop m) := by
  induction votes generalizing m n with
  | nil => rw [drop_nil]; rfl
  | cons v votes ih =>
    rw [length_cons] at hlength
    cases m with
    | succ m =>
      rw [replicate_succ, cons_append]
      unfold retainFlagged
      rw [ih (by omega)]
      rfl
    | zero =>
      obtain ⟨n, rfl⟩ : ∃ k, n = k + 1 := ⟨n - 1, by omega⟩
      have hrest := ih (m := 0) (n := n) (by omega)
      rw [replicate_zero, nil_append] at hrest ⊢
      rw [replicate_succ]
      unfold retainFlagged
      rw [hrest]
      rfl

/-- A tower at its anchor: the votes above it are not found, and every other slot is not above
it. -/
structure AnchoredAt (history : SlotHistory) (towerRoot : Slot) (old new : List LandedVote)
    (anchor : Slot) : Prop where
  mem : anchor ∈ towerRoot :: old.map LandedVote.slot
  found : history.check anchor = .found
  old_le : ∀ a ∈ towerRoot :: old.map LandedVote.slot, a ≤ anchor
  new_missing : ∀ v ∈ new, history.check v.slot ≠ .found
  new_lt : ∀ v ∈ new, anchor < v.slot

open AdjustWalk

/-- A tower that falls and has a slot that is found is split by its anchor. -/
theorem exists_anchoredAt
    (hfall : AdjustWalk.Falling towerRoot (towerRoot :: votes.map slot).reverse)
    (hfound : ∃ a ∈ towerRoot :: votes.map slot, history.check a = .found) :
    ∃ old new anchor, votes = old ++ new ∧
      (fresh history (towerRoot :: votes.map slot).reverse).length =
        new.length ∧ AnchoredAt history towerRoot old new anchor := by
  have hsplit := takeWhile_append_dropWhile
    (p := fun a => decide (history.check a ≠ .found))
    (l := (towerRoot :: votes.map slot).reverse)
  change fresh history _ ++ _ = _ at hsplit
  have hmissing : ∀ a ∈ fresh history (towerRoot :: votes.map slot).reverse,
      history.check a ≠ .found := fun a ha => by simpa using mem_takeWhile_imp ha
  have hhead := head?_dropWhile_not (fun a => decide (history.check a ≠ .found))
    (towerRoot :: votes.map slot).reverse
  generalize fresh history _ = new' at *
  cases hold : dropWhile (fun a => decide (history.check a ≠ .found))
      (towerRoot :: votes.map slot).reverse with
  | nil =>
    -- then no slot is found
    obtain ⟨a, ha, hfa⟩ := hfound
    rw [hold, append_nil] at hsplit
    exact absurd hfa (hmissing a (hsplit ▸ mem_reverse.mpr ha))
  | cons anchor old' =>
    rw [hold] at hsplit hhead
    have hanchor : history.check anchor = .found := by simpa using hhead
    have hrev := congrArg reverse hsplit
    rw [reverse_append, reverse_reverse] at hrev
    obtain ⟨rest, hrest⟩ : ∃ rest, (anchor :: old').reverse = towerRoot :: rest := by
      cases hcons : (anchor :: old').reverse with
      | nil => exact absurd hcons (by simp)
      | cons r rest =>
        rw [hcons, cons_append] at hrev
        exact ⟨rest, by rw [(cons.inj hrev).1]⟩
    rw [hrest, cons_append] at hrev
    obtain ⟨old, new, hvotes, hmapOld, hmapNew⟩ := map_eq_append_iff.mp (cons.inj hrev).2.symm
    have hpairwise := hfall.pairwise
    rw [← hsplit, pairwise_append, pairwise_cons] at hpairwise
    have hmemOld : ∀ a, a ∈ towerRoot :: old.map slot ↔ a ∈ anchor :: old' := by
      intro a
      rw [hmapOld, ← hrest, mem_reverse]
    have hmemNew : ∀ v ∈ new, v.slot ∈ new' := by
      intro v hv
      rw [← mem_reverse, ← hmapNew]
      exact mem_map_of_mem hv
    refine ⟨old, new, anchor, hvotes, ?_, ⟨?_, hanchor, ?_, ?_, ?_⟩⟩
    · rw [← length_map slot, hmapNew, length_reverse]
    · exact (hmemOld anchor).mpr mem_cons_self
    · intro a ha
      rcases mem_cons.mp ((hmemOld a).mp ha) with rfl | ha
      · exact le_refl _
      · exact hpairwise.2.1.1 a ha
    · exact fun v hv => hmissing v.slot (hmemNew v hv)
    · intro v hv
      refine lt_of_le_of_ne (hpairwise.2.2 v.slot (hmemNew v hv) anchor mem_cons_self) ?_
      rintro rfl
      exact hmissing v.slot (hmemNew v hv) hanchor

/-- The votes above the anchor are the ones newer than every slot that is found. -/
theorem AnchoredAt.filter_eq {old new : List LandedVote} {anchor : Slot}
    (h : AnchoredAt history towerRoot old new anchor) :
    (old ++ new).filter
      (NewerThanFound history (towerRoot :: (old ++ new).map slot)) = new := by
  have hmem : anchor ∈ towerRoot :: (old ++ new).map slot := by
    rw [map_append, ← cons_append]
    exact mem_append_left _ h.mem
  rw [filter_append, filter_eq_nil_iff.mpr, nil_append, filter_eq_self.mpr]
  · intro v hv
    rw [decide_eq_true_eq]
    intro a ha hfa
    rw [map_append, ← cons_append] at ha
    rcases mem_append.mp ha with ha | ha
    · exact lt_of_le_of_lt (h.old_le a ha) (h.new_lt v hv)
    · obtain ⟨w, hw, rfl⟩ := mem_map.mp ha
      exact absurd hfa (h.new_missing w hw)
  · intro v hv
    rw [decide_eq_true_eq]
    intro hnewer
    have hle := h.old_le v.slot (mem_cons_of_mem _ (mem_map_of_mem hv))
    exact absurd (hnewer anchor hmem h.found) (Nat.not_lt_of_le hle)

theorem retain_walked
    (hfall : AdjustWalk.Falling towerRoot (towerRoot :: votes.map slot).reverse)
    (hfound : ∃ a ∈ towerRoot :: votes.map slot, history.check a = .found) :
    retainFlagged votes (walked history
        (towerRoot :: votes.map slot).reverse).retainFlagsInReverse.dropLast.reverse =
      .ok (votes.filter (NewerThanFound history (towerRoot :: votes.map slot))) := by
  obtain ⟨old, new, anchor, rfl, hlength, hat⟩ := exists_anchoredAt hfall hfound
  have hcount : (towerRoot :: (old ++ new).map slot).reverse.length - new.length =
      old.length + 1 := by
    simp only [length_reverse, length_cons, length_map, length_append]
    omega
  rw [walked_flags, hlength, hcount, replicate_succ', ← append_assoc,
    dropLast_concat, reverse_append, reverse_replicate, reverse_replicate,
    retainFlagged_replicate _ length_append, drop_left, hat.filter_eq]

/-- What `adjust_lockouts_with_slot_history` checks: the slots of the tower fall, one of them is
found, and none below it is missing. -/
structure Anchors (history : SlotHistory) (towerRoot : Slot) (votes : List LandedVote) : Prop where
  falling : AdjustWalk.Falling towerRoot (towerRoot :: votes.map LandedVote.slot).reverse
  consistent : (towerRoot :: votes.map LandedVote.slot).reverse.Pairwise
    (fun a b => history.check a = .found → history.check b ≠ .notFound)
  found : ∃ a ∈ towerRoot :: votes.map LandedVote.slot, history.check a = .found

def keptVotes (history : SlotHistory) (towerRoot : Slot) (t : Tower) : List LandedVote :=
  t.voteState.votes.filter (NewerThanFound history (towerRoot :: t.votedSlots))

def adjusted (t : Tower) (votes : List LandedVote) : Tower :=
  if votes = [] then
    { t with voteState := { t.voteState with votes := [] }, lastVote := .vote Vote.default }
  else
    { t with
      voteState := { t.voteState with votes }
      strayRestoredSlot := t.lastVote.lastVotedSlot }

theorem unwrapRoot_ok_iff : t.unwrapRoot = .ok towerRoot ↔ t.root = some towerRoot := by
  unfold unwrapRoot
  cases t.root <;> simp

theorem finishAdjust_ok_iff :
    t.finishAdjust votes = .ok t' ↔ (votes ≠ [] → t.lastVotedSlot = (votes.map slot).getLast?) ∧
        t' = t.adjusted votes := by
  unfold finishAdjust adjusted
  cases votes with
  | nil =>
    simp only [isEmpty_nil, if_true, ne_eq, not_true_eq_false, false_implies, true_and]
    exact ⟨fun h => (ok.inj h).symm, fun h => congrArg ok h.symm⟩
  | cons v votes =>
    simp only [isEmpty_cons, Bool.false_eq_true, if_false, ne_eq, reduceCtorEq,
      not_false_eq_true, true_implies, bind_ok_iff, assert_ok_iff]
    constructor
    · rintro ⟨_, hlast, h⟩
      exact ⟨hlast, (ok.inj h).symm⟩
    · rintro ⟨hlast, rfl⟩
      exact ⟨(), hlast, rfl⟩

theorem adjustWith_ok_iff :
    t.adjustLockoutsWithSlotHistory history = .ok t' ↔
      ∃ towerRoot, t.root = some towerRoot ∧ Anchors history towerRoot t.voteState.votes ∧
        (t.keptVotes history towerRoot ≠ [] →
          t.lastVotedSlot = ((t.keptVotes history towerRoot).map slot).getLast?) ∧
        t' = t.adjusted (t.keptVotes history towerRoot) := by
  have hsome : ∀ {slots : List Slot}, checkAnchored (walked history slots).anchoredSlot =
      .ok () ↔ ∃ a ∈ slots, history.check a = .found := by
    intro slots
    rw [← (walked_fields history slots).2.2.2.1]
    unfold checkAnchored
    simp [isSome_iff_ne_none]
  unfold adjustLockoutsWithSlotHistory
  simp only [bind_ok_iff, unwrapRoot_ok_iff, walk_ok_iff, assert_ok_iff, finishAdjust_ok_iff]
  constructor
  · rintro ⟨towerRoot, hroot, w, ⟨hfall, hconsistent, rfl⟩, _, hanchored, _, _, votes,
      hvotes, hfinish⟩
    obtain ⟨a, ha, hfa⟩ := hsome.mp hanchored
    have hfound : ∃ a ∈ towerRoot :: t.votedSlots, history.check a = .found :=
      ⟨a, mem_reverse.mp ha, hfa⟩
    have hkept : votes = t.keptVotes history towerRoot :=
      ok.inj (hvotes.symm.trans (retain_walked hfall hfound))
    rw [hkept] at hfinish
    exact ⟨towerRoot, hroot, ⟨hfall, hconsistent, hfound⟩, hfinish⟩
  · rintro ⟨towerRoot, hroot, hanchors, hfinish⟩
    obtain ⟨a, ha, hfa⟩ := hanchors.found
    refine ⟨towerRoot, hroot, _, ⟨hanchors.falling, hanchors.consistent, rfl⟩, (),
      hsome.mpr ⟨a, mem_reverse.mpr ha, hfa⟩, (), ?_, _,
      retain_walked hanchors.falling hanchors.found, hfinish⟩
    rw [(walked_fields history _).2.2.2.2, length_reverse]

/-- The entry assertion: a tower has a last vote exactly if it has votes. -/
def Entry (t : Tower) : Prop :=
  t.lastVote = .voteStateUpdate VoteStateUpdate.default ∧ t.voteState.votes = [] ∨
    t.lastVote ≠ .voteStateUpdate VoteStateUpdate.default ∧ t.voteState.votes ≠ []

theorem adjustAfterReplay_ok_iff :
    t.adjustLockoutsAfterReplay replayedRoot history = .ok t' ↔
      ∃ towerRoot, t.root = some towerRoot ∧ history.check replayedRoot = .found ∧ t.Entry ∧
        ((∃ last, t.lastVotedSlot = some last ∧ towerRoot ≤ replayedRoot ∧
            history.check last ≠ .tooOld ∧
            ∃ u, t.adjustLockoutsWithSlotHistory history = .ok u ∧
              t' = u.initializeRoot replayedRoot) ∨
          (∃ last, t.lastVotedSlot = some last ∧ replayedRoot < towerRoot ∧
            t.adjustLockoutsWithSlotHistory (history.add towerRoot) = .ok t') ∨
          t.lastVotedSlot = none ∧ towerRoot = replayedRoot ∧ t' = t) := by
  unfold adjustLockoutsAfterReplay
  simp only [bind_ok_iff, unwrapRoot_ok_iff, assert_ok_iff, exists_const]
  refine exists_congr fun towerRoot => and_congr_right fun _ => and_congr_right fun _ =>
    and_congr_right fun _ => ?_
  cases t.lastVotedSlot with
  | none =>
    simp only [bind_ok_iff, assert_ok_iff, exists_const, reduceCtorEq,
      false_and, false_or, true_and]
    exact and_congr_right fun _ =>
      ⟨fun h => (ok.inj h).symm, fun h => congrArg ok h.symm⟩
  | some last =>
    by_cases hle : towerRoot ≤ replayedRoot
    · have hlt : ¬replayedRoot < towerRoot := Nat.not_lt_of_le hle
      simp only [hle, hlt, if_true, bind_ok_iff, checkNotTooOld,
        ite_error_ok_iff, exists_const, some.injEq, exists_eq_left', true_and,
        false_and, and_false, reduceCtorEq, or_false, and_true]
      refine and_congr_right fun _ => exists_congr fun u => and_congr_right fun _ => ?_
      exact ⟨fun h => (ok.inj h).symm, fun h => congrArg ok h.symm⟩
    · have hlt : replayedRoot < towerRoot := Nat.lt_of_not_le hle
      simp [hle, hlt]

section Repeat
variable {s : Tower}
@[simp] theorem adjusted_votes (t : Tower) (votes : List LandedVote) :
    (t.adjusted votes).voteState.votes = votes := by
  unfold adjusted
  split_ifs with hnil
  · exact hnil.symm
  · rfl

@[simp] theorem adjusted_root (t : Tower) (votes : List LandedVote) :
    (t.adjusted votes).root = t.root := by
  unfold adjusted
  split_ifs <;> rfl

theorem adjusted_lastVote (h : votes ≠ []) : (t.adjusted votes).lastVote = t.lastVote := by
  unfold adjusted
  rw [if_neg h]

theorem adjusted_votedSlots (t : Tower) (votes : List LandedVote) :
    (t.adjusted votes).votedSlots = votes.map slot := congrArg _ (adjusted_votes t votes)

theorem adjusted_lastVotedSlot
    (h : votes ≠ [] → t.lastVotedSlot = (votes.map slot).getLast?) :
    (t.adjusted votes).lastVotedSlot = (t.adjusted votes).votedSlots.getLast? := by
  rw [adjusted_votedSlots]
  by_cases hnil : votes = []
  · subst hnil
    rfl
  · unfold lastVotedSlot
    rw [adjusted_lastVote hnil]
    exact h hnil

/-- What saving a tower and restoring it keeps; latencies and the stray slot are not saved. -/
structure SavedAs (t s : Tower) : Prop where
  lockouts : s.voteState.votes.map LandedVote.lockout = t.voteState.votes.map LandedVote.lockout
  root : s.root = t.root
  lastVote : s.lastVote = t.lastVote

theorem SavedAs.votedSlots (h : SavedAs t s) : s.votedSlots = t.votedSlots := by
  have hmap : ∀ votes : List LandedVote, votes.map slot = (votes.map lockout).map Lockout.slot :=
    fun votes => (List.map_map).symm
  unfold Tower.votedSlots
  rw [hmap, h.lockouts, ← hmap]

theorem SavedAs.lastVotedSlot (h : SavedAs t s) : s.lastVotedSlot = t.lastVotedSlot := by
  unfold Tower.lastVotedSlot
  rw [h.lastVote]

/-- Votes above the anchor, with a root that is found below them. -/
theorem anchors_of_above (hstrict : (votes.map slot).reverse.IsChain (fun a b => b < a))
    (hmissing : ∀ a ∈ votes.map slot, history.check a ≠ .found)
    (hroot : history.check towerRoot = .found)
    (habove : ∀ a ∈ votes.map slot, towerRoot < a) :
    Anchors history towerRoot votes ∧
      votes.filter (NewerThanFound history (towerRoot :: votes.map slot)) = votes := by
  refine ⟨⟨?_, ?_, towerRoot, mem_cons_self, hroot⟩, ?_⟩
  · rw [AdjustWalk.Falling, reverse_cons, isChain_append]
    refine ⟨hstrict.imp fun _ _ => .inr, isChain_singleton _, ?_⟩
    intro a ha b hb
    rw [head?_singleton, mem_def, some.injEq] at hb
    exact .inr (hb ▸ habove a (mem_reverse.mp (mem_of_getLast? ha)))
  · rw [reverse_cons, pairwise_append]
    have hnew : ∀ a ∈ (votes.map slot).reverse, history.check a ≠ .found :=
      fun a ha => hmissing a (mem_reverse.mp ha)
    refine ⟨?_, pairwise_singleton _ _, fun a ha _ _ hfa => absurd hfa (hnew a ha)⟩
    exact pairwise_of_forall_mem_list fun a ha _ _ hfa => absurd hfa (hnew a ha)
  · rw [filter_eq_self]
    intro v hv
    rw [decide_eq_true_eq]
    intro a ha hfa
    rcases mem_cons.mp ha with rfl | ha
    · exact habove v.slot (mem_map_of_mem hv)
    · exact absurd hfa (hmissing a ha)

theorem AnchoredAt.strict {old new : List LandedVote} {anchor : Slot}
    (h : AnchoredAt history towerRoot old new anchor)
    (hfall : AdjustWalk.Falling towerRoot
      (towerRoot :: (old ++ new).map slot).reverse) :
    (new.map slot).reverse.IsChain (fun a b => b < a) := by
  rw [map_append, ← cons_append, reverse_append, AdjustWalk.Falling, isChain_append] at hfall
  rw [isChain_iff_getElem]
  intro i hi
  refine (isChain_iff_getElem.mp hfall.1 i hi).resolve_left fun heq => ?_
  -- the root does not repeat above the anchor
  obtain ⟨v, hv, hslot⟩ := mem_map.mp (mem_reverse.mp (getElem_mem hi))
  have habove := lt_of_le_of_lt (h.old_le towerRoot mem_cons_self) (h.new_lt v hv)
  exact absurd (hslot.trans heq.2) (ne_of_gt habove)

/-- Votes that are not found, above a root that is found: the adjustment keeps them. -/
structure Settled (history : SlotHistory) (towerRoot : Slot) (t : Tower) : Prop where
  root : t.root = some towerRoot
  votes : t.voteState.votes ≠ []
  strict : t.votedSlots.reverse.IsChain (fun a b => b < a)
  missing : ∀ a ∈ t.votedSlots, history.check a ≠ .found
  rootFound : history.check towerRoot = .found
  above : ∀ a ∈ t.votedSlots, towerRoot < a
  lastVote : t.lastVote ≠ .voteStateUpdate VoteStateUpdate.default
  last : t.lastVotedSlot = t.votedSlots.getLast?

theorem SavedAs.settled (hs : SavedAs t s) (h : t.Settled history towerRoot) :
    s.Settled history towerRoot where
  root := hs.root.trans h.root
  votes := by
    intro hnil
    have hlockouts := hs.lockouts
    rw [hnil, map_nil, eq_comm, map_eq_nil_iff] at hlockouts
    exact h.votes hlockouts
  strict := hs.votedSlots.symm ▸ h.strict
  missing := hs.votedSlots.symm ▸ h.missing
  rootFound := h.rootFound
  above := hs.votedSlots.symm ▸ h.above
  lastVote := hs.lastVote.symm ▸ h.lastVote
  last := by
    rw [hs.lastVotedSlot, hs.votedSlots]
    exact h.last

theorem Settled.adjustWith (h : s.Settled history towerRoot) :
    s.adjustLockoutsWithSlotHistory history = .ok (s.adjusted s.voteState.votes) := by
  obtain ⟨hanchors, hkept⟩ := anchors_of_above h.strict h.missing h.rootFound h.above
  have hkept' : s.keptVotes history towerRoot = s.voteState.votes := hkept
  refine adjustWith_ok_iff.mpr ⟨towerRoot, h.root, hanchors, ?_, ?_⟩
  · rw [hkept']
    exact fun _ => h.last
  · rw [hkept']

theorem Settled.exists_last (h : s.Settled history towerRoot) :
    ∃ last, s.lastVotedSlot = some last := by
  rw [h.last]
  cases hlast : s.votedSlots.getLast? with
  | some last => exact ⟨last, rfl⟩
  | none =>
    rw [getLast?_eq_none_iff, votedSlots, map_eq_nil_iff] at hlast
    exact absurd hlast h.votes

/-- Calling `adjust_lockouts_after_replay` again, also after saving and restoring the tower,
returns the same votes. -/
def Repeats (t : Tower) (replayedRoot : Slot) (history : SlotHistory) : Prop :=
  ∀ s, SavedAs t s → ∃ t', s.adjustLockoutsAfterReplay replayedRoot history = .ok t' ∧
    t'.voteState.votes = s.voteState.votes

/-- A tower without votes whose last vote is not the default update fails on entry. -/
theorem not_repeats_of_adjusted_nil (hvotes : t.voteState.votes = [])
    (hlast : t.lastVote = .vote Vote.default) : ¬t.Repeats replayedRoot history := by
  intro h
  obtain ⟨t', hok, _⟩ := h t ⟨rfl, rfl, rfl⟩
  obtain ⟨_, _, _, hentry, _⟩ := adjustAfterReplay_ok_iff.mp hok
  rcases hentry with ⟨hdefault, _⟩ | ⟨_, hne⟩
  · exact absurd (hlast.symm.trans hdefault) (by decide)
  · exact hne hvotes

theorem Settled.repeats_of_eq (h : t.Settled history replayedRoot)
    (hnotOld : ∀ last, t.lastVotedSlot = some last → history.check last ≠ .tooOld) :
    t.Repeats replayedRoot history := by
  intro s hs
  have h' := hs.settled h
  obtain ⟨last, hlast⟩ := h'.exists_last
  refine ⟨(s.adjusted s.voteState.votes).initializeRoot replayedRoot, ?_, adjusted_votes s _⟩
  refine adjustAfterReplay_ok_iff.mpr ⟨replayedRoot, h'.root, h.rootFound,
    .inr ⟨h'.lastVote, h'.votes⟩, .inl ⟨last, hlast, le_refl _, ?_, _, h'.adjustWith, rfl⟩⟩
  exact hnotOld last (hs.lastVotedSlot ▸ hlast)

theorem Settled.repeats_of_lt (h : t.Settled (history.add towerRoot) towerRoot)
    (hlt : replayedRoot < towerRoot) (hfound : history.check replayedRoot = .found) :
    t.Repeats replayedRoot history := by
  intro s hs
  have h' := hs.settled h
  obtain ⟨last, hlast⟩ := h'.exists_last
  refine ⟨s.adjusted s.voteState.votes, ?_, adjusted_votes s _⟩
  exact adjustAfterReplay_ok_iff.mpr ⟨towerRoot, h'.root, hfound,
    .inr ⟨h'.lastVote, h'.votes⟩, .inr (.inl ⟨last, hlast, hlt, h'.adjustWith⟩)⟩

/-- When the root is the replayed root, votes that are not found have to be above it. -/
theorem Repeats.above (h : t.Repeats replayedRoot history) (hroot : t.root = some replayedRoot)
    (hvotes : t.voteState.votes ≠ []) (hlast : t.lastVotedSlot = t.votedSlots.getLast?)
    (hfound : history.check replayedRoot = .found)
    (hmissing : ∀ v ∈ t.voteState.votes, history.check v.slot ≠ .found) :
    ∀ v ∈ t.voteState.votes, replayedRoot < v.slot := by
  intro v hv
  obtain ⟨t', hok, _⟩ := h t ⟨rfl, rfl, rfl⟩
  obtain ⟨towerRoot, hroot', _, _, hcases⟩ := adjustAfterReplay_ok_iff.mp hok
  obtain rfl := some.inj (hroot.symm.trans hroot')
  rcases hcases with ⟨_, _, _, _, u, hu, _⟩ | ⟨_, _, hlt, _⟩ | ⟨hnone, _⟩
  · obtain ⟨towerRoot, hroot', hanchors, _⟩ := adjustWith_ok_iff.mp hu
    obtain rfl := some.inj (hroot.symm.trans hroot')
    have hpairwise := hanchors.falling.pairwise
    rw [reverse_cons, pairwise_append] at hpairwise
    refine lt_of_le_of_ne (hpairwise.2.2 v.slot ?_ _ (mem_singleton_self _)) ?_
    · exact mem_reverse.mpr (mem_map_of_mem hv)
    · rintro rfl
      exact hmissing v hv hfound
  · exact absurd hlt (lt_irrefl _)
  · rw [hlast, getLast?_eq_none_iff, votedSlots, map_eq_nil_iff] at hnone
    exact absurd hnone hvotes

theorem adjustWith_anchored (hroot : t.root = some towerRoot)
    (hok : t.adjustLockoutsWithSlotHistory history = .ok t') :
    ∃ old new anchor, t.voteState.votes = old ++ new ∧ AnchoredAt history towerRoot old new anchor ∧
      (new.map slot).reverse.IsChain (fun a b => b < a) ∧
      t.keptVotes history towerRoot = new ∧ t' = t.adjusted new ∧
      (new ≠ [] → t.lastVotedSlot = (new.map slot).getLast?) := by
  obtain ⟨towerRoot', hroot', hanchors, hlast, ht'⟩ := adjustWith_ok_iff.mp hok
  obtain rfl := some.inj (hroot.symm.trans hroot')
  obtain ⟨old, new, anchor, hvotes, _, hat⟩ := exists_anchoredAt hanchors.falling hanchors.found
  have hkept : t.keptVotes history towerRoot = new := by
    unfold keptVotes votedSlots
    rw [hvotes]
    exact hat.filter_eq
  rw [hkept] at hlast ht'
  exact ⟨old, new, anchor, hvotes, hat, hat.strict (hvotes ▸ hanchors.falling), hkept, ht', hlast⟩

/-- What restoring a tower is for: the votes newer than every slot that is found remain, the last
vote is the last of them, and restoring it again changes nothing. -/
structure Restored (t : Tower) (replayedRoot : Slot) (history : SlotHistory) (t' : Tower) :
    Prop where
  votes : ∀ towerRoot, t.root = some towerRoot →
    t'.voteState.votes = t.keptVotes history towerRoot
  last : t'.lastVotedSlot = t'.votedSlots.getLast?
  again : t'.Repeats replayedRoot history

/-- When a restored tower can be restored again. -/
def Restorable (t : Tower) (replayedRoot : Slot) (history : SlotHistory) : Prop :=
  t.voteState.votes = [] ∨ ∃ towerRoot, t.root = some towerRoot ∧
    (towerRoot ≤ replayedRoot ∧
        (∃ v ∈ t.voteState.votes, NewerThanFound history (towerRoot :: t.votedSlots) v) ∧
        (∀ v ∈ t.voteState.votes, NewerThanFound history (towerRoot :: t.votedSlots) v →
          replayedRoot < v.slot) ∨
      replayedRoot < towerRoot ∧ (∃ v ∈ t.voteState.votes, towerRoot < v.slot) ∧
        ∀ v ∈ t.voteState.votes,
          NewerThanFound history (towerRoot :: t.votedSlots) v ↔ towerRoot < v.slot)

/-- The tower root is not newer than the replayed root. -/
theorem restored_iff_of_le (hroot : t.root = some towerRoot)
    (hfound : history.check replayedRoot = .found) (hentry : t.Entry)
    (hvotes : t.voteState.votes ≠ [])
    (hnotOld : ∀ last, t.lastVotedSlot = some last → history.check last ≠ .tooOld)
    (hok : t.adjustLockoutsWithSlotHistory history = .ok t') :
    Restored t replayedRoot history (t'.initializeRoot replayedRoot) ↔
      t.keptVotes history towerRoot ≠ [] ∧
        ∀ v ∈ t.keptVotes history towerRoot, replayedRoot < v.slot := by
  obtain ⟨old, new, anchor, _, hat, hstrict, hkept, rfl, hlast⟩ := adjustWith_anchored hroot hok
  rw [hkept]
  have hlast' := adjusted_lastVotedSlot hlast
  have hvotes' : ((t.adjusted new).initializeRoot replayedRoot).voteState.votes = new :=
    adjusted_votes t new
  have hslots' : ((t.adjusted new).initializeRoot replayedRoot).votedSlots =
      new.map slot := adjusted_votedSlots t new
  have hlastVote : t.lastVote ≠ .voteStateUpdate VoteStateUpdate.default :=
    (hentry.resolve_left fun h => hvotes h.2).1
  constructor
  · intro h
    have hnew : new ≠ [] := by
      rintro rfl
      exact not_repeats_of_adjusted_nil rfl rfl h.again
    have habove := h.again.above rfl (hvotes'.symm ▸ hnew) h.last hfound
      (hvotes'.symm ▸ hat.new_missing)
    exact ⟨hnew, hvotes' ▸ habove⟩
  · rintro ⟨hnew, habove⟩
    have hsettled : ((t.adjusted new).initializeRoot replayedRoot).Settled history
        replayedRoot := by
      refine ⟨rfl, hvotes'.symm ▸ hnew, hslots'.symm ▸ hstrict, ?_, hfound, ?_, ?_, hlast'⟩
      · rw [hslots']
        simpa using hat.new_missing
      · rw [hslots']
        simpa using habove
      · exact (adjusted_lastVote hnew).symm ▸ hlastVote
    refine ⟨fun towerRoot' hroot' => ?_, hlast', hsettled.repeats_of_eq fun last hlast'' => ?_⟩
    · obtain rfl := some.inj (hroot.symm.trans hroot')
      rw [hvotes', hkept]
    · refine hnotOld last ?_
      unfold lastVotedSlot at hlast'' ⊢
      rwa [← adjusted_lastVote hnew]

/-- The tower root is newer than the replayed root: it is added to the history, and anchors the
tower. -/
theorem restored_iff_of_lt (hroot : t.root = some towerRoot) (hlt : replayedRoot < towerRoot)
    (hfound : history.check replayedRoot = .found) (hentry : t.Entry)
    (hvotes : t.voteState.votes ≠ [])
    (hok : t.adjustLockoutsWithSlotHistory (history.add towerRoot) = .ok t') :
    Restored t replayedRoot history t' ↔ (∃ v ∈ t.voteState.votes, towerRoot < v.slot) ∧
        ∀ v ∈ t.voteState.votes,
          NewerThanFound history (towerRoot :: t.votedSlots) v ↔ towerRoot < v.slot := by
  obtain ⟨old, new, anchor, hsplit, hat, hstrict, _, rfl, hlast⟩ := adjustWith_anchored hroot hok
  have hanchor : anchor = towerRoot := by
    refine le_antisymm ?_ (hat.old_le towerRoot mem_cons_self)
    by_contra hgt
    have hfuture : (history.add towerRoot).check anchor = .future := by
      rw [SlotHistory.check_eq_future_iff, SlotHistory.newest_add]
      exact Nat.lt_of_not_le hgt
    exact absurd (hat.found.symm.trans hfuture) (by decide)
  subst hanchor
  have hmem : ∀ v, v ∈ new ↔ v ∈ t.voteState.votes ∧ anchor < v.slot := by
    intro v
    rw [hsplit, mem_append]
    constructor
    · exact fun hv => ⟨.inr hv, hat.new_lt v hv⟩
    · rintro ⟨hv | hv, habove⟩
      · have hle := hat.old_le v.slot (mem_cons_of_mem _ (mem_map_of_mem hv))
        exact absurd habove (Nat.not_lt_of_le hle)
      · exact hv
  have hnewEq : new = t.voteState.votes.filter (fun v => decide (anchor < v.slot)) := by
    rw [hsplit, filter_append, filter_eq_nil_iff.mpr, nil_append, eq_comm, filter_eq_self]
    · exact fun v hv => decide_eq_true (hat.new_lt v hv)
    · intro v hv
      have hle := hat.old_le v.slot (mem_cons_of_mem _ (mem_map_of_mem hv))
      simpa using hle
  have hkeptIff : new = t.keptVotes history anchor ↔ ∀ v ∈ t.voteState.votes,
      NewerThanFound history (anchor :: t.votedSlots) v ↔ anchor < v.slot := by
    constructor
    · intro heq v hv
      have hiff := hmem v
      rw [heq, keptVotes, mem_filter, decide_eq_true_eq] at hiff
      simpa [hv] using hiff
    · intro hiff
      rw [hnewEq]
      exact filter_congr fun v hv => decide_eq_decide.mpr (hiff v hv).symm
  have hlast' := adjusted_lastVotedSlot hlast
  have hslots' := adjusted_votedSlots t new
  rw [← hkeptIff]
  constructor
  · intro h
    have hkept := h.votes anchor hroot
    rw [adjusted_votes] at hkept
    refine ⟨?_, hkept⟩
    have hnew : new ≠ [] := by
      rintro rfl
      exact not_repeats_of_adjusted_nil rfl rfl h.again
    obtain ⟨v, hv⟩ := exists_mem_of_ne_nil new hnew
    exact ⟨v, (hmem v).mp hv⟩
  · rintro ⟨⟨v, hv⟩, hkept⟩
    have hnew : new ≠ [] := ne_nil_of_mem ((hmem v).mpr hv)
    have hsettled : (t.adjusted new).Settled (history.add anchor) anchor := by
      refine ⟨(adjusted_root t new).trans hroot, (adjusted_votes t new).symm ▸ hnew,
        hslots'.symm ▸ hstrict, ?_, hat.found, ?_, ?_, hlast'⟩
      · rw [hslots']
        simpa using hat.new_missing
      · rw [hslots']
        simpa using hat.new_lt
      · rw [adjusted_lastVote hnew]
        exact (hentry.resolve_left fun h => hvotes h.2).1
    refine ⟨fun towerRoot hroot' => ?_, hlast', hsettled.repeats_of_lt hlt hfound⟩
    obtain rfl := some.inj (hroot.symm.trans hroot')
    rw [adjusted_votes]
    exact hkept

/-- A tower that was restored is sound and can be restored again exactly if it has no votes, or
some vote survives and the surviving votes are newer than the root of the restored tower. -/
theorem adjustLockouts_restored_iff (hwell : t.lastVotedSlot = t.votedSlots.getLast?)
    (hok : t.adjustLockoutsAfterReplay replayedRoot history = .ok t') :
    Restored t replayedRoot history t' ↔ Restorable t replayedRoot history := by
  obtain ⟨towerRoot, hroot, hfound, hentry, hcases⟩ := adjustAfterReplay_ok_iff.mp hok
  have hroots : ∀ {r}, t.root = some r → r = towerRoot := fun h =>
    (some.inj (hroot.symm.trans h)).symm
  by_cases hvotes : t.voteState.votes = []
  · -- without votes nothing happens, and the root is the replayed root
    have hnone : t.lastVotedSlot = none := by
      rw [hwell, votedSlots, hvotes]
      rfl
    rcases hcases with ⟨_, hlast, _⟩ | ⟨_, hlast, _⟩ | ⟨_, rfl, rfl⟩
    · exact absurd (hnone.symm.trans hlast) (by simp)
    · exact absurd (hnone.symm.trans hlast) (by simp)
    refine iff_of_true ⟨fun r _ => ?_, hwell, fun s hs => ⟨s, ?_, rfl⟩⟩ (.inl hvotes)
    · rw [keptVotes, hvotes]
      rfl
    · refine adjustAfterReplay_ok_iff.mpr ⟨towerRoot, hs.root.trans hroot, hfound, ?_,
        .inr (.inr ⟨hs.lastVotedSlot.trans hnone, rfl, rfl⟩)⟩
      have hnil := hs.lockouts
      rw [hvotes, map_nil, map_eq_nil_iff] at hnil
      rcases hentry with ⟨hdefault, _⟩ | ⟨_, hne⟩
      · exact .inl ⟨hs.lastVote.trans hdefault, hnil⟩
      · exact absurd hvotes hne
  · rcases hcases with ⟨last, hlast, hle, hnotOld, u, hu, rfl⟩ | ⟨last, hlast, hlt, hu⟩ | ⟨hnone, _⟩
    · have hnotOld' : ∀ last, t.lastVotedSlot = some last → history.check last ≠ .tooOld :=
        fun l hl => some.inj (hlast.symm.trans hl) ▸ hnotOld
      have hmem : ∀ v, v ∈ t.keptVotes history towerRoot ↔
          v ∈ t.voteState.votes ∧ NewerThanFound history (towerRoot :: t.votedSlots) v := by
        intro v
        rw [keptVotes, mem_filter, decide_eq_true_eq]
      rw [restored_iff_of_le hroot hfound hentry hvotes hnotOld' hu]
      constructor
      · rintro ⟨hne, habove⟩
        obtain ⟨v, hv⟩ := exists_mem_of_ne_nil _ hne
        exact .inr ⟨towerRoot, hroot, .inl ⟨hle, ⟨v, (hmem v).mp hv⟩,
          fun w hw hnewer => habove w ((hmem w).mpr ⟨hw, hnewer⟩)⟩⟩
      · rintro (hnil | ⟨r, hr, ⟨_, ⟨v, hv⟩, habove⟩ | ⟨hlt, _⟩⟩)
        · exact absurd hnil hvotes
        · obtain rfl := hroots hr
          exact ⟨ne_nil_of_mem ((hmem v).mpr hv),
            fun w hw => habove w ((hmem w).mp hw).1 ((hmem w).mp hw).2⟩
        · exact absurd hle (Nat.not_le_of_lt (hroots hr ▸ hlt))
    · rw [restored_iff_of_lt hroot hlt hfound hentry hvotes hu]
      constructor
      · exact fun h => .inr ⟨towerRoot, hroot, .inr ⟨hlt, h⟩⟩
      · rintro (hnil | ⟨r, hr, ⟨hle, _⟩ | ⟨_, h⟩⟩)
        · exact absurd hnil hvotes
        · exact absurd hlt (Nat.not_lt_of_le (hroots hr ▸ hle))
        · exact hroots hr ▸ h
    · rw [hwell, getLast?_eq_none_iff, votedSlots, map_eq_nil_iff] at hnone
      exact absurd hnone hvotes

end Repeat

def votedForOne : Tower where
  voteState := { votes := [⟨0, ⟨1, 1⟩⟩], rootSlot := some 0, epochCredits := [] }
  lastVote :=
    .voteStateUpdate { lockouts := [⟨1, 1⟩], root := some 0, hash := ⟨1⟩, timestamp := none }
  lastTimestamp := ⟨0, 0⟩
  strayRestoredSlot := none

/-- When all votes are found, the last vote is reset to an empty `Vote`, and the entry assertion,
which compares with an empty `VoteStateUpdate`, fails on the result. -/
theorem restored_tower_panics :
    ∃ t', votedForOne.lastVotedSlot = votedForOne.votedSlots.getLast? ∧
      votedForOne.adjustLockoutsAfterReplay 1 (SlotHistory.default.add 1) = .ok t' ∧
      t'.adjustLockoutsAfterReplay 1 (SlotHistory.default.add 1) = .error .panic := by
  refine ⟨(votedForOne.adjusted []).initializeRoot 1, by decide, ?_, ?_⟩
  · decide +kernel
  · decide +kernel

/-- A vote for slot 3 on another fork, above the shared slot 1. -/
def votedForThree : Tower where
  voteState := { votes := [⟨0, ⟨1, 2⟩⟩, ⟨0, ⟨3, 1⟩⟩], rootSlot := some 0, epochCredits := [] }
  lastVote := .voteStateUpdate
    { lockouts := [⟨1, 2⟩, ⟨3, 1⟩], root := some 0, hash := ⟨3⟩, timestamp := none }
  lastTimestamp := ⟨0, 0⟩
  strayRestoredSlot := none

def historyToTwo : SlotHistory := (SlotHistory.default.add 1).add 2

theorem adjustLockouts_restored_three :
    ∃ t', votedForThree.adjustLockoutsAfterReplay 2 historyToTwo = .ok t' ∧
      Restored votedForThree 2 historyToTwo t' := by
  have hok : votedForThree.adjustLockoutsAfterReplay 2 historyToTwo =
      .ok ((votedForThree.adjusted [⟨0, ⟨3, 1⟩⟩]).initializeRoot 2) := by decide +kernel
  refine ⟨_, hok, (adjustLockouts_restored_iff (by decide) hok).mpr ?_⟩
  exact .inr ⟨0, rfl, .inl (by decide +kernel)⟩

end Tower
end Consensus
end Hypergrid
