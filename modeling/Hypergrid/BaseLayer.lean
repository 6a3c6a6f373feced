import Hypergrid.RemoteLoader

/-!
# Loading from a base layer

`load_account` when the RPC client looks keys up in the accounts of a base layer.  An account that
decodes as a program points to another key; `load_account` follows the pointers, and
`deactivate_account` goes back one of them.

* `loadAccountFrom_spec` : a call inserts the answers of the keys that the pointers reach.
* `returns_iff` : a call returns exactly if the pointers do not run into a cycle.
* `undoes_iff` : when deactivating a key takes back what loading it did.
-/

namespace Hypergrid
open Relation Option

/-- The accounts of the base layer. -/
abbrev BaseLayer := Pubkey → Option RpcAccount

namespace RemoteAccountLoader

/-- `load_account` with a bound on the depth of the recursion; `none` if it is not enough. -/
def loadAccountFrom (base : BaseLayer) :
    Nat → RemoteAccountLoader → Pubkey → Option (RemoteAccountLoader × Option AccountSharedData)
  | 0, _, _ => none
  | depth + 1, l, pubkey =>
    if !l.enable || ignoredAccount pubkey then some (l, none)
    else
      match l.loadAccountViaRpc pubkey (base pubkey) with
      | (l', some account) =>
        match hasProgramdataAccount account with
        | some programdataAddress =>
          (loadAccountFrom base depth l' programdataAddress).map (fun r => (r.1, some account))
        | none => some (l', some account)
      | (l', none) => some (l', none)

/-- The account that a call receives.  A loader that is off asks for nothing, and keys that it
ignores are not asked for. -/
def answer (on : Bool) (base : BaseLayer) (k : Pubkey) : Option AccountSharedData :=
  if !on || ignoredAccount k then none else (base k).map remoteAccount

def Points (on : Bool) (base : BaseLayer) (k p : Pubkey) : Prop :=
  (answer on base k).bind hasProgramdataAccount = some p

/-- The keys that `load_account` inserts: those that it reaches and that have an answer. -/
def Inserts (on : Bool) (base : BaseLayer) (k q : Pubkey) : Prop :=
  ReflTransGen (Points on base) k q ∧ answer on base q ≠ none

variable {on : Bool} {base : BaseLayer} {l : RemoteAccountLoader} {k p q : Pubkey} {depth : Nat}
  {a : AccountSharedData} {r : RemoteAccountLoader × Option AccountSharedData}

theorem loadAccountFrom_succ :
    loadAccountFrom base (depth + 1) l k =
      match answer l.enable base k with
      | none => some (l, none)
      | some a =>
        match hasProgramdataAccount a with
        | some p => (loadAccountFrom base depth (l.insert k a) p).map (fun r => (r.1, some a))
        | none => some (l.insert k a, some a) := by
  by_cases hoff : (!l.enable || ignoredAccount k) = true
  · simp only [loadAccountFrom, answer, if_pos hoff]
  · have hig : ¬ignoredAccount k = true := fun hig => hoff (by simp [hig])
    cases hbase : base k <;>
      simp only [loadAccountFrom, answer, if_neg hoff, loadAccountViaRpc, if_neg hig, hbase,
        map_none, map_some]

theorem Points.answer_ne (h : Points on base k p) : answer on base k ≠ none := by
  intro hnone
  simp [Points, hnone] at h

theorem points_iff (hans : answer on base k = some a) :
    Points on base k p ↔ hasProgramdataAccount a = some p := by
  rw [Points, hans, bind_some]

theorem inserts_iff :
    Inserts on base k q ↔
      (q = k ∧ answer on base k ≠ none) ∨ ∃ p, Points on base k p ∧ Inserts on base p q := by
  constructor
  · rintro ⟨hreach, hans⟩
    rcases ReflTransGen.cases_head hreach with rfl | ⟨p, hp, hreach⟩
    · exact .inl ⟨rfl, hans⟩
    · exact .inr ⟨p, hp, hreach, hans⟩
  · rintro (⟨rfl, hans⟩ | ⟨p, hp, hreach, hans⟩)
    · exact ⟨.refl, hans⟩
    · exact ⟨.head hp hreach, hans⟩

theorem not_inserts (hans : answer on base k = none) : ¬Inserts on base k q := by
  intro hq
  rcases inserts_iff.mp hq with ⟨-, hk⟩ | ⟨p, hp, -⟩
  exacts [hk hans, hp.answer_ne hans]

theorem loadAccountFrom_spec (h : loadAccountFrom base depth l k = some r) :
    r.1.enable = l.enable ∧
      (∀ q, Inserts l.enable base k q → r.1.accountCache q = answer l.enable base q) ∧
      ∀ q, ¬Inserts l.enable base k q → r.1.accountCache q = l.accountCache q := by
  induction depth generalizing l k r with
  | zero => cases h
  | succ depth ih =>
    rw [loadAccountFrom_succ] at h
    have hown : ∀ a, (l.insert k a).accountCache k = some a := fun a => by simp [insert]
    have hother : ∀ a q, q ≠ k → (l.insert k a).accountCache q = l.accountCache q :=
      fun a q hq => by simp [insert, hq]
    cases hans : answer l.enable base k with
    | none =>
      obtain rfl : (l, none) = r := by simpa [hans] using h
      exact ⟨rfl, fun q hq => absurd hq (not_inserts hans), fun _ _ => rfl⟩
    | some a =>
      have hk : Inserts l.enable base k k := ⟨.refl, by simp [hans]⟩
      cases hpd : hasProgramdataAccount a with
      | none =>
        obtain rfl : (l.insert k a, some a) = r := by simpa [hans, hpd] using h
        refine ⟨rfl, fun q hq => ?_, fun q hq => hother a q fun heq => hq (heq ▸ hk)⟩
        rcases inserts_iff.mp hq with ⟨rfl, -⟩ | ⟨p, hp, -⟩
        · rw [hown, hans]
        · rw [points_iff hans, hpd] at hp
          cases hp
      | some p =>
        have hp : Points l.enable base k p := (points_iff hans).mpr hpd
        simp only [hans, hpd, map_eq_some_iff] at h
        obtain ⟨r, hr, rfl⟩ := h
        obtain ⟨hen, hins, hkeep⟩ := ih (l := l.insert k a) hr
        refine ⟨hen, fun q hq => ?_, fun q hq => ?_⟩
        · by_cases hqp : Inserts l.enable base p q
          · exact hins q hqp
          rcases inserts_iff.mp hq with ⟨rfl, -⟩ | ⟨p', hp', hq'⟩
          · rw [hkeep q hqp, hown, hans]
          · cases hp.symm.trans hp'
            exact absurd hq' hqp
        · rw [hkeep q fun hqp => hq (inserts_iff.mpr (.inr ⟨p, hp, hqp⟩))]
          exact hother a q fun heq => hq (heq ▸ hk)

/-- The pointers from a key come to an end. -/
abbrev Ends (on : Bool) (base : BaseLayer) (k : Pubkey) : Prop :=
  Acc (fun p q => Points on base q p) k

theorem ends_of_returns (h : loadAccountFrom base depth l k = some r) : Ends l.enable base k := by
  induction depth generalizing l k r with
  | zero => cases h
  | succ depth ih =>
    refine .intro k fun p hp => ?_
    obtain ⟨a, hans, hpd⟩ := bind_eq_some_iff.mp hp
    simp only [loadAccountFrom_succ, hans, hpd, map_eq_some_iff] at h
    obtain ⟨r, hr, -⟩ := h
    exact ih (l := l.insert k a) hr

theorem returns_of_ends (h : Ends l.enable base k) :
    ∃ depth r, loadAccountFrom base depth l k = some r := by
  generalize hon : l.enable = on at h
  induction h generalizing l with
  | intro k _ ih =>
    subst hon
    cases hans : answer l.enable base k with
    | none => exact ⟨1, _, by rw [loadAccountFrom_succ, hans]⟩
    | some a =>
      cases hpd : hasProgramdataAccount a with
      | none => exact ⟨1, (l.insert k a, some a), by simp [loadAccountFrom_succ, hans, hpd]⟩
      | some p =>
        obtain ⟨depth, r, hr⟩ := ih p ((points_iff hans).mpr hpd) (l := l.insert k a) rfl
        exact ⟨depth + 1, (r.1, some a), by simp [loadAccountFrom_succ, hans, hpd, hr]⟩

theorem Ends.no_cycle (h : Ends on base k) (hreach : ReflTransGen (Points on base) k q) :
    ¬TransGen (Points on base) q q := by
  induction h with
  | intro k _ ih =>
    intro hcycle
    rcases ReflTransGen.cases_head hreach with rfl | ⟨p, hp, hreach⟩
    · obtain ⟨p, hp, hback⟩ := TransGen.head'_iff.mp hcycle
      exact ih p hp hback hcycle
    · exact ih p hp hreach hcycle

/-- There are finitely many keys, so that pointers without an end come back to a key. -/
theorem ends_iff :
    Ends on base k ↔ ∀ q, ReflTransGen (Points on base) k q → ¬TransGen (Points on base) q q := by
  refine ⟨fun h q hreach => h.no_cycle hreach, fun h => ?_⟩
  by_contra hends
  obtain ⟨f, rfl, hf⟩ := not_acc_iff_exists_descending_chain.mp hends
  obtain ⟨i, j, hlt, heq⟩ : ∃ i j, i < j ∧ f i = f j := by
    obtain ⟨i, j, hne, heq⟩ := Finite.exists_ne_map_eq_of_infinite f
    rcases Nat.lt_or_gt_of_ne hne with hlt | hlt
    exacts [⟨i, j, hlt, heq⟩, ⟨j, i, hlt, heq.symm⟩]
  have hreach : ReflTransGen (Points on base) (f 0) (f i) :=
    Nat.rel_of_forall_rel_succ_of_le _ (fun n => .single (hf n)) (Nat.zero_le i)
  have hcycle : TransGen (Points on base) (f i) (f j) :=
    Nat.rel_of_forall_rel_succ_of_lt _ (fun n => .single (hf n)) hlt
  exact h _ hreach (heq ▸ hcycle)

/-- `load_account` returns, with accounts of the base layer in the cache where it differs, exactly
if no key that the pointers reach is on a cycle. -/
theorem returns_iff :
    (∃ depth r, loadAccountFrom base depth l k = some r ∧
      ∀ q, r.1.accountCache q = l.accountCache q ∨
        ∃ account, base q = some account ∧ r.1.accountCache q = some (remoteAccount account)) ↔
      ∀ q, ReflTransGen (Points l.enable base) k q → ¬TransGen (Points l.enable base) q q := by
  constructor
  · rintro ⟨depth, r, h, -⟩
    exact ends_iff.mp (ends_of_returns h)
  · intro h
    obtain ⟨depth, r, hr⟩ := returns_of_ends (ends_iff.mpr h)
    obtain ⟨-, hins, hkeep⟩ := loadAccountFrom_spec hr
    refine ⟨depth, r, hr, fun q => ?_⟩
    by_cases hq : Inserts l.enable base k q
    · obtain ⟨a, ha⟩ := ne_none_iff_exists'.mp hq.2
      have hcache := (hins q hq).trans ha
      unfold answer at ha
      split_ifs at ha
      obtain ⟨account, hbase, rfl⟩ := map_eq_some_iff.mp ha
      exact .inr ⟨account, hbase, hcache⟩
    · exact .inl (hkeep q hq)

/-- Deactivating a key takes back what loading it did: no key that was inserted stays in the cache,
and every other key has the account that it had before. -/
structure Undoes (base : BaseLayer) (l l' : RemoteAccountLoader) (k : Pubkey) : Prop where
  inserted : ∀ q, Inserts l.enable base k q → (l'.deactivateAccount k).accountCache q = none
  others : ∀ q, ¬Inserts l.enable base k q →
    (l'.deactivateAccount k).accountCache q = l.accountCache q

theorem deactivateAccount_accountCache :
    (l.deactivateAccount k).accountCache q =
      if q ∈ l.deactivated k then none else l.accountCache q := by
  rw [deactivateAccount_eq_removeAll, removeAll_accountCache]

theorem undoes_iff_of_no_answer (hans : answer l.enable base k = none)
    (h : loadAccountFrom base depth l k = some r) :
    Undoes base l r.1 k ↔ l.getAccount k = none := by
  cases depth with
  | zero => cases h
  | succ depth =>
    obtain rfl : (l, none) = r := by simpa [loadAccountFrom_succ, hans] using h
    constructor
    · intro hundo
      by_contra hk
      obtain ⟨a, ha⟩ := ne_none_iff_exists'.mp hk
      have hkeep := hundo.others k (not_inserts hans)
      have hmem : k ∈ l.deactivated k := by simp [deactivated, ha]
      rw [deactivateAccount_accountCache, if_pos hmem] at hkeep
      simp [getAccount, ← hkeep] at ha
    · intro hk
      refine ⟨fun q hq => absurd hq (not_inserts hans), fun q _ => ?_⟩
      simp [deactivateAccount_accountCache, deactivated, hk]

theorem undoes_iff_of_answer (hans : answer l.enable base k = some a)
    (h : loadAccountFrom base depth l k = some r) :
    Undoes base l r.1 k ↔ ∀ p, Points l.enable base k p →
      (answer l.enable base p = none → l.accountCache p = none) ∧
        ∀ q, Points l.enable base p q → answer l.enable base q = none := by
  obtain ⟨hen, hins, hkeep⟩ := loadAccountFrom_spec h
  have hcycle := ends_iff.mp (ends_of_returns h)
  have hk : Inserts l.enable base k k := ⟨.refl, by simp [hans]⟩
  have hgone : ∀ q, q ∈ r.1.deactivated k ↔ q = k ∨ Points l.enable base k q := by
    intro q
    have hon : ¬(!l.enable || ignoredAccount k) = true := fun hoff => by
      rw [answer, if_pos hoff] at hans
      cases hans
    rw [deactivated, getAccount, hen, if_neg hon, hins k hk, hans, points_iff hans]
    simp
  constructor
  · intro hundo p hp
    refine ⟨fun hnone => ?_, fun q hq => ?_⟩
    · have hothers := hundo.others p fun hins => hins.2 hnone
      rwa [deactivateAccount_accountCache, if_pos ((hgone p).mpr (.inr hp)), eq_comm] at hothers
    · by_contra hans'
      have hq' : Inserts l.enable base k q := ⟨.head hp (.single hq), hans'⟩
      have hnone := hundo.inserted q hq'
      rw [deactivateAccount_accountCache] at hnone
      split_ifs at hnone with hmem
      · rcases (hgone q).mp hmem with rfl | hp'
        · exact hcycle q .refl (.head hp (.single hq))
        · cases hp.symm.trans hp'
          exact hcycle p (.single hp) (.single hq)
      · exact hans' ((hins q hq').symm.trans hnone)
  · intro hcond
    refine ⟨fun q hq => ?_, fun q hq => ?_⟩
    · rw [deactivateAccount_accountCache, if_pos ((hgone q).mpr ?_)]
      rcases inserts_iff.mp hq with ⟨heq, -⟩ | ⟨p, hp, hpq⟩
      · exact .inl heq
      rcases inserts_iff.mp hpq with ⟨rfl, -⟩ | ⟨q', hq', hins'⟩
      · exact .inr hp
      · exact absurd hins' (not_inserts ((hcond p hp).2 q' hq'))
    · rw [deactivateAccount_accountCache]
      split_ifs with hmem
      · rcases (hgone q).mp hmem with rfl | hp
        · exact absurd hk hq
        · refine ((hcond q hp).1 ?_).symm
          by_contra hans'
          exact hq ⟨.single hp, hans'⟩
      · exact hkeep q hq

/-- Deactivating a key takes back what loading it did exactly if
* the loader has no account for the key when that key has no answer;
* the cache has no account for the programdata key when that key has no answer;
* the programdata account does not point to a further account. -/
theorem undoes_iff (h : loadAccountFrom base depth l k = some r) :
    Undoes base l r.1 k ↔
      (answer l.enable base k = none → l.getAccount k = none) ∧
        ∀ p, Points l.enable base k p →
          (answer l.enable base p = none → l.accountCache p = none) ∧
            ∀ q, Points l.enable base p q → answer l.enable base q = none := by
  cases hans : answer l.enable base k with
  | none =>
    rw [undoes_iff_of_no_answer hans h]
    exact ⟨fun hk => ⟨fun _ => hk, fun p hp => absurd hans hp.answer_ne⟩, fun hcond => hcond.1 rfl⟩
  | some a =>
    rw [undoes_iff_of_answer hans h]
    exact (and_iff_right fun hnone => by cases hnone).symm

def byteKey (b : UInt8) : Pubkey := .ofBytes (List.replicate 32 b)

/-- An account that decodes as a program with this programdata key. -/
def pointerTo (b : UInt8) : RpcAccount :=
  { lamports := 1, data := [2, 0, 0, 0] ++ List.replicate 32 b, owner := systemProgramId
    executable := false, rentEpoch := 0 }

def emptyLoader : RemoteAccountLoader := new { sonicProgramId := [] }

/-- A base layer with an account that points to itself, and a chain of three accounts. -/
def exampleBase : BaseLayer := fun k =>
  if k = byteKey 9 then some (pointerTo 9)
  else if k = byteKey 3 then some (pointerTo 4)
  else if k = byteKey 4 then some (pointerTo 5)
  else if k = byteKey 5 then some { pointerTo 5 with data := [] }
  else none

instance : Decidable (Points on base k p) := decEq _ _

/-- No depth is enough for an account that points to itself. -/
theorem loop_never_returns :
    ¬∃ depth r, loadAccountFrom exampleBase depth emptyLoader (byteKey 9) = some r := by
  rintro ⟨depth, r, hr⟩
  have hself : Points true exampleBase (byteKey 9) (byteKey 9) := by decide
  exact ends_iff.mp (ends_of_returns hr) _ .refl (.single hself)

/-- The third account of a chain stays in the cache. -/
theorem chain_not_undone :
    ∃ r, loadAccountFrom exampleBase 3 emptyLoader (byteKey 3) = some r ∧
      ¬Undoes exampleBase emptyLoader r.1 (byteKey 3) := by
  have hsome : (loadAccountFrom exampleBase 3 emptyLoader (byteKey 3)).isSome = true := by decide
  obtain ⟨r, hr⟩ := isSome_iff_exists.mp hsome
  refine ⟨r, hr, fun hundo => ?_⟩
  have hans : answer true exampleBase (byteKey 3) = some (remoteAccount (pointerTo 4)) := by decide
  have hlast := ((undoes_iff_of_answer hans hr).mp hundo (byteKey 4) (by decide)).2 (byteKey 5)
    (by decide)
  revert hlast
  decide

/-- The second account of the chain and the one it points to are taken back. -/
theorem chain_tail_undone :
    ∃ r, loadAccountFrom exampleBase 2 emptyLoader (byteKey 4) = some r ∧
      Undoes exampleBase emptyLoader r.1 (byteKey 4) := by
  have hsome : (loadAccountFrom exampleBase 2 emptyLoader (byteKey 4)).isSome = true := by decide
  obtain ⟨r, hr⟩ := isSome_iff_exists.mp hsome
  refine ⟨r, hr, (undoes_iff hr).mpr ⟨by decide, fun p hp => ⟨fun _ => rfl, fun q hq => ?_⟩⟩⟩
  have hp' : Points true exampleBase (byteKey 4) (byteKey 5) := by decide
  cases hp.symm.trans hp'
  have hnone : (answer true exampleBase (byteKey 5)).bind hasProgramdataAccount = none := by decide
  exact absurd (hq.symm.trans hnone) (some_ne_none q)

end RemoteAccountLoader
end Hypergrid
