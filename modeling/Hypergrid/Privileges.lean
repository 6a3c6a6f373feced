import Hypergrid.TransactionContext

/-!
# Privileges of the accounts of a call

`prepare_instruction` of `program-runtime/src/invoke_context.rs` with its indices as the source has
them: places of accounts are cast to `IndexOfAccount`, which has 16 bits.

* `Deduped` : what the merging loop keeps; `deduped_run` says it of the whole loop.
* `prepareInstruction_noEscalation` : no privilege is gained and every index leads to the requested
  account, if the lists are short enough for the casts.
* `wrapped_callee_index` : with 65537 accounts an index leads to another account.
-/

namespace Hypergrid
open Checked List Option

namespace Privileges

abbrev TransactionAccounts := List (Pubkey × AccountSharedData)

/-- `InstructionAccount` with its index in the caller. -/
structure PreparedAccount extends InstructionAccount where
  indexInCaller : Nat
deriving DecidableEq

section Model
variable (accounts : TransactionAccounts) (ic : InstructionContext)

def hasKey (pubkey : Pubkey) (ia : InstructionAccount) : Bool :=
  (accounts[ia.indexInTransaction]?).map Prod.fst = some pubkey

def findIndexOfInstructionAccount (pubkey : Pubkey) : Option Nat :=
  (ic.instructionAccounts.findIdx? (hasKey accounts pubkey)).map asIndexOfAccount

/-- The variables of the first loop. -/
structure Dedup where
  accounts : List PreparedAccount
  duplicateIndices : List Nat

/-- The privileges of a repeated account are added to the first one. -/
def PreparedAccount.merge (a : PreparedAccount) (m : AccountMeta) : PreparedAccount :=
  { a with
    isSigner := a.isSigner || m.isSigner
    isWritable := a.isWritable || m.isWritable }

def dedupAccount (d : Dedup) (x : AccountMeta × Nat) : Except InstructionError Dedup :=
  match findIndexOfAccount accounts x.1.pubkey with
  | none => .error .missingAccount
  | some indexInTransaction =>
    match d.accounts.findIdx? (fun a => a.indexInTransaction = indexInTransaction) with
    | some duplicateIndex =>
      .ok
        { accounts := d.accounts.modify duplicateIndex (fun a => a.merge x.1)
          duplicateIndices := d.duplicateIndices ++ [duplicateIndex] }
    | none =>
      match findIndexOfInstructionAccount accounts ic x.1.pubkey with
      | none => .error .missingAccount
      | some indexInCaller =>
        .ok
          { accounts := d.accounts ++
              [{ indexInTransaction
                 indexInCaller
                 indexInCallee := asIndexOfAccount x.2
                 isSigner := x.1.isSigner
                 isWritable := x.1.isWritable }]
            duplicateIndices := d.duplicateIndices ++ [d.accounts.length] }

/-- `try_borrow_instruction_account`: the account of the caller, and the key it leads to. -/
def borrowInstructionAccount (index : Nat) :
    Except InstructionError (InstructionAccount × (Pubkey × AccountSharedData)) :=
  match ic.instructionAccounts[index]? with
  | none => .error .notEnoughAccountKeys
  | some ia =>
    match accounts[ia.indexInTransaction]? with
    | none => .error .missingAccount
    | some x => .ok (ia, x)

/-- One account of the loop that compares the privileges with those of the caller. -/
def checkPrivileges (signers : List Pubkey) (a : PreparedAccount) :
    Except InstructionError Unit := do
  let borrowed ← borrowInstructionAccount accounts ic a.indexInCaller
  -- readonly in caller cannot become writable in callee
  if a.isWritable && !borrowed.1.isWritable then .error .privilegeEscalation
  -- signed in the callee means signed in the caller or by the program
  else if a.isSigner && !(borrowed.1.isSigner || signers.contains borrowed.2.1) then
    .error .privilegeEscalation
  else .ok ()

def Dedup.account (d : Dedup) (i : Nat) : Except InstructionError PreparedAccount :=
  match d.accounts[i]? with
  | none => .error .notEnoughAccountKeys
  | some a => .ok a

/-- The index of the called program, which must be an executable account of the caller. -/
def findProgram (programId : Pubkey) : Except InstructionError Nat :=
  match findIndexOfInstructionAccount accounts ic programId with
  | none => .error .missingAccount
  | some index => do
      let borrowed ← borrowInstructionAccount accounts ic index
      if borrowed.2.2.executable then .ok borrowed.1.indexInTransaction
      else .error .accountNotExecutable

/-- `prepare_instruction`, for the current instruction as the caller. -/
def prepareInstruction (instruction : StableInstruction) (signers : List Pubkey) :
    Except InstructionError (List PreparedAccount × List Nat) := do
  let d ← instruction.accounts.zipIdx.foldlM (dedupAccount accounts ic) ⟨[], []⟩
  forM d.accounts (checkPrivileges accounts ic signers)
  let prepared ← d.duplicateIndices.mapM d.account
  let index ← findProgram accounts ic instruction.programId
  .ok (prepared, [index])

end Model

section Statement
variable (accounts : TransactionAccounts) (ic : InstructionContext) (metas : List AccountMeta)
variable (signers : List Pubkey)

def callerAccount (pubkey : Pubkey) : Option InstructionAccount :=
  ic.instructionAccounts.find? (hasKey accounts pubkey)

def requestsWritable (pubkey : Pubkey) : Bool :=
  metas.any (fun m => m.pubkey = pubkey && m.isWritable)

def requestsSigner (pubkey : Pubkey) : Bool :=
  metas.any (fun m => m.pubkey = pubkey && m.isSigner)

/-- What a prepared account has to be for the account that was requested at its place. -/
structure Faithful (m : AccountMeta) (a : PreparedAccount) : Prop where
  sameAccount : (accounts[a.indexInTransaction]?).map Prod.fst = some m.pubkey
  sameInCallee : (metas[a.indexInCallee]?).map AccountMeta.pubkey = some m.pubkey
  isWritable : a.isWritable = requestsWritable metas m.pubkey
  isSigner : a.isSigner = requestsSigner metas m.pubkey
  writable_caller : a.isWritable = true →
    (callerAccount accounts ic m.pubkey).any InstructionAccount.isWritable = true
  signer_caller : a.isSigner = true →
    (callerAccount accounts ic m.pubkey).any InstructionAccount.isSigner = true ∨
      m.pubkey ∈ signers

/-- No privilege is gained, and every place of the call has the account that was requested there. -/
structure NoEscalation (prepared : List PreparedAccount) : Prop where
  length : prepared.length = metas.length
  faithful : ∀ {n : Nat} {m : AccountMeta} {a : PreparedAccount}, metas[n]? = some m →
    prepared[n]? = some a → Faithful accounts ic metas signers m a

/-- No place is cut off by a cast, and adding the number of program accounts to a place does not
saturate. -/
structure Short : Prop where
  accounts : accounts.length ≤ 2 ^ 16
  metas : metas.length ≤ 2 ^ 16
  caller : ic.programAccounts.length + ic.instructionAccounts.length ≤ 2 ^ 16

end Statement

section Loop
variable {accounts : TransactionAccounts} {ic : InstructionContext} {done : List AccountMeta}
variable {d d' : Dedup} {m : AccountMeta} {i : Nat}

/-- An account of the transaction is requested with a privilege. -/
def RequestedAt (accounts : TransactionAccounts) (flag : AccountMeta → Bool)
    (done : List AccountMeta) (i : Nat) : Prop :=
  ∃ m ∈ done, findIndexOfAccount accounts m.pubkey = some i ∧ flag m = true

theorem requestedAt_concat {flag : AccountMeta → Bool} :
    RequestedAt accounts flag (done ++ [m]) i ↔ RequestedAt accounts flag done i ∨
      findIndexOfAccount accounts m.pubkey = some i ∧ flag m = true := by
  simp [RequestedAt]

/-- The account was first requested at the place `f`, by the meta `m`. -/
structure FirstAt (accounts : TransactionAccounts) (ic : InstructionContext)
    (done : List AccountMeta) (a : PreparedAccount) (f : Nat) (m : AccountMeta) : Prop where
  place : done[f]? = some m
  index : findIndexOfAccount accounts m.pubkey = some a.indexInTransaction
  before : ∀ {n : Nat} {m' : AccountMeta}, n < f → done[n]? = some m' →
    findIndexOfAccount accounts m'.pubkey ≠ some a.indexInTransaction
  inCallee : a.indexInCallee = asIndexOfAccount f
  inCaller : findIndexOfInstructionAccount accounts ic m.pubkey = some a.indexInCaller

/-- What the first loop keeps: the merged accounts have different places in the transaction, each
has the privileges of all its requests, and every request has its place among them. -/
structure Deduped (accounts : TransactionAccounts) (ic : InstructionContext)
    (done : List AccountMeta) (d : Dedup) : Prop where
  length : d.duplicateIndices.length = done.length
  place : ∀ {n : Nat} {m : AccountMeta}, done[n]? = some m →
    ∃ (p : Nat) (a : PreparedAccount), d.duplicateIndices[n]? = some p ∧ d.accounts[p]? = some a ∧
      findIndexOfAccount accounts m.pubkey = some a.indexInTransaction
  unique :
    ∀ {p q : Nat} {a b : PreparedAccount}, d.accounts[p]? = some a → d.accounts[q]? = some b →
    a.indexInTransaction = b.indexInTransaction → p = q
  first : ∀ {p : Nat} {a : PreparedAccount}, d.accounts[p]? = some a →
    ∃ f m, FirstAt accounts ic done a f m
  signer : ∀ {p : Nat} {a : PreparedAccount}, d.accounts[p]? = some a →
    (a.isSigner = true ↔ RequestedAt accounts AccountMeta.isSigner done a.indexInTransaction)
  writable : ∀ {p : Nat} {a : PreparedAccount}, d.accounts[p]? = some a →
    (a.isWritable = true ↔ RequestedAt accounts AccountMeta.isWritable done a.indexInTransaction)

theorem deduped_nil : Deduped accounts ic [] ⟨[], []⟩ where
  length := rfl
  place := fun h => absurd h (by simp)
  unique := fun h => absurd h (by simp)
  first := fun h => absurd h (by simp)
  signer := fun h => absurd h (by simp)
  writable := fun h => absurd h (by simp)

theorem getElem?_concat {α : Type} {l : List α} {x y : α} {n : Nat} (h : (l ++ [x])[n]? = some y) :
    l[n]? = some y ∨ n = l.length ∧ y = x := by
  rcases Nat.lt_or_ge n l.length with hlt | hge
  · rw [getElem?_append_left hlt] at h
    exact Or.inl h
  · rw [getElem?_append_right hge, getElem?_singleton] at h
    split_ifs at h with hn
    exact Or.inr ⟨le_antisymm (Nat.le_of_sub_eq_zero hn) hge, (some.inj h).symm⟩

theorem getElem?_concat_of {α : Type} {l : List α} {x y : α} {n : Nat} (h : l[n]? = some y) :
    (l ++ [x])[n]? = some y := by
  obtain ⟨hlt, _⟩ := List.getElem?_eq_some_iff.mp h
  rw [List.getElem?_append_left hlt, h]

theorem FirstAt.concat {a b : PreparedAccount} {f : Nat} {m' : AccountMeta}
    (h : FirstAt accounts ic done a f m') (hindex : b.indexInTransaction = a.indexInTransaction)
    (hcallee : b.indexInCallee = a.indexInCallee) (hcaller : b.indexInCaller = a.indexInCaller) :
    FirstAt accounts ic (done ++ [m]) b f m' where
  place := getElem?_concat_of h.place
  index := hindex ▸ h.index
  before := by
    intro n m'' hlt hn
    obtain ⟨hf, _⟩ := List.getElem?_eq_some_iff.mp h.place
    rw [List.getElem?_append_left (hlt.trans hf)] at hn
    exact hindex ▸ h.before hlt hn
  inCallee := hcallee.trans h.inCallee
  inCaller := hcaller ▸ h.inCaller

theorem Deduped.merge (h : Deduped accounts ic done d) {p : Nat} {a : PreparedAccount}
    (hindex : findIndexOfAccount accounts m.pubkey = some a.indexInTransaction)
    (ha : d.accounts[p]? = some a) :
    Deduped accounts ic (done ++ [m])
      { accounts := d.accounts.modify p (fun a => a.merge m)
        duplicateIndices := d.duplicateIndices ++ [p] } := by
  have hget : ∀ {q : Nat} {b : PreparedAccount},
      (d.accounts.modify p (fun a => a.merge m))[q]? = some b →
        ∃ b', d.accounts[q]? = some b' ∧ b = if p = q then b'.merge m else b' := by
    intro q b hb
    rw [getElem?_modify] at hb
    obtain ⟨b', hb', heq⟩ := map_eq_some_iff.mp hb
    exact ⟨b', hb', heq.symm⟩
  have hsame : ∀ (q : Nat) (b : PreparedAccount),
      (if p = q then b.merge m else b).indexInTransaction = b.indexInTransaction ∧
      (if p = q then b.merge m else b).indexInCallee = b.indexInCallee ∧
      (if p = q then b.merge m else b).indexInCaller = b.indexInCaller := by
    intro q b
    split_ifs <;> exact ⟨rfl, rfl, rfl⟩
  -- the request counts for the account at `p` only
  have hcount : ∀ {q : Nat} {b : PreparedAccount}, d.accounts[q]? = some b →
      (findIndexOfAccount accounts m.pubkey = some b.indexInTransaction ↔ p = q) := by
    intro q b hb
    rw [hindex, some.injEq]
    refine ⟨fun heq => h.unique ha hb heq, ?_⟩
    rintro rfl
    rw [some.inj (ha.symm.trans hb)]
  refine ⟨?_, fun {n m'} hn => ?_, fun {q r b c} hb hc heq => ?_, fun {q b} hb => ?_,
    fun {q b} hb => ?_, fun {q b} hb => ?_⟩
  · rw [length_append, length_append, h.length]
    rfl
  · have hplace : ∀ {q : Nat} {b : PreparedAccount}, d.accounts[q]? = some b →
        ∃ b', (d.accounts.modify p (fun a => a.merge m))[q]? = some b' ∧
          b'.indexInTransaction = b.indexInTransaction := by
      intro q b hb
      refine ⟨if p = q then b.merge m else b, ?_, (hsame q b).1⟩
      rw [getElem?_modify, hb]
      rfl
    rcases getElem?_concat hn with hn | ⟨rfl, rfl⟩
    · obtain ⟨q, b, hq, hb, hfind⟩ := h.place hn
      obtain ⟨b', hb', hsame'⟩ := hplace hb
      exact ⟨q, b', getElem?_concat_of hq, hb', hsame' ▸ hfind⟩
    · obtain ⟨b', hb', hsame'⟩ := hplace ha
      exact ⟨p, b', h.length ▸ getElem?_concat_length .., hb', hsame' ▸ hindex⟩
  · obtain ⟨b', hb', rfl⟩ := hget hb
    obtain ⟨c', hc', rfl⟩ := hget hc
    rw [(hsame q b').1, (hsame r c').1] at heq
    exact h.unique hb' hc' heq
  · obtain ⟨b', hb', rfl⟩ := hget hb
    obtain ⟨f, m', hfirst⟩ := h.first hb'
    exact ⟨f, m', hfirst.concat (hsame q b').1 (hsame q b').2.1 (hsame q b').2.2⟩
  · obtain ⟨b', hb', rfl⟩ := hget hb
    rw [(hsame q b').1, requestedAt_concat, ← h.signer hb', hcount hb']
    split_ifs with hq <;> simp [PreparedAccount.merge, hq]
  · obtain ⟨b', hb', rfl⟩ := hget hb
    rw [(hsame q b').1, requestedAt_concat, ← h.writable hb', hcount hb']
    split_ifs with hq <;> simp [PreparedAccount.merge, hq]

theorem Deduped.add (h : Deduped accounts ic done d) {a : PreparedAccount}
    (hindex : findIndexOfAccount accounts m.pubkey = some a.indexInTransaction)
    (hnew : ∀ b ∈ d.accounts, b.indexInTransaction ≠ a.indexInTransaction)
    (hcaller : findIndexOfInstructionAccount accounts ic m.pubkey = some a.indexInCaller)
    (hcallee : a.indexInCallee = asIndexOfAccount done.length)
    (hsigner : a.isSigner = m.isSigner) (hwritable : a.isWritable = m.isWritable) :
    Deduped accounts ic (done ++ [m])
      { accounts := d.accounts ++ [a]
        duplicateIndices := d.duplicateIndices ++ [d.accounts.length] } := by
  have hold : ∀ {n : Nat} {m' : AccountMeta}, done[n]? = some m' →
      findIndexOfAccount accounts m'.pubkey ≠ some a.indexInTransaction := by
    intro n m' hn heq
    obtain ⟨p, b, _, hb, hfind⟩ := h.place hn
    exact hnew b (mem_of_getElem? hb) (some.inj (hfind.symm.trans heq))
  have hrequest : ∀ flag : AccountMeta → Bool,
      RequestedAt accounts flag (done ++ [m]) a.indexInTransaction ↔ flag m = true := by
    intro flag
    rw [requestedAt_concat, and_iff_right hindex]
    refine or_iff_right ?_
    rintro ⟨m', hm', hfind, _⟩
    obtain ⟨n, hn⟩ := getElem?_of_mem hm'
    exact hold hn hfind
  have hother : ∀ {flag : AccountMeta → Bool} {b : PreparedAccount}, b ∈ d.accounts →
      (RequestedAt accounts flag (done ++ [m]) b.indexInTransaction ↔
        RequestedAt accounts flag done b.indexInTransaction) := by
    intro flag b hb
    rw [requestedAt_concat]
    refine or_iff_left fun hm => hnew b hb ?_
    exact some.inj (hm.1.symm.trans hindex)
  refine ⟨?_, fun {n m'} hn => ?_, fun {q r b c} hb hc heq => ?_, fun {q b} hb => ?_,
    fun {q b} hb => ?_, fun {q b} hb => ?_⟩
  · rw [length_append, length_append, h.length]
    rfl
  · rcases getElem?_concat hn with hn | ⟨rfl, rfl⟩
    · obtain ⟨q, b, hq, hb, hfind⟩ := h.place hn
      exact ⟨q, b, getElem?_concat_of hq, getElem?_concat_of hb, hfind⟩
    · exact ⟨d.accounts.length, a, h.length ▸ getElem?_concat_length ..,
        getElem?_concat_length .., hindex⟩
  · rcases getElem?_concat hb with hb' | ⟨rfl, rfl⟩ <;>
      rcases getElem?_concat hc with hc' | ⟨rfl, rfl⟩
    · exact h.unique hb' hc' heq
    · exact absurd heq (hnew b (mem_of_getElem? hb'))
    · exact absurd heq.symm (hnew c (mem_of_getElem? hc'))
    · rfl
  · rcases getElem?_concat hb with hb | ⟨rfl, rfl⟩
    · obtain ⟨f, m', hfirst⟩ := h.first hb
      exact ⟨f, m', hfirst.concat rfl rfl rfl⟩
    · refine ⟨done.length, m, getElem?_concat_length .., hindex, fun {n m'} hlt hn => ?_, hcallee,
        hcaller⟩
      rw [getElem?_append_left hlt] at hn
      exact hold hn
  · rcases getElem?_concat hb with hb | ⟨rfl, rfl⟩
    · rw [hother (mem_of_getElem? hb)]
      exact h.signer hb
    · rw [hrequest, hsigner]
  · rcases getElem?_concat hb with hb | ⟨rfl, rfl⟩
    · rw [hother (mem_of_getElem? hb)]
      exact h.writable hb
    · rw [hrequest, hwritable]

theorem Deduped.step (h : Deduped accounts ic done d)
    (hstep : dedupAccount accounts ic d (m, done.length) = .ok d') :
    Deduped accounts ic (done ++ [m]) d' := by
  unfold dedupAccount at hstep
  cases hindex : findIndexOfAccount accounts m.pubkey with
  | none =>
    rw [hindex] at hstep
    cases hstep
  | some i =>
    simp only [hindex] at hstep
    cases hfind : d.accounts.findIdx? (fun a => a.indexInTransaction = i) with
    | some p =>
      simp only [hfind] at hstep
      cases hstep
      obtain ⟨hp, hi, _⟩ := findIdx?_eq_some_iff_getElem.mp hfind
      have hi : (d.accounts.get ⟨p, hp⟩).indexInTransaction = i := of_decide_eq_true hi
      refine h.merge (a := d.accounts.get ⟨p, hp⟩) ?_ (getElem?_eq_getElem hp)
      rw [hindex, hi]
    | none =>
      simp only [hfind] at hstep
      cases hcaller : findIndexOfInstructionAccount accounts ic m.pubkey with
      | none =>
        rw [hcaller] at hstep
        cases hstep
      | some j =>
        simp only [hcaller] at hstep
        cases hstep
        refine h.add hindex (fun b hb => ?_) hcaller rfl rfl rfl
        exact of_decide_eq_false (findIdx?_eq_none_iff.mp hfind b hb)

theorem deduped_run {metas : List AccountMeta}
    (h : metas.zipIdx.foldlM (dedupAccount accounts ic) ⟨[], []⟩ = .ok d) :
    Deduped accounts ic metas d := by
  induction metas using reverseRec generalizing d with
  | nil =>
    cases h
    exact deduped_nil
  | append_singleton done m ih =>
    rw [zipIdx_append, foldlM_append] at h
    obtain ⟨d₁, hdone, hlast⟩ := bind_ok h
    rw [zipIdx_singleton, foldlM_cons, Nat.zero_add] at hlast
    obtain ⟨d₂, hstep, hnil⟩ := bind_ok hlast
    cases hnil
    exact (ih hdone).step hstep

end Loop

section Places
variable {α : Type} {l : List α} {p : α → Bool} {i : Nat} {x : α}

theorem asIndexOfAccount_of_lt (h : i < 2 ^ 16) : asIndexOfAccount i = i := Nat.mod_eq_of_lt h

/-- The cast cuts off no place of a short list. -/
theorem findIdx?_cast (hshort : l.length ≤ 2 ^ 16) :
    (l.findIdx? p).map asIndexOfAccount = l.findIdx? p := by
  cases hi : l.findIdx? p with
  | none => rfl
  | some i =>
    have hlt := (findIdx?_eq_some_iff_getElem.mp hi).1
    rw [map_some, asIndexOfAccount_of_lt (hlt.trans_le hshort)]

theorem getElem?_findIdx? (hi : l.findIdx? p = some i) : ∃ x, l[i]? = some x ∧ p x = true := by
  obtain ⟨hlen, hp, _⟩ := findIdx?_eq_some_iff_getElem.mp hi
  exact ⟨_, getElem?_eq_getElem hlen, hp⟩

theorem findIdx?_eq (hx : l[i]? = some x) (hp : p x = true)
    (hbefore : ∀ {j : Nat} {y : α}, j < i → l[j]? = some y → p y = false) :
      l.findIdx? p = some i := by
  obtain ⟨hlen, rfl⟩ := List.getElem?_eq_some_iff.mp hx
  refine List.findIdx?_eq_some_iff_getElem.mpr ⟨hlen, hp, fun j hj => ?_⟩
  exact Bool.eq_false_iff.mp (hbefore hj (List.getElem?_eq_getElem (hj.trans hlen)))

theorem find?_of_findIdx? (hi : l.findIdx? p = some i) (hx : l[i]? = some x) :
    l.find? p = some x := by
  obtain ⟨hlen, hp, hbefore⟩ := List.findIdx?_eq_some_iff_getElem.mp hi
  obtain ⟨_, rfl⟩ := List.getElem?_eq_some_iff.mp hx
  refine List.find?_eq_some_iff_getElem.mpr ⟨hp, i, hlen, rfl, fun j hj => ?_⟩
  simpa using hbefore j hj

end Places

section Result
variable {accounts : TransactionAccounts} {ic : InstructionContext} {metas : List AccountMeta}
variable {signers : List Pubkey} {prepared : List PreparedAccount} {programs : List Nat}
variable {instruction : StableInstruction} {m : AccountMeta} {a : PreparedAccount} {n i : Nat}

/-- What a successful `prepare_instruction` says of an account at its place. -/
structure Prepared (accounts : TransactionAccounts) (ic : InstructionContext)
    (metas : List AccountMeta) (signers : List Pubkey) (m : AccountMeta) (a : PreparedAccount) :
    Prop where
  index : findIndexOfAccount accounts m.pubkey = some a.indexInTransaction
  first : ∃ f m', FirstAt accounts ic metas a f m'
  signer : a.isSigner = true ↔
    RequestedAt accounts AccountMeta.isSigner metas a.indexInTransaction
  writable : a.isWritable = true ↔
    RequestedAt accounts AccountMeta.isWritable metas a.indexInTransaction
  checked : checkPrivileges accounts ic signers a = .ok ()

theorem prepareInstruction_prepared
    (h : prepareInstruction accounts ic instruction signers = .ok (prepared, programs)) :
    prepared.length = instruction.accounts.length ∧
      ∀ (n : Nat) (m : AccountMeta) (a : PreparedAccount), instruction.accounts[n]? = some m →
        prepared[n]? = some a → Prepared accounts ic instruction.accounts signers m a := by
  obtain ⟨d, hloop, hrest⟩ := bind_ok h
  obtain ⟨_, hchecks, hrest⟩ := bind_ok hrest
  obtain ⟨prepared', hcopy, hrest⟩ := bind_ok hrest
  obtain ⟨index, _, hresult⟩ := bind_ok hrest
  cases hresult
  have hdedup := deduped_run hloop
  obtain ⟨hlength, hplaces⟩ := mapM_ok_places hcopy
  refine ⟨hlength.trans hdedup.length, fun n m a hm ha => ?_⟩
  obtain ⟨p, b, hp, hb, hfind⟩ := hdedup.place hm
  have haccount := hplaces n p a hp ha
  unfold Dedup.account at haccount
  rw [hb] at haccount
  cases haccount
  exact ⟨hfind, hdedup.first hb, hdedup.signer hb, hdedup.writable hb,
    forM_ok hchecks a (mem_of_getElem? hb)⟩

section Accounts
variable {k k' : Pubkey} (hfew : accounts.length ≤ 2 ^ 16)
include hfew

theorem key_of_findIndexOfAccount (h : findIndexOfAccount accounts k = some i) :
    (accounts[i]?).map Prod.fst = some k := by
  rw [findIndexOfAccount, findIdx?_cast hfew] at h
  obtain ⟨x, hx, hkey⟩ := getElem?_findIdx? h
  rw [hx, map_some, of_decide_eq_true hkey]

theorem findIndexOfAccount_iff (hfind : findIndexOfAccount accounts k = some i) :
    findIndexOfAccount accounts k' = some i ↔ k' = k := by
  constructor
  · intro hfind'
    have hkey := key_of_findIndexOfAccount hfew hfind
    rw [key_of_findIndexOfAccount hfew hfind'] at hkey
    exact some.inj hkey
  · rintro rfl
    exact hfind

theorem requestedAt_iff (hfind : findIndexOfAccount accounts m.pubkey = some i)
    (flag : AccountMeta → Bool) :
    RequestedAt accounts flag metas i ↔
      metas.any (fun m' => m'.pubkey = m.pubkey && flag m') = true := by
  rw [RequestedAt, List.any_eq_true]
  refine exists_congr fun m' => and_congr_right fun _ => ?_
  rw [findIndexOfAccount_iff hfew hfind, Bool.and_eq_true, decide_eq_true_iff]

end Accounts

section Prepared
variable (h : Prepared accounts ic metas signers m a) (hfew : accounts.length ≤ 2 ^ 16)
include h hfew

theorem Prepared.requests :
    a.isWritable = requestsWritable metas m.pubkey ∧ a.isSigner =
      requestsSigner metas m.pubkey := by
  constructor
  · rw [Bool.eq_iff_iff, h.writable, requestedAt_iff hfew h.index]
    rfl
  · rw [Bool.eq_iff_iff, h.signer, requestedAt_iff hfew h.index]
    rfl

theorem Prepared.firstPlace :
    ∃ f, metas.findIdx? (fun m' => m'.pubkey = m.pubkey) = some f ∧
      a.indexInCallee = asIndexOfAccount f ∧
      findIndexOfInstructionAccount accounts ic m.pubkey = some a.indexInCaller := by
  obtain ⟨f, m', hfirst⟩ := h.first
  have hkey : m'.pubkey = m.pubkey := (findIndexOfAccount_iff hfew h.index).mp hfirst.index
  refine ⟨f, findIdx?_eq hfirst.place (decide_eq_true hkey) fun {j m''} hlt hj => ?_,
    hfirst.inCallee, hkey ▸ hfirst.inCaller⟩
  refine decide_eq_false fun heq => hfirst.before hlt hj ?_
  exact (findIndexOfAccount_iff hfew h.index).mpr heq

/-- The check compares with the account of the caller. -/
theorem Prepared.caller (hcaller : ic.instructionAccounts.length ≤ 2 ^ 16) :
    ∃ ia, callerAccount accounts ic m.pubkey = some ia ∧
      (a.isWritable = true → ia.isWritable = true) ∧
      (a.isSigner = true → ia.isSigner = true ∨ m.pubkey ∈ signers) := by
  obtain ⟨f, _, _, hindex⟩ := h.firstPlace hfew
  rw [findIndexOfInstructionAccount, findIdx?_cast hcaller] at hindex
  obtain ⟨ia, hia, hkey⟩ := getElem?_findIdx? hindex
  obtain ⟨borrowed, hborrow, hcheck⟩ := bind_ok h.checked
  unfold borrowInstructionAccount at hborrow
  rw [hia] at hborrow
  obtain ⟨x, hx, hxkey⟩ := map_eq_some_iff.mp (of_decide_eq_true hkey)
  simp only [hx] at hborrow
  cases hborrow
  rw [ite_error_ok_iff, ite_error_ok_iff] at hcheck
  simp only [Bool.and_eq_true, Bool.not_eq_true', Bool.or_eq_false_iff, not_and] at hcheck
  refine ⟨ia, find?_of_findIdx? hindex hia, fun hwritable => ?_, fun hsigner => ?_⟩
  · exact Bool.not_eq_false _ ▸ hcheck.1 hwritable
  · by_cases hcallerSigner : ia.isSigner = true
    · exact Or.inl hcallerSigner
    · refine Or.inr ?_
      have hmem := hcheck.2.1 hsigner (Bool.eq_false_iff.mpr hcallerSigner)
      rw [← hxkey]
      simpa using hmem

end Prepared

/-- After a successful `prepare_instruction` no privilege is gained and every place has the
requested account. -/
theorem prepareInstruction_noEscalation
    (h : prepareInstruction accounts ic instruction signers = .ok (prepared, programs))
    (hshort : Short accounts ic instruction.accounts) :
    NoEscalation accounts ic instruction.accounts signers prepared := by
  obtain ⟨hlength, hprepared⟩ := prepareInstruction_prepared h
  refine ⟨hlength, fun {n m a} hn ha => ?_⟩
  have hprep := hprepared n m a hn ha
  obtain ⟨hwritable, hsigner⟩ := hprep.requests hshort.accounts
  obtain ⟨f, hf, hcallee, _⟩ := hprep.firstPlace hshort.accounts
  obtain ⟨ia, hia, hiaWritable, hiaSigner⟩ :=
    hprep.caller hshort.accounts (le_of_add_le_right hshort.caller)
  refine ⟨key_of_findIndexOfAccount hshort.accounts hprep.index, ?_, hwritable, hsigner, ?_, ?_⟩
  · obtain ⟨m', hm', hkey⟩ := getElem?_findIdx? hf
    have hlt := (List.getElem?_eq_some_iff.mp hm').1
    rw [hcallee, asIndexOfAccount_of_lt (hlt.trans_le hshort.metas), hm', map_some,
      of_decide_eq_true hkey]
  · rw [hia]
    exact hiaWritable
  · rw [hia]
    exact hiaSigner

end Result

def exampleAccount (executable : Bool) : AccountSharedData :=
  { lamports := 1, data := [], owner := default, executable, rentEpoch := 0, remote := false }

def exampleAccounts : TransactionAccounts :=
  [(⟨1⟩, exampleAccount false), (⟨2⟩, exampleAccount false), (⟨3⟩, exampleAccount true)]

/-- A caller with all three accounts, of which it may write the first one. -/
def exampleCaller : InstructionContext :=
  InstructionContext.default.configure [2]
    [⟨0, 0, true, true⟩, ⟨1, 1, false, false⟩, ⟨2, 2, false, false⟩] []

def exampleCall (metas : List AccountMeta) : StableInstruction := ⟨metas, [], ⟨3⟩⟩

/-- An account that is requested twice, and another one. -/
def exampleMetas : List AccountMeta :=
  [⟨⟨1⟩, true, false⟩, ⟨⟨2⟩, false, false⟩, ⟨⟨1⟩, false, true⟩]

theorem prepareInstruction_noEscalation_repeated : ∃ prepared programs,
    prepareInstruction exampleAccounts exampleCaller (exampleCall exampleMetas) [] =
      .ok (prepared, programs) ∧
    NoEscalation exampleAccounts exampleCaller (exampleCall exampleMetas).accounts [] prepared := by
  obtain ⟨result, hresult⟩ : ∃ result,
      prepareInstruction exampleAccounts exampleCaller (exampleCall exampleMetas) [] = .ok result :=
    ⟨_, rfl⟩
  exact ⟨result.1, result.2, hresult,
    prepareInstruction_noEscalation hresult ⟨by decide, by decide, by decide⟩⟩

def repeatedMeta : AccountMeta := ⟨⟨1⟩, false, false⟩

def lastMeta : AccountMeta := ⟨⟨2⟩, false, false⟩

def repeatedAccount : PreparedAccount := ⟨⟨0, 0, false, false⟩, 0⟩

def lastAccount (n : Nat) : PreparedAccount := ⟨⟨1, asIndexOfAccount n, false, false⟩, 1⟩

theorem dedup_repeated (n k : Nat) (indices : List Nat) :
    ((List.replicate n repeatedMeta).zipIdx k).foldlM (dedupAccount exampleAccounts exampleCaller)
        ⟨[repeatedAccount], indices⟩ =
      .ok ⟨[repeatedAccount], indices ++ List.replicate n 0⟩ := by
  induction n generalizing k indices with
  | zero =>
    simp only [replicate_zero, append_nil]
    rfl
  | succ n ih =>
    refine (ih (k + 1) (indices ++ [0])).trans ?_
    rw [append_assoc, singleton_append, replicate_succ]

theorem copy_repeated (d : Dedup) (hd : d.account 0 = .ok repeatedAccount) (n : Nat)
    (last : PreparedAccount) (hlast : d.account 1 = .ok last) :
    (List.replicate n 0 ++ [1]).mapM d.account =
      .ok (List.replicate n repeatedAccount ++ [last]) := by
  induction n with
  | zero =>
    rw [replicate_zero, nil_append, mapM_cons, hlast]
    rfl
  | succ n ih =>
    rw [replicate_succ, cons_append, mapM_cons, hd, ih]
    rfl

/-- A call with an account `n + 1` times and another one after it. -/
theorem prepare_repeated (n : Nat) :
    prepareInstruction exampleAccounts exampleCaller
        (exampleCall (List.replicate (n + 1) repeatedMeta ++ [lastMeta])) [] =
      .ok (List.replicate (n + 1) repeatedAccount ++ [lastAccount (n + 1)], [2]) := by
  have hfirst : dedupAccount exampleAccounts exampleCaller ⟨[], []⟩ (repeatedMeta, 0) =
      .ok ⟨[repeatedAccount], [0]⟩ := rfl
  have hlast : ∀ indices, dedupAccount exampleAccounts exampleCaller ⟨[repeatedAccount], indices⟩
      (lastMeta, n + 1) = .ok ⟨[repeatedAccount, lastAccount (n + 1)], indices ++ [1]⟩ :=
    fun _ => rfl
  have hloop : ((replicate (n + 1) repeatedMeta ++ [lastMeta]).zipIdx).foldlM
      (dedupAccount exampleAccounts exampleCaller) ⟨[], []⟩ =
        .ok ⟨[repeatedAccount, lastAccount (n + 1)], replicate (n + 1) 0 ++ [1]⟩ := by
    rw [zipIdx_append, foldlM_append, replicate_succ, zipIdx_cons, foldlM_cons, hfirst]
    refine bind_ok_iff.mpr ⟨_, dedup_repeated n 1 [0], ?_⟩
    rw [length_cons, length_replicate, Nat.zero_add, zipIdx_singleton, foldlM_cons, hlast]
    rfl
  refine bind_ok_iff.mpr ⟨_, hloop, bind_ok_iff.mpr ⟨(), rfl, ?_⟩⟩
  refine bind_ok_iff.mpr ⟨_, copy_repeated _ rfl (n + 1) _ rfl, ?_⟩
  exact bind_ok_iff.mpr ⟨2, rfl, rfl⟩

/-- The account after 65536 others has the place of the first one as its place in the callee. -/
theorem wrapped_callee_index :
    ¬∀ (accounts : TransactionAccounts) (ic : InstructionContext) (instruction : StableInstruction)
      (signers : List Pubkey) (prepared : List PreparedAccount) (programs : List Nat),
      prepareInstruction accounts ic instruction signers = .ok (prepared, programs) →
        NoEscalation accounts ic instruction.accounts signers prepared := by
  intro hall
  have hsafe := hall _ _ _ _ _ _ (prepare_repeated 65535)
  have hmeta : (replicate (65535 + 1) repeatedMeta ++ [lastMeta])[65536]? = some lastMeta := by
    rw [getElem?_append_right (by rw [length_replicate]), length_replicate]
    rfl
  have haccount :
    (replicate (65535 + 1) repeatedAccount ++ [lastAccount (65535 + 1)])[65536]? =
      some (lastAccount (65535 + 1)) := by
    rw [getElem?_append_right (by rw [length_replicate]), length_replicate]
    rfl
  have hcallee := (hsafe.faithful hmeta haccount).sameInCallee
  exact absurd hcallee (by decide)

end Privileges
end Hypergrid
