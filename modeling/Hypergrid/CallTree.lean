import Hypergrid.Privileges

/-!
# Instructions that call instructions

The model of `push`, `pop` and `process_instruction` of `program-runtime/src/invoke_context.rs`
and of the loop of `process_message`, over what a program does: a `Code` is a sequence of setters
and of calls, each call with the code of the program that it runs.  A program may go on after a
setter or a call has failed.

* `prepareInstruction_guarded` : a callee writes nothing that its caller may not write.
* `run_spec` : what a call tree keeps, by induction on the tree.
* `processMessage_readonly` : no instruction at any depth writes a remote account.
-/

namespace Hypergrid
open List Option InvokeContext Privileges

/-- The invoke context with the instructions that are running. -/
structure CallContext extends InvokeContext where
  /-- the current instruction is the first one -/
  instructionStack : List InstructionContext
  /-- the instructions that were pushed, and the next one -/
  instructionTrace : List InstructionContext
  nextInstruction : InstructionContext
  instructionStackCapacity : Nat
  instructionTraceCapacity : Nat
  accountsResizeDelta : Int
  /-- the `touched_flags` of the accounts -/
  touchedFlags : List Bool
  rent : Rent

/-- What a program does. -/
inductive Code where
  | done
  | modify (account : AccountRef) (m : Modification) (rest : Code)
  | invoke (instruction : StableInstruction) (signers : List Pubkey) (callee : Code)
      (rest : Code)

namespace CallContext

variable (c : CallContext)
variable (programIndices : List Nat) (accounts : List InstructionAccount) (data : List UInt8)

def configure (programIndices : List Nat) (instructionAccounts : List InstructionAccount)
    (data : List UInt8) : CallContext :=
  { c with
    nextInstruction := c.nextInstruction.configure programIndices instructionAccounts data }

/-- The lamports of the current instruction are those it started with. -/
def checkBalanced : Except InstructionError Unit :=
  match c.instructionStack with
  | [] => .ok ()
  | current :: _ => do
      let sum ← current.lamportSum c.accounts
      if current.instructionAccountsLamportSum ≠ sum then .error .unbalancedInstruction
      else .ok ()

/-- `push` of the transaction context. -/
def pushContext : CallContext × Except InstructionError Unit :=
  match c.nextInstruction.lamportSum c.accounts with
  | .error e => (c, .error e)
  | .ok sum =>
    match c.checkBalanced with
    | .error e => (c, .error e)
    | .ok () =>
      let next := { c.nextInstruction with
        nestingLevel := c.instructionStack.length
        instructionAccountsLamportSum := sum }
      if c.instructionTraceCapacity ≤ c.instructionTrace.length then
        ({ c with nextInstruction := next }, .error .maxInstructionTraceLengthExceeded)
      else
        let c := { c with
          instructionTrace := c.instructionTrace ++ [next]
          nextInstruction := InstructionContext.default }
        if c.instructionStackCapacity ≤ c.instructionStack.length then
          (c, .error .callDepth)
        else ({ c with instructionStack := next :: c.instructionStack }, .ok ())

def runsProgram (programId : Pubkey) (ic : InstructionContext) : Bool :=
  match ic.getLastProgramKey c.accounts with
  | .ok key => decide (key = programId)
  | .error _ => false

/-- `push`: a program may call itself, but not come back through another one. -/
def push : CallContext × Except InstructionError Unit :=
  match c.nextInstruction.getLastProgramKey c.accounts with
  | .error _ => (c, .error .unsupportedProgramId)
  | .ok programId =>
    if c.instructionStack.any (c.runsProgram programId) &&
        !(c.instructionStack.head?.any (c.runsProgram programId)) then
      (c, .error .reentrancyNotAllowed)
    else c.pushContext

/-- `pop`: the instruction is always popped. -/
def pop : CallContext × Except InstructionError Unit :=
  match c.instructionStack with
  | [] => (c, .error .callDepth)
  | current :: rest =>
    let balanced : Except InstructionError Unit :=
      if current.programAccounts.all (fun i => (c.accounts[i]?).isSome) then c.checkBalanced
      else .error .notEnoughAccountKeys
    ({ c with instructionStack := rest }, balanced)

def modify (account : AccountRef) (m : Modification) : CallContext × Except InstructionError Unit :=
  match c.instructionStack with
  | [] => (c, .error .callDepth)
  | ic :: _ =>
    match ic.indexInTransaction account with
    | none => (c, .error .notEnoughAccountKeys)
    | some index =>
      match c.accounts[index]? with
      | none => (c, .error .missingAccount)
      | some x =>
        let env : BorrowEnv :=
          { isWritable := ic.isWritable account
            currentProgram := (ic.getLastProgramKey c.accounts).toOption
            rent := c.rent }
        let r := m.apply env
          { account := x.2
            touched := (c.touchedFlags[index]?).getD false
            accountsResizeDelta := c.accountsResizeDelta }
        ({ c with
            accounts := c.accounts.set index (x.1, r.1.account)
            accountsResizeDelta := r.1.accountsResizeDelta
            touchedFlags := c.touchedFlags.set index r.1.touched },
          r.2)

def enter : CallContext × Except InstructionError Unit :=
  (c.configure programIndices accounts data).push

/-- The calls and the setters of a program, in their order.  A call pops what it has pushed,
whatever the result. -/
def run : Code → CallContext → CallContext
  | .done, c => c
  | .modify account m rest, c => run rest (c.modify account m).1
  | .invoke instruction signers callee rest, c =>
    match c.instructionStack with
    | [] => run rest c
    | ic :: _ =>
      match prepareInstruction c.accounts ic instruction signers with
      | .error _ => run rest c
      | .ok (prepared, programIndices) =>
        match c.enter programIndices (prepared.map PreparedAccount.toInstructionAccount)
          instruction.data with
        | (c, .error _) => run rest c
        | (c, .ok ()) => run rest ((run callee c).pop).1

/-- `process_instruction` of an instruction of the message; `result` is what the program
returns. -/
def processInstruction (code : Code) (result : Except InstructionError Unit) :
    CallContext × Except InstructionError Unit :=
  match c.enter programIndices accounts data with
  | (c, .error e) => (c, .error e)
  | (c, .ok ()) =>
    let popped := (run code c).pop
    (popped.1, result.bind (fun _ => popped.2))

/-- The push and the pop for a precompiled program. -/
def processPrecompile : CallContext × Except InstructionError Unit :=
  match (c.configure programIndices accounts data).pushContext with
  | (c, .error e) => (c, .error e)
  | (c, .ok ()) => c.pop

/-- An instruction of the message, its program indices, and what its program does. -/
structure MessageCall where
  instruction : CompiledInstruction
  programIndices : List Nat
  code : Code
  result : Except InstructionError Unit

def processMessage (isPrecompile : Pubkey → Bool) (message : SanitizedMessage) :
    List (MessageCall × Nat) → CallContext → CallContext × Except TransactionError Unit
  | [], c => (c, .ok ())
  | (call, index) :: rest, c =>
    let c := { c with toInvokeContext := c.toInvokeContext.fixInstructionsSysvar index }
    let accounts := c.toInvokeContext.instructionAccounts message call.instruction
    let programId :=
      (message.accountKeys[call.instruction.programIdIndex.toNat]?).getD default
    let r :=
      if isPrecompile programId then
        c.processPrecompile call.programIndices accounts call.instruction.data
      else
        c.processInstruction call.programIndices accounts call.instruction.data call.code
          call.result
    match r.2 with
    | .ok () => processMessage isPrecompile message rest r.1
    | .error _ => (r.1, .error (.instructionError index))

/-- `InvokeContext::new` on the loaded accounts of a transaction. -/
def new (ctx : InvokeContext) (rent : Rent)
    (instructionStackCapacity instructionTraceCapacity : Nat) : CallContext :=
  { ctx with
    instructionStack := []
    instructionTrace := []
    nextInstruction := InstructionContext.default
    instructionStackCapacity
    instructionTraceCapacity
    accountsResizeDelta := 0
    touchedFlags := ctx.accounts.map (fun _ => false)
    rent }

end CallContext

def flags (accounts : List (Pubkey × AccountSharedData)) : List (Pubkey × Bool) :=
  accounts.map (fun x => (x.1, x.2.remote))

/-- What an instruction may write is no remote account, and its accounts are few enough for the
casts of their places. -/
structure InvokeContext.Guarded (ctx : InvokeContext) (programAccounts : List Nat)
    (accounts : List InstructionAccount) : Prop where
  short : programAccounts.length + accounts.length ≤ 2 ^ 16
  writable : ∀ ia ∈ accounts, ia.isWritable = true →
    ∃ k, findIndexOfAccount ctx.accounts k = some ia.indexInTransaction ∧ ctx.isRemote k = false

/-- The lists of accounts that the calls are given have less than `2 ^ 16` entries;
`check_instruction_size` of the system call accepts at most 255. -/
def Code.Short : Code → Prop
  | .done => True
  | .modify _ _ rest => rest.Short
  | .invoke instruction _ callee rest =>
    instruction.accounts.length < 2 ^ 16 ∧ callee.Short ∧ rest.Short

namespace CallContext

variable {c c' c'' : CallContext} {ic : InstructionContext} {k : Pubkey}
variable {programAccounts : List Nat} {accounts : List InstructionAccount}
variable {x : Pubkey × AccountSharedData} {i : Nat}

/-- What running instructions keeps: keys, flags and remote accounts. -/
structure Keeps (c c' : CallContext) : Prop where
  flags : flags c'.accounts = flags c.accounts
  remote : ∀ (i : Nat) (x : Pubkey × AccountSharedData), c.accounts[i]? = some x →
    x.2.remote = true → c'.accounts[i]? = some x

theorem Keeps.refl (c : CallContext) : c.Keeps c := ⟨rfl, fun _ _ h _ => h⟩

theorem Keeps.trans (h : c.Keeps c') (h' : c'.Keeps c'') : c.Keeps c'' where
  flags := h'.flags.trans h.flags
  remote := fun i x hx hr => h'.remote i x (h.remote i x hx hr) hr

theorem Keeps.of_accounts (h : c'.accounts = c.accounts) : c.Keeps c' :=
  ⟨by rw [h], fun i x hx _ => by rw [h]; exact hx⟩

/-- No instruction that runs or has run may write a remote account. -/
structure Sealed (c : CallContext) : Prop where
  few : c.accounts.length ≤ 2 ^ 16
  stack : ∀ ic ∈ c.instructionStack, c.Guarded ic.programAccounts ic.instructionAccounts
  trace : ∀ ic ∈ c.instructionTrace, c.Guarded ic.programAccounts ic.instructionAccounts

theorem findIndexOfAccount_flags (c : CallContext) (k : Pubkey) :
    findIndexOfAccount c.accounts k =
      ((flags c.accounts).findIdx? (fun y => y.1 = k)).map asIndexOfAccount := by
  unfold findIndexOfAccount Hypergrid.flags
  rw [findIdx?_map]
  rfl

theorem isRemote_flags (c : CallContext) (k : Pubkey) :
    c.isRemote k = ((findIndexOfAccount c.accounts k).bind (fun i => (flags c.accounts)[i]?)).any
      Prod.snd := by
  unfold isRemote Hypergrid.flags
  cases findIndexOfAccount c.accounts k with
  | none => rfl
  | some i =>
    simp only [bind_some, getElem?_map]
    cases c.accounts[i]? <;> rfl

theorem Keeps.length (hk : c.Keeps c') : c'.accounts.length = c.accounts.length := by
  simpa [Hypergrid.flags] using congrArg List.length hk.flags

theorem guarded_keeps (h : c.Guarded programAccounts accounts) (hk : c.Keeps c') :
    c'.Guarded programAccounts accounts := by
  refine ⟨h.short, fun ia hia hw => ?_⟩
  obtain ⟨k, hfind, hremote⟩ := h.writable ia hia hw
  refine ⟨k, ?_, ?_⟩
  · rw [findIndexOfAccount_flags, hk.flags, ← findIndexOfAccount_flags]
    exact hfind
  · rw [isRemote_flags, findIndexOfAccount_flags, hk.flags, ← findIndexOfAccount_flags,
      ← isRemote_flags]
    exact hremote

/-- The accounts change, but no instruction is added. -/
theorem Sealed.keeps (h : c.Sealed) (hk : c.Keeps c')
    (hstack : c'.instructionStack = c.instructionStack)
    (htrace : c'.instructionTrace = c.instructionTrace) : c'.Sealed where
  few := hk.length.trans_le h.few
  stack := fun ic hic => guarded_keeps (h.stack ic (hstack ▸ hic)) hk
  trace := fun ic hic => guarded_keeps (h.trace ic (htrace ▸ hic)) hk

theorem guarded_not_remote (h : c.Guarded ic.programAccounts ic.instructionAccounts)
    {account : AccountRef} (hi : ic.indexInTransaction account = some i)
    (hx : c.accounts[i]? = some x) (hw : ic.isWritable account = true) :
    x.2.remote = false := by
  cases account with
  | programAccount j => cases hw
  | instructionAccount j =>
    simp only [InstructionContext.indexInTransaction, map_eq_some_iff] at hi
    simp only [InstructionContext.isWritable] at hw
    obtain ⟨ia, hia, rfl⟩ := hi
    rw [hia] at hw
    obtain ⟨k, hfind, hremote⟩ := h.writable ia (mem_of_getElem? hia) hw
    rw [isRemote, hfind, bind_some, hx, any_some] at hremote
    exact hremote

theorem flags_set {accounts : List (Pubkey × AccountSharedData)}
    {x y : Pubkey × AccountSharedData} (hx : accounts[i]? = some x)
    (hkey : y.1 = x.1) (hflag : y.2.remote = x.2.remote) :
    Hypergrid.flags (accounts.set i y) = Hypergrid.flags accounts := by
  unfold Hypergrid.flags
  rw [map_set]
  refine ext_getElem? (fun j => ?_)
  rw [getElem?_set, getElem?_map]
  split_ifs with hij hlt
  · subst hij
    rw [hx, map_some, hkey, hflag]
  · subst hij
    rw [length_map] at hlt
    rw [getElem?_eq_none (Nat.le_of_not_lt hlt)]
    rfl
  · rfl

/-- Either no account is borrowed and nothing changes, or the setter changes one account, its flag
and the delta. -/
theorem modify_cases (c : CallContext) (account : AccountRef) (m : Modification) :
    (∃ e, c.modify account m = (c, .error e)) ∨
      ∃ ic rest index x env b b' r flags, c.instructionStack = ic :: rest ∧
        ic.indexInTransaction account = some index ∧ c.accounts[index]? = some x ∧
        env.isWritable = ic.isWritable account ∧ b.account = x.2 ∧
        b.accountsResizeDelta = c.accountsResizeDelta ∧ Modified env b b' r ∧
        c.modify account m = ({ c with
          accounts := c.accounts.set index (x.1, b'.account)
          accountsResizeDelta := b'.accountsResizeDelta
          touchedFlags := flags }, r) := by
  unfold modify
  cases hstack : c.instructionStack with
  | nil => exact .inl ⟨_, rfl⟩
  | cons ic rest =>
    dsimp only
    cases hindex : ic.indexInTransaction account with
    | none => exact .inl ⟨_, rfl⟩
    | some index =>
      dsimp only
      cases hx : c.accounts[index]? with
      | none => exact .inl ⟨_, rfl⟩
      | some x =>
        exact .inr ⟨ic, rest, index, x, _, _, _, _, _, rfl, hindex, hx, rfl, rfl, rfl,
          m.apply_modified, rfl⟩

section Sealed
variable (h : c.Sealed)
include h

theorem modify_keeps (account : AccountRef) (m : Modification) :
    c.Keeps (c.modify account m).1 ∧ (c.modify account m).1.instructionStack = c.instructionStack ∧
      (c.modify account m).1.instructionTrace = c.instructionTrace := by
  rcases modify_cases c account m with ⟨e, hrefused⟩ |
    ⟨ic, rest, i, x, env, b, b', r, flags, hstack, hi, hx, hwrite, hb, _, hset, hmodify⟩
  · rw [hrefused]
    exact ⟨.refl c, rfl, rfl⟩
  · rw [hmodify]
    refine ⟨⟨flags_set hx rfl (hb ▸ hset.remote), ?_⟩, rfl, rfl⟩
    intro j y hy hremote
    rw [getElem?_set]
    split_ifs with hij hlt
    · subst hij
      rw [hx, some.injEq] at hy
      subst hy
      have hguarded := h.stack ic (by rw [hstack]; exact mem_cons_self)
      rcases hset.writable with hw | hsame
      · have hnot := guarded_not_remote hguarded hi hx (hwrite.symm.trans hw)
        rw [hnot] at hremote
        cases hremote
      · rw [hsame, hb]
    · subst hij
      exact absurd (List.getElem?_eq_some_iff.mp hy).1 hlt
    · exact hy

theorem Sealed.modify (account : AccountRef) (m : Modification) :
    (c.modify account m).1.Sealed := by
  obtain ⟨hkeeps, hstack, htrace⟩ := modify_keeps h account m
  exact h.keeps hkeeps hstack htrace

theorem pushContext_spec (hnext : c.Guarded c.nextInstruction.programAccounts
      c.nextInstruction.instructionAccounts) :
    c.pushContext.1.accounts = c.accounts ∧ c.pushContext.1.Sealed := by
  unfold pushContext
  split
  · exact ⟨rfl, h⟩
  · split
    · exact ⟨rfl, h⟩
    · dsimp only
      split_ifs with htrace hdepth
      · exact ⟨rfl, h.few, h.stack, h.trace⟩
      · refine ⟨rfl, h.few, h.stack, ?_⟩
        intro ic hic
        rcases mem_append.mp hic with hic | hic
        · exact h.trace ic hic
        · rw [mem_singleton.mp hic]
          exact hnext
      · refine ⟨rfl, h.few, ?_, ?_⟩
        · intro ic hic
          rcases mem_cons.mp hic with rfl | hic
          · exact hnext
          · exact h.stack ic hic
        · intro ic hic
          rcases mem_append.mp hic with hic | hic
          · exact h.trace ic hic
          · rw [mem_singleton.mp hic]
            exact hnext

theorem configure_sealed (programIndices : List Nat) (accounts : List InstructionAccount)
    (data : List UInt8) : (c.configure programIndices accounts data).Sealed :=
  ⟨h.few, h.stack, h.trace⟩

theorem enter_spec (data : List UInt8) (hguarded : c.Guarded programAccounts accounts) :
    (c.enter programAccounts accounts data).1.accounts = c.accounts ∧
      (c.enter programAccounts accounts data).1.Sealed := by
  have hsealed := configure_sealed h programAccounts accounts data
  unfold enter push
  split
  · exact ⟨rfl, hsealed⟩
  · split_ifs
    · exact ⟨rfl, hsealed⟩
    · exact pushContext_spec hsealed hguarded

theorem pop_spec : c.pop.1.accounts = c.accounts ∧ c.pop.1.Sealed := by
  unfold pop
  cases hstack : c.instructionStack with
  | nil => exact ⟨rfl, h⟩
  | cons current rest =>
    refine ⟨rfl, h.few, ?_, h.trace⟩
    intro ic hic
    exact h.stack ic (by rw [hstack]; exact mem_cons_of_mem _ hic)

/-- A callee writes nothing that its caller may not write. -/
theorem prepareInstruction_guarded (hic : c.Guarded ic.programAccounts ic.instructionAccounts)
    {instruction : StableInstruction} {signers : List Pubkey} {prepared : List PreparedAccount}
    {programIndices : List Nat} (hshort : instruction.accounts.length < 2 ^ 16)
    (hprepare : prepareInstruction c.accounts ic instruction signers =
      .ok (prepared, programIndices)) :
    c.Guarded programIndices (prepared.map PreparedAccount.toInstructionAccount) := by
  obtain ⟨hlength, hprepared⟩ := prepareInstruction_prepared hprepare
  have hprogram : programIndices.length = 1 := by
    obtain ⟨_, _, hrest⟩ := Checked.bind_ok hprepare
    obtain ⟨_, _, hrest⟩ := Checked.bind_ok hrest
    obtain ⟨_, _, hrest⟩ := Checked.bind_ok hrest
    obtain ⟨_, _, hresult⟩ := Checked.bind_ok hrest
    cases hresult
    rfl
  refine ⟨by rw [length_map]; omega, fun ia hia hw => ?_⟩
  obtain ⟨a, ha, rfl⟩ := mem_map.mp hia
  obtain ⟨n, hn⟩ := List.mem_iff_getElem?.mp ha
  have hlt : n < instruction.accounts.length := hlength ▸ (List.getElem?_eq_some_iff.mp hn).1
  have hat := hprepared n _ a (List.getElem?_eq_getElem hlt) hn
  obtain ⟨ia, hcaller, hwritable, _⟩ := hat.caller h.few (le_of_add_le_right hic.short)
  obtain ⟨k, hfind, hremote⟩ := hic.writable ia (mem_of_find?_eq_some hcaller) (hwritable hw)
  -- the account of the caller belongs to the same key
  have hkey : k = instruction.accounts[n].pubkey := by
    have hhas : hasKey c.accounts _ ia = true := find?_some hcaller
    rw [hasKey, decide_eq_true_iff, key_of_findIndexOfAccount h.few hfind] at hhas
    exact some.inj hhas
  exact ⟨k, hkey ▸ hat.index, hremote⟩

end Sealed

theorem run_spec {code : Code} (hshort : code.Short) (h : c.Sealed) :
    c.Keeps (run code c) ∧ (run code c).Sealed := by
  induction code generalizing c with
  | done => exact ⟨.refl c, h⟩
  | modify account m rest ih =>
    obtain ⟨hkeeps, hsealed⟩ := ih hshort (h.modify account m)
    exact ⟨(modify_keeps h account m).1.trans hkeeps, hsealed⟩
  | invoke instruction signers callee rest ihcallee ihrest =>
    obtain ⟨hmetas, hcallee, hrest⟩ := hshort
    rw [run]
    cases hstack : c.instructionStack with
    | nil => exact ihrest hrest h
    | cons ic stack =>
      dsimp only
      have hic := h.stack ic (by rw [hstack]; exact mem_cons_self)
      cases hprepare : prepareInstruction c.accounts ic instruction signers with
      | error e => exact ihrest hrest h
      | ok result =>
        obtain ⟨prepared, programIndices⟩ := result
        dsimp only
        have hguarded := prepareInstruction_guarded h hic hmetas hprepare
        obtain ⟨haccounts, hentered⟩ := enter_spec h instruction.data hguarded
        generalize c.enter programIndices _ instruction.data = entered at *
        obtain ⟨c₁, result⟩ := entered
        have hstart := Keeps.of_accounts haccounts
        cases result with
        | error e =>
          obtain ⟨hkeeps, hsealed⟩ := ihrest hrest hentered
          exact ⟨hstart.trans hkeeps, hsealed⟩
        | ok u =>
          obtain ⟨hcalled, hsealed⟩ := ihcallee hcallee hentered
          obtain ⟨hpop, hpopped⟩ := pop_spec hsealed
          obtain ⟨hkeeps, hdone⟩ := ihrest hrest hpopped
          exact ⟨((hstart.trans hcalled).trans (.of_accounts hpop)).trans hkeeps, hdone⟩

/-- An account under the key of the instructions sysvar is not remote. -/
def SysvarLocal (accounts : List (Pubkey × AccountSharedData)) : Prop :=
  ∀ x ∈ accounts, x.1 = instructionsSysvarId → x.2.remote = false

/-- The accounts of a transaction: those of the message in its order, then the loaders, and the
instructions sysvar is not a remote account. -/
structure LoadedFor (message : SanitizedMessage)
    (accounts : List (Pubkey × AccountSharedData)) : Prop where
  keys : ∃ deps, accounts.map Prod.fst = message.accountKeys ++ deps
  nodup : message.accountKeys.Nodup
  sysvar : SysvarLocal accounts

section Message
variable {message : SanitizedMessage} {isPrecompile : Pubkey → Bool}
variable {accounts : List InstructionAccount}

section LoadedFor
variable (h : LoadedFor message c.accounts)
include h

theorem LoadedFor.keeps (hk : c.Keeps c') : LoadedFor message c'.accounts where
  keys := by
    obtain ⟨deps, hdeps⟩ := h.keys
    refine ⟨deps, ?_⟩
    have hfst := congrArg (map Prod.fst) hk.flags
    simp only [Hypergrid.flags, List.map_map] at hfst
    exact hfst.trans hdeps
  nodup := h.nodup
  sysvar := by
    intro x hx hkey
    have hmem : (x.1, x.2.remote) ∈ Hypergrid.flags c'.accounts :=
      mem_map_of_mem (f := fun x => (x.1, x.2.remote)) hx
    rw [hk.flags] at hmem
    obtain ⟨y, hy, heq⟩ := mem_map.mp hmem
    rw [Prod.mk.injEq] at heq
    rw [← heq.2]
    exact h.sysvar y hy (heq.1.trans hkey)

theorem fixInstructionsSysvar_keeps (hfew : c.accounts.length ≤ 2 ^ 16) (index : Nat) :
    c.Keeps { c with toInvokeContext := c.toInvokeContext.fixInstructionsSysvar index } := by
  unfold fixInstructionsSysvar
  cases hfind : findIndexOfAccount c.accounts instructionsSysvarId with
  | none => exact .refl c
  | some i =>
    have hkey := key_of_findIndexOfAccount hfew hfind
    obtain ⟨x, hx, hxkey⟩ := map_eq_some_iff.mp hkey
    have hlocal := h.sysvar x (mem_of_getElem? hx) hxkey
    refine ⟨?_, ?_⟩
    · unfold Hypergrid.flags
      refine ext_getElem? (fun j => ?_)
      simp only [getElem?_map, getElem?_modify]
      cases c.accounts[j]? with
      | none => simp
      | some y => by_cases hij : i = j <;> simp [hij]
    · intro j y hy hremote
      rw [getElem?_modify, hy]
      by_cases hij : i = j
      · subst hij
        rw [hx, some.injEq] at hy
        rw [← hy, hlocal] at hremote
        cases hremote
      · simp [hij]

theorem findIndexOfAccount_message (hfew : c.accounts.length ≤ 2 ^ 16)
    (hi : message.accountKeys[i]? = some k) : findIndexOfAccount c.accounts k = some i := by
  obtain ⟨deps, hdeps⟩ := h.keys
  obtain ⟨hlt, hkey⟩ := List.getElem?_eq_some_iff.mp hi
  have hat : ∀ j, j < message.accountKeys.length →
      (c.accounts[j]?).map Prod.fst = message.accountKeys[j]? := by
    intro j hj
    rw [← getElem?_map, hdeps, getElem?_append_left hj]
  have hlength : message.accountKeys.length ≤ c.accounts.length := by
    have := congrArg length hdeps
    rw [length_map, length_append] at this
    omega
  rw [findIndexOfAccount, findIdx?_cast hfew]
  refine findIdx?_eq_some_iff_getElem.mpr ⟨by omega, ?_, ?_⟩
  · have hkey' := hat i hlt
    rw [hi, getElem?_eq_getElem (by omega), map_some, some.injEq] at hkey'
    exact decide_eq_true hkey'
  · intro j hj hsame
    have hkey' := hat j (by omega)
    rw [getElem?_eq_getElem (by omega), map_some, of_decide_eq_true hsame,
      getElem?_eq_getElem (by omega), some.injEq, ← hkey] at hkey'
    have := (List.Nodup.getElem_inj_iff h.nodup).mp hkey'
    omega

theorem instructionAccounts_guarded (hfew : c.accounts.length ≤ 2 ^ 16) {ix : CompiledInstruction}
    (hshort : programAccounts.length + ix.accounts.length ≤ 2 ^ 16) :
    c.Guarded programAccounts (c.toInvokeContext.instructionAccounts message ix) := by
  refine ⟨by simpa [instructionAccounts] using hshort, fun ia hia hw => ?_⟩
  simp only [instructionAccounts, List.mem_map] at hia
  obtain ⟨x, _, rfl⟩ := hia
  rw [Bool.and_eq_true, Bool.not_eq_true'] at hw
  obtain ⟨hwritable, hlocal⟩ := hw
  cases hkey : message.accountKeys[x.1.toNat]? with
  | none =>
    unfold SanitizedMessage.isWritable at hwritable
    rw [hkey, Bool.and_false] at hwritable
    cases hwritable
  | some k =>
    rw [hkey, any_some] at hlocal
    exact ⟨k, findIndexOfAccount_message h hfew hkey, hlocal⟩

end LoadedFor

theorem processInstruction_spec (h : c.Sealed) (data : List UInt8) {code : Code}
    (hshort : code.Short) (result : Except InstructionError Unit)
    (hguarded : c.Guarded programAccounts accounts) :
    c.Keeps (c.processInstruction programAccounts accounts data code result).1 ∧
      (c.processInstruction programAccounts accounts data code result).1.Sealed := by
  obtain ⟨haccounts, hentered⟩ := enter_spec h data hguarded
  unfold processInstruction
  generalize c.enter programAccounts accounts data = entered at *
  obtain ⟨c₁, r⟩ := entered
  have hstart := Keeps.of_accounts haccounts
  cases r with
  | error e => exact ⟨hstart, hentered⟩
  | ok u =>
    obtain ⟨hcode, hsealed⟩ := run_spec hshort hentered
    obtain ⟨hpop, hpopped⟩ := pop_spec hsealed
    exact ⟨(hstart.trans hcode).trans (Keeps.of_accounts hpop), hpopped⟩

theorem processPrecompile_spec (h : c.Sealed) (data : List UInt8)
    (hguarded : c.Guarded programAccounts accounts) :
    c.Keeps (c.processPrecompile programAccounts accounts data).1 ∧
      (c.processPrecompile programAccounts accounts data).1.Sealed := by
  have hsealed := configure_sealed h programAccounts accounts data
  obtain ⟨haccounts, hpushed⟩ := pushContext_spec hsealed hguarded
  unfold processPrecompile
  generalize (c.configure programAccounts accounts data).pushContext = pushed at *
  obtain ⟨c₁, r⟩ := pushed
  have hstart : c.Keeps c₁ := .of_accounts haccounts
  cases r with
  | error e => exact ⟨hstart, hpushed⟩
  | ok u =>
    obtain ⟨hpop, hpopped⟩ := pop_spec hpushed
    exact ⟨hstart.trans (.of_accounts hpop), hpopped⟩

/-- The lists of an instruction of the message and of the calls below it are short. -/
def MessageCall.Short (call : MessageCall) : Prop :=
  call.programIndices.length + call.instruction.accounts.length ≤ 2 ^ 16 ∧ call.code.Short

theorem processMessage_spec {calls : List (MessageCall × Nat)}
    (hshort : ∀ call ∈ calls, call.1.Short) (hloaded : LoadedFor message c.accounts)
    (h : c.Sealed) :
    c.Keeps (processMessage isPrecompile message calls c).1 ∧
      (processMessage isPrecompile message calls c).1.Sealed := by
  induction calls generalizing c with
  | nil => exact ⟨.refl c, h⟩
  | cons call calls ih =>
    obtain ⟨call, index⟩ := call
    obtain ⟨⟨hlists, hcode⟩, hshort⟩ := forall_mem_cons.mp hshort
    have hfix := fixInstructionsSysvar_keeps hloaded h.few index
    have hsealed₁ := h.keeps hfix rfl rfl
    have hguarded := instructionAccounts_guarded (hloaded.keeps hfix) hsealed₁.few hlists
    have hstep : ∀ r : CallContext × Except InstructionError Unit, c.Keeps r.1 ∧ r.1.Sealed →
        c.Keeps (match r.2 with
          | .ok () => processMessage isPrecompile message calls r.1
          | .error _ => (r.1, .error (.instructionError index))).1 ∧
        (match r.2 with
          | .ok () => processMessage isPrecompile message calls r.1
          | .error _ => (r.1, .error (.instructionError index))).1.Sealed := by
      rintro ⟨c₂, result⟩ ⟨hkeeps, hsealed⟩
      cases result with
      | error e => exact ⟨hkeeps, hsealed⟩
      | ok u =>
        obtain ⟨hrest, hdone⟩ := ih hshort (hloaded.keeps hkeeps) hsealed
        exact ⟨hkeeps.trans hrest, hdone⟩
    refine hstep _ ?_
    split_ifs
    · obtain ⟨hkeeps, hsealed⟩ := processPrecompile_spec hsealed₁ call.instruction.data hguarded
      exact ⟨hfix.trans hkeeps, hsealed⟩
    · obtain ⟨hkeeps, hsealed⟩ := processInstruction_spec hsealed₁ call.instruction.data hcode
        call.result hguarded
      exact ⟨hfix.trans hkeeps, hsealed⟩

end Message

/-- No instruction at any depth may write a remote account, and a remote account is after the
message what it was before it. -/
theorem processMessage_readonly {message : SanitizedMessage} {ctx : InvokeContext} (rent : Rent)
    (instructionStackCapacity instructionTraceCapacity : Nat) (isPrecompile : Pubkey → Bool)
    {calls : List (MessageCall × Nat)} (hloaded : LoadedFor message ctx.accounts)
    (hfew : ctx.accounts.length ≤ 2 ^ 16) (hshort : ∀ call ∈ calls, call.1.Short) :
    let c := (processMessage isPrecompile message calls
      (new ctx rent instructionStackCapacity instructionTraceCapacity)).1
    (∀ ic ∈ c.instructionTrace, ∀ account index x, ic.indexInTransaction account = some index →
      ctx.accounts[index]? = some x → x.2.remote = true → ic.isWritable account = false) ∧
    ∀ (index : Nat) (x : Pubkey × AccountSharedData), ctx.accounts[index]? = some x →
      x.2.remote = true → c.accounts[index]? = some x := by
  intro c
  have hsealed : (new ctx rent instructionStackCapacity instructionTraceCapacity).Sealed :=
    ⟨hfew, fun _ hic => absurd hic not_mem_nil, fun _ hic => absurd hic not_mem_nil⟩
  have hspec : (new ctx rent instructionStackCapacity instructionTraceCapacity).Keeps c ∧
      c.Sealed := processMessage_spec hshort hloaded hsealed
  obtain ⟨hkeeps, hafter⟩ := hspec
  refine ⟨?_, hkeeps.remote⟩
  intro ic hic account index x hindex hx hremote
  by_contra hw
  rw [Bool.not_eq_false] at hw
  have hnot := guarded_not_remote (hafter.trace ic hic) hindex (hkeeps.remote index x hx hremote) hw
  rw [hnot] at hremote
  cases hremote

end CallContext
end Hypergrid
