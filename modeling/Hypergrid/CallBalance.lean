import Hypergrid.CallTree
import Hypergrid.Lib.GuardedRun

/-!
# Lamports and stacks of a call tree

`push` and `pop` of the invoke context of `program-runtime/src/invoke_context.rs` with the stack of
the contexts of system calls, and the trees of calls that `process_instruction` makes of them.

* `run_framed` : a tree changes only accounts that its calls list.
* `run_balanced` : the lamports of all accounts after an instruction whose pop was right.
* `push_matching_iff` : what a push does to the lengths of the stacks.
* `balanced_and_matching` : both for every tree and every run.
* `unbalanced_call_leaves_entry` : a call by an unbalanced instruction.
* `run_reaches` : a tree takes the steps of its events.
* `processInstruction_balanced` : the lamports for the code of a program, whose tree is `ofCode`.
* `resizeDelta_exact` : `accounts_resize_delta` in every run.
-/

namespace Hypergrid
open CallContext List Option Nat Machine InstructionContext

/-- `SyscallContext`, by its trace log. -/
structure SyscallContext where
  traceLog : List (List UInt64)

/-- The invoke context with the contexts of the system calls; the current one is the first one. -/
structure FrameContext extends CallContext where
  syscallContext : List (Option SyscallContext)
  traces : List (List (List UInt64))

namespace CallContext

/-- A program that runs below another one is called again. -/
def isReentrant (c : CallContext) (programId : Pubkey) : Bool :=
  c.instructionStack.any (c.runsProgram programId) &&
    !(c.instructionStack.head?.any (c.runsProgram programId))

end CallContext

namespace FrameContext

variable (f : FrameContext)

def push : FrameContext × Except InstructionError Unit :=
  match f.nextInstruction.getLastProgramKey f.accounts with
  | .error _ => (f, .error .unsupportedProgramId)
  | .ok programId =>
    if f.isReentrant programId then (f, .error .reentrancyNotAllowed)
    else
      let pushed := f.toCallContext.pushContext
      ({ f with
          toCallContext := pushed.1
          syscallContext := none :: f.syscallContext },
        pushed.2)

/-- The traces after the context of the current instruction is popped. -/
def popTraces : List (List (List UInt64)) :=
  match f.syscallContext with
  | some context :: _ => f.traces ++ [context.traceLog]
  | _ => f.traces

def pop : FrameContext × Except InstructionError Unit :=
  let popped := f.toCallContext.pop
  ({ f with
      toCallContext := popped.1
      syscallContext := f.syscallContext.tail
      traces := f.popTraces },
    popped.2)

def setSyscallContext (context : SyscallContext) : FrameContext :=
  match f.syscallContext with
  | [] => f
  | _ :: rest => { f with syscallContext := some context :: rest }

def modify (account : AccountRef) (m : Modification) : FrameContext :=
  { f with toCallContext := (f.toCallContext.modify account m).1 }

def configure (programIndices : List Nat) (accounts : List InstructionAccount)
    (data : List UInt8) : FrameContext :=
  { f with toCallContext := f.toCallContext.configure programIndices accounts data }

/-- The start of `process_instruction`. -/
def enter (programIndices : List Nat) (accounts : List InstructionAccount)
    (data : List UInt8) : FrameContext × Except InstructionError Unit :=
  (f.configure programIndices accounts data).push

/-- The stack of calls is that of the model without system calls. -/
theorem push_toCallContext :
    f.push.1.toCallContext = f.toCallContext.push.1 ∧ f.push.2 = f.toCallContext.push.2 := by
  unfold push CallContext.push CallContext.isReentrant
  cases f.nextInstruction.getLastProgramKey f.accounts with
  | error e => exact ⟨rfl, rfl⟩
  | ok programId =>
    dsimp only
    split <;> exact ⟨rfl, rfl⟩

theorem enter_toCallContext (programIndices : List Nat) (accounts : List InstructionAccount)
    (data : List UInt8) : f.toCallContext.enter programIndices accounts data =
      ((f.enter programIndices accounts data).1.toCallContext,
        (f.enter programIndices accounts data).2) := by
  obtain ⟨hcontext, hresult⟩ := (f.configure programIndices accounts data).push_toCallContext
  exact Prod.ext hcontext.symm hresult.symm

end FrameContext

/-- What a program does, with the accounts that each of its calls is given.  A program goes on after
a call has failed, or ends. -/
inductive CallBody where
  | done
  | modify (account : AccountRef) (m : Modification) (rest : CallBody)
  | setSyscallContext (context : SyscallContext) (rest : CallBody)
  | call (programIndices : List Nat) (accounts : List InstructionAccount) (data : List UInt8)
      (callee rest : CallBody)

namespace CallBody

/-- The tree is run, each call as `process_instruction` does it: it is popped exactly if it was
pushed.  The Boolean says that all pops returned `Ok`. -/
def run : CallBody → FrameContext → FrameContext × Bool
  | .done, f => (f, true)
  | .modify account m rest, f => rest.run (f.modify account m)
  | .setSyscallContext context rest, f => rest.run (f.setSyscallContext context)
  | .call programIndices accounts data callee rest, f =>
    match f.enter programIndices accounts data with
    | (f, .error _) => rest.run f
    | (f, .ok ()) =>
      let called := callee.run f
      let popped := called.1.pop
      let after := rest.run popped.1
      (after.1, called.2 && popped.2.isOk && after.2)

/-- All accounts that the calls of a tree list are among the given ones. -/
def Within (accounts : List InstructionAccount) : CallBody → Prop
  | .done => True
  | .modify _ _ rest => rest.Within accounts
  | .setSyscallContext _ rest => rest.Within accounts
  | .call _ listed _ callee rest =>
    (∀ ia ∈ listed, ∃ ia' ∈ accounts, ia'.indexInTransaction = ia.indexInTransaction) ∧
      callee.Within accounts ∧ rest.Within accounts

end CallBody

def totalLamports (accounts : List (Pubkey × AccountSharedData)) : Nat :=
  (accounts.map (fun x => x.2.lamports)).sum

/-- The places in the transaction of the accounts that are not marked as duplicates. -/
def countedPlaces (accounts : List InstructionAccount) : List Nat :=
  ((accounts.take (accounts.length % 2 ^ 16)).zipIdx.filter
    (fun x => x.1.indexInCallee = x.2)).map (fun x => x.1.indexInTransaction)

/-- Of the places of each account exactly one is not marked as a duplicate. -/
structure Marked (accounts : List InstructionAccount) : Prop where
  nodup : (countedPlaces accounts).Nodup
  mem : ∀ ia ∈ accounts, ia.indexInTransaction ∈ countedPlaces accounts

section Sums
variable {accounts : List (Pubkey × AccountSharedData)}

def placeLamports (accounts : List (Pubkey × AccountSharedData)) (i : Nat) : Nat :=
  ((accounts[i]?).map (fun x => x.2.lamports)).getD 0

theorem totalLamports_eq (accounts : List (Pubkey × AccountSharedData)) :
    totalLamports accounts = ∑ i ∈ Finset.range accounts.length, placeLamports accounts i := by
  induction accounts using reverseRecOn with
  | nil => rfl
  | append_singleton accounts x ih =>
    have hbefore : ∀ i ∈ Finset.range accounts.length,
        placeLamports (accounts ++ [x]) i = placeLamports accounts i := fun i hi => by
      rw [placeLamports, getElem?_append_left (Finset.mem_range.mp hi), placeLamports]
    have hlast : placeLamports (accounts ++ [x]) accounts.length = x.2.lamports := by
      rw [placeLamports, getElem?_concat_length]
      rfl
    rw [length_append, length_singleton, Finset.sum_range_succ,
      Finset.sum_congr rfl hbefore, hlast, ← ih]
    simp [totalLamports]

theorem addLamports_run {listed : List (InstructionAccount × Nat)} {start sum : Nat}
    (h : listed.foldlM (addLamports accounts) start = .ok sum) :
    let counted := (listed.filter (fun x => x.1.indexInCallee = x.2)).map
      (fun x => x.1.indexInTransaction)
    sum = start + (counted.map (placeLamports accounts)).sum ∧
      ∀ i ∈ counted, i < accounts.length := by
  induction listed generalizing start with
  | nil =>
    cases h
    exact ⟨rfl, fun i hi => absurd hi not_mem_nil⟩
  | cons x listed ih =>
    obtain ⟨next, hnext, hrest⟩ := Checked.bind_ok h
    obtain ⟨hsum, hlt⟩ := ih hrest
    unfold addLamports at hnext
    by_cases hx : x.1.indexInCallee = x.2
    · rw [if_pos hx] at hnext
      rw [filter_cons_of_pos (by simpa using hx)]
      cases hy : accounts[x.1.indexInTransaction]? with
      | none =>
        rw [hy] at hnext
        exact absurd hnext (by simp)
      | some y =>
        rw [hy] at hnext
        cases hnext
        have hat : placeLamports accounts x.1.indexInTransaction = y.2.lamports := by
          rw [placeLamports, hy]
          rfl
        refine ⟨?_, ?_⟩
        · rw [map_cons, map_cons, sum_cons, hat, hsum]
          omega
        · rw [List.map_cons, List.forall_mem_cons]
          exact ⟨(List.getElem?_eq_some_iff.mp hy).1, hlt⟩
    · rw [if_neg hx] at hnext
      cases hnext
      rw [filter_cons_of_neg (by simpa using hx)]
      exact ⟨hsum, hlt⟩

theorem totalLamports_of_marked {listed : List InstructionAccount} {ic : InstructionContext}
    {sum : Nat} (hmarked : Marked listed) (hlisted : ic.instructionAccounts = listed)
    (hsum : ic.lamportSum accounts = .ok sum) :
    totalLamports accounts = (∑ i ∈ Finset.range accounts.length \ (countedPlaces listed).toFinset,
      placeLamports accounts i) + sum := by
  subst hlisted
  obtain ⟨hcounted, hlt⟩ := addLamports_run hsum
  have hsub : (countedPlaces ic.instructionAccounts).toFinset ⊆ Finset.range accounts.length :=
    fun i hi => Finset.mem_range.mpr (hlt i (mem_toFinset.mp hi))
  have hlist : sum = ∑ i ∈ (countedPlaces ic.instructionAccounts).toFinset,
      placeLamports accounts i := by
    rw [sum_toFinset _ hmarked.nodup, hcounted, zero_add]
    rfl
  rw [totalLamports_eq, hlist, Finset.sum_sdiff hsub]

end Sums

namespace CallContext

variable (c : CallContext)

/-- The transaction context accepts the next instruction: the lamports of both instructions can be
summed, the current one is balanced, and trace and stack have room. -/
structure Fits : Prop where
  sum : (c.nextInstruction.lamportSum c.accounts).isOk = true
  balanced : c.checkBalanced = .ok ()
  trace : c.instructionTrace.length < c.instructionTraceCapacity
  stack : c.instructionStack.length < c.instructionStackCapacity

/-- The instruction that is pushed, with the lamports of its accounts. -/
def pushedInstruction (sum : Nat) : InstructionContext :=
  { c.nextInstruction with
    nestingLevel := c.instructionStack.length
    instructionAccountsLamportSum := sum }

variable {c}
variable {rest : List InstructionContext} {current : InstructionContext}

theorem pushContext_of_fits (h : c.Fits) :
    ∃ sum, c.nextInstruction.lamportSum c.accounts = .ok sum ∧
      c.pushContext = ({ c with
          instructionTrace := c.instructionTrace ++ [c.pushedInstruction sum]
          nextInstruction := default
          instructionStack := c.pushedInstruction sum :: c.instructionStack }, .ok ()) := by
  have hsum := h.sum
  cases hlamports : c.nextInstruction.lamportSum c.accounts with
  | error e =>
    rw [hlamports] at hsum
    exact absurd hsum (by simp [Except.isOk, Except.toBool])
  | ok sum =>
    refine ⟨sum, rfl, ?_⟩
    rw [pushContext, hlamports, h.balanced]
    dsimp only
    rw [if_neg (Nat.not_le_of_lt h.trace), if_neg (Nat.not_le_of_lt h.stack)]
    rfl

theorem pushContext_of_not_fits (h : ¬ c.Fits) :
    (∃ e, c.pushContext.2 = .error e) ∧ c.pushContext.1.instructionStack = c.instructionStack ∧
      c.pushContext.1.accounts = c.accounts := by
  unfold pushContext
  cases hlamports : c.nextInstruction.lamportSum c.accounts with
  | error e => exact ⟨⟨e, rfl⟩, rfl, rfl⟩
  | ok sum =>
    cases hbalanced : c.checkBalanced with
    | error e => exact ⟨⟨e, rfl⟩, rfl, rfl⟩
    | ok _ =>
      dsimp only
      split
      · exact ⟨⟨_, rfl⟩, rfl, rfl⟩
      · rename_i htrace
        split
        · exact ⟨⟨_, rfl⟩, rfl, rfl⟩
        · rename_i hstack
          refine absurd ⟨?_, hbalanced, Nat.lt_of_not_le htrace, Nat.lt_of_not_le hstack⟩ h
          rw [hlamports]
          rfl

theorem sum_of_pop (hstack : c.instructionStack = current :: rest) (h : c.pop.2.isOk = true) :
    current.lamportSum c.accounts = .ok current.instructionAccountsLamportSum := by
  unfold pop checkBalanced at h
  rw [hstack] at h
  dsimp only at h
  split at h
  · cases hsum : current.lamportSum c.accounts with
    | error e =>
      rw [hsum] at h
      exact absurd h (by simp [Except.isOk, Except.toBool, bind, Except.bind])
    | ok sum =>
      rw [hsum] at h
      simp only [bind, Except.bind] at h
      split at h
      · exact absurd h (by simp [Except.isOk, Except.toBool])
      · rename_i heq
        rw [Decidable.not_not.mp heq]
  · exact absurd h (by simp [Except.isOk, Except.toBool])

theorem pop_of_cons (hstack : c.instructionStack = current :: rest) :
    c.pop.1.instructionStack = rest ∧ c.pop.1.accounts = c.accounts ∧
      c.pop.1.instructionTrace = c.instructionTrace := by
  unfold pop
  rw [hstack]
  exact ⟨rfl, rfl, rfl⟩

theorem modify_stack (account : AccountRef) (m : Modification) :
    (c.modify account m).1.instructionStack = c.instructionStack ∧
      (c.modify account m).1.instructionTrace = c.instructionTrace := by
  rcases modify_cases c account m with ⟨e, hrefused⟩ |
    ⟨_, _, _, _, _, _, _, _, _, _, _, _, _, _, _, _, hmodify⟩
  · rw [hrefused]
    exact ⟨rfl, rfl⟩
  · rw [hmodify]
    exact ⟨rfl, rfl⟩

theorem modify_keys (account : AccountRef) (m : Modification) :
    (c.modify account m).1.accounts.map Prod.fst = c.accounts.map Prod.fst := by
  rcases modify_cases c account m with ⟨e, hrefused⟩ |
    ⟨_, _, index, x, _, _, _, _, _, _, _, hx, _, _, _, _, hmodify⟩
  · rw [hrefused]
  · obtain ⟨hlt, rfl⟩ := List.getElem?_eq_some_iff.mp hx
    rw [hmodify, map_set, ← List.getElem_map Prod.fst (h := by simpa using hlt), set_getElem_self]

theorem modify_accounts {ic : InstructionContext}
    (hstack : c.instructionStack = ic :: rest) (account : AccountRef) (m : Modification) :
    (c.modify account m).1.accounts.length = c.accounts.length ∧
      ∀ i, (∀ ia ∈ ic.instructionAccounts, ia.indexInTransaction ≠ i) →
        (c.modify account m).1.accounts[i]? = c.accounts[i]? := by
  rcases modify_cases c account m with ⟨e, hrefused⟩ |
    ⟨_, _, index, x, _, _, _, _, _, htop, hindex, hx, hwrite, hb, _, hset, hmodify⟩
  · rw [hrefused]
    exact ⟨rfl, fun i _ => rfl⟩
  · rw [hstack] at htop
    cases htop
    rw [hmodify]
    refine ⟨length_set, fun i hi => ?_⟩
    by_cases heq : index = i
    · subst heq
      -- only a program account leads there, and it is not writable
      rcases hset.writable with hwritable | hsame
      · rw [hwrite] at hwritable
        cases account with
        | programAccount p => exact absurd hwritable (by simp [isWritable])
        | instructionAccount p =>
          obtain ⟨ia, hia, hplace⟩ := map_eq_some_iff.mp hindex
          exact absurd hplace (hi ia (List.mem_of_getElem? hia))
      · rw [List.getElem?_set_self (List.getElem?_eq_some_iff.mp hx).1, hx, hsame, hb]
    · rw [List.getElem?_set_ne heq]

end CallContext

section Frame
variable {f f' f'' : FrameContext} {accounts : List InstructionAccount} {i : Nat}

/-- A tree has ended: the stack is as before, and only accounts that are listed have changed. -/
structure Framed (accounts : List InstructionAccount) (f f' : FrameContext) : Prop where
  stack : f'.instructionStack = f.instructionStack
  length : f'.accounts.length = f.accounts.length
  outside : ∀ i, (∀ ia ∈ accounts, ia.indexInTransaction ≠ i) →
    f'.accounts[i]? = f.accounts[i]?

theorem Framed.of_eq (hstack : f'.instructionStack = f.instructionStack)
    (haccounts : f'.accounts = f.accounts) : Framed accounts f f' :=
  ⟨hstack, by rw [haccounts], fun i _ => by rw [haccounts]⟩

theorem Framed.trans (h : Framed accounts f f') (h' : Framed accounts f' f'') :
    Framed accounts f f'' where
  stack := h'.stack.trans h.stack
  length := h'.length.trans h.length
  outside := fun i hi => (h'.outside i hi).trans (h.outside i hi)

/-- The accounts of an instruction are among the given ones. -/
def ListsWithin (accounts : List InstructionAccount) (ic : InstructionContext) : Prop :=
  ∀ ia ∈ ic.instructionAccounts, ∃ ia' ∈ accounts, ia'.indexInTransaction = ia.indexInTransaction

/-- Those of the current instruction are. -/
def HeadWithin (accounts : List InstructionAccount) (f : FrameContext) : Prop :=
  ∀ {ic : InstructionContext} {rest : List InstructionContext},
    f.instructionStack = ic :: rest → ListsWithin accounts ic

theorem HeadWithin.of_stack (h : HeadWithin accounts f)
    (hstack : f'.instructionStack = f.instructionStack) : HeadWithin accounts f' :=
  fun hf' => h (hstack.symm.trans hf')

theorem modify_framed (h : HeadWithin accounts f) (account : AccountRef) (m : Modification) :
    Framed accounts f (f.modify account m) := by
  have hstack := (CallContext.modify_stack (c := f.toCallContext) account m).1
  cases hf : f.instructionStack with
  | nil =>
    have hnone : f.modify account m = f := by
      unfold FrameContext.modify CallContext.modify
      rw [hf]
    rw [hnone]
    exact .of_eq rfl rfl
  | cons ic rest =>
    obtain ⟨hlength, houtside⟩ := CallContext.modify_accounts hf account m
    refine ⟨hstack, hlength, fun i hi => houtside i fun ia hia => ?_⟩
    obtain ⟨ia', hia', hplace⟩ := h hf ia hia
    exact hplace ▸ hi ia' hia'

theorem setSyscallContext_framed (context : SyscallContext) :
    Framed accounts f (f.setSyscallContext context) := by
  unfold FrameContext.setSyscallContext
  split <;> exact .of_eq rfl rfl

theorem enter_cases (f : FrameContext) (programIndices : List Nat)
    (listed : List InstructionAccount) (data : List UInt8) :
    (∃ f' e, f.enter programIndices listed data = (f', .error e) ∧
        f'.instructionStack = f.instructionStack ∧ f'.accounts = f.accounts) ∨
      ∃ f' ic, f.enter programIndices listed data = (f', .ok ()) ∧
        f'.instructionStack = ic :: f.instructionStack ∧ f'.accounts = f.accounts ∧
        ic.instructionAccounts = listed ∧
        ic.lamportSum f.accounts = .ok ic.instructionAccountsLamportSum := by
  unfold FrameContext.enter FrameContext.push
  split
  · exact .inl ⟨_, _, rfl, rfl, rfl⟩
  · split
    · exact .inl ⟨_, _, rfl, rfl, rfl⟩
    · by_cases hfits : (f.configure programIndices listed data).toCallContext.Fits
      · obtain ⟨sum, hsum, hpush⟩ := pushContext_of_fits hfits
        rw [hpush]
        exact .inr ⟨_, _, rfl, rfl, rfl, rfl, hsum⟩
      · obtain ⟨⟨e, he⟩, hstack, haccounts⟩ := pushContext_of_not_fits hfits
        exact .inl ⟨_, e, Prod.ext rfl he, hstack, haccounts⟩

theorem run_framed (body : CallBody) (hwithin : body.Within accounts)
    (hhead : HeadWithin accounts f) : Framed accounts f (body.run f).1 := by
  induction body generalizing f with
  | done => exact .of_eq rfl rfl
  | modify account m rest ih =>
    have hstep := modify_framed hhead account m
    exact hstep.trans (ih hwithin (hhead.of_stack hstep.stack))
  | setSyscallContext context rest ih =>
    have hstep : Framed accounts f (f.setSyscallContext context) := setSyscallContext_framed context
    exact hstep.trans (ih hwithin (hhead.of_stack hstep.stack))
  | call programIndices listed data callee rest ihcallee ihrest =>
    obtain ⟨hlisted, hcallee, hrest⟩ := hwithin
    rw [CallBody.run]
    rcases enter_cases f programIndices listed data with
      ⟨f₁, e, henter, hstack, haccounts⟩ | ⟨f₁, ic, henter, hstack, haccounts, hic, _⟩
    · rw [henter]
      have hsame : Framed accounts f f₁ := .of_eq hstack haccounts
      exact hsame.trans (ihrest hrest (hhead.of_stack hstack))
    · rw [henter]
      have hhead₁ : HeadWithin accounts f₁ := fun h => by
        rw [hstack, cons.injEq] at h
        rw [← h.1, ListsWithin, hic]
        exact hlisted
      have hcalled := ihcallee hcallee hhead₁
      obtain ⟨hpopstack, hpopaccounts, _⟩ := pop_of_cons (hcalled.stack.trans hstack)
      have hpopped : Framed accounts f (callee.run f₁).1.pop.1 := by
        refine ⟨hpopstack, ?_, fun i hi => ?_⟩
        · rw [← haccounts, ← hcalled.length]
          exact congrArg length hpopaccounts
        · rw [← haccounts, ← hcalled.outside i hi]
          exact congrArg (·[i]?) hpopaccounts
      exact hpopped.trans (ihrest hrest (hhead.of_stack hpopped.stack))

/-- Lamports are neither made nor lost by an instruction whose pop returned `Ok`, if the accounts of
the instruction are marked and all calls below it list only those. -/
theorem call_balanced {programIndices : List Nat} {data : List UInt8} {body : CallBody}
    (hmarked : Marked accounts) (hwithin : body.Within accounts) {f₁ : FrameContext}
    (henter : f.enter programIndices accounts data = (f₁, .ok ()))
    (hpop : (body.run f₁).1.pop.2.isOk = true) :
    totalLamports (body.run f₁).1.pop.1.accounts = totalLamports f.accounts := by
  rcases enter_cases f programIndices accounts data with
    ⟨_, _, herror, _, _⟩ | ⟨_, ic, hok, hstack, haccounts, hic, hsum⟩
  · rw [henter] at herror
    cases herror
  · cases henter.symm.trans hok
    have hhead : HeadWithin accounts f₁ := fun h => by
      rw [hstack, cons.injEq] at h
      rw [← h.1, ListsWithin, hic]
      exact fun ia hia => ⟨ia, hia, rfl⟩
    have hcalled := run_framed body hwithin hhead
    have hstack₂ := hcalled.stack.trans hstack
    have hpopsum := sum_of_pop hstack₂ hpop
    have hpopaccounts := (pop_of_cons hstack₂).2.1
    have houtside : ∀ i ∈ Finset.range f.accounts.length \ (countedPlaces accounts).toFinset,
        placeLamports (body.run f₁).1.accounts i = placeLamports f.accounts i := by
      intro i hi
      obtain ⟨_, hnot⟩ := Finset.mem_sdiff.mp hi
      rw [placeLamports, hcalled.outside i, haccounts, placeLamports]
      exact fun ia hia hplace => hnot (mem_toFinset.mpr (hplace ▸ hmarked.mem ia hia))
    have hlength : (body.run f₁).1.accounts.length = f.accounts.length := by
      rw [hcalled.length, haccounts]
    calc totalLamports (body.run f₁).1.pop.1.accounts
        = totalLamports (body.run f₁).1.accounts := congrArg totalLamports hpopaccounts
      _ = (∑ i ∈ Finset.range f.accounts.length \ (countedPlaces accounts).toFinset,
            placeLamports (body.run f₁).1.accounts i) + ic.instructionAccountsLamportSum := by
          rw [totalLamports_of_marked hmarked hic hpopsum, hlength]
      _ = totalLamports f.accounts := by
          rw [Finset.sum_congr rfl houtside, totalLamports_of_marked hmarked hic hsum]

theorem run_balanced {programIndices : List Nat} {data : List UInt8} {body : CallBody}
    (hmarked : Marked accounts) (hwithin : body.Within accounts)
    (hpops : (CallBody.run (.call programIndices accounts data body .done) f).2 = true) :
    totalLamports (CallBody.run (.call programIndices accounts data body .done) f).1.accounts =
      totalLamports f.accounts := by
  rw [CallBody.run] at hpops ⊢
  rcases enter_cases f programIndices accounts data with
    ⟨f₁, e, henter, _, haccounts⟩ | ⟨f₁, ic, henter, _⟩
  · rw [henter]
    exact congrArg totalLamports haccounts
  · rw [henter] at hpops ⊢
    simp only [CallBody.run, Bool.and_eq_true] at hpops ⊢
    exact call_balanced hmarked hwithin henter hpops.1.2

/-- The index of each account is the first place of the account. -/
def FirstPlaces (accounts : List InstructionAccount) : Prop :=
  ∀ ia ∈ accounts, ia.indexInCallee =
    accounts.findIdx (fun x => x.indexInTransaction == ia.indexInTransaction)

theorem FirstPlaces.marked (h : FirstPlaces accounts) (hlength : accounts.length < 2 ^ 16) :
    Marked accounts := by
  have hcounted : countedPlaces accounts = (accounts.zipIdx.filter
      (fun x => x.1.indexInCallee = x.2)).map (fun x => x.1.indexInTransaction) := by
    rw [countedPlaces, mod_eq_of_lt hlength, take_length]
  constructor
  · rw [hcounted]
    have hzip : accounts.zipIdx.Nodup := by
      refine .of_map Prod.snd ?_
      rw [zipIdx_map_snd]
      exact nodup_range'
    refine (hzip.filter _).map_on ?_
    rintro ⟨ia, n⟩ hx ⟨ia', n'⟩ hy hsame
    simp only [mem_filter, mk_mem_zipIdx_iff_getElem?, decide_eq_true_eq] at hx hy hsame
    obtain ⟨hget, rfl⟩ := hx
    obtain ⟨hget', rfl⟩ := hy
    have hplace : ia.indexInCallee = ia'.indexInCallee := by
      rw [h ia (mem_of_getElem? hget), h ia' (mem_of_getElem? hget'), hsame]
    rw [hplace] at hget
    rw [some.inj (hget.symm.trans hget')]
  · intro ia hia
    have hlt : accounts.findIdx (fun x => x.indexInTransaction == ia.indexInTransaction) <
        accounts.length := findIdx_lt_length.mpr ⟨ia, hia, beq_self_eq_true _⟩
    have hsame := eq_of_beq (findIdx_getElem (w := hlt))
    rw [hcounted, ← hsame]
    refine mem_map.mpr ⟨(_, _), mem_filter.mpr ⟨mk_mem_zipIdx_iff_getElem?.mpr
      (List.getElem?_eq_getElem hlt), ?_⟩, rfl⟩
    rw [decide_eq_true_iff, h _ (getElem_mem hlt), hsame]

theorem instructionAccounts_marked (ctx : InvokeContext) (message : SanitizedMessage)
    {ix : CompiledInstruction} (hlength : ix.accounts.length < 2 ^ 16) :
    Marked (ctx.instructionAccounts message ix) := by
  refine FirstPlaces.marked (fun ia hia => ?_) (by simpa [InvokeContext.instructionAccounts])
  obtain ⟨⟨account, n⟩, hmem, rfl⟩ := mem_map.mp hia
  obtain ⟨hlt, haccount⟩ := List.getElem?_eq_some_iff.mp (mk_mem_zipIdx_iff_getElem?.mp hmem)
  have hle : ix.accounts.findIdx (· = account) ≤ n := by
    by_contra hgt
    simpa [haccount] using not_of_lt_findIdx (not_le.mp hgt)
  have hfirst : ((ix.accounts.take n).findIdx? (· = account)).getD n =
      ix.accounts.findIdx (· = account) := by
    nth_rewrite 2 [← length_take_of_le hlt.le]
    rw [← findIdx_eq_getD_findIdx?, findIdx_take, min_eq_right hle]
  calc asIndexOfAccount (((ix.accounts.take n).findIdx? (· = account)).getD n)
      = ix.accounts.findIdx (· = account) := by
        rw [hfirst, Privileges.asIndexOfAccount_of_lt (hle.trans_lt (hlt.trans hlength))]
    _ = (ix.accounts.zipIdx.map Prod.fst).findIdx (· = account) := by rw [zipIdx_map_fst]
    _ = _ := by
        rw [InvokeContext.instructionAccounts, findIdx_map, findIdx_map]
        congr 1
        funext x
        simp [Bool.beq_eq_decide_eq, UInt8.toNat_inj]

end Frame

open Privileges

section Prepared
variable {accounts : TransactionAccounts} {ic : InstructionContext}
variable {instruction : StableInstruction} {signers : List Pubkey}
variable {prepared : List PreparedAccount} {programs : List Nat}

section Prepare
variable (h : prepareInstruction accounts ic instruction signers = .ok (prepared, programs))
include h

theorem prepared_marked (hlength : instruction.accounts.length < 2 ^ 16) :
    Marked (prepared.map PreparedAccount.toInstructionAccount) := by
  obtain ⟨hsame, hprepared⟩ := prepareInstruction_prepared h
  have hat : ∀ {n : Nat} (hn : n < prepared.length),
      Prepared accounts ic instruction.accounts signers
        (instruction.accounts.get ⟨n, hsame ▸ hn⟩) prepared[n] := fun hn =>
    hprepared _ _ _ (List.getElem?_eq_getElem _) (List.getElem?_eq_getElem hn)
  refine FirstPlaces.marked (fun ia hia => ?_) (by rwa [length_map, hsame])
  obtain ⟨a, ha, rfl⟩ := mem_map.mp hia
  obtain ⟨n, hn, rfl⟩ := getElem_of_mem ha
  obtain ⟨f, m, hfirst⟩ := (hat hn).first
  obtain ⟨hf, rfl⟩ := List.getElem?_eq_some_iff.mp hfirst.place
  rw [hfirst.inCallee, asIndexOfAccount_of_lt (hf.trans hlength), findIdx_map, eq_comm,
    findIdx_eq (hsame ▸ hf)]
  refine ⟨?_, fun j hj => ?_⟩
  · have hindex := (hat (hsame ▸ hf)).index
    exact beq_iff_eq.mpr (some.inj (hindex.symm.trans hfirst.index))
  · have hj' : j < prepared.length := hj.trans (hsame ▸ hf)
    refine beq_eq_false_iff_ne.mpr fun heq => ?_
    exact hfirst.before hj (List.getElem?_eq_getElem (hsame ▸ hj'))
      ((hat hj').index.trans (congrArg some heq))

/-- They are accounts of the caller, if the keys of the transaction are different. -/
theorem prepared_within_caller (hkeys : (accounts.map Prod.fst).Nodup)
    (hlength : accounts.length ≤ 2 ^ 16) :
    ∀ a ∈ prepared, ∃ ia ∈ ic.instructionAccounts,
      ia.indexInTransaction = a.indexInTransaction := by
  obtain ⟨hsame, hprepared⟩ := prepareInstruction_prepared h
  intro a ha
  obtain ⟨n, hn⟩ := List.mem_iff_getElem?.mp ha
  have hlt : n < instruction.accounts.length := hsame ▸ (List.getElem?_eq_some_iff.mp hn).1
  obtain ⟨f, m, hat⟩ := (hprepared n _ a (List.getElem?_eq_getElem hlt) hn).first
  have hkey := key_of_findIndexOfAccount hlength hat.index
  obtain ⟨j, hj, _⟩ := map_eq_some_iff.mp hat.inCaller
  obtain ⟨ia, hia, hkey'⟩ := getElem?_findIdx? hj
  refine ⟨ia, mem_of_getElem? hia, ?_⟩
  have hkey' : (accounts[ia.indexInTransaction]?).map Prod.fst = some m.pubkey :=
    of_decide_eq_true hkey'
  rw [← List.getElem?_map] at hkey hkey'
  obtain ⟨hlt, _⟩ := List.getElem?_eq_some_iff.mp hkey'
  exact (List.getElem?_inj hlt hkeys).mp (hkey'.trans hkey.symm)

end Prepare

/-- Each call of a tree lists accounts of its caller. -/
def CallBody.Nested (caller : List InstructionAccount) : CallBody → Prop
  | .done => True
  | .modify _ _ rest => rest.Nested caller
  | .setSyscallContext _ rest => rest.Nested caller
  | .call _ listed _ callee rest =>
    (∀ ia ∈ listed, ∃ ia' ∈ caller, ia'.indexInTransaction = ia.indexInTransaction) ∧
      callee.Nested listed ∧ rest.Nested caller

/-- Then all calls list accounts of the instruction at the top. -/
theorem CallBody.Nested.within {top : List InstructionAccount} {body : CallBody}
    {caller : List InstructionAccount} (h : body.Nested caller)
    (hcaller : ∀ ia ∈ caller, ∃ ia' ∈ top, ia'.indexInTransaction = ia.indexInTransaction) :
    body.Within top := by
  induction body generalizing caller with
  | done => trivial
  | modify account m rest ih => exact ih h hcaller
  | setSyscallContext context rest ih => exact ih h hcaller
  | call programIndices listed data callee rest ihcallee ihrest =>
    have hlisted : ∀ ia ∈ listed, ∃ ia' ∈ top, ia'.indexInTransaction = ia.indexInTransaction := by
      intro ia hia
      obtain ⟨ia', hia', hsame⟩ := h.1 ia hia
      obtain ⟨ia'', hia'', hsame'⟩ := hcaller ia' hia'
      exact ⟨ia'', hia'', hsame'.trans hsame⟩
    exact ⟨hlisted, ihcallee h.2.1 hlisted, ihrest h.2.2 hcaller⟩

/-- A tree leaves the stack and the keys of the accounts as they were. -/
theorem run_kept (body : CallBody) (f : FrameContext) :
    (body.run f).1.instructionStack = f.instructionStack ∧
      (body.run f).1.accounts.map Prod.fst = f.accounts.map Prod.fst := by
  induction body generalizing f with
  | done => exact ⟨rfl, rfl⟩
  | modify account m rest ih =>
    obtain ⟨hstack, hkeys⟩ := ih (f.modify account m)
    exact ⟨hstack.trans (modify_stack (c := f.toCallContext) account m).1,
      hkeys.trans (modify_keys (c := f.toCallContext) account m)⟩
  | setSyscallContext context rest ih =>
    have hsame : (f.setSyscallContext context).toCallContext = f.toCallContext := by
      unfold FrameContext.setSyscallContext
      split <;> rfl
    obtain ⟨hstack, hkeys⟩ := ih (f.setSyscallContext context)
    rw [hsame] at hstack hkeys
    exact ⟨hstack, hkeys⟩
  | call programIndices listed data callee rest ihcallee ihrest =>
    rw [CallBody.run]
    rcases enter_cases f programIndices listed data with
      ⟨f₁, e, henter, hstack, haccounts⟩ | ⟨f₁, ic, henter, hstack, haccounts, _, _⟩
    · rw [henter, ← hstack, ← haccounts]
      exact ihrest f₁
    · obtain ⟨hcalled, hkeys⟩ := ihcallee f₁
      obtain ⟨hpopped, hsame, _⟩ := pop_of_cons (hcalled.trans hstack)
      obtain ⟨hstack', hkeys'⟩ := ihrest (callee.run f₁).1.pop.1
      rw [henter, ← hpopped, ← haccounts, ← hkeys]
      exact ⟨hstack', hkeys'.trans (congrArg (map Prod.fst) hsame)⟩

/-- The tree that the code of a program runs, with the accounts that `prepare_instruction` gives to
its calls. -/
def CallBody.ofCode : Code → FrameContext → CallBody
  | .done, _ => .done
  | .modify account m rest, f => .modify account m (ofCode rest (f.modify account m))
  | .invoke instruction signers callee rest, f =>
    match f.instructionStack with
    | [] => ofCode rest f
    | ic :: _ =>
      match prepareInstruction f.accounts ic instruction signers with
      | .error _ => ofCode rest f
      | .ok (prepared, programIndices) =>
        let listed := prepared.map PreparedAccount.toInstructionAccount
        match f.enter programIndices listed instruction.data with
        | (f, .error _) => .call programIndices listed instruction.data .done (ofCode rest f)
        | (f, .ok ()) =>
          let callee := ofCode callee f
          .call programIndices listed instruction.data callee (ofCode rest (callee.run f).1.pop.1)

/-- Running the tree is running the code. -/
theorem ofCode_run (code : Code) (f : FrameContext) :
    ((CallBody.ofCode code f).run f).1.toCallContext = CallContext.run code f.toCallContext := by
  induction code generalizing f with
  | done => rfl
  | modify account m rest ih => exact ih (f.modify account m)
  | invoke instruction signers callee rest ihcallee ihrest =>
    rw [CallBody.ofCode, CallContext.run]
    cases hstack : f.instructionStack with
    | nil => exact ihrest f
    | cons ic stack =>
      dsimp only
      cases hprepare : prepareInstruction f.accounts ic instruction signers with
      | error e => exact ihrest f
      | ok result =>
        obtain ⟨prepared, programIndices⟩ := result
        dsimp only
        generalize prepared.map PreparedAccount.toInstructionAccount = listed
        rw [f.enter_toCallContext]
        cases henter : f.enter programIndices listed instruction.data with
        | mk f₁ r =>
          cases r with
          | error e =>
            dsimp only
            rw [CallBody.run, henter]
            exact ihrest f₁
          | ok u =>
            dsimp only
            rw [CallBody.run, henter, ← ihcallee f₁]
            exact ihrest _

/-- The calls of the tree list accounts of their callers. -/
theorem ofCode_nested (code : Code) {f : FrameContext} {stack : List InstructionContext}
    (hstack : f.instructionStack = ic :: stack) (hkeys : (f.accounts.map Prod.fst).Nodup)
    (hfew : f.accounts.length ≤ 2 ^ 16) :
    (CallBody.ofCode code f).Nested ic.instructionAccounts := by
  induction code generalizing f ic stack with
  | done => trivial
  | modify account m rest ih =>
    have hsame : (f.modify account m).accounts.map Prod.fst = f.accounts.map Prod.fst :=
      modify_keys (c := f.toCallContext) account m
    have hlength := congrArg length hsame
    rw [length_map, length_map] at hlength
    exact ih ((modify_stack (c := f.toCallContext) account m).1.trans hstack) (hsame ▸ hkeys)
      (hlength ▸ hfew)
  | invoke instruction signers callee rest ihcallee ihrest =>
    rw [CallBody.ofCode, hstack]
    dsimp only
    cases hprepare : prepareInstruction f.accounts ic instruction signers with
    | error e => exact ihrest hstack hkeys hfew
    | ok result =>
      obtain ⟨prepared, programIndices⟩ := result
      have hwithin : ∀ ia ∈ prepared.map PreparedAccount.toInstructionAccount,
          ∃ ia' ∈ ic.instructionAccounts, ia'.indexInTransaction = ia.indexInTransaction := by
        intro ia hia
        obtain ⟨a, ha, rfl⟩ := mem_map.mp hia
        exact prepared_within_caller hprepare hkeys hfew a ha
      dsimp only
      rcases enter_cases f programIndices (prepared.map PreparedAccount.toInstructionAccount)
        instruction.data with
        ⟨f₁, e, henter, hsame, haccounts⟩ | ⟨f₁, ic₁, henter, hpushed, haccounts, hlisted, _⟩
      · rw [henter]
        exact ⟨hwithin, trivial, ihrest (hsame.trans hstack) (haccounts ▸ hkeys) (haccounts ▸ hfew)⟩
      · obtain ⟨hafter, hafterKeys⟩ := run_kept (CallBody.ofCode callee f₁) f₁
        obtain ⟨hpopped, hsame, _⟩ := pop_of_cons (hafter.trans hpushed)
        rw [haccounts, ← hsame] at hafterKeys
        have hlength := congrArg length hafterKeys
        rw [length_map, length_map] at hlength
        rw [henter]
        refine ⟨hwithin, hlisted ▸ ihcallee hpushed (haccounts ▸ hkeys) (haccounts ▸ hfew), ?_⟩
        exact ihrest (hpopped.trans hstack) (hafterKeys ▸ hkeys) (hlength ▸ hfew)

end Prepared

/-- The lists of accounts that `process_message` and `prepare_instruction` make. -/
inductive Listed (c : CallContext) : List InstructionAccount → Prop
  | message (message : SanitizedMessage) {ix : CompiledInstruction}
      (hshort : ix.accounts.length < 2 ^ 16) :
      Listed c (c.toInvokeContext.instructionAccounts message ix)
  | prepared {ic : InstructionContext} {instruction : StableInstruction} {signers : List Pubkey}
      {prepared : List PreparedAccount} {programs : List Nat}
      (hshort : instruction.accounts.length < 2 ^ 16)
      (h : prepareInstruction c.accounts ic instruction signers = .ok (prepared, programs)) :
      Listed c (prepared.map PreparedAccount.toInstructionAccount)

theorem Listed.marked {c : CallContext} {listed : List InstructionAccount} (h : Listed c listed) :
    Marked listed := by
  cases h with
  | message message hshort => exact instructionAccounts_marked _ message hshort
  | prepared hshort h => exact prepared_marked h hshort

/-- Lamports are kept by an instruction that returned `Ok`, whatever code its program runs. -/
theorem processInstruction_balanced {c : CallContext} {listed : List InstructionAccount}
    (hlisted : Listed c listed) (hkeys : (c.accounts.map Prod.fst).Nodup)
    (hfew : c.accounts.length ≤ 2 ^ 16) {programIndices : List Nat} {data : List UInt8}
    {code : Code} {result : Except InstructionError Unit}
    (hok : (c.processInstruction programIndices listed data code result).2 = .ok ()) :
    totalLamports (c.processInstruction programIndices listed data code result).1.accounts =
      totalLamports c.accounts := by
  let f : FrameContext := ⟨c, [], []⟩
  have hframe : c.enter programIndices listed data = _ :=
    f.enter_toCallContext programIndices listed data
  unfold processInstruction at hok ⊢
  rw [hframe] at hok ⊢
  rcases enter_cases f programIndices listed data with
    ⟨f₁, e, henter, _, haccounts⟩ | ⟨f₁, ic, henter, hstack, haccounts, rfl, _⟩
  · rw [henter] at hok
    cases hok
  · rw [henter] at hok ⊢
    simp only [← ofCode_run] at hok ⊢
    have hwithin : (CallBody.ofCode code f₁).Within ic.instructionAccounts :=
      (ofCode_nested code hstack (haccounts ▸ hkeys) (haccounts ▸ hfew)).within
        fun ia hia => ⟨ia, hia, rfl⟩
    refine call_balanced hlisted.marked hwithin henter ?_
    cases result with
    | error e => cases hok
    | ok u => exact congrArg Except.isOk hok

/-- The frames, and how many pushes have returned `Ok`. -/
structure Frames extends FrameContext where
  entered : Nat

/-- What happens to the frames, one step after the other. -/
inductive FrameEvent where
  | call (programIndices : List Nat) (accounts : List InstructionAccount) (data : List UInt8)
  | modify (account : AccountRef) (m : Modification)
  | setSyscallContext (context : SyscallContext)
  | ret

/-- The steps of a tree, one after the other: a call is popped exactly if it was pushed. -/
def CallBody.events : CallBody → FrameContext → List FrameEvent
  | .done, _ => []
  | .modify account m rest, f => .modify account m :: rest.events (f.modify account m)
  | .setSyscallContext context rest, f =>
    .setSyscallContext context :: rest.events (f.setSyscallContext context)
  | .call programIndices accounts data callee rest, f =>
    .call programIndices accounts data ::
      match f.enter programIndices accounts data with
      | (f, .error _) => rest.events f
      | (f, .ok ()) => callee.events f ++ .ret :: rest.events (callee.run f).1.pop.1

namespace Frames

def isRet : FrameEvent → Bool
  | .ret => true
  | _ => false

/-- One step.  As in `process_instruction`, an instruction is popped only if it was pushed. -/
def step (s : Frames) : FrameEvent → Option Frames
  | .call programIndices accounts data =>
    let r := s.toFrameContext.enter programIndices accounts data
    some { toFrameContext := r.1, entered := if r.2.isOk then s.entered + 1 else s.entered }
  | .modify account m => some { s with toFrameContext := s.toFrameContext.modify account m }
  | .setSyscallContext context =>
    some { s with toFrameContext := s.toFrameContext.setSyscallContext context }
  | .ret =>
    match s.instructionStack with
    | [] => none
    | _ :: _ => some { s with toFrameContext := s.toFrameContext.pop.1 }

/-- The stack of the instructions and that of the system calls have one length, and the trace has an
entry for each instruction that was pushed. -/
structure Matching (s : Frames) : Prop where
  syscalls : s.syscallContext.length = s.instructionStack.length
  trace : s.instructionTrace.length = s.entered

def new (ctx : InvokeContext) (rent : Rent)
    (instructionStackCapacity instructionTraceCapacity : Nat) : Frames where
  toCallContext := CallContext.new ctx rent instructionStackCapacity instructionTraceCapacity
  syscallContext := []
  traces := []
  entered := 0

end Frames

/-- The checks of `push` of the invoke context pass. -/
def CallContext.admits (c : CallContext) : Bool :=
  match c.nextInstruction.getLastProgramKey c.accounts with
  | .ok programId => !c.isReentrant programId
  | .error _ => false

namespace Frames

/-- A call that passes the checks of the invoke context is also accepted by the transaction
context. -/
def Ok (s : Frames) : FrameEvent → Prop
  | .call programIndices accounts data =>
    let c := s.toCallContext.configure programIndices accounts data
    c.admits = true → c.Fits
  | _ => True

section Matching
variable {s s' : Frames} {f : FrameContext}

theorem push_of_not_admits (h : f.admits = false) : f.push.1 = f ∧ f.push.2.isOk = false := by
  unfold admits at h
  unfold FrameContext.push
  cases hkey : f.nextInstruction.getLastProgramKey f.accounts with
  | error e => exact ⟨rfl, rfl⟩
  | ok programId =>
    rw [hkey] at h
    dsimp only at h ⊢
    rw [if_pos (by simpa using h)]
    exact ⟨rfl, rfl⟩

theorem push_of_admits (h : f.admits = true) :
    f.push.1.toCallContext = f.toCallContext.pushContext.1 ∧
      f.push.1.syscallContext = none :: f.syscallContext ∧
      f.push.2 = f.toCallContext.pushContext.2 := by
  unfold admits at h
  unfold FrameContext.push
  cases hkey : f.nextInstruction.getLastProgramKey f.accounts with
  | error e =>
    rw [hkey] at h
    exact absurd h (by simp)
  | ok programId =>
    rw [hkey] at h
    dsimp only at h ⊢
    rw [if_neg (by simpa using h)]
    exact ⟨rfl, rfl, rfl⟩

theorem push_matching_iff (hs : s.Matching) {programIndices : List Nat}
    {accounts : List InstructionAccount} {data : List UInt8}
    (hstep : s.step (.call programIndices accounts data) = some s') :
    s'.Matching ↔ s.Ok (.call programIndices accounts data) := by
  obtain rfl := some.inj hstep
  have hconfigured :
    (s.toFrameContext.configure programIndices accounts data).syscallContext.length =
      (s.toFrameContext.configure programIndices accounts data).instructionStack.length :=
    hs.syscalls
  have htrace : (s.toFrameContext.configure programIndices accounts data).instructionTrace.length =
      s.entered := hs.trace
  unfold Ok FrameContext.enter
  change _ ↔ ((s.toFrameContext.configure programIndices accounts data).admits = true →
    (s.toFrameContext.configure programIndices accounts data).Fits)
  generalize s.toFrameContext.configure programIndices accounts data = f at hconfigured htrace
  cases hadmits : f.admits with
  | false =>
    obtain ⟨hsame, hok⟩ := push_of_not_admits hadmits
    refine iff_of_true ⟨?_, ?_⟩ (by simp)
    · rw [hsame]
      exact hconfigured
    · rw [hsame, hok]
      exact htrace
  | true =>
    obtain ⟨hcontext, hsyscalls, hresult⟩ := push_of_admits hadmits
    by_cases hfits : f.Fits
    · obtain ⟨sum, _, hpush⟩ := pushContext_of_fits hfits
      refine iff_of_true ⟨?_, ?_⟩ fun _ => hfits
      · rw [hsyscalls, hcontext, hpush]
        exact congrArg succ hconfigured
      · rw [hcontext, hresult, hpush, length_append, htrace]
        rfl
    · obtain ⟨_, hstack, _⟩ := pushContext_of_not_fits hfits
      refine iff_of_false (fun hmatch => ?_) fun h => hfits (h rfl)
      have hlength := hmatch.syscalls
      rw [hsyscalls, hcontext, hstack, length_cons, hconfigured] at hlength
      exact succ_ne_self _ hlength

theorem step_matching_iff {e : FrameEvent} (hs : s.Matching) (hstep : s.step e = some s') :
    s'.Matching ↔ s.Ok e := by
  cases e with
  | call programIndices accounts data => exact push_matching_iff hs hstep
  | modify account m =>
    obtain rfl := some.inj hstep
    obtain ⟨hstack, htrace⟩ := modify_stack (c := s.toCallContext) account m
    refine iff_of_true ⟨?_, ?_⟩ trivial
    · exact hs.syscalls.trans (congrArg length hstack).symm
    · exact (congrArg length htrace).trans hs.trace
  | setSyscallContext context =>
    obtain rfl := some.inj hstep
    refine iff_of_true ?_ trivial
    unfold FrameContext.setSyscallContext
    split
    · exact hs
    · rename_i rest hcons
      refine ⟨?_, hs.trace⟩
      rw [← hs.syscalls, hcons]
      rfl
  | ret =>
    rw [step] at hstep
    split at hstep
    · exact absurd hstep (by simp)
    · rename_i current rest hstack
      obtain rfl := some.inj hstep
      obtain ⟨hpopped, _, htrace⟩ := pop_of_cons hstack
      refine iff_of_true ⟨?_, ?_⟩ trivial
      · have hlength := hs.syscalls
        rw [hstack, length_cons] at hlength
        calc s.syscallContext.tail.length = s.syscallContext.length - 1 := length_tail
          _ = rest.length := by rw [hlength, Nat.add_sub_cancel]
          _ = _ := (congrArg length hpopped).symm
      · exact (congrArg length htrace).trans hs.trace

end Matching

/-- A tree of calls takes the steps of its events, and it leaves the stack as it was. -/
theorem run_reaches (body : CallBody) (f : FrameContext) (n : Nat) :
    Machine.Run step ⟨f, n⟩ (body.events f) ⟨(body.run f).1, n + (body.events f).countP isRet⟩ ∧
      (body.run f).1.instructionStack = f.instructionStack := by
  refine ⟨?_, (run_kept body f).1⟩
  induction body generalizing f n with
  | done => exact .nil _
  | modify account m rest ih =>
    rw [CallBody.events, countP_cons_of_neg (by simp [isRet])]
    exact .cons trivial rfl (ih (f.modify account m) n)
  | setSyscallContext context rest ih =>
    rw [CallBody.events, countP_cons_of_neg (by simp [isRet])]
    exact .cons trivial rfl (ih (f.setSyscallContext context) n)
  | call programIndices listed data callee rest ihcallee ihrest =>
    rw [CallBody.run, CallBody.events, countP_cons_of_neg (by simp [isRet])]
    rcases enter_cases f programIndices listed data with
      ⟨f₁, e, henter, _, _⟩ | ⟨f₁, ic, henter, hstack, _, _, _⟩
    · have hcall : step ⟨f, n⟩ (.call programIndices listed data) = some ⟨f₁, n⟩ := by
        rw [step, henter]
        rfl
      rw [henter]
      exact .cons trivial hcall (ihrest f₁ n)
    · have hcall : step ⟨f, n⟩ (.call programIndices listed data) = some ⟨f₁, n + 1⟩ := by
        rw [step, henter]
        rfl
      have hret : step ⟨(callee.run f₁).1, n + 1 + (callee.events f₁).countP isRet⟩ .ret =
          some ⟨(callee.run f₁).1.pop.1, n + 1 + (callee.events f₁).countP isRet⟩ := by
        rw [step, (run_kept callee f₁).1.trans hstack]
      have htotal : ∀ a b, n + (a + (b + 1)) = n + 1 + a + b := by omega
      rw [henter]
      dsimp only
      rw [countP_append, countP_cons_of_pos rfl, htotal]
      exact .cons trivial hcall ((ihcallee f₁ (n + 1)).append (.cons trivial hret (ihrest _ _)))

/-- For every instruction whose accounts are marked and whose calls list only those, the lamports of
all accounts are the same after it, if the pops returned `Ok`; and in every run from a new context
the lengths match in every state exactly if every call meets the condition. -/
theorem balanced_and_matching (ctx : InvokeContext) (rent : Rent)
    (stackCapacity traceCapacity : Nat) :
    (∀ (f : FrameContext) (programIndices : List Nat) (accounts : List InstructionAccount)
        (data : List UInt8) (body : CallBody), Marked accounts → body.Within accounts →
      (CallBody.run (.call programIndices accounts data body .done) f).2 = true →
      totalLamports (CallBody.run (.call programIndices accounts data body .done) f).1.accounts =
        totalLamports f.accounts) ∧
    (∀ (es : List FrameEvent) (t : Frames),
      Machine.Run step (new ctx rent stackCapacity traceCapacity) es t →
      (Machine.StaysGood step Matching (new ctx rent stackCapacity traceCapacity) es ↔
        Machine.GuardedRun step Ok (new ctx rent stackCapacity traceCapacity) es t)) := by
  refine ⟨fun f programIndices accounts data body hmarked hwithin hpops =>
    run_balanced hmarked hwithin hpops, fun es t hrun => ?_⟩
  have hkept : ∀ s e s', True → Matching s → step s e = some s' → True := fun _ _ _ _ _ _ => trivial
  have hiff : ∀ s e s', True → Matching s → step s e = some s' → (Matching s' ↔ Ok s e) :=
    fun _ _ _ _ hs hstep => step_matching_iff hs hstep
  exact staysGood_iff_guardedRun hkept hiff hrun trivial ⟨rfl, rfl⟩

section Resize

def totalLength (accounts : List (Pubkey × AccountSharedData)) : Int :=
  (accounts.map (fun x => (x.2.data.length : Int))).sum

/-- The delta is what the accounts have grown by since the start, within its limit.  An account is
never longer than the maximum, unless it was at the start.  So `i64` does not saturate. -/
structure Sized (start accounts : List (Pubkey × AccountSharedData)) (delta : Int) : Prop where
  growth : delta = totalLength accounts - totalLength start
  limit : delta ≤ maxPermittedAccountsDataAllocationsPerTransaction
  lengths : ∀ bound ≥ maxPermittedDataLength, (∀ x ∈ start, x.2.data.length ≤ bound) →
    ∀ x ∈ accounts, x.2.data.length ≤ bound

variable {start accounts : List (Pubkey × AccountSharedData)} {c : CallContext} {s s' : Frames}

theorem totalLength_set {i : Nat} {x : Pubkey × AccountSharedData} (hx : accounts[i]? = some x)
    (a : AccountSharedData) : totalLength (accounts.set i (x.1, a)) =
      totalLength accounts + ((a.data.length : Int) - x.2.data.length) := by
  obtain ⟨hi, rfl⟩ := List.getElem?_eq_some_iff.mp hx
  rw [totalLength, map_set, sum_set', dif_pos (by simpa using hi), getElem_map, totalLength]
  ring

theorem Sized.modify (h : Sized start c.accounts c.accountsResizeDelta) (account : AccountRef)
    (m : Modification) :
    Sized start (c.modify account m).1.accounts (c.modify account m).1.accountsResizeDelta := by
  rcases modify_cases c account m with ⟨e, hrefused⟩ |
    ⟨_, _, i, x, _, _, _, _, _, _, _, hx, _, hb, hbdelta, hset, hmodify⟩
  · rw [hrefused]
    exact h
  · have hdelta := hset.delta_eq
    have hlengths := hset.length
    rw [Borrowed.resized, hb, hbdelta] at hdelta
    rw [hb] at hlengths
    rw [hmodify]
    refine ⟨?_, ?_, fun bound hbound hstart y hy => ?_⟩
    · rw [totalLength_set hx, hdelta, h.growth]
      ring
    · rcases hlengths with hsame | ⟨_, hlimit⟩
      · rw [hsame, sub_self, add_zero] at hdelta
        exact hdelta.trans_le h.limit
      · exact hlimit
    · rcases mem_or_eq_of_mem_set hy with hy | rfl
      · exact h.lengths bound hbound hstart y hy
      · rcases hlengths with hsame | ⟨hle, _⟩
        · exact hsame.trans_le (h.lengths bound hbound hstart x (mem_of_getElem? hx))
        · exact hle.trans hbound

theorem Sized.push (h : Sized start c.accounts c.accountsResizeDelta) :
    Sized start c.push.1.accounts c.push.1.accountsResizeDelta := by
  unfold CallContext.push pushContext
  dsimp only
  repeat' split
  all_goals exact h

theorem Sized.step {e : FrameEvent} (h : Sized start s.accounts s.accountsResizeDelta)
    (hstep : s.step e = some s') : Sized start s'.accounts s'.accountsResizeDelta := by
  cases e with
  | call programIndices listed data =>
    cases hstep
    have hpush := (s.toFrameContext.configure programIndices listed data).push_toCallContext.1
    exact hpush ▸ Sized.push h
  | modify account m =>
    cases hstep
    exact h.modify account m
  | setSyscallContext context =>
    cases hstep
    dsimp only [FrameContext.setSyscallContext]
    split <;> exact h
  | ret =>
    dsimp only [Frames.step] at hstep
    split at hstep <;> cases hstep
    dsimp only [FrameContext.pop, CallContext.pop]
    split <;> exact h

/-- In every run the delta is exact and within its limit, and a setter that returns `Err` changes no
account and not the delta. -/
theorem resizeDelta_exact (ctx : InvokeContext) (rent : Rent) (stackCapacity traceCapacity : Nat)
    {es : List FrameEvent}
    (hrun : Run step (new ctx rent stackCapacity traceCapacity) es s) :
    Sized ctx.accounts s.accounts s.accountsResizeDelta ∧
      ∀ account m e, (s.toCallContext.modify account m).2 = .error e →
        (s.toCallContext.modify account m).1.accounts = s.accounts ∧
          (s.toCallContext.modify account m).1.accountsResizeDelta = s.accountsResizeDelta := by
  have hsized : Sized ctx.accounts s.accounts s.accountsResizeDelta :=
    hrun.invariant (fun _ _ _ h _ hstep => Sized.step h hstep)
      ⟨(sub_self _).symm, Int.natCast_nonneg _, fun _ _ hstart => hstart⟩
  refine ⟨hsized, fun account m e herror => ?_⟩
  rcases modify_cases s.toCallContext account m with ⟨_, hrefused⟩ |
    ⟨_, _, i, x, _, _, _, _, _, _, _, hx, _, hb, hbdelta, hset, hmodify⟩
  · rw [hrefused]
    exact ⟨rfl, rfl⟩
  · rw [hmodify] at herror ⊢
    obtain ⟨hlt, hxi⟩ := List.getElem?_eq_some_iff.mp hx
    refine ⟨?_, (hset.error_delta herror).trans hbdelta⟩
    rw [hset.error e herror, hb]
    exact (congrArg (s.accounts.set i) hxi.symm).trans (set_getElem_self hlt)

end Resize

/-- Two accounts of a program, and the program. -/
def exampleContext : InvokeContext where
  accounts := [(⟨2⟩, AccountSharedData.create 100 [] ⟨1⟩ false 0),
    (⟨3⟩, AccountSharedData.create 5 [] ⟨1⟩ false 0),
    (⟨1⟩, AccountSharedData.create 1 [] bpfLoaderId true 0)]
  logMessages := []
  programsModifiedByTx := LoadedProgramsForTxBatch.newFromCache 10 0 coldCache
  computeMeter := 0

def exampleListed : List InstructionAccount := [⟨0, 0, true, true⟩, ⟨1, 1, false, true⟩]

def exampleRent : Rent := ⟨fun _ => 0, fun _ _ => 0⟩

/-- The program spends lamports of its account and calls itself. -/
def spendAndCall : List FrameEvent :=
  [.call [2] exampleListed [], .modify (.instructionAccount 0) (.setLamports 90),
    .call [2] exampleListed []]

/-- The program moves lamports to its other account, and a call moves some of them back. -/
def transferBody : CallBody :=
  .modify (.instructionAccount 0) (.checkedSubLamports 10)
    (.modify (.instructionAccount 1) (.checkedAddLamports 10)
      (.call [2] exampleListed []
        (.modify (.instructionAccount 1) (.checkedSubLamports 3)
          (.modify (.instructionAccount 0) (.checkedAddLamports 3) .done)) .done))

def transferred (listed : List InstructionAccount) : FrameContext :=
  (CallBody.run (.call [2] listed [] transferBody .done)
    (new exampleContext exampleRent 5 64).toFrameContext).1

/-- The program resizes its account with each of the setters, in a call and after it. -/
def resizeAndCall : List FrameEvent :=
  [.call [2] exampleListed [], .modify (.instructionAccount 0) (.setDataLength 3),
    .call [2] exampleListed [],
    .modify (.instructionAccount 0) (.setDataFromSlice [1, 2, 3, 4, 5]), .ret,
    .modify (.instructionAccount 0) (.extendFromSlice [6])]

def shape (s : Frames) : Nat × Nat × Nat :=
  (s.instructionStack.length, s.syscallContext.length, s.instructionTrace.length)

/-- An instruction that moves lamports, and a run of two pushes. -/
theorem balanced_and_matching_example :
    (transferred exampleListed).accounts.map (fun x => x.2.lamports) = [93, 12, 1] ∧
    totalLamports (transferred exampleListed).accounts = totalLamports exampleContext.accounts ∧
    ∃ t, Machine.Run step (new exampleContext exampleRent 5 64) spendAndCall t ∧
      (Machine.StaysGood step Matching (new exampleContext exampleRent 5 64) spendAndCall ↔
        Machine.GuardedRun step Ok (new exampleContext exampleRent 5 64) spendAndCall t) := by
  obtain ⟨hbalanced, hmatching⟩ := balanced_and_matching exampleContext exampleRent 5 64
  refine ⟨by decide, hbalanced _ _ _ _ _ ⟨by decide, by decide⟩ ?_ (by decide), ?_⟩
  · exact ⟨by decide, trivial, trivial⟩
  obtain ⟨t, ht⟩ : ∃ t, exec step (new exampleContext exampleRent 5 64) spendAndCall =
      some t := ⟨_, rfl⟩
  have hrun := (run_iff_exec _).mpr ht
  exact ⟨t, hrun, hmatching _ _ hrun⟩

/-- The second call fails, because its caller has spent lamports, and its entry stays on the stack
of the system calls. -/
theorem unbalanced_call_leaves_entry :
    ¬ ∀ (ctx : InvokeContext) (rent : Rent) (stackCapacity traceCapacity : Nat)
        (es : List FrameEvent) (t : Frames),
      Machine.Run step (new ctx rent stackCapacity traceCapacity) es t → t.Matching := by
  intro h
  obtain ⟨t, ht⟩ : ∃ t, exec step (new exampleContext exampleRent 5 64) spendAndCall =
      some t := ⟨_, rfl⟩
  have hshape : (exec step (new exampleContext exampleRent 5 64) spendAndCall).map shape =
      some (1, 2, 1) := by decide
  rw [ht, map_some, some_inj, shape, Prod.mk.injEq, Prod.mk.injEq] at hshape
  have hmatch := (h _ _ _ _ _ t ((run_iff_exec _).mpr ht)).syscalls
  rw [hshape.1, hshape.2.1] at hmatch
  exact absurd hmatch (by decide)

/-- Lamports are kept by an instruction of a message whose pops returned `Ok`, if each call below it
lists accounts of its caller, as `prepare_instruction` makes it. -/
theorem messageInstruction_balanced (f : FrameContext) (message : SanitizedMessage)
    (ix : CompiledInstruction) (programIndices : List Nat) (body : CallBody)
    (hlength : ix.accounts.length < 2 ^ 16)
    (hnested : body.Nested (f.toInvokeContext.instructionAccounts message ix)) :
    let r := CallBody.run (.call programIndices
      (f.toInvokeContext.instructionAccounts message ix) ix.data body .done) f
    r.2 = true → totalLamports r.1.accounts = totalLamports f.accounts :=
  run_balanced (instructionAccounts_marked _ message hlength)
    (hnested.within fun ia hia => ⟨ia, hia, rfl⟩)

def transferMessage : SanitizedMessage where
  header :=
    { numRequiredSignatures := 1
      numReadonlySignedAccounts := 0
      numReadonlyUnsignedAccounts := 1 }
  staticAccountKeys := [⟨2⟩, ⟨3⟩, ⟨1⟩]
  loadedAddresses := { writable := [], readonly := [] }
  recentBlockhash := ⟨0⟩
  instructions := [{ programIdIndex := 2, accounts := [0, 1], data := [] }]
  areas := by decide
  payer := Nat.one_pos
  programs := by decide

theorem messageInstruction_balanced_transfer :
    let listed := exampleContext.instructionAccounts transferMessage ⟨2, [0, 1], []⟩
    (transferred listed).accounts.map (fun x => x.2.lamports) = [93, 12, 1] ∧
      totalLamports (transferred listed).accounts = 106 :=
  ⟨by decide, messageInstruction_balanced (new exampleContext exampleRent 5 64).toFrameContext
    transferMessage ⟨2, [0, 1], []⟩ [2] transferBody (by decide)
    ⟨by decide, trivial, trivial⟩ (by decide)⟩

/-- After three resizes at two depths, a state that is too long is refused. -/
theorem resizeDelta_exact_resize : ∃ t, Run step (new exampleContext exampleRent 5 64)
    resizeAndCall t ∧ Sized exampleContext.accounts t.accounts t.accountsResizeDelta ∧
      t.accountsResizeDelta = 6 ∧
      (t.toCallContext.modify (.instructionAccount 0) (.setState (replicate 7 0))).1.accounts =
        t.accounts := by
  obtain ⟨t, ht⟩ : ∃ t, exec step (new exampleContext exampleRent 5 64) resizeAndCall =
      some t := ⟨_, rfl⟩
  have hrun := (run_iff_exec _).mpr ht
  obtain ⟨hsized, herror⟩ := resizeDelta_exact _ _ 5 64 hrun
  have hend : (exec step (new exampleContext exampleRent 5 64) resizeAndCall).map (fun s =>
      (s.accountsResizeDelta, decide ((s.toCallContext.modify (.instructionAccount 0)
        (.setState (replicate 7 0))).2 = .error .accountDataTooSmall))) = some (6, true) := by
    decide
  rw [ht, map_some, some_inj, Prod.mk.injEq, decide_eq_true_iff] at hend
  exact ⟨t, hrun, hsized, hend.1, (herror _ _ _ hend.2).1⟩

/-- An account that was loaded with more bytes than permitted keeps them. -/
theorem loaded_too_long : ∃ t, Run step (new { exampleContext with
      accounts := [(⟨2⟩, AccountSharedData.create 100
        (replicate (maxPermittedDataLength + 1) 0) ⟨1⟩ false 0)] } exampleRent 5 64) [] t ∧
    ∃ x ∈ t.accounts, maxPermittedDataLength < x.2.data.length := by
  refine ⟨_, .nil _, _, mem_singleton_self _, ?_⟩
  rw [AccountSharedData.create, length_replicate]
  exact Nat.lt_succ_self _

end Frames
end Hypergrid
