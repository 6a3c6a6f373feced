import Hypergrid.Lib.GuardedRun
import Hypergrid.Message
import Hypergrid.RemoteLoader

/-!
# The NFT program of the base layer

The model of `sonic-nft-program/programs/hgnft/src/lib.rs`: the handlers `setlocker`,
`setvalue` and `fakesetvalue` with the account constraints that Anchor checks before a
handler runs, and of the transaction that `send_status_to_baselayer` builds.

The data of an account is kept as Anchor reads it: a `Mint`, or anything else.

* `applyCall_of_allowed`, `applyCall_of_not_allowed` : what one call does to a mint.
* `changes_iff` : when a call changes the level or the locker of a mint.
* `exclusiveLock_iff` : the lock of a user is exclusive in a run exactly if every call of
  another user leaves it alone.
-/

namespace Hypergrid
open Function Option

namespace Hgnft

/-- `declare_id!`: 4WTUyXNcf6QCEj76b3aRDLPewkPGkXFZkkyf3A3vua1z. -/
def programId : Pubkey :=
  .ofNat 0x341ed90fc12c74c1ef86beb1334b9f0abfc34a2cdce04fd4e2cab76149c908cd

structure Mint where
  name : List Char
  uri : List Char
  level : Nat
  locker : Pubkey
deriving DecidableEq

/-- An account of the base layer. -/
inductive BaseAccount where
  /-- no lamports, owned by the system program -/
  | empty
  /-- the data has the discriminator of `Mint` -/
  | mint (owner : Pubkey) (m : Mint)
  | other (owner : Pubkey)
deriving DecidableEq

/-- The accounts of the base layer.  Mints are created at the address of a key pair, so no
program and no reserved key holds one. -/
structure Ledger where
  accounts : Pubkey → BaseAccount
  addresses : ∀ k owner m, accounts k = .mint owner m →
    isBuiltinKeyOrSysvar k = false ∧ k ≠ programId

/-- The errors of Anchor that the constraints raise. -/
inductive AnchorError where
  | constraintMut
  | constraintHasOne
  | accountDiscriminatorMismatch
  | accountNotEnoughKeys
  | accountOwnedByWrongProgram
  | accountNotSigner
  | accountNotInitialized
  | declaredProgramIdMismatch
deriving DecidableEq

/-- `AccountInfo`, with the data looked up in the ledger. -/
structure AccountInfo where
  key : Pubkey
  isSigner : Bool
  isWritable : Bool
deriving DecidableEq

/-- The instructions of the program on an existing mint. -/
inductive Method where
  | setlocker (locker : Pubkey)
  | setvalue (level : Nat)
  | fakesetvalue (level : Nat)
deriving DecidableEq

structure Call where
  method : Method
  accounts : List AccountInfo
deriving DecidableEq

namespace Ledger

variable (l : Ledger)

def tryMint (info : AccountInfo) : Except AnchorError Mint :=
  match l.accounts info.key with
  | .empty => .error .accountNotInitialized
  | .mint owner m =>
    if owner = programId then .ok m else .error .accountOwnedByWrongProgram
  | .other owner =>
    if owner = programId then .error .accountDiscriminatorMismatch
    else .error .accountOwnedByWrongProgram

def trySigner (info : AccountInfo) : Except AnchorError Pubkey :=
  if info.isSigner then .ok info.key else .error .accountNotSigner

/-- The mint and the signer, which all three methods ask for in this order. -/
def tryMintAndSigner : List AccountInfo → Except AnchorError (AccountInfo × Mint × Pubkey)
  | [] => .error .accountNotEnoughKeys
  | [info] =>
    match l.tryMint info with
    | .error e => .error e
    | .ok _ => .error .accountNotEnoughKeys
  | info :: user :: _ =>
    match l.tryMint info with
    | .error e => .error e
    | .ok m =>
      match trySigner user with
      | .error e => .error e
      | .ok signer => .ok (info, m, signer)

/-- `SetLocker`, `SetValue` or `FakeSetValue`, and then the handler: the mint that is written
back, if the account is declared `mut`. -/
def handle (c : Call) : Except AnchorError (Option (Pubkey × Mint)) :=
  match l.tryMintAndSigner c.accounts with
  | .error e => .error e
  | .ok (info, m, signer) =>
    match c.method with
    | .setlocker locker =>
      if info.isWritable then .ok (some (info.key, { m with locker }))
      else .error .constraintMut
    | .setvalue level =>
      if info.isWritable then
        if m.locker = signer then .ok (some (info.key, { m with level, locker := default }))
        else .error .constraintHasOne
      else .error .constraintMut
    | .fakesetvalue _ => .ok none

def mintAt (k : Pubkey) : Option Mint :=
  match l.accounts k with
  | .mint owner m => if owner = programId then some m else none
  | _ => none

def writeMint (k : Pubkey) (m : Mint) : Ledger :=
  match h : l.accounts k with
  | .mint _ _ =>
    { accounts := Function.update l.accounts k (.mint programId m)
      addresses := by
        intro k' owner' m' hk'
        by_cases heq : k' = k
        · subst heq
          exact l.addresses _ _ _ h
        · rw [Function.update_of_ne heq] at hk'
          exact l.addresses _ _ _ hk' }
  | _ => l

/-- One call: a failed one leaves the ledger as it is. -/
def applyCall (c : Call) : Ledger :=
  match l.handle c with
  | .ok (some (k, m)) => l.writeMint k m
  | .ok none => l
  | .error _ => l

def applyCalls (cs : List Call) : Ledger := cs.foldl applyCall l

end Ledger

def Call.mint (c : Call) : Option AccountInfo := c.accounts[0]?

def Call.signer (c : Call) : Option Pubkey :=
  (c.accounts[1]?).bind (fun user => if user.isSigner then some user.key else none)

open Ledger

section Calls
variable {l : Ledger} {c : Call} {k : Pubkey} {m : Mint}

theorem tryMint_ok_iff {info : AccountInfo} :
    l.tryMint info = .ok m ↔ l.mintAt info.key = some m := by
  unfold tryMint mintAt
  cases l.accounts info.key with
  | empty => simp
  | mint owner m' =>
    dsimp only
    split_ifs <;> simp
  | other owner =>
    dsimp only
    split_ifs <;> simp

theorem tryMintAndSigner_ok_iff {info : AccountInfo} {signer : Pubkey} :
    l.tryMintAndSigner c.accounts = .ok (info, m, signer) ↔
      c.mint = some info ∧ l.mintAt info.key = some m ∧ c.signer = some signer := by
  unfold Call.mint Call.signer
  match c.accounts with
  | [] => simp [tryMintAndSigner]
  | [a] =>
    rw [tryMintAndSigner]
    cases l.tryMint a <;> simp
  | a :: user :: rest =>
    rw [tryMintAndSigner, ← tryMint_ok_iff]
    cases hmint : l.tryMint a with
    | error e =>
      simp only [reduceCtorEq, List.getElem?_cons_zero, some.injEq, false_iff]
      rintro ⟨rfl, h, _⟩
      rw [hmint] at h
      cases h
    | ok m' =>
      simp only [trySigner, List.getElem?_cons_zero, List.getElem?_cons_succ, bind_some, some.injEq]
      by_cases huser : user.isSigner = true
      · simp only [if_pos huser, Except.ok.injEq, Prod.mk.injEq, some.injEq]
        constructor
        · rintro ⟨rfl, rfl, rfl⟩
          exact ⟨rfl, hmint, rfl⟩
        · rintro ⟨rfl, h, rfl⟩
          rw [hmint, Except.ok.injEq] at h
          exact ⟨rfl, h, rfl⟩
      · simp [if_neg huser]

theorem mintAt_eq_some_iff : l.mintAt k = some m ↔ l.accounts k = .mint programId m := by
  unfold mintAt
  cases l.accounts k with
  | empty => simp
  | mint owner m' =>
    dsimp only
    split_ifs with howner
    · simp [howner]
    · simp [howner]
  | other owner => simp

theorem mintAt_writeMint {m' : Mint} (h : l.mintAt k = some m) (k' : Pubkey) :
    (l.writeMint k m').mintAt k' = if k' = k then some m' else l.mintAt k' := by
  rw [mintAt_eq_some_iff] at h
  have haccounts : (l.writeMint k m').accounts = update l.accounts k (.mint programId m') := by
    unfold writeMint
    split
    · rfl
    · rename_i hother
      exact absurd h (hother _ _)
  unfold mintAt
  rw [haccounts]
  split_ifs with heq
  · rw [heq, update_self]
    exact if_pos rfl
  · rw [update_of_ne heq]

/-- What a method that passes its constraints makes of a mint. -/
def Method.result (method : Method) (m : Mint) : Mint :=
  match method with
  | .setlocker locker => { m with locker }
  | .setvalue level => { m with level, locker := default }
  | .fakesetvalue _ => m

/-- The constraints of a call on the mint at a key, with its present locker. -/
def Call.Allowed (c : Call) (k locker signer : Pubkey) : Prop :=
  (∃ info, c.mint = some info ∧ info.key = k ∧
    (info.isWritable = true ∨ ∃ level, c.method = .fakesetvalue level)) ∧
    c.signer = some signer ∧ ∀ level, c.method = .setvalue level → locker = signer

theorem handle_of_allowed {signer : Pubkey} (hm : l.mintAt k = some m)
    (h : c.Allowed k m.locker signer) : l.handle c = .ok (some (k, c.method.result m)) ∨
      l.handle c = .ok none ∧ c.method.result m = m := by
  obtain ⟨⟨info, hmint, rfl, hwritable⟩, hsigner, hlocker⟩ := h
  unfold handle
  rw [tryMintAndSigner_ok_iff.mpr ⟨hmint, hm, hsigner⟩]
  cases hmethod : c.method with
  | setlocker locker =>
    have hw : info.isWritable = true := by simpa [hmethod] using hwritable
    simp [hw, Method.result]
  | setvalue level =>
    have hw : info.isWritable = true := by simpa [hmethod] using hwritable
    simp [hw, hlocker level hmethod, Method.result]
  | fakesetvalue level => exact .inr ⟨rfl, rfl⟩

theorem applyCall_of_allowed {signer : Pubkey} (hm : l.mintAt k = some m)
    (h : c.Allowed k m.locker signer) (k' : Pubkey) :
    (l.applyCall c).mintAt k' = if k' = k then some (c.method.result m) else l.mintAt k' := by
  unfold applyCall
  rcases handle_of_allowed hm h with hok | ⟨hok, hsame⟩
  · rw [hok]
    exact mintAt_writeMint hm k'
  · rw [hok, hsame]
    split_ifs with heq
    · rw [heq, hm]
    · rfl

theorem applyCall_of_not_allowed (hm : l.mintAt k = some m)
    (h : ∀ signer, ¬c.Allowed k m.locker signer) : (l.applyCall c).mintAt k = some m := by
  unfold applyCall handle
  cases htry : l.tryMintAndSigner c.accounts with
  | error e => exact hm
  | ok found =>
    obtain ⟨info, m', signer⟩ := found
    obtain ⟨hmint, hm', hsigner⟩ := tryMintAndSigner_ok_iff.mp htry
    -- a call on another mint writes elsewhere
    have helsewhere : info.key ≠ k → ∀ written : Mint,
        (l.writeMint info.key written).mintAt k = some m := by
      intro hne written
      rw [mintAt_writeMint hm', if_neg (fun heq => hne heq.symm), hm]
    have hsame : info.key = k → m' = m := by
      intro heq
      rw [heq, hm, some.injEq] at hm'
      exact hm'.symm
    have hrefused := h signer
    cases hmethod : c.method with
    | setlocker locker =>
      dsimp only
      split_ifs with hw
      · refine helsewhere (fun heq => hrefused ⟨⟨info, hmint, heq, .inl hw⟩, hsigner, ?_⟩) _
        intro level hlevel
        rw [hmethod] at hlevel
        cases hlevel
      · exact hm
    | setvalue level =>
      dsimp only
      split_ifs with hw hlocker
      · refine helsewhere (fun heq => hrefused ⟨⟨info, hmint, heq, .inl hw⟩, hsigner, ?_⟩) _
        intro _ _
        rw [← hsame heq]
        exact hlocker
      · exact hm
      · exact hm
    | fakesetvalue level => exact hm

def Ledger.status (l : Ledger) (k : Pubkey) : Option (Nat × Pubkey) :=
  (l.mintAt k).map (fun m => (m.level, m.locker))

theorem status_applyCall_iff (hm : l.mintAt k = some m) :
    (l.applyCall c).status k = l.status k ↔ ∀ signer, c.Allowed k m.locker signer →
        (c.method.result m).level = m.level ∧ (c.method.result m).locker = m.locker := by
  unfold status
  by_cases h : ∃ signer, c.Allowed k m.locker signer
  · obtain ⟨signer, hallowed⟩ := h
    rw [applyCall_of_allowed hm hallowed, if_pos rfl, hm]
    simp only [map_some, some.injEq, Prod.mk.injEq]
    exact ⟨fun heq _ _ => heq, fun hall => hall signer hallowed⟩
  · rw [applyCall_of_not_allowed hm (not_exists.mp h), hm]
    simp only [true_iff]
    intro signer hallowed
    exact absurd ⟨signer, hallowed⟩ h

theorem mintAt_applyCall (hm : l.mintAt k = some m) : ∃ m', (l.applyCall c).mintAt k = some m' := by
  by_cases h : ∃ signer, c.Allowed k m.locker signer
  · obtain ⟨signer, hallowed⟩ := h
    rw [applyCall_of_allowed hm hallowed, if_pos rfl]
    exact ⟨_, rfl⟩
  · exact ⟨m, applyCall_of_not_allowed hm (not_exists.mp h)⟩

end Calls

section Lock
open Machine

/-- A call by the user that makes the user the locker of the mint. -/
def Locks (l : Ledger) (k u : Pubkey) (c : Call) : Prop :=
  ∃ m, l.mintAt k = some m ∧ c.method = .setlocker u ∧ c.Allowed k m.locker u

/-- A call of `setvalue` by the user that runs. -/
def Releases (k u : Pubkey) (l : Ledger) (c : Call) : Prop :=
  ∃ m level, l.mintAt k = some m ∧ c.method = .setvalue level ∧ c.Allowed k m.locker u

/-- A call of another user leaves level and locker of the mint alone. -/
def KeepsStatus (k u : Pubkey) (l : Ledger) (c : Call) : Prop :=
  ∀ w, c.signer = some w → w ≠ u → (l.applyCall c).status k = l.status k

/-- In every part of the run that starts after a user has taken the lock, calls of other users
change neither level nor locker, until `setvalue` of the user has run. -/
def ExclusiveLock (l : Ledger) (cs : List Call) : Prop :=
  ∀ k u cs₁ c cs₂, cs = cs₁ ++ c :: cs₂ → Locks (l.applyCalls cs₁) k u c →
    HoldsUntil Ledger.applyCall (Releases k u) (KeepsStatus k u)
      ((l.applyCalls cs₁).applyCall c) cs₂

/-- A call of another user with the mint writable names the present locker, if it is
`setlocker`; if it is `setvalue`, the other user is not the present locker, or the call would
write what is there. -/
def Respects (k u : Pubkey) (l : Ledger) (c : Call) : Prop :=
  ∀ m w info, l.mintAt k = some m → c.signer = some w → w ≠ u →
    c.mint = some info → info.key = k → info.isWritable = true →
    match c.method with
    | .setlocker locker => locker = m.locker
    | .setvalue level => m.locker = w → level = m.level ∧ m.locker = default
    | .fakesetvalue _ => True

def IsMint (k : Pubkey) (l : Ledger) : Prop := ∃ m, l.mintAt k = some m

def LockRespected (l : Ledger) (cs : List Call) : Prop :=
  ∀ k u cs₁ c cs₂, cs = cs₁ ++ c :: cs₂ → Locks (l.applyCalls cs₁) k u c →
    HoldsUntil Ledger.applyCall (Releases k u) (Respects k u)
      ((l.applyCalls cs₁).applyCall c) cs₂

variable {l : Ledger} {c : Call} {k u : Pubkey} {m : Mint}

theorem keepsStatus_iff_respects (hm : l.mintAt k = some m) :
    KeepsStatus k u l c ↔ Respects k u l c := by
  unfold KeepsStatus Respects
  simp only [status_applyCall_iff hm]
  constructor
  · intro hkeeps m' w info hm' hsigner hother hmint hkey hwritable
    rw [hm, some.injEq] at hm'
    subst hm'
    have hresult := hkeeps w hsigner hother w
    cases hmethod : c.method with
    | setlocker locker =>
      have hallowed : c.Allowed k m.locker w :=
        ⟨⟨info, hmint, hkey, .inl hwritable⟩, hsigner, by simp [hmethod]⟩
      simpa [hmethod, Method.result] using hresult hallowed
    | setvalue level =>
      intro hlocker
      have hallowed : c.Allowed k m.locker w :=
        ⟨⟨info, hmint, hkey, .inl hwritable⟩, hsigner, fun _ _ => hlocker⟩
      have hboth := hresult hallowed
      simp only [hmethod, Method.result] at hboth
      exact ⟨hboth.1, hboth.2.symm⟩
    | fakesetvalue level => trivial
  · rintro hrespects w hsigner hother signer ⟨⟨info, hmint, hkey, hwritable⟩, hsigner', hlocker⟩
    rw [hsigner, some.injEq] at hsigner'
    subst hsigner'
    have hkept := hrespects m w info hm hsigner hother hmint hkey
    cases hmethod : c.method with
    | setlocker locker =>
      simp only [hmethod, reduceCtorEq, exists_false, or_false] at hwritable hkept
      exact ⟨rfl, hkept hwritable⟩
    | setvalue level =>
      simp only [hmethod, reduceCtorEq, exists_false, or_false] at hwritable hkept
      obtain ⟨hlevel, hdefault⟩ := hkept hwritable (hlocker level hmethod)
      exact ⟨hlevel, hdefault.symm⟩
    | fakesetvalue level => exact ⟨rfl, rfl⟩

/-- The lock is exclusive in a run exactly if its calls respect it. -/
theorem exclusiveLock_iff_lockRespected (l : Ledger) (cs : List Call) :
    ExclusiveLock l cs ↔ LockRespected l cs := by
  have hagree : ∀ k u cs₁ c cs₂, Locks (l.applyCalls cs₁) k u c →
      (HoldsUntil applyCall (Releases k u) (KeepsStatus k u)
          ((l.applyCalls cs₁).applyCall c) cs₂ ↔
        HoldsUntil applyCall (Releases k u) (Respects k u)
          ((l.applyCalls cs₁).applyCall c) cs₂) := by
    rintro k u cs₁ c cs₂ ⟨m, hm, _⟩
    have hinv : ∀ l' c', IsMint k l' → IsMint k (l'.applyCall c') :=
      fun _ _ ⟨_, hm'⟩ => mintAt_applyCall hm'
    exact holdsUntil_congr hinv (fun _ _ ⟨_, hm'⟩ => keepsStatus_iff_respects hm')
      (mintAt_applyCall hm) cs₂
  constructor
  · intro h k u cs₁ c cs₂ hcs hlocks
    exact (hagree k u cs₁ c cs₂ hlocks).mp (h k u cs₁ c cs₂ hcs hlocks)
  · intro h k u cs₁ c cs₂ hcs hlocks
    exact (hagree k u cs₁ c cs₂ hlocks).mpr (h k u cs₁ c cs₂ hcs hlocks)

end Lock

section Transactions

/-- `Instruction`, with its data read as a method of the program. -/
structure Instruction where
  programId : Pubkey
  method : Method
  accounts : List AccountMeta
deriving DecidableEq

/-- A transaction before its keys are compiled. -/
structure Transaction where
  payer : Pubkey
  instructions : List Instruction
deriving DecidableEq

structure CompiledKeyMeta where
  isSigner : Bool
  isWritable : Bool
  isInvoked : Bool
deriving DecidableEq

namespace CompiledKeys

/-- An account of an instruction adds its privileges to those of its key. -/
def addAccount (metas : Pubkey → CompiledKeyMeta) (a : AccountMeta) : Pubkey → CompiledKeyMeta :=
  let keyMeta := metas a.pubkey
  Function.update metas a.pubkey
    { keyMeta with
      isSigner := keyMeta.isSigner || a.isSigner
      isWritable := keyMeta.isWritable || a.isWritable }

def addInstruction (metas : Pubkey → CompiledKeyMeta) (ix : Instruction) :
    Pubkey → CompiledKeyMeta :=
  ix.accounts.foldl addAccount
    (Function.update metas ix.programId { metas ix.programId with isInvoked := true })

/-- `CompiledKeys::compile`: the privileges of the keys of a transaction. -/
def compile (instructions : List Instruction) (payer : Pubkey) : Pubkey → CompiledKeyMeta :=
  let metas := instructions.foldl addInstruction (fun _ => ⟨false, false, false⟩)
  Function.update metas payer { metas payer with isSigner := true, isWritable := true }

end CompiledKeys

namespace Transaction

/-- The keys of the message. -/
def keys (tx : Transaction) : List Pubkey :=
  tx.payer :: tx.instructions.flatMap
    (fun ix => ix.programId :: ix.accounts.map AccountMeta.pubkey)

/-- The privileges of an account when an instruction runs. -/
def info (tx : Transaction) (a : AccountMeta) : AccountInfo :=
  let keyMeta := CompiledKeys.compile tx.instructions tx.payer a.pubkey
  { key := a.pubkey
    isSigner := keyMeta.isSigner
    isWritable := keyMeta.isWritable &&
      !(isBuiltinKeyOrSysvar a.pubkey ||
        keyMeta.isInvoked && !tx.keys.contains bpfLoaderUpgradeableId) }

/-- The call that an instruction makes. -/
def call (tx : Transaction) (ix : Instruction) : Call :=
  { method := ix.method, accounts := ix.accounts.map tx.info }

end Transaction

inductive BaseError where
  | invalidAccountForFee
  | instruction (e : AnchorError)
deriving DecidableEq

namespace Ledger

/-- One instruction of a transaction; the entry point refuses any other program id. -/
def runInstruction (tx : Transaction) (l : Ledger) (ix : Instruction) : Except BaseError Ledger :=
  if ix.programId = Hgnft.programId then
    match l.handle (tx.call ix) with
    | .error e => .error (.instruction e)
    | .ok _ => .ok (l.applyCall (tx.call ix))
  else .error (.instruction .declaredProgramIdMismatch)

/-- A transaction: all of its instructions, or none. -/
def runTransaction (l : Ledger) (tx : Transaction) : Except BaseError Ledger :=
  if l.accounts tx.payer = .other systemProgramId then
    tx.instructions.foldlM (runInstruction tx) l
  else .error .invalidAccountForFee

end Ledger

/-- The transaction of `send_status_to_baselayer`. -/
def statusTransaction (update : RemoteAccountLoader.StatusUpdate) (payer : Pubkey) : Transaction :=
  let accounts := [AccountMeta.new update.account false, AccountMeta.new payer false]
  { payer
    instructions :=
      [{ programId := update.programId, method := .setlocker payer, accounts },
        { programId := update.programId, method := .setvalue update.value, accounts }] }

variable {l : Ledger} {k : Pubkey} {m : Mint} {c : Call}
variable {update : RemoteAccountLoader.StatusUpdate}

theorem runInstruction_of_allowed {tx : Transaction} {ix : Instruction} {signer : Pubkey}
    (hprogram : ix.programId = programId) (hm : l.mintAt k = some m)
    (h : (tx.call ix).Allowed k m.locker signer) :
    l.runInstruction tx ix = .ok (l.applyCall (tx.call ix)) := by
  unfold runInstruction
  rcases handle_of_allowed hm h with hok | ⟨hok, _⟩ <;> rw [if_pos hprogram, hok]

theorem statusTransaction_privileges {payer : Pubkey} (hprogram : update.account ≠ update.programId)
    (hreserved : isBuiltinKeyOrSysvar update.account = false) (hpayer : update.account ≠ payer) :
    ((statusTransaction update payer).info (.new update.account false)).isWritable = true ∧
      ((statusTransaction update payer).info (.new payer false)).isSigner = true := by
  constructor
  · simp [Transaction.info, CompiledKeys.compile, statusTransaction, CompiledKeys.addInstruction,
      CompiledKeys.addAccount, AccountMeta.new, update_of_ne, update_self,
      hprogram, hreserved, hpayer]
  · simp [Transaction.info, CompiledKeys.compile, statusTransaction, AccountMeta.new]

/-- The transaction of `send_status_to_baselayer` sets the level of a mint and leaves it
unlocked, whoever held the lock before. -/
theorem runTransaction_status {payer : Pubkey}
    (hprogram : update.programId = programId) (hm : l.mintAt update.account = some m)
    (hpayer : l.accounts payer = .other systemProgramId) :
    ∃ l', l.runTransaction (statusTransaction update payer) = .ok l' ∧
      l'.mintAt update.account = some { m with level := update.value, locker := default } := by
  have haccount := mintAt_eq_some_iff.mp hm
  obtain ⟨hreserved, haddress⟩ := l.addresses _ _ _ haccount
  have hne : update.account ≠ payer := by
    intro heq
    rw [heq, hpayer] at haccount
    cases haccount
  obtain ⟨hwritable, hsigner⟩ := statusTransaction_privileges (hprogram ▸ haddress) hreserved hne
  -- the constraints of both instructions, for the locker that the second one asks for
  have hallowed : ∀ method locker, (∀ level, method = .setvalue level → locker = payer) →
      Call.Allowed ⟨method, [(statusTransaction update payer).info (.new update.account false),
        (statusTransaction update payer).info (.new payer false)]⟩ update.account locker payer := by
    intro method locker hlocker
    refine ⟨⟨_, rfl, rfl, .inl hwritable⟩, ?_, hlocker⟩
    change (if _ then _ else _) = _
    rw [if_pos hsigner]
    rfl
  have hfirst := hallowed (.setlocker payer) m.locker (by simp)
  have hm₁ := applyCall_of_allowed hm hfirst update.account
  rw [if_pos rfl] at hm₁
  have hsecond := hallowed (.setvalue update.value) payer (fun _ _ => rfl)
  have hm₂ := applyCall_of_allowed hm₁ hsecond update.account
  rw [if_pos rfl] at hm₂
  refine ⟨_, ?_, hm₂⟩
  unfold runTransaction
  rw [if_pos (by exact hpayer)]
  have hrun₁ := @runInstruction_of_allowed l update.account m (statusTransaction update payer)
    ⟨update.programId, .setlocker payer, [.new update.account false, .new payer false]⟩ payer
    hprogram hm hfirst
  have hrun₂ := @runInstruction_of_allowed _ update.account _ (statusTransaction update payer)
    ⟨update.programId, .setvalue update.value, [.new update.account false, .new payer false]⟩
    payer hprogram hm₁ hsecond
  change (runInstruction _ l _ >>= fun l₁ =>
    runInstruction _ l₁ _ >>= fun l₂ => pure l₂) = _
  rw [hrun₁]
  change (runInstruction _ _ _ >>= fun l₂ => pure l₂) = _
  rw [bind_pure]
  exact hrun₂

end Transactions

/-- The lock of an NFT is exclusive in a run exactly if the calls of other users respect it, and
the transaction of `send_status_to_baselayer` always ends with its value and the default
locker. -/
theorem exclusiveLock_iff (l : Ledger) (cs : List Call) :
    (ExclusiveLock l cs ↔ LockRespected l cs) ∧
      ∀ (update : RemoteAccountLoader.StatusUpdate) (payer : Pubkey) (m : Mint),
        update.programId = programId →
        (l.applyCalls cs).mintAt update.account = some m →
        (l.applyCalls cs).accounts payer = .other systemProgramId →
        ∃ l', (l.applyCalls cs).runTransaction (statusTransaction update payer) = .ok l' ∧
          l'.mintAt update.account =
            some { m with level := update.value, locker := default } :=
  ⟨exclusiveLock_iff_lockRespected l cs,
    fun _ _ _ hprogram hm hpayer => runTransaction_status hprogram hm hpayer⟩

def mintKey : Pubkey := .ofNat (2 ^ 255 + 21)

def alice : Pubkey := .ofNat (2 ^ 255 + 22)

def bob : Pubkey := .ofNat (2 ^ 255 + 23)

def oneMint : Ledger :=
  { accounts := fun k =>
      if k = mintKey then .mint programId ⟨[], [], 1, default⟩ else .other systemProgramId
    addresses := by
      intro k owner m h
      by_cases hk : k = mintKey
      · subst hk
        decide
      · rw [if_neg hk] at h
        cases h }

def lockCall (user : Pubkey) : Call :=
  { method := .setlocker user
    accounts := [⟨mintKey, false, true⟩, ⟨user, true, false⟩] }

/-- After one user has locked the mint, the transaction of the base layer releases it. -/
theorem exclusiveLock_iff_lockedMint :
    ∃ l', (oneMint.applyCalls [lockCall alice]).runTransaction
        (statusTransaction { programId := programId, account := mintKey, value := 9 } bob) =
          .ok l' ∧
      l'.mintAt mintKey = some ⟨[], [], 9, default⟩ :=
  (exclusiveLock_iff oneMint [lockCall alice]).2
    { programId := programId, account := mintKey, value := 9 } bob ⟨[], [], 1, alice⟩ rfl
    (by decide) (by decide)

/-- A second user takes the lock of the first. -/
theorem lock_is_overwritten : ¬ExclusiveLock oneMint [lockCall alice, lockCall bob] := by
  intro h
  have hlocks : Locks oneMint mintKey alice (lockCall alice) := by
    refine ⟨⟨[], [], 1, default⟩, by decide, rfl, ⟨_, rfl, rfl, .inl rfl⟩, rfl, ?_⟩
    intro level hlevel
    cases hlevel
  have hkept := (h mintKey alice [] (lockCall alice) [lockCall bob] rfl hlocks).1
  exact absurd (hkept bob rfl (by decide)) (by decide)

end Hgnft
end Hypergrid
