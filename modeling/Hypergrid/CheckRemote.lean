import Hypergrid.AccountsCache
import Hypergrid.Lib.WriteLog
import Hypergrid.Message

/-!
# Migrate and deactivate instructions in a message

The model of `check_remote_accounts` of `runtime/src/bank.rs`: the pass over the
instructions of a transaction that changes the cache of the remote loader.

The pass is a sequence of operations on the loader, `remoteOps`, one for each account of a
decodable instruction of the migrater program, except for signers and the program itself.
`opWrites` is the log of the insertions and removals that they make.

* `checkRemoteAccounts_eq` : the pass runs the operations and does nothing else.
* `foldl_apply_eq` : the loader after the operations, by the log.
-/

namespace Hypergrid
open WriteLog RemoteAccountLoader

/-- `ProgramInstruction` of the account migrater. -/
inductive ProgramInstruction where
  | migrateRemoteAccounts
  | deactivateRemoteAccounts
deriving DecidableEq

/-- `limited_deserialize`: a four-byte tag; bytes after it are allowed. -/
def ProgramInstruction.deserialize (data : List UInt8) : Option ProgramInstruction :=
  match UpgradeableLoaderState.takeBytes 4 data with
  | some (tag, _) =>
    match Pubkey.littleEndian tag with
    | 0 => some .migrateRemoteAccounts
    | 1 => some .deactivateRemoteAccounts
    | _ => none
  | none => none

/-- Answers of the RPC client, by the instruction and the position of the account in it. -/
abbrev RpcAnswers := Nat → Nat → List (Option RpcAccount)

/-- Answers of the base layer to a post: whether there is a blockhash, the signature of an
accepted transaction, and the account for the reload. -/
structure PostRpc where
  blockhash : Bool
  signature : Option (List Char)
  account : Option RpcAccount

namespace AccountsCache

/-- One account of an instruction of the migrater program. -/
def checkRemoteAccount (m : SanitizedMessage) (ix : CompiledInstruction)
    (instruction : ProgramInstruction) (answers : List (Option RpcAccount))
    (c : AccountsCache) (accountIndex : UInt8) : AccountsCache :=
  if m.isSigner accountIndex.toNat || accountIndex == ix.programIdIndex then c
  else
    let accounts := (m.accountKeys[accountIndex.toNat]?).toList
    match instruction with
    | .migrateRemoteAccounts => c.loadAccountsFromRemote (fun _ => answers) accounts
    | .deactivateRemoteAccounts => c.deactivateRemoteAccounts accounts

def checkRemoteAccounts (c : AccountsCache) (rpc : RpcAnswers) (tx : SanitizedTransaction) :
    AccountsCache :=
  if tx.isSimpleVoteTx then c
  else
    tx.message.instructions.zipIdx.foldl
      (fun c x =>
        match tx.message.accountKeys[x.1.programIdIndex.toNat]? with
        | some programId =>
          if programId ≠ sonicAccountMigraterId then c
          else
            match ProgramInstruction.deserialize x.1.data with
            | none => c
            | some instruction =>
              x.1.accounts.zipIdx.foldl
                (fun c a =>
                  checkRemoteAccount tx.message x.1 instruction (rpc x.2 a.2) c a.1)
                c
        | none => c)
      c

end AccountsCache

/-- An operation on the cache of the remote loader. -/
inductive RemoteOp where
  | migrate (key : Pubkey) (answers : List (Option RpcAccount))
  | deactivate (key : Pubkey)

namespace RemoteOp

def apply (l : RemoteAccountLoader) : RemoteOp → RemoteAccountLoader
  | migrate key answers => (l.loadAccount key answers).1
  | deactivate key => l.deactivateAccount key

def writes (l : RemoteAccountLoader) : RemoteOp → List (Pubkey × Option AccountSharedData)
  | migrate key answers =>
    if l.enable then
      (RemoteAccountLoader.fetched key answers).map (fun x => (x.1, some x.2))
    else []
  | deactivate key => (l.deactivated key).map (fun k => (k, none))

def ofInstruction (instruction : ProgramInstruction) (key : Pubkey)
    (answers : List (Option RpcAccount)) : RemoteOp :=
  match instruction with
  | .migrateRemoteAccounts => migrate key answers
  | .deactivateRemoteAccounts => deactivate key

end RemoteOp

def instructionOps (m : SanitizedMessage) (rpc : RpcAnswers)
    (x : CompiledInstruction × Nat) : List RemoteOp :=
  if m.accountKeys[x.1.programIdIndex.toNat]? = some sonicAccountMigraterId then
    match ProgramInstruction.deserialize x.1.data with
    | none => []
    | some instruction =>
      x.1.accounts.zipIdx.filterMap (fun a =>
        if m.isSigner a.1.toNat || a.1 == x.1.programIdIndex then none
        else
          (m.accountKeys[a.1.toNat]?).map
            (fun key => RemoteOp.ofInstruction instruction key (rpc x.2 a.2)))
  else []

def remoteOps (rpc : RpcAnswers) (tx : SanitizedTransaction) : List RemoteOp :=
  if tx.isSimpleVoteTx then []
  else tx.message.instructions.zipIdx.flatMap (instructionOps tx.message rpc)

def opWrites : RemoteAccountLoader → List RemoteOp → List (Pubkey × Option AccountSharedData)
  | _, [] => []
  | l, op :: ops => op.writes l ++ opWrites (op.apply l) ops

def AccountsCache.withLoader (c : AccountsCache) (l : RemoteAccountLoader) : AccountsCache :=
  { c with remoteLoader := l }

open RemoteOp

theorem checkRemoteAccount_eq (m : SanitizedMessage) (ix : CompiledInstruction)
    (instruction : ProgramInstruction) (answers : List (Option RpcAccount))
    (c : AccountsCache) (a : UInt8) :
    c.checkRemoteAccount m ix instruction answers a =
      c.withLoader (((if m.isSigner a.toNat || a == ix.programIdIndex then none
        else (m.accountKeys[a.toNat]?).map
          (fun key => ofInstruction instruction key answers)).toList).foldl
            apply c.remoteLoader) := by
  unfold AccountsCache.checkRemoteAccount
  by_cases hskip : (m.isSigner a.toNat || a == ix.programIdIndex) = true
  · rw [if_pos hskip, if_pos hskip]
    rfl
  · rw [if_neg hskip, if_neg hskip]
    cases m.accountKeys[a.toNat]? with
    | none => cases instruction <;> rfl
    | some key => cases instruction <;> rfl

theorem foldl_withLoader {α : Type} (ops : α → List RemoteOp)
    (f : AccountsCache → α → AccountsCache)
    (hf : ∀ c x, f c x = c.withLoader ((ops x).foldl apply c.remoteLoader))
    (xs : List α) (c : AccountsCache) :
    xs.foldl f c = c.withLoader ((xs.flatMap ops).foldl apply c.remoteLoader) := by
  induction xs generalizing c with
  | nil => rfl
  | cons x xs ih =>
    rw [List.foldl_cons, ih, hf, List.flatMap_cons, List.foldl_append]
    rfl

theorem checkRemoteAccounts_eq (c : AccountsCache) (rpc : RpcAnswers) (tx : SanitizedTransaction) :
    c.checkRemoteAccounts rpc tx =
      c.withLoader ((remoteOps rpc tx).foldl apply c.remoteLoader) := by
  unfold AccountsCache.checkRemoteAccounts remoteOps
  by_cases hvote : tx.isSimpleVoteTx = true
  · rw [if_pos hvote, if_pos hvote]
    rfl
  · rw [if_neg hvote, if_neg hvote]
    refine foldl_withLoader _ _ ?_ _ c
    intro c x
    unfold instructionOps
    cases tx.message.accountKeys[x.1.programIdIndex.toNat]? with
    | none => rfl
    | some programId =>
      by_cases hid : programId = sonicAccountMigraterId
      · simp only [hid, ne_eq, not_true_eq_false, if_false, if_true]
        cases ProgramInstruction.deserialize x.1.data with
        | none => rfl
        | some instruction =>
          dsimp only
          rw [List.filterMap_eq_flatMap_toList]
          exact foldl_withLoader _ _
            (fun c a => checkRemoteAccount_eq _ _ _ _ c a.1) _ c
      · simp only [hid, ne_eq, not_false_eq_true, if_true, Option.some.injEq, if_false]
        rfl

variable (l : RemoteAccountLoader)

theorem insertAll_eq_applyWrites (xs : List (Pubkey × AccountSharedData)) :
    l.insertAll xs =
      { l with
        accountCache := applyWrites l.accountCache (xs.map (fun x => (x.1, some x.2))) } := by
  induction xs generalizing l with
  | nil => rfl
  | cons x xs ih => exact ih (l.insert x.1 x.2)

theorem removeAll_eq_applyWrites (ks : List Pubkey) :
    l.removeAll ks =
      { l with accountCache := applyWrites l.accountCache (ks.map (fun k => (k, none))) } := by
  induction ks generalizing l with
  | nil => rfl
  | cons k ks ih => exact ih (l.remove k)

theorem apply_eq (op : RemoteOp) :
    op.apply l = { l with accountCache := applyWrites l.accountCache (op.writes l) } := by
  cases op with
  | migrate key answers =>
    cases henable : l.enable with
    | true =>
      simp only [apply, writes, henable, if_true]
      rw [loadAccount_eq_insertAll l henable, insertAll_eq_applyWrites, henable]
    | false =>
      have hstay : (l.loadAccount key answers).1 = l := by
        cases answers <;> simp [loadAccount, henable]
      simp only [apply, writes, henable, Bool.false_eq_true, if_false, hstay]
      cases l
      rw [← henable]
      rfl
  | deactivate key =>
    simp only [apply, writes]
    rw [deactivateAccount_eq_removeAll, removeAll_eq_applyWrites]

theorem foldl_apply_eq (ops : List RemoteOp) :
    ops.foldl apply l =
      { l with accountCache := applyWrites l.accountCache (opWrites l ops) } := by
  induction ops generalizing l with
  | nil => rfl
  | cons op ops ih =>
    rw [List.foldl_cons, ih, opWrites, applyWrites_append, apply_eq]

end Hypergrid
