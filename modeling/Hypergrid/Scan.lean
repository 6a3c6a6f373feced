import Hypergrid.Clean

/-!
# Checked scans of the accounts index

`do_checked_scan_accounts` of `accounts-db/src/accounts_index.rs` beside the threads that change
the index while it runs.  Every critical section of a lock is one step:

* a scan checks `removed_bank_ids`, locks `ongoing_scan_roots`, reads the max root, counts it and
  unlocks, looks up keys, takes its max root out again and checks `removed_bank_ids` a second
  time;
* a clean pass proposes a slot, lowers it to the min ongoing scan root, and from then on collects
  zero-lamport candidates, drops outdated entries and purges candidates, key by key;
* the bank forks freeze banks and make them roots, store accounts, and give banks up.

`Admissible` says what the bank forks and the callers of the scans and cleans take care of.
-/

namespace Hypergrid

abbrev BankId := Nat

/-- The banks and their parents.  Two banks may have one slot. -/
structure BlockTree where
  slot : BankId → Slot
  parent : BankId → Option BankId
  parent_lt : ∀ b p, parent b = some p → slot p < slot b

/-- The first bank is the second one or is on its chain of parents. -/
def BlockTree.Ancestor (tree : BlockTree) (a b : BankId) : Prop :=
  Relation.ReflTransGen (fun x y => tree.parent x = some y) b a

/-- What a scan reads when it registers: the max root, and the index that it finds. -/
structure Registration where
  maxRoot : Slot
  index : AccountsIndex

/-- How far a scan is. -/
inductive ScanPhase where
  | checked
  | registering
  | scanning
  | scanned
  | returned (ok : Bool)
deriving DecidableEq

/-- A thread in `do_checked_scan_accounts`, with the results of its lookups. -/
structure Scan where
  bankId : BankId
  ancestors : Finset Slot
  phase : ScanPhase
  registration : Option Registration
  lookups : List (Pubkey × Option (Slot × AccountInfo))

def Scan.Running (scan : Scan) : Prop := ∀ ok, scan.phase ≠ .returned ok

/-- The ancestors that the lookups use: the given ones, if the max root is one of them. -/
def Registration.usedAncestors (reg : Registration) (ancestors : Finset Slot) : Finset Slot :=
  if reg.maxRoot ∈ ancestors then ancestors else ∅

/-- A thread in `clean_accounts`. -/
structure CleanPass where
  proposed : Slot
  /-- `max_clean_root` -/
  bound : Option Slot
  purgesZeroLamports : List (Pubkey × Purge)
  reclaims : List (Slot × AccountInfo)
  removed : Finset Pubkey

/-- The database with the scans and the clean passes that run on it. -/
structure ScanDb extends CleanDb where
  /-- `max_root_inclusive`, which the removal of a root does not change -/
  maxRootInclusive : Slot
  removedBankIds : Finset BankId
  /-- `ongoing_scan_roots`, each root as often as its count -/
  ongoingScanRoots : Multiset Slot
  scans : List Scan
  passes : List CleanPass
  /-- the versions without lamports that clean passes have purged -/
  purgedZero : Finset (Pubkey × Slot)
  /-- the frozen banks that have not been given up -/
  frozen : Finset BankId
  rooted : Finset BankId
  root : BankId

inductive ScanEvent where
  | freeze (b : BankId)
  | addRoot (b : BankId)
  | upsert (slot : Slot) (k : Pubkey) (info : AccountInfo)
  | removeBankId (b : BankId)
  | dropBankId (b : BankId)
  | giveUp (b : BankId)
  | purgeSlot (slot : Slot) (k : Pubkey)
  | beginScan (b : BankId) (ancestors : Finset Slot)
  | readMaxRoot (i : Nat)
  | register (i : Nat)
  | lookup (i : Nat) (k : Pubkey)
  | unregister (i : Nat)
  | finish (i : Nat)
  | beginClean (proposed : Slot)
  | readBound (j : Nat)
  | collect (j : Nat) (k : Pubkey)
  | cleanRooted (j : Nat) (k : Pubkey)
  | purgeKey (j : Nat) (k : Pubkey) (slots : Finset Slot)
  | cleanDeadSlot (slot : Slot)

def minOngoingScanRootFromBtree (roots : Multiset Slot) : Option Slot := roots.toFinset.min

namespace ScanDb

variable (s : ScanDb)
variable (i : Nat) (scan : Scan) (reg : Registration) (j : Nat) (pass : CleanPass)

abbrev index : AccountsIndex := s.db.accountsIndex

def withIndex (index : AccountsIndex) : ScanDb :=
  { s with db := { s.db with accountsIndex := index } }

def withScanRoots (roots : Multiset Slot) : ScanDb :=
  { s with
    ongoingScanRoots := roots
    minOngoingScanRoot := minOngoingScanRootFromBtree roots }

def setScan : ScanDb := { s with scans := s.scans.set i scan }

def setPass : ScanDb := { s with passes := s.passes.set j pass }

/-- The first check of `do_checked_scan_accounts`. -/
def beginScan (b : BankId) (ancestors : Finset Slot) : ScanDb :=
  { s with
    scans := s.scans ++
      [{ bankId := b
         ancestors
         phase := if b ∈ s.removedBankIds then .returned false else .checked
         registration := none
         lookups := [] }] }

/-- No scan holds the write lock of `ongoing_scan_roots`. -/
def scanRootsFree : Bool := s.scans.all (fun scan => decide (scan.phase ≠ .registering))

/-- The scan takes the write lock of `ongoing_scan_roots` and reads the max root. -/
def readMaxRoot : ScanDb :=
  s.setScan i
    { scan with
      phase := .registering
      registration := some ⟨s.maxRootInclusive, s.index⟩ }

/-- The scan counts its max root and releases the lock. -/
def register : ScanDb :=
  (s.withScanRoots (reg.maxRoot ::ₘ s.ongoingScanRoots)).setScan i
    { scan with phase := .scanning }

def lookup (k : Pubkey) : ScanDb :=
  s.setScan i
    { scan with
      lookups := scan.lookups ++
        [(k, s.index.get k (reg.usedAncestors scan.ancestors) (some reg.maxRoot))] }

/-- The scan takes its max root out; `none` is the panic of the missing count. -/
def unregister : Option ScanDb :=
  if reg.maxRoot ∈ s.ongoingScanRoots then
    some ((s.withScanRoots (s.ongoingScanRoots.erase reg.maxRoot)).setScan i
      { scan with phase := .scanned })
  else none

/-- The second check of `do_checked_scan_accounts`. -/
def finish : ScanDb :=
  s.setScan i { scan with phase := .returned (decide (scan.bankId ∉ s.removedBankIds)) }

/-- `add_root`; `none` is the failed assertion on the order of the roots. -/
def makeRoot (tree : BlockTree) (b : BankId) : Option ScanDb :=
  if s.maxRootInclusive ≤ tree.slot b then
    some { s with
      toFlushDb := s.toFlushDb.addRoot (tree.slot b)
      maxRootInclusive := tree.slot b
      rooted := insert b s.rooted
      root := b }
  else none

/-- A candidate of the clean pass: a key whose newest root has no lamports. -/
def collect (bound : Slot) (k : Pubkey) : ScanDb :=
  match s.scanZeroLamports bound k with
  | none => s
  | some p => s.setPass j { pass with purgesZeroLamports := (k, p) :: pass.purgesZeroLamports }

/-- `clean_rooted_entries` of the clean pass. -/
def cleanRooted (bound : Slot) (k : Pubkey) : ScanDb :=
  let r := CleanDb.cleanRootedEntries bound (s.toCleanDb, pass.reclaims, pass.removed) k
  { s with toCleanDb := r.1 }.setPass j { pass with reclaims := r.2.1, removed := r.2.2 }

/-- `purge_exact` of a candidate.  The slots are those of the candidate, without entries that
the pass has reclaimed before. -/
def purgeKey (k : Pubkey) (p : Purge) (slots : Finset Slot) : Option ScanDb :=
  if slots ⊆ p.slots ∧ ∀ e ∈ p.accountInfos, e.1 ∈ slots ∨ e ∉ s.slotList k then
    let r := s.retainEntries k (fun e => decide (e.1 ∈ slots))
    some ({ s with
      toCleanDb := r.1.removeIfSlotListEmpty k
      purgedZero := s.purgedZero ∪ slots.image (fun slot => (k, slot)) }.setPass j
        { pass with reclaims := pass.reclaims ++ r.2 })
  else none

/-- A slot without index entries is no longer a root. -/
def cleanDeadSlot (slot : Slot) : ScanDb :=
  { s with toCleanDb := s.processDeadSlots {slot} ∅ }

/-- One step of a scan that has the given phase. -/
def scanStep (phase : ScanPhase) (i : Nat) (f : Scan → Option ScanDb) : Option ScanDb :=
  (s.scans[i]?).bind (fun scan => if scan.phase = phase then f scan else none)

/-- One step of a clean pass that knows its bound. -/
def passStep (f : CleanPass → Slot → Option ScanDb) : Option ScanDb :=
  (s.passes[j]?).bind (fun pass => pass.bound.bind (f pass))

def step (tree : BlockTree) (s : ScanDb) : ScanEvent → Option ScanDb
  | .freeze b => some { s with frozen := insert b s.frozen }
  | .addRoot b => s.makeRoot tree b
  | .upsert slot k info => some (s.withIndex (s.index.upsert slot k info))
  | .removeBankId b => some { s with removedBankIds := insert b s.removedBankIds }
  | .dropBankId b => some { s with removedBankIds := s.removedBankIds.erase b }
  | .giveUp b => some { s with frozen := s.frozen.erase b }
  | .purgeSlot slot k => some (s.withIndex (s.index.purgeExact k slot))
  | .beginScan b ancestors => some (s.beginScan b ancestors)
  | .readMaxRoot i =>
    if s.scanRootsFree then s.scanStep .checked i (fun scan => some (s.readMaxRoot i scan))
    else none
  | .register i => s.scanStep .registering i (fun scan =>
    scan.registration.map (fun reg => s.register i scan reg))
  | .lookup i k => s.scanStep .scanning i (fun scan =>
    scan.registration.map (fun reg => s.lookup i scan reg k))
  | .unregister i =>
    if s.scanRootsFree then s.scanStep .scanning i (fun scan =>
      scan.registration.bind (fun reg => s.unregister i scan reg))
    else none
  | .finish i => s.scanStep .scanned i (fun scan => some (s.finish i scan))
  | .beginClean proposed =>
    some { s with passes := s.passes ++ [⟨proposed, none, [], [], ∅⟩] }
  | .readBound j => (s.passes[j]?).bind (fun pass =>
    if pass.bound = none ∧ s.scanRootsFree then
      some (s.setPass j { pass with bound := some (s.cleanBound pass.proposed) })
    else none)
  | .collect j k => s.passStep j (fun pass bound => some (s.collect j pass bound k))
  | .cleanRooted j k => s.passStep j (fun pass bound => some (s.cleanRooted j pass bound k))
  | .purgeKey j k slots => s.passStep j (fun pass _ =>
    (pass.purgesZeroLamports.lookup k).bind (fun p => s.purgeKey j pass k p slots))
  | .cleanDeadSlot slot => some (s.cleanDeadSlot slot)

variable (tree : BlockTree) (s : ScanDb)

/-- The slot of a bank that is frozen. -/
def FrozenSlot (slot : Slot) : Prop := ∃ b ∈ s.frozen, tree.slot b = slot

/-- The ancestors are slots of frozen banks on the chain of the bank. -/
def Tracks (b : BankId) (ancestors : Finset Slot) : Prop :=
  ∀ slot ∈ ancestors, ∃ a ∈ s.frozen, tree.Ancestor a b ∧ tree.slot a = slot

/-- What the threads around the scans take care of. -/
def Admissible : ScanEvent → Prop
  -- one frozen bank for a slot, after its parent
  | .freeze b => ¬s.FrozenSlot tree (tree.slot b) ∧ ∀ p, tree.parent b = some p → p ∈ s.frozen
  -- the roots are one fork
  | .addRoot b => b ∈ s.frozen ∧ tree.parent b = some s.root
  | .upsert slot _ _ => ¬s.FrozenSlot tree slot
  -- a scan keeps its bank
  | .dropBankId b => ∀ scan ∈ s.scans, scan.Running → scan.bankId ≠ b
  | .giveUp b => b ∉ s.rooted ∧ ∀ scan ∈ s.scans, scan.Running →
      tree.Ancestor b scan.bankId → scan.bankId ∈ s.removedBankIds
  | .purgeSlot slot _ => ¬s.FrozenSlot tree slot
  | .beginScan b ancestors => b ∈ s.removedBankIds ∨ b ∈ s.frozen ∧ s.Tracks tree b ancestors
  | .beginClean proposed => proposed ≤ s.maxRootInclusive
  -- `remove_dead_accounts` has seen the last account of the slot go
  | .cleanDeadSlot slot => ∀ k, ∀ e ∈ s.slotList k, e.1 ≠ slot
  | _ => True

end ScanDb
end Hypergrid
