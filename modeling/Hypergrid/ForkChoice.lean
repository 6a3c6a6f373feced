import Hypergrid.Account

/-!
# The heaviest subtree fork choice

The model of `heaviest_subtree_fork_choice.rs`: a tree of blocks in which every node keeps the
stake that voted in its subtree, the height of the subtree, and the best and the deepest block of
it.  Votes and marks are turned into an ordered map of operations that is processed from the
greatest key down.

A result `none` is a panic: a failed assertion or `unwrap`, or a subtraction below zero.
-/

namespace Hypergrid

structure SlotHashKey where
  slot : Slot
  hash : Hash
deriving DecidableEq

namespace SlotHashKey

/-- The order of keys: by slot, then by hash. -/
def toPair (k : SlotHashKey) : Slot ×ₗ Fin (2 ^ 256) := toLex (k.slot, k.hash.val)

theorem toPair_injective : Function.Injective toPair := by
  rintro ⟨slot, ⟨hash⟩⟩ ⟨slot', ⟨hash'⟩⟩ h
  have h' := Prod.ext_iff.mp (toLex.injective h)
  simp only at h'
  rw [h'.1, h'.2]

instance : LinearOrder SlotHashKey := LinearOrder.lift' toPair toPair_injective

theorem lt_of_slot_lt {k k' : SlotHashKey} (h : k.slot < k'.slot) : k < k' :=
  (Prod.Lex.toLex_lt_toLex).mpr (Or.inl h)

def default : SlotHashKey := { slot := 0, hash := ⟨0⟩ }

end SlotHashKey

structure ForkInfo where
  stakeVotedAt : Nat
  stakeVotedSubtree : Nat
  height : Nat
  bestSlot : SlotHashKey
  deepestSlot : SlotHashKey
  parent : Option SlotHashKey
  /-- in the order of the keys -/
  children : List SlotHashKey
  latestInvalidAncestor : Option Slot
  isDuplicateConfirmed : Bool
deriving DecidableEq

namespace ForkInfo

def isCandidate (i : ForkInfo) : Bool := i.latestInvalidAncestor.isNone

def setDuplicateConfirmed (i : ForkInfo) : ForkInfo :=
  { i with isDuplicateConfirmed := true, latestInvalidAncestor := none }

def updateWithNewlyValidAncestor (i : ForkInfo) (newlyValidAncestor : Slot) : ForkInfo :=
  match i.latestInvalidAncestor with
  | some latest =>
    if latest ≤ newlyValidAncestor then { i with latestInvalidAncestor := none } else i
  | none => i

def updateWithNewlyInvalidAncestor (i : ForkInfo) (newlyInvalidAncestor : Slot) : Option ForkInfo :=
  if i.isDuplicateConfirmed then none
  else if (i.latestInvalidAncestor.map
      (fun latest => decide (latest < newlyInvalidAncestor))).getD true then
    some { i with latestInvalidAncestor := some newlyInvalidAncestor }
  else some i

end ForkInfo

/-- `UpdateLabel`, in the order of the source. -/
inductive UpdateLabel where
  | aggregate
  | add
  | markValid (slot : Slot)
  | markInvalid (slot : Slot)
  | subtract
deriving DecidableEq

def UpdateLabel.rank : UpdateLabel → Nat ×ₗ Slot
  | aggregate => toLex (0, 0)
  | add => toLex (1, 0)
  | markValid slot => toLex (2, slot)
  | markInvalid slot => toLex (3, slot)
  | subtract => toLex (4, 0)

inductive UpdateOperation where
  | add (stake : Nat)
  | markValid (slot : Slot)
  | markInvalid (slot : Slot)
  | subtract (stake : Nat)
  | aggregate
deriving DecidableEq

def UpdateOperation.updateStake (newStake : Nat) : UpdateOperation → Option UpdateOperation
  | add stake => some (add (stake + newStake))
  | subtract stake => some (subtract (stake + newStake))
  | _ => none

/-- `UpdateOperations`: a map that is read in the order of its keys. -/
abbrev UpdateOperations := AList (fun _ : SlotHashKey × UpdateLabel => UpdateOperation)

def operationRank (o : SlotHashKey × UpdateLabel) : SlotHashKey ×ₗ (Nat ×ₗ Slot) :=
  toLex (o.1, o.2.rank)

/-- The epoch stakes: for each epoch, the stake of every vote account. -/
structure VoteStakes where
  getEpoch : Slot → Epoch
  epochStakes : Epoch → Option (Pubkey → Nat)

/-- The stake of a vote account for votes on a slot; 0 if the epoch is not known. -/
def VoteStakes.stakeFor (stakes : VoteStakes) (pubkey : Pubkey) (slot : Slot) : Nat :=
  ((stakes.epochStakes (stakes.getEpoch slot)).map (fun s => s pubkey)).getD 0

structure HeaviestSubtreeForkChoice where
  forkInfos : AList (fun _ : SlotHashKey => ForkInfo)
  latestVotes : AList (fun _ : Pubkey => SlotHashKey)
  treeRoot : SlotHashKey

namespace HeaviestSubtreeForkChoice

section Reads
variable (fc : HeaviestSubtreeForkChoice)

def info (key : SlotHashKey) : Option ForkInfo := fc.forkInfos.lookup key

def setInfo (key : SlotHashKey) (i : ForkInfo) : HeaviestSubtreeForkChoice :=
  { fc with forkInfos := fc.forkInfos.insert key i }

def containsBlock (key : SlotHashKey) : Bool := (fc.info key).isSome

def stakeVotedSubtree (key : SlotHashKey) :
    Option Nat := (fc.info key).map ForkInfo.stakeVotedSubtree

def height (key : SlotHashKey) : Option Nat := (fc.info key).map ForkInfo.height

def bestSlot (key : SlotHashKey) : Option SlotHashKey := (fc.info key).map ForkInfo.bestSlot

def children (key : SlotHashKey) : Option (List SlotHashKey) := (fc.info key).map ForkInfo.children

def parent (key : SlotHashKey) : Option SlotHashKey := (fc.info key).bind ForkInfo.parent

def latestInvalidAncestor (key : SlotHashKey) : Option Slot :=
  (fc.info key).bind ForkInfo.latestInvalidAncestor

def isDuplicateConfirmed (key : SlotHashKey) : Option Bool :=
  (fc.info key).map ForkInfo.isDuplicateConfirmed

def isCandidate (key : SlotHashKey) : Option Bool := (fc.info key).map ForkInfo.isCandidate

/-- `ancestor_iterator`.  Parents have lower slots; the test for it only stops a cycle. -/
def ancestorIterator (key : SlotHashKey) : List SlotHashKey :=
  match fc.parent key with
  | none => []
  | some parent =>
    if _h : parent.slot < key.slot then parent :: ancestorIterator parent else []
termination_by key.slot

/-- The loop of `subtree_diff`; the head of the list is the top of the stack. -/
def walkSubtree (root2 : SlotHashKey) :
    Nat → List SlotHashKey → List SlotHashKey → Option (List SlotHashKey)
  | _, [], reachable => some reachable
  | 0, _ :: _, _ => none
  | fuel + 1, key :: pending, reachable =>
    if key = root2 then walkSubtree root2 fuel pending reachable
    else do
      let children ← fc.children key
      walkSubtree root2 fuel (children.reverse ++ pending) (reachable.insert key)

/-- `subtree_diff`: the nodes that are reachable from `root1`, without the subtree of `root2`. -/
def subtreeDiff (root1 root2 : SlotHashKey) : Option (List SlotHashKey) :=
  if fc.containsBlock root1 then
    fc.walkSubtree root2 fc.forkInfos.entries.length [root1] []
  else some []

/-- One child in `is_best_child`: it does not beat the given one. -/
def notBetterThan (weight : Nat) (key child : SlotHashKey) : Option Bool := do
  let childWeight ← fc.stakeVotedSubtree child
  let candidate ← fc.isCandidate child
  return !candidate || !decide (weight < childWeight ∨ weight = childWeight ∧ child < key)

def isBestChild (maybeBestChild : SlotHashKey) : Option Bool := do
  let weight ← fc.stakeVotedSubtree maybeBestChild
  match fc.parent maybeBestChild with
  | none => return true
  | some parent => (← fc.children parent).allM (fc.notBetterThan weight maybeBestChild)

/-- One child in `is_deepest_child`: it does not beat the given one. -/
def notDeeperThan (height weight : Nat) (key child : SlotHashKey) : Option Bool := do
  let childHeight ← fc.height child
  let childWeight ← fc.stakeVotedSubtree child
  return !decide (height < childHeight ∨ height = childHeight ∧
    (weight < childWeight ∨ weight = childWeight ∧ child < key))

def isDeepestChild (maybeDeepestChild : SlotHashKey) : Option Bool := do
  let weight ← fc.stakeVotedSubtree maybeDeepestChild
  let height ← fc.height maybeDeepestChild
  match fc.parent maybeDeepestChild with
  | none => return true
  | some parent => (← fc.children parent).allM (fc.notDeeperThan height weight maybeDeepestChild)

/-- The first loop of `propagate_new_leaf`, over the parent and its ancestors. -/
def propagateBest (leaf parentBest : SlotHashKey) :
    List SlotHashKey → HeaviestSubtreeForkChoice → Option HeaviestSubtreeForkChoice
  | [], fc => some fc
  | ancestor :: rest, fc => do
      let i ← fc.info ancestor
      if i.bestSlot = parentBest then
        propagateBest leaf parentBest rest (fc.setInfo ancestor { i with bestSlot := leaf })
      else some fc

/-- The second loop of `propagate_new_leaf`. -/
def propagateDeepest (leaf : SlotHashKey) :
    List SlotHashKey → SlotHashKey → Nat → HeaviestSubtreeForkChoice →
      Option HeaviestSubtreeForkChoice
  | [], _, _, fc => some fc
  | ancestor :: rest, currentChild, currentHeight, fc => do
      if ← fc.isDeepestChild currentChild then
        let i ← fc.info ancestor
        propagateDeepest leaf rest ancestor (currentHeight + 1)
          (fc.setInfo ancestor { i with deepestSlot := leaf, height := currentHeight + 1 })
      else some fc

def propagateNewLeaf (key parent : SlotHashKey) :
    Option HeaviestSubtreeForkChoice := do
  let parentBest ← fc.bestSlot parent
  let chain := parent :: fc.ancestorIterator parent
  let fc ← if ← fc.isBestChild key then propagateBest key parentBest chain fc else some fc
  propagateDeepest key chain key 1 fc

def newLeaf (key : SlotHashKey) (parent : Option SlotHashKey) :
    ForkInfo where
  stakeVotedAt := 0
  stakeVotedSubtree := 0
  height := 1
  bestSlot := key
  deepestSlot := key
  parent := parent
  children := []
  latestInvalidAncestor := parent.bind fc.latestInvalidAncestor
  isDuplicateConfirmed := parent.isNone

def addNewLeafSlot (key : SlotHashKey)
    (parent : Option SlotHashKey) : Option HeaviestSubtreeForkChoice :=
  if fc.containsBlock key then some fc
  else
    let fc := fc.setInfo key (fc.newLeaf key parent)
    match parent with
    | none => some fc
    | some parent => do
        let i ← fc.info parent
        (fc.setInfo parent { i with children := i.children.orderedInsert (· ≤ ·) key })
          |>.propagateNewLeaf key parent

end Reads

/-- The variables of `aggregate_slot`. -/
structure Aggregation where
  stakeVotedSubtree : Nat
  deepestChildHeight : Nat
  bestSlot : SlotHashKey
  deepestSlot : SlotHashKey
  isDuplicateConfirmed : Bool
  bestChildStake : Nat
  bestChildKey : SlotHashKey
  deepestChildStake : Nat
  deepestChildKey : SlotHashKey
deriving DecidableEq

def Aggregation.start (key : SlotHashKey) (i : ForkInfo) : Aggregation where
  stakeVotedSubtree := i.stakeVotedAt
  deepestChildHeight := 0
  bestSlot := key
  deepestSlot := key
  isDuplicateConfirmed := false
  bestChildStake := 0
  bestChildKey := key
  deepestChildStake := 0
  deepestChildKey := key

def Aggregation.takeBest (a : Aggregation) (key childKey : SlotHashKey) (child : ForkInfo) :
    Aggregation :=
  if child.isCandidate = true ∧ (a.bestChildKey = key ∨ a.bestChildStake < child.stakeVotedSubtree ∨
      child.stakeVotedSubtree = a.bestChildStake ∧ childKey < a.bestChildKey) then
    { a with
      bestChildStake := child.stakeVotedSubtree
      bestChildKey := childKey
      bestSlot := child.bestSlot }
  else a

def Aggregation.takeDeepest (a : Aggregation) (key childKey : SlotHashKey) (child : ForkInfo) :
    Aggregation :=
  if a.deepestChildKey = key ∨ a.deepestChildHeight < child.height ∨
      child.height = a.deepestChildHeight ∧ (a.deepestChildStake < child.stakeVotedSubtree ∨
        child.stakeVotedSubtree = a.deepestChildStake ∧ childKey < a.deepestChildKey) then
    { a with
      deepestChildHeight := child.height
      deepestChildStake := child.stakeVotedSubtree
      deepestChildKey := childKey
      deepestSlot := child.deepestSlot }
  else a

def aggregateChild (fc : HeaviestSubtreeForkChoice) (key : SlotHashKey) (a : Aggregation)
    (childKey : SlotHashKey) : Option Aggregation := do
  let child ← fc.info childKey
  let a := { a with
    isDuplicateConfirmed := a.isDuplicateConfirmed || child.isDuplicateConfirmed
    stakeVotedSubtree := a.stakeVotedSubtree + child.stakeVotedSubtree }
  return (a.takeBest key childKey child).takeDeepest key childKey child

/-- The entry of a node after its children are aggregated. -/
def withAggregation (i : ForkInfo) (a : Aggregation) : ForkInfo :=
  let i := if a.isDuplicateConfirmed then i.setDuplicateConfirmed else i
  { i with
    stakeVotedSubtree := a.stakeVotedSubtree
    height := a.deepestChildHeight + 1
    bestSlot := a.bestSlot
    deepestSlot := a.deepestSlot }

def aggregateSlot (fc : HeaviestSubtreeForkChoice) (key : SlotHashKey) :
    Option HeaviestSubtreeForkChoice :=
  match fc.info key with
  | none => some fc
  | some i => do
      let a ← i.children.foldlM (fc.aggregateChild key) (Aggregation.start key i)
      return fc.setInfo key (withAggregation i a)

section Operations
variable (fc : HeaviestSubtreeForkChoice) (key : SlotHashKey) (ops : UpdateOperations)

/-- `do_insert_aggregate_operation`: whether the node was not there before, and the operations. -/
def doInsertAggregateOperation (modifyForkValidity : Option UpdateOperation)
    (key : SlotHashKey) : Bool × UpdateOperations :=
  if (ops.lookup (key, .aggregate)).isSome then (false, ops)
  else
    let ops := match modifyForkValidity with
      | some (UpdateOperation.markValid slot) =>
        ops.insert (key, UpdateLabel.markValid slot) (UpdateOperation.markValid slot)
      | some (UpdateOperation.markInvalid slot) =>
        ops.insert (key, UpdateLabel.markInvalid slot) (UpdateOperation.markInvalid slot)
      | _ => ops
    (true, ops.insert (key, .aggregate) .aggregate)

/-- The loop of `insert_aggregate_operations` over the ancestors of a node: it stops at the first
one that is already there. -/
def insertAggregates : List SlotHashKey → UpdateOperations → UpdateOperations
  | [], ops => ops
  | ancestor :: rest, ops =>
    match doInsertAggregateOperation ops none ancestor with
    | (true, ops) => insertAggregates rest ops
    | (false, ops) => ops

def insertAggregateOperations (key : SlotHashKey) : UpdateOperations :=
  insertAggregates (fc.ancestorIterator key) ops

def markForkValid (validSlot : Slot) : HeaviestSubtreeForkChoice :=
  match fc.info key with
  | none => fc
  | some i =>
    let i := i.updateWithNewlyValidAncestor validSlot
    fc.setInfo key (if key.slot = validSlot then { i with isDuplicateConfirmed := true } else i)

def markForkInvalid (invalidSlot : Slot) : Option HeaviestSubtreeForkChoice :=
  match fc.info key with
  | none => some fc
  | some i => do return fc.setInfo key (← i.updateWithNewlyInvalidAncestor invalidSlot)

def addSlotStake (stake : Nat) : HeaviestSubtreeForkChoice :=
  match fc.info key with
  | none => fc
  | some i =>
    fc.setInfo key { i with
      stakeVotedAt := i.stakeVotedAt + stake
      stakeVotedSubtree := i.stakeVotedSubtree + stake }

/-- `subtract_slot_stake`; `none` if a subtraction is below zero. -/
def subtractSlotStake (stake : Nat) : Option HeaviestSubtreeForkChoice :=
  match fc.info key with
  | none => some fc
  | some i =>
    if stake ≤ i.stakeVotedAt ∧ stake ≤ i.stakeVotedSubtree then
      some (fc.setInfo key { i with
        stakeVotedAt := i.stakeVotedAt - stake
        stakeVotedSubtree := i.stakeVotedSubtree - stake })
    else none

/-- One operation of `process_update_operations`. -/
def applyOperation :
    UpdateOperation → Option HeaviestSubtreeForkChoice
  | .markValid validSlot => some (fc.markForkValid key validSlot)
  | .markInvalid invalidSlot => fc.markForkInvalid key invalidSlot
  | .aggregate => fc.aggregateSlot key
  | .add stake => some (fc.addSlotStake key stake)
  | .subtract stake => fc.subtractSlotStake key stake

/-- The operations from the greatest key down. -/
def descending : List (Sigma (fun _ : SlotHashKey × UpdateLabel => UpdateOperation)) :=
  ops.entries.insertionSort (fun a b => operationRank b.1 ≤ operationRank a.1)

def processUpdateOperations : Option HeaviestSubtreeForkChoice :=
  (descending ops).foldlM (fun fc o => fc.applyOperation o.1.1 o.2) fc

end Operations

section Votes
variable (fc : HeaviestSubtreeForkChoice) (stakes : VoteStakes) (ops : UpdateOperations)

/-- `entry(..).and_modify(update_stake).or_insert(..)`. -/
def upsertStake (o : SlotHashKey × UpdateLabel)
    (new : Nat → UpdateOperation) (stake : Nat) : Option UpdateOperations :=
  match ops.lookup o with
  | none => some (ops.insert o (new stake))
  | some old => do return ops.insert o (← old.updateStake stake)

/-- The variables of `generate_update_operations`. -/
structure Generation where
  latestVotes : AList (fun _ : Pubkey => SlotHashKey)
  observedPubkeys : List Pubkey
  ops : UpdateOperations

def subtractOldVote (pubkey : Pubkey) (old : SlotHashKey) : Option UpdateOperations :=
  let stakeUpdate := stakes.stakeFor pubkey old.slot
  if 0 < stakeUpdate then do
    let ops ← upsertStake ops (old, .subtract) .subtract stakeUpdate
    return fc.insertAggregateOperations ops old
  else some ops

def addNewVote (pubkey : Pubkey) (new : SlotHashKey) : Option UpdateOperations := do
  let ops ← upsertStake ops (new, .add) .add (stakes.stakeFor pubkey new.slot)
  return fc.insertAggregateOperations ops new

/-- A vote that is not newer than the latest one: an older slot, or the same slot with a hash that
is not smaller. -/
def isOutdated (latest : Option SlotHashKey) (new : SlotHashKey) : Bool :=
  match latest with
  | none => false
  | some old => decide (new.slot < old.slot ∨ new.slot = old.slot ∧ old.hash.val ≤ new.hash.val)

/-- The assertion on a vote that replaces an older one. -/
def assertNewer (old new : SlotHashKey) : Option Unit :=
  if (if new.slot = old.slot then new.hash.val < old.hash.val else old.slot < new.slot) then some ()
  else none

def generateVote (g : Generation) (vote : Pubkey × SlotHashKey) : Option Generation :=
  let (pubkey, new) := vote
  if new.slot < fc.treeRoot.slot then some g
  else if pubkey ∈ g.observedPubkeys then none
  else
    let g := { g with observedPubkeys := pubkey :: g.observedPubkeys }
    if isOutdated (g.latestVotes.lookup pubkey) new then some g
    else do
      let ops ← match g.latestVotes.lookup pubkey with
        | none => some g.ops
        | some old => do
            let _ ← assertNewer old new
            fc.subtractOldVote stakes g.ops pubkey old
      let ops ← fc.addNewVote stakes ops pubkey new
      return { g with latestVotes := g.latestVotes.insert pubkey new, ops }

def generateUpdateOperations (pubkeyVotes : List (Pubkey × SlotHashKey)) : Option Generation :=
  pubkeyVotes.foldlM (fc.generateVote stakes)
    { latestVotes := fc.latestVotes, observedPubkeys := [], ops := ∅ }

/-- `add_votes`, with the best slot that it returns. -/
def addVotes
    (pubkeyVotes : List (Pubkey × SlotHashKey)) :
      Option (HeaviestSubtreeForkChoice × SlotHashKey) := do
  let g ← fc.generateUpdateOperations stakes pubkeyVotes
  let fc ← { fc with latestVotes := g.latestVotes }.processUpdateOperations g.ops
  return (fc, ← fc.bestSlot fc.treeRoot)

end Votes

section Roots
variable (fc : HeaviestSubtreeForkChoice)

def removeNode (key : SlotHashKey) : Option HeaviestSubtreeForkChoice :=
  if fc.containsBlock key then some { fc with forkInfos := fc.forkInfos.erase key } else none

def setTreeRoot (newRoot : SlotHashKey) :
    Option HeaviestSubtreeForkChoice := do
  let removeSet ← fc.subtreeDiff fc.treeRoot newRoot
  let fc ← removeSet.foldlM removeNode fc
  let i ← fc.info newRoot
  return { fc.setInfo newRoot { i with parent := none } with treeRoot := newRoot }

def addRootParent (rootParent : SlotHashKey) : Option HeaviestSubtreeForkChoice :=
  if rootParent.slot < fc.treeRoot.slot ∧ (fc.info rootParent).isNone then do
    let root ← fc.info fc.treeRoot
    let fc' := fc.setInfo fc.treeRoot { root with parent := some rootParent }
    return { fc'.setInfo rootParent
      { stakeVotedAt := 0
        stakeVotedSubtree := root.stakeVotedSubtree
        height := root.height + 1
        bestSlot := root.bestSlot
        deepestSlot := root.deepestSlot
        children := [fc.treeRoot]
        parent := none
        latestInvalidAncestor := none
        isDuplicateConfirmed := root.isDuplicateConfirmed } with treeRoot := rootParent }
  else none

/-- The loop of `split_off` that moves the nodes of the subtree. -/
def moveSubtree : Nat → List SlotHashKey → HeaviestSubtreeForkChoice →
    AList (fun _ : SlotHashKey => ForkInfo) →
    Option (HeaviestSubtreeForkChoice × AList (fun _ : SlotHashKey => ForkInfo))
  | _, [], fc, split => some (fc, split)
  | 0, _ :: _, _, _ => none
  | fuel + 1, key :: toVisit, fc, split => do
      let i ← fc.info key
      moveSubtree fuel (i.children.reverse ++ toVisit)
        { fc with forkInfos := fc.forkInfos.erase key } (split.insert key i)

/-- `retain` on the latest votes. -/
def retainVotes (votes : AList (fun _ : Pubkey => SlotHashKey)) (keep : SlotHashKey → Bool) :
    AList (fun _ : Pubkey => SlotHashKey) where
  entries := votes.entries.filter (fun v => keep v.2)
  nodupKeys := votes.nodupKeys.sublist List.filter_sublist

/-- `split_off`: the tree that is left, and the tree that is split off. -/
def splitOff (key : SlotHashKey) : Option (HeaviestSubtreeForkChoice × HeaviestSubtreeForkChoice) :=
  if fc.treeRoot = key then none
  else do
    let splitRoot ← fc.info key
    let parent ← splitRoot.parent
    let ops := fc.insertAggregateOperations ∅ key
    let i ← fc.info parent
    if key ∉ i.children then none
    else
      let fc := fc.setInfo parent { i with children := i.children.erase key }
      let fc ← fc.processUpdateOperations ops
      let (fc, split) ← moveSubtree fc.forkInfos.entries.length [key] fc ∅
      let i ← fc.info parent
      let fc := fc.setInfo parent { i with children := i.children.erase key }
      let split := split.insert key { splitRoot with parent := none }
      return ({ fc with latestVotes := retainVotes fc.latestVotes fc.containsBlock },
        { forkInfos := split
          latestVotes := retainVotes fc.latestVotes (fun k => (split.lookup k).isSome)
          treeRoot := key })

end Roots

def insertMarks (mark : UpdateOperation) (keys : List SlotHashKey) : UpdateOperations :=
  keys.foldl (fun ops key => (doInsertAggregateOperation ops (some mark) key).2) ∅

def markForkInvalidCandidate (fc : HeaviestSubtreeForkChoice) (key : SlotHashKey) :
    Option HeaviestSubtreeForkChoice :=
  match fc.info key with
  | none => some fc
  | some i =>
    if i.isDuplicateConfirmed then none
    else do
      let subtree ← fc.subtreeDiff key SlotHashKey.default
      let ops := insertMarks (.markInvalid key.slot) subtree
      fc.processUpdateOperations (fc.insertAggregateOperations ops key)

/-- `mark_fork_valid_candidate`, with the ancestors that are newly confirmed. -/
def markForkValidCandidate (fc : HeaviestSubtreeForkChoice) (key : SlotHashKey) :
    Option (HeaviestSubtreeForkChoice × List SlotHashKey) := do
  let newlyConfirmed ← (key :: fc.ancestorIterator key).filterM fun ancestor => do
    return !(← fc.isDuplicateConfirmed ancestor)
  let subtree ← fc.subtreeDiff key SlotHashKey.default
  let ops := insertMarks (.markValid key.slot) subtree
  let fc ← fc.processUpdateOperations (fc.insertAggregateOperations ops key)
  return (fc, newlyConfirmed)

end HeaviestSubtreeForkChoice
end Hypergrid
