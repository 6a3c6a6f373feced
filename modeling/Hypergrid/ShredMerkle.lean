import Mathlib

/-!
# Merkle proofs of shreds

The model of `make_merkle_tree`, `make_merkle_proof`, `get_merkle_root` and `get_proof_size` of
`ledger/src/shred/merkle.rs`, for any hash function.  The tree is one list of levels; a level of odd
length joins its last node with itself.

* `treeLoop_step` : a pass of the loop appends the parents of the last level.
* `treeLoop_verifies` : every node of the last level has a proof that leads to the last node.
* `merkleProofs_verify` : the proofs of the leaves.
* `merkleProof_binding` : there are no other proofs, unless entries collide.
-/

namespace Hypergrid
open List Option Nat
namespace ShredMerkle
universe u

inductive Error
  | invalidMerkleProof
deriving DecidableEq

variable {H E : Type u} (entry : H → E) (hashv : E → E → H)

/-- `join_nodes` of two nodes; a proof holds the `entry` of a node, its first 20 bytes. -/
def joinNodes (node other : H) : H := hashv (entry node) (entry other)

def getMerkleRoot (index : Nat) (node : H) (proof : List E) : Except Error H :=
  let (index, root) := proof.foldl (fun (index, node) other =>
    (index >>> 1,
      if index % 2 = 0 then hashv (entry node) other else hashv other (entry node))) (index, node)
  if index = 0 then .ok root else .error .invalidMerkleProof

/-- The inner loop of `make_merkle_tree` over the given indices. -/
def pushParents (offset size : Nat) : List Nat → List H → Option (List H)
  | [], nodes => some nodes
  | index :: rest, nodes => do
    let node ← nodes[index]?
    let other ← nodes[min (index + 1) (offset + size - 1)]?
    pushParents offset size rest (nodes ++ [joinNodes entry hashv node other])

/-- The outer loop of `make_merkle_tree`, at most `fuel` times. -/
def treeLoop : Nat → List H → Nat → Option (List H)
  | 0, _, _ => none
  | fuel + 1, nodes, size =>
    if size > 1 then do
      let offset := nodes.length - size
      let nodes ← pushParents entry hashv offset size
        (List.range' offset ((size + 1) / 2) 2) nodes
      treeLoop fuel nodes (nodes.length - offset - size)
    else some nodes

def makeMerkleTree (nodes : List H) : Option (List H) :=
  treeLoop entry hashv (nodes.length + 1) nodes nodes.length

/-- The loop of `make_merkle_proof`. -/
def proofLoop (tree : List H) (index size offset : Nat) : Option (List E) :=
  if size > 1 then do
    let node ← tree[offset + min (index ^^^ 1) (size - 1)]?
    let proof ← proofLoop tree (index >>> 1) ((size + 1) >>> 1) (offset + size)
    some (entry node :: proof)
  else if offset + 1 = tree.length then some [] else none
termination_by size
decreasing_by rw [Nat.shiftRight_one]; omega

def makeMerkleProof (index size : Nat) (tree : List H) : Option (List E) :=
  if index ≥ size then none else proofLoop entry tree index size 0

def getProofSize (numShreds : Nat) : Option Nat := do
  let bits := if numShreds = 0 then 0 else numShreds.log2 + 1
  let proofSize ← if numShreds = 2 ^ numShreds.log2 then
      if bits < 1 then none else some (bits - 1)
    else some bits
  if proofSize < 2 ^ 8 then some proofSize else none

theorem getProofSize_eq {n proofSize : Nat} (hn : n ≠ 0) (h : getProofSize n = some proofSize) :
    proofSize = Nat.clog 2 n := by
  have hle := log2_self_le hn
  have hlt := lt_log2_self (n := n)
  unfold getProofSize at h
  simp only [if_neg hn] at h
  by_cases hpow : n = 2 ^ n.log2
  · rw [if_pos hpow, if_neg (by omega)] at h
    obtain ⟨-, rfl⟩ := by simpa using h
    conv_rhs => rw [hpow, clog_pow 2 _ (by decide)]
  · rw [if_neg hpow] at h
    obtain ⟨-, rfl⟩ := by simpa using h
    refine le_antisymm ?_ ((clog_le_iff_le_pow (by decide)).2 hlt.le)
    exact (lt_clog_iff_pow_lt (by decide)).2 (lt_of_le_of_ne hle (Ne.symm hpow))

def parents : List H → List H
  | [] => []
  | [node] => [joinNodes entry hashv node node]
  | node :: other :: rest => joinNodes entry hashv node other :: parents rest

theorem length_parents : ∀ level : List H,
    (parents entry hashv level).length = (level.length + 1) / 2
  | [] => by simp [parents]
  | [_] => by simp [parents]
  | _ :: _ :: rest => by
    simp only [parents, List.length_cons, length_parents rest]
    omega

theorem xor_one_add_two (i : Nat) : (i + 2) ^^^ 1 = (i ^^^ 1) + 2 := by
  rcases even_or_odd i with heven | hodd
  · rw [xor_one_of_even heven, xor_one_of_even (heven.add even_two)]
  · have hpos := hodd.pos
    rw [xor_one_of_odd hodd, xor_one_of_odd (hodd.add_even even_two)]
    omega

/-- A node and the one that its proof reads, its sibling if it has one, are joined into the
parent. -/
theorem exists_sibling : ∀ (level : List H) {index : Nat} {node : H}, level[index]? = some node →
    ∃ sibling, level[min (index ^^^ 1) (level.length - 1)]? = some sibling ∧
      (parents entry hashv level)[index >>> 1]? = some (if index % 2 = 0 then
        hashv (entry node) (entry sibling) else hashv (entry sibling) (entry node))
  | [_], 0, node, h => ⟨node, h, by cases h; rfl⟩
  | _ :: other :: rest, 0, node, h => ⟨other, by simp, by cases h; rfl⟩
  | left :: _ :: rest, 1, node, h => ⟨left, by simp, by cases h; rfl⟩
  | _ :: _ :: rest, index + 2, node, h => by
    obtain ⟨sibling, hsibling, hparent⟩ := exists_sibling rest h
    have hlt := (List.getElem?_eq_some_iff.1 hsibling).1
    have hindex : min ((index ^^^ 1) + 2) (rest.length + 1 + 1 - 1) =
        min (index ^^^ 1) (rest.length - 1) + 2 := by omega
    refine ⟨sibling, ?_, ?_⟩
    · rwa [xor_one_add_two, length_cons, length_cons, hindex]
    · rw [shiftRight_one, add_div_right _ (by decide), ← shiftRight_one, add_mod_right]
      exact hparent

theorem pushParents_range' (offset size : Nat) : ∀ (rest nodes : List H) (start : Nat),
    (∀ j < rest.length, nodes[start + j]? = rest[j]?) → start + rest.length = offset + size →
    pushParents entry hashv offset size (List.range' start ((rest.length + 1) / 2) 2) nodes =
      some (nodes ++ parents entry hashv rest)
  | [], nodes, _, _, _ => by simp [pushParents, parents]
  | [node], nodes, start, hrest, hsize => by
    have hnode : nodes[start]? = some node := hrest 0 (by simp)
    have hother : min (start + 1) (offset + size - 1) = start := by
      simp only [length_singleton] at hsize
      omega
    simp [pushParents, parents, hnode, hother]
  | node :: other :: rest, nodes, start, hrest, hsize => by
    simp only [length_cons] at hrest hsize
    have hnode := hrest 0 (by omega)
    have hother := hrest 1 (by omega)
    have hmin : min (start + 1) (offset + size - 1) = start + 1 := by omega
    have hcount : (rest.length + 1 + 1 + 1) / 2 = (rest.length + 1) / 2 + 1 := by omega
    have hnext : ∀ j < rest.length,
        (nodes ++ [joinNodes entry hashv node other])[start + 2 + j]? = rest[j]? := by
      intro j hj
      have hj' := hrest (j + 2) (by omega)
      rw [getElem?_cons_succ, getElem?_cons_succ, getElem?_eq_getElem hj] at hj'
      rw [add_assoc, add_comm 2 j, List.getElem?_append_left (List.getElem?_eq_some_iff.1 hj').1,
        hj', List.getElem?_eq_getElem hj]
    simp only [add_zero, List.getElem?_cons_zero, List.getElem?_cons_succ] at hnode hother
    simp only [length_cons, hcount, range'_succ, pushParents, hnode, hmin, hother,
      bind_eq_bind, bind_some]
    rw [pushParents_range' offset size rest _ (start + 2) hnext (by omega)]
    simp [parents]

theorem treeLoop_step (fuel : Nat) (front level : List H) (hlevel : 1 < level.length) :
    treeLoop entry hashv (fuel + 1) (front ++ level) level.length =
      treeLoop entry hashv fuel (front ++ level ++ parents entry hashv level)
        (parents entry hashv level).length := by
  have hpush := pushParents_range' entry hashv front.length level.length level
    (front ++ level) front.length
    (fun j _ => by rw [getElem?_append_right (by omega), Nat.add_sub_cancel_left]) rfl
  rw [treeLoop, if_pos hlevel]
  simp only [length_append, Nat.add_sub_cancel, hpush, bind_eq_bind, bind_some]
  congr 1
  omega

theorem getMerkleRoot_cons (index : Nat) (node : H) (other : E) (proof : List E) :
    getMerkleRoot entry hashv index node (other :: proof) = getMerkleRoot entry hashv (index >>> 1)
      (if index % 2 = 0 then hashv (entry node) other else hashv other (entry node)) proof := rfl

theorem treeLoop_verifies (fuel : Nat) : ∀ (front level : List H), level ≠ [] →
    level.length ≤ fuel → ∃ tree root,
      treeLoop entry hashv fuel (front ++ level) level.length = some tree ∧
      (front ++ level) <+: tree ∧ tree.getLast? = some root ∧
      ∀ index node, level[index]? = some node → ∃ proof,
        proofLoop entry tree index level.length front.length = some proof ∧
        proof.length = Nat.clog 2 level.length ∧
        getMerkleRoot entry hashv index node proof = .ok root := by
  -- The induction is on the passes of the loop, each with the next level.
  induction fuel with
  | zero => intro _ level hne hfuel; exact absurd (length_eq_zero_iff.1 (by omega)) hne
  | succ fuel ih =>
    intro front level hne hfuel
    have hpos := length_pos_iff.2 hne
    rcases lt_or_ge 1 level.length with hlevel | hlevel
    · have hlength := length_parents entry hashv level
      obtain ⟨tree, root, htree, hfront, hroot, hproofs⟩ := ih (front ++ level)
        (parents entry hashv level) (length_pos_iff.1 (by omega)) (by omega)
      refine ⟨tree, root, by rw [treeLoop_step entry hashv fuel front level hlevel, htree],
        (prefix_append _ _).trans hfront, hroot, fun index node hnode => ?_⟩
      obtain ⟨sibling, hsibling, hparent⟩ := exists_sibling entry hashv level hnode
      obtain ⟨proof, hproof, hproofLength, hverified⟩ := hproofs _ _ hparent
      have hread : tree[front.length + min (index ^^^ 1) (level.length - 1)]? = some sibling := by
        obtain ⟨rest, rfl⟩ := hfront
        rw [append_assoc, append_assoc, getElem?_append_right (Nat.le_add_right _ _),
          Nat.add_sub_cancel_left,
          List.getElem?_append_left (List.getElem?_eq_some_iff.1 hsibling).1, hsibling]
      rw [List.length_append, hlength] at hproof
      refine ⟨entry sibling :: proof, ?_, ?_, by rw [getMerkleRoot_cons, hverified]⟩
      · rw [proofLoop, if_pos hlevel, hread, shiftRight_one (level.length + 1)]
        simp [hproof]
      · rw [length_cons, hproofLength, hlength, clog_of_two_le (by decide) hlevel]
        rfl
    · obtain ⟨leaf, rfl⟩ := length_eq_one_iff.1 (le_antisymm hlevel hpos)
      refine ⟨front ++ [leaf], leaf, rfl, prefix_rfl, by simp, fun index node hnode => ?_⟩
      obtain ⟨rfl, rfl⟩ : index = 0 ∧ leaf = node := by
        rcases index with _ | index
        · exact ⟨rfl, by simpa using hnode⟩
        · simp at hnode
      exact ⟨[], by rw [proofLoop]; simp, rfl, rfl⟩

variable {entry hashv}

/-- Every leaf has a proof of the size that `get_proof_size` gives, which leads to the last node of
the tree; there is none for other indices. -/
theorem merkleProofs_verify {leaves : List H} (hleaves : leaves ≠ []) {proofSize : Nat}
    (hsize : getProofSize leaves.length = some proofSize) :
    ∃ tree root, makeMerkleTree entry hashv leaves = some tree ∧ tree.getLast? = some root ∧
      (∀ index leaf, leaves[index]? = some leaf → ∃ proof,
        makeMerkleProof entry index leaves.length tree = some proof ∧ proof.length = proofSize ∧
        getMerkleRoot entry hashv index leaf proof = .ok root) ∧
      ∀ index, leaves.length ≤ index → makeMerkleProof entry index leaves.length tree = none := by
  obtain ⟨tree, root, htree, -, hroot, hproofs⟩ := treeLoop_verifies entry hashv
    (leaves.length + 1) [] leaves hleaves (le_succ _)
  refine ⟨tree, root, htree, hroot, fun index leaf hleaf => ?_, fun index hindex => if_pos hindex⟩
  obtain ⟨proof, hproof, hlength, hverified⟩ := hproofs index leaf hleaf
  have hlt := (List.getElem?_eq_some_iff.1 hleaf).1
  refine ⟨proof, (if_neg (not_le.2 hlt)).trans hproof, ?_, hverified⟩
  rw [hlength, getProofSize_eq (List.length_pos_iff.2 hleaves).ne' hsize]

/-- Three leaves, with proofs of two entries. -/
theorem merkleProofs_verify_three :
    ∃ tree root, makeMerkleTree id Nat.pair [7, 8, 9] = some tree ∧ tree.getLast? = some root ∧
      (∀ index leaf, [7, 8, 9][index]? = some leaf → ∃ proof,
        makeMerkleProof id index 3 tree = some proof ∧ proof.length = 2 ∧
        getMerkleRoot id Nat.pair index leaf proof = .ok root) ∧
      ∀ index, 3 ≤ index → makeMerkleProof id index 3 tree = none :=
  merkleProofs_verify (by decide) (by decide)

variable (entry hashv)

/-- The pairs of entries that `get_merkle_root` hashes. -/
def joined (index : Nat) (node : H) : List E → List (E × E)
  | [] => []
  | other :: proof =>
    if index % 2 = 0 then
      (entry node, other) :: joined (index >>> 1) (hashv (entry node) other) proof
    else (other, entry node) :: joined (index >>> 1) (hashv other (entry node)) proof

/-- Two different pairs give nodes with one entry. -/
def Collides (pairs pairs' : List (E × E)) : Prop :=
  ∃ a ∈ pairs, ∃ b ∈ pairs', a ≠ b ∧ entry (hashv a.1 a.2) = entry (hashv b.1 b.2)

variable {entry hashv}

/-- Two proofs of one length for one place that lead to one root start from the same entry. -/
theorem entry_eq_or_collides {index : Nat} {node node' root : H} {proof proof' : List E}
    (hlength : proof.length = proof'.length)
    (h : getMerkleRoot entry hashv index node proof = .ok root)
    (h' : getMerkleRoot entry hashv index node' proof' = .ok root) :
    entry node = entry node' ∧ proof = proof' ∨ Collides entry hashv
      (joined entry hashv index node proof) (joined entry hashv index node' proof') := by
  induction proof generalizing proof' index node node' with
  | nil =>
    obtain rfl := length_eq_zero_iff.1 hlength.symm
    obtain rfl : index = 0 := by
      by_contra hindex
      simp [getMerkleRoot, hindex] at h
    cases h
    cases h'
    exact .inl ⟨rfl, rfl⟩
  | cons other proof ih =>
    obtain ⟨other', proof', rfl⟩ := exists_cons_of_length_eq_add_one hlength.symm
    rw [getMerkleRoot_cons] at h h'
    have hrest := ih (succ.inj hlength) h h'
    unfold joined
    split_ifs at hrest ⊢
    all_goals
      rcases hrest with ⟨hentry, rfl⟩ | ⟨a, ha, b, hb, hab⟩
      · refine or_iff_not_imp_left.2 fun hne =>
          ⟨_, mem_cons_self, _, mem_cons_self, fun heq => hne ?_, hentry⟩
        simp_all
      · exact .inr ⟨a, mem_cons_of_mem _ ha, b, mem_cons_of_mem _ hb, hab⟩

/-- A proof of the right size that leads to the root of a tree is the one that `make_merkle_proof`
makes, and its node has the entry of the leaf, unless two pairs that are hashed collide. -/
theorem merkleProof_binding {leaves tree : List H} {root leaf node : H} {index proofSize : Nat}
    {proof : List E} (hsize : getProofSize leaves.length = some proofSize)
    (htree : makeMerkleTree entry hashv leaves = some tree) (hroot : tree.getLast? = some root)
    (hleaf : leaves[index]? = some leaf) (hproof : proof.length = proofSize)
    (h : getMerkleRoot entry hashv index node proof = .ok root) :
    ∃ made, makeMerkleProof entry index leaves.length tree = some made ∧
      (entry node = entry leaf ∧ proof = made ∨ Collides entry hashv
        (joined entry hashv index node proof) (joined entry hashv index leaf made)) := by
  have hne : leaves ≠ [] := by
    rintro rfl
    cases hleaf
  obtain ⟨tree', root', htree', -, hroot', hproofs⟩ := treeLoop_verifies entry hashv
    (leaves.length + 1) [] leaves hne (le_succ _)
  obtain rfl := some.inj (htree.symm.trans htree')
  obtain rfl := some.inj (hroot.symm.trans hroot')
  obtain ⟨made, hmade, hlength, hverified⟩ := hproofs index leaf hleaf
  rw [← getProofSize_eq (length_pos_iff.2 hne).ne' hsize, ← hproof] at hlength
  refine ⟨made, (if_neg (not_le.2 (List.getElem?_eq_some_iff.1 hleaf).1)).trans hmade, ?_⟩
  exact entry_eq_or_collides hlength.symm h hverified

/-- With a sum in the place of the hash, 17 proves itself where 16 is the leaf. -/
theorem merkleProof_binding_sum : ∃ made, makeMerkleProof id 0 2 [16, 6, 22] = some made ∧
    (17 = 16 ∧ [5] = made ∨ Collides id (· + ·) (joined id (· + ·) 0 17 [5])
      (joined id (· + ·) 0 16 made)) := by
  have hsize : getProofSize [16, 6].length = some 1 := by decide
  have htree : makeMerkleTree id (· + ·) [16, 6] = some [16, 6, 22] := by decide
  exact merkleProof_binding hsize htree rfl rfl rfl rfl

end ShredMerkle
end Hypergrid
