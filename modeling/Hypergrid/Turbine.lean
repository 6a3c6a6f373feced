import Mathlib

/-!
# The broadcast tree of turbine

The model of `get_retransmit_peers` and `get_retransmit_parent` of `turbine/src/cluster_nodes.rs`.
The indices of the children of a node are computed in `usize`, where the first one may wrap around.

* `child_iff` : without the wrap-around, the two formulas are inverse.
* `mem_getRetransmitPeers` : the peers of a node are the nodes whose parent it is.
* `spanning_iff` : the nodes form a spanning tree exactly if no first child wraps around to an index
  of the list, in particular where the products of the indices and the fanout fit.
-/

namespace Hypergrid
open List

namespace Turbine
universe u
variable {α : Type u}

def offset (fanout index : Nat) : Nat := (index - 1) % fanout

/-- The index of the first child, before it is reduced to a `usize`. -/
def firstChild (fanout index : Nat) : Nat :=
  (index - offset fanout index) * fanout + offset fanout index + 1

def step (fanout index : Nat) : Nat := if index = 0 then 1 else fanout

/-- The nodes at `count` indices, up to the first one that is not there. -/
def whileSome (nodes : List α) (step : Nat) : Nat → Nat → List α
  | 0, _ => []
  | count + 1, i =>
    match nodes[i]? with
    | none => []
    | some node => node :: whileSome nodes step count ((i + step) % 2 ^ 64)

def getRetransmitPeers (fanout index : Nat) (nodes : List α) : List α :=
  whileSome nodes (step fanout index) fanout (firstChild fanout index % 2 ^ 64)

def parentIndex (fanout index : Nat) : Nat :=
  let anchor := (index - 1) / fanout - offset fanout ((index - 1) / fanout)
  if anchor = 0 then anchor else anchor + offset fanout index

def getRetransmitParent (fanout index : Nat) (nodes : List α) : Option α :=
  if index = 0 then none else nodes[parentIndex fanout index]?

/-- The nodes form a tree: every node but the first has one parent, with a lower index, which is the
one that `get_retransmit_parent` computes, also from the nodes in front of it; every node but the
first is relayed to once. -/
structure Spanning (fanout : Nat) (nodes : List α) : Prop where
  parent : ∀ i x, 1 ≤ i → nodes[i]? = some x → ∃ p < i,
    getRetransmitParent fanout i nodes = nodes[p]? ∧
    getRetransmitParent fanout i (nodes.take i) = nodes[p]? ∧
    ∀ q < nodes.length, x ∈ getRetransmitPeers fanout q nodes ↔ q = p
  disjoint : ∀ p < nodes.length, ∀ q < nodes.length, p ≠ q →
    (getRetransmitPeers fanout p nodes).Disjoint (getRetransmitPeers fanout q nodes)
  root : ∀ i, ∃ n, (parentIndex fanout)^[n] i = 0
  once : ((List.range nodes.length).flatMap
    (fun p => getRetransmitPeers fanout p nodes)).Perm nodes.tail

section Indices
variable {fanout i p q r j : Nat}

theorem offset_node (hr : r < fanout) : offset fanout (q * fanout + r + 1) = r := by
  rw [offset, Nat.add_sub_cancel, Nat.mul_add_mod_self_right, Nat.mod_eq_of_lt hr]

theorem exists_node (hfanout : 1 ≤ fanout) (hi : 1 ≤ i) :
    ∃ q, ∃ r < fanout, i = q * fanout + r + 1 := by
  refine ⟨(i - 1) / fanout, (i - 1) % fanout, Nat.mod_lt _ hfanout, ?_⟩
  rw [Nat.div_add_mod']
  omega

theorem firstChild_node (hr : r < fanout) :
    firstChild fanout (q * fanout + r + 1) = (q * fanout + 1) * fanout + r + 1 := by
  rw [firstChild, offset_node hr, show q * fanout + r + 1 - r = q * fanout + 1 by omega]

theorem parentIndex_first (hr : r < fanout) : parentIndex fanout (r + 1) = 0 := by
  simp [parentIndex, Nat.div_eq_of_lt hr]

/-- The children of the other nodes are one in each neighborhood. -/
theorem parentIndex_child (hr : r < fanout) (hj : j < fanout) :
    parentIndex fanout ((q * fanout + 1 + j) * fanout + r + 1) = q * fanout + r + 1 := by
  have hdiv : ((q * fanout + 1 + j) * fanout + r + 1 - 1) / fanout = q * fanout + j + 1 := by
    rw [Nat.add_sub_cancel, Nat.add_comm, Nat.add_mul_div_right _ _ (Nat.zero_lt_of_lt hr),
      Nat.div_eq_of_lt hr]
    omega
  rw [parentIndex, hdiv, offset_node hj, offset_node hr]
  rw [if_neg (by omega)]
  omega

variable (hfanout : 1 ≤ fanout)
include hfanout

/-- The formulas for the children and for the parent are inverse. -/
theorem child_iff :
    (∃ j < fanout, i = firstChild fanout p + j * step fanout p) ↔
      1 ≤ i ∧ parentIndex fanout i = p := by
  constructor
  · rintro ⟨j, hj, rfl⟩
    refine ⟨by unfold firstChild; omega, ?_⟩
    rcases Nat.eq_zero_or_pos p with rfl | hp
    · simpa [firstChild, offset, step, Nat.add_comm] using parentIndex_first hj
    · obtain ⟨q, r, hr, rfl⟩ := exists_node hfanout hp
      rw [firstChild_node hr, step, if_neg (by omega)]
      convert parentIndex_child (q := q) hr hj using 2
      ring
  · rintro ⟨hi, rfl⟩
    obtain ⟨q, r, hr, rfl⟩ := exists_node hfanout hi
    rcases Nat.eq_zero_or_pos q with rfl | hq
    · rw [Nat.zero_mul, Nat.zero_add, parentIndex_first hr]
      exact ⟨r, hr, by simp [firstChild, offset, step, Nat.add_comm]⟩
    · obtain ⟨a, j, hj, rfl⟩ := exists_node hfanout hq
      rw [show a * fanout + j + 1 = a * fanout + 1 + j by omega, parentIndex_child hr hj]
      refine ⟨j, hj, ?_⟩
      rw [firstChild_node hr, step, if_neg (by omega)]
      ring

theorem parentIndex_lt (hi : 1 ≤ i) : parentIndex fanout i < i := by
  obtain ⟨j, -, hj⟩ := (child_iff hfanout).2 ⟨hi, rfl⟩
  have hle := Nat.le_mul_of_pos_right
    (parentIndex fanout i - offset fanout (parentIndex fanout i)) hfanout
  unfold firstChild at hj
  omega

theorem exists_iterate_parentIndex (i : Nat) : ∃ n, (parentIndex fanout)^[n] i = 0 := by
  induction i using Nat.strong_induction_on with
  | _ i ih =>
    rcases Nat.eq_zero_or_pos i with rfl | hi
    · exact ⟨0, rfl⟩
    · obtain ⟨n, hn⟩ := ih (parentIndex fanout i) (parentIndex_lt hfanout hi)
      exact ⟨n + 1, hn⟩

theorem step_pos : 1 ≤ step fanout p := by
  unfold step
  split_ifs <;> omega

theorem step_le_firstChild : step fanout p ≤ firstChild fanout p := by
  rcases Nat.eq_zero_or_pos p with rfl | hp
  · simp [step, firstChild, offset]
  · obtain ⟨q, r, hr, rfl⟩ := exists_node hfanout hp
    rw [firstChild_node hr, step, if_neg (by omega), Nat.add_mul]
    omega

end Indices

section Peers
variable {nodes : List α} {fanout : Nat} {x : α}

/-- Below the end of the nodes the indices do not wrap around. -/
theorem mem_whileSome (hlen : nodes.length < 2 ^ 63) {step : Nat} (count : Nat) {i : Nat}
    (hstep : step ≤ i) :
    x ∈ whileSome nodes step count i ↔ ∃ j < count, nodes[i + j * step]? = some x := by
  induction count generalizing i with
  | zero => simp [whileSome]
  | succ count ih =>
    rw [whileSome]
    rcases hnode : nodes[i]? with _ | node
    · have hle := getElem?_eq_none_iff.1 hnode
      simp only [not_mem_nil, false_iff]
      rintro ⟨j, -, hj⟩
      have hlt := (List.getElem?_eq_some_iff.1 hj).1
      omega
    · have hlt := (List.getElem?_eq_some_iff.1 hnode).1
      simp only [List.mem_cons]
      rw [Nat.mod_eq_of_lt (by omega), ih (Nat.le_add_left _ _)]
      constructor
      · rintro (rfl | ⟨j, hj, hx⟩)
        · exact ⟨0, by omega, by simpa using hnode⟩
        · exact ⟨j + 1, by omega, by rw [← hx]; congr 1; ring⟩
      · rintro ⟨_ | j, hj, hx⟩
        · exact .inl (by simpa [hnode] using hx.symm)
        · exact .inr ⟨j, by omega, by rw [← hx]; congr 1; ring⟩

theorem nodup_whileSome (hnodup : nodes.Nodup) (hlen : nodes.length < 2 ^ 63) {step : Nat}
    (hpos : 1 ≤ step) (count : Nat) {i : Nat} (hstep : step ≤ i) :
    (whileSome nodes step count i).Nodup := by
  induction count generalizing i with
  | zero => exact nodup_nil
  | succ count ih =>
    rw [whileSome]
    rcases hnode : nodes[i]? with _ | node
    · exact List.nodup_nil
    · obtain ⟨hlt, hi⟩ := List.getElem?_eq_some_iff.1 hnode
      have hmod : (i + step) % 2 ^ 64 = i + step := Nat.mod_eq_of_lt (by omega)
      simp only [hmod]
      refine nodup_cons.2 ⟨fun hmem => ?_, ih (Nat.le_add_left _ _)⟩
      obtain ⟨j, -, hj⟩ := (mem_whileSome hlen count (Nat.le_add_left step i)).1 hmem
      -- The same node at two indices.
      have heq := (getElem?_inj hlt hnodup).1 (hnode.trans hj.symm)
      omega

/-- No first child wraps around to an index of the list. -/
def NoWrap (fanout n : Nat) : Prop :=
  ∀ i < n, firstChild fanout i < 2 ^ 64 ∨ n ≤ firstChild fanout i % 2 ^ 64

theorem NoWrap.of_fits (hfanout : 1 ≤ fanout) {n : Nat} (hfits : n * fanout + fanout < 2 ^ 64) :
    NoWrap fanout n := by
  intro i hi
  refine .inl (lt_of_le_of_lt ?_ hfits)
  have hmul : (i - offset fanout i) * fanout ≤ i * fanout := Nat.mul_le_mul_right _ (Nat.sub_le _ _)
  have hsucc : (i + 1) * fanout ≤ n * fanout := Nat.mul_le_mul_right _ hi
  rw [Nat.succ_mul] at hsucc
  unfold firstChild
  have hoffset : offset fanout i < fanout := Nat.mod_lt _ hfanout
  omega

variable (hfanout : 1 ≤ fanout) (hnodup : nodes.Nodup) (hlen : nodes.length < 2 ^ 63)

section NoWrap
variable (hwrap : NoWrap fanout nodes.length) {p : Nat} (hp : p < nodes.length)
include hfanout hlen hwrap hp

theorem mem_getRetransmitPeers :
    x ∈ getRetransmitPeers fanout p nodes ↔
      ∃ i, 1 ≤ i ∧ parentIndex fanout i = p ∧ nodes[i]? = some x := by
  have hiff : x ∈ getRetransmitPeers fanout p nodes ↔
      ∃ j < fanout, nodes[firstChild fanout p + j * step fanout p]? = some x := by
    rcases hwrap p hp with hlt | hle
    · rw [getRetransmitPeers, Nat.mod_eq_of_lt hlt]
      exact mem_whileSome hlen fanout (step_le_firstChild hfanout)
    · have hge := hle.trans (Nat.mod_le _ _)
      obtain ⟨k, rfl⟩ := Nat.exists_eq_add_of_le' hfanout
      simp only [getRetransmitPeers, whileSome, getElem?_eq_none hle, not_mem_nil, false_iff]
      rintro ⟨j, -, hj⟩
      have hlt := (List.getElem?_eq_some_iff.1 hj).1
      omega
  rw [hiff]
  constructor
  · rintro ⟨j, hj, hx⟩
    obtain ⟨hi, hparent⟩ := (child_iff hfanout).1 ⟨j, hj, rfl⟩
    exact ⟨_, hi, hparent, hx⟩
  · rintro ⟨i, hi, hparent, hx⟩
    obtain ⟨j, hj, rfl⟩ := (child_iff hfanout).2 ⟨hi, hparent⟩
    exact ⟨j, hj, hx⟩

include hnodup in
theorem nodup_getRetransmitPeers : (getRetransmitPeers fanout p nodes).Nodup := by
  rcases hwrap p hp with hlt | hle
  · rw [getRetransmitPeers, Nat.mod_eq_of_lt hlt]
    exact nodup_whileSome hnodup hlen (step_pos hfanout) fanout (step_le_firstChild hfanout)
  · obtain ⟨k, rfl⟩ := Nat.exists_eq_add_of_le' hfanout
    simp only [getRetransmitPeers, whileSome, getElem?_eq_none hle, nodup_nil]

end NoWrap

include hfanout hnodup hlen

theorem Spanning.of_noWrap (hwrap : NoWrap fanout nodes.length) : Spanning fanout nodes := by
  have hparent : ∀ {i x}, 1 ≤ i → nodes[i]? = some x → ∀ q < nodes.length,
      x ∈ getRetransmitPeers fanout q nodes ↔ q = parentIndex fanout i := by
    intro i x hi hx q hq
    rw [mem_getRetransmitPeers hfanout hlen hwrap hq]
    constructor
    · rintro ⟨k, -, rfl, hk⟩
      have hlt := (List.getElem?_eq_some_iff.1 hk).1
      rw [(List.getElem?_inj hlt hnodup).1 (hk.trans hx.symm)]
    · rintro rfl
      exact ⟨i, hi, rfl, hx⟩
  have hdisjoint : ∀ p < nodes.length, ∀ q < nodes.length, p ≠ q →
      (getRetransmitPeers fanout p nodes).Disjoint (getRetransmitPeers fanout q nodes) := by
    intro p hp q hq hne x hxp hxq
    obtain ⟨i, hi, rfl, hx⟩ := (mem_getRetransmitPeers hfanout hlen hwrap hp).1 hxp
    exact hne ((hparent hi hx q hq).1 hxq).symm
  refine ⟨fun i x hi hx => ?_, hdisjoint, exists_iterate_parentIndex hfanout, ?_⟩
  · have hlt := parentIndex_lt hfanout hi
    refine ⟨parentIndex fanout i, hlt, if_neg (by omega), ?_, hparent hi hx⟩
    rw [getRetransmitParent, if_neg (by omega), getElem?_take_of_lt hlt]
  · refine (perm_ext_iff_of_nodup (nodup_flatMap.2 ⟨fun p hp => ?_, ?_⟩)
      hnodup.tail).2 fun x => ?_
    · exact nodup_getRetransmitPeers hfanout hnodup hlen hwrap (mem_range.1 hp)
    · refine nodup_range.imp_of_mem fun hp hq hne => ?_
      exact hdisjoint _ (mem_range.1 hp) _ (mem_range.1 hq) hne
    · rw [mem_flatMap, mem_iff_getElem?]
      constructor
      · rintro ⟨p, hp, hx⟩
        obtain ⟨i, hi, -, hx⟩ := (mem_getRetransmitPeers hfanout hlen hwrap (mem_range.1 hp)).1 hx
        exact ⟨i - 1, by rw [getElem?_tail, Nat.sub_add_cancel hi, hx]⟩
      · rintro ⟨i, hx⟩
        rw [getElem?_tail] at hx
        have hp := (parentIndex_lt hfanout (Nat.le_add_left 1 i)).trans
          (List.getElem?_eq_some_iff.1 hx).1
        exact ⟨_, List.mem_range.2 hp, (hparent (Nat.le_add_left 1 i) hx _ hp).2 rfl⟩

theorem Spanning.noWrap (h : Spanning fanout nodes) : NoWrap fanout nodes.length := by
  intro p hp
  by_contra hnot
  obtain ⟨hge, hlt⟩ := not_or.1 hnot
  rw [not_le] at hlt
  -- The wrapped index is that of a peer, so its parent is `p`, whose first child is beyond it.
  generalize hi : firstChild fanout p % 2 ^ 64 = i at hlt
  have hx := getElem?_eq_getElem hlt
  have hpeer : nodes[i] ∈ getRetransmitPeers fanout p nodes := by
    obtain ⟨k, rfl⟩ := Nat.exists_eq_add_of_le' hfanout
    simp only [getRetransmitPeers, whileSome, hi, hx, mem_cons_self]
  have htail := h.once.subset (mem_flatMap.2 ⟨p, mem_range.2 hp, hpeer⟩)
  obtain ⟨k, hk⟩ := mem_iff_getElem?.1 htail
  rw [getElem?_tail] at hk
  obtain rfl := (getElem?_inj hlt hnodup).1 (hx.trans hk.symm)
  obtain ⟨q, hq, hparent, -, hpeers⟩ := h.parent _ _ (Nat.le_add_left 1 k) hk
  obtain rfl := (hpeers p hp).1 hpeer
  have hindex := (getElem?_inj hp hnodup).1 hparent.symm
  obtain ⟨j, -, hj⟩ := (child_iff hfanout).2 ⟨Nat.le_add_left 1 k, hindex.symm⟩
  omega

/-- The nodes form a spanning tree exactly if no first child wraps around to an index of the list,
which none does where the products of the indices and the fanout fit. -/
theorem spanning_iff :
    (Spanning fanout nodes ↔ NoWrap fanout nodes.length) ∧
      (nodes.length * fanout + fanout < 2 ^ 64 → Spanning fanout nodes) :=
  ⟨⟨Spanning.noWrap hfanout hnodup hlen, Spanning.of_noWrap hfanout hnodup hlen⟩,
    fun hfits => Spanning.of_noWrap hfanout hnodup hlen (.of_fits hfanout hfits)⟩

end Peers

/-- Of the third layer, two nodes are there, below two different nodes of the second. -/
theorem spanning_truncated :
    Spanning 3 (range 6) ∧ getRetransmitPeers 3 1 (range 6) = [4] ∧
      getRetransmitPeers 3 2 (range 6) = [5] ∧ getRetransmitPeers 3 3 (range 6) = [] :=
  ⟨(spanning_iff (by decide) (by decide) (by decide)).2 (by decide), by decide, by decide,
    by decide⟩

/-- With the largest fanout the second node relays to the first. -/
theorem not_spanning_maxFanout : ¬ Spanning (2 ^ 64 - 1) [true, false] := by
  intro h
  have hmem : true ∈ (range 2).flatMap
      (fun p => getRetransmitPeers (2 ^ 64 - 1) p [true, false]) :=
    mem_flatMap.2 ⟨1, by decide, by decide +kernel⟩
  exact absurd (h.once.subset hmem) (by decide)

end Turbine
end Hypergrid
