import Hypergrid.Account
import Hypergrid.Lib.PriorityMerge

/-!
# De-duplication of accounts for the accounts hash

The model of `de_dup_accounts` of `accounts-db/src/accounts_hash.rs`: for every bin of keys a
working set with one pointer into each slot group is merged.

An offset into a slot group is the rest of the group from there on, and the working set has its last
element, the one of the least key, first.  Binary searches on sorted slices are given by the
position that they have to return.

* `addNextItem_spec` : adding a pointer keeps the working set ordered and its winners.
* `mergeItems_spec` : the loop puts out the winners of the working set, in key order.
* `countedItems_spec` : over all bins the newest item of every key is counted, in key order.
* `deDupAccounts_eq` : the hashes and the sum of lamports of the counted items.
-/

namespace Hypergrid
open List Option Nat

/-- `CalculateHashIntermediate`: one stored version of an account. -/
structure CalculateHashIntermediate where
  hash : Hash
  lamports : UInt64
  pubkey : Pubkey
deriving DecidableEq

/-- `ZeroLamportAccounts`. -/
inductive ZeroLamportAccounts where
  | excluded
  | included
deriving DecidableEq

/-- `AccountsHasher`, with `blake3::hash` of a key. -/
structure AccountsHasher where
  zeroLamportAccounts : ZeroLamportAccounts
  blake3 : Pubkey → Hash

def checkedAdd (a b : UInt64) : Option UInt64 :=
  if a.toNat + b.toNat ≤ u64Max then some (a + b) else none

structure PubkeyBinCalculator24 where
  shiftBits : Nat

namespace PubkeyBinCalculator24

/-- `PubkeyBinCalculator24::new`, with its asserts. -/
def new (bins : Nat) : Option PubkeyBinCalculator24 :=
  if 0 < bins ∧ bins ≤ 2 ^ 24 ∧ 2 ^ Nat.log2 bins = bins then
    some { shiftBits := 24 - Nat.log2 bins }
  else none

/-- `bin_from_pubkey`: the first bits of the first three bytes. -/
def binFromPubkey (binner : PubkeyBinCalculator24) (pubkey : Pubkey) : Nat :=
  pubkey.val.val / 2 ^ 232 / 2 ^ binner.shiftBits

theorem binFromPubkey_mono (binner : PubkeyBinCalculator24) {k k' : Pubkey} (h : k ≤ k') :
    binner.binFromPubkey k ≤ binner.binFromPubkey k' := by
  have hval : k.val.val ≤ k'.val.val := h
  exact Nat.div_le_div_right (Nat.div_le_div_right hval)

theorem binFromPubkey_lt {bins : Nat} {binner : PubkeyBinCalculator24}
    (h : new bins = some binner) (k : Pubkey) :
    binner.binFromPubkey k < bins := by
  unfold new at h
  split_ifs at h with hc
  obtain ⟨hpos, hle, hpow⟩ := hc
  cases h
  have hlog : Nat.log2 bins ≤ 24 := by
    by_contra hlt
    have hbig : 2 ^ 25 ≤ 2 ^ Nat.log2 bins := Nat.pow_le_pow_right (by norm_num) (by omega)
    omega
  have hsplit : (2 : Nat) ^ 256 = 2 ^ 232 * (2 ^ (24 - Nat.log2 bins) * 2 ^ Nat.log2 bins) := by
    rw [← pow_add, ← pow_add]
    congr 1
    omega
  unfold binFromPubkey
  rw [Nat.div_div_eq_div_mul, Nat.div_lt_iff_lt_mul (by positivity)]
  calc k.val.val < 2 ^ 256 := k.val.isLt
    _ = bins * (2 ^ 232 * 2 ^ (24 - Nat.log2 bins)) := by
        rw [hsplit, hpow]
        ring

end PubkeyBinCalculator24

namespace AccountsHasher

/-- `SlotGroupPointer`: the group, the item at the offset, and the items after it. -/
structure SlotGroupPointer where
  slotGroupIndex : Nat
  first : CalculateHashIntermediate
  rest : List CalculateHashIntermediate

def SlotGroupPointer.key (p : SlotGroupPointer) : Pubkey := p.first.pubkey

/-- The loop of `get_item` that skips items of an equal key: the last of them and what
follows. -/
def skipKey (key : Pubkey) (last : CalculateHashIntermediate) :
    List CalculateHashIntermediate →
      CalculateHashIntermediate × List CalculateHashIntermediate
  | [] => (last, [])
  | y :: ys => if y.pubkey = key then skipKey key y ys else (last, y :: ys)

section Bin
variable (binner : PubkeyBinCalculator24) (bin : Nat)

def getItem (p : SlotGroupPointer) : CalculateHashIntermediate × Option SlotGroupPointer :=
  match skipKey p.key p.first p.rest with
  | (item, []) => (item, none)
  | (item, y :: ys) =>
    if bin < binner.binFromPubkey y.pubkey then (item, none)
    else (item, some { slotGroupIndex := p.slotGroupIndex, first := y, rest := ys })

def binarySearchForFirstPubkeyInBin (hashData : List CalculateHashIntermediate) : Option Nat :=
  let potentialIndex :=
    if bin = 0 then 0
    else
      (hashData.takeWhile
        (fun d => decide (1 + 2 * binner.binFromPubkey d.pubkey < bin * 2))).length
  (hashData[potentialIndex]?).bind
    (fun d => if binner.binFromPubkey d.pubkey = bin then some potentialIndex else none)

def findFirstPubkeyInBin (bins : Nat) (hashData : List CalculateHashIntermediate) : Option Nat :=
  let i := hashData.length * bin / bins
  match hashData[i]? with
  | none => none
  | some estimate =>
    if bin ≤ binner.binFromPubkey estimate.pubkey then
      binarySearchForFirstPubkeyInBin binner bin (hashData.take (i + 1))
    else
      (binarySearchForFirstPubkeyInBin binner bin (hashData.drop (i + 1))).map
        (fun j => i + 1 + j)

/-- One round of `add_next_item`: the search in the working set, and the insertion or the
replacement; the pointer that is left to add. -/
def place (x : SlotGroupPointer) :
    List SlotGroupPointer → List SlotGroupPointer × Option SlotGroupPointer
  | [] => ([x], none)
  | p :: ws =>
    if x.key < p.key then (x :: p :: ws, none)
    else if x.key = p.key then
      if x.slotGroupIndex < p.slotGroupIndex then (p :: ws, (getItem binner bin x).2)
      else (x :: ws, (getItem binner bin p).2)
    else
      let r := place x ws
      (p :: r.1, r.2)

/-- `add_next_item`; the fuel bounds the number of rounds. -/
def addNextItem : Nat → Option SlotGroupPointer → List SlotGroupPointer →
    List SlotGroupPointer
  | fuel + 1, some x, ws =>
    let r := place binner bin x ws
    addNextItem fuel r.2 r.1
  | _, _, ws => ws

def firstPointer (bins : Nat) (slotGroupIndex : Nat)
    (hashData : List CalculateHashIntermediate) : Option SlotGroupPointer :=
  (findFirstPubkeyInBin binner bin bins hashData).bind
    (fun j =>
      match hashData.drop j with
      | first :: rest => some { slotGroupIndex, first, rest }
      | [] => none)

/-- `initialize_dedup_working_set`: the slot groups from the latest to the oldest. -/
def initializeDedupWorkingSet (fuel bins : Nat)
    (sortedDataByPubkey : List (List CalculateHashIntermediate)) :
    List SlotGroupPointer :=
  sortedDataByPubkey.zipIdx.reverse.foldl
    (fun ws x => addNextItem binner bin fuel (firstPointer binner bin bins x.2 x.1) ws) []

def addItem (h : AccountsHasher) (acc : List Hash × UInt64)
    (item : CalculateHashIntermediate) : Option (List Hash × UInt64) :=
  if item.lamports ≠ 0 then
    (checkedAdd item.lamports acc.2).map (fun sum => (acc.1 ++ [item.hash], sum))
  else if h.zeroLamportAccounts = .included then
    some (acc.1 ++ [h.blake3 item.pubkey], acc.2)
  else some acc

/-- The main loop of `de_dup_accounts_in_parallel`. -/
def deDupLoop (h : AccountsHasher) :
    Nat → List SlotGroupPointer → List Hash × UInt64 → Option (List Hash × UInt64)
  | fuel + 1, p :: ws, acc =>
    let r := getItem binner bin p
    (addItem h acc r.1).bind (deDupLoop h fuel (addNextItem binner bin fuel r.2 ws))
  | _, _, acc => some acc

end Bin

def deDupAccountsInParallel (h : AccountsHasher)
    (sortedDataByPubkey : List (List CalculateHashIntermediate)) (pubkeyBin bins : Nat) :
    Option (List Hash × UInt64) :=
  (PubkeyBinCalculator24.new bins).bind (fun binner =>
    -- every round of the loops uses up an item
    let fuel := (sortedDataByPubkey.map List.length).sum
    deDupLoop binner pubkeyBin h fuel
      (initializeDedupWorkingSet binner pubkeyBin fuel bins sortedDataByPubkey) ([], 0))

/-- `de_dup_accounts`: one list of hashes for each bin, and the sum of lamports.  The
parallel sums of the source overflow in some grouping exactly if the total does. -/
def deDupAccounts (h : AccountsHasher)
    (sortedDataByPubkey : List (List CalculateHashIntermediate)) (maxBin : Nat) :
    Option (List (List Hash) × UInt64) :=
  (List.range maxBin).foldlM
    (fun acc bin =>
      (deDupAccountsInParallel h sortedDataByPubkey bin maxBin).bind
        (fun r => (checkedAdd acc.2 r.2).map (fun sum => (acc.1 ++ [r.1], sum))))
    ([], 0)

open PriorityMerge
open CalculateHashIntermediate (pubkey)

def SortedByKey (l : List CalculateHashIntermediate) : Prop :=
  l.Pairwise (fun x y => x.pubkey ≤ y.pubkey)
deriving Decidable

section Search
variable {binner : PubkeyBinCalculator24} {bin : Nat}
variable {l : List CalculateHashIntermediate} {x : CalculateHashIntermediate}

theorem takeWhile_take (test : CalculateHashIntermediate → Bool) {i : Nat}
    (hx : l[i]? = some x) (htest : test x = false) :
    (l.take (i + 1)).takeWhile test = l.takeWhile test ∧ (l.takeWhile test).length < i + 1 := by
  induction l generalizing i with
  | nil => simp at hx
  | cons y l ih =>
    cases i with
    | zero =>
      simp only [getElem?_cons_zero, some.injEq] at hx
      subst hx
      simp [htest]
    | succ i =>
      obtain ⟨heq, hlt⟩ := ih hx
      simp only [take_succ_cons, takeWhile_cons]
      split_ifs
      · exact ⟨by rw [heq], by simpa using hlt⟩
      · exact ⟨rfl, by simp⟩

theorem below_of_mem_take (hsorted : SortedByKey l) {i : Nat} (hx : l[i]? = some x)
    (hlt : binner.binFromPubkey x.pubkey < bin) :
    ∀ y ∈ l.take (i + 1), binner.binFromPubkey y.pubkey < bin := by
  intro y hy
  obtain ⟨j, hj, hget⟩ := List.mem_iff_getElem.mp hy
  obtain ⟨hi, hxi⟩ := List.getElem?_eq_some_iff.mp hx
  rw [List.length_take] at hj
  rw [List.getElem_take] at hget
  have hle : y.pubkey ≤ x.pubkey := by
    by_cases hji : j = i
    · subst hji
      rw [← hget, ← hxi]
    · have := pairwise_iff_getElem.mp hsorted j i (by omega) hi (by omega)
      rwa [hget, hxi] at this
  exact lt_of_le_of_lt (binner.binFromPubkey_mono hle) hlt

theorem binarySearch_eq (l : List CalculateHashIntermediate) :
    binarySearchForFirstPubkeyInBin binner bin l =
      ((l[(l.takeWhile (fun d => decide (binner.binFromPubkey d.pubkey < bin))).length]?).bind
        (fun d => if binner.binFromPubkey d.pubkey = bin then
          some (l.takeWhile (fun d => decide (binner.binFromPubkey d.pubkey < bin))).length
          else none)) := by
  unfold binarySearchForFirstPubkeyInBin
  by_cases hb : bin = 0
  · have hnil : l.takeWhile (fun d => decide (binner.binFromPubkey d.pubkey < bin)) = [] := by
      cases l <;> simp [hb]
    simp only [hb, if_true] at hnil ⊢
    rw [hnil]
    rfl
  · have htest : (fun d : CalculateHashIntermediate =>
        decide (1 + 2 * binner.binFromPubkey d.pubkey < bin * 2)) =
        fun d => decide (binner.binFromPubkey d.pubkey < bin) := by
      funext d
      rw [decide_eq_decide]
      omega
    simp only [hb, if_false, htest]

theorem findFirstPubkeyInBin_eq {bins : Nat} (hbin : bin < bins) (hsorted : SortedByKey l) :
    findFirstPubkeyInBin binner bin bins l = binarySearchForFirstPubkeyInBin binner bin l := by
  set below : CalculateHashIntermediate → Bool :=
    fun d => decide (binner.binFromPubkey d.pubkey < bin) with hbelow
  unfold findFirstPubkeyInBin
  dsimp only
  set i := l.length * bin / bins with hi
  cases hx : l[i]? with
  | none =>
    have hnil : l = [] := by
      by_contra hne
      have hlen : 0 < l.length := length_pos_iff.mpr hne
      have hlt : i < l.length := by
        rw [hi, div_lt_iff_lt_mul (by omega)]
        exact mul_lt_mul_of_pos_left hbin hlen
      rw [getElem?_eq_none_iff] at hx
      omega
    subst hnil
    rfl
  | some x =>
    by_cases hle : bin ≤ binner.binFromPubkey x.pubkey
    · simp only [hle, if_true]
      obtain ⟨htw, hlt⟩ := takeWhile_take below hx (by simp [hbelow, hle])
      rw [binarySearch_eq, binarySearch_eq, ← hbelow, htw, getElem?_take_of_lt hlt]
    · simp only [hle, if_false]
      have hall := below_of_mem_take hsorted hx (not_le.mp hle)
      have hi' : i < l.length := (List.getElem?_eq_some_iff.mp hx).1
      have hlen : (l.take (i + 1)).length = i + 1 := by
        rw [List.length_take]
        omega
      have htw : l.takeWhile below = l.take (i + 1) ++ (l.drop (i + 1)).takeWhile below := by
        conv_lhs => rw [← take_append_drop (i + 1) l]
        rw [takeWhile_append_of_pos]
        intro y hy
        simpa [hbelow] using hall y hy
      rw [binarySearch_eq, binarySearch_eq, ← hbelow, htw, length_append, hlen, ← getElem?_drop]
      cases (l.drop (i + 1))[((l.drop (i + 1)).takeWhile below).length]? with
      | none => rfl
      | some d =>
        simp only [Option.bind_some]
        split_ifs <;> rfl

end Search

open SlotGroupPointer

section Pointer
variable (binner : PubkeyBinCalculator24) (bin : Nat)
variable (p : SlotGroupPointer)

/-- The items of the bin from a pointer on. -/
def SlotGroupPointer.items : List CalculateHashIntermediate :=
  (p.first :: p.rest).takeWhile (fun d => decide (binner.binFromPubkey d.pubkey ≤ bin))

/-- A pointer as a list with a rank: later slot groups have the higher rank. -/
def SlotGroupPointer.toSource : Source CalculateHashIntermediate :=
  { rank := p.slotGroupIndex, items := p.items binner bin }

def SlotGroupPointer.size : Nat := p.rest.length + 1

/-- A pointer into the bin of a sorted slot group. -/
structure Good (p : SlotGroupPointer) : Prop where
  sorted : SortedByKey (p.first :: p.rest)
  inBin : binner.binFromPubkey p.first.pubkey = bin

/-- The pointer that `get_item` moves to. -/
def Moved : Option SlotGroupPointer → Prop
  | none => dropKey pubkey p.key (p.items binner bin) = []
  | some n =>
    n.slotGroupIndex = p.slotGroupIndex ∧ Good binner bin n ∧ p.key < n.key ∧
      n.size < p.size ∧
      n.items binner bin =
        dropKey pubkey p.key (p.items binner bin)

variable {binner bin}

theorem skipKey_spec (k : Pubkey) (first : CalculateHashIntermediate)
    (rest : List CalculateHashIntermediate) (hk : first.pubkey = k) :
    ∃ dups, first :: rest = dups ++ (skipKey k first rest).2 ∧
      dups.getLast? = some (skipKey k first rest).1 ∧
      (∀ d ∈ dups, d.pubkey = k) ∧
      ∀ y ∈ (skipKey k first rest).2.head?, y.pubkey ≠ k := by
  induction rest generalizing first with
  | nil => exact ⟨[first], rfl, rfl, by simpa using hk, by simp [skipKey]⟩
  | cons y ys ih =>
    by_cases hy : y.pubkey = k
    · obtain ⟨dups, hsplit, hlast, hdups, hhead⟩ := ih y hy
      simp only [skipKey, hy, if_true]
      refine ⟨first :: dups, by rw [hsplit]; rfl, ?_, ?_, hhead⟩
      · rw [getLast?_cons, hlast]
        rfl
      · intro d hd
        rcases mem_cons.mp hd with rfl | hd
        · exact hk
        · exact hdups d hd
    · refine ⟨[first], ?_, ?_, by simpa using hk, ?_⟩
      · simp [skipKey, hy]
      · simp [skipKey, hy]
      · simp [skipKey, hy]

theorem lt_of_mem_remaining {k : Pubkey} {dups remaining : List CalculateHashIntermediate}
    (hsorted : SortedByKey (dups ++ remaining)) (hne : dups ≠ [])
    (hdups : ∀ d ∈ dups, d.pubkey = k) (hhead : ∀ y ∈ remaining.head?, y.pubkey ≠ k)
    {y : CalculateHashIntermediate} (hy : y ∈ remaining) : k < y.pubkey := by
  obtain ⟨d, hd⟩ := exists_mem_of_ne_nil _ hne
  obtain ⟨_, hrem, hcross⟩ := pairwise_append.mp hsorted
  cases remaining with
  | nil => simp at hy
  | cons z zs =>
    have hkz : k < z.pubkey := by
      have hle := hcross d hd z (by simp)
      rw [hdups d hd] at hle
      exact lt_of_le_of_ne hle (fun heq => hhead z rfl heq.symm)
    rcases mem_cons.mp hy with rfl | hy
    · exact hkz
    · exact lt_of_lt_of_le hkz ((pairwise_cons.mp hrem).1 y hy)

/-- `get_item` gives the newest item of the key in its slot group, and moves behind the
key. -/
theorem getItem_spec {p : SlotGroupPointer} (h : Good binner bin p) :
    newest pubkey p.key (p.items binner bin) = some (getItem binner bin p).1 ∧
      Moved binner bin p (getItem binner bin p).2 := by
  obtain ⟨dups, hsplit, hlast, hdups, hhead⟩ := skipKey_spec p.key p.first p.rest rfl
  have hne : dups ≠ [] := by
    rintro rfl
    simp at hlast
  have hsorted := h.sorted
  rw [hsplit] at hsorted
  have hgt {y : CalculateHashIntermediate} (hy : y ∈ (skipKey p.key p.first p.rest).2) :=
    lt_of_mem_remaining hsorted hne hdups hhead hy
  have hitems : p.items binner bin = dups ++ ((skipKey p.key p.first p.rest).2).takeWhile
        (fun d => decide (binner.binFromPubkey d.pubkey ≤ bin)) := by
    unfold SlotGroupPointer.items
    rw [hsplit, takeWhile_append_of_pos]
    intro d hd
    have hbin : binner.binFromPubkey d.pubkey = bin := by
      rw [hdups d hd]
      exact h.inBin
    simp [hbin]
  have hrest : ∀ y ∈ ((skipKey p.key p.first p.rest).2).takeWhile
      (fun d => decide (binner.binFromPubkey d.pubkey ≤ bin)), y.pubkey ≠ p.key := by
    intro y hy
    exact (ne_of_gt (hgt (takeWhile_subset _ hy)))
  have hdrop : dropKey pubkey p.key (p.items binner bin) =
      ((skipKey p.key p.first p.rest).2).takeWhile
        (fun d => decide (binner.binFromPubkey d.pubkey ≤ bin)) := by
    rw [hitems, dropKey, filter_append,
      filter_eq_nil_iff.mpr (by intro d hd; simp [hdups d hd]), nil_append,
      filter_eq_self.mpr (by intro y hy; simpa using hrest y hy)]
  have hnew : newest pubkey p.key (p.items binner bin) = some (skipKey p.key p.first p.rest).1 := by
    rw [newest, versions, hitems, filter_append,
      filter_eq_self.mpr (by intro d hd; simp [hdups d hd]),
      filter_eq_nil_iff.mpr (by intro y hy; simpa using hrest y hy),
      append_nil, hlast]
  rw [hnew]
  unfold getItem
  generalize hskip : skipKey p.key p.first p.rest = r at *
  obtain ⟨item, remaining⟩ := r
  cases remaining with
  | nil => exact ⟨rfl, by simpa [Moved] using hdrop⟩
  | cons y ys =>
    have hky : p.key < y.pubkey := hgt (by simp)
    by_cases hbin : bin < binner.binFromPubkey y.pubkey
    · simp only [hbin, if_true, true_and]
      simp only [Moved, hdrop]
      simp [hbin]
    · simp only [hbin, if_false, true_and]
      refine ⟨rfl, ⟨(pairwise_append.mp hsorted).2.1, ?_⟩, hky, ?_, ?_⟩
      · have hge := binner.binFromPubkey_mono (le_of_lt hky)
        have hp : binner.binFromPubkey p.key = bin := h.inBin
        dsimp only
        omega
      · have hlen := congrArg length hsplit
        have hpos := length_pos_iff.mpr hne
        simp only [length_cons, length_append] at hlen
        simp only [SlotGroupPointer.size]
        omega
      · rw [hdrop]
        rfl

end Pointer

section WorkingSet
variable {binner : PubkeyBinCalculator24} {bin : Nat}
variable {p : SlotGroupPointer}

def pool (binner : PubkeyBinCalculator24) (bin : Nat) (ws : List SlotGroupPointer) :
    List (Source CalculateHashIntermediate) :=
  ws.map (SlotGroupPointer.toSource binner bin)

def totalSize (ws : List SlotGroupPointer) : Nat := (ws.map SlotGroupPointer.size).sum

/-- An ordered working set: good pointers of different groups, with increasing keys. -/
structure Ordered (binner : PubkeyBinCalculator24) (bin : Nat)
    (ws : List SlotGroupPointer) : Prop where
  good : ∀ p ∈ ws, Good binner bin p
  sorted : ws.Pairwise (fun p q => p.key < q.key)
  groups : (ws.map SlotGroupPointer.slotGroupIndex).Nodup

/-- The next pointer may come into the working set. -/
structure Addable (binner : PubkeyBinCalculator24) (bin : Nat)
    (next : Option SlotGroupPointer) (ws : List SlotGroupPointer) : Prop where
  ordered : Ordered binner bin ws
  good : ∀ x ∈ next, Good binner bin x
  fresh : ∀ x ∈ next, ∀ p ∈ ws, p.slotGroupIndex ≠ x.slotGroupIndex

/-- What moving pointers on keeps: the winners, bounds below the keys, and the slot groups; and
no item is added. -/
structure Advanced (binner : PubkeyBinCalculator24) (bin : Nat)
    (ps qs : List SlotGroupPointer) : Prop where
  winner : ∀ k y, Winner pubkey (pool binner bin qs) k y ↔ Winner pubkey (pool binner bin ps) k y
  lower : ∀ c, (∀ p ∈ ps, c < p.key) → ∀ q ∈ qs, c < q.key
  groups : ∀ q ∈ qs, ∃ p ∈ ps, p.slotGroupIndex = q.slotGroupIndex
  size : totalSize qs ≤ totalSize ps

theorem Advanced.of_perm {ps qs : List SlotGroupPointer} (h : qs.Perm ps) :
    Advanced binner bin ps qs where
  winner := fun _ _ =>
    winner_congr fun _ => (h.map (SlotGroupPointer.toSource binner bin)).mem_iff
  lower := fun _ hc q hq => hc q (h.mem_iff.mp hq)
  groups := fun q hq => ⟨q, h.mem_iff.mp hq, rfl⟩
  size := (h.map SlotGroupPointer.size).sum_eq.le

theorem Advanced.trans {ps qs rs : List SlotGroupPointer} (h : Advanced binner bin ps qs)
    (h' : Advanced binner bin qs rs) : Advanced binner bin ps rs where
  winner := fun k y => (h'.winner k y).trans (h.winner k y)
  lower := fun c hc => h'.lower c (h.lower c hc)
  groups := by
    intro r hr
    obtain ⟨q, hq, hqr⟩ := h'.groups r hr
    obtain ⟨p, hp, hpq⟩ := h.groups q hq
    exact ⟨p, hp, hpq.trans hqr⟩
  size := h'.size.trans h.size

theorem place_cases (x : SlotGroupPointer) (ws : List SlotGroupPointer)
    (hsorted : ws.Pairwise (fun p q => p.key < q.key)) :
    (∃ ws₁ ws₂, ws = ws₁ ++ ws₂ ∧ place binner bin x ws = (ws₁ ++ x :: ws₂, none) ∧
      (∀ p ∈ ws₁, p.key < x.key) ∧ ∀ p ∈ ws₂, x.key < p.key) ∨
    ∃ ws₁ p ws₂, ws = ws₁ ++ p :: ws₂ ∧ p.key = x.key ∧ ((x.slotGroupIndex < p.slotGroupIndex ∧
          place binner bin x ws = (ws, (getItem binner bin x).2)) ∨
        (¬ x.slotGroupIndex < p.slotGroupIndex ∧
          place binner bin x ws = (ws₁ ++ x :: ws₂, (getItem binner bin p).2))) := by
  induction ws with
  | nil => exact .inl ⟨[], [], rfl, rfl, by simp, by simp⟩
  | cons p ws ih =>
    obtain ⟨hp, hws⟩ := pairwise_cons.mp hsorted
    by_cases hlt : x.key < p.key
    · left
      refine ⟨[], p :: ws, rfl, by simp [place, hlt], by simp, ?_⟩
      intro q hq
      rcases mem_cons.mp hq with rfl | hq
      · exact hlt
      · exact lt_trans hlt (hp q hq)
    · by_cases heq : x.key = p.key
      · right
        refine ⟨[], p, ws, rfl, heq.symm, ?_⟩
        by_cases hg : x.slotGroupIndex < p.slotGroupIndex
        · exact .inl ⟨hg, by simp [place, heq, hg]⟩
        · exact .inr ⟨hg, by simp [place, heq, hg]⟩
      · have hgt : p.key < x.key := lt_of_le_of_ne (not_lt.mp hlt) (Ne.symm heq)
        have hplace : place binner bin x (p :: ws) =
            (p :: (place binner bin x ws).1, (place binner bin x ws).2) := by
          simp [place, hlt, heq]
        rcases ih hws with ⟨ws₁, ws₂, rfl, hr, h₁, h₂⟩ | ⟨ws₁, q, ws₂, rfl, hq, hr⟩
        · left
          refine ⟨p :: ws₁, ws₂, rfl, by rw [hplace, hr]; rfl, ?_, h₂⟩
          intro r hr'
          rcases mem_cons.mp hr' with rfl | hr'
          · exact hgt
          · exact h₁ r hr'
        · right
          refine ⟨p :: ws₁, q, ws₂, rfl, hq, ?_⟩
          rcases hr with ⟨hg, hr⟩ | ⟨hg, hr⟩
          · exact .inl ⟨hg, by rw [hplace, hr]⟩
          · exact .inr ⟨hg, by rw [hplace, hr]; rfl⟩

theorem Moved.of_mem {next : Option SlotGroupPointer} (h : Moved binner bin p next)
    {n : SlotGroupPointer} (hn : n ∈ next) : Moved binner bin p (some n) := by
  obtain rfl := mem_def.mp hn
  exact h

theorem totalSize_cons (p : SlotGroupPointer) (ws : List SlotGroupPointer) :
    totalSize (p :: ws) = p.size + totalSize ws := by
  simp [totalSize]

section Moves
variable {q : SlotGroupPointer} {next : Option SlotGroupPointer} {ws : List SlotGroupPointer}
variable (hmoved : Moved binner bin p next)
include hmoved

theorem Moved.totalSize_lt : totalSize (next.toList ++ ws) < totalSize (p :: ws) := by
  cases next with
  | none =>
    simp only [toList_none, nil_append, totalSize_cons, SlotGroupPointer.size]
    omega
  | some n =>
    obtain ⟨_, _, _, hsize, _⟩ := hmoved
    simp only [toList_some, singleton_append, totalSize_cons]
    omega

theorem Moved.addable (hord : Ordered binner bin ws)
    (hfresh : ∀ q ∈ ws, q.slotGroupIndex ≠ p.slotGroupIndex) : Addable binner bin next ws where
  ordered := hord
  good := fun _ hn => (hmoved.of_mem hn).2.1
  fresh := by
    intro n hn q hq
    rw [(hmoved.of_mem hn).1]
    exact hfresh q hq

theorem winner_moved (rest : List (Source CalculateHashIntermediate)) (k : Pubkey)
    (y : CalculateHashIntermediate) :
    Winner pubkey
        ({ toSource binner bin p with
            items := dropKey pubkey p.key (p.items binner bin) } :: rest) k y ↔
      Winner pubkey (pool binner bin next.toList ++ rest) k y := by
  cases next with
  | none => exact winner_cons_nil hmoved
  | some n =>
    obtain ⟨hgroup, _, _, _, hitems⟩ := hmoved
    have hsrc : { toSource binner bin p with
        items := dropKey pubkey p.key (p.items binner bin) } =
        toSource binner bin n := by
      simp [toSource, hgroup, hitems]
    rw [hsrc]
    rfl

omit hmoved in
theorem key_mem_items (h : Good binner bin p) :
    ∃ y ∈ (toSource binner bin p).items, y.pubkey = p.key := by
  refine ⟨p.first, ?_, rfl⟩
  have hbin : binner.binFromPubkey p.first.pubkey = bin := h.inBin
  simp [toSource, items, hbin]

theorem Moved.advanced (hq : q ∈ ws) (hgood : Good binner bin q) (hkey : q.key = p.key)
    (hlt : p.slotGroupIndex < q.slotGroupIndex) :
    Advanced binner bin (p :: ws) (next.toList ++ ws) where
  winner := by
    intro k y
    have hhigher := key_mem_items hgood
    rw [hkey] at hhigher
    rw [pool, map_append, ← pool, ← pool, ← winner_moved hmoved]
    exact winner_dropKey_of_lt (mem_map.mpr ⟨q, hq, rfl⟩) hlt hhigher
  lower := by
    intro c hc r hr
    rcases mem_append.mp hr with hr | hr
    · obtain ⟨_, _, hkr, _⟩ := hmoved.of_mem (mem_toList.mp hr)
      exact lt_trans (hc p mem_cons_self) hkr
    · exact hc r (mem_cons_of_mem _ hr)
  groups := by
    intro r hr
    rcases mem_append.mp hr with hr | hr
    · exact ⟨p, mem_cons_self, (hmoved.of_mem (mem_toList.mp hr)).1.symm⟩
    · exact ⟨r, mem_cons_of_mem _ hr, rfl⟩
  size := hmoved.totalSize_lt.le

end Moves

/-- What a round leaves: the working set, and the pointer to add. -/
structure Placed (binner : PubkeyBinCalculator24) (bin : Nat) (x : SlotGroupPointer)
    (ws : List SlotGroupPointer)
    (r : List SlotGroupPointer × Option SlotGroupPointer) : Prop where
  addable : Addable binner bin r.2 r.1
  advanced : Advanced binner bin (x :: ws) (r.2.toList ++ r.1)
  shrinks : r.2.isSome = true → totalSize (r.2.toList ++ r.1) < totalSize (x :: ws)

section Place
variable {x q : SlotGroupPointer} {ws ws' ws₁ ws₂ : List SlotGroupPointer}

theorem Ordered.sublist (h : Ordered binner bin ws) (hsub : ws'.Sublist ws) :
    Ordered binner bin ws' :=
  ⟨fun p hp => h.good p (hsub.subset hp), h.sorted.sublist hsub, h.groups.sublist (hsub.map _)⟩

theorem Ordered.insert (h : Ordered binner bin (ws₁ ++ ws₂)) (hx : Good binner bin x)
    (h₁ : ∀ p ∈ ws₁, p.key < x.key) (h₂ : ∀ p ∈ ws₂, x.key < p.key)
    (hfresh : ∀ p ∈ ws₁ ++ ws₂, p.slotGroupIndex ≠ x.slotGroupIndex) :
    Ordered binner bin (ws₁ ++ x :: ws₂) where
  good := by
    intro p hp
    rcases mem_cons.mp (perm_middle.mem_iff.mp hp) with rfl | hp
    · exact hx
    · exact h.good p hp
  sorted := by
    obtain ⟨hs₁, hs₂, hcross⟩ := pairwise_append.mp h.sorted
    refine pairwise_append.mpr ⟨hs₁, pairwise_cons.mpr ⟨h₂, hs₂⟩, ?_⟩
    intro p hp q hq
    rcases mem_cons.mp hq with rfl | hq
    · exact h₁ p hp
    · exact hcross p hp q hq
  groups := by
    rw [(perm_middle.map slotGroupIndex).nodup_iff, map_cons, nodup_cons]
    refine ⟨?_, h.groups⟩
    intro hmem
    obtain ⟨p, hp, hgroup⟩ := mem_map.mp hmem
    exact hfresh p hp hgroup

theorem ordered_replace (h : Addable binner bin (some x) (ws₁ ++ p :: ws₂)) (hkey : p.key = x.key) :
    Ordered binner bin (ws₁ ++ x :: ws₂) ∧
      ∀ r ∈ ws₁ ++ x :: ws₂, r.slotGroupIndex ≠ p.slotGroupIndex := by
  have hsub : (ws₁ ++ ws₂).Sublist (ws₁ ++ p :: ws₂) :=
    (List.Sublist.refl ws₁).append (sublist_cons_self p ws₂)
  obtain ⟨_, hs₂, hcross⟩ := pairwise_append.mp h.ordered.sorted
  have hnodup := h.ordered.groups
  rw [(perm_middle.map slotGroupIndex).nodup_iff, map_cons, nodup_cons] at hnodup
  refine ⟨(h.ordered.sublist hsub).insert (h.good x rfl) ?_ ?_ ?_, ?_⟩
  · intro q hq
    rw [← hkey]
    exact hcross q hq p mem_cons_self
  · intro q hq
    rw [← hkey]
    exact (pairwise_cons.mp hs₂).1 q hq
  · exact fun q hq => h.fresh x rfl q (hsub.subset hq)
  · intro q hq hgroup
    rcases mem_cons.mp (perm_middle.mem_iff.mp hq) with rfl | hq
    · exact h.fresh q rfl p (by simp) hgroup.symm
    · exact hnodup.1 (mem_map.mpr ⟨q, hq, hgroup⟩)

theorem placed_of_dominated (hordered : Ordered binner bin ws') (hp : Good binner bin p)
    (hperm : (p :: ws').Perm (x :: ws))
    (hfresh : ∀ r ∈ ws', r.slotGroupIndex ≠ p.slotGroupIndex)
    (hq : q ∈ ws') (hkey : q.key = p.key) (hlt : p.slotGroupIndex < q.slotGroupIndex) :
    Placed binner bin x ws (ws', (getItem binner bin p).2) := by
  obtain ⟨_, hmoved⟩ := getItem_spec hp
  have hfirst : Advanced binner bin (x :: ws) (p :: ws') := .of_perm hperm
  refine ⟨hmoved.addable hordered hfresh,
    hfirst.trans (hmoved.advanced hq (hordered.good q hq) hkey hlt), fun _ => ?_⟩
  exact lt_of_lt_of_le hmoved.totalSize_lt hfirst.size

theorem place_spec (h : Addable binner bin (some x) ws) :
    Placed binner bin x ws (place binner bin x ws) := by
  rcases @place_cases binner bin x ws h.ordered.sorted with
    ⟨ws₁, ws₂, rfl, hr, h₁, h₂⟩ | ⟨ws₁, p, ws₂, rfl, hkey, ⟨hlt, hr⟩ | ⟨hge, hr⟩⟩
  · rw [hr]
    have hordered := h.ordered.insert (h.good x rfl) h₁ h₂ (h.fresh x rfl)
    exact ⟨⟨hordered, by simp, by simp⟩, .of_perm perm_middle, by simp⟩
  · rw [hr]
    exact placed_of_dominated h.ordered (h.good x rfl) (.refl _) (h.fresh x rfl)
      (by simp) hkey hlt
  · rw [hr]
    obtain ⟨hordered, hfresh⟩ := ordered_replace h hkey
    have hne := h.fresh x rfl p (by simp)
    have hswap : (p :: (ws₁ ++ x :: ws₂)).Perm (x :: (ws₁ ++ p :: ws₂)) :=
      (perm_middle.cons p).trans
        ((List.Perm.swap x p _).trans (perm_middle.symm.cons x))
    exact placed_of_dominated hordered (h.ordered.good p (by simp)) hswap hfresh
      (by simp) hkey.symm (by omega)

end Place

theorem addNextItem_spec (fuel : Nat) :
    ∀ (next : Option SlotGroupPointer) (ws : List SlotGroupPointer), Addable binner bin next ws →
      (next.isSome = true → totalSize (next.toList ++ ws) ≤ fuel) →
      Ordered binner bin (addNextItem binner bin fuel next ws) ∧
        Advanced binner bin (next.toList ++ ws) (addNextItem binner bin fuel next ws) := by
  induction fuel with
  | zero =>
    intro next ws h hfuel
    cases next with
    | none => exact ⟨h.ordered, .of_perm (.refl _)⟩
    | some x =>
      have hpos := hfuel rfl
      simp only [toList_some, singleton_append, totalSize_cons, SlotGroupPointer.size] at hpos
      omega
  | succ fuel ih =>
    intro next ws h hfuel
    cases next with
    | none => exact ⟨h.ordered, .of_perm (.refl _)⟩
    | some x =>
      have hplaced := place_spec h
      have hsize : totalSize (x :: ws) ≤ fuel + 1 := hfuel rfl
      obtain ⟨hord, hadvanced⟩ := ih _ _ hplaced.addable (fun hsome => by
        have hlt := hplaced.shrinks hsome
        omega)
      exact ⟨hord, hplaced.advanced.trans hadvanced⟩

def mergeItems (binner : PubkeyBinCalculator24) (bin : Nat) :
    Nat → List SlotGroupPointer → List CalculateHashIntermediate
  | fuel + 1, p :: ws =>
    let r := getItem binner bin p
    r.1 :: mergeItems binner bin fuel (addNextItem binner bin fuel r.2 ws)
  | _, _ => []

theorem deDupLoop_eq (h : AccountsHasher) (fuel : Nat) (ws : List SlotGroupPointer)
    (acc : List Hash × UInt64) :
    deDupLoop binner bin h fuel ws acc =
      (mergeItems binner bin fuel ws).foldlM (addItem h) acc := by
  induction fuel generalizing ws acc with
  | zero => simp [deDupLoop, mergeItems]
  | succ fuel ih =>
    cases ws with
    | nil => simp [deDupLoop, mergeItems]
    | cons p ws =>
      change Option.bind _ _ = Option.bind _ _
      congr 1
      funext acc'
      exact ih _ _

theorem key_le_of_mem_items (h : Good binner bin p)
    {y : CalculateHashIntermediate} (hy : y ∈ p.items binner bin) :
    p.key ≤ y.pubkey := by
  rcases mem_cons.mp (takeWhile_subset _ hy) with rfl | hy
  · exact le_refl _
  · exact (pairwise_cons.mp h.sorted).1 y hy

theorem lt_key_of_winner {ws : List SlotGroupPointer} (hord : Ordered binner bin ws)
    {c k : Pubkey} {y : CalculateHashIntermediate} (hc : ∀ p ∈ ws, c < p.key)
    (hwin : Winner pubkey (pool binner bin ws) k y) : c < k := by
  obtain ⟨src, hsrc, hnew, _⟩ := hwin
  obtain ⟨p, hp, rfl⟩ := mem_map.mp hsrc
  obtain ⟨hy, hyk⟩ := mem_of_newest hnew
  rw [← hyk]
  exact lt_of_lt_of_le (hc p hp) (key_le_of_mem_items (hord.good p hp) hy)

theorem addable_pop {ws : List SlotGroupPointer} (hord : Ordered binner bin (p :: ws)) :
    Addable binner bin (getItem binner bin p).2 ws ∧
      (∀ q ∈ (getItem binner bin p).2.toList ++ ws, p.key < q.key) ∧
      totalSize ((getItem binner bin p).2.toList ++ ws) < totalSize (p :: ws) := by
  obtain ⟨_, hmoved⟩ := getItem_spec (hord.good p mem_cons_self)
  have hgroups := hord.groups
  rw [map_cons, nodup_cons] at hgroups
  refine ⟨hmoved.addable (hord.sublist (sublist_cons_self p ws)) ?_, ?_, hmoved.totalSize_lt⟩
  · exact fun q hq heq => hgroups.1 (mem_map.mpr ⟨q, hq, heq⟩)
  · intro q hq
    rcases mem_append.mp hq with hq | hq
    · exact (hmoved.of_mem (mem_toList.mp hq)).2.2.1
    · exact (pairwise_cons.mp hord.sorted).1 q hq

theorem mergeItems_spec (fuel : Nat) :
    ∀ ws : List SlotGroupPointer, Ordered binner bin ws → totalSize ws ≤ fuel →
      (mergeItems binner bin fuel ws).Pairwise (fun x y => x.pubkey < y.pubkey) ∧
        ∀ y, y ∈ mergeItems binner bin fuel ws ↔ Winner pubkey (pool binner bin ws) y.pubkey y := by
  induction fuel with
  | zero =>
    intro ws hord hfuel
    cases ws with
    | nil => simp [mergeItems, pool, Winner]
    | cons p ws =>
      rw [totalSize_cons, SlotGroupPointer.size] at hfuel
      omega
  | succ fuel ih =>
    intro ws hord hfuel
    cases ws with
    | nil => simp [mergeItems, pool, Winner]
    | cons p ws =>
      obtain ⟨hnew, hmoved⟩ := getItem_spec (hord.good p (by simp))
      obtain ⟨hadd, hgt, hsize⟩ := addable_pop hord
      have hitem : (getItem binner bin p).1.pubkey = p.key := (mem_of_newest hnew).2
      obtain ⟨hord', hadvanced⟩ := addNextItem_spec fuel _ _ hadd (fun _ => by omega)
      have hsize' := hadvanced.size
      obtain ⟨hpair, hmem⟩ := ih _ hord' (by omega)
      have hrest {y : CalculateHashIntermediate} (hk : y.pubkey ≠ p.key) :
          y ∈ mergeItems binner bin fuel
              (addNextItem binner bin fuel (getItem binner bin p).2 ws) ↔
            Winner pubkey (pool binner bin (p :: ws))
              y.pubkey y := by
        rw [hmem, hadvanced.winner, pool, map_append, ← pool, ← pool, ← winner_moved hmoved]
        exact winner_dropKey_of_ne hk
      have hlater {y : CalculateHashIntermediate} (hy : y ∈ mergeItems binner bin fuel
            (addNextItem binner bin fuel (getItem binner bin p).2 ws)) :
          p.key < y.pubkey :=
        lt_key_of_winner hord' (hadvanced.lower p.key hgt) ((hmem y).mp hy)
      -- the least key is in no other group of the working set
      have honly : ∀ src ∈ pool binner bin ws, ∀ y ∈ src.items, y.pubkey ≠ p.key := by
        intro src hsrc y hy
        obtain ⟨q, hq, rfl⟩ := mem_map.mp hsrc
        have hpq := (pairwise_cons.mp hord.sorted).1 q hq
        have hle := key_le_of_mem_items (hord.good q (mem_cons_of_mem _ hq)) hy
        exact ne_of_gt (lt_of_lt_of_le hpq hle)
      simp only [mergeItems]
      refine ⟨pairwise_cons.mpr ⟨?_, hpair⟩, ?_⟩
      · intro y hy
        rw [hitem]
        exact hlater hy
      · intro y
        rw [mem_cons]
        by_cases hk : y.pubkey = p.key
        · have hleast : Winner pubkey
              (pool binner bin (p :: ws)) y.pubkey y ↔
              newest pubkey p.key (p.items binner bin) = some y := by
            rw [hk]
            exact winner_of_only honly
          rw [hleast, hnew, some.injEq]
          constructor
          · rintro (rfl | hy)
            · rfl
            · exact absurd hk (ne_of_gt (hlater hy))
          · exact fun heq => .inl heq.symm
        · rw [← hrest hk]
          refine ⟨?_, .inr⟩
          rintro (rfl | hy)
          · exact absurd hitem hk
          · exact hy

end WorkingSet

section Initialize
variable {binner : PubkeyBinCalculator24} {bin : Nat}

def inBin (binner : PubkeyBinCalculator24) (bin : Nat)
    (l : List CalculateHashIntermediate) : List CalculateHashIntermediate :=
  l.filter (fun d => binner.binFromPubkey d.pubkey = bin)

theorem takeWhile_eq_inBin {l : List CalculateHashIntermediate} (hsorted : SortedByKey l)
    (hle : ∀ y ∈ l, bin ≤ binner.binFromPubkey y.pubkey) :
    l.takeWhile (fun d => decide (binner.binFromPubkey d.pubkey ≤ bin)) = inBin binner bin l := by
  induction l with
  | nil => rfl
  | cons x l ih =>
    obtain ⟨hx, hl⟩ := pairwise_cons.mp hsorted
    have hxbin := hle x mem_cons_self
    rw [inBin, takeWhile_cons, filter_cons]
    by_cases hbin : binner.binFromPubkey x.pubkey = bin
    · simp only [hbin, le_refl, decide_true, if_true]
      rw [ih hl (fun y hy => hle y (mem_cons_of_mem _ hy)), inBin]
    · have hlt : bin < binner.binFromPubkey x.pubkey := lt_of_le_of_ne hxbin (Ne.symm hbin)
      have hnil : inBin binner bin l = [] := by
        refine filter_eq_nil_iff.mpr ?_
        intro y hy
        have := binner.binFromPubkey_mono (hx y hy)
        simp only [decide_eq_true_eq]
        omega
      simp only [hbin, decide_false, not_le.mpr hlt]
      exact hnil.symm

theorem firstPointer_spec {bins : Nat} (hbin : bin < bins) (i : Nat)
    {l : List CalculateHashIntermediate} (hsorted : SortedByKey l) :
    match firstPointer binner bin bins i l with
    | none => inBin binner bin l = []
    | some p => p.slotGroupIndex = i ∧ Good binner bin p ∧ p.size ≤ l.length ∧
        p.items binner bin = inBin binner bin l := by
  set below : CalculateHashIntermediate → Bool :=
    fun d => decide (binner.binFromPubkey d.pubkey < bin) with hbelow
  have happ : l.takeWhile below ++ l.dropWhile below = l := takeWhile_append_dropWhile
  have hdrop : l.drop (l.takeWhile below).length = l.dropWhile below := by
    have hleft : (l.takeWhile below ++ l.dropWhile below).drop (l.takeWhile below).length =
        l.dropWhile below := drop_left
    rwa [happ] at hleft
  have hsorted' : SortedByKey (l.dropWhile below) :=
    List.Pairwise.sublist (dropWhile_sublist _) hsorted
  -- what the scan passes over is below the bin
  have hfilter : inBin binner bin l = inBin binner bin (l.dropWhile below) := by
    conv_lhs => rw [← happ]
    rw [inBin, filter_append, filter_eq_nil_iff.mpr, nil_append, inBin]
    intro y hy
    have := mem_takeWhile_imp hy
    simp only [hbelow, decide_eq_true_eq] at this ⊢
    omega
  rw [firstPointer, findFirstPubkeyInBin_eq hbin hsorted, binarySearch_eq, ← hbelow,
    ← head?_drop, hdrop]
  cases hr : l.dropWhile below with
  | nil =>
    rw [hr] at hfilter
    exact hfilter
  | cons x r =>
    rw [hr] at hsorted' hfilter hdrop
    have hx : ¬ below x = true := by
      have hne : l.dropWhile below ≠ [] := by simp [hr]
      have := head_dropWhile_not below hne
      simpa [hr] using this
    have hxbin : bin ≤ binner.binFromPubkey x.pubkey := by
      simpa [hbelow] using hx
    have hle : ∀ y ∈ x :: r, bin ≤ binner.binFromPubkey y.pubkey := by
      intro y hy
      rcases mem_cons.mp hy with rfl | hy
      · exact hxbin
      · exact le_trans hxbin
          (binner.binFromPubkey_mono ((pairwise_cons.mp hsorted').1 y hy))
    have hitems := takeWhile_eq_inBin hsorted' hle
    simp only [head?_cons, bind_some]
    by_cases hb : binner.binFromPubkey x.pubkey = bin
    · simp only [hb, if_true, bind_some, hdrop]
      refine ⟨trivial, ⟨hsorted', hb⟩, ?_, by rw [hfilter, ← hitems]; rfl⟩
      have hlen := congrArg length hdrop
      simp only [length_drop, length_cons] at hlen
      change r.length + 1 ≤ l.length
      omega
    · simp only [hb, if_false, bind_none]
      rw [hfilter, ← hitems, takeWhile_cons]
      simp [lt_of_le_of_ne hxbin (Ne.symm hb)]

theorem workingSet_spec {bins fuel : Nat} (hbin : bin < bins)
    (groups : List (List CalculateHashIntermediate)) :
    ∀ n : Nat, (∀ g ∈ groups, SortedByKey g) → (groups.map length).sum ≤ fuel →
      let ws := (groups.zipIdx n).foldr
        (fun x ws => addNextItem binner bin fuel (firstPointer binner bin bins x.2 x.1) ws) []
      Ordered binner bin ws ∧ (∀ p ∈ ws, n ≤ p.slotGroupIndex) ∧
        totalSize ws ≤ (groups.map length).sum ∧
        ∀ k y, Winner pubkey (pool binner bin ws) k y ↔
          newest pubkey k (inBin binner bin groups.flatten) = some y := by
  induction groups with
  | nil =>
    intro n _ _
    exact ⟨⟨by simp, by simp, by simp⟩, by simp, by simp [totalSize],
      by simp [pool, Winner, newest, versions, inBin]⟩
  | cons g groups ih =>
    intro n hsorted hfuel
    simp only [map_cons, sum_cons] at hfuel
    obtain ⟨hord, hidx, hsize, hwin⟩ :=
      ih (n + 1) (fun g' hg' => hsorted g' (mem_cons_of_mem _ hg')) (by omega)
    have hfirst := @firstPointer_spec binner bin bins hbin n g
      (hsorted g mem_cons_self)
    simp only [zipIdx_cons, foldr_cons, map_cons, sum_cons, flatten_cons]
    generalize (groups.zipIdx (n + 1)).foldr (fun x ws =>
      addNextItem binner bin fuel (firstPointer binner bin bins x.2 x.1) ws) [] = ws at *
    have happ : inBin binner bin (g ++ groups.flatten) =
        inBin binner bin g ++ inBin binner bin groups.flatten := filter_append _ _
    rw [happ]
    cases hp : firstPointer binner bin bins n g with
    | none =>
      rw [hp] at hfirst
      have hstay : addNextItem binner bin fuel none ws = ws := by
        cases fuel <;> rfl
      rw [hstay, hfirst, nil_append]
      exact ⟨hord, fun p hp => by have := hidx p hp; omega, by omega, hwin⟩
    | some x =>
      rw [hp] at hfirst
      obtain ⟨hxi, hgood, hxsize, hitems⟩ := hfirst
      have hadd : Addable binner bin (some x) ws := by
        refine ⟨hord, ?_, ?_⟩
        · rintro _ ⟨⟩
          exact hgood
        · rintro _ ⟨⟩ q hq
          have := hidx q hq
          omega
      obtain ⟨hord', hadvanced⟩ :=
        addNextItem_spec fuel (some x) ws hadd (by
          intro _
          simp only [toList_some, singleton_append, totalSize_cons]
          omega)
      have hsize' := hadvanced.size
      simp only [toList_some, singleton_append, totalSize_cons] at hsize'
      refine ⟨hord', ?_, by omega, ?_⟩
      · intro p hp
        obtain ⟨q, hq, hqp⟩ := hadvanced.groups p hp
        rcases mem_cons.mp hq with rfl | hq
        · omega
        · have := hidx q hq
          omega
      · intro k y
        rw [hadvanced.winner, ← hitems]
        refine winner_cons_of_lt ?_ (hwin k)
        intro q hq
        obtain ⟨p, hp, rfl⟩ := mem_map.mp hq
        have := hidx p hp
        change x.slotGroupIndex < p.slotGroupIndex
        omega

def binItems (binner : PubkeyBinCalculator24) (bins : Nat)
    (sortedDataByPubkey : List (List CalculateHashIntermediate)) (bin : Nat) :
    List CalculateHashIntermediate :=
  let fuel := (sortedDataByPubkey.map List.length).sum
  mergeItems binner bin fuel
    (initializeDedupWorkingSet binner bin fuel bins sortedDataByPubkey)

theorem binItems_spec {bins : Nat} (hbin : bin < bins)
    {groups : List (List CalculateHashIntermediate)} (hsorted : ∀ g ∈ groups, SortedByKey g) :
    (binItems binner bins groups bin).Pairwise (fun x y => x.pubkey < y.pubkey) ∧
      ∀ y, y ∈ binItems binner bins groups bin ↔ binner.binFromPubkey y.pubkey = bin ∧
          newest pubkey y.pubkey groups.flatten = some y := by
  obtain ⟨hord, _, hsize, hwin⟩ := @workingSet_spec binner bin bins _ hbin groups 0 hsorted le_rfl
  rw [← foldl_reverse] at hord hsize hwin
  obtain ⟨hpair, hmem⟩ := mergeItems_spec _ _ hord hsize
  refine ⟨hpair, ?_⟩
  intro y
  rw [binItems, initializeDedupWorkingSet, hmem, hwin]
  unfold newest inBin
  rw [versions_filter (fun k => decide (binner.binFromPubkey k = bin))]
  by_cases hb : binner.binFromPubkey y.pubkey = bin <;> simp [hb]

end Initialize

variable {h : AccountsHasher}
variable {binner : PubkeyBinCalculator24} {bins : Nat}

def lamportsOf (items : List CalculateHashIntermediate) : Nat :=
  (items.map (fun d => d.lamports.toNat)).sum

/-- The hash that an item is counted with, if any. -/
def hashOf (h : AccountsHasher) (item : CalculateHashIntermediate) : List Hash :=
  if item.lamports ≠ 0 then [item.hash]
  else if h.zeroLamportAccounts = .included then [h.blake3 item.pubkey]
  else []

theorem checkedAdd_eq (a b : UInt64) :
    checkedAdd a b =
      if a.toNat + b.toNat ≤ u64Max then some (UInt64.ofNat (a.toNat + b.toNat)) else none := by
  simp [checkedAdd]

theorem toNat_ofNat_le {n : Nat} (hn : n ≤ u64Max) : (UInt64.ofNat n).toNat = n := by
  refine UInt64.toNat_ofNat_of_lt ?_
  rw [UInt64.size]
  unfold u64Max at hn
  omega

theorem addItem_eq (acc : List Hash × UInt64) (item : CalculateHashIntermediate) :
    addItem h acc item =
      if acc.2.toNat + item.lamports.toNat ≤ u64Max then
        some (acc.1 ++ hashOf h item, UInt64.ofNat (acc.2.toNat + item.lamports.toNat))
      else none := by
  by_cases hz : item.lamports = 0
  · have hle : acc.2.toNat ≤ u64Max := by
      have := acc.2.toNat_lt
      unfold u64Max
      omega
    by_cases hi : h.zeroLamportAccounts = .included <;> simp [addItem, hashOf, hz, hi, hle]
  · rw [addItem, if_pos hz, checkedAdd_eq, add_comm]
    split_ifs <;> simp [hashOf, hz]

/-- A loop that collects hashes and adds up lamports, with a check at every step, overflows exactly
if the sum does. -/
theorem foldlM_checked {α γ : Type} {step : List γ × UInt64 → α → Option (List γ × UInt64)}
    {out : α → List γ} {weight : α → Nat}
    (hstep : ∀ acc x, step acc x =
      if acc.2.toNat + weight x ≤ u64Max then
        some (acc.1 ++ out x, UInt64.ofNat (acc.2.toNat + weight x))
      else none) (xs : List α) (acc : List γ × UInt64) :
    xs.foldlM step acc =
      if acc.2.toNat + (xs.map weight).sum ≤ u64Max then
        some (acc.1 ++ xs.flatMap out, UInt64.ofNat (acc.2.toNat + (xs.map weight).sum))
      else none := by
  induction xs generalizing acc with
  | nil =>
    have := acc.2.toNat_lt
    simp only [foldlM_nil, map_nil, sum_nil, flatMap_nil, append_nil, add_zero, UInt64.ofNat_toNat]
    rw [if_pos (by unfold u64Max; omega)]
    rfl
  | cons x xs ih =>
    rw [foldlM_cons, hstep, map_cons, sum_cons]
    by_cases hx : acc.2.toNat + weight x ≤ u64Max
    · rw [if_pos hx]
      change xs.foldlM step _ = _
      rw [ih, toNat_ofNat_le hx, flatMap_cons, append_assoc, add_assoc]
    · rw [if_neg hx, if_neg (by omega)]
      rfl

/-- The items that all bins count, in the order of the bins. -/
def countedItems (binner : PubkeyBinCalculator24) (bins : Nat)
    (groups : List (List CalculateHashIntermediate)) : List CalculateHashIntermediate :=
  (List.range bins).flatMap (binItems binner bins groups)

section Bins
variable (hnew : PubkeyBinCalculator24.new bins = some binner)
include hnew

theorem deDupAccountsInParallel_eq (groups : List (List CalculateHashIntermediate)) (bin : Nat) :
    deDupAccountsInParallel h groups bin bins =
      if lamportsOf (binItems binner bins groups bin) ≤ u64Max then
        some ((binItems binner bins groups bin).flatMap (hashOf h),
          UInt64.ofNat (lamportsOf (binItems binner bins groups bin)))
      else none := by
  rw [deDupAccountsInParallel, hnew, bind_some]
  rw [deDupLoop_eq, foldlM_checked (addItem_eq (h := h))]
  simp only [UInt64.toNat_zero, zero_add, nil_append]
  rfl

theorem deDupAccounts_eq (groups : List (List CalculateHashIntermediate)) :
    deDupAccounts h groups bins =
      if lamportsOf (countedItems binner bins groups) ≤ u64Max then
        some ((range bins).map (fun bin =>
            (binItems binner bins groups bin).flatMap (hashOf h)),
          UInt64.ofNat (lamportsOf (countedItems binner bins groups)))
      else none := by
  have hstep (acc : List (List Hash) × UInt64) (bin : Nat) :
      (deDupAccountsInParallel h groups bin bins).bind
          (fun r => (checkedAdd acc.2 r.2).map (fun sum => (acc.1 ++ [r.1], sum))) =
        if acc.2.toNat + lamportsOf (binItems binner bins groups bin) ≤ u64Max then
          some (acc.1 ++ [(binItems binner bins groups bin).flatMap (hashOf h)],
            UInt64.ofNat (acc.2.toNat + lamportsOf (binItems binner bins groups bin)))
        else none := by
    rw [deDupAccountsInParallel_eq hnew]
    by_cases hb : lamportsOf (binItems binner bins groups bin) ≤ u64Max
    · rw [if_pos hb, bind_some, checkedAdd_eq, toNat_ofNat_le hb]
      split_ifs <;> rfl
    · rw [if_neg hb, if_neg (by omega)]
      rfl
  have hsum : lamportsOf (countedItems binner bins groups) =
      ((range bins).map (fun bin => lamportsOf (binItems binner bins groups bin))).sum := by
    simp [lamportsOf, countedItems, flatMap, map_flatten, sum_flatten, Function.comp_def]
  rw [deDupAccounts, foldlM_checked hstep, hsum]
  simp only [UInt64.toNat_zero, zero_add, nil_append, ← map_eq_flatMap]

theorem countedItems_spec {groups : List (List CalculateHashIntermediate)}
    (hsorted : ∀ g ∈ groups, SortedByKey g) :
    (countedItems binner bins groups).Pairwise (fun x y => x.pubkey < y.pubkey) ∧
      ∀ y, y ∈ countedItems binner bins groups ↔
        newest pubkey y.pubkey groups.flatten = some y := by
  have hspec {bin : Nat} (hbin : bin ∈ range bins) :=
    @binItems_spec binner bin bins (mem_range.mp hbin) groups hsorted
  constructor
  · rw [countedItems, pairwise_flatMap]
    refine ⟨fun bin hbin => (hspec hbin).1, .imp_of_mem ?_ pairwise_lt_range⟩
    intro bin bin' hbin hbin' hlt x hx y hy
    have hxbin := (((hspec hbin).2 x).mp hx).1
    have hybin := (((hspec hbin').2 y).mp hy).1
    by_contra hle
    have hmono := binner.binFromPubkey_mono (not_lt.mp hle)
    omega
  · intro y
    rw [countedItems, mem_flatMap]
    constructor
    · rintro ⟨bin, hbin, hy⟩
      exact (((hspec hbin).2 y).mp hy).2
    · intro hy
      have hbin := mem_range.mpr
        (PubkeyBinCalculator24.binFromPubkey_lt hnew y.pubkey)
      exact ⟨_, hbin, ((hspec hbin).2 y).mpr ⟨rfl, hy⟩⟩

end Bins

/-- The hashes of all bins are those of the newest versions, in the order of the keys, and the
lamports are their sum, unless it overflows. -/
def ReturnsNewest (h : AccountsHasher) (groups : List (List CalculateHashIntermediate))
    (bins : Nat) : Prop :=
  ∃ items : List CalculateHashIntermediate,
    items.Pairwise (fun x y => x.pubkey < y.pubkey) ∧
    (∀ y, y ∈ items ↔ newest pubkey y.pubkey groups.flatten = some y) ∧
    (h.deDupAccounts groups bins).map (fun r => (r.1.flatten, r.2.toNat)) =
      if lamportsOf items ≤ u64Max then some (items.flatMap (hashOf h), lamportsOf items)
      else none

theorem deDupAccounts_newest (h : AccountsHasher) {n : Nat} (hn : n ≤ 24)
    {groups : List (List CalculateHashIntermediate)} (hsorted : ∀ g ∈ groups, SortedByKey g) :
    ReturnsNewest h groups (2 ^ n) := by
  have hnew : PubkeyBinCalculator24.new (2 ^ n) = some ⟨24 - n⟩ := by
    have hle : 2 ^ n ≤ 2 ^ 24 := Nat.pow_le_pow_right (by norm_num) hn
    rw [PubkeyBinCalculator24.new, Nat.log2_two_pow, if_pos ⟨Nat.two_pow_pos n, hle, rfl⟩]
  obtain ⟨hkeys, hmem⟩ := countedItems_spec hnew hsorted
  refine ⟨_, hkeys, hmem, ?_⟩
  rw [deDupAccounts_eq hnew]
  split_ifs with hfits
  · rw [map_some, toNat_ofNat_le hfits, ← flatMap_def, countedItems, flatMap_assoc]
  · rfl

theorem deDupAccounts_refused {h : AccountsHasher}
    {groups : List (List CalculateHashIntermediate)} {bins : Nat} (hbins : 2 ^ 24 < bins) :
    h.deDupAccounts groups bins = none := by
  have hnew : PubkeyBinCalculator24.new bins = none := if_neg fun hle => by omega
  cases bins with
  | zero => cases hbins
  | succ n =>
    rw [deDupAccounts, range_succ_eq_map, foldlM_cons, deDupAccountsInParallel, hnew]
    rfl

/-- A slot group with a version of each of two keys. -/
def exampleGroup (a b : UInt64) : List CalculateHashIntermediate :=
  [⟨⟨5⟩, a, .ofNat 1⟩, ⟨⟨6⟩, b, .ofNat 2⟩]

def exampleHasher (zeroLamportAccounts : ZeroLamportAccounts) : AccountsHasher :=
  { zeroLamportAccounts, blake3 := fun _ => ⟨0⟩ }

theorem deDupAccounts_newest_pair :
    (∀ g ∈ [exampleGroup 3 4, exampleGroup 0 9], SortedByKey g) ∧
      ReturnsNewest (exampleHasher .excluded) [exampleGroup 3 4, exampleGroup 0 9] (2 ^ 1) := by
  have hsorted : ∀ g ∈ [exampleGroup 3 4, exampleGroup 0 9], SortedByKey g := by decide
  exact ⟨hsorted, deDupAccounts_newest _ (by decide) hsorted⟩

/-- The sum may overflow, a version without lamports is counted with the hash of its key, and more
than `2 ^ 24` bins are refused. -/
theorem deDupAccounts_overflow :
    (∀ g ∈ [exampleGroup (2 ^ 64 - 1) 1, exampleGroup 0 1], SortedByKey g) ∧
      (exampleHasher .excluded).deDupAccounts [exampleGroup (2 ^ 64 - 1) 1] (2 ^ 0) = none ∧
      (exampleHasher .included).deDupAccounts [exampleGroup 0 1] (2 ^ 0) =
        some ([[⟨0⟩, ⟨6⟩]], 1) ∧
      (exampleHasher .excluded).deDupAccounts [exampleGroup 3 4] (2 ^ 25) = none := by
  have hrefused : (exampleHasher .excluded).deDupAccounts [exampleGroup 3 4] (2 ^ 25) = none :=
    deDupAccounts_refused (by decide)
  exact ⟨by decide, by decide +kernel, by decide +kernel, hrefused⟩

end AccountsHasher
end Hypergrid
