import Hypergrid.Account
import Hypergrid.Lib.Top

/-!
# Inserting values into the gossip table

The model of `overrides` and `Crds::insert` of `gossip/src/crds.rs` and of `NodeInstance::overrides`
of `gossip/src/crds_value.rs`, for any hash of the serialized values.  An entry of the table carries
the label under which it is stored and its hash, so the assertion of `overrides` holds.

* `insert_stored` : an insert keeps the stored value or replaces it by one that overrides it.
* `converges_iff` : the order of the inserts does not matter exactly if one value overrides all
  others.
* `exists_isTop_of_consistent` : such a value exists unless node instances with one token have
  different timestamps.
-/

namespace Hypergrid
open List

namespace Crds

structure NodeInstance where
  pubkey : Pubkey
  wallclock : Nat
  timestamp : Nat
  token : Nat
deriving DecidableEq

/-- The other variants of `CrdsData`, with the index that is part of the label. -/
inductive Kind
  | legacyContactInfo
  | vote (index : Nat)
  | lowestSlot
  | legacySnapshotHashes
  | accountsHashes
  | epochSlots (index : Nat)
  | legacyVersion
  | version
  | duplicateShred (index : Nat)
  | snapshotHashes
  | contactInfo
  | restartLastVotedForkSlots
  | restartHeaviestFork
deriving DecidableEq

inductive CrdsData
  | nodeInstance (node : NodeInstance)
  | other (kind : Kind) (pubkey : Pubkey) (wallclock : Nat) (content : List UInt8)
deriving DecidableEq

structure CrdsValue where
  signature : List UInt8
  data : CrdsData
deriving DecidableEq

inductive CrdsValueLabel
  | nodeInstance (pubkey : Pubkey)
  | other (kind : Kind) (pubkey : Pubkey)
deriving DecidableEq

namespace CrdsValue

def wallclock (value : CrdsValue) : Nat :=
  match value.data with
  | .nodeInstance node => node.wallclock
  | .other _ _ wallclock _ => wallclock

def label (value : CrdsValue) : CrdsValueLabel :=
  match value.data with
  | .nodeInstance node => .nodeInstance node.pubkey
  | .other kind pubkey _ _ => .other kind pubkey

end CrdsValue

def NodeInstance.overrides (self : NodeInstance) (other : CrdsValue) : Option Bool :=
  match other.data with
  | .nodeInstance other =>
    if self.token = other.token ∨ self.pubkey ≠ other.pubkey then none
    else if self.timestamp < other.timestamp then some false
    else if other.timestamp < self.timestamp then some true
    else some (other.token < self.token)
  | .other .. => none

variable (hash : CrdsValue → Hash)

/-- `overrides`, with the hash that is stored beside the other value. -/
def overrides (value other : CrdsValue) (otherHash : Hash) : Bool :=
  let byWallclock : Bool :=
    if value.wallclock < other.wallclock then false
    else if other.wallclock < value.wallclock then true
    else otherHash.val < (hash value).val
  match value.data with
  | .nodeInstance node => (node.overrides other).getD byWallclock
  | .other .. => byWallclock

inductive GossipRoute
  | localMessage
  | pullRequest
  | pullResponse
  | pushMessage (pubkey : Pubkey)

inductive CrdsError
  | duplicatePush (numDups : Nat)
  | insertFailed

structure VersionedCrdsValue (label : CrdsValueLabel) where
  ordinal : Nat
  value : CrdsValue
  localTimestamp : Nat
  valueHash : Hash
  numPushRecv : Option Nat
  label_eq : value.label = label
  valueHash_eq : valueHash = hash value

structure Table where
  table (label : CrdsValueLabel) : Option (VersionedCrdsValue hash label) := none
  cursor : Nat := 0
  purged : List (Hash × Nat) := []

def VersionedCrdsValue.new (value : CrdsValue) (cursor localTimestamp : Nat) (route : GossipRoute) :
    VersionedCrdsValue hash value.label where
  ordinal := cursor
  value := value
  localTimestamp := localTimestamp
  valueHash := hash value
  numPushRecv := match route with
    | .localMessage | .pullRequest => none
    | .pullResponse => some 0
    | .pushMessage _ => some 1
  label_eq := rfl
  valueHash_eq := rfl

namespace Table

variable {hash}

/-- What both branches that store a value do. -/
def store {label : CrdsValueLabel} (crds : Table hash) (value : VersionedCrdsValue hash label) :
    Table hash :=
  { crds with
    table := Function.update crds.table label (some value)
    cursor := max crds.cursor (value.ordinal + 1) }

def insert (crds : Table hash) (value : CrdsValue) (now : Nat) (route : GossipRoute) :
    Table hash × Except CrdsError Unit :=
  let new := VersionedCrdsValue.new hash value crds.cursor now route
  match crds.table value.label with
  | none => (crds.store new, .ok ())
  | some entry =>
    if overrides hash value entry.value entry.valueHash then
      ({ crds.store new with purged := crds.purged ++ [(entry.valueHash, now)] }, .ok ())
    else if entry.valueHash ≠ new.valueHash then
      ({ crds with purged := crds.purged ++ [(new.valueHash, now)] }, .error .insertFailed)
    else
      match route with
      | .pushMessage _ =>
        let numPushDups := entry.numPushRecv.getD 0
        let entry := { entry with numPushRecv := some (min (numPushDups + 1) (2 ^ 8 - 1)) }
        ({ crds with table := Function.update crds.table value.label (some entry) },
          .error (.duplicatePush numPushDups))
      | _ => (crds, .error .insertFailed)

def stored (crds : Table hash) (label : CrdsValueLabel) : Option CrdsValue :=
  (crds.table label).map (·.value)

def insertAll (crds : Table hash) (inserts : List (CrdsValue × Nat × GossipRoute)) : Table hash :=
  inserts.foldl (fun crds (value, now, route) => (crds.insert value now route).1) crds

end Table

/-- The value overrides the other one once that is stored. -/
def Overrides (value other : CrdsValue) : Prop := overrides hash value other (hash other)

instance : DecidableRel (Overrides hash) := fun _ _ => inferInstanceAs (Decidable (_ = true))

/-- Whatever the order of the inserts, their times and routes, the same value is stored. -/
def Converges (label : CrdsValueLabel) (values : List CrdsValue) : Prop :=
  ∀ inserts inserts' : List (CrdsValue × Nat × GossipRoute),
    (inserts.map Prod.fst).Perm values → (inserts'.map Prod.fst).Perm values →
    (Table.insertAll ({} : Table hash) inserts).stored label =
      (Table.insertAll ({} : Table hash) inserts').stored label

variable {hash}

instance : Std.Asymm (Overrides hash) where
  asymm := by
    rintro ⟨_, data⟩ ⟨_, data'⟩ h h'
    cases data <;> cases data' <;>
      simp only [Overrides, overrides, NodeInstance.overrides,
        CrdsValue.wallclock] at h h' <;> grind

namespace CrdsValue

def token (value : CrdsValue) : Nat :=
  match value.data with
  | .nodeInstance node => node.token
  | .other .. => 0

def timestamp (value : CrdsValue) : Nat :=
  match value.data with
  | .nodeInstance node => node.timestamp
  | .other .. => 0

end CrdsValue

/-- Different tokens are compared by their timestamps, equal ones by the wallclocks. -/
theorem overrides_iff {value other : CrdsValue} (hlabel : value.label = other.label) :
    Overrides hash value other ↔
      if value.token = other.token then
        toLex (other.wallclock, (hash other).val) < toLex (value.wallclock, (hash value).val)
      else toLex (other.timestamp, other.token) < toLex (value.timestamp, value.token) := by
  obtain ⟨_, data⟩ := value
  obtain ⟨_, data'⟩ := other
  rw [Prod.Lex.toLex_lt_toLex, Prod.Lex.toLex_lt_toLex]
  cases data <;> cases data' <;>
    simp only [Overrides, overrides, NodeInstance.overrides, CrdsValue.wallclock, CrdsValue.token,
      CrdsValue.timestamp, CrdsValue.label] at hlabel ⊢ <;> grind

namespace Table

theorem insert_stored (crds : Table hash) (value : CrdsValue) (now : Nat) (route : GossipRoute) :
    (crds.insert value now route).1.stored value.label =
      keepBest (Overrides hash) (crds.stored value.label) value := by
  unfold insert stored
  rcases hentry : crds.table value.label with _ | entry
  · simp [store, keepBest, VersionedCrdsValue.new]
  · simp only [Option.map_some, keepBest, Overrides, ← entry.valueHash_eq]
    split_ifs with hover hhash
    · simp [store, VersionedCrdsValue.new]
    · simp [hentry]
    · cases route <;> simp [hentry]

theorem insertAll_stored (label : CrdsValueLabel) (inserts : List (CrdsValue × Nat × GossipRoute))
    (crds : Table hash) (hlabel : ∀ value ∈ inserts.map Prod.fst, value.label = label) :
    (crds.insertAll inserts).stored label =
      (inserts.map Prod.fst).foldl (keepBest (Overrides hash)) (crds.stored label) := by
  induction inserts generalizing crds with
  | nil => rfl
  | cons insert inserts ih =>
    obtain ⟨value, now, route⟩ := insert
    rw [map_cons, forall_mem_cons] at hlabel
    obtain ⟨rfl, hlabel⟩ := hlabel
    rw [map_cons, foldl_cons, ← insert_stored crds value now route]
    exact ih _ hlabel

end Table

section Values
variable {label : CrdsValueLabel} {values : List CrdsValue}
  (hlabel : ∀ value ∈ values, value.label = label)
  (hhash : ∀ value ∈ values, ∀ other ∈ values, hash value = hash other → value = other)
include hlabel hhash

theorem overrides_total : ∀ value ∈ values, ∀ other ∈ values, value ≠ other →
    Overrides hash value other ∨ Overrides hash other value := by
  intro value hvalue other hother hne
  have heq := (hlabel value hvalue).trans (hlabel other hother).symm
  rw [overrides_iff heq, overrides_iff heq.symm]
  by_cases htoken : value.token = other.token
  · rw [if_pos htoken, if_pos htoken.symm]
    refine (lt_or_gt_of_ne fun h => hne (hhash value hvalue other hother ?_)).symm
    exact congrArg Hash.mk (congrArg Prod.snd (toLex.injective h))
  · rw [if_neg htoken, if_neg (Ne.symm htoken)]
    exact (lt_or_gt_of_ne fun h => htoken (congrArg Prod.snd (toLex.injective h))).symm

theorem exists_isTop_of_consistent (hne : values ≠ [])
    (htimestamp : ∀ value ∈ values, ∀ other ∈ values, value.token = other.token →
      value.timestamp = other.timestamp) :
    ∃ value, IsTop (Overrides hash) (fun _ => True) values value := by
  let rank (value : CrdsValue) := toLex (value.timestamp,
    toLex (value.token, toLex (value.wallclock, (hash value).val)))
  obtain ⟨value, hvalue, hmax⟩ := values.toFinset.exists_max_image rank (by simpa using hne)
  rw [mem_toFinset] at hvalue
  refine ⟨value, hvalue, trivial, fun other hother _ hdiff => ?_⟩
  rcases overrides_total hlabel hhash value hvalue other hother hdiff.symm with hwins | hloses
  · exact hwins
  · refine absurd (hmax other (mem_toFinset.2 hother)) (not_le.2 ?_)
    rw [overrides_iff ((hlabel other hother).trans (hlabel value hvalue).symm)] at hloses
    split_ifs at hloses with htoken
    · have heq := htimestamp other hother value hvalue htoken
      simpa [rank, Prod.Lex.toLex_lt_toLex, heq, htoken] using hloses
    · rw [Prod.Lex.toLex_lt_toLex] at hloses
      simp only [rank, Prod.Lex.toLex_lt_toLex]
      grind

/-- The order of the inserts does not matter exactly if one value overrides all others. -/
theorem converges_iff : Converges hash label values ↔
    values = [] ∨ ∃ value, IsTop (Overrides hash) (fun _ => True) values value := by
  rw [← forall_perm_foldl_keepBest_iff (overrides_total hlabel hhash)]
  have hstored : ∀ inserts : List (CrdsValue × Nat × GossipRoute),
      (inserts.map Prod.fst).Perm values →
      (Table.insertAll ({} : Table hash) inserts).stored label =
        (inserts.map Prod.fst).foldl (keepBest (Overrides hash)) none := fun inserts hperm =>
    Table.insertAll_stored label inserts {} fun value hvalue =>
      hlabel value (hperm.mem_iff.1 hvalue)
  constructor
  · intro h l₁ l₂ h₁ h₂
    have hfst : ∀ l : List CrdsValue,
        (l.map fun value => (value, 0, GossipRoute.localMessage)).map Prod.fst = l := fun l => by
      rw [map_map]
      exact map_id l
    have hsame := h _ _ ((hfst l₁).symm ▸ h₁) ((hfst l₂).symm ▸ h₂)
    rwa [hstored _ ((hfst l₁).symm ▸ h₁), hstored _ ((hfst l₂).symm ▸ h₂), hfst, hfst] at hsame
  · intro h inserts inserts' hperm hperm'
    rw [hstored inserts hperm, hstored inserts' hperm']
    exact h _ _ hperm hperm'

end Values

def instanceOf (wallclock timestamp token : Nat) : CrdsValue :=
  ⟨[], .nodeInstance ⟨systemProgramId, wallclock, timestamp, token⟩⟩

def wallclockHash (value : CrdsValue) : Hash := ⟨Fin.ofNat _ value.wallclock⟩

theorem exists_isTop_pair : ∃ value, IsTop (Overrides wallclockHash) (fun _ => True)
    [instanceOf 1 10 1, instanceOf 3 7 2] value := by
  have hlabel : ∀ value ∈ [instanceOf 1 10 1, instanceOf 3 7 2],
      value.label = .nodeInstance systemProgramId := by decide
  exact exists_isTop_of_consistent hlabel (by decide +kernel) (by decide) (by decide +kernel)

/-- Two instances converge. -/
theorem converges_pair : Converges wallclockHash (.nodeInstance systemProgramId)
    [instanceOf 1 10 1, instanceOf 3 7 2] :=
  (converges_iff (by decide) (by decide +kernel)).2
    (.inr ⟨instanceOf 1 10 1, by decide, trivial, by decide +kernel⟩)

/-- Two values of one instance with different timestamps, and a second instance between them. -/
def instances : List CrdsValue := [instanceOf 1 10 1, instanceOf 2 5 1, instanceOf 3 7 2]

/-- Either of the last two may stay. -/
theorem instances_diverge : (∀ value ∈ instances, ∀ other ∈ instances,
      wallclockHash value = wallclockHash other → value = other) ∧
    ¬ Converges wallclockHash (.nodeInstance systemProgramId) instances := by
  refine ⟨by decide +kernel, fun h => ?_⟩
  have hsame := h (instances.map fun value => (value, 0, .localMessage))
    ([instanceOf 1 10 1, instanceOf 3 7 2, instanceOf 2 5 1].map
      fun value => (value, 0, .localMessage)) (List.Perm.refl _) (.cons _ (.swap _ _ _))
  exact absurd hsame (by decide +kernel)

end Crds
end Hypergrid
