import Mathlib

/-!
# Keys, accounts and loader states

The data model of `sdk/src/account.rs` and of the two loader state formats that
the coprocessor reads out of account data.

* A `Pubkey` is its 32 bytes read as one big-endian number, so that the order of
  numbers is the byte order of the source.
* `AccountSharedData` has the fields of the source, with the added `remote` flag.
* `Pubkey.toString` is the base58 text of the key: one `1` for every leading zero
  byte, then the base58 digits of the number.
* `UpgradeableLoaderState.deserialize` follows the bincode layout: a four-byte
  little-endian tag and then the fields of the variant; trailing bytes are allowed.
* `LoaderV4State.getState` reads the `repr(C)` layout of loader v4.
-/

namespace Hypergrid

/-- Slots and epochs are `u64` counters. -/
abbrev Slot := Nat

/-- Epochs are `u64` counters. -/
abbrev Epoch := Nat

/-- `u64::MAX`. -/
def u64Max : Nat := 2 ^ 64 - 1

/-- `u64::saturating_add`. -/
def saturatingAdd (a b : Nat) : Nat := min (a + b) u64Max

instance neZeroKeys : NeZero (2 ^ 256) := inferInstance

/-- A public key: 32 bytes, read as one big-endian number. -/
structure Pubkey where
  val : Fin (2 ^ 256)
deriving DecidableEq

namespace Pubkey

/-- The key with the given big-endian value. -/
def ofNat (n : Nat) : Pubkey := ⟨Fin.ofNat (2 ^ 256) n⟩

theorem val_injective : Function.Injective Pubkey.val := by
  intro a b h
  cases a
  cases b
  simpa using h

instance : LinearOrder Pubkey := LinearOrder.lift' Pubkey.val val_injective

instance : Inhabited Pubkey := ⟨ofNat 0⟩

instance : Fintype Pubkey :=
  Fintype.ofEquiv (Fin (2 ^ 256)) ⟨Pubkey.mk, Pubkey.val, fun _ => rfl, fun _ => rfl⟩

/-- Base58 digits of a number, most significant first. -/
def base58Digits : Nat → Nat → List Nat → List Nat
  | 0, _, acc => acc
  | fuel + 1, n, acc =>
    if n = 0 then acc else base58Digits fuel (n / 58) (n % 58 :: acc)

/-- The base58 alphabet, in digit order. -/
def base58Alphabet : List Char :=
  "123456789ABCDEFGHJKLMNPQRSTUVWXYZabcdefghijkmnopqrstuvwxyz".toList

/-- Number of leading zero bytes among the given number of bytes. -/
def leadingZeroBytes : Nat → Nat → Nat
  | 0, _ => 0
  | bytes + 1, n =>
    if n < 2 ^ (8 * bytes) then leadingZeroBytes bytes n + 1 else 0

/-- `Pubkey::to_string`: at most 44 base58 characters. -/
def toString (k : Pubkey) : List Char :=
  List.replicate (leadingZeroBytes 32 k.val.val) '1' ++
    (base58Digits 44 k.val.val []).map (fun d => base58Alphabet.getD d '1')

/-- Bytes of a little-endian number. -/
def littleEndian : List UInt8 → Nat
  | [] => 0
  | b :: bs => b.toNat + 256 * littleEndian bs

/-- A key stored as 32 bytes. -/
def ofBytes (bs : List UInt8) : Pubkey := ofNat (littleEndian bs.reverse)

end Pubkey

/-- A 32-byte hash. -/
structure Hash where
  val : Fin (2 ^ 256)
deriving DecidableEq

def containsText (needle : List Char) : List Char → Bool
  | [] => needle.isEmpty
  | c :: cs => needle.isPrefixOf (c :: cs) || containsText needle cs

/-- Ids of the programs that the coprocessor names. -/
def systemProgramId : Pubkey := .ofNat 0

/-- `BPFLoader1111111111111111111111111111111111`. -/
def bpfLoaderDeprecatedId : Pubkey :=
  .ofNat 0x2a8f6914e88a16bbd2395855f6404d9b4f456b7821bb0145749428c00000000

/-- `BPFLoader2111111111111111111111111111111111`. -/
def bpfLoaderId : Pubkey :=
  .ofNat 0x2a8f6914e88a16e395ae128948ffa695693376818dd47435221f3c600000000

/-- `BPFLoaderUpgradeab1e11111111111111111111111`. -/
def bpfLoaderUpgradeableId : Pubkey :=
  .ofNat 0x2a8f6914e88a1b0e210153ef763ae2b00c2b93d16c124d2c0537a1004800000

/-- `LoaderV411111111111111111111111111111111111`. -/
def loaderV4Id : Pubkey :=
  .ofNat 0x512b4115151e37aad0a8bc5d3882e7b7fda4cf3d2c028c8cf83361800000000

/-- `SonicAccountMigrater11111111111111111111111`. -/
def sonicAccountMigraterId : Pubkey :=
  .ofNat 0x69c6c814345d85b0514bdde85fc6a4361f5d47debd7e389f51f2b5a71800000

/-- An account as it is kept in memory. -/
structure AccountSharedData where
  lamports : Nat
  data : List UInt8
  owner : Pubkey
  executable : Bool
  rentEpoch : Epoch
  remote : Bool
deriving DecidableEq

namespace AccountSharedData

variable (a : AccountSharedData)

/-- `AccountSharedData::create`: a fresh account is never remote. -/
def create (lamports : Nat) (data : List UInt8) (owner : Pubkey)
    (executable : Bool) (rentEpoch : Epoch) : AccountSharedData :=
  { lamports, data, owner, executable, rentEpoch, remote := false }

def default : AccountSharedData := create 0 [] systemProgramId false 0

instance : Inhabited AccountSharedData := ⟨default⟩

/-- `ZeroLamport::is_zero_lamport`. -/
def isZeroLamport : Bool := a.lamports == 0

/-- `to_account_shared_data` of a stored account: the flag is not stored. -/
def fromStored : AccountSharedData :=
  create a.lamports a.data a.owner a.executable a.rentEpoch

@[simp] theorem fromStored_lamports :
    (fromStored a).lamports = a.lamports := rfl

@[simp] theorem fromStored_remote :
    (fromStored a).remote = false := rfl

@[simp] theorem fromStored_fromStored :
    fromStored (fromStored a) = fromStored a := rfl

@[simp] theorem isZeroLamport_fromStored :
    (fromStored a).isZeroLamport = a.isZeroLamport := rfl

end AccountSharedData

/-- What the RPC client returns for a key of the base layer. -/
structure RpcAccount where
  lamports : Nat
  data : List UInt8
  owner : Pubkey
  executable : Bool
  rentEpoch : Epoch
deriving DecidableEq

/-- State of an account of the upgradeable loader. -/
inductive UpgradeableLoaderState where
  | uninitialized
  | buffer (authorityAddress : Option Pubkey)
  | program (programdataAddress : Pubkey)
  | programData (slot : Slot) (upgradeAuthorityAddress : Option Pubkey)
deriving DecidableEq

namespace UpgradeableLoaderState

def sizeOfProgramdataMetadata : Nat := 45

def takeBytes (n : Nat) (bs : List UInt8) : Option (List UInt8 × List UInt8) :=
  if n ≤ bs.length then some (bs.take n, bs.drop n) else none

/-- An optional key: one tag byte, and the key after the tag `1`. -/
def readOptionPubkey : List UInt8 → Option (Option Pubkey)
  | [] => none
  | t :: bs =>
    if t = 0 then some none
    else if t = 1 then
      (takeBytes 32 bs).map (fun r => some (Pubkey.ofBytes r.1))
    else none

/-- `bincode::deserialize::<UpgradeableLoaderState>`. -/
def deserialize (data : List UInt8) : Option UpgradeableLoaderState := do
  let (tag, rest) ← takeBytes 4 data
  match Pubkey.littleEndian tag with
  | 0 => some uninitialized
  | 1 => (readOptionPubkey rest).map buffer
  | 2 => (takeBytes 32 rest).map (fun r => program (Pubkey.ofBytes r.1))
  | 3 => do
      let (slot, rest) ← takeBytes 8 rest
      (readOptionPubkey rest).map (programData (Pubkey.littleEndian slot))
  | _ => none

end UpgradeableLoaderState

/-- Deployment status of a loader v4 program. -/
inductive LoaderV4Status where
  | retracted
  | deployed
  | finalized
deriving DecidableEq

/-- State of a loader v4 program account. -/
structure LoaderV4State where
  slot : Slot
  authorityAddress : Pubkey
  status : LoaderV4Status
deriving DecidableEq

namespace LoaderV4State

def programDataOffset : Nat := 48

/-- `solana_loader_v4_program::get_state`: only a short account is an error. -/
def getState (data : List UInt8) : Option LoaderV4State :=
  if data.length < programDataOffset then none
  else
    some {
      slot := Pubkey.littleEndian (data.take 8)
      authorityAddress := Pubkey.ofBytes ((data.drop 8).take 32)
      status :=
        -- the source transmutes the word; only its three listed values are defined
        match Pubkey.littleEndian ((data.drop 40).take 8) with
        | 0 => .retracted
        | 1 => .deployed
        | _ => .finalized }

end LoaderV4State
end Hypergrid
