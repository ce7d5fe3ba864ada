import ZebraCrosslink.Chain.Transaction

/-!
# BFT blocks and votes

The block that the finalizers agree on, its wire format and hash, and the votes that a fat pointer
stands for. Hash functions and signature checks are parameters.
-/

open Rust Reader

namespace ZebraCrosslink

abbrev Blake3Hash : Type := Bytes 32
abbrev FatPointerToBftBlock2 : Type := FatPointerToBftBlock

abbrev BatchItem : Type := MalPublicKey × Bytes 64 × List UInt8

/-- What the code takes from other crates. `verify` is the ed25519 check of a single signature. -/
structure Crypto where
  sha256d : List UInt8 → Bytes 32
  blake3 : List UInt8 → Bytes 32
  verify : MalPublicKey → Bytes 64 → List UInt8 → Bool
  batch_verify : List BatchItem → Bool

/-! ## Parameters -/

structure ZcashCrosslinkParameters where
  bc_confirmation_depth_sigma : Nat
  finalization_gap_bound : Nat

def PROTOTYPE_PARAMETERS : ZcashCrosslinkParameters where
  bc_confirmation_depth_sigma := 3
  finalization_gap_bound := 7

/-! ## Blocks -/

structure BftBlock where
  version : UInt32
  height : UInt32
  previous_block_fat_ptr : FatPointerToBftBlock2
  finalization_candidate_height : UInt32
  headers : List Header
  deriving DecidableEq

inductive InvalidBftBlock
  | IncorrectConfirmationDepth (expected actual : Nat)
  deriving DecidableEq, Repr

namespace BftBlock

/-- The outer error is the panic of `try_into().unwrap()`, the inner one a header's own error. -/
def zcash_serialize (b : BftBlock) : Except Abort (Except String (List UInt8)) :=
  if 2 ^ 32 ≤ b.headers.length then .error (.expect "unwrap")
  else .ok do
    let headers ← b.headers.mapM Header.zcash_serialize
    pure <|
      leBytes 4 b.version.toNat ++ leBytes 4 b.height.toNat ++
        b.previous_block_fat_ptr.zcash_serialize ++
        leBytes 4 b.finalization_candidate_height.toNat ++ leBytes 4 b.headers.length ++
        headers.flatten

def zcash_deserialize : Reader BftBlock := do
  let version ← u32
  let height ← u32
  let previous_block_fat_ptr ← FatPointerToBftBlock.zcash_deserialize
  let finalization_candidate_height ← u32
  let header_count ← u32
  if 2048 < header_count then fail "header_count was greater than 2048."
  else do
    let headers ← many Header.zcash_deserialize header_count.toNat
    pure { version, height, previous_block_fat_ptr, finalization_candidate_height, headers }

def finalization_candidate (b : BftBlock) : Except Abort Header :=
  match b.headers.getLast? with
  | some header => .ok header
  | none => .error (.expect "Vec should never be empty")

def try_from (params : ZcashCrosslinkParameters) (height : UInt32)
    (previous_block_fat_ptr : FatPointerToBftBlock2) (finalization_candidate_height : UInt32)
    (headers : List Header) : Except InvalidBftBlock BftBlock :=
  let expected := params.bc_confirmation_depth_sigma
  let actual := headers.length
  if actual ≠ expected then .error (.IncorrectConfirmationDepth expected actual)
  else .ok { version := 1, height, previous_block_fat_ptr, finalization_candidate_height, headers }

def blake3_hash (C : Crypto) (b : BftBlock) : Except Abort Blake3Hash :=
  match b.zcash_serialize with
  | .error err => .error err
  | .ok (.ok bytes) => .ok (C.blake3 bytes)
  | .ok (.error _) => .error (.expect "Sha256dWriter is infallible")

def previous_block_hash (b : BftBlock) : Blake3Hash :=
  b.previous_block_fat_ptr.points_at_block_hash

def placeholder (i : Nat) : BftBlock where
  version := 0
  height := UInt32.ofNat i
  previous_block_fat_ptr := FatPointerToBftBlock.null
  finalization_candidate_height := 0
  headers := []

end BftBlock

/-! ## Votes -/

structure MalVote where
  validator_address : MalPublicKey
  value : Blake3Hash
  height : UInt64
  typ : Bool
  round : Int32
  deriving DecidableEq

namespace MalVote

def merged_round_val (v : MalVote) : UInt32 :=
  if v.typ then (v.round &&& 0x7fffffff).toUInt32 ||| 0x80000000
  else (v.round &&& 0x7fffffff).toUInt32

def to_bytes (v : MalVote) : List UInt8 :=
  v.validator_address.val ++ v.value.val ++ leBytes 8 v.height.toNat ++
    leBytes 4 v.merged_round_val.toNat

def from_bytes (bytes : Bytes 76) : MalVote :=
  let merged_round_val := UInt32.ofNat (ofLE (bytes.slice 72 4 (by omega)).val)
  { validator_address := bytes.slice 0 32 (by omega)
    value := bytes.slice 32 32 (by omega)
    height := UInt64.ofNat (ofLE (bytes.slice 64 8 (by omega)).val)
    typ := merged_round_val &&& 0x80000000 != 0
    round := (merged_round_val &&& 0x7fffffff).toInt32 }

end MalVote

namespace FatPointerToBftBlock

variable (fp : FatPointerToBftBlock2)

def get_vote_template : MalVote :=
  MalVote.from_bytes ((Bytes.zero 32).append fp.vote_for_block_without_finalizer_public_key)

def inflate : List (MalVote × Bytes 64) :=
  fp.signatures.map fun s =>
    ({ fp.get_vote_template with validator_address := s.public_key }, s.vote_signature)

def validate_signatures (C : Crypto) (fp : FatPointerToBftBlock2) : Bool :=
  C.batch_verify <| fp.inflate.map fun (vote, signature) =>
    (vote.validator_address, signature, vote.to_bytes)

end FatPointerToBftBlock

end ZebraCrosslink
