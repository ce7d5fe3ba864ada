import ZebraCrosslink.Rust.Bytes

/-!
# PoW block headers

The header of a PoW block with the fat pointer to a BFT block it carries, and its wire format.
The SHA-256d hash is a parameter.
-/

open Rust Reader

namespace ZebraCrosslink

/-! ## Fat pointers

The crosslink crate has its own copy of these two types, `FatPointerToBftBlock2` and
`FatPointerSignature2`, with the same fields and the same wire format. -/

structure FatPointerSignature where
  public_key : Bytes 32
  vote_signature : Bytes 64
  deriving DecidableEq

structure FatPointerToBftBlock where
  vote_for_block_without_finalizer_public_key : Bytes 44
  signatures : List FatPointerSignature
  deriving DecidableEq

namespace FatPointerSignature

def to_bytes (s : FatPointerSignature) : Bytes 96 := s.public_key.append s.vote_signature

def from_bytes (bytes : Bytes 96) : FatPointerSignature where
  public_key := bytes.slice 0 32 (by omega)
  vote_signature := bytes.slice 32 64 (by omega)

end FatPointerSignature

namespace FatPointerToBftBlock

def null : FatPointerToBftBlock where
  vote_for_block_without_finalizer_public_key := Bytes.zero 44
  signatures := []

variable (fp : FatPointerToBftBlock)

def points_at_block_hash : Bytes 32 :=
  fp.vote_for_block_without_finalizer_public_key.slice 0 32 (by omega)

/-- The signature count is written `as u16`, so only its low two bytes are kept. -/
def zcash_serialize : List UInt8 :=
  fp.vote_for_block_without_finalizer_public_key.val ++ leBytes 2 fp.signatures.length ++
    fp.signatures.flatMap fun s => s.to_bytes.val

def zcash_deserialize : Reader FatPointerToBftBlock := do
  let vote ← exact 44
  let len ← u16
  let signatures ← many
    (do let bytes ← exact 96; pure (FatPointerSignature.from_bytes bytes)) len.toNat
  pure { vote_for_block_without_finalizer_public_key := vote, signatures }

end FatPointerToBftBlock

open FatPointerToBftBlock

/-! ## Compact sizes and Equihash solutions -/

def MAX_PROTOCOL_MESSAGE_LEN : Nat := 2 * 1024 * 1024

def MAX_U8_ALLOCATION : Nat := MAX_PROTOCOL_MESSAGE_LEN - 5

def CompactSize64.zcash_serialize (n : Nat) : List UInt8 :=
  if n ≤ 0xfc then leBytes 1 n
  else if n ≤ 0xffff then 0xfd :: leBytes 2 n
  else if n ≤ 0xffffffff then 0xfe :: leBytes 4 n
  else 0xff :: leBytes 8 n

def CompactSize64.read_size (flag : UInt8) : Reader Nat :=
  if flag ≤ 0xfc then pure flag.toNat
  else if flag = 0xfd then do
    let n ← u16
    if 0xfd ≤ n then pure n.toNat else fail "non-canonical CompactSize"
  else if flag = 0xfe then do
    let n ← u32
    if 0x10000 ≤ n then pure n.toNat else fail "non-canonical CompactSize"
  else do
    let n ← u64
    if 0x100000000 ≤ n then pure n.toNat else fail "non-canonical CompactSize"

def CompactSize64.zcash_deserialize : Reader Nat := do
  let flag ← u8
  read_size flag

def CompactSizeMessage.zcash_deserialize : Reader Nat := do
  let size ← CompactSize64.zcash_deserialize
  if 2 ^ 32 ≤ size then fun _ => .error .tryFromInt
  else if MAX_PROTOCOL_MESSAGE_LEN < size then
    fail "CompactSize larger than protocol message limit"
  else pure size

/-- `Vec<u8>`: a compact size and that many bytes. -/
def bytes_zcash_deserialize : Reader (List UInt8) := do
  let external_count ← CompactSizeMessage.zcash_deserialize
  if MAX_U8_ALLOCATION < external_count then
    fail "Byte vector longer than MAX_U8_ALLOCATION"
  else do
    let bytes ← exact external_count
    pure bytes.val

inductive Solution
  | Common (bytes : Bytes 1344)
  | Regtest (bytes : Bytes 36)
  deriving DecidableEq

namespace Solution

def value : Solution → List UInt8
  | Common bytes => bytes.val
  | Regtest bytes => bytes.val

/-- Both sizes are below the message limit, so `zcash_serialize_bytes` does not panic here. -/
def zcash_serialize (s : Solution) : List UInt8 :=
  CompactSize64.zcash_serialize s.value.length ++ s.value

def from_bytes (solution : List UInt8) : Except ReadError Solution :=
  if h : solution.length = 1344 then .ok (Common ⟨solution, h⟩)
  else if h : solution.length = 36 then .ok (Regtest ⟨solution, h⟩)
  else .error (.parse "incorrect equihash solution size")

def zcash_deserialize : Reader Solution := do
  let solution ← bytes_zcash_deserialize
  fun s => (from_bytes solution).map fun r => (r, s)

end Solution

/-! ## Headers -/

abbrev BlockHash : Type := Bytes 32

def GENESIS_PREVIOUS_BLOCK_HASH : BlockHash := Bytes.zero 32

/-- `time` is the `u32` of the wire format. -/
structure Header where
  version : UInt32
  previous_block_hash : BlockHash
  merkle_root : Bytes 32
  commitment_bytes : Bytes 32
  time : UInt32
  difficulty_threshold : UInt32
  nonce : Bytes 32
  solution : Solution
  fat_pointer_to_bft_block : FatPointerToBftBlock
  deriving DecidableEq

/-- A header of the samples. -/
def Header.blank (previous_block_hash : BlockHash) (merkle_root : Bytes 32) (difficulty_threshold : UInt32) :
    Header where
  version := 4
  previous_block_hash
  merkle_root
  commitment_bytes := Bytes.zero 32
  time := 0
  difficulty_threshold
  nonce := Bytes.zero 32
  solution := .Regtest (Bytes.zero 36)
  fat_pointer_to_bft_block := .null

def check_version (version : UInt32) : Except String Unit :=
  if version >>> 31 ≠ 0 then .error "high bit was set in version field"
  else if version < 4 then .error "version must be at least 4"
  else .ok ()

def reverse_bits (v : UInt32) : UInt32 := UInt32.ofBitVec v.toBitVec.reverse

namespace Header

def logical_version (version : UInt32) : UInt32 :=
  if version &&& 0xffff0000 ≠ 0 then reverse_bits version else version

def zcash_serialize (h : Header) : Except String (List UInt8) := do
  check_version h.version
  pure <|
    leBytes 4 h.version.toNat ++ h.previous_block_hash.val ++ h.merkle_root.val ++
      h.commitment_bytes.val ++ leBytes 4 h.time.toNat ++ leBytes 4 h.difficulty_threshold.toNat ++
      h.nonce.val ++ h.solution.zcash_serialize ++
      if 5 ≤ logical_version h.version then h.fat_pointer_to_bft_block.zcash_serialize else []

/-- Only headers of logical version 5 and up carry a fat pointer. -/
def fat_pointer_zcash_deserialize (version : UInt32) : Reader FatPointerToBftBlock :=
  if 5 ≤ logical_version version then zcash_deserialize
  else pure null

def zcash_deserialize : Reader Header := do
  let version ← u32
  match check_version version with
  | .error msg => fail msg
  | .ok () => do
    let previous_block_hash ← exact 32
    let merkle_root ← exact 32
    let commitment_bytes ← exact 32
    let time ← u32
    let difficulty_threshold ← u32
    let nonce ← exact 32
    let solution ← Solution.zcash_deserialize
    let fat_pointer_to_bft_block ← fat_pointer_zcash_deserialize version
    pure { version, previous_block_hash, merkle_root, commitment_bytes, time,
           difficulty_threshold, nonce, solution, fat_pointer_to_bft_block }

variable (sha256d : List UInt8 → Bytes 32)

def hash (h : Header) : Except Abort BlockHash :=
  match h.zcash_serialize with
  | .ok bytes => .ok (sha256d bytes)
  | .error _ => .error (.expect "Sha256dWriter is infallible")

theorem check_version_of_zcash_deserialize (s s' : List UInt8) (h : Header)
    (hd : zcash_deserialize s = .ok (h, s')) : check_version h.version = .ok () := by
  rw [zcash_deserialize, bind_ok] at hd
  obtain ⟨version, s₁, -, hd⟩ := hd
  cases hv : check_version version with
  | error msg =>
    rw [hv] at hd
    cases hd
  | ok u =>
    rw [hv] at hd
    simp only [bind_ok, pure_ok] at hd
    obtain ⟨_, _, -, _, _, -, _, _, -, _, _, -, _, _, -, _, _, -, _, _, -, _, _, -, rfl, -⟩ := hd
    exact hv

theorem hash_of_check_version (h : Header) (hv : check_version h.version = .ok ()) :
    ∃ x, h.hash sha256d = .ok x := by
  simp only [hash, zcash_serialize, hv]
  exact ⟨_, rfl⟩

end Header

end ZebraCrosslink
