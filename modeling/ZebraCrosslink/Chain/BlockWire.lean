import ZebraCrosslink.Chain.Wire

/-!
# The wire format of blocks

A block is read through a reader that ends after `MAX_BLOCK_BYTES`, so a longer block is not read.
-/

open Rust List Reader

namespace ZebraCrosslink

def MAX_BLOCK_BYTES : Nat := 2000000

def MIN_TRANSPARENT_INPUT_SIZE : Nat := 32 + 4 + 4 + 1

def MIN_TRANSPARENT_OUTPUT_SIZE : Nat := 8 + 1

def MIN_TRANSPARENT_TX_SIZE : Nat := MIN_TRANSPARENT_INPUT_SIZE + 4 + MIN_TRANSPARENT_OUTPUT_SIZE

structure TransactionFormat (T : Type) where
  zcash_serialize : T → List UInt8
  zcash_deserialize : Reader T
  round_trip : ∀ tx s, zcash_deserialize (zcash_serialize tx ++ s) = .ok (tx, s)
  smallest : ∀ tx, MIN_TRANSPARENT_TX_SIZE ≤ (zcash_serialize tx).length

structure WireBlock (T : Type) where
  header : Header
  transactions : List T

namespace WireBlock

variable {T : Type} (format : TransactionFormat T)

def zcash_serialize (block : WireBlock T) : Except Abort (Except String (List UInt8)) :=
  match block.header.zcash_serialize with
  | .error err => .ok (.error err)
  | .ok header =>
    if block.transactions.length ≤ MAX_PROTOCOL_MESSAGE_LEN then
      .ok (.ok (header ++ CompactSize64.zcash_serialize block.transactions.length ++
        block.transactions.flatMap format.zcash_serialize))
    else .error (.expect "len fits in MAX_PROTOCOL_MESSAGE_LEN")

/-- `Vec<Arc<Transaction>>`: no more transactions than fit in a block. -/
def transactions_zcash_deserialize : Reader (List T) := do
  let external_count ← CompactSizeMessage.zcash_deserialize
  if MAX_BLOCK_BYTES / MIN_TRANSPARENT_TX_SIZE < external_count then
    fail "Vector longer than max_allocation"
  else many format.zcash_deserialize external_count

def parts_zcash_deserialize : Reader (WireBlock T) := do
  let header ← Header.zcash_deserialize
  let transactions ← transactions_zcash_deserialize format
  pure { header, transactions }

def zcash_deserialize (bytes : List UInt8) : Except ReadError (WireBlock T) :=
  (parts_zcash_deserialize format (bytes.take MAX_BLOCK_BYTES)).map (·.1)

/-- What is written if the version is valid and the transactions can be counted. -/
def bytes (block : WireBlock T) : List UInt8 :=
  block.header.bytes ++ CompactSize64.zcash_serialize block.transactions.length ++
    block.transactions.flatMap format.zcash_serialize

variable {format} {block : WireBlock T}

theorem zcash_serialize_ok {out : List UInt8} : block.zcash_serialize format = .ok (.ok out) ↔
      check_version block.header.version = .ok () ∧ block.transactions.length ≤ MAX_PROTOCOL_MESSAGE_LEN ∧
        out = block.bytes format := by
  unfold zcash_serialize
  cases hheader : block.header.zcash_serialize with
  | error err =>
    have hversion : check_version block.header.version ≠ .ok () := fun hversion => by
      rw [Header.zcash_serialize_ok.mpr ⟨hversion, rfl⟩] at hheader
      cases hheader
    simp [hversion]
  | ok header =>
    obtain ⟨hversion, rfl⟩ := Header.zcash_serialize_ok.mp hheader
    by_cases hcount : block.transactions.length ≤ MAX_PROTOCOL_MESSAGE_LEN
    · simp only [hcount, if_true, hversion, true_and, Except.ok.injEq]
      exact eq_comm
    · simp [hcount]

theorem length_flatMap_ge (format : TransactionFormat T) (transactions : List T) :
    transactions.length * MIN_TRANSPARENT_TX_SIZE ≤ (transactions.flatMap format.zcash_serialize).length := by
  induction transactions with
  | nil => exact Nat.zero_le _
  | cons tx transactions ih =>
    have := format.smallest tx
    simp only [flatMap_cons, length_append, length_cons, Nat.succ_mul]
    omega

theorem zcash_deserialize_bytes (hversion : check_version block.header.version = .ok ())
    (hpointer : block.header.PointerFits) (hsize : (block.bytes format).length ≤ MAX_BLOCK_BYTES) :
    zcash_deserialize format (block.bytes format) = .ok block := by
  have hcount : block.transactions.length ≤ MAX_BLOCK_BYTES / MIN_TRANSPARENT_TX_SIZE := by
    have hleast := length_flatMap_ge format block.transactions
    rw [Nat.le_div_iff_mul_le (by decide)]
    simp only [bytes, length_append] at hsize
    omega
  have hmessage : MAX_BLOCK_BYTES / MIN_TRANSPARENT_TX_SIZE ≤ MAX_PROTOCOL_MESSAGE_LEN := by decide
  have hheader : Header.zcash_deserialize (block.bytes format) = .ok (block.header,
      CompactSize64.zcash_serialize block.transactions.length ++
        (block.transactions.flatMap format.zcash_serialize ++ [])) :=
    Header.zcash_deserialize_ok.mpr ⟨hpointer, hversion, by simp [bytes]⟩
  have hlist : transactions_zcash_deserialize format (CompactSize64.zcash_serialize block.transactions.length ++
      (block.transactions.flatMap format.zcash_serialize ++ [])) = .ok (block.transactions, []) := by
    rw [transactions_zcash_deserialize,
      bind_of_ok (CompactSizeMessage.zcash_deserialize_ok.mpr ⟨hcount.trans hmessage, rfl⟩),
      if_neg (Nat.not_lt.mpr hcount)]
    exact many_flatMap (fun tx _ => format.round_trip tx) []
  rw [zcash_deserialize, take_of_length_le hsize, parts_zcash_deserialize, bind_of_ok hheader,
    bind_of_ok hlist]
  rfl

end WireBlock

end ZebraCrosslink
