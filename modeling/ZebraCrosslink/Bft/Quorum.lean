import Mathlib
import ZebraCrosslink.Bft.Validate
import ZebraCrosslink.Rust.Codec

/-!
# Who signed a decided block

Each signature is a valid vote of its own key for the block; nothing compares the keys with each
other or with the roster.
-/

open Rust Bytes List

namespace ZebraCrosslink

variable {E : Type} (fp : FatPointerToBftBlock2)

/-! ## The signed message -/

theorem round_merge (m : UInt32) : (if (m &&& 0x80000000 != 0) = true then
        ((m &&& 0x7fffffff).toInt32 &&& 0x7fffffff).toUInt32 ||| 0x80000000
      else ((m &&& 0x7fffffff).toInt32 &&& 0x7fffffff).toUInt32) = m := by
  have hm := m.toNat_lt
  have hlow : (((m &&& 0x7fffffff).toInt32 &&& 0x7fffffff).toUInt32).toNat = m.toNat % 2 ^ 31 := by
    change (m &&& 0x7fffffff &&& 0x7fffffff).toNat = _
    have h31 : (0x7fffffff : UInt32).toNat = 2 ^ 31 - 1 := rfl
    rw [UInt32.toNat_and, UInt32.toNat_and, h31, Nat.and_two_pow_sub_one_eq_mod,
      Nat.and_two_pow_sub_one_eq_mod, Nat.mod_mod]
  have hhigh : (m &&& 0x80000000).toNat = (m.toNat.testBit 31).toNat * 2 ^ 31 := by
    rw [UInt32.toNat_and]
    exact Nat.and_two_pow _ 31
  have hbit : m.toNat.testBit 31 = decide (2 ^ 31 ≤ m.toNat) := by
    rw [Nat.testBit_eq_decide_div_mod_eq]
    congr 1
    apply propext
    constructor <;> intro h <;> omega
  apply UInt32.toNat_inj.mp
  by_cases hle : 2 ^ 31 ≤ m.toNat
  · have hset : (m &&& 0x80000000 != 0) = true := by
      rw [bne_iff_ne, Ne, ← UInt32.toNat_inj, hhigh, hbit, decide_eq_true hle]
      decide
    rw [if_pos hset, UInt32.toNat_or, hlow, Nat.or_comm]
    have hor := Nat.two_pow_add_eq_or_of_lt (Nat.mod_lt m.toNat (by decide : 0 < 2 ^ 31)) 1
    rw [Nat.mul_one] at hor
    exact hor.symm.trans (by omega)
  · have hclear : (m &&& 0x80000000 != 0) = false := by
      rw [bne_eq_false_iff_eq, ← UInt32.toNat_inj, hhigh, hbit, decide_eq_false hle]
      rfl
    rw [hclear, if_neg Bool.false_ne_true, hlow]
    omega

theorem leBytes_u64 (b : Bytes 8) : leBytes 8 (UInt64.ofNat (ofLE b.val)).toNat = b.val := by
  have hlt := ofLE_lt b.val
  rw [b.property] at hlt
  rw [UInt64.toNat_ofNat_of_lt' hlt]
  simpa [b.property] using leBytes_ofLE b.val

theorem leBytes_u32 (b : Bytes 4) : leBytes 4 (UInt32.ofNat (ofLE b.val)).toNat = b.val := by
  have hlt := ofLE_lt b.val
  rw [b.property] at hlt
  rw [UInt32.toNat_ofNat_of_lt' hlt]
  simpa [b.property] using leBytes_ofLE b.val

theorem to_bytes_with_address (bytes : Bytes 76) (key : MalPublicKey) :
    { MalVote.from_bytes bytes with validator_address := key : MalVote }.to_bytes =
      key.val ++ (bytes.slice 32 44 (by omega)).val := by
  have hround : { MalVote.from_bytes bytes with validator_address := key : MalVote }.merged_round_val =
      UInt32.ofNat (ofLE (bytes.slice 72 4 (by omega)).val) := round_merge _
  rw [MalVote.to_bytes, hround, leBytes_u32]
  simp only [MalVote.from_bytes]
  rw [leBytes_u64, append_assoc, append_assoc]
  congr 1
  rw [← append_assoc, slice_append_slice bytes 32 32 8 (by omega),
    slice_append_slice bytes 32 40 4 (by omega)]

/-- The message of a vote: the voter's key, the block's hash, and the bytes of height and round. -/
def voteMessage (key : MalPublicKey) (hash : Blake3Hash) (heightRound : Bytes 12) : List UInt8 :=
  key.val ++ hash.val ++ heightRound.val

def heightRound (fp : FatPointerToBftBlock2) : Bytes 12 :=
  fp.vote_for_block_without_finalizer_public_key.slice 32 12 (by omega)

theorem inflate_message (key : MalPublicKey) :
    { fp.get_vote_template with validator_address := key : MalVote }.to_bytes =
      voteMessage key fp.points_at_block_hash (heightRound fp) := by
  have htail : (((zero 32).append fp.vote_for_block_without_finalizer_public_key).slice 32 44
      (by omega)).val = fp.vote_for_block_without_finalizer_public_key.val := by
    simp [Bytes.slice, append, zero, fp.vote_for_block_without_finalizer_public_key.property]
  rw [FatPointerToBftBlock.get_vote_template, to_bytes_with_address, htail, voteMessage,
    FatPointerToBftBlock.points_at_block_hash, heightRound, append_assoc,
    slice_append_slice _ 0 32 12 (by omega), slice_all]

theorem MalVote.to_bytes_from_bytes (v : Bytes 76) : (MalVote.from_bytes v).to_bytes = v.val := by
  refine (to_bytes_with_address v (v.slice 0 32 (by omega))).trans ?_
  rw [slice_append_slice v 0 32 44 (by omega), slice_all]

theorem MalVote.length_to_bytes (vote : MalVote) : vote.to_bytes.length = 76 := by
  simp [MalVote.to_bytes, length_leBytes, vote.validator_address.property, vote.value.property]

theorem template_value : fp.get_vote_template.value = fp.points_at_block_hash := by
  apply Subtype.ext
  simp [FatPointerToBftBlock.get_vote_template, FatPointerToBftBlock.points_at_block_hash, MalVote.from_bytes,
    Bytes.slice, append, zero]

theorem template_bytes (key : MalPublicKey) :
    { fp.get_vote_template with validator_address := key : MalVote }.to_bytes =
      key.val ++ fp.vote_for_block_without_finalizer_public_key.val := by
  rw [inflate_message, voteMessage, FatPointerToBftBlock.points_at_block_hash, heightRound, append_assoc,
    slice_append_slice _ 0 32 12 (by omega), slice_all]

def votesFor (fp : FatPointerToBftBlock2) : Blake3Hash × UInt64 × Int32 × Bool :=
  (fp.points_at_block_hash, fp.get_vote_template.height, fp.get_vote_template.round, fp.get_vote_template.typ)

theorem message_eq_iff (fp' : FatPointerToBftBlock2) (key : MalPublicKey) :
    { fp.get_vote_template with validator_address := key : MalVote }.to_bytes =
        { fp'.get_vote_template with validator_address := key : MalVote }.to_bytes ↔
      votesFor fp = votesFor fp' := by
  constructor
  · intro h
    rw [template_bytes, template_bytes, append_cancel_left_eq, Subtype.val_inj] at h
    simp [votesFor, ← template_value, FatPointerToBftBlock.get_vote_template, h]
  · intro h
    simp only [votesFor, ← template_value, Prod.mk.injEq] at h
    simp [h]

theorem votes_faithful : (∀ v : Bytes 76, (MalVote.from_bytes v).to_bytes = v.val) ∧
      (∀ x, x ∈ Set.range MalVote.from_bytes → MalVote.from_bytes ⟨x.to_bytes, x.length_to_bytes⟩ = x) ∧
      ∀ fp : FatPointerToBftBlock2, fp.inflate.length = fp.signatures.length ∧
        (∀ (i : Nat) sig, fp.signatures[i]? = some sig → ∃ vote, fp.inflate[i]? = some (vote, sig.vote_signature) ∧
          vote.validator_address = sig.public_key ∧
          vote.to_bytes = sig.public_key.val ++ fp.vote_for_block_without_finalizer_public_key.val ∧
          (vote.value, vote.height, vote.round, vote.typ) = votesFor fp) ∧
        ∀ (fp' : FatPointerToBftBlock2) (key : MalPublicKey),
          { fp.get_vote_template with validator_address := key : MalVote }.to_bytes =
              { fp'.get_vote_template with validator_address := key : MalVote }.to_bytes ↔
            votesFor fp = votesFor fp' := by
  refine ⟨MalVote.to_bytes_from_bytes, ?_, fun fp => ⟨length_map _, ?_, message_eq_iff fp⟩⟩
  · rintro _ ⟨v, rfl⟩
    exact congrArg MalVote.from_bytes (Subtype.ext (MalVote.to_bytes_from_bytes v))
  · intro i sig hsig
    refine ⟨{ fp.get_vote_template with validator_address := sig.public_key }, ?_, rfl, template_bytes fp _, ?_⟩
    · rw [FatPointerToBftBlock.inflate, getElem?_map, hsig, Option.map_some]
    · rw [votesFor, ← template_value]

/-! ## Signatures -/

/-- Batch verification accepts exactly the batches in which every signature is valid. -/
def batchExact (C : Crypto) : Prop :=
  ∀ items, C.batch_verify items = items.all fun item => C.verify item.1 item.2.1 item.2.2

theorem validate_signatures_iff (C : Crypto) (hbatch : batchExact C) (fp : FatPointerToBftBlock2) :
    fp.validate_signatures C = true ↔ ∀ sig ∈ fp.signatures,
      C.verify sig.public_key sig.vote_signature
        (voteMessage sig.public_key fp.points_at_block_hash (heightRound fp)) = true := by
  unfold FatPointerToBftBlock.validate_signatures FatPointerToBftBlock.inflate
  rw [hbatch, map_map, all_map, all_eq_true]
  simp [inflate_message]

/-! ## Quorum -/

def signers (fp : FatPointerToBftBlock2) : List MalPublicKey := fp.signatures.map (·.public_key)

def totalPower (roster : List MalValidator) : Nat := (roster.map (·.voting_power.toNat)).sum

def signedPower (roster : List MalValidator) (fp : FatPointerToBftBlock2) : Nat :=
  totalPower (roster.filter fun m => (signers fp).contains m.public_key)

/-- The signatures are votes for `b` by distinct roster members with over two thirds of the stake. -/
structure Quorum (C : Crypto) (roster : List MalValidator) (b : BftBlock)
    (fp : FatPointerToBftBlock2) : Prop where
  valid : ∃ hash tail, b.blake3_hash C = .ok hash ∧ ∀ sig ∈ fp.signatures,
    C.verify sig.public_key sig.vote_signature (voteMessage sig.public_key hash tail) = true
  distinct : (signers fp).Nodup
  members : ∀ key ∈ signers fp, key ∈ roster.map (·.public_key)
  power : 2 * totalPower roster < 3 * signedPower roster fp

/-- The commit checks the signatures and nothing about their keys. -/
theorem quorum_iff_of_accepted (node : Node E) (hbatch : batchExact node.crypto) (fuel : Nat)
    (s s' : TFLServiceInternal) (b : BftBlock) (fp : FatPointerToBftBlock2) (e e' : E)
    (roster : List SortedRosterMember)
    (haccept : new_decided_bft_block_from_malachite node fuel s b fp e = .ok ((s', roster), e')) :
    Quorum node.crypto s.validators_at_current_height b fp ↔ (signers fp).Nodup ∧
        (∀ key ∈ signers fp, key ∈ s.validators_at_current_height.map (·.public_key)) ∧
        2 * totalPower s.validators_at_current_height <
          3 * signedPower s.validators_at_current_height fp := by
  constructor
  · intro h
    exact ⟨h.distinct, h.members, h.power⟩
  · rintro ⟨hdistinct, hmembers, hpower⟩
    obtain ⟨nf, e₁, hcheck, -⟩ := new_decided_leaves _ _ _ _ _ _ _ _ _ haccept
    obtain ⟨hhash, hsig, -⟩ := (check_decided_ok _ _ _ _ _ _ nf.1 nf.2).mp hcheck
    rw [validate_signatures_iff _ hbatch] at hsig
    exact ⟨⟨_, heightRound fp, hhash, hsig⟩, hdistinct, hmembers, hpower⟩

namespace Sample

theorem batchExact_crypto : batchExact crypto := fun _ => rfl

def signedPointer : FatPointerToBftBlock2 :=
  { pointer first with signatures :=
      [{ public_key := id 1
         vote_signature := (id 1).append (pointer first).points_at_block_hash }] }

end Sample

open Sample

theorem quorum_of_signed_first : Quorum crypto start.validators_at_current_height first
      signedPointer :=
  (quorum_iff_of_accepted node batchExact_crypto 1 start
    { afterFirst with fat_pointer_to_tip := signedPointer } first
    signedPointer () () [{ pub_key := Sample.id 1, stake := 1, cumulative_stake := 1 }]
    rfl).mpr (by decide)

/-- A fat pointer without signatures is accepted. -/
theorem no_quorum_of_unsigned_first : batchExact crypto ∧ Reached node start [] start ∧
      (∃ roster, new_decided_bft_block_from_malachite node 1 start first
        (pointer first) () = .ok ((afterFirst, roster), ())) ∧
      ¬ Quorum crypto start.validators_at_current_height first (pointer first) := by
  refine ⟨batchExact_crypto, .start, ⟨_, rfl⟩, fun h => ?_⟩
  exact absurd h.power (by decide)

end ZebraCrosslink
