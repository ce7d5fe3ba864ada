import ZebraCrosslink.Chain.Header
import ZebraCrosslink.Rust.Codec

/-!
# The wire format of headers

What the readers accept is exactly what the writers give, for the values that the format can hold.
-/

open Rust Reader List

namespace ZebraCrosslink

namespace FatPointerSignature

theorem to_bytes_from_bytes (b : Bytes 96) : (from_bytes b).to_bytes = b := by
  refine Subtype.ext ?_
  have h := b.slice_append_slice 0 32 64 (by omega)
  have hall := b.slice_all
  simp only [to_bytes, from_bytes, Bytes.append, Nat.zero_add] at h ⊢
  rw [h, hall]

theorem from_bytes_to_bytes (s : FatPointerSignature) : from_bytes s.to_bytes = s := by
  rw [to_bytes, from_bytes, Bytes.slice_append_left s.public_key s.vote_signature,
    Bytes.slice_append_right s.public_key s.vote_signature]

theorem read_ok (s s' : List UInt8) (sig : FatPointerSignature) :
    (do let bytes ← exact 96; pure (from_bytes bytes) : Reader FatPointerSignature) s = .ok (sig, s') ↔
      s = sig.to_bytes.val ++ s' := by
  simp only [bind_ok, pure_ok, exact_ok]
  constructor
  · rintro ⟨b, _, rfl, rfl, rfl⟩
    rw [to_bytes_from_bytes]
  · rintro rfl
    exact ⟨sig.to_bytes, s', rfl, (from_bytes_to_bytes sig).symm, rfl⟩

end FatPointerSignature

namespace FatPointerToBftBlock

def CountFits (fp : FatPointerToBftBlock) : Prop := fp.signatures.length < 2 ^ 16

theorem zcash_deserialize_ok {s s' : List UInt8} {fp : FatPointerToBftBlock} :
    zcash_deserialize s = .ok (fp, s') ↔ fp.CountFits ∧ s = fp.zcash_serialize ++ s' := by
  obtain ⟨vote, signatures⟩ := fp
  simp only [zcash_deserialize, bind_ok, pure_ok, exact_ok, u16_ok,
    many_ok FatPointerSignature.read_ok]
  simp only [CountFits, zcash_serialize, FatPointerToBftBlock.mk.injEq, append_assoc]
  constructor
  · rintro ⟨_, _, rfl, len, _, rfl, _, _, ⟨hlength, rfl⟩, ⟨rfl, rfl⟩, rfl⟩
    rw [hlength]
    exact ⟨len.toNat_lt, rfl⟩
  · rintro ⟨hfits, rfl⟩
    have hlen : (UInt16.ofNat signatures.length).toNat = signatures.length :=
      UInt16.toNat_ofNat_of_lt' hfits
    exact ⟨vote, _, rfl, UInt16.ofNat signatures.length, _, by rw [hlen], signatures, s',
      ⟨hlen.symm, rfl⟩, ⟨rfl, rfl⟩, rfl⟩

/-! ### The other decoder -/

def to_bytes (fp : FatPointerToBftBlock) : List UInt8 :=
  fp.vote_for_block_without_finalizer_public_key.val ++ leBytes 2 fp.signatures.length ++
    fp.signatures.flatMap fun s => s.to_bytes.val

/-- The range of the count is written `76 - 32..2`. -/
def try_from_bytes (bytes : List UInt8) : Except Abort (Option FatPointerToBftBlock) :=
  if bytes.length < 76 - 32 + 2 then .ok none
  else do
    let vote ← sliceRange bytes 0 (76 - 32) >>= toArray (76 - 32)
    let len ← sliceRange bytes (76 - 32) 2 >>= toArray 2
    if bytes.length < 76 - 32 + 2 + ofLE len.val * (32 + 64) then .ok none
    else do
      let rem ← sliceRange bytes (76 - 32 + 2) bytes.length
      let chunks ← (chunksExact (32 + 64) rem).mapM (toArray (32 + 64))
      pure (some { vote_for_block_without_finalizer_public_key := vote,
                   signatures := chunks.map FatPointerSignature.from_bytes })

/-- `try_from_bytes` returns, with the fat pointer that `zcash_deserialize` reads from the whole string; and
undoes `to_bytes`. -/
def Decodes (bytes : List UInt8) : Prop :=
  (∃ o, try_from_bytes bytes = .ok o ∧ ∀ fp, o = some fp ↔ zcash_deserialize bytes = .ok (fp, [])) ∧
    ∀ fp : FatPointerToBftBlock, fp.signatures.length ≤ 65535 → fp.to_bytes = bytes →
      try_from_bytes bytes = .ok (some fp)

theorem le_length_to_bytes (fp : FatPointerToBftBlock) : 46 ≤ fp.to_bytes.length := by
  simp only [to_bytes, length_append, fp.vote_for_block_without_finalizer_public_key.property, length_leBytes]
  omega

theorem try_from_bytes_panics {bytes : List UInt8} (h : 46 ≤ bytes.length) :
    try_from_bytes bytes = .error (.panic "slice index starts at 44 but ends at 2") := by
  have hvote : sliceRange bytes 0 (76 - 32) >>= toArray (76 - 32) =
      .ok ⟨bytes.take 44, length_take_of_le (by omega)⟩ := by
    have hslice : sliceRange bytes 0 (76 - 32) = .ok (bytes.take 44) := by
      unfold sliceRange
      rw [if_neg (by omega), if_neg (by omega)]
      rfl
    rw [hslice]
    exact dif_pos _
  rw [try_from_bytes, if_neg (by omega), hvote]
  rfl

/-- The two decoders agree on strings that are too short for a fat pointer, and on no others. -/
theorem try_from_bytes_decodes_iff (bytes : List UInt8) : Decodes bytes ↔ bytes.length < 46 := by
  constructor
  · rintro ⟨⟨o, ho, -⟩, -⟩
    by_contra hlong
    rw [try_from_bytes_panics (by omega)] at ho
    cases ho
  · intro hshort
    refine ⟨⟨none, if_pos hshort, fun fp => ⟨nofun, fun h => ?_⟩⟩, fun fp _ h => ?_⟩
    · have hbytes := (zcash_deserialize_ok.mp h).2
      have hlong := le_length_to_bytes fp
      rw [append_nil] at hbytes
      rw [hbytes] at hshort
      exact absurd hshort (by exact not_lt.mpr hlong)
    · have hlong := le_length_to_bytes fp
      rw [h] at hlong
      omega

/-- The bytes of the null fat pointer: `zcash_deserialize` reads it back, `try_from_bytes` panics. -/
theorem try_from_bytes_null_panics :
    zcash_deserialize null.to_bytes = .ok (null, []) ∧
      try_from_bytes null.to_bytes = .error (.panic "slice index starts at 44 but ends at 2") ∧
      ¬ Decodes null.to_bytes := by
  refine ⟨by decide, by rfl, ?_⟩
  rintro ⟨⟨o, ho, -⟩, -⟩
  cases ho

end FatPointerToBftBlock

open FatPointerToBftBlock

/-! ## Compact sizes -/

namespace CompactSize64

theorem leBytes_one (b : UInt8) : leBytes 1 b.toNat = [b] := by
  simp [leBytes]

variable {s s' : List UInt8}

theorem ite_fail_ok {α : Type} {c : Prop} [Decidable c] {a b : α} {msg : String} :
    (if c then pure a else fail msg : Reader α) s = .ok (b, s') ↔ c ∧ b = a ∧ s' = s := by
  split
  · rename_i hc
    rw [pure_ok]
    simp [hc]
  · rename_i hc
    simp [fail, hc]

theorem flag_ff {flag : UInt8} (hfc : ¬ flag ≤ 0xfc) (hfd : flag ≠ 0xfd) (hfe : flag ≠ 0xfe) : flag = 0xff := by
  rw [UInt8.le_iff_toNat_le] at hfc
  rw [ne_eq, ← UInt8.toNat_inj] at hfd hfe
  rw [← UInt8.toNat_inj]
  have := flag.toNat_lt
  simp only [UInt8.reduceToNat] at *
  omega

theorem read_size_ok {flag : UInt8} {n : Nat} :
    read_size flag s = .ok (n, s') ↔ n < 2 ^ 64 ∧ flag :: s = zcash_serialize n ++ s' := by
  constructor
  · intro h
    unfold read_size at h
    split at h
    · rename_i hflag
      obtain ⟨rfl, rfl⟩ := (pure_ok ..).mp h
      have hle : flag.toNat ≤ 0xfc := hflag
      rw [zcash_serialize, if_pos hle, leBytes_one]
      exact ⟨by omega, rfl⟩
    · split at h
      · rename_i hflag
        simp only [bind_ok, ite_fail_ok, u16_ok] at h
        obtain ⟨v, _, rfl, hv, rfl, rfl⟩ := h
        have hlow : 0xfd ≤ v.toNat := hv
        have hhigh := v.toNat_lt
        rw [zcash_serialize, if_neg (by omega), if_pos (by omega), hflag]
        exact ⟨by omega, rfl⟩
      · split at h
        · rename_i hflag
          simp only [bind_ok, ite_fail_ok, u32_ok] at h
          obtain ⟨v, _, rfl, hv, rfl, rfl⟩ := h
          have hlow : 0x10000 ≤ v.toNat := hv
          have hhigh := v.toNat_lt
          rw [zcash_serialize, if_neg (by omega), if_neg (by omega), if_pos (by omega), hflag]
          exact ⟨by omega, rfl⟩
        · rename_i hfc hfd hfe
          simp only [bind_ok, ite_fail_ok, u64_ok] at h
          obtain ⟨v, _, rfl, hv, rfl, rfl⟩ := h
          have hlow : 0x100000000 ≤ v.toNat := hv
          have hflag : flag = 0xff := flag_ff hfc hfd hfe
          rw [zcash_serialize, if_neg (by omega), if_neg (by omega), if_neg (by omega), hflag]
          exact ⟨v.toNat_lt, rfl⟩
  · rintro ⟨hn, heq⟩
    unfold zcash_serialize at heq
    split at heq
    · rename_i hle
      obtain ⟨rfl, rfl⟩ := cons.inj heq
      have hflag : (UInt8.ofNat n).toNat = n := UInt8.toNat_ofNat_of_lt' (by simp only [UInt8.size]; omega)
      rw [read_size, if_pos (UInt8.le_iff_toNat_le.mpr (by rw [hflag]; exact hle)), pure_ok, hflag]
      exact ⟨rfl, rfl⟩
    · split at heq
      · obtain ⟨rfl, rfl⟩ := cons.inj heq
        have hv : (UInt16.ofNat n).toNat = n := UInt16.toNat_ofNat_of_lt' (by simp only [UInt16.size]; omega)
        rw [read_size, if_neg (by decide), if_pos rfl]
        simp only [bind_ok, ite_fail_ok, u16_ok]
        exact ⟨UInt16.ofNat n, s', by rw [hv]; rfl, UInt16.le_iff_toNat_le.mpr (by rw [hv]; simp; omega), hv.symm, rfl⟩
      · split at heq
        · obtain ⟨rfl, rfl⟩ := cons.inj heq
          have hv : (UInt32.ofNat n).toNat = n := UInt32.toNat_ofNat_of_lt' (by simp only [UInt32.size]; omega)
          rw [read_size, if_neg (by decide), if_neg (by decide), if_pos rfl]
          simp only [bind_ok, ite_fail_ok, u32_ok]
          exact ⟨UInt32.ofNat n, s', by rw [hv]; rfl, UInt32.le_iff_toNat_le.mpr (by rw [hv]; simp; omega), hv.symm, rfl⟩
        · obtain ⟨rfl, rfl⟩ := cons.inj heq
          have hv : (UInt64.ofNat n).toNat = n := UInt64.toNat_ofNat_of_lt' hn
          rw [read_size, if_neg (by decide), if_neg (by decide), if_neg (by decide)]
          simp only [bind_ok, ite_fail_ok, u64_ok]
          exact ⟨UInt64.ofNat n, s', by rw [hv]; rfl, UInt64.le_iff_toNat_le.mpr (by rw [hv]; simp; omega), hv.symm, rfl⟩

theorem zcash_deserialize_ok {n : Nat} :
    zcash_deserialize s = .ok (n, s') ↔ n < 2 ^ 64 ∧ s = zcash_serialize n ++ s' := by
  simp only [zcash_deserialize, bind_ok, u8_ok, leBytes_one, read_size_ok]
  constructor
  · rintro ⟨flag, _, rfl, hn, heq⟩
    exact ⟨hn, heq⟩
  · rintro ⟨hn, rfl⟩
    have hne : zcash_serialize n ≠ [] := by
      unfold zcash_serialize
      repeat' split
      all_goals simp [leBytes]
    obtain ⟨flag, rest, heq⟩ := exists_cons_of_ne_nil hne
    exact ⟨flag, rest ++ s', by rw [heq]; rfl, hn, by rw [heq]; rfl⟩

end CompactSize64

variable {s s' : List UInt8}

theorem CompactSizeMessage.zcash_deserialize_ok {n : Nat} :
    CompactSizeMessage.zcash_deserialize s = .ok (n, s') ↔
      n ≤ MAX_PROTOCOL_MESSAGE_LEN ∧ s = CompactSize64.zcash_serialize n ++ s' := by
  simp only [CompactSizeMessage.zcash_deserialize, bind_ok, CompactSize64.zcash_deserialize_ok]
  have hmax : MAX_PROTOCOL_MESSAGE_LEN < 2 ^ 32 := by decide
  constructor
  · rintro ⟨size, s₁, ⟨-, rfl⟩, h⟩
    split at h
    · cases h
    · split at h
      · cases h
      · obtain ⟨rfl, rfl⟩ := (pure_ok ..).mp h
        exact ⟨by omega, rfl⟩
  · rintro ⟨hle, rfl⟩
    refine ⟨n, s', ⟨by omega, rfl⟩, ?_⟩
    rw [if_neg (by omega), if_neg (by omega)]
    rfl

theorem bytes_zcash_deserialize_ok {bytes : List UInt8} :
    bytes_zcash_deserialize s = .ok (bytes, s') ↔
      bytes.length ≤ MAX_U8_ALLOCATION ∧ s = CompactSize64.zcash_serialize bytes.length ++ bytes ++ s' := by
  simp only [bytes_zcash_deserialize, bind_ok, CompactSizeMessage.zcash_deserialize_ok]
  have hmax : MAX_U8_ALLOCATION ≤ MAX_PROTOCOL_MESSAGE_LEN := by decide
  constructor
  · rintro ⟨n, s₁, ⟨-, rfl⟩, h⟩
    split at h
    · cases h
    · simp only [bind_ok, pure_ok, exact_ok] at h
      obtain ⟨b, _, rfl, rfl, rfl⟩ := h
      rw [b.2, append_assoc]
      exact ⟨by omega, rfl⟩
  · rintro ⟨hle, rfl⟩
    refine ⟨bytes.length, bytes ++ s', ⟨by omega, append_assoc ..⟩, ?_⟩
    rw [if_neg (by omega)]
    simp only [bind_ok, pure_ok, exact_ok]
    exact ⟨⟨bytes, rfl⟩, s', rfl, rfl, rfl⟩

namespace Solution

theorem from_bytes_ok {bytes : List UInt8} {sol : Solution} :
    from_bytes bytes = .ok sol ↔ sol.value = bytes := by
  unfold from_bytes
  constructor
  · intro h
    split at h
    · cases h
      rfl
    · split at h
      · cases h
        rfl
      · cases h
  · rintro rfl
    cases sol with
    | Common b => exact dif_pos b.2
    | Regtest b => simp [value, b.2]

theorem zcash_deserialize_ok {sol : Solution} :
    zcash_deserialize s = .ok (sol, s') ↔ s = sol.zcash_serialize ++ s' := by
  have hlength : sol.value.length ≤ MAX_U8_ALLOCATION := by
    cases sol with
    | Common b => simp only [value, b.2]; decide
    | Regtest b => simp only [value, b.2]; decide
  simp only [zcash_deserialize, bind_ok, bytes_zcash_deserialize_ok, zcash_serialize]
  constructor
  · rintro ⟨bytes, s₁, ⟨-, rfl⟩, h⟩
    cases hsol : from_bytes bytes with
    | error err =>
      rw [hsol] at h
      cases h
    | ok r =>
      rw [hsol] at h
      cases h
      rw [from_bytes_ok.mp hsol]
  · rintro rfl
    refine ⟨sol.value, s', ⟨hlength, rfl⟩, ?_⟩
    rw [from_bytes_ok.mpr rfl]
    rfl

end Solution

/-! ## Headers -/

namespace Header

def PointerFits (h : Header) : Prop :=
  if 5 ≤ logical_version h.version then h.fat_pointer_to_bft_block.CountFits
  else h.fat_pointer_to_bft_block = FatPointerToBftBlock.null

def bytes (h : Header) : List UInt8 :=
  leBytes 4 h.version.toNat ++ h.previous_block_hash.val ++ h.merkle_root.val ++ h.commitment_bytes.val ++
    leBytes 4 h.time.toNat ++ leBytes 4 h.difficulty_threshold.toNat ++ h.nonce.val ++
    h.solution.zcash_serialize ++
    if 5 ≤ logical_version h.version then h.fat_pointer_to_bft_block.zcash_serialize else []

theorem zcash_serialize_ok {h : Header} {out : List UInt8} :
    h.zcash_serialize = .ok out ↔ check_version h.version = .ok () ∧ out = h.bytes := by
  unfold zcash_serialize
  rw [except_bind_ok]
  constructor
  · rintro ⟨_, hv, heq⟩
    cases heq
    exact ⟨hv, rfl⟩
  · rintro ⟨hv, rfl⟩
    exact ⟨(), hv, rfl⟩

theorem fat_pointer_zcash_deserialize_ok {version : UInt32} {fp : FatPointerToBftBlock} :
    fat_pointer_zcash_deserialize version s = .ok (fp, s') ↔
      (if 5 ≤ logical_version version then fp.CountFits else fp = null) ∧
        s = (if 5 ≤ logical_version version then fp.zcash_serialize else []) ++ s' := by
  unfold fat_pointer_zcash_deserialize
  split
  · exact zcash_deserialize_ok
  · rw [pure_ok, nil_append, eq_comm (a := s')]

theorem zcash_deserialize_ok {h : Header} : zcash_deserialize s = .ok (h, s') ↔
      h.PointerFits ∧ check_version h.version = .ok () ∧ s = h.bytes ++ s' := by
  constructor
  · intro hd
    have hv := check_version_of_zcash_deserialize s s' h hd
    rw [zcash_deserialize, bind_ok] at hd
    obtain ⟨version, s₁, hs₁, hd⟩ := hd
    cases hversion : check_version version with
    | error msg =>
      rw [hversion] at hd
      cases hd
    | ok u =>
      rw [hversion] at hd
      simp only [bind_ok, pure_ok, exact_ok, u32_ok, Solution.zcash_deserialize_ok,
        fat_pointer_zcash_deserialize_ok] at hd hs₁
      obtain ⟨_, _, rfl, _, _, rfl, _, _, rfl, _, _, rfl, _, _, rfl, _, _, rfl, _, _, rfl, _, _, ⟨hfits, rfl⟩,
        rfl, rfl⟩ := hd
      refine ⟨hfits, hv, ?_⟩
      rw [hs₁]
      simp only [bytes, append_assoc]
  · rintro ⟨hfits, hv, rfl⟩
    rw [zcash_deserialize, bind_ok]
    refine ⟨h.version, _, u32_ok.mpr (by simp only [bytes, append_assoc]; rfl), ?_⟩
    rw [hv]
    simp only [bind_ok, pure_ok, exact_ok, u32_ok, Solution.zcash_deserialize_ok,
      fat_pointer_zcash_deserialize_ok]
    exact ⟨_, _, rfl, _, _, rfl, _, _, rfl, _, _, rfl, _, _, rfl, _, _, rfl, _, _, rfl, _, _, ⟨hfits, rfl⟩,
      rfl, rfl⟩

end Header

end ZebraCrosslink
