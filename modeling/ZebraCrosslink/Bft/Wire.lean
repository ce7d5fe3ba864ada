import ZebraCrosslink.Bft.Block
import ZebraCrosslink.Chain.Wire

/-!
# The wire format of BFT blocks

The writers keep only what the format can hold, and the writer of a block with its fat pointer drops
the error of the block.
-/

open Rust List Bytes Reader

namespace ZebraCrosslink

structure BftBlockAndFatPointerToIt where
  block : BftBlock
  fat_ptr : FatPointerToBftBlock2
  deriving DecidableEq

namespace BftBlock

def front (b : BftBlock) : List UInt8 :=
  leBytes 4 b.version.toNat ++ leBytes 4 b.height.toNat ++ b.previous_block_fat_ptr.zcash_serialize ++
    leBytes 4 b.finalization_candidate_height.toNat ++ leBytes 4 b.headers.length

def writtenHeaders : List Header → List UInt8
  | [] => []
  | header :: rest =>
    match header.zcash_serialize with
    | .ok bytes => bytes ++ writtenHeaders rest
    | .error _ => []

/-- The bytes that `zcash_serialize` has written when it returns, with or without an error. -/
def written (b : BftBlock) : List UInt8 := b.front ++ writtenHeaders b.headers

end BftBlock

open BftBlock

namespace BftBlockAndFatPointerToIt

/-- The results of both writers are dropped. -/
def zcash_serialize (b : BftBlockAndFatPointerToIt) : Except Abort (Except String (List UInt8)) := do
  let _ ← b.block.zcash_serialize
  pure (.ok (b.block.written ++ b.fat_ptr.zcash_serialize))

def zcash_deserialize : Reader BftBlockAndFatPointerToIt := do
  let block ← BftBlock.zcash_deserialize
  let fat_ptr ← FatPointerToBftBlock.zcash_deserialize
  pure { block, fat_ptr }

end BftBlockAndFatPointerToIt

open BftBlockAndFatPointerToIt

/-! ## Blocks -/

namespace BftBlock

variable {b : BftBlock} {s s' out : List UInt8} {headers : List Header}

def VersionsValid (b : BftBlock) : Prop := ∀ h ∈ b.headers, check_version h.version = .ok ()

structure Fits (b : BftBlock) : Prop where
  pointer : b.previous_block_fat_ptr.CountFits
  count : b.headers.length ≤ 2048
  headers : ∀ h ∈ b.headers, h.PointerFits

theorem mapM_zcash_serialize_ok {outs : List (List UInt8)} :
    headers.mapM Header.zcash_serialize = .ok outs ↔
      (∀ h ∈ headers, check_version h.version = .ok ()) ∧ outs = headers.map Header.bytes := by
  induction headers generalizing outs with
  | nil => simp [pure, Except.pure, eq_comm]
  | cons h rest ih =>
    simp only [mapM_cons, except_bind_ok, Header.zcash_serialize_ok, ih, forall_mem_cons, map_cons]
    constructor
    · rintro ⟨_, ⟨hv, rfl⟩, _, ⟨hrest, rfl⟩, heq⟩
      cases heq
      exact ⟨⟨hv, hrest⟩, rfl⟩
    · rintro ⟨⟨hv, hrest⟩, rfl⟩
      exact ⟨_, ⟨hv, rfl⟩, _, ⟨hrest, rfl⟩, rfl⟩

theorem zcash_serialize_ok : b.zcash_serialize = .ok (.ok out) ↔
      b.headers.length < 2 ^ 32 ∧ b.VersionsValid ∧ out = b.front ++ b.headers.flatMap Header.bytes := by
  unfold zcash_serialize
  split
  · rename_i hlength
    simp only [reduceCtorEq, false_iff]
    omega
  · rename_i hlength
    rw [Except.ok.injEq, except_bind_ok]
    simp only [mapM_zcash_serialize_ok]
    constructor
    · rintro ⟨_, ⟨hversions, rfl⟩, heq⟩
      cases heq
      refine ⟨by omega, hversions, ?_⟩
      rw [front, flatMap_def]
    · rintro ⟨-, hversions, rfl⟩
      refine ⟨_, ⟨hversions, rfl⟩, ?_⟩
      rw [front, flatMap_def]
      rfl

theorem zcash_serialize_error :
    (∃ err, b.zcash_serialize = .ok (.error err)) ↔ b.headers.length < 2 ^ 32 ∧ ¬ b.VersionsValid := by
  by_cases hlength : b.headers.length < 2 ^ 32
  · by_cases hversions : b.VersionsValid
    · have hok := zcash_serialize_ok.mpr ⟨hlength, hversions, rfl⟩
      simp [hok, hversions]
    · have hne : ∀ out, b.zcash_serialize ≠ .ok (.ok out) := fun out h =>
        hversions (zcash_serialize_ok.mp h).2.1
      have hlarge : ¬ 2 ^ 32 ≤ b.headers.length := by omega
      simp only [hlength, hversions, not_false_eq_true, and_self, iff_true]
      unfold zcash_serialize at hne ⊢
      rw [if_neg hlarge] at hne ⊢
      generalize (do
        let headers ← b.headers.mapM Header.zcash_serialize
        pure _ : Except String (List UInt8)) = x at hne ⊢
      cases x with
      | ok out => exact absurd rfl (hne out)
      | error err => exact ⟨err, rfl⟩
  · have herr : b.zcash_serialize = .error (.expect "unwrap") := if_pos (by omega)
    simp only [herr, reduceCtorEq, exists_false, hlength, false_and]

theorem zcash_deserialize_ok : zcash_deserialize s = .ok (b, s') ↔
      b.Fits ∧ b.VersionsValid ∧ s = b.front ++ b.headers.flatMap Header.bytes ++ s' := by
  obtain ⟨version, height, pointer, candidate, headers⟩ := b
  simp only [zcash_deserialize, bind_ok, u32_ok, FatPointerToBftBlock.zcash_deserialize_ok]
  constructor
  · rintro ⟨_, _, rfl, _, _, rfl, _, _, ⟨hpointer, rfl⟩, _, _, rfl, count, _, rfl, h⟩
    split at h
    · cases h
    · rename_i hcount
      simp only [bind_ok, pure_ok, many_ok_of fun s s' a => Header.zcash_deserialize_ok.trans
        and_assoc.symm] at h
      obtain ⟨_, _, ⟨hlength, hheaders, rfl⟩, heq, rfl⟩ := h
      cases heq
      have hle : count.toNat ≤ 2048 := by simpa [UInt32.lt_iff_toNat_lt] using hcount
      refine ⟨⟨hpointer, hlength ▸ hle, fun h hh => (hheaders h hh).1⟩, fun h hh => (hheaders h hh).2, ?_⟩
      simp [front, hlength]
  · rintro ⟨⟨hpointer, hcount, hheaders⟩, hversions, rfl⟩
    have hle : headers.length ≤ 2048 := hcount
    have hlen : (UInt32.ofNat headers.length).toNat = headers.length :=
      UInt32.toNat_ofNat_of_lt' (by simp only [UInt32.size]; omega)
    refine ⟨version, _, by simp only [front, append_assoc]; rfl, height, _, rfl, pointer, _,
      ⟨hpointer, rfl⟩, candidate, _, rfl, UInt32.ofNat headers.length, _, by rw [hlen], ?_⟩
    rw [if_neg (by rw [UInt32.lt_iff_toNat_lt, hlen]; simpa using hle)]
    simp only [bind_ok, pure_ok, many_ok_of fun s s' a => Header.zcash_deserialize_ok.trans
        and_assoc.symm]
    exact ⟨headers, s', ⟨hlen.symm, fun h hh => ⟨hheaders h hh, hversions h hh⟩, rfl⟩, rfl, rfl⟩

theorem writtenHeaders_eq (h : ∀ h ∈ headers, check_version h.version = .ok ()) :
    writtenHeaders headers = headers.flatMap Header.bytes := by
  induction headers with
  | nil => rfl
  | cons header rest ih =>
    rw [forall_mem_cons] at h
    rw [writtenHeaders, Header.zcash_serialize_ok.mpr ⟨h.1, rfl⟩, flatMap_cons, ih h.2]

end BftBlock

namespace BftBlockAndFatPointerToIt

variable {b : BftBlockAndFatPointerToIt} {s s' out : List UInt8}

theorem zcash_serialize_ok : b.zcash_serialize = .ok (.ok out) ↔
      b.block.headers.length < 2 ^ 32 ∧ out = b.block.written ++ b.fat_ptr.zcash_serialize := by
  unfold zcash_serialize
  by_cases hlength : 2 ^ 32 ≤ b.block.headers.length
  · have herr : b.block.zcash_serialize = .error (.expect "unwrap") := if_pos hlength
    rw [herr]
    constructor
    · intro h
      cases h
    · intro h
      omega
  · rw [BftBlock.zcash_serialize, if_neg hlength]
    constructor
    · intro h
      cases h
      exact ⟨by omega, rfl⟩
    · rintro ⟨-, rfl⟩
      rfl

theorem zcash_deserialize_ok : zcash_deserialize s = .ok (b, s') ↔
      b.block.Fits ∧ b.block.VersionsValid ∧ b.fat_ptr.CountFits ∧
        s = b.block.front ++ b.block.headers.flatMap Header.bytes ++ b.fat_ptr.zcash_serialize ++ s' := by
  obtain ⟨block, fat_ptr⟩ := b
  simp only [zcash_deserialize, bind_ok, pure_ok, zcash_deserialize_ok,
    FatPointerToBftBlock.zcash_deserialize_ok]
  constructor
  · rintro ⟨_, _, ⟨hfits, hversions, rfl⟩, _, _, ⟨hcount, rfl⟩, heq, rfl⟩
    cases heq
    exact ⟨hfits, hversions, hcount, (append_assoc ..).symm⟩
  · rintro ⟨hfits, hversions, hcount, rfl⟩
    exact ⟨block, _, ⟨hfits, hversions, append_assoc ..⟩, fat_ptr, s', ⟨hcount, rfl⟩, rfl, rfl⟩

end BftBlockAndFatPointerToIt

/-! ## What a codec should do -/

/-- The value is written so that it is read back, whatever follows. -/
def RoundTrips {α : Type} (write : Except Abort (Except String (List UInt8))) (read : Reader α) (a : α) : Prop :=
  ∃ bytes, write = .ok (.ok bytes) ∧ ∀ tail, read (bytes ++ tail) = .ok (a, tail)

/-- A value of the domain round-trips, and for any other value the writer returns an error. -/
structure CodecExact {α : Type} (write : Except Abort (Except String (List UInt8))) (read : Reader α) (a : α)
    (domain : Prop) : Prop where
  inside : domain → RoundTrips write read a
  outside : ¬ domain → ∃ err, write = .ok (.error err)

/-- At most 2048 headers with valid versions, and no fat pointer with too many signatures. -/
structure BftBlock.Serializable (b : BftBlock) : Prop where
  count : b.headers.length ≤ 2048
  versions : b.VersionsValid
  pointer : b.previous_block_fat_ptr.CountFits
  pointers : ∀ h ∈ b.headers, h.fat_pointer_to_bft_block.CountFits

theorem Header.PointerFits.countFits {h : Header} (hfits : h.PointerFits) :
    h.fat_pointer_to_bft_block.CountFits := by
  unfold PointerFits at hfits
  split at hfits
  · exact hfits
  · rw [hfits]
    exact Nat.two_pow_pos 16

theorem BftBlock.Fits.serializable {b : BftBlock} (h : b.Fits) (hversions : b.VersionsValid) :
    b.Serializable :=
  ⟨h.count, hversions, h.pointer, fun header hh => (h.headers header hh).countFits⟩

theorem FatPointerToBftBlock.roundTrips_iff {fp : FatPointerToBftBlock2} :
    RoundTrips (.ok (.ok fp.zcash_serialize)) FatPointerToBftBlock.zcash_deserialize fp ↔ fp.CountFits := by
  constructor
  · rintro ⟨bytes, heq, hread⟩
    exact (FatPointerToBftBlock.zcash_deserialize_ok.mp (hread [])).1
  · intro h
    exact ⟨_, rfl, fun tail => FatPointerToBftBlock.zcash_deserialize_ok.mpr ⟨h, rfl⟩⟩

theorem BftBlock.roundTrips_iff {b : BftBlock} :
    RoundTrips b.zcash_serialize zcash_deserialize b ↔ b.Fits ∧ b.VersionsValid := by
  constructor
  · rintro ⟨bytes, -, hread⟩
    obtain ⟨hfits, hversions, -⟩ := zcash_deserialize_ok.mp (hread [])
    exact ⟨hfits, hversions⟩
  · rintro ⟨hfits, hversions⟩
    have hcount := hfits.count
    exact ⟨_, zcash_serialize_ok.mpr ⟨by omega, hversions, rfl⟩,
      fun tail => zcash_deserialize_ok.mpr ⟨hfits, hversions, rfl⟩⟩

theorem BftBlockAndFatPointerToIt.roundTrips_iff {b : BftBlockAndFatPointerToIt} :
    RoundTrips b.zcash_serialize zcash_deserialize b ↔
      b.block.Fits ∧ b.block.VersionsValid ∧ b.fat_ptr.CountFits := by
  constructor
  · rintro ⟨bytes, -, hread⟩
    obtain ⟨hfits, hversions, hcount, -⟩ := zcash_deserialize_ok.mp (hread [])
    exact ⟨hfits, hversions, hcount⟩
  · rintro ⟨hfits, hversions, hcount⟩
    have hlength := hfits.count
    refine ⟨_, zcash_serialize_ok.mpr ⟨by omega, rfl⟩, fun tail => ?_⟩
    refine zcash_deserialize_ok.mpr ⟨hfits, hversions, hcount, ?_⟩
    rw [written, writtenHeaders_eq hversions]

theorem bft_wire_codec_iff (fp : FatPointerToBftBlock2) (b : BftBlock) (bp : BftBlockAndFatPointerToIt)
    (s s' : List UInt8) :
    (CodecExact (.ok (.ok fp.zcash_serialize)) FatPointerToBftBlock.zcash_deserialize fp fp.CountFits ↔
        fp.CountFits) ∧ (CodecExact b.zcash_serialize BftBlock.zcash_deserialize b b.Serializable ↔
        b.headers.length < 2 ^ 32 ∧ ¬ b.VersionsValid ∨ b.Fits ∧ b.VersionsValid) ∧
      (CodecExact bp.zcash_serialize BftBlockAndFatPointerToIt.zcash_deserialize bp
          (bp.block.Serializable ∧ bp.fat_ptr.CountFits) ↔
        bp.block.Fits ∧ bp.block.VersionsValid ∧ bp.fat_ptr.CountFits) ∧
      (FatPointerToBftBlock.zcash_deserialize s = .ok (fp, s') → s = fp.zcash_serialize ++ s') ∧
      (BftBlock.zcash_deserialize s = .ok (b, s') →
        ∃ bytes, b.zcash_serialize = .ok (.ok bytes) ∧ s = bytes ++ s') ∧
      (BftBlockAndFatPointerToIt.zcash_deserialize s = .ok (bp, s') →
        ∃ bytes, bp.zcash_serialize = .ok (.ok bytes) ∧ s = bytes ++ s') := by
  refine ⟨⟨fun h => ?_, fun h => ⟨fun _ => FatPointerToBftBlock.roundTrips_iff.mpr h,
      fun hn => absurd h hn⟩⟩, ⟨fun h => ?_, ?_⟩, ⟨fun h => ?_, fun h => ?_⟩,
    fun h => (FatPointerToBftBlock.zcash_deserialize_ok.mp h).2, fun h => ?_, fun h => ?_⟩
  · by_contra hn
    obtain ⟨err, herr⟩ := h.outside hn
    cases herr
  · by_cases hdomain : b.Serializable
    · exact .inr (roundTrips_iff.mp (h.inside hdomain))
    · exact .inl (zcash_serialize_error.mp (h.outside hdomain))
  · rintro (hbad | hgood)
    · exact ⟨fun hdomain => absurd hdomain.versions hbad.2, fun _ => zcash_serialize_error.mpr hbad⟩
    · exact ⟨fun _ => roundTrips_iff.mpr hgood, fun hn => absurd (hgood.1.serializable hgood.2) hn⟩
  · by_cases hdomain : bp.block.Serializable ∧ bp.fat_ptr.CountFits
    · exact roundTrips_iff.mp (h.inside hdomain)
    · -- the writer never returns an error
      obtain ⟨err, herr⟩ := h.outside hdomain
      rw [BftBlockAndFatPointerToIt.zcash_serialize, except_bind_ok] at herr
      obtain ⟨_, -, herr⟩ := herr
      cases herr
  · exact ⟨fun _ => roundTrips_iff.mpr h, fun hn => absurd ⟨h.1.serializable h.2.1, h.2.2⟩ hn⟩
  · obtain ⟨hfits, hversions, rfl⟩ := zcash_deserialize_ok.mp h
    have hlength := hfits.count
    exact ⟨_, zcash_serialize_ok.mpr ⟨by omega, hversions, rfl⟩, rfl⟩
  · obtain ⟨hfits, hversions, -, rfl⟩ := zcash_deserialize_ok.mp h
    have hlength := hfits.count
    refine ⟨_, zcash_serialize_ok.mpr ⟨by omega, rfl⟩, ?_⟩
    rw [written, writtenHeaders_eq hversions]

namespace Sample

def versionThree : Header := { Header.blank (zero 32) (zero 32) 0 with version := 3 }

def versionThreeBlock : BftBlockAndFatPointerToIt where
  block := ⟨1, 1, .null, 0, [versionThree]⟩
  fat_ptr := .null

end Sample

/-- The error of the header is dropped, and the bytes do not decode. -/
theorem header_error_dropped : ∃ bytes, Sample.versionThreeBlock.zcash_serialize = .ok (.ok bytes) ∧
    BftBlockAndFatPointerToIt.zcash_deserialize bytes = .error (.parse "version must be at least 4") :=
  ⟨_, rfl, by decide⟩

end ZebraCrosslink
