import Mathlib
import ZebraCrosslink.State.Chains

/-!
# Compact difficulties

A target as a mantissa of 23 bits and a size in bytes. Both directions are stated over the exact value,
`mantissa * 256 ^ size / 256 ^ 3`.
-/

open Rust

namespace ZebraCrosslink

namespace ExpandedDifficulty

/-- `U256::bits`. -/
def bits (n : Nat) : Nat := if n = 0 then 0 else n.log2 + 1

def size (expanded : Nat) : Nat := bits expanded / 8 + 1

def to_compact (expanded : Nat) : Except Abort UInt32 := do
  assertThat (0 < expanded) "Zero difficulty values are invalid"
  let size := size expanded
  let mantissa :=
    if expanded ≤ 0x7fffff then expanded <<< (8 * (3 - size)) else expanded >>> (8 * (size - 3))
  assertThat (size < 31 + 3)
    s!"256^size (256^{size}) must fit in a u256, after the sign bit adjustment and offset"
  assertThat (mantissa ≤ 0x7fffff) s!"mantissa {String.ofList (Nat.toDigits 16 mantissa)} must fit in its compact field"
  if 0 < mantissa then pure (UInt32.ofNat (mantissa + size <<< 24))
  else .error (.panic "converted CompactDifficulty values must be valid")

section

variable {t t' : Nat}

theorem size_eq_iff {s : Nat} (ht : 0 < t) :
    size t = s + 1 ↔ 256 ^ s ≤ 2 * t ∧ 2 * t < 256 ^ (s + 1) := by
  have hlog : (2 * t).log2 = t.log2 + 1 := Nat.log2_two_mul ht.ne'
  rw [show (256 : Nat) = 2 ^ 8 by rfl, ← pow_mul, ← pow_mul, ← Nat.le_log2 (by omega),
    ← Nat.log2_lt (by omega), hlog, size, bits, if_neg ht.ne']
  omega

theorem size_spec (ht : 0 < t) : ∃ s, size t = s + 1 ∧ 256 ^ s ≤ 2 * t ∧ 2 * t < 256 ^ (s + 1) :=
  ⟨bits t / 8, rfl, (size_eq_iff ht).mp rfl⟩

theorem size_mono (ht : 0 < t) (hle : t ≤ t') : size t ≤ size t' := by
  obtain ⟨s, hs, hlow, -⟩ := size_spec ht
  obtain ⟨s', hs', -, hhigh⟩ := size_spec (ht.trans_le hle)
  have := (Nat.pow_lt_pow_iff_right (show 1 < 256 by decide)).mp
    ((hlow.trans (by omega)).trans_lt hhigh : 256 ^ s < 256 ^ (s' + 1))
  omega

theorem size_le (ht : 0 < t) (hlt : t < 2 ^ 256) : size t ≤ 33 := by
  have := size_mono ht (Nat.le_sub_one_of_lt hlt)
  exact this.trans (by decide +kernel)

/-! ## Mantissas -/

def mantissa (t : Nat) : Nat := t * 256 ^ 3 / 256 ^ size t

/-- The mantissa is normalised: it has from 16 to 23 bits. -/
theorem mantissa_bounds (ht : 0 < t) : 2 ^ 15 ≤ mantissa t ∧ mantissa t < 2 ^ 23 := by
  obtain ⟨s, hs, hlow, hhigh⟩ := size_spec ht
  rw [mantissa, hs]
  constructor
  · rw [Nat.le_div_iff_mul_le (by positivity), pow_succ]
    omega
  · rw [Nat.div_lt_iff_lt_mul (by positivity)]
    omega

theorem shifted_eq_mantissa (ht : 0 < t) :
    (if t ≤ 0x7fffff then t <<< (8 * (3 - size t)) else t >>> (8 * (size t - 3))) = mantissa t := by
  obtain ⟨s, hs, hlow, hhigh⟩ := size_spec ht
  have hpow : ∀ k, (2 : Nat) ^ (8 * k) = 256 ^ k := fun k => pow_mul 2 8 k
  rw [mantissa, hs, Nat.shiftLeft_eq, Nat.shiftRight_eq_div_pow, hpow, hpow]
  split
  · next hsmall =>
    have hle : s + 1 ≤ 3 := by
      have := (Nat.pow_lt_pow_iff_right (show 1 < 256 by decide)).mp
        (hlow.trans_lt (by omega) : 256 ^ s < 256 ^ 3)
      omega
    rw [← Nat.sub_add_cancel hle, pow_add, ← mul_assoc, Nat.mul_div_cancel _ (by positivity),
      Nat.sub_add_cancel hle]
  · next hlarge =>
    have hle : 3 ≤ s + 1 := by
      have := (Nat.pow_lt_pow_iff_right (show 1 < 256 by decide)).mp
        ((by omega : 256 ^ 2 < 2 * t).trans hhigh)
      omega
    rw [← Nat.sub_add_cancel hle, Nat.add_sub_cancel, pow_add, Nat.mul_div_mul_right _ _ (by positivity)]

theorem to_compact_eq (ht : 0 < t) (hlt : t < 2 ^ 256) :
    ∃ c, to_compact t = .ok c ∧ c.toNat = mantissa t + size t * 2 ^ 24 := by
  have hsize := size_le ht hlt
  obtain ⟨hlow, hhigh⟩ := mantissa_bounds ht
  refine ⟨UInt32.ofNat (mantissa t + size t <<< 24), ?_, ?_⟩
  · simp only [to_compact, shifted_eq_mantissa ht, assertThat_of _ ht,
      assertThat_of _ (show size t < 31 + 3 by omega),
      assertThat_of _ (show mantissa t ≤ 0x7fffff by omega), if_pos (show 0 < mantissa t by omega)]
    rfl
  · rw [Nat.shiftLeft_eq, UInt32.toNat_ofNat']
    omega

/-- What the compact form of `t` stands for. -/
def rounded (t : Nat) : Nat := mantissa t * 256 ^ size t / 256 ^ 3

theorem rounded_cases (t : Nat) :
    rounded t = t ∨ ∃ k, size t = k + 3 ∧ rounded t = mantissa t * 256 ^ k ∧ mantissa t = t / 256 ^ k := by
  by_cases hle : size t ≤ 3
  · left
    have hexact : mantissa t * 256 ^ size t = t * 256 ^ 3 := by
      rw [mantissa]
      exact Nat.div_mul_cancel ((pow_dvd_pow 256 hle).mul_left t)
    rw [rounded, hexact]
    omega
  · right
    refine ⟨size t - 3, by omega, ?_, ?_⟩
    · rw [rounded, ← Nat.sub_add_cancel (show 3 ≤ size t by omega), pow_add, ← mul_assoc,
        Nat.mul_div_cancel _ (by positivity), Nat.add_sub_cancel]
    · rw [mantissa, ← Nat.sub_add_cancel (show 3 ≤ size t by omega), pow_add, Nat.add_sub_cancel,
        Nat.mul_div_mul_right _ _ (by positivity)]

/-- Rounding loses less than one part in `2 ^ 15`, and is done after one time. -/
theorem rounded_spec (ht : 0 < t) :
    0 < rounded t ∧ rounded t ≤ t ∧ (t - rounded t) * 2 ^ 15 < t ∧ size (rounded t) = size t ∧
      mantissa (rounded t) = mantissa t := by
  rcases rounded_cases t with heq | ⟨k, hk, hround, hm⟩
  · rw [heq]
    exact ⟨ht, le_rfl, by omega, rfl, rfl⟩
  · obtain ⟨hlow, hhigh⟩ := (size_eq_iff (s := k + 2) ht).mp hk
    obtain ⟨hmantissa, -⟩ := mantissa_bounds ht
    have hunit : 0 < 256 ^ k := by positivity
    have hle : rounded t ≤ t := by
      rw [hround, hm]
      exact Nat.div_mul_le_self t _
    have hlost : t - rounded t < 256 ^ k := by
      have := Nat.div_add_mod' t (256 ^ k)
      have := Nat.mod_lt t hunit
      rw [hround, hm]
      omega
    have hbig : 2 ^ 15 * 256 ^ k ≤ rounded t := by
      rw [hround]
      exact Nat.mul_le_mul_right _ hmantissa
    have hpos : 0 < rounded t := by omega
    have hsize : size (rounded t) = k + 3 := (size_eq_iff (s := k + 2) hpos).mpr
      ⟨by rw [pow_add]; omega, by omega⟩
    refine ⟨hpos, hle, by omega, hsize.trans hk.symm, ?_⟩
    rw [mantissa, hsize, hround, pow_add, Nat.mul_div_mul_right _ _ (by positivity),
      Nat.mul_div_cancel _ hunit]

theorem mantissa_mono (hle : t ≤ t') (hsize : size t = size t') : mantissa t ≤ mantissa t' := by
  rw [mantissa, mantissa, hsize]
  exact Nat.div_le_div_right (Nat.mul_le_mul_right _ hle)

theorem rounded_mono (ht : 0 < t) (hle : t ≤ t') : rounded t ≤ rounded t' := by
  rcases (size_mono ht hle).lt_or_eq with hlt | heq
  · obtain ⟨hpos, -, -, hsize, -⟩ := rounded_spec (ht.trans_le hle)
    by_contra hnot
    have := size_mono hpos (Nat.lt_of_not_le hnot).le
    rw [hsize, (rounded_spec ht).2.2.2.1] at this
    omega
  · rw [rounded, rounded, heq]
    exact Nat.div_le_div_right (Nat.mul_le_mul_right _ (mantissa_mono hle heq))

end

end ExpandedDifficulty

namespace CompactDifficulty

/-- The target of the specification, rounded down. -/
def target (mantissa size : Nat) : Nat := mantissa * 256 ^ size / 256 ^ 3

theorem target_of_le {mantissa size : Nat} (h : 3 ≤ size) :
    target mantissa size = mantissa * 256 ^ (size - 3) := by
  rw [target, ← Nat.sub_add_cancel h, pow_add, ← mul_assoc, Nat.mul_div_cancel _ (by positivity),
    Nat.add_sub_cancel]

theorem target_of_lt {mantissa size : Nat} (h : size < 3) :
    target mantissa size = mantissa >>> ((3 - size) * 8) := by
  interval_cases size <;> simp only [target, Nat.shiftRight_eq_div_pow] <;> omega

/-- The sign bit is clear, and the target is positive and fits into 256 bits. -/
structure Stands (bits : UInt32) (expanded : Nat) : Prop where
  positive : bits.toNat / 2 ^ 23 % 2 = 0
  exact : expanded = target (bits.toNat % 2 ^ 23) (bits.toNat / 2 ^ 24)
  nonzero : 0 < expanded
  fits : expanded < 2 ^ 256

theorem to_expanded_eq_some {bits : UInt32} {e : Nat} : to_expanded bits = some e ↔ Stands bits e := by
  have hmantissa : (bits &&& 0x7fffff).toNat = bits.toNat % 2 ^ 23 := by
    rw [UInt32.toNat_and]
    exact Nat.and_two_pow_sub_one_eq_mod _ 23
  have hexponent : (bits >>> 24).toNat = bits.toNat / 2 ^ 24 := by
    rw [UInt32.toNat_shiftRight]
    simp [Nat.shiftRight_eq_div_pow]
  have hsign : bits &&& 0x800000 = 0x800000 ↔ bits.toNat / 2 ^ 23 % 2 = 1 := by
    rw [← UInt32.toNat_inj, UInt32.toNat_and, show (0x800000 : UInt32).toNat = 2 ^ 23 from rfl,
      Nat.and_two_pow, Nat.testBit_eq_decide_div_mod_eq]
    by_cases h : bits.toNat / 2 ^ 23 % 2 = 1 <;> simp
  have hlt : bits.toNat % 2 ^ 23 < 2 ^ 23 := Nat.mod_lt _ (by decide)
  rw [to_expanded, hmantissa, hexponent]
  generalize hm : bits.toNat % 2 ^ 23 = m at hlt
  generalize hx : bits.toNat / 2 ^ 24 = size
  split
  · next hneg =>
    simp only [reduceCtorEq, false_iff]
    intro h
    have := hsign.mp hneg
    have := h.positive
    omega
  · next hpos =>
    have hstands : Stands bits e ↔ e = target m size ∧ 0 < e ∧ e < 2 ^ 256 := by
      rw [← hm, ← hx]
      exact ⟨fun h => ⟨h.exact, h.nonzero, h.fits⟩, fun ⟨hexact, hnonzero, hfits⟩ =>
        ⟨by have := mt hsign.mpr hpos; omega, hexact, hnonzero, hfits⟩⟩
    rw [hstands]
    have hvalue : ∀ v < 2 ^ 256, (if v = 0 then none else some v) = some e ↔
        e = v ∧ 0 < e ∧ e < 2 ^ 256 := by
      intro v hv
      split
      · simp only [reduceCtorEq, false_iff]
        omega
      · rw [Option.some.injEq]
        omega
    dsimp only
    rcases (by omega : size < 3 ∨ 3 ≤ size ∧ size < 33 ∨ size = 33 ∨ size = 34 ∨ 35 ≤ size) with
      hsize | ⟨hlow, hhigh⟩ | rfl | rfl | hsize
    · rw [if_neg (by omega), if_neg (by omega), if_neg (by omega), if_pos (by omega),
        target_of_lt hsize, show ((size : Int) - 3).natAbs = 3 - size by omega, Option.bind_some]
      dsimp only
      rw [pow_zero, mul_one]
      refine hvalue _ ((Nat.shiftRight_le _ _).trans_lt (by omega))
    · rw [if_neg (by omega), if_neg (by omega), if_neg (by omega), if_neg (by omega),
        target_of_le hlow, show ((size : Int) - 3).toNat = size - 3 by omega, Option.bind_some]
      have hpow : 256 ^ (size - 3) ≤ 256 ^ 29 := Nat.pow_le_pow_right (by decide) (by omega)
      have := Nat.mul_le_mul hlt.le hpow
      dsimp only
      exact hvalue _ (by omega)
    · rw [if_neg (by omega), if_neg (by omega), if_pos (by omega), target_of_le (by omega)]
      split
      · simp only [Option.bind_none, reduceCtorEq, false_iff]
        omega
      · rw [Option.bind_some, Nat.shiftLeft_eq]
        dsimp only
        rw [mul_assoc, show 2 ^ 8 * 256 ^ 29 = 256 ^ (33 - 3) by rfl]
        exact hvalue _ (by omega)
    · rw [if_neg (by omega), if_pos (by omega), target_of_le (by omega)]
      split
      · simp only [Option.bind_none, reduceCtorEq, false_iff]
        omega
      · rw [Option.bind_some, Nat.shiftLeft_eq]
        dsimp only
        rw [mul_assoc, show 2 ^ 16 * 256 ^ 29 = 256 ^ (34 - 3) by rfl]
        exact hvalue _ (by omega)
    · have hpow : 256 ^ 32 ≤ 256 ^ (size - 3) := Nat.pow_le_pow_right (by decide) (by omega)
      have hover : m = 0 ∨ 256 ^ 32 ≤ m * 256 ^ (size - 3) :=
        m.eq_zero_or_pos.imp_right fun h => hpow.trans (Nat.le_mul_of_pos_left _ h)
      rw [if_pos (by omega), target_of_le (by omega)]
      simp only [Option.bind_none, reduceCtorEq, false_iff]
      rcases hover with rfl | hover
      · omega
      · omega

theorem to_work_of_expanded {bits : UInt32} {e : Nat} (h : to_expanded bits = some e) :
    to_work bits = if 2 ^ 256 / (e + 1) < 2 ^ 128 then some (2 ^ 256 / (e + 1)) else none := by
  have hlt := (to_expanded_eq_some.mp h).fits
  have hexact : (2 ^ 256 - 1 - e) / (e + 1) + 1 = 2 ^ 256 / (e + 1) := by
    rw [← Nat.add_div_right _ (by omega), show 2 ^ 256 - 1 - e + (e + 1) = 2 ^ 256 by omega]
  rw [to_work, h, ← hexact]
  rfl

end CompactDifficulty

open ExpandedDifficulty CompactDifficulty in
theorem stands_of_compact {t : Nat} (ht : 0 < t) (hlt : t < 2 ^ 256) {c : UInt32}
    (hc : c.toNat = mantissa t + size t * 2 ^ 24) : Stands c (rounded t) := by
  obtain ⟨-, hhigh⟩ := mantissa_bounds ht
  obtain ⟨hpos, hle, -⟩ := rounded_spec ht
  refine ⟨by omega, ?_, hpos, hle.trans_lt hlt⟩
  rw [target, rounded, show c.toNat % 2 ^ 23 = mantissa t by omega,
    show c.toNat / 2 ^ 24 = size t by omega]

open ExpandedDifficulty CompactDifficulty in
theorem compact_difficulty_codec :
    (∀ t, 0 < t → t < 2 ^ 256 → ∃ c e, to_compact t = .ok c ∧ to_expanded c = some e ∧ e ≤ t ∧
      (t - e) * 2 ^ 15 < t ∧ to_compact e = .ok c) ∧
    (∀ t t', 0 < t → t ≤ t' → t' < 2 ^ 256 → ∃ c c' e e', to_compact t = .ok c ∧
      to_compact t' = .ok c' ∧ c ≤ c' ∧ to_expanded c = some e ∧ to_expanded c' = some e' ∧ e ≤ e') ∧
    (∀ bits e, to_expanded bits = some e ↔ Stands bits e) ∧ (∀ bits e, to_expanded bits = some e →
      to_work bits = if 2 ^ 256 / (e + 1) < 2 ^ 128 then some (2 ^ 256 / (e + 1)) else none) ∧
    ∀ bits bits' e e' work work', to_expanded bits = some e → to_expanded bits' = some e' → e ≤ e' →
      to_work bits = some work → to_work bits' = some work' → work' ≤ work := by
  refine ⟨fun t ht hlt => ?_, fun t t' ht hle hlt => ?_, fun bits e => to_expanded_eq_some,
    fun bits e => to_work_of_expanded, ?_⟩
  · obtain ⟨c, hcompact, hc⟩ := to_compact_eq ht hlt
    obtain ⟨hpos, hle, hlost, hsize, hmantissa⟩ := rounded_spec ht
    obtain ⟨c', hcompact', hc'⟩ := to_compact_eq hpos (hle.trans_lt hlt)
    rw [hsize, hmantissa, ← hc, UInt32.toNat_inj] at hc'
    exact ⟨c, rounded t, hcompact, to_expanded_eq_some.mpr (stands_of_compact ht hlt hc), hle, hlost,
      hc' ▸ hcompact'⟩
  · obtain ⟨c, hcompact, hc⟩ := to_compact_eq ht (hle.trans_lt hlt)
    obtain ⟨c', hcompact', hc'⟩ := to_compact_eq (ht.trans_le hle) hlt
    refine ⟨c, c', rounded t, rounded t', hcompact, hcompact', ?_,
      to_expanded_eq_some.mpr (stands_of_compact ht (hle.trans_lt hlt) hc),
      to_expanded_eq_some.mpr (stands_of_compact (ht.trans_le hle) hlt hc'), ?_⟩
    · obtain ⟨-, hhigh⟩ := mantissa_bounds ht
      rw [UInt32.le_iff_toNat_le, hc, hc']
      rcases (size_mono ht hle).lt_or_eq with hlt | heq
      · omega
      · have := mantissa_mono hle heq
        omega
    · exact rounded_mono ht hle
  · intro bits bits' e e' work work' he he' hle hwork hwork'
    rw [to_work_of_expanded he] at hwork
    rw [to_work_of_expanded he'] at hwork'
    have hquotient : 2 ^ 256 / (e' + 1) ≤ 2 ^ 256 / (e + 1) := Nat.div_le_div_left (by omega) (by omega)
    split at hwork
    · split at hwork'
      · cases hwork
        cases hwork'
        exact hquotient
      · cases hwork'
    · cases hwork

end ZebraCrosslink
