import ZebraCrosslink.Rpc.Proposal

/-!
# Heights in coinbase data

The data of a coinbase input starts with the height of its block. Only the genesis block has none.
-/

open Rust List

namespace ZebraCrosslink

namespace get_block_template

/-- The branch for a height of `n` bytes, if the most significant byte is below `0x80`. -/
def read_height (n low high : Nat) (data : List UInt8) : Option (Except String (Nat × List UInt8)) :=
  if n + 1 ≤ data.length ∧ data.getD n 0 < 0x80 then
    let h := ofLE ((data.drop 1).take n)
    some (if low ≤ h ∧ h < high then .ok (h, data.drop (n + 1)) else .error "Invalid block height")
  else none

def parse_coinbase_height (data : List UInt8) : Except String (Nat × List UInt8) :=
  let unknown := .error "Could not parse BIP34 height in coinbase data"
  match data with
  | [] => unknown
  | op_n :: rest =>
    if 0x51 ≤ op_n ∧ op_n ≤ 0x60 then .ok (op_n.toNat - 0x50, rest)
    else if op_n = 0x01 then (read_height 1 17 128 data).getD unknown
    else if op_n = 0x02 then (read_height 2 128 32768 data).getD unknown
    else if op_n = 0x03 then (read_height 3 32768 8388608 data).getD unknown
    else if op_n = 0x04 then
      if data = GENESIS_COINBASE_DATA then .ok (0, data)
      else (read_height 4 8388608 (Height.MAX + 1) data).getD unknown
    else unknown

/-- The heights that take `n` bytes, for every `n`. -/
def sizes : List (Nat × Nat × Nat) :=
  [(1, 17, 128), (2, 128, 32768), (3, 32768, 8388608), (4, 8388608, Height.MAX + 1)]

theorem sizes_spec : ∀ e ∈ sizes, 0 < e.1 ∧ e.1 ≤ 4 ∧ 0 < e.2.1 ∧ e.2.2 ≤ 128 * 256 ^ (e.1 - 1) ∧
    ∀ m < e.1, 0 < m → 128 * 256 ^ (m - 1) ≤ e.2.1 := by decide

variable {n low high h : Nat} {data rest : List UInt8}

theorem last_leBytes {k : Nat} (hh : h < 128 * 256 ^ k) :
    (leBytes (k + 1) h ++ rest).getD k 0 < 0x80 := by
  induction k generalizing h with
  | zero =>
    rw [UInt8.lt_iff_toNat_lt]
    simp only [leBytes, cons_append, getD_cons_zero, UInt8.toNat_ofNat']
    exact lt_of_le_of_lt (Nat.mod_le _ _) (by simpa using hh)
  | succ k ih =>
    rw [leBytes, cons_append, getD_cons_succ]
    exact ih (by rw [pow_succ] at hh; omega)

section Sizes

variable (hs : (n, low, high) ∈ sizes)

include hs

theorem read_height_ok (op : UInt8) : read_height n low high (op :: data) = some (.ok (h, rest)) ↔
    data = leBytes n h ++ rest ∧ low ≤ h ∧ h < high := by
  obtain ⟨hpos, -, -, hhigh, -⟩ := sizes_spec _ hs
  obtain ⟨k, rfl⟩ : ∃ k, n = k + 1 := Nat.exists_eq_add_one.mpr hpos
  unfold read_height
  constructor
  · intro h
    split at h
    · next hguard =>
      have hlen : (data.take (k + 1)).length = k + 1 := by
        rw [length_take, min_eq_left (Nat.le_of_succ_le_succ hguard.1)]
      simp only [Option.some.injEq] at h
      split at h
      · next hrange =>
        cases h
        have htaken := leBytes_ofLE (data.take (k + 1))
        rw [hlen] at htaken
        exact ⟨by rw [drop_one, tail_cons, htaken]; simp, hrange⟩
      · cases h
    · cases h
  · rintro ⟨rfl, hlow, hlt⟩
    have hbytes : h < 256 ^ (k + 1) := by
      rw [pow_succ]
      exact (hlt.trans_le hhigh).trans_le (by simp; omega)
    rw [if_pos ⟨by simp [length_leBytes], last_leBytes (hlt.trans_le hhigh)⟩]
    simp [take_left' (length_leBytes ..), drop_left' (length_leBytes ..),
      ofLE_leBytes _ _ hbytes, hlow, hlt]

theorem parse_of_size (hd : UInt8.ofNat n :: data ≠ GENESIS_COINBASE_DATA) :
    parse_coinbase_height (UInt8.ofNat n :: data) = .ok (h, rest) ↔
      data = leBytes n h ++ rest ∧ low ≤ h ∧ h < high := by
  rw [← read_height_ok hs (UInt8.ofNat n)]
  have hget : ∀ {o : Option (Except String (Nat × List UInt8))} {e : String},
      o.getD (.error e) = .ok (h, rest) ↔ o = some (.ok (h, rest)) := by
    intro o e
    cases o <;> simp
  simp only [sizes, mem_cons, not_mem_nil, Prod.mk.injEq, or_false] at hs
  obtain ⟨rfl, rfl, rfl⟩ | ⟨rfl, rfl, rfl⟩ | ⟨rfl, rfl, rfl⟩ | ⟨rfl, rfl, rfl⟩ := hs
  · exact hget
  · exact hget
  · exact hget
  · unfold parse_coinbase_height
    simp only [if_neg hd]
    exact hget

theorem write_of_size (hlow : low ≤ h) (hhigh : h < high) :
    write_coinbase_height h rest = .ok (.ok (UInt8.ofNat n :: leBytes n h)) := by
  unfold write_coinbase_height
  simp only [sizes, mem_cons, not_mem_nil, Prod.mk.injEq, or_false] at hs
  obtain ⟨rfl, rfl, rfl⟩ | ⟨rfl, rfl, rfl⟩ | ⟨rfl, rfl, rfl⟩ | ⟨rfl, rfl, rfl⟩ := hs
  · rw [if_neg (by omega), if_neg (by omega), if_pos (by omega)]
    rfl
  · rw [if_neg (by omega), if_neg (by omega), if_neg (by omega), if_pos (by omega)]
    rfl
  · rw [if_neg (by omega), if_neg (by omega), if_neg (by omega), if_neg (by omega), if_pos (by omega)]
    rfl
  · rw [if_neg (by omega), if_neg (by omega), if_neg (by omega), if_neg (by omega), if_neg (by omega),
      if_pos (by omega)]
    rfl

end Sizes

theorem exists_size (hlow : 17 ≤ h) (hmax : h ≤ Height.MAX) :
    ∃ n low high, (n, low, high) ∈ sizes ∧ low ≤ h ∧ h < high := by
  by_cases h₁ : h < 128
  · exact ⟨1, 17, 128, by decide, hlow, h₁⟩
  by_cases h₂ : h < 32768
  · exact ⟨2, 128, 32768, by decide, by omega, h₂⟩
  by_cases h₃ : h < 8388608
  · exact ⟨3, 32768, 8388608, by decide, by omega, h₃⟩
  exact ⟨4, 8388608, Height.MAX + 1, by decide, by omega, by omega⟩

theorem write_of_small (hpos : 1 ≤ h) (hle : h ≤ 16) :
    write_coinbase_height h rest = .ok (.ok [UInt8.ofNat (0x50 + h)]) := by
  rw [write_coinbase_height, if_neg (by omega), if_pos hle]
  rfl

theorem parse_cases (hp : parse_coinbase_height data = .ok (h, rest))
    (hd : data ≠ GENESIS_COINBASE_DATA) : 1 ≤ h ∧ h ≤ 16 ∧ data = UInt8.ofNat (0x50 + h) :: rest ∨
      ∃ n low high t, (n, low, high) ∈ sizes ∧ data = UInt8.ofNat n :: t := by
  unfold parse_coinbase_height at hp
  simp only [if_neg hd] at hp
  split at hp
  · cases hp
  · next op_n t =>
    split at hp
    · next hop =>
      cases hp
      simp only [UInt8.le_iff_toNat_le, UInt8.reduceToNat] at hop
      refine .inl ⟨by omega, by omega, ?_⟩
      rw [Nat.add_sub_of_le (by omega), UInt8.ofNat_toNat]
    split at hp
    · next hop => exact .inr ⟨1, 17, 128, t, by decide, congrArg (· :: t) hop⟩
    split at hp
    · next hop => exact .inr ⟨2, 128, 32768, t, by decide, congrArg (· :: t) hop⟩
    split at hp
    · next hop => exact .inr ⟨3, 32768, 8388608, t, by decide, congrArg (· :: t) hop⟩
    split at hp
    · next hop => exact .inr ⟨4, 8388608, Height.MAX + 1, t, by decide, congrArg (· :: t) hop⟩
    cases hp

end get_block_template

open get_block_template

/-- Data is parsed as a height and a rest exactly if it is what is written for them, where the genesis
data stands for height zero. A height above 16 takes the fewest bytes that leave the sign bit free. -/
theorem coinbase_height_codec (data rest : List UInt8) (h : Nat) :
    (parse_coinbase_height data = .ok (h, rest) ↔
      (∃ bytes, write_coinbase_height h rest = .ok (.ok bytes) ∧ bytes ++ rest = data) ∧
        (data = GENESIS_COINBASE_DATA → h = 0)) ∧
    (1 ≤ h → h ≤ 16 → write_coinbase_height h rest = .ok (.ok [UInt8.ofNat (0x50 + h)])) ∧
    (17 ≤ h → h ≤ Height.MAX →
      ∃ n, write_coinbase_height h rest = .ok (.ok (UInt8.ofNat n :: leBytes n h)) ∧
        0 < n ∧ n ≤ 4 ∧ h < 128 * 256 ^ (n - 1) ∧ ∀ m, 0 < m → h < 128 * 256 ^ (m - 1) → n ≤ m) := by
  refine ⟨⟨fun hp => ?_, ?_⟩, write_of_small, fun hlow hmax => ?_⟩
  · by_cases hd : data = GENESIS_COINBASE_DATA
    · subst hd
      cases hp
      exact ⟨⟨[], rfl, rfl⟩, fun _ => rfl⟩
    · refine ⟨?_, fun h => absurd h hd⟩
      rcases parse_cases hp hd with ⟨hpos, hle, rfl⟩ | ⟨n, low, high, t, hs, rfl⟩
      · exact ⟨_, write_of_small hpos hle, rfl⟩
      · obtain ⟨rfl, hlow, hhigh⟩ := (parse_of_size hs hd).mp hp
        exact ⟨_, write_of_size hs hlow hhigh, rfl⟩
  · rintro ⟨⟨bytes, hw, rfl⟩, hd⟩
    by_cases hmax : h ≤ Height.MAX
    · by_cases hlow : 17 ≤ h
      · obtain ⟨n, low, high, hs, hlow, hhigh⟩ := exists_size hlow hmax
        rw [write_of_size hs hlow hhigh] at hw
        cases hw
        refine (parse_of_size hs fun hg => ?_).mpr ⟨rfl, hlow, hhigh⟩
        have := hd hg
        omega
      · by_cases hpos : 1 ≤ h
        · rw [write_of_small hpos (by omega)] at hw
          cases hw
          interval_cases h <;> rfl
        · obtain rfl : h = 0 := by omega
          rw [write_coinbase_height, if_pos rfl] at hw
          split at hw
          · next hrest =>
            cases hw
            subst hrest
            rfl
          · cases hw
    · rw [write_of_large hmax] at hw
      cases hw
  · obtain ⟨n, low, high, hs, hlow, hhigh⟩ := exists_size hlow hmax
    obtain ⟨hpos, hfour, -, hbound, hleast⟩ := sizes_spec _ hs
    refine ⟨n, write_of_size hs hlow hhigh, hpos, hfour, hhigh.trans_le hbound, fun m hm hh => ?_⟩
    by_contra hlt
    exact absurd hh (not_lt.mpr ((hleast m (by omega) hm).trans hlow))

end ZebraCrosslink
