import ZebraCrosslink.Rust.Exec

/-!
# Strings and the numbers in them

A `str` is the list of its characters. Offsets into it count the bytes of its UTF-8 form.
-/

namespace Rust

/-- `len`. -/
def byteLen (s : List Char) : Nat := (s.map Char.utf8Size).sum

/-- The parts before and after an offset. There are none for an offset inside a character. -/
def splitAtByte (n : Nat) : List Char → Option (List Char × List Char)
  | [] => if n = 0 then some ([], []) else none
  | c :: s =>
    if n = 0 then some ([], c :: s)
    else if c.utf8Size ≤ n then (splitAtByte (n - c.utf8Size) s).map fun r => (c :: r.1, r.2)
    else none

def slice (s : List Char) (start stop : Nat) : Option (List Char) := do
  let (_, rest) ← splitAtByte start s
  let (part, _) ← splitAtByte (stop - start) rest
  some part

/-- `s[start..stop]`. -/
def strIndex (s : List Char) (start stop : Nat) : Except Abort (List Char) :=
  orAbort (slice s start stop) (.panic "byte index is not a char boundary")

inductive IntErrorKind
  | Empty
  | InvalidDigit
  | PosOverflow
  deriving DecidableEq, Repr

def to_digit (radix : Nat) (c : Char) : Option Nat :=
  let digit :=
    if c.isDigit then c.toNat - '0'.toNat
    else if c.isLower then c.toNat - 'a'.toNat + 10
    else if c.isUpper then c.toNat - 'A'.toNat + 10
    else radix
  if digit < radix then some digit else none

def readDigits (radix : Nat) : Nat → List Char → Except IntErrorKind Nat
  | result, [] => .ok result
  | result, c :: digits =>
    match to_digit radix c with
    | none => .error .InvalidDigit
    | some x =>
      if result * radix + x < 2 ^ 32 then readDigits radix (result * radix + x) digits
      else .error .PosOverflow

/-- `u32::from_str_radix`, which `parse` calls with radix 10. It takes a plus sign. -/
def from_str_radix (radix : Nat) : List Char → Except IntErrorKind Nat
  | [] => .error .Empty
  | ['+'] => .error .InvalidDigit
  | '+' :: digits => readDigits radix 0 digits
  | digits => readDigits radix 0 digits

/-- The digits of a number that has at most `width` of them, with leading zeros. -/
def zeroPadded (radix : Nat) : Nat → Nat → List Char
  | 0, _ => []
  | width + 1, n => zeroPadded radix width (n / radix) ++ [(n % radix).digitChar]

/-! ## Reading back what was written -/

section Digits

variable {radix width n : Nat} {c : Char} {s : List Char}

theorem length_zeroPadded (radix width n : Nat) : (zeroPadded radix width n).length = width := by
  induction width generalizing n with
  | zero => rfl
  | succ width ih => simp [zeroPadded, ih]

theorem digitChar_spec : ∀ radix < 17, ∀ d < radix,
    d.digitChar.utf8Size = 1 ∧ to_digit radix d.digitChar = some d := by decide

theorem digit_of_mem (hradix : 0 < radix) (hle : radix < 17) (h : c ∈ zeroPadded radix width n) :
    c.utf8Size = 1 ∧ c ≠ '+' := by
  induction width generalizing n with
  | zero => cases h
  | succ width ih =>
    rcases List.mem_append.mp h with h | h
    · exact ih h
    · obtain ⟨hsize, hdigit⟩ := digitChar_spec radix hle _ (Nat.mod_lt n hradix)
      rw [List.mem_singleton.mp h]
      refine ⟨hsize, fun hplus => ?_⟩
      simp [hplus, to_digit] at hdigit

theorem readDigits_append (radix result : Nat) (a b : List Char) : readDigits radix result (a ++ b) =
    (readDigits radix result a).bind fun result => readDigits radix result b := by
  induction a generalizing result with
  | nil => rfl
  | cons c a ih =>
    simp only [List.cons_append, readDigits]
    split
    · rfl
    · split
      · exact ih _
      · rfl

theorem readDigits_zeroPadded (hradix : 0 < radix) (hle : radix < 17) (hn : n < radix ^ width)
    (hmax : n < 2 ^ 32) : readDigits radix 0 (zeroPadded radix width n) = .ok n := by
  induction width generalizing n with
  | zero =>
    obtain rfl : n = 0 := by simpa using hn
    rfl
  | succ width ih =>
    have hdiv : n / radix < radix ^ width := Nat.div_lt_of_lt_mul (by rwa [Nat.pow_succ'] at hn)
    have hdigit := (digitChar_spec radix hle _ (Nat.mod_lt n hradix)).2
    rw [zeroPadded, readDigits_append, ih hdiv (lt_of_le_of_lt (Nat.div_le_self ..) hmax)]
    simp only [Except.bind, readDigits, hdigit, Nat.div_add_mod', hmax, if_true]

theorem from_str_radix_zeroPadded (hradix : 0 < radix) (hle : radix < 17) (hwidth : 0 < width)
    (hn : n < radix ^ width) (hmax : n < 2 ^ 32) :
    from_str_radix radix (zeroPadded radix width n) = .ok n := by
  have hplus := fun c (h : c ∈ zeroPadded radix width n) => (digit_of_mem hradix hle h).2
  unfold from_str_radix
  split
  · next hnil =>
    have hlength := length_zeroPadded radix width n
    rw [hnil] at hlength
    exact absurd hlength hwidth.ne
  · next heq => exact absurd rfl (hplus '+' (by simp [heq]))
  · next heq => exact absurd rfl (hplus '+' (by simp [heq]))
  · exact readDigits_zeroPadded hradix hle hn hmax

theorem splitAtByte_ascii (h : ∀ c ∈ s, c.utf8Size = 1) (hn : n ≤ s.length) :
    splitAtByte n s = some (s.take n, s.drop n) := by
  induction s generalizing n with
  | nil =>
    obtain rfl : n = 0 := by simpa using hn
    rfl
  | cons c s ih =>
    obtain ⟨hc, h⟩ := List.forall_mem_cons.mp h
    cases n with
    | zero => rfl
    | succ n => simp [splitAtByte, hc, ih h (by simpa using hn)]

theorem slice_ascii {start stop : Nat} (h : ∀ c ∈ s, c.utf8Size = 1) (hle : start ≤ stop)
    (hstop : stop ≤ s.length) : slice s start stop = some ((s.drop start).take (stop - start)) := by
  have hrest : stop - start ≤ (s.drop start).length := by
    rw [List.length_drop]
    omega
  have hdrop := splitAtByte_ascii (fun c hc => h c (List.mem_of_mem_drop hc)) hrest
  simp [slice, splitAtByte_ascii h (hle.trans hstop), hdrop]

end Digits

end Rust
