import ZebraCrosslink.Rust.Exec

/-!
# Signed machine integers

An `i64` is an integer, and a plain operation on it is the exact result, put back into the range of
the type.
-/

namespace Rust

def InI64 (x : Int) : Prop := -2 ^ 63 ≤ x ∧ x < 2 ^ 63

instance (x : Int) : Decidable (InI64 x) := inferInstanceAs (Decidable (_ ∧ _))

/-- The result of a plain `+`, `-` or `*`, from its exact value. -/
def i64 (p : Profile) (x : Int) : Except Abort Int :=
  if InI64 x then .ok x
  else if p = .dev then .error .overflow
  else .ok ((x + 2 ^ 63) % 2 ^ 64 - 2 ^ 63)

/-- The result of a checked operation. -/
def checkedI64 (x : Int) : Option Int := if InI64 x then some x else none

/-- Division rounds to zero. -/
def divI64 (a b : Int) : Except Abort Int :=
  if b = 0 then .error .divByZero
  else if InI64 (a.tdiv b) then .ok (a.tdiv b)
  else .error .overflow

/-- `u32::try_from`. -/
def toU32 (x : Int) : Option Nat := if 0 ≤ x ∧ x < 2 ^ 32 then some x.toNat else none

theorem divI64_eq_ok {a b c : Int} :
    divI64 a b = .ok c ↔ b ≠ 0 ∧ InI64 (a.tdiv b) ∧ c = a.tdiv b := by
  unfold divI64
  split
  · simp_all
  · split <;> simp_all [eq_comm]

theorem toU32_eq_some {x : Int} {n : Nat} : toU32 x = some n ↔ x = n ∧ n < 2 ^ 32 := by
  unfold toU32
  split
  · simp only [Option.some.injEq]
    omega
  · simp only [reduceCtorEq, false_iff]
    omega

end Rust
