import Mathlib
import ZebraCrosslink.Rust.Exec

/-!
# Byte arrays and byte readers

`Bytes n` is the array type `[u8; n]`. A `Reader` takes bytes from the front of its input and fails
with `eof` when there are too few.
-/

namespace Rust

open List

/-- `[u8; n]`. -/
abbrev Bytes (n : Nat) : Type := { l : List UInt8 // l.length = n }

namespace Bytes

def zero (n : Nat) : Bytes n := ⟨replicate n 0, length_replicate⟩

/-- The sub-array `a[from..from + len]`. -/
def slice {n : Nat} (a : Bytes n) (start len : Nat) (h : start + len ≤ n) : Bytes len :=
  ⟨(a.val.drop start).take len, by
    simp only [length_take, length_drop, a.property]
    omega⟩

def append {m n : Nat} (a : Bytes m) (b : Bytes n) : Bytes (m + n) :=
  ⟨a.val ++ b.val, by rw [length_append, a.property, b.property]⟩

theorem slice_append_slice {n : Nat} (a : Bytes n) (start m k : Nat) (h : start + m + k ≤ n) :
    (a.slice start m (by omega)).val ++ (a.slice (start + m) k h).val =
      (a.slice start (m + k) (by omega)).val := by
  simp only [slice, take_add, drop_drop]

theorem slice_all {n : Nat} (a : Bytes n) : (a.slice 0 n (by omega)).val = a.val := by
  simp only [slice, drop_zero]
  exact take_of_length_le a.property.le

instance lawfulBEq32 : LawfulBEq (Bytes 32) := inferInstance

end Bytes

/-! ## Slices of vectors -/

/-- `v[start..stop]`. -/
def sliceRange {α : Type} (v : List α) (start stop : Nat) : Except Abort (List α) :=
  if stop < start then .error (.panic s!"slice index starts at {start} but ends at {stop}")
  else if v.length < stop then .error (.panic s!"range end index {stop} out of range for slice of length {v.length}")
  else .ok ((v.take stop).drop start)

/-- `try_into().unwrap()` to an array. -/
def toArray (n : Nat) (v : List UInt8) : Except Abort (Bytes n) :=
  if h : v.length = n then .ok ⟨v, h⟩ else .error (.expect "unwrap")

def chunksExact {α : Type} (n : Nat) (v : List α) : List (List α) :=
  (range (v.length / n)).map fun i => (v.drop (n * i)).take n

/-! ## Little-endian numbers -/

/-- The low `k` bytes of `v`, lowest first. -/
def leBytes : Nat → Nat → List UInt8
  | 0, _ => []
  | k + 1, v => UInt8.ofNat v :: leBytes k (v / 256)

def ofLE : List UInt8 → Nat
  | [] => 0
  | b :: bs => b.toNat + 256 * ofLE bs

theorem ofLE_lt (l : List UInt8) : ofLE l < 256 ^ l.length := by
  induction l with
  | nil => simp [ofLE]
  | cons b bs ih =>
    have hb := b.toNat_lt
    simp only [ofLE, length_cons, pow_succ]
    omega

theorem leBytes_ofLE (l : List UInt8) : leBytes l.length (ofLE l) = l := by
  induction l with
  | nil => rfl
  | cons b bs ih =>
    have hb := b.toNat_lt
    have hlow : UInt8.ofNat (b.toNat + 256 * ofLE bs) = b := by
      apply UInt8.toNat_inj.mp
      rw [UInt8.toNat_ofNat']
      omega
    have hrest : (b.toNat + 256 * ofLE bs) / 256 = ofLE bs := by omega
    rw [length_cons, leBytes, ofLE, hlow, hrest, ih]

theorem ofLE_leBytes (k v : Nat) (h : v < 256 ^ k) : ofLE (leBytes k v) = v := by
  induction k generalizing v with
  | zero =>
    rw [pow_zero] at h
    simp only [leBytes, ofLE]
    omega
  | succ k ih =>
    have hrest : v / 256 < 256 ^ k := by
      rw [pow_succ] at h
      omega
    rw [leBytes, ofLE, ih _ hrest, UInt8.toNat_ofNat']
    omega

/-- The array as a big-endian number. -/
def Bytes.toNat {n : Nat} (a : Bytes n) : Nat := ofLE a.val.reverse

theorem Bytes.eq_of_toNat {n : Nat} {a b : Bytes n} (h : a.toNat = b.toNat) : a = b := by
  have hlen : a.val.reverse.length = b.val.reverse.length := by simp [a.property, b.property]
  apply Subtype.ext
  apply reverse_injective
  rw [← leBytes_ofLE a.val.reverse, ← leBytes_ofLE b.val.reverse, hlen]
  exact congrArg _ h

/-! ## Readers -/

inductive ReadError
  | eof
  | parse (msg : String)
  | tryFromInt
  deriving DecidableEq, Repr

abbrev Reader (α : Type) : Type := StateT (List UInt8) (Except ReadError) α

namespace Reader

variable {α : Type}

def fail (msg : String) : Reader α := fun _ => .error (.parse msg)

/-- `read_exact` into a fresh array. -/
def exact (n : Nat) : Reader (Bytes n) := fun s =>
  if h : n ≤ s.length then .ok (⟨s.take n, length_take_of_le h⟩, s.drop n)
  else .error .eof

def u8 : Reader UInt8 := do
  let b ← exact 1
  pure (UInt8.ofNat (ofLE b.val))

def u16 : Reader UInt16 := do
  let b ← exact 2
  pure (UInt16.ofNat (ofLE b.val))

def u32 : Reader UInt32 := do
  let b ← exact 4
  pure (UInt32.ofNat (ofLE b.val))

def u64 : Reader UInt64 := do
  let b ← exact 8
  pure (UInt64.ofNat (ofLE b.val))

/-- `n` items, one after the other. -/
def many (r : Reader α) : Nat → Reader (List α)
  | 0 => pure []
  | n + 1 => do
    let a ← r
    let as ← many r n
    pure (a :: as)

theorem many_forall (r : Reader α) (P : α → Prop) (hr : ∀ s s' a, r s = .ok (a, s') → P a)
    (n : Nat) (s s' : List UInt8) (as : List α) (h : many r n s = .ok (as, s')) :
    ∀ a ∈ as, P a := by
  induction n generalizing s s' as with
  | zero =>
    rw [many, pure_ok] at h
    simp [h.1]
  | succ n ih =>
    rw [many, bind_ok] at h
    obtain ⟨a, s₁, ha, h⟩ := h
    rw [bind_ok] at h
    obtain ⟨rest, s₂, hrest, h⟩ := h
    rw [pure_ok] at h
    rw [h.1]
    intro x hx
    rcases mem_cons.mp hx with rfl | hx
    · exact hr _ _ _ ha
    · exact ih _ _ _ hrest x hx

end Reader

end Rust
