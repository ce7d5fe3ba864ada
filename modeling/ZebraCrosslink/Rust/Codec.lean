import ZebraCrosslink.Rust.Bytes

/-!
# Readers and what they take

One equivalence covers both directions: what was written is read back, and what is read was written
so.
-/

namespace Rust

open List

theorem length_leBytes (k v : Nat) : (leBytes k v).length = k := by
  induction k generalizing v with
  | zero => rfl
  | succ k ih => rw [leBytes, length_cons, ih]

theorem Bytes.slice_append_left {m n : Nat} (a : Bytes m) (b : Bytes n) :
    (a.append b).slice 0 m (by omega) = a := by
  refine Subtype.ext ?_
  change take m (drop 0 (a.val ++ b.val)) = a.val
  rw [drop_zero, take_left' a.2]

theorem Bytes.slice_append_right {m n : Nat} (a : Bytes m) (b : Bytes n) :
    (a.append b).slice m n (Nat.le_refl _) = b := by
  refine Subtype.ext ?_
  change take n (drop m (a.val ++ b.val)) = b.val
  rw [drop_left' a.2, take_of_length_le b.2.le]

namespace Reader

variable {α : Type} {s s' : List UInt8} {n : Nat} {as : List α} {enc : α → List UInt8} {r : Reader α}

theorem exact_ok {b : Bytes n} : exact n s = .ok (b, s') ↔ s = b.val ++ s' := by
  unfold exact
  constructor
  · intro h
    split at h
    · cases h
      exact (take_append_drop n s).symm
    · cases h
  · rintro rfl
    have hle : n ≤ (b.val ++ s').length := by
      rw [length_append, b.2]
      omega
    rw [dif_pos hle]
    congr 2
    · exact Subtype.ext (take_left' b.2)
    · exact drop_left' b.2

theorem word_ok {k : Nat} {ω : Type} {toNat : ω → Nat} {ofNat : Nat → ω} {v : ω}
    (hlt : toNat v < 256 ^ k) (hleft : ofNat (toNat v) = v)
    (hright : ∀ n < 256 ^ k, toNat (ofNat n) = n) :
    (exact k >>= fun b => pure (ofNat (ofLE b.val)) : Reader ω) s = .ok (v, s') ↔
      s = leBytes k (toNat v) ++ s' := by
  simp only [bind_ok, pure_ok, exact_ok]
  constructor
  · rintro ⟨b, _, rfl, rfl, rfl⟩
    have hb : ofLE b.val < 256 ^ k := by simpa only [b.2] using ofLE_lt b.val
    have hbytes : leBytes k (ofLE b.val) = b.val := by simpa only [b.2] using leBytes_ofLE b.val
    rw [hright _ hb, hbytes]
  · intro h
    refine ⟨⟨leBytes k (toNat v), length_leBytes k _⟩, s', h, ?_, rfl⟩
    rw [ofLE_leBytes k _ hlt, hleft]

theorem u8_ok {v : UInt8} : u8 s = .ok (v, s') ↔ s = leBytes 1 v.toNat ++ s' :=
  word_ok v.toNat_lt UInt8.ofNat_toNat fun _ h => UInt8.toNat_ofNat_of_lt' h

theorem u16_ok {v : UInt16} : u16 s = .ok (v, s') ↔ s = leBytes 2 v.toNat ++ s' :=
  word_ok v.toNat_lt UInt16.ofNat_toNat fun _ h => UInt16.toNat_ofNat_of_lt' h

theorem u32_ok {v : UInt32} : u32 s = .ok (v, s') ↔ s = leBytes 4 v.toNat ++ s' :=
  word_ok v.toNat_lt UInt32.ofNat_toNat fun _ h => UInt32.toNat_ofNat_of_lt' h

theorem u64_ok {v : UInt64} : u64 s = .ok (v, s') ↔ s = leBytes 8 v.toNat ++ s' :=
  word_ok v.toNat_lt UInt64.ofNat_toNat fun _ h => UInt64.toNat_ofNat_of_lt' h

theorem many_ok_of {P : α → Prop} (hr : ∀ s s' a, r s = .ok (a, s') ↔ P a ∧ s = enc a ++ s') :
    many r n s = .ok (as, s') ↔ as.length = n ∧ (∀ a ∈ as, P a) ∧ s = as.flatMap enc ++ s' := by
  induction n generalizing s s' as with
  | zero =>
    rw [many, pure_ok, length_eq_zero_iff]
    constructor
    · rintro ⟨rfl, rfl⟩
      exact ⟨rfl, by simp, rfl⟩
    · rintro ⟨rfl, -, rfl⟩
      exact ⟨rfl, rfl⟩
  | succ n ih =>
    simp only [many, bind_ok, pure_ok, hr, ih]
    constructor
    · rintro ⟨a, _, ⟨ha, rfl⟩, rest, _, ⟨rfl, hrest, rfl⟩, rfl, rfl⟩
      exact ⟨rfl, by simpa using ⟨ha, hrest⟩, by simp⟩
    · rintro ⟨hlength, hall, rfl⟩
      cases as with
      | nil => cases hlength
      | cons a rest =>
        rw [forall_mem_cons] at hall
        exact ⟨a, _, ⟨hall.1, by rw [flatMap_cons, append_assoc]⟩, rest, _,
          ⟨by simpa using hlength, hall.2, rfl⟩, rfl, rfl⟩

theorem many_ok (hr : ∀ s s' a, r s = .ok (a, s') ↔ s = enc a ++ s') :
    many r n s = .ok (as, s') ↔ as.length = n ∧ s = as.flatMap enc ++ s' := by
  rw [many_ok_of (P := fun _ => True) fun s s' a => (hr s s' a).trans (by rw [true_and])]
  simp

theorem many_flatMap (hr : ∀ a ∈ as, ∀ s, r (enc a ++ s) = .ok (a, s)) (s : List UInt8) :
    many r as.length (as.flatMap enc ++ s) = .ok (as, s) := by
  induction as with
  | nil => rfl
  | cons a as ih =>
    obtain ⟨ha, has⟩ := forall_mem_cons.mp hr
    rw [flatMap_cons, append_assoc, length_cons, many, bind_of_ok (ha _), bind_of_ok (ih has)]
    rfl

end Reader

end Rust
