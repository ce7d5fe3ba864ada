import ZebraCrosslink.Rust.Exec

/-!
# Code that overflows exactly when exact numbers do not fit

Where the exact numbers fit, `x` returns something in `Q`; where they do not, a build with overflow
checks stops with an overflow.
-/

namespace Rust

structure Checked {α : Type} (p : Profile) (fits : Prop) (x : Except Abort α) (Q : α → Prop) :
    Prop where
  returns : fits → ∃ a, x = .ok a ∧ Q a
  overflows : ¬ fits → p = .dev → x = .error .overflow

namespace Checked

variable {α β : Type} {p : Profile} {fits fits' : Prop} {x : Except Abort α} {Q R : α → Prop}
  {S : β → Prop} {f : α → Except Abort β}

theorem ofOk {a : α} (h : Q a) : Checked p True (.ok a) Q :=
  ⟨fun _ => ⟨a, rfl, h⟩, fun hn => absurd trivial hn⟩

theorem bind (hx : Checked p fits x Q)
    (hf : ∀ a, Q a → Checked p fits' (f a) S) : Checked p (fits ∧ fits') (x >>= f) S where
  returns h := by
    obtain ⟨a, ha, hq⟩ := hx.returns h.1
    obtain ⟨b, hb, hs⟩ := (hf a hq).returns h.2
    exact ⟨b, except_bind_ok.mpr ⟨a, ha, hb⟩, hs⟩
  overflows hn hp := by
    by_cases h : fits
    · obtain ⟨a, ha, hq⟩ := hx.returns h
      rw [ha]
      exact (hf a hq).overflows (fun h' => hn ⟨h, h'⟩) hp
    · rw [hx.overflows h hp]
      rfl

theorem imp (hx : Checked p fits x Q) (hfits : fits ↔ fits') (hQ : ∀ a, fits → Q a → R a) :
    Checked p fits' x R where
  returns h := by
    obtain ⟨a, ha, hq⟩ := hx.returns (hfits.mpr h)
    exact ⟨a, ha, hQ a (hfits.mpr h) hq⟩
  overflows hn hp := hx.overflows (fun h => hn (hfits.mp h)) hp

theorem bindTotal (hx : Checked p True x Q)
    (hf : ∀ a, Q a → Checked p fits (f a) S) : Checked p fits (x >>= f) S :=
  (hx.bind hf).imp ⟨fun h => h.2, fun h => ⟨trivial, h⟩⟩ fun _ _ h => h

theorem bindOk (hx : Checked p fits x Q)
    (hf : ∀ a, Q a → ∃ b, f a = .ok b ∧ S b) : Checked p fits (x >>= f) S :=
  (hx.bind (S := S) fun a ha => by
    obtain ⟨b, hb, hs⟩ := hf a ha
    exact hb ▸ ofOk hs).imp ⟨fun h => h.1, fun h => ⟨h, trivial⟩⟩ fun _ _ h => h

theorem dev_returns_iff (hx : Checked .dev fits x Q) : (∃ a, x = .ok a) ↔ fits := by
  constructor
  · rintro ⟨a, ha⟩
    by_contra hn
    rw [hx.overflows hn rfl] at ha
    cases ha
  · intro h
    obtain ⟨a, ha, -⟩ := hx.returns h
    exact ⟨a, ha⟩

theorem addU64 (p : Profile) (a b : UInt64) :
    Checked p (a.toNat + b.toNat < 2 ^ 64) (Rust.addU64 p a b)
      fun c => c.toNat = a.toNat + b.toNat where
  returns h := ⟨a + b, addU64_of_lt p a b h, toNat_add_of_lt a b h⟩
  overflows hn hp := by rw [Rust.addU64, if_pos ⟨hp, by omega⟩]

theorem subU64 (p : Profile) (a b : UInt64) (h : b.toNat ≤ a.toNat) :
    Checked p True (Rust.subU64 p a b) fun c => c.toNat = a.toNat - b.toNat where
  returns _ := ⟨a - b, subU64_of_le p a b (UInt64.le_iff_toNat_le.mpr h),
    UInt64.toNat_sub_of_le a b (UInt64.le_iff_toNat_le.mpr h)⟩
  overflows hn := absurd trivial hn

end Checked

end Rust
