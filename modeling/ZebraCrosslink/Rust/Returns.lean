import ZebraCrosslink.Rust.Exec

/-!
# Calls that return

A call with an error of its own returns when it answers with that error, too.
-/

namespace Rust

/-- The call does not abort. -/
def Returns {ε α : Type} (x : Except ε α) : Prop := ∃ a, x = .ok a

section Returns

variable {ε γ δ α β : Type} {x : ExceptT γ (Except ε) α} {f : α → ExceptT γ (Except ε) β}

theorem Returns.ok (a : α) : Returns (.ok a : Except ε α) := ⟨a, rfl⟩

theorem not_returns_error {err : ε} : ¬ Returns (.error err : Except ε α) := by
  rintro ⟨_, h⟩
  cases h

theorem Returns.bind {x : Except ε α} {f : α → Except ε β} (hx : Returns x)
    (hf : ∀ a, x = .ok a → Returns (f a)) : Returns (x >>= f) := by
  obtain ⟨a, rfl⟩ := hx
  exact hf a rfl

theorem exceptT_bind_of_ok {a : α} (h : x = .ok (.ok a)) : (x >>= f) = f a := by
  rw [h]
  rfl

theorem exceptT_bind_of_error {err : γ}
    (h : x = .ok (.error err)) : (x >>= f) = .ok (.error err) := by
  rw [h]
  rfl

theorem exceptT_bind_error (x : ExceptT γ (Except ε) α) (f : α → ExceptT γ (Except ε) β) (err : γ) :
    (x >>= f) = .ok (.error err) ↔
      x = .ok (.error err) ∨ ∃ a, x = .ok (.ok a) ∧ f a = .ok (.error err) := by
  constructor
  · intro h
    rcases x with abort | err' | a
    · cases h
    · cases h
      exact .inl rfl
    · exact .inr ⟨a, rfl, h⟩
  · rintro (rfl | ⟨a, rfl, h⟩)
    · rfl
    · exact h

theorem Returns.exceptT_bind (hx : Returns x.run) (hf : ∀ a, x = .ok (.ok a) → Returns (f a).run) :
    Returns (x >>= f).run := by
  obtain ⟨r, hr⟩ := hx
  obtain rfl : x = .ok r := hr
  cases r with
  | error err => exact ⟨.error err, rfl⟩
  | ok a => exact hf a rfl

theorem returns_exceptT_bind :
    Returns (x >>= f).run ↔ Returns x.run ∧ ∀ a, x = .ok (.ok a) → Returns (f a).run := by
  constructor
  · intro h
    rcases x with abort | err | a
    · exact absurd h not_returns_error
    · exact ⟨⟨_, rfl⟩, fun _ ha => by cases ha⟩
    · exact ⟨⟨_, rfl⟩, fun _ ha => by cases ha; exact h⟩
  · rintro ⟨hx, hf⟩
    exact hx.exceptT_bind hf

theorem Returns.adapt (hx : Returns x.run) (f : γ → δ) : Returns (x.adapt f).run := by
  obtain ⟨r, hr⟩ := hx
  obtain rfl : x = .ok r := hr
  cases r with
  | error err => exact ⟨.error (f err), rfl⟩
  | ok a => exact ⟨.ok a, rfl⟩

theorem returns_adapt (f : γ → δ) : Returns (x.adapt f).run ↔ Returns x.run := by
  refine ⟨fun ⟨r, hr⟩ => ?_, fun hx => hx.adapt f⟩
  rcases x with abort | r
  · cases hr
  · exact ⟨r, rfl⟩

theorem Returns.liftAbort {x : Except Abort α} (hx : Returns x) :
    Returns (liftAbort x : ExceptT γ (Except Abort) α).run := by
  obtain ⟨a, rfl⟩ := hx
  exact ⟨.ok a, rfl⟩

theorem returns_liftAbort {x : Except Abort α} :
    Returns (Rust.liftAbort x : ExceptT γ (Except Abort) α).run ↔ Returns x := by
  constructor
  · rintro ⟨r, hr⟩
    rcases x with abort | a
    · cases hr
    · exact ⟨a, rfl⟩
  · exact Returns.liftAbort

end Returns

end Rust
