import ZebraCrosslink.Rust.Exec

/-!
# Calls that move the environment forward

If every question to the environment moves it along a preorder, so does a program that asks many.
-/

namespace Rust

/-- A preorder on environments, read as "later". -/
structure Forward {E : Type} (R : E → E → Prop) : Prop where
  refl : ∀ e, R e e
  trans : ∀ {e₁ e₂ e₃}, R e₁ e₂ → R e₂ e₃ → R e₁ e₃

namespace Exec

variable {E α β : Type} {R : E → E → Prop}

/-- Whenever `m` returns, the environment has moved along `R`. -/
def Along (R : E → E → Prop) (m : Exec E α) : Prop := ∀ e a e', m e = .ok (a, e') → R e e'

namespace Along

theorem pure (hR : Forward R) (a : α) : Along R (pure a : Exec E α) := by
  intro e b e' h
  rw [((pure_ok ..).mp h).2]
  exact hR.refl e

theorem bind (hR : Forward R) {m : Exec E α} {f : α → Exec E β} (hm : Along R m)
    (hf : ∀ a, Along R (f a)) : Along R (m >>= f) := by
  intro e b e' h
  obtain ⟨a, e₁, h₁, h₂⟩ := (bind_ok ..).mp h
  exact hR.trans (hm e a e₁ h₁) (hf a e₁ b e' h₂)

theorem mapM {γ : Type} (hR : Forward R) {f : γ → Exec E α} (hf : ∀ c, Along R (f c)) (l : List γ) :
    Along R (l.mapM f) := by
  induction l with
  | nil => exact pure hR []
  | cons c l ih =>
    rw [List.mapM_cons]
    exact bind hR (hf c) fun _ => bind hR ih fun _ => pure hR _

theorem abort (a : Abort) : Along R (Exec.abort a : Exec E α) := by
  intro e b e' h
  cases h

theorem ofExcept (hR : Forward R) (x : Except Abort α) : Along R (Exec.ofExcept x) := by
  intro e a e' h
  rw [((ofExcept_ok ..).mp h).2]
  exact hR.refl e

theorem assert (hR : Forward R) (c : Bool) (msg : String) : Along R (Exec.assert c msg) := by
  intro e u e' h
  rw [((assert_ok ..).mp h).2]
  exact hR.refl e

theorem expect (hR : Forward R) (o : Option α) (msg : String) : Along R (Exec.expect o msg) := by
  intro e a e' h
  rw [((expect_ok ..).mp h).2]
  exact hR.refl e

end Along

end Exec

end Rust
