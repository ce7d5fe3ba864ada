import Mathlib

/-!
# Rust calls that may not return

`Abort` lists the ways a Rust call ends without a value. `Exec E` runs a function that talks to an
environment `E`: it either aborts or returns a value and the environment that is left.
-/

namespace Rust

/-- The two build profiles: `dev` has overflow checks and debug assertions, `release` has neither. -/
inductive Profile
  | dev
  | release
  deriving DecidableEq, Repr

/-- Why a call does not return. `outOfFuel` stands for a loop that is still running. -/
inductive Abort
  | overflow
  | divByZero
  | expect (msg : String)
  | assert (msg : String)
  | panic (msg : String)
  | outOfFuel
  deriving DecidableEq, Repr

/-! ## Machine integers -/

def addU64 (p : Profile) (a b : UInt64) : Except Abort UInt64 :=
  if p = .dev ∧ 2 ^ 64 ≤ a.toNat + b.toNat then .error .overflow else .ok (a + b)

def subU64 (p : Profile) (a b : UInt64) : Except Abort UInt64 :=
  if p = .dev ∧ a < b then .error .overflow else .ok (a - b)

/-- `usize` subtraction on a 64-bit target. -/
def subUsize (p : Profile) (a b : Nat) : Except Abort Nat :=
  if b ≤ a then .ok (a - b) else if p = .dev then .error .overflow else .ok (a + 2 ^ 64 - b)

/-- `u32` addition on numbers below `2 ^ 32`. -/
def addU32 (p : Profile) (a b : Nat) : Except Abort Nat :=
  if a + b < 2 ^ 32 then .ok (a + b)
  else if p = .dev then .error .overflow
  else .ok ((a + b) % 2 ^ 32)

/-- `u32` subtraction on numbers below `2 ^ 32`. -/
def subU32 (p : Profile) (a b : Nat) : Except Abort Nat :=
  if b ≤ a then .ok (a - b) else if p = .dev then .error .overflow else .ok (a + 2 ^ 32 - b)

/-- `v[i]`. -/
def index {α : Type} (v : List α) (i : Nat) : Except Abort α :=
  match v[i]? with
  | some a => .ok a
  | none => .error (.panic "index out of bounds")

variable (p : Profile)

theorem addU64_of_lt (a b : UInt64) (h : a.toNat + b.toNat < 2 ^ 64) :
    addU64 p a b = .ok (a + b) := by
  rw [addU64, if_neg (by omega)]

theorem toNat_add_of_lt (a b : UInt64) (h : a.toNat + b.toNat < 2 ^ 64) :
    (a + b).toNat = a.toNat + b.toNat := by
  rw [UInt64.toNat_add, Nat.mod_eq_of_lt h]

theorem subU64_of_le (a b : UInt64) (h : b ≤ a) : subU64 p a b = .ok (a - b) := by
  rw [subU64, if_neg]
  rintro ⟨-, hlt⟩
  rw [UInt64.le_iff_toNat_le] at h
  rw [UInt64.lt_iff_toNat_lt] at hlt
  omega

theorem addU32_of_lt (a b : Nat) (h : a + b < 2 ^ 32) : addU32 p a b = .ok (a + b) := by
  rw [addU32, if_pos h]

theorem subUsize_of_le (a b : Nat) (h : b ≤ a) : subUsize p a b = .ok (a - b) := by
  rw [subUsize, if_pos h]

/-! ## Sequencing

The lemmas hold for every state and error type, so that the byte readers use them too. -/

section Sequencing

variable {ε σ α β : Type} (a : α) {f : α → StateT σ (Except ε) β} {x : StateT σ (Except ε) α} {s : σ}

theorem pure_apply (s : σ) : (pure a : StateT σ (Except ε) α) s = .ok (a, s) := rfl

theorem bind_apply (x : StateT σ (Except ε) α) (f : α → StateT σ (Except ε) β) (s : σ) :
    (x >>= f) s = (x s).bind fun r => f r.1 r.2 := rfl

theorem pure_ok (b : α) (s s' : σ) :
    (pure a : StateT σ (Except ε) α) s = .ok (b, s') ↔ b = a ∧ s' = s := by
  rw [pure_apply]
  simp [eq_comm]

theorem bind_ok (x : StateT σ (Except ε) α) (f : α → StateT σ (Except ε) β) (s s'' : σ) (b : β) :
    (x >>= f) s = .ok (b, s'') ↔ ∃ a s', x s = .ok (a, s') ∧ f a s' = .ok (b, s'') := by
  rw [bind_apply]
  cases h : x s with
  | error err => simp [Except.bind]
  | ok r =>
    obtain ⟨a, s'⟩ := r
    simp [Except.bind]

theorem bind_of_ok {s' : σ} {a : α} (h : x s = .ok (a, s')) : (x >>= f) s = f a s' := by
  rw [bind_apply, h]; rfl

theorem bind_of_error {err : ε} (h : x s = .error err) : (x >>= f) s = .error err := by
  rw [bind_apply, h]; rfl

theorem except_bind_ok {x : Except ε α} {f : α → Except ε β} {b : β} :
    (x >>= f) = .ok b ↔ ∃ a, x = .ok a ∧ f a = .ok b := by
  cases x with
  | error err => simp [bind, Except.bind]
  | ok a => simp [bind, Except.bind]

theorem forM_ok {f : α → Except ε Unit} {l : List α} {u : Unit} :
    l.forM f = .ok u ↔ ∀ a ∈ l, f a = .ok () := by
  induction l with
  | nil => exact ⟨fun _ => by simp, fun _ => rfl⟩
  | cons a rest ih =>
    have hstep : (a :: rest).forM f = f a >>= fun _ => rest.forM f := rfl
    simp only [hstep, except_bind_ok, ih, List.forall_mem_cons]
    exact ⟨fun ⟨_, ha, hrest⟩ => ⟨ha, hrest⟩, fun ⟨ha, hrest⟩ => ⟨(), ha, hrest⟩⟩

theorem except_mapError_ok {δ : Type} (x : Except ε α) (f : ε → δ) (a : α) :
    x.mapError f = .ok a ↔ x = .ok a := by
  cases x with
  | error err => simp [Except.mapError]
  | ok b => simp [Except.mapError]

theorem exists_of_isOk {x : Except ε α} (h : x.isOk = true) : ∃ a, x = .ok a := by
  cases x with
  | error err => cases h
  | ok a => exact ⟨a, rfl⟩

theorem exists_of_toOption_map {x : Except ε α} {f : α → β} {b : β}
    (h : x.toOption.map f = some b) : ∃ a, x = .ok a ∧ f a = b := by
  cases x with
  | error err => cases h
  | ok a => exact ⟨a, rfl, Option.some.inj h⟩

theorem exceptT_bind_ok {γ : Type} {x : ExceptT γ (Except ε) α} {f : α → ExceptT γ (Except ε) β}
    {b : β} : (x >>= f) = .ok (.ok b) ↔ ∃ a, x = .ok (.ok a) ∧ f a = .ok (.ok b) := by
  constructor
  · intro h
    rcases x with err | err | a
    · cases h
    · cases h
    · exact ⟨a, rfl, h⟩
  · rintro ⟨a, rfl, h⟩
    exact h

theorem exceptT_adapt_ok {γ δ : Type} (x : ExceptT γ (Except ε) α) (f : γ → δ) (a : α) :
    x.adapt f = .ok (.ok a) ↔ x = .ok (.ok a) := by
  constructor
  · intro h
    rcases x with err | err | b
    · cases h
    · cases h
    · cases h
      rfl
  · rintro rfl
    rfl

end Sequencing

/-- `expect`, and the assertions about what a map did before. -/
def orAbort {α : Type} (o : Option α) (err : Abort) : Except Abort α :=
  match o with
  | some a => .ok a
  | none => .error err

theorem orAbort_ok {α : Type} {o : Option α} {err : Abort} {a : α} :
    orAbort o err = .ok a ↔ o = some a := by
  cases o <;> simp [orAbort]

/-- `assert!`. -/
def assertThat (p : Prop) [Decidable p] (msg : String) : Except Abort Unit :=
  if p then .ok () else .error (.assert msg)

theorem assertThat_ok {p : Prop} [Decidable p] {msg : String} {u : Unit} : assertThat p msg = .ok u ↔ p := by
  unfold assertThat
  split <;> simp_all

theorem assertThat_of {p : Prop} [Decidable p] (msg : String) (h : p) : assertThat p msg = .ok () := if_pos h

theorem toOption_eq_some {ε α : Type} {x : Except ε α} {a : α} :
    x.toOption = some a ↔ x = .ok a := by
  cases x <;> simp [Except.toOption]

/-- A call that panics or returns, among calls with an error of their own. -/
def liftAbort {γ α : Type} (x : Except Abort α) : ExceptT γ (Except Abort) α :=
  ExceptT.mk (x.map .ok)

theorem liftAbort_ok {γ α : Type} {x : Except Abort α} {a : α} :
    (liftAbort x : ExceptT γ (Except Abort) α) = .ok (.ok a) ↔ x = .ok a := by
  constructor
  · intro h
    cases x with
    | error err => cases h
    | ok b =>
      cases h
      rfl
  · rintro rfl
    rfl

/-- A result with an error of its own, among calls that can panic. -/
def liftResult {γ α : Type} (x : Except γ α) : ExceptT γ (Except Abort) α := ExceptT.mk (.ok x)

theorem liftResult_ok {γ α : Type} {x : Except γ α} {a : α} :
    liftResult x = .ok (.ok a) ↔ x = .ok a :=
  ⟨fun h => Except.ok.inj h, fun h => congrArg Except.ok h⟩

/-! ## Calls with an environment -/

abbrev Exec (E α : Type) : Type := StateT E (Except Abort) α

namespace Exec

variable {E α β : Type} (x : Except Abort α)

/-- A call that does not look at the environment. -/
def ofExcept : Exec E α := fun e => x.map fun a => (a, e)

def abort (a : Abort) : Exec E α := fun _ => .error a

/-- `assert!(c, msg)`. -/
def assert (c : Bool) (msg : String) : Exec E Unit := if c then pure () else abort (.assert msg)

/-- `o.expect(msg)`; `o.unwrap()` is `expect` with the text `unwrap`. -/
def expect (o : Option α) (msg : String) : Exec E α :=
  match o with
  | some a => pure a
  | none => abort (.expect msg)

theorem abort_apply (a : Abort) (e : E) : (abort a : Exec E α) e = .error a := rfl

theorem assert_ok (c : Bool) (msg : String) (e e' : E) (u : Unit) :
    assert c msg e = .ok (u, e') ↔ c = true ∧ e' = e := by
  unfold assert
  cases c
  · simp [abort_apply]
  · simp [pure_ok]

theorem assert_of {c : Bool} (h : c = true) (msg : String) (e : E) : assert c msg e = .ok ((), e) := by
  rw [assert, if_pos h]; rfl

theorem ofExcept_of {x : Except Abort α} {a : α} (h : x = .ok a) (e : E) :
    ofExcept x e = .ok (a, e) := by
  rw [h]; rfl

theorem expect_ok (o : Option α) (msg : String) (e e' : E) (a : α) :
    expect o msg e = .ok (a, e') ↔ o = some a ∧ e' = e := by
  unfold expect
  cases o with
  | none => simp [abort_apply]
  | some b => simp [pure_ok, eq_comm (a := a)]

theorem ofExcept_ok (e e' : E) (a : α) : ofExcept x e = .ok (a, e') ↔ x = .ok a ∧ e' = e := by
  unfold ofExcept
  cases x with
  | error err => simp [Except.map]
  | ok b => simp [Except.map, eq_comm]

end Exec

end Rust
