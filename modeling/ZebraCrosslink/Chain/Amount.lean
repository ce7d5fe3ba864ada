import Mathlib
import ZebraCrosslink.Rust.Exec

/-!
# Zatoshi amounts

An amount carries the range it was validated against. The `i64` below is wide enough for every
intermediate value.
-/

open Rust

namespace ZebraCrosslink

def COIN : Int := 100000000

def MAX_MONEY : Int := 21000000 * COIN

inductive Constraint
  | NegativeAllowed
  | NonNegative
  deriving DecidableEq

/-- The lower end of `valid_range`. The upper end is `MAX_MONEY` for both. -/
def Constraint.least : Constraint → Int
  | NegativeAllowed => -MAX_MONEY
  | NonNegative => 0

def Constraint.Holds (C : Constraint) (value : Int) : Prop := C.least ≤ value ∧ value ≤ MAX_MONEY

instance (C : Constraint) (value : Int) : Decidable (C.Holds value) :=
  inferInstanceAs (Decidable (_ ∧ _))

theorem Constraint.holds_one : Constraint.NonNegative.Holds 1 := by decide

@[ext]
structure Amount (C : Constraint) where
  zatoshis : Int
  valid : C.Holds zatoshis
  deriving DecidableEq

inductive AmountError
  | Constraint (value : Int)
  | SumOverflow (partial_sum : Int) (remaining_items : Nat)
  | MultiplicationOverflow (amount : Int) (multiplier : UInt64) (overflowing_result : Int)
  | DivideByZero (amount : Int)
  deriving DecidableEq

namespace Amount

variable {C : Constraint}

def try_from (C : Constraint) (value : Int) : Except AmountError (Amount C) :=
  if h : C.Holds value then .ok ⟨value, h⟩ else .error (.Constraint value)

theorem try_from_eq_ok {value : Int} {a : Amount C} :
    try_from C value = .ok a ↔ a.zatoshis = value := by
  unfold try_from
  split
  · next h =>
    constructor
    · intro heq
      cases heq
      rfl
    · rintro rfl
      rfl
  · next h =>
    constructor
    · intro heq
      cases heq
    · rintro rfl
      exact absurd a.valid h

def zero : Amount C where
  zatoshis := 0
  valid := by cases C <;> decide

instance : Inhabited (Amount C) := ⟨zero⟩

@[simp] theorem zero_zatoshis : (zero : Amount C).zatoshis = 0 := rfl

def add (a b : Amount C) : Except AmountError (Amount C) := try_from C (a.zatoshis + b.zatoshis)

def sub (a b : Amount C) : Except AmountError (Amount C) := try_from C (a.zatoshis - b.zatoshis)

def neg (a : Amount C) : Amount .NegativeAllowed where
  zatoshis := -a.zatoshis
  valid := by
    have h := a.valid
    cases C <;> simp only [Constraint.Holds, Constraint.least, MAX_MONEY, COIN] at h ⊢ <;> omega

def constrain (a : Amount C) (C' : Constraint) : Except AmountError (Amount C') :=
  try_from C' a.zatoshis

def to_negative_allowed (a : Amount C) : Amount .NegativeAllowed where
  zatoshis := a.zatoshis
  valid := by
    have h := a.valid
    cases C <;> simp only [Constraint.Holds, Constraint.least, MAX_MONEY, COIN] at h ⊢ <;> omega

@[simp] theorem neg_zatoshis (a : Amount C) : a.neg.zatoshis = -a.zatoshis := rfl

@[simp] theorem to_negative_allowed_zatoshis (a : Amount C) :
    a.to_negative_allowed.zatoshis = a.zatoshis := rfl

theorem add_eq_ok {a b c : Amount C} :
    a.add b = .ok c ↔ c.zatoshis = a.zatoshis + b.zatoshis := try_from_eq_ok

theorem sub_eq_ok {a b c : Amount C} :
    a.sub b = .ok c ↔ c.zatoshis = a.zatoshis - b.zatoshis := try_from_eq_ok

/-- The `Option` of `Amount::checked_sub`, whose result may be negative. -/
def checked_sub {C' : Constraint} (a : Amount C) (b : Amount C') : Option (Amount .NegativeAllowed) :=
  (try_from .NegativeAllowed (a.zatoshis - b.zatoshis)).toOption

def mul (a : Amount C) (n : UInt64) : Except AmountError (Amount C) :=
  (try_from C (a.zatoshis * n.toNat)).mapError fun _ =>
    .MultiplicationOverflow a.zatoshis n (a.zatoshis * n.toNat)

theorem tdiv_holds (a : Amount C) (n : Nat) : C.Holds (a.zatoshis.tdiv n) := by
  obtain ⟨hleast, hmost⟩ := a.valid
  have habs : (a.zatoshis.tdiv n).natAbs ≤ a.zatoshis.natAbs := by
    rw [Int.natAbs_tdiv]
    exact Nat.div_le_self _ _
  constructor
  · cases C with
    | NegativeAllowed =>
      simp only [Constraint.least] at hleast ⊢
      omega
    | NonNegative => exact Int.tdiv_nonneg hleast (Int.natCast_nonneg n)
  · have hmoney : (0 : Int) ≤ MAX_MONEY := by decide
    by_cases hnonneg : 0 ≤ a.zatoshis
    · omega
    · have hneg : a.zatoshis.tdiv n ≤ 0 := by
        have hpos := Int.tdiv_nonneg (a := -a.zatoshis) (by omega) (Int.natCast_nonneg n)
        rw [Int.neg_tdiv] at hpos
        omega
      omega

def div (a : Amount C) (n : Nat) : Except AmountError (Amount C) :=
  if n = 0 then .error (.DivideByZero a.zatoshis)
  else .ok ⟨a.zatoshis.tdiv n, a.tdiv_holds n⟩

theorem checked_sub_eq_some {C' : Constraint} {a : Amount C} {b : Amount C'}
    {c : Amount .NegativeAllowed} :
    a.checked_sub b = some c ↔ c.zatoshis = a.zatoshis - b.zatoshis := by
  rw [checked_sub, toOption_eq_some, try_from_eq_ok]

theorem mul_eq_ok {a c : Amount C} {n : UInt64} :
    a.mul n = .ok c ↔ c.zatoshis = a.zatoshis * n.toNat := by
  rw [mul, except_mapError_ok, try_from_eq_ok]

def sumFrom (acc : Amount C) : List (Amount C) → Except AmountError (Amount C)
  | [] => .ok acc
  | a :: rest =>
    match acc.add a with
    | .ok acc => sumFrom acc rest
    | .error (.Constraint value) => .error (.SumOverflow value rest.length)
    | .error err => .error err

variable (l : List (Amount C))

def sum : Except AmountError (Amount C) := sumFrom zero l

def total : Int := (l.map (·.zatoshis)).sum

@[simp] theorem total_nil : total ([] : List (Amount C)) = 0 := rfl

@[simp] theorem total_cons (a : Amount C) (l : List (Amount C)) :
    total (a :: l) = a.zatoshis + total l := List.sum_cons

@[simp] theorem total_append (l' : List (Amount C)) : total (l ++ l') = total l + total l' := by
  simp [total]

theorem total_perm {l l' : List (Amount C)} (h : l.Perm l') : total l = total l' :=
  (h.map _).sum_eq

theorem total_nonneg (l : List (Amount .NonNegative)) : 0 ≤ total l :=
  List.sum_nonneg (by
    intro x hx
    obtain ⟨a, -, rfl⟩ := List.mem_map.mp hx
    exact a.valid.1)

theorem sumFrom_eq {acc c : Amount C} {l : List (Amount C)} (h : sumFrom acc l = .ok c) :
    c.zatoshis = acc.zatoshis + total l := by
  induction l generalizing acc with
  | nil =>
    cases h
    simp
  | cons a rest ih =>
    unfold sumFrom at h
    split at h
    · next acc' hadd =>
      rw [ih h, add_eq_ok.mp hadd, total_cons]
      omega
    · cases h
    · cases h

theorem exists_sumFrom {acc : Amount .NonNegative} {l : List (Amount .NonNegative)}
    (h : acc.zatoshis + total l ≤ MAX_MONEY) : ∃ c, sumFrom acc l = .ok c := by
  induction l generalizing acc with
  | nil => exact ⟨acc, rfl⟩
  | cons a rest ih =>
    rw [total_cons] at h
    have hrest := total_nonneg rest
    have hrange : Constraint.NonNegative.Holds (acc.zatoshis + a.zatoshis) :=
      ⟨Int.add_nonneg acc.valid.1 a.valid.1, by omega⟩
    have hadd : acc.add a = .ok ⟨_, hrange⟩ := add_eq_ok.mpr rfl
    have hfits : (⟨_, hrange⟩ : Amount .NonNegative).zatoshis + total rest ≤ MAX_MONEY := by
      simp only
      omega
    obtain ⟨c, hc⟩ := ih hfits
    exact ⟨c, by rw [sumFrom, hadd]; exact hc⟩

theorem sum_eq_ok {l : List (Amount .NonNegative)} {c : Amount .NonNegative} :
    sum l = .ok c ↔ c.zatoshis = total l := by
  constructor
  · intro h
    rw [sumFrom_eq h, zero_zatoshis, zero_add]
  · intro h
    have hfits : (zero : Amount .NonNegative).zatoshis + total l ≤ MAX_MONEY := by
      rw [zero_zatoshis, zero_add, ← h]
      exact c.valid.2
    obtain ⟨c', hc'⟩ := exists_sumFrom hfits
    have heq : c' = c := by
      ext
      rw [sumFrom_eq hc', zero_zatoshis, zero_add, h]
    rw [sum, hc', heq]

end Amount

/-! ## Value pools -/

@[ext]
structure ValueBalance (C : Constraint) where
  transparent : Amount C
  sprout : Amount C
  sapling : Amount C
  orchard : Amount C
  deferred : Amount C
  deriving DecidableEq

inductive ValueBalanceError
  | Transparent (err : AmountError)
  | Sprout (err : AmountError)
  | Sapling (err : AmountError)
  | Orchard (err : AmountError)
  | Deferred (err : AmountError)
  deriving DecidableEq

namespace ValueBalance

variable {C : Constraint}

def zero : ValueBalance C := ⟨.zero, .zero, .zero, .zero, .zero⟩

def add (a b : ValueBalance C) : Except ValueBalanceError (ValueBalance C) := do
  let transparent ← (a.transparent.add b.transparent).mapError .Transparent
  let sprout ← (a.sprout.add b.sprout).mapError .Sprout
  let sapling ← (a.sapling.add b.sapling).mapError .Sapling
  let orchard ← (a.orchard.add b.orchard).mapError .Orchard
  let deferred ← (a.deferred.add b.deferred).mapError .Deferred
  pure { transparent, sprout, sapling, orchard, deferred }

def neg (a : ValueBalance C) : ValueBalance .NegativeAllowed where
  transparent := a.transparent.neg
  sprout := a.sprout.neg
  sapling := a.sapling.neg
  orchard := a.orchard.neg
  deferred := a.deferred.neg

def constrain (a : ValueBalance C) (C' : Constraint) :
    Except ValueBalanceError (ValueBalance C') := do
  let transparent ← (a.transparent.constrain C').mapError .Transparent
  let sprout ← (a.sprout.constrain C').mapError .Sprout
  let sapling ← (a.sapling.constrain C').mapError .Sapling
  let orchard ← (a.orchard.constrain C').mapError .Orchard
  let deferred ← (a.deferred.constrain C').mapError .Deferred
  pure { transparent, sprout, sapling, orchard, deferred }

def to_negative_allowed (a : ValueBalance C) : ValueBalance .NegativeAllowed where
  transparent := a.transparent.to_negative_allowed
  sprout := a.sprout.to_negative_allowed
  sapling := a.sapling.to_negative_allowed
  orchard := a.orchard.to_negative_allowed
  deferred := a.deferred.to_negative_allowed

def add_chain_value_pool_change (pools : ValueBalance .NonNegative)
    (chain_value_pool_change : ValueBalance .NegativeAllowed) :
    Except ValueBalanceError (ValueBalance .NonNegative) := do
  let chain_value_pool ← pools.to_negative_allowed.add chain_value_pool_change
  chain_value_pool.constrain .NonNegative

theorem add_chain_value_pool_change_eq_ok {pools pools' : ValueBalance .NonNegative}
    {change : ValueBalance .NegativeAllowed} :
    pools.add_chain_value_pool_change change = .ok pools' ↔
      pools'.transparent.zatoshis = pools.transparent.zatoshis + change.transparent.zatoshis ∧
      pools'.sprout.zatoshis = pools.sprout.zatoshis + change.sprout.zatoshis ∧
      pools'.sapling.zatoshis = pools.sapling.zatoshis + change.sapling.zatoshis ∧
      pools'.orchard.zatoshis = pools.orchard.zatoshis + change.orchard.zatoshis ∧
      pools'.deferred.zatoshis = pools.deferred.zatoshis + change.deferred.zatoshis := by
  simp only [add_chain_value_pool_change, add, constrain, except_bind_ok, except_mapError_ok,
    Amount.add_eq_ok, Amount.constrain, Amount.try_from_eq_ok]
  constructor
  · rintro ⟨mid, ⟨t, ht, s, hs, z, hz, o, ho, d, hd, hmid⟩, t', ht', s', hs', z', hz', o', ho', d',
      hd', h⟩
    cases hmid
    cases h
    exact ⟨ht'.trans ht, hs'.trans hs, hz'.trans hz, ho'.trans ho, hd'.trans hd⟩
  · rintro ⟨ht, hs, hz, ho, hd⟩
    exact ⟨pools'.to_negative_allowed, ⟨_, ht, _, hs, _, hz, _, ho, _, hd, rfl⟩,
      _, rfl, _, rfl, _, rfl, _, rfl, _, rfl, rfl⟩

theorem add_chain_value_pool_change_neg {pools pools' : ValueBalance .NonNegative}
    {change : ValueBalance .NegativeAllowed}
    (h : pools.add_chain_value_pool_change change = .ok pools') :
    pools'.add_chain_value_pool_change change.neg = .ok pools := by
  rw [add_chain_value_pool_change_eq_ok] at h ⊢
  obtain ⟨ht, hs, hz, ho, hd⟩ := h
  simp only [neg, Amount.neg_zatoshis]
  omega

end ValueBalance

end ZebraCrosslink
