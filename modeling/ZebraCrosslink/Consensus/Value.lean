import ZebraCrosslink.Consensus.Coinbase

/-!
# The value balance of a transaction

What a transaction takes from each pool, and the value that it leaves to the miner.
-/

open Rust

namespace ZebraCrosslink

def Input.value_from_outputs (outputs : OutPoint → Option Output) :
    Input → Except Abort (Amount .NonNegative)
  | .PrevOut outpoint => do
    let output ← orAbort (outputs outpoint) (.panic "provided Outputs don't have spent outpoint")
    pure output.value
  | .Coinbase _ => pure .zero

def JoinSplit.value_balance (joinsplit : JoinSplit) : Amount .NegativeAllowed where
  zatoshis := joinsplit.vpub_new.zatoshis - joinsplit.vpub_old.zatoshis
  valid := by
    have hnew := joinsplit.vpub_new.valid
    have hold := joinsplit.vpub_old.valid
    simp only [Constraint.Holds, Constraint.least] at hnew hold ⊢
    omega

namespace ValueBalance

variable {C : Constraint} (amount : Amount C)

def from_transparent_amount : ValueBalance C := { zero with transparent := amount }

def from_sprout_amount : ValueBalance C := { zero with sprout := amount }

def from_sapling_amount : ValueBalance C := { zero with sapling := amount }

def from_orchard_amount : ValueBalance C := { zero with orchard := amount }

def sum (l : List (ValueBalance C)) : Except ValueBalanceError (ValueBalance C) := l.foldlM add zero

def remaining_transaction_value (balance : ValueBalance .NegativeAllowed) :
    Except AmountError (Amount .NonNegative) := do
  let value ← balance.transparent.add balance.sprout
  let value ← value.add balance.sapling
  let value ← value.add balance.orchard
  value.constrain .NonNegative

end ValueBalance

namespace Transaction

def transparent_value_balance_from_outputs (outputs : OutPoint → Option Output) (tx : Transaction) :
    ExceptT ValueBalanceError (Except Abort) (ValueBalance .NegativeAllowed) := do
  let input_values ← liftAbort (tx.inputs.mapM (Input.value_from_outputs outputs))
  liftResult (do
    let input_value ← (Amount.sum input_values).mapError .Transparent
    let output_value ← (Amount.sum (tx.outputs.map (·.value))).mapError .Transparent
    let transparent ← (input_value.to_negative_allowed.sub
      output_value.to_negative_allowed).mapError .Transparent
    pure (.from_transparent_amount transparent))

def sprout_value_balance (tx : Transaction) :
    Except ValueBalanceError (ValueBalance .NegativeAllowed) :=
  ValueBalance.sum (tx.joinsplits.map fun joinsplit => .from_sprout_amount joinsplit.value_balance)

def value_balance (outputs : OutPoint → Option Output) (tx : Transaction) :
    ExceptT ValueBalanceError (Except Abort) (ValueBalance .NegativeAllowed) := do
  let transparent ← tx.transparent_value_balance_from_outputs outputs
  liftResult (do
    let sprout ← tx.sprout_value_balance
    let balance ← transparent.add sprout
    let balance ← balance.add (.from_sapling_amount tx.sapling_value_balance)
    balance.add (.from_orchard_amount tx.orchard_value_balance))

/-- The remaining value, or `none` where the verifier answers `IncorrectFee`. -/
def remaining_value (outputs : OutPoint → Option Output) (tx : Transaction) :
    Except Abort (Option (Amount .NonNegative)) := do
  match ← (tx.value_balance outputs).run with
  | .ok balance => pure balance.remaining_transaction_value.toOption
  | .error _ => pure none

variable {outputs outputs' : OutPoint → Option Output} {tx : Transaction}

theorem mapM_value_congr {inputs : List Input}
    (h : ∀ outpoint ∈ inputs.filterMap Input.outpoint, outputs outpoint = outputs' outpoint) :
    inputs.mapM (Input.value_from_outputs outputs) =
      inputs.mapM (Input.value_from_outputs outputs') := by
  induction inputs with
  | nil => rfl
  | cons input rest ih =>
    rw [List.mapM_cons, List.mapM_cons]
    cases input with
    | Coinbase height => rw [ih h]; rfl
    | PrevOut outpoint =>
      have hfirst : outputs outpoint = outputs' outpoint := h outpoint (List.mem_cons_self ..)
      rw [ih fun o ho => h o (List.mem_cons_of_mem _ ho)]
      simp only [Input.value_from_outputs, hfirst]

theorem remaining_value_congr (h : ∀ outpoint ∈ tx.spent_outpoints, outputs outpoint = outputs' outpoint) :
    tx.remaining_value outputs = tx.remaining_value outputs' := by
  simp only [remaining_value, value_balance, transparent_value_balance_from_outputs,
    mapM_value_congr h]

end Transaction

end ZebraCrosslink
