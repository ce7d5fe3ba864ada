import ZebraCrosslink.Chain.Amount
import ZebraCrosslink.Chain.Header

/-!
# Transactions and PoW blocks

Each transaction version has the fields that some modelled check or update reads. The transaction id
is a field of its own.
-/

open Rust

namespace ZebraCrosslink

abbrev TransactionHash : Type := Bytes 32
abbrev Nullifier : Type := Bytes 32
abbrev NoteCommitment : Type := Bytes 32
abbrev MalPublicKey : Type := Bytes 32

/-! ## Staking actions -/

inductive StakingActionKind
  | Add
  | Sub
  | Clear
  | Move
  | MoveClear
  deriving DecidableEq, Repr

structure StakingAction where
  kind : StakingActionKind
  val : UInt64
  target : MalPublicKey
  source : MalPublicKey
  insecure_target_name : String
  insecure_source_name : String
  deriving DecidableEq

/-! ## Transparent and shielded parts -/

structure OutPoint where
  hash : TransactionHash
  index : UInt32
  deriving DecidableEq

inductive Input
  | PrevOut (outpoint : OutPoint)
  | Coinbase (height : Nat)
  deriving DecidableEq

def Input.outpoint : Input → Option OutPoint
  | PrevOut outpoint => some outpoint
  | Coinbase _ => none

structure Output where
  value : Amount .NonNegative
  lock_script : List UInt8
  deriving DecidableEq

structure JoinSplit where
  nullifiers : Nullifier × Nullifier
  commitments : NoteCommitment × NoteCommitment
  vpub_old : Amount .NonNegative
  vpub_new : Amount .NonNegative
  deriving DecidableEq

/-- A spend is its nullifier and an output its `cm_u`. -/
structure SaplingShieldedData where
  spends : List Nullifier
  outputs : List NoteCommitment
  value_balance : Amount .NegativeAllowed
  deriving DecidableEq

structure OrchardFlags where
  enable_spends : Bool
  enable_outputs : Bool
  deriving DecidableEq

structure OrchardAction where
  nullifier : Nullifier
  cm_x : NoteCommitment
  deriving DecidableEq

structure OrchardShieldedData where
  flags : OrchardFlags
  actions : List OrchardAction
  value_balance : Amount .NegativeAllowed
  deriving DecidableEq

/-! ## Transactions -/

inductive TransactionData
  | V1 (inputs : List Input) (outputs : List Output)
  | V2 (inputs : List Input) (outputs : List Output) (joinsplit_data : List JoinSplit)
  | V3 (inputs : List Input) (outputs : List Output) (expiry_height : Nat)
      (joinsplit_data : List JoinSplit)
  | V4 (inputs : List Input) (outputs : List Output) (expiry_height : Nat)
      (joinsplit_data : List JoinSplit) (sapling_shielded_data : Option SaplingShieldedData)
  | V5 (expiry_height : Nat) (inputs : List Input) (outputs : List Output)
      (sapling_shielded_data : Option SaplingShieldedData)
      (orchard_shielded_data : Option OrchardShieldedData)
  | VCrosslink (expiry_height : Nat) (inputs : List Input) (outputs : List Output)
      (sapling_shielded_data : Option SaplingShieldedData)
      (orchard_shielded_data : Option OrchardShieldedData)
      (staking_action : Option StakingAction)
  deriving DecidableEq

structure Transaction where
  hash : TransactionHash
  data : TransactionData
  deriving DecidableEq

namespace Transaction

variable (tx : Transaction)

def staking_action : Option StakingAction :=
  match tx.data with
  | .VCrosslink _ _ _ _ _ action => action
  | _ => none

def inputs (tx : Transaction) : List Input :=
  match tx.data with
  | .V1 inputs _ => inputs
  | .V2 inputs _ _ => inputs
  | .V3 inputs _ _ _ => inputs
  | .V4 inputs _ _ _ _ => inputs
  | .V5 _ inputs _ _ _ => inputs
  | .VCrosslink _ inputs _ _ _ _ => inputs

def outputs (tx : Transaction) : List Output :=
  match tx.data with
  | .V1 _ outputs => outputs
  | .V2 _ outputs _ => outputs
  | .V3 _ outputs _ _ => outputs
  | .V4 _ outputs _ _ _ => outputs
  | .V5 _ _ outputs _ _ => outputs
  | .VCrosslink _ _ outputs _ _ _ => outputs

def joinsplits (tx : Transaction) : List JoinSplit :=
  match tx.data with
  | .V2 _ _ joinsplits => joinsplits
  | .V3 _ _ _ joinsplits => joinsplits
  | .V4 _ _ _ joinsplits _ => joinsplits
  | .V1 _ _ | .V5 _ _ _ _ _ | .VCrosslink _ _ _ _ _ _ => []

def sapling_shielded_data : Option SaplingShieldedData :=
  match tx.data with
  | .V4 _ _ _ _ sapling => sapling
  | .V5 _ _ _ sapling _ => sapling
  | .VCrosslink _ _ _ sapling _ _ => sapling
  | .V1 _ _ | .V2 _ _ _ | .V3 _ _ _ _ => none

def orchard_shielded_data : Option OrchardShieldedData :=
  match tx.data with
  | .V5 _ _ _ _ orchard => orchard
  | .VCrosslink _ _ _ _ orchard _ => orchard
  | .V1 _ _ | .V2 _ _ _ | .V3 _ _ _ _ | .V4 _ _ _ _ _ => none

def expiry_height : Option Nat :=
  match tx.data with
  | .V1 _ _ | .V2 _ _ _ => none
  | .V3 _ _ expiry _ | .V4 _ _ expiry _ _ | .V5 expiry _ _ _ _ | .VCrosslink expiry _ _ _ _ _ =>
    if expiry = 0 then none else some expiry

def spent_outpoints : List OutPoint := tx.inputs.filterMap Input.outpoint

def sprout_nullifiers : List Nullifier :=
  tx.joinsplits.flatMap fun j => [j.nullifiers.1, j.nullifiers.2]

def sapling_nullifiers : List Nullifier :=
  match tx.sapling_shielded_data with
  | some data => data.spends
  | none => []

def orchard_nullifiers : List Nullifier :=
  match tx.orchard_shielded_data with
  | some data => data.actions.map (·.nullifier)
  | none => []

def sprout_note_commitments : List NoteCommitment :=
  tx.joinsplits.flatMap fun j => [j.commitments.1, j.commitments.2]

def sapling_note_commitments : List NoteCommitment :=
  match tx.sapling_shielded_data with
  | some data => data.outputs
  | none => []

def orchard_note_commitments : List NoteCommitment :=
  match tx.orchard_shielded_data with
  | some data => data.actions.map (·.cm_x)
  | none => []

def is_coinbase : Bool :=
  match tx.inputs with
  | [.Coinbase _] => true
  | _ => false

end Transaction

/-! ## Blocks -/

structure Block where
  header : Header
  transactions : List Transaction
  deriving DecidableEq

namespace Block

def coinbase_height (b : Block) : Option Nat := do
  let tx ← b.transactions.head?
  match ← tx.inputs.head? with
  | .Coinbase height => some height
  | .PrevOut _ => none

def sprout_note_commitments (block : Block) : List NoteCommitment :=
  block.transactions.flatMap (·.sprout_note_commitments)

def sapling_note_commitments (block : Block) : List NoteCommitment :=
  block.transactions.flatMap (·.sapling_note_commitments)

def orchard_note_commitments (block : Block) : List NoteCommitment :=
  block.transactions.flatMap (·.orchard_note_commitments)

end Block

end ZebraCrosslink
