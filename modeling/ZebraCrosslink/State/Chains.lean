import ZebraCrosslink.Chain.Trees
import ZebraCrosslink.State.Read

/-!
# Non-finalized chains

Chains are compared by the work in their non-finalized blocks and then by their tip hash. The indexes
that the source keeps beside the blocks of a chain are computed from the blocks here.
-/

open Rust

namespace ZebraCrosslink

/-! ## Work -/

namespace CompactDifficulty

def to_expanded (bits : UInt32) : Option Nat :=
  if bits &&& 0x800000 = 0x800000 then none
  else
    let mantissa := (bits &&& 0x7fffff).toNat
    let exponent : Int := ((bits >>> 24).toNat : Int) - 3
    let normal : Option (Nat × Nat) :=
      if 32 ≤ exponent then none
      else if exponent = 31 then if 255 < mantissa then none else some (mantissa <<< 16, 29)
      else if exponent = 30 then if 65535 < mantissa then none else some (mantissa <<< 8, 29)
      else if exponent < 0 then some (mantissa >>> (exponent.natAbs * 8), 0)
      else some (mantissa, exponent.toNat)
    normal.bind fun (mantissa, exponent) =>
      let result := mantissa * 256 ^ exponent
      if result = 0 then none else some result

/-- `Work::try_from`: `2 ^ 256 / (expanded + 1)`, if it fits in `u128`. -/
def to_work (bits : UInt32) : Option Nat := do
  let expanded ← to_expanded bits
  let result := (2 ^ 256 - 1 - expanded) / (expanded + 1) + 1
  if result < 2 ^ 128 then some result else none

end CompactDifficulty

open CompactDifficulty

/-! ## Verdicts -/

inductive ValidateContextError
  | NotReadyToBeCommitted
  | OrphanedBlock (candidate_height finalized_tip_height : Nat)
  | PrunedBelowFinalizedTip (block_height : Nat)
  | NonSequentialBlock (candidate_height parent_height : Nat)
  | BlockPreviouslyInvalidated (block_hash : BlockHash)
  | DuplicateTransparentSpend (outpoint : OutPoint) (location : String)
  | EarlyTransparentSpend (outpoint : OutPoint)
  | MissingTransparentOutput (outpoint : OutPoint) (location : String)
  | DuplicateSproutNullifier (nullifier : Nullifier) (in_finalized_state : Bool)
  | DuplicateSaplingNullifier (nullifier : Nullifier) (in_finalized_state : Bool)
  | DuplicateOrchardNullifier (nullifier : Nullifier) (in_finalized_state : Bool)
  | AddValuePool (value_balance_error : ValueBalanceError)
      (chain_value_pools : ValueBalance .NonNegative)
      (block_value_pool_change : ValueBalance .NegativeAllowed) (height : Option Nat)
  | NoteCommitmentTreeError (err : ZebraCrosslink.NoteCommitmentTreeError)
  | HistoryTreeError (err : String)
  | Other (reason : String)
  deriving DecidableEq

/-- A check that panics, rejects the block, or accepts it. -/
abbrev Verdict (α : Type) : Type := ExceptT ValidateContextError (Except Abort) α

namespace Verdict

variable {α : Type}

def reject (err : ValidateContextError) : Verdict α := ExceptT.mk (.ok (.error err))

def abort (a : Abort) : Verdict α := ExceptT.mk (.error a)

end Verdict

open Verdict

/-! ## Parts of a transaction -/

namespace Transaction

def created_outpoints (tx : Transaction) : List OutPoint :=
  (List.range tx.outputs.length).map fun index => { hash := tx.hash, index := UInt32.ofNat index }

def recent (tx : Transaction) : Bool :=
  match tx.data with
  | .V1 _ _ | .V2 _ _ _ | .V3 _ _ _ _ => false
  | _ => true

end Transaction

/-! ## Pushing a block -/

def insertUnique {α : Type} [DecidableEq α] : List α → List α → Option α
  | _, [] => none
  | seen, a :: rest => if a ∈ seen then some a else insertUnique (seen ++ [a]) rest

/-- The indexes of a chain, updated with one transaction after the transactions `before` it. -/
def update_with_transaction (before : List Transaction) (tx : Transaction) : Verdict Unit :=
  match tx.data with
  | .V1 _ _ | .V2 _ _ _ | .V3 _ _ _ _ =>
    abort (.panic
      "older transaction versions only exist in finalized blocks, because of the mandatory canopy checkpoint")
  | _ =>
    if before.any fun t => t.hash = tx.hash then
      abort (.assert "transactions must be unique within a single chain")
    else if (insertUnique (before.flatMap (·.created_outpoints)) tx.created_outpoints).isSome then
      abort (.assert "unexpected created output: duplicate update or duplicate UTXO")
    else if (insertUnique (before.flatMap (·.spent_outpoints)) tx.spent_outpoints).isSome then
      abort (.assert "unexpected duplicate spent output: should be checked earlier")
    else match insertUnique (before.flatMap (·.sprout_nullifiers)) tx.sprout_nullifiers with
    | some nullifier => reject (.DuplicateSproutNullifier nullifier false)
    | none =>
      match insertUnique (before.flatMap (·.sapling_nullifiers)) tx.sapling_nullifiers with
      | some nullifier => reject (.DuplicateSaplingNullifier nullifier false)
      | none =>
        match insertUnique (before.flatMap (·.orchard_nullifiers)) tx.orchard_nullifiers with
        | some nullifier => reject (.DuplicateOrchardNullifier nullifier false)
        | none => pure ()

def update_with_transactions (before : List Transaction) : List Transaction → Verdict Unit
  | [] => pure ()
  | tx :: rest => do
    update_with_transaction before tx
    update_with_transactions (before ++ [tx]) rest

namespace Chain

def transactions (chain : Chain) : List Transaction := chain.blocks.flatMap (·.block.transactions)

variable (chain : Chain)

def spent_utxos : List OutPoint := chain.transactions.flatMap (·.spent_outpoints)

def unspent_utxos : List OutPoint :=
  (chain.transactions.flatMap (·.created_outpoints)).filter fun o => o ∉ chain.spent_utxos

def blockWork (b : ContextuallyVerifiedBlock) : Nat :=
  (to_work b.block.header.difficulty_threshold).getD 0

def partial_cumulative_work : Nat := (chain.blocks.map blockWork).sum

def push (block : ContextuallyVerifiedBlock) : Verdict Chain :=
  if chain.contains_block_hash block.hash then
    abort (.assert "block heights must be unique within a single chain")
  else match to_work block.block.header.difficulty_threshold with
  | none => abort (.expect "work has already been validated")
  | some work =>
    if 2 ^ 128 ≤ chain.partial_cumulative_work + work then
      abort (.expect "Work values do not overflow")
    else do
      update_with_transactions chain.transactions block.block.transactions
      pure ⟨chain.blocks ++ [block]⟩

/-! ## Chain operations -/

def non_finalized_tip_hash : Except Abort BlockHash :=
  match chain.blocks.getLast? with
  | some block => .ok block.hash
  | none => .error (.expect "only called while blocks is populated")

def non_finalized_root_hash : Except Abort BlockHash :=
  match chain.blocks.head? with
  | some block => .ok block.hash
  | none => .error (.expect "only called while blocks is populated")

def pop_root : Except Abort (ContextuallyVerifiedBlock × Chain) :=
  match chain.blocks with
  | block :: rest => .ok (block, ⟨rest⟩)
  | [] => .error (.expect "only called while blocks is populated")

def pop_tip : Except Abort Chain :=
  if chain.blocks.isEmpty then .error (.expect "only called while blocks is populated")
  else if chain.blocks.dropLast.isEmpty then
    .error (.assert "Non-finalized chains must have at least one block to be valid")
  else .ok ⟨chain.blocks.dropLast⟩

def pop_to (fork_tip : BlockHash) : Nat → Chain → Except Abort Chain
  | 0, _ => .error .outOfFuel
  | fuel + 1, forked => do
    let tip ← forked.non_finalized_tip_hash
    if tip = fork_tip then pure forked
    else do
      let forked ← forked.pop_tip
      pop_to fork_tip fuel forked

def fork (fork_tip : BlockHash) : Except Abort (Option Chain) :=
  if !chain.contains_block_hash fork_tip then .ok none
  else do
    let forked ← pop_to fork_tip chain.blocks.length chain
    pure (some forked)

def child_blocks (block_height : Nat) : List ContextuallyVerifiedBlock :=
  chain.blocks.filter fun b => block_height ≤ b.height

def invalidate_block (block_hash : BlockHash) :
    Except Abort (Option (Chain × List ContextuallyVerifiedBlock)) :=
  match chain.height_by_hash block_hash with
  | none => .ok none
  | some block_height => do
    match ← chain.fork block_hash with
    | none => pure none
    | some forked => do
      let new_chain ← forked.pop_tip
      pure (some (new_chain, chain.child_blocks block_height))

/-- `Ord for Chain`. It panics on two chains with one tip. -/
def cmp (self other : Chain) : Except Abort Ordering :=
  if self.partial_cumulative_work ≠ other.partial_cumulative_work then
    .ok (compare self.partial_cumulative_work other.partial_cumulative_work)
  else match self.blocks.getLast?, other.blocks.getLast? with
  | some self_tip, some other_tip =>
    if self_tip.hash = other_tip.hash then
      .error (.panic "Chain tip block hashes are always unique")
    else .ok (compare self_tip.hash.toNat other_tip.hash.toNat)
  | _, _ => .error (.expect "always at least 1 element")

end Chain

end ZebraCrosslink
