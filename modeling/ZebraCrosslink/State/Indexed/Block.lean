import ZebraCrosslink.State.Chains
import ZebraCrosslink.State.Indexed.Transfers

/-!
# The transactions of a block in the indexes of a chain

The indexes by transaction id, outpoint, nullifier and address, as they are extended with a block and
reverted.
-/

open Rust

namespace ZebraCrosslink

/-- A contextually verified block with the outputs and amounts that were looked up for it. -/
structure IndexedBlock extends SemanticallyVerifiedBlock where
  new_outputs : Map OutPoint OrderedUtxo
  spent_outputs : Map OutPoint OrderedUtxo
  transaction_hashes : List TransactionHash
  chain_value_pool_change : ValueBalance .NegativeAllowed

/-- What the indexes take from outside of the repository: the hashes of the trees, the address of an
output, the ZIP-221 history tree and the size of a block. -/
structure IndexRules (H : Type) where
  hashes : TreeHashes
  address : Output → Option Address
  push_history : H → Block → TreeNode → TreeNode → Except String H
  zcash_serialized_size : Block → Nat

/-- The id of the spending transaction is kept with the `indexer` feature. -/
abbrev SpendingTransactionId : Type := TransactionHash

@[ext]
structure TransactionIndexes where
  tx_loc_by_hash : Map TransactionHash TransactionLocation
  created_utxos : Map OutPoint OrderedUtxo
  spent_utxos : Map OutPoint SpendingTransactionId
  sprout_nullifiers : Map Nullifier SpendingTransactionId
  sapling_nullifiers : Map Nullifier SpendingTransactionId
  orchard_nullifiers : Map Nullifier SpendingTransactionId
  partial_transparent_transfers : AddressTransfers

/-- How the indexes move: a block is added to them or taken out. -/
structure IndexMove where
  entry : ∀ {κ α : Type} [DecidableEq κ], Map κ α → κ → α → Option (Map κ α)
  transfer : AddressTransfers → Address → Transfer → Except Abort AddressTransfers

namespace IndexMove

def update : IndexMove := ⟨fun m k a => m.insertNew k a, AddressTransfers.update⟩

def revert : IndexMove := ⟨fun m k _ => m.removeOld k, AddressTransfers.revert⟩

/-- Only outputs with an address are indexed by it. -/
def move_address (move : IndexMove) (m : AddressTransfers) (address : Option Address)
    (transfer : Transfer) : Except Abort AddressTransfers :=
  match address with
  | some address => move.transfer m address transfer
  | none => .ok m

end IndexMove

/-! ## Updates -/

def add_to_non_finalized_chain_unique (duplicate_nullifier_error : Nullifier → ValidateContextError)
    (revealing_tx_id : SpendingTransactionId) (chain_nullifiers : Map Nullifier SpendingTransactionId) :
    List Nullifier → Verdict (Map Nullifier SpendingTransactionId)
  | [] => pure chain_nullifiers
  | nullifier :: rest =>
    match chain_nullifiers.insertNew nullifier revealing_tx_id with
    | none => Verdict.reject (duplicate_nullifier_error nullifier)
    | some chain_nullifiers =>
      add_to_non_finalized_chain_unique duplicate_nullifier_error revealing_tx_id chain_nullifiers rest

def remove_from_non_finalized_chain (chain_nullifiers : Map Nullifier SpendingTransactionId) :
    List Nullifier → Except Abort (Map Nullifier SpendingTransactionId)
  | [] => .ok chain_nullifiers
  | nullifier :: rest => do
    let chain_nullifiers ← orAbort (chain_nullifiers.removeOld nullifier)
      (.assert "nullifier must be present if block was added to chain")
    remove_from_non_finalized_chain chain_nullifiers rest

def outpoints (hash : TransactionHash) (outputs : List Output) : List OutPoint :=
  (List.range outputs.length).map fun output_index => ⟨hash, UInt32.ofNat output_index⟩

namespace TransactionIndexes

def empty : TransactionIndexes := ⟨∅, ∅, ∅, ∅, ∅, ∅, ∅⟩

section

variable {H : Type} (rules : IndexRules H) (block_created_outputs : Map OutPoint OrderedUtxo)
  (created_outputs : List Output) (creating_tx_hash spending_tx_hash : TransactionHash)
  (spent_outputs : Map OutPoint OrderedUtxo) (spending_inputs : List Input)

def move_output (move : IndexMove) (duplicate : Abort) (ix : TransactionIndexes) (outpoint : OutPoint) :
    Except Abort TransactionIndexes := do
  let created_utxo ← orAbort (block_created_outputs.lookup outpoint)
    (.expect "new_outputs contains all created UTXOs")
  let created_utxos ← orAbort (move.entry ix.created_utxos outpoint created_utxo) duplicate
  let partial_transparent_transfers ← move.move_address ix.partial_transparent_transfers
    (rules.address created_utxo.output) (.Created outpoint created_utxo)
  pure { ix with created_utxos, partial_transparent_transfers }

def update_with_output : TransactionIndexes → OutPoint → Except Abort TransactionIndexes :=
  move_output rules block_created_outputs .update
    (.assert "unexpected created output: duplicate update or duplicate UTXO")

def update_with_outputs (block_created_outputs : Map OutPoint OrderedUtxo)
    (ix : TransactionIndexes) : Except Abort TransactionIndexes :=
  (outpoints creating_tx_hash created_outputs).foldlM
    (update_with_output rules block_created_outputs) ix

def move_input (move : IndexMove) (duplicate missing : Abort) (ix : TransactionIndexes)
    (spending_input : Input) : Except Abort TransactionIndexes :=
  match spending_input.outpoint with
  | none => .ok ix
  | some spent_outpoint => do
    let spent_utxos ← orAbort (move.entry ix.spent_utxos spent_outpoint spending_tx_hash) duplicate
    let spent_output ← orAbort (spent_outputs.lookup spent_outpoint) missing
    let partial_transparent_transfers ← move.move_address ix.partial_transparent_transfers
      (rules.address spent_output.output) (.Spent spent_outpoint spending_tx_hash spent_output)
    pure { ix with spent_utxos, partial_transparent_transfers }

def update_with_input : TransactionIndexes → Input → Except Abort TransactionIndexes :=
  move_input rules spending_tx_hash spent_outputs .update
    (.assert "unexpected duplicate spent output: should be checked earlier")
    (.panic "unexpected missing spent output: all spent outputs must be indexed")

def update_with_inputs (spending_tx_hash : TransactionHash)
    (spent_outputs : Map OutPoint OrderedUtxo) (ix : TransactionIndexes) :
    Except Abort TransactionIndexes :=
  spending_inputs.foldlM (update_with_input rules spending_tx_hash spent_outputs) ix

def check_version (tx : Transaction) : Except Abort Unit :=
  if tx.recent then .ok ()
  else .error (.panic "older transaction versions only exist in finalized blocks, because of the mandatory canopy checkpoint")

def update_with_transaction (b : IndexedBlock) (ix : TransactionIndexes) (transaction_index : Nat)
    (tx : Transaction) (transaction_hash : TransactionHash) : Verdict TransactionIndexes := do
  liftAbort (check_version tx)
  let tx_loc_by_hash ← liftAbort (orAbort
    (ix.tx_loc_by_hash.insertNew transaction_hash ⟨b.height, transaction_index⟩)
    (.assert "transactions must be unique within a single chain"))
  let ix ← liftAbort (update_with_outputs rules tx.outputs transaction_hash b.new_outputs
    { ix with tx_loc_by_hash })
  let ix ← liftAbort (update_with_inputs rules tx.inputs transaction_hash b.spent_outputs ix)
  let sprout_nullifiers ← add_to_non_finalized_chain_unique (.DuplicateSproutNullifier · false)
    transaction_hash ix.sprout_nullifiers tx.sprout_nullifiers
  let sapling_nullifiers ← add_to_non_finalized_chain_unique (.DuplicateSaplingNullifier · false)
    transaction_hash ix.sapling_nullifiers tx.sapling_nullifiers
  let orchard_nullifiers ← add_to_non_finalized_chain_unique (.DuplicateOrchardNullifier · false)
    transaction_hash ix.orchard_nullifiers tx.orchard_nullifiers
  pure { ix with sprout_nullifiers, sapling_nullifiers, orchard_nullifiers }

def update_with_transactions (b : IndexedBlock) (ix : TransactionIndexes) (transaction_index : Nat) :
    List (Transaction × TransactionHash) → Verdict TransactionIndexes
  | [] => pure ix
  | (tx, hash) :: rest => do
    let ix ← update_with_transaction rules b ix transaction_index tx hash
    update_with_transactions b ix (transaction_index + 1) rest

/-! ## Reverts -/

def revert_output : TransactionIndexes → OutPoint → Except Abort TransactionIndexes :=
  move_output rules block_created_outputs .revert
    (.assert "unexpected revert of created output: duplicate revert or duplicate UTXO")

def revert_outputs (block_created_outputs : Map OutPoint OrderedUtxo) (ix : TransactionIndexes) :
    Except Abort TransactionIndexes :=
  (outpoints creating_tx_hash created_outputs).foldlM (revert_output rules block_created_outputs) ix

def revert_input : TransactionIndexes → Input → Except Abort TransactionIndexes :=
  move_input rules spending_tx_hash spent_outputs .revert
    (.assert "spent_utxos must be present if block was added to chain")
    (.panic "unexpected missing reverted spent output: all spent outputs must be indexed")

def revert_inputs (spending_tx_hash : TransactionHash) (spent_outputs : Map OutPoint OrderedUtxo)
    (ix : TransactionIndexes) : Except Abort TransactionIndexes :=
  spending_inputs.foldlM (revert_input rules spending_tx_hash spent_outputs) ix

def revert_transaction (b : IndexedBlock) (ix : TransactionIndexes) (tx : Transaction)
    (transaction_hash : TransactionHash) : Except Abort TransactionIndexes := do
  check_version tx
  let ix ← revert_outputs rules tx.outputs transaction_hash b.new_outputs ix
  let ix ← revert_inputs rules tx.inputs transaction_hash b.spent_outputs ix
  let tx_loc_by_hash ← orAbort (ix.tx_loc_by_hash.removeOld transaction_hash)
    (.assert "transactions must be present if block was added to chain")
  let sprout_nullifiers ← remove_from_non_finalized_chain ix.sprout_nullifiers tx.sprout_nullifiers
  let sapling_nullifiers ←
    remove_from_non_finalized_chain ix.sapling_nullifiers tx.sapling_nullifiers
  let orchard_nullifiers ←
    remove_from_non_finalized_chain ix.orchard_nullifiers tx.orchard_nullifiers
  pure { ix with tx_loc_by_hash, sprout_nullifiers, sapling_nullifiers, orchard_nullifiers }

def revert_transactions (b : IndexedBlock) (ix : TransactionIndexes) :
    List (Transaction × TransactionHash) → Except Abort TransactionIndexes
  | [] => .ok ix
  | (tx, hash) :: rest => do
    let ix ← revert_transaction rules b ix tx hash
    revert_transactions b ix rest

end

end TransactionIndexes

end ZebraCrosslink
