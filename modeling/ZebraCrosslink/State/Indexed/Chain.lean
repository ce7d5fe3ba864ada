import ZebraCrosslink.State.Indexed.Block
import ZebraCrosslink.State.Indexed.Trees

/-!
# A chain with its indexes

`ChainInner` has every index that the source keeps for a non-finalized chain. The fields of the
transactions and of each tree are grouped. The type `H` of the history trees is left open.
-/

open Rust

namespace ZebraCrosslink

structure BlockInfo where
  value_pools : ValueBalance .NonNegative
  size : UInt32
  deriving DecidableEq

@[ext]
structure ChainInner (H : Type) where
  blocks : Map Nat IndexedBlock
  height_by_hash : Map BlockHash Nat
  txs : TransactionIndexes
  sprout : SproutIndex
  sapling : TreeIndex 32
  sapling_subtrees : Subtrees
  orchard : TreeIndex 32
  orchard_subtrees : Subtrees
  history_trees_by_height : Map Nat H
  partial_cumulative_work : Nat
  chain_value_pools : ValueBalance .NonNegative
  block_info_by_height : Map Nat BlockInfo

structure Treestate (H : Type) where
  note_commitment_trees : NoteCommitmentTrees
  history_tree : H

/-- Two results that are computed at the same time. A panic of either one ends the call, and then the
error of the first one comes first. -/
def Verdict.both {α β : Type} (x : Verdict α) (y : Verdict β) : Verdict (α × β) :=
  ExceptT.mk do
    let a ← x.run
    let b ← y.run
    pure do
      let a ← a
      let b ← b
      pure (a, b)

namespace ChainInner

section

variable {H : Type} (rules : IndexRules H) (position : RevertPosition)

/-! ## Reading -/

def is_empty (c : ChainInner H) : Bool := c.blocks.keys = ∅

def max_block_height (c : ChainInner H) : Option Nat := c.blocks.lastKey

def non_finalized_tip_height (c : ChainInner H) : Except Abort Nat :=
  orAbort c.max_block_height (.expect "only called while blocks is populated")

def non_finalized_root_height (c : ChainInner H) : Except Abort Nat :=
  orAbort c.blocks.firstKey (.expect "only called while blocks is populated")

def non_finalized_tip_hash (c : ChainInner H) : Except Abort BlockHash :=
  orAbort (c.blocks.last.map (·.2.hash)) (.expect "only called while blocks is populated")

def subtree_for_tip (c : ChainInner H) (subtrees : Subtrees) : Option NoteCommitmentSubtree :=
  c.max_block_height.bind subtrees.subtree

def note_commitment_trees_for_tip (c : ChainInner H) : Except Abort NoteCommitmentTrees := do
  let sprout ← c.sprout.note_commitment_tree_for_tip "sprout"
  let sapling ← c.sapling.note_commitment_tree_for_tip "sapling"
  let orchard ← c.orchard.note_commitment_tree_for_tip "orchard"
  pure {
    sprout
    sapling
    sapling_subtree := c.subtree_for_tip c.sapling_subtrees
    orchard
    orchard_subtree := c.subtree_for_tip c.orchard_subtrees }

def history_block_commitment_tree (c : ChainInner H) : Except Abort H :=
  orAbort (c.history_trees_by_height.last.map (·.2))
    (.expect "only called while history_trees_by_height is populated")

def history_tree (c : ChainInner H) (height : Nat) : Option H :=
  c.history_trees_by_height.lookup height

def treestate (c : ChainInner H) (height : Nat) : Option (Treestate H) := do
  let sprout ← c.sprout.tree height
  let sapling ← c.sapling.tree height
  let orchard ← c.orchard.tree height
  let history_tree ← c.history_tree height
  some {
    note_commitment_trees := {
      sprout
      sapling
      sapling_subtree := c.sapling_subtrees.subtree height
      orchard
      orchard_subtree := c.orchard_subtrees.subtree height }
    history_tree }

/-! ## Pushing a block -/

def update_with_value_pool_change (c : ChainInner H) (block_value_pool_change : ValueBalance .NegativeAllowed)
    (height size : Nat) : Verdict (ChainInner H) :=
  match c.chain_value_pools.add_chain_value_pool_change block_value_pool_change with
  | .ok chain_value_pools => pure { c with
      chain_value_pools
      block_info_by_height :=
        c.block_info_by_height.insert height ⟨chain_value_pools, UInt32.ofNat size⟩ }
  | .error value_balance_error => Verdict.reject
      (.AddValuePool value_balance_error c.chain_value_pools block_value_pool_change (some height))

def update_chain_tip_with_block_except_trees (b : IndexedBlock) (c : ChainInner H) :
    Verdict (ChainInner H) := do
  let height_by_hash ← liftAbort (orAbort (c.height_by_hash.insertNew b.hash b.height)
    (.assert "block heights must be unique within a single chain"))
  let block_work ← liftAbort (orAbort (CompactDifficulty.to_work b.block.header.difficulty_threshold)
    (.expect "work has already been validated"))
  let partial_cumulative_work ← liftAbort (orAbort
    (if c.partial_cumulative_work + block_work < 2 ^ 128 then
      some (c.partial_cumulative_work + block_work) else none)
    (.expect "Work values do not overflow"))
  let txs ← TransactionIndexes.update_with_transactions rules b c.txs 0
    (b.block.transactions.zip b.transaction_hashes)
  update_with_value_pool_change { c with height_by_hash, partial_cumulative_work, txs }
    b.chain_value_pool_change b.height (rules.zcash_serialized_size b.block)

def update_chain_tip_with_block_parallel (b : IndexedBlock) (c : ChainInner H) :
    Verdict (ChainInner H) := do
  let nct ← liftAbort c.note_commitment_trees_for_tip
  let (nct, c) ← Verdict.both
    ((nct.update_trees_parallel rules.hashes b.block).adapt .NoteCommitmentTreeError)
    (c.update_chain_tip_with_block_except_trees rules b)
  let sprout ← liftAbort
    (c.sprout.add_sprout_tree_and_anchor rules.hashes.sprout b.height nct.sprout)
  let sapling ← liftAbort
    (add_sapling_tree_and_anchor rules.hashes.sapling b.height nct.sapling c.sapling)
  let orchard ← liftAbort
    (add_orchard_tree_and_anchor rules.hashes.orchard b.height nct.orchard c.orchard)
  let sapling_tree ← liftAbort (sapling.note_commitment_tree_for_tip "sapling")
  let orchard_tree ← liftAbort (orchard.note_commitment_tree_for_tip "orchard")
  let history_tree ← liftAbort c.history_block_commitment_tree
  let history_tree ← ExceptT.mk (.ok ((rules.push_history history_tree b.block
    (sapling_tree.root rules.hashes.sapling) (orchard_tree.root rules.hashes.orchard)).mapError
    ValidateContextError.HistoryTreeError))
  let history_trees_by_height ← liftAbort (orAbort
    (c.history_trees_by_height.insertNew b.height history_tree)
    (.assert "incorrect overwrite of history tree: trees must be reverted then inserted"))
  pure { c with
    sprout
    sapling
    sapling_subtrees := c.sapling_subtrees.add nct.sapling_subtree
    orchard
    orchard_subtrees := c.orchard_subtrees.add nct.orchard_subtree
    history_trees_by_height }

def push (b : IndexedBlock) (c : ChainInner H) : Verdict (ChainInner H) := do
  let c ← c.update_chain_tip_with_block_parallel rules b
  pure { c with blocks := c.blocks.insert b.height b }

/-! ## Reverting a block -/

def remove_history_tree (height : Nat) (m : Map Nat H) : Except Abort (Map Nat H) :=
  match position with
  | .Root => .ok (m.filter fun index_height _ => height < index_height)
  | .Tip => orAbort (m.removeOld height)
      (.expect "History tree must be present if block was added to chain")

def revert_value_pool_change (block_value_pool_change : ValueBalance .NegativeAllowed)
    (pools : ValueBalance .NonNegative) : Except Abort (ValueBalance .NonNegative) :=
  match position with
  | .Root => .ok pools
  | .Tip => orAbort (pools.add_chain_value_pool_change block_value_pool_change.neg).toOption
      (.expect "reverting the tip will leave the pools in a previously valid state")

def revert_chain_with (b : IndexedBlock) (position : RevertPosition) (c : ChainInner H) :
    Except Abort (ChainInner H) := do
  let height_by_hash ← orAbort (c.height_by_hash.removeOld b.hash)
    (.assert "hash must be present if block was added to chain")
  let block_work ← orAbort (CompactDifficulty.to_work b.block.header.difficulty_threshold)
    (.expect "work has already been validated")
  let partial_cumulative_work ← orAbort
    (if block_work ≤ c.partial_cumulative_work then some (c.partial_cumulative_work - block_work)
      else none)
    (.expect "PartialCumulativeWork values do not underflow: all subtracted Work values must have been previously added to the PartialCumulativeWork")
  let txs ← TransactionIndexes.revert_transactions rules b c.txs
    (b.block.transactions.zip b.transaction_hashes)
  let sprout ← c.sprout.remove_sprout_tree_and_anchor position b.height c.max_block_height
  let sapling ← remove_sapling_tree_and_anchor position b.height c.max_block_height c.sapling
  let orchard ← remove_orchard_tree_and_anchor position b.height c.max_block_height c.orchard
  let history_trees_by_height ← remove_history_tree position b.height c.history_trees_by_height
  let chain_value_pools ←
    revert_value_pool_change position b.chain_value_pool_change c.chain_value_pools
  pure { c with
    height_by_hash
    partial_cumulative_work
    txs
    sprout
    sapling
    orchard
    history_trees_by_height
    chain_value_pools
    block_info_by_height := c.block_info_by_height.erase b.height }

/-- The chain without the block at a height, of which the indexes are not yet reverted. -/
def without (c : ChainInner H) (height : Nat) : ChainInner H :=
  { c with blocks := c.blocks.erase height }

def pop_tip (c : ChainInner H) : Except Abort (ChainInner H) := do
  let block_height ← c.non_finalized_tip_height
  let block ← orAbort (c.blocks.lookup block_height) (.expect "only called while blocks is populated")
  if (c.without block_height).is_empty then
    .error (.assert "Non-finalized chains must have at least one block to be valid")
  else (c.without block_height).revert_chain_with rules block .Tip

/-- The first subtree is dropped if the treestate has one. -/
def pop_subtree (subtrees : Subtrees) (subtree : Option NoteCommitmentSubtree) : Subtrees :=
  if subtree.isSome then subtrees.popFirst else subtrees

def pop_root (c : ChainInner H) : Except Abort (IndexedBlock × Treestate H × ChainInner H) := do
  let block_height ← c.non_finalized_root_height
  let treestate ← orAbort (c.treestate block_height)
    (.expect "The treestate must be present for the root height.")
  let trees := treestate.note_commitment_trees
  let block ← orAbort (c.blocks.lookup block_height) (.expect "only called while blocks is populated")
  let c ← revert_chain_with rules block .Root { c with
    sapling_subtrees := pop_subtree c.sapling_subtrees trees.sapling_subtree
    orchard_subtrees := pop_subtree c.orchard_subtrees trees.orchard_subtree
    blocks := c.blocks.erase block_height }
  pure (block, treestate, c)

def pop_to (rules : IndexRules H) (fork_tip : BlockHash) :
    Nat → ChainInner H → Except Abort (ChainInner H)
  | 0, _ => .error .outOfFuel
  | fuel + 1, forked => do
    let tip ← forked.non_finalized_tip_hash
    if tip = fork_tip then pure forked
    else do
      let forked ← forked.pop_tip rules
      pop_to rules fork_tip fuel forked

def fork (fork_tip : BlockHash) (c : ChainInner H) : Except Abort (Option (ChainInner H)) :=
  if fork_tip ∉ c.height_by_hash then .ok none
  else do
    let forked ← pop_to rules fork_tip c.blocks.keys.card c
    pure (some forked)

/-! ## New chains -/

structure FinalizedTip (H : Type) where
  height : Nat
  sprout : SproutTree
  sapling : SaplingTree
  orchard : OrchardTree
  history_tree : H
  chain_value_pools : ValueBalance .NonNegative

def new (tip : FinalizedTip H) : Except Abort (ChainInner H) := do
  let sprout ← SproutIndex.empty.add_sprout_tree_and_anchor rules.hashes.sprout tip.height tip.sprout
  let sapling ← add_sapling_tree_and_anchor rules.hashes.sapling tip.height tip.sapling .empty
  let orchard ← add_orchard_tree_and_anchor rules.hashes.orchard tip.height tip.orchard .empty
  let history_trees_by_height ← orAbort (Map.insertNew ∅ tip.height tip.history_tree)
    (.assert "incorrect overwrite of history tree: trees must be reverted then inserted")
  pure {
    blocks := ∅
    height_by_hash := ∅
    txs := .empty
    sprout
    sapling
    sapling_subtrees := ∅
    orchard
    orchard_subtrees := ∅
    history_trees_by_height
    partial_cumulative_work := 0
    chain_value_pools := tip.chain_value_pools
    block_info_by_height := ∅ }

def push_all (rules : IndexRules H) : ChainInner H → List IndexedBlock → Verdict (ChainInner H)
  | c, [] => pure c
  | c, b :: rest => do
    let c ← c.push rules b
    push_all rules c rest

end

end ChainInner

end ZebraCrosslink
