import ZebraCrosslink.Rust.IndexMap
import ZebraCrosslink.State.Chains

/-!
# Writing the PoW state

How blocks enter the non-finalized state, move on to the finalized database, and leave again when
they are invalidated.
-/

open Rust

namespace ZebraCrosslink

/-! ## The database -/

namespace ZebraDb

variable (db : ZebraDb) (nullifier : Nullifier)

def finalized_tip_hash : BlockHash :=
  match db.tip with
  | some (_, hash) => hash
  | none => GENESIS_PREVIOUS_BLOCK_HASH

def finalized_tip_height : Option Nat := db.tip.map (·.1)

def transactions (db : ZebraDb) : List Transaction := db.blocks.flatMap (·.block.transactions)

def contains_sprout_nullifier : Bool :=
  db.transactions.any fun tx => tx.sprout_nullifiers.contains nullifier

def contains_sapling_nullifier : Bool :=
  db.transactions.any fun tx => tx.sapling_nullifiers.contains nullifier

def contains_orchard_nullifier : Bool :=
  db.transactions.any fun tx => tx.orchard_nullifiers.contains nullifier

def txHeight (blocks : List ContextuallyVerifiedBlock) (hash : TransactionHash) : Option Nat :=
  (blocks.reverse.find? fun b => b.block.transactions.any fun tx => tx.hash = hash).map (·.height)

/-- The unspent outputs after one more block. An output is deleted where `txHeight` finds it before
the block, or else in the block itself. -/
def writeUtxos (before : List ContextuallyVerifiedBlock) (utxos : List (OutPoint × Nat))
    (b : ContextuallyVerifiedBlock) : List (OutPoint × Nat) :=
  let created := (b.block.transactions.flatMap (·.created_outpoints)).map fun o => (o, b.height)
  let spent := (b.block.transactions.flatMap (·.spent_outpoints)).map fun o =>
    (o, (txHeight before o.hash).getD b.height)
  (utxos ++ created).filter fun u => u ∉ spent

def utxosFrom (before : List ContextuallyVerifiedBlock) (utxos : List (OutPoint × Nat)) :
    List ContextuallyVerifiedBlock → List (OutPoint × Nat)
  | [] => utxos
  | b :: rest => utxosFrom (before ++ [b]) (writeUtxos before utxos b) rest

def utxo (outpoint : OutPoint) : Bool :=
  match txHeight db.blocks outpoint.hash with
  | some height => (outpoint, height) ∈ utxosFrom [] [] db.blocks
  | none => false

/-- `FinalizedState::commit_finalized_direct`, without the trees. -/
def commit_finalized_direct (b : ContextuallyVerifiedBlock) : Except Abort ZebraDb :=
  if db.is_empty then
    if db.finalized_tip_hash ≠ b.block.header.previous_block_hash then
      .error (.assert "the first block added to an empty state must be a genesis block")
    else if b.height ≠ 0 then .error (.assert "cannot commit genesis: invalid height")
    else .ok ⟨db.blocks ++ [b]⟩
  else if db.finalized_tip_height.map (· + 1) ≠ some b.height then
    .error (.assert "committed block height must be 1 more than the finalized tip height")
  else if db.finalized_tip_hash ≠ b.block.header.previous_block_hash then
    .error (.assert "committed block must be a child of the finalized tip")
  else .ok ⟨db.blocks ++ [b]⟩

end ZebraDb

/-! ## The non-finalized state -/

def MAX_NON_FINALIZED_CHAIN_FORKS : Nat := 10

def MAX_INVALIDATED_BLOCKS : Nat := 100

namespace NonFinalizedState

/-- `BTreeSet::insert` into a list that is kept best first. -/
def insertSorted (chain : Chain) : List Chain → Except Abort (List Chain)
  | [] => .ok [chain]
  | other :: rest => do
    match ← chain.cmp other with
    | .gt => pure (chain :: other :: rest)
    | _ => do
      let rest ← insertSorted chain rest
      pure (other :: rest)

/-- `BTreeSet::retain` with a test that may panic. -/
def retain (keep : Chain → Except Abort Bool) : List Chain → Except Abort (List Chain)
  | [] => .ok []
  | chain :: rest => do
    let kept ← keep chain
    let rest ← retain keep rest
    pure (if kept then chain :: rest else rest)

def insert_with (nfs : NonFinalizedState) (chain : Chain) (keep : Chain → Except Abort Bool) :
    Except Abort NonFinalizedState := do
  let chain_set ← insertSorted chain nfs.chain_set
  let chain_set ← retain keep chain_set
  pure { nfs with chain_set := chain_set.take MAX_NON_FINALIZED_CHAIN_FORKS }

def insert (nfs : NonFinalizedState) (chain : Chain) : Except Abort NonFinalizedState :=
  nfs.insert_with chain fun _ => .ok true

def finalize_side_chains (best_chain_root : ContextuallyVerifiedBlock) :
    List Chain → NonFinalizedState → Except Abort NonFinalizedState
  | [], nfs => .ok nfs
  | side_chain :: rest, nfs => do
    let root_hash ← side_chain.non_finalized_root_hash
    if root_hash ≠ best_chain_root.hash then finalize_side_chains best_chain_root rest nfs
    else do
      let (_, side_chain) ← side_chain.pop_root
      let nfs ← nfs.insert side_chain
      finalize_side_chains best_chain_root rest nfs

def finalize (nfs : NonFinalizedState) :
    Except Abort (ContextuallyVerifiedBlock × NonFinalizedState) :=
  match nfs.chain_set with
  | [] => .error (.expect "there's at least one chain")
  | best_chain :: side_chains => do
    let (best_chain_root, best_chain) ← best_chain.pop_root
    let taken := { nfs with chain_set := if best_chain.blocks.isEmpty then [] else [best_chain] }
    let nfs ← finalize_side_chains best_chain_root side_chains taken
    pure (best_chain_root, { nfs with
      invalidated_blocks := nfs.invalidated_blocks.filter fun entry =>
        best_chain_root.height ≤ entry.1 })

def find_chain (nfs : NonFinalizedState) (predicate : Chain → Bool) : Option Chain :=
  nfs.chain_set.find? predicate

def crosslink_finalize (nfs : NonFinalizedState) (hash : BlockHash) :
    Option (List ContextuallyVerifiedBlock) × NonFinalizedState :=
  match nfs.find_chain fun chain => (chain.height_by_hash hash).isSome with
  | some chain =>
    let height := (chain.height_by_hash hash).getD 0
    (some (chain.blocks.filter fun b => b.height ≤ height),
      { nfs with chain_set := nfs.chain_set.filter fun c => c.contains_block_hash hash })
  | none => (none, nfs)

/-- `find_chain` with a test that may panic. -/
def find_tip (parent_hash : BlockHash) : List Chain → Except Abort (Option Chain)
  | [] => .ok none
  | chain :: rest => do
    let tip ← chain.non_finalized_tip_hash
    if tip = parent_hash then pure (some chain) else find_tip parent_hash rest

def find_fork (parent_hash : BlockHash) : List Chain → Except Abort (Option Chain)
  | [] => .ok none
  | chain :: rest => do
    match ← chain.fork parent_hash with
    | some forked => pure (some forked)
    | none => find_fork parent_hash rest

def parent_chain (nfs : NonFinalizedState) (parent_hash : BlockHash) : Verdict Chain := do
  match ← liftAbort (find_tip parent_hash nfs.chain_set) with
  | some chain => pure chain
  | none =>
    match ← liftAbort (find_fork parent_hash nfs.chain_set) with
    | some chain => pure chain
    | none => Verdict.reject .NotReadyToBeCommitted

end NonFinalizedState

/-! ## Contextual checks -/

def POW_ADJUSTMENT_BLOCK_SPAN : Nat := 28

/-- The consensus rules that the model does not look into. Each gives the reason for a rejection. -/
structure ContextRules where
  difficulty_threshold_and_time : List Block → SemanticallyVerifiedBlock → Option String
  spends_and_anchors : ZebraDb → Chain → SemanticallyVerifiedBlock → Option String
  block_commitment : ZebraDb → Chain → SemanticallyVerifiedBlock → Option String
  /-- What `commit_finalized` checks in a checkpoint verified block. -/
  checkpoint : ZebraDb → ContextuallyVerifiedBlock → Option String

def Verdict.rule (broken : Option String) : Verdict Unit :=
  match broken with
  | some reason => Verdict.reject (.Other reason)
  | none => pure ()

namespace check

/-- The blocks from the one with `hash` down to genesis. -/
def any_ancestor_blocks (nfs : NonFinalizedState) (db : ZebraDb) (hash : BlockHash) : List Block :=
  let chain := nfs.find_chain fun chain => chain.contains_block_hash hash
  match Read.height_by_hash chain db hash with
  | none => []
  | some height =>
    Read.mapWhile (fun h => Read.block chain db (.Height h)) (List.range (height + 1)).reverse

def block_is_valid_for_recent_chain (rules : ContextRules) (b : SemanticallyVerifiedBlock)
    (finalized_tip_height : Option Nat) (relevant_chain : List Block) : Verdict Unit := do
  match finalized_tip_height with
  | none => Verdict.abort (.expect
      "finalized state must contain at least one block to do contextual validation")
  | some finalized_tip_height =>
    if b.height ≤ finalized_tip_height then
      Verdict.reject (.OrphanedBlock b.height finalized_tip_height)
    else
      let relevant_chain := relevant_chain.take POW_ADJUSTMENT_BLOCK_SPAN
      match relevant_chain with
      | [] => Verdict.reject .NotReadyToBeCommitted
      | parent_block :: _ =>
        match parent_block.coinbase_height with
        | none => Verdict.abort (.expect "valid blocks have a coinbase height")
        | some parent_height =>
          if parent_height + 1 ≠ b.height then
            Verdict.reject (.NonSequentialBlock b.height parent_height)
          else Verdict.rule (rules.difficulty_threshold_and_time relevant_chain b)

variable (b : SemanticallyVerifiedBlock)

def no_duplicates_in_finalized_chain (db : ZebraDb) : Verdict Unit :=
  let txs := b.block.transactions
  match (txs.flatMap (·.sprout_nullifiers)).find? db.contains_sprout_nullifier with
  | some nullifier => Verdict.reject (.DuplicateSproutNullifier nullifier true)
  | none =>
    match (txs.flatMap (·.sapling_nullifiers)).find? db.contains_sapling_nullifier with
    | some nullifier => Verdict.reject (.DuplicateSaplingNullifier nullifier true)
    | none =>
      match (txs.flatMap (·.orchard_nullifiers)).find? db.contains_orchard_nullifier with
      | some nullifier => Verdict.reject (.DuplicateOrchardNullifier nullifier true)
      | none => pure ()

def initial_contextual_validity (rules : ContextRules) (db : ZebraDb) (nfs : NonFinalizedState)
    (b : SemanticallyVerifiedBlock) : Verdict Unit := do
  let relevant_chain := any_ancestor_blocks nfs db b.block.header.previous_block_hash
  block_is_valid_for_recent_chain rules b db.finalized_tip_height relevant_chain
  no_duplicates_in_finalized_chain b db

/-- The index of the transaction that creates the output, the last one if there are several. -/
def newOutputIndex (txs : List Transaction) (outpoint : OutPoint) : Option Nat :=
  (txs.zipIdx.reverse.find? fun tx => outpoint ∈ tx.1.created_outpoints).map (·.2)

def transparent_spend_chain_order (txs : List Transaction) (chain : Chain) (db : ZebraDb)
    (spend_tx_index_in_block : Nat) (spend : OutPoint) : Verdict Unit :=
  match newOutputIndex txs spend with
  | some tx_index_in_block =>
    if spend_tx_index_in_block ≤ tx_index_in_block then
      Verdict.reject (.EarlyTransparentSpend spend)
    else pure ()
  | none =>
    if spend ∈ chain.spent_utxos then
      Verdict.reject (.DuplicateTransparentSpend spend "the non-finalized chain")
    else if spend ∈ chain.unspent_utxos ∨ db.utxo spend then pure ()
    else Verdict.reject (.MissingTransparentOutput spend "the non-finalized and finalized chain")

/-- The spends of one transaction. The result is `block_spends` with them. -/
def transaction_spends (order : OutPoint → Verdict Unit) :
    List OutPoint → List OutPoint → Verdict (List OutPoint)
  | block_spends, [] => pure block_spends
  | block_spends, spend :: rest => do
    order spend
    if spend ∈ block_spends then
      Verdict.reject (.DuplicateTransparentSpend spend "the same block")
    else transaction_spends order (block_spends ++ [spend]) rest

def block_spends (order : Nat → OutPoint → Verdict Unit) :
    Nat → List OutPoint → List Transaction → Verdict Unit
  | _, _, [] => pure ()
  | index, spends, tx :: rest => do
    let spends ← transaction_spends (order index) spends tx.spent_outpoints
    block_spends order (index + 1) spends rest

def transparent_spend (chain : Chain) (db : ZebraDb) : Verdict Unit :=
  let txs := b.block.transactions
  block_spends (transparent_spend_chain_order txs chain db) 0 [] txs

end check

/-! ## Committing a block -/

namespace NonFinalizedState

variable (rules : ContextRules) (nfs : NonFinalizedState) (block_hash : BlockHash)

/-- The push runs in parallel to the other checks, so its panics come first. -/
def validate_and_update_parallel (db : ZebraDb) (new_chain : Chain) (b : ContextuallyVerifiedBlock) :
    Verdict Chain := do
  let pushed ← liftAbort (new_chain.push b).run
  Verdict.rule (rules.block_commitment db new_chain b)
  ExceptT.mk (.ok pushed)

def validate_and_commit (nfs : NonFinalizedState) (new_chain : Chain)
    (prepared : SemanticallyVerifiedBlock) (db : ZebraDb) : Verdict Chain := do
  if nfs.invalidated_blocks.any fun entry => entry.1 = prepared.height then
    Verdict.reject (.BlockPreviouslyInvalidated prepared.hash)
  else do
    check.transparent_spend prepared new_chain db
    Verdict.rule (rules.spends_and_anchors db new_chain prepared)
    validate_and_update_parallel rules db new_chain prepared

def tipIsNot (hash : BlockHash) (chain : Chain) : Except Abort Bool := do
  let tip ← chain.non_finalized_tip_hash
  pure (tip ≠ hash)

def commit_block (nfs : NonFinalizedState) (prepared : SemanticallyVerifiedBlock) (db : ZebraDb) :
    Verdict NonFinalizedState := do
  let parent_hash := prepared.block.header.previous_block_hash
  let parent_chain ← nfs.parent_chain parent_hash
  let modified_chain ← nfs.validate_and_commit rules parent_chain prepared db
  liftAbort (nfs.insert_with modified_chain (tipIsNot parent_hash))

def commit_new_chain (nfs : NonFinalizedState) (prepared : SemanticallyVerifiedBlock) (db : ZebraDb) :
    Verdict NonFinalizedState := do
  match db.finalized_tip_height with
  | none => Verdict.abort (.expect "finalized state contains blocks")
  | some _ => do
    let chain ← nfs.validate_and_commit rules ⟨[]⟩ prepared db
    liftAbort (nfs.insert chain)

/-! ## Invalidating and reconsidering -/

def take_out (chain : Chain) (block_hash : BlockHash) :
    Except Abort (NonFinalizedState × List ContextuallyVerifiedBlock) := do
  let root_hash ← chain.non_finalized_root_hash
  if root_hash = block_hash then do
    -- `chain_set.remove` compares the chain with itself
    let _ ← chain.cmp chain
    pure ({ nfs with chain_set := nfs.chain_set.filter fun c => c ≠ chain }, chain.blocks)
  else do
    match ← chain.invalidate_block block_hash with
    | none => .error (.expect "already checked that chain contains hash")
    | some (new_chain, invalidated_blocks) => do
      let nfs ← nfs.insert_with new_chain fun c => .ok (!c.contains_block_hash block_hash)
      pure (nfs, invalidated_blocks)

def invalidate_block : Except Abort (Except String BlockHash × NonFinalizedState) :=
  match nfs.find_chain fun chain => chain.contains_block_hash block_hash with
  | none => .ok (.error "block hash not found in any non-finalized chain", nfs)
  | some chain => do
    let (nfs, invalidated_blocks) ← nfs.take_out chain block_hash
    match invalidated_blocks with
    | [] => .error (.expect "should not be empty")
    | first :: _ =>
      let invalidated := indexInsert nfs.invalidated_blocks first.height invalidated_blocks
      pure (.ok block_hash, { nfs with
        invalidated_blocks := invalidated.drop (invalidated.length - MAX_INVALIDATED_BLOCKS) })

inductive ReconsiderError
  | MissingInvalidatedBlock (hash : BlockHash)
  | ParentChainNotFound (hash : BlockHash)
  | ValidationError (err : ValidateContextError)

def push_all (chain : Chain) : List ContextuallyVerifiedBlock → Verdict Chain
  | [] => pure chain
  | block :: rest => do
    let chain ← chain.push block
    push_all chain rest

def reconsider_parent (root_parent_hash : BlockHash) (db : ZebraDb) :
    ExceptT ReconsiderError (Except Abort) Chain :=
  if root_parent_hash = db.finalized_tip_hash then
    match db.finalized_tip_height with
    | none => throw (.ParentChainNotFound block_hash)
    | some _ => pure ⟨[]⟩
  else (nfs.parent_chain root_parent_hash).adapt fun _ => .ParentChainNotFound block_hash

def reconsider_block (db : ZebraDb) : ExceptT ReconsiderError (Except Abort) NonFinalizedState := do
  match nfs.invalidated_blocks.find? fun entry => entry.2.head?.any fun b => b.hash = block_hash with
  | none => throw (.MissingInvalidatedBlock block_hash)
  | some (_, invalidated_blocks) =>
    match invalidated_blocks with
    | [] => throw (.MissingInvalidatedBlock block_hash)
    | invalidated_root :: _ => do
      let root_parent_hash := invalidated_root.block.header.previous_block_hash
      let chain ← nfs.reconsider_parent block_hash root_parent_hash db
      let modified_chain ← (push_all chain invalidated_blocks).adapt .ValidationError
      let invalidated := match db.finalized_tip_height with
        | some height => nfs.invalidated_blocks.filter fun entry => height ≤ entry.1
        | none => nfs.invalidated_blocks
      liftAbort ({ nfs with invalidated_blocks := invalidated }.insert_with modified_chain
        (tipIsNot root_parent_hash))

end NonFinalizedState

end ZebraCrosslink
