import ZebraCrosslink.State.Write

/-!
# The block write worker

The worker owns the finalized database and the non-finalized chains. It publishes the chains to the
readers before it moves blocks from them to the database.
-/

open Rust

namespace ZebraCrosslink

/-- `non_finalized_state_sender` is the value in the watch channel that the readers see.
`checkpointing` says that the channel of checkpoint verified blocks is still open. -/
structure WriteBlockWorkerTask where
  finalized_state : ZebraDb
  non_finalized_state : NonFinalizedState
  non_finalized_state_sender : NonFinalizedState
  parent_error_map : List (BlockHash × ValidateContextError)
  checkpointing : Bool

inductive NonFinalizedWriteMessage
  | Commit (queued_child : SemanticallyVerifiedBlock)
  | CrosslinkFinalized (hash : BlockHash)
  | Invalidate (hash : BlockHash)
  | Reconsider (hash : BlockHash)

inductive WorkerEvent
  | CheckpointVerified (ordered_block : ContextuallyVerifiedBlock)
  | CheckpointsClosed
  | Write (msg : NonFinalizedWriteMessage)

def PARENT_ERROR_MAP_LIMIT : Nat := Read.MAX_BLOCK_REORG_HEIGHT * 2

variable (rules : ContextRules)

def validate_and_commit_non_finalized (db : ZebraDb) (nfs : NonFinalizedState)
    (prepared : SemanticallyVerifiedBlock) : Verdict NonFinalizedState := do
  check.initial_contextual_validity rules db nfs prepared
  if db.finalized_tip_hash = prepared.block.header.previous_block_hash then
    nfs.commit_new_chain rules prepared db
  else nfs.commit_block rules prepared db

namespace WriteBlockWorkerTask

def spawn (db : ZebraDb) : WriteBlockWorkerTask where
  finalized_state := db
  non_finalized_state := ⟨[], []⟩
  non_finalized_state_sender := ⟨[], []⟩
  parent_error_map := []
  checkpointing := true

def update_latest_chain_channels (w : WriteBlockWorkerTask) : Except Abort WriteBlockWorkerTask :=
  match w.non_finalized_state.best_chain with
  | none => .error (.expect "unexpected empty non-finalized state")
  | some best_chain =>
    if best_chain.blocks.isEmpty then .error (.expect "unexpected empty chain")
    else .ok { w with non_finalized_state_sender := w.non_finalized_state }

def finalize (w : WriteBlockWorkerTask) : Except Abort WriteBlockWorkerTask := do
  let (block, nfs) ← w.non_finalized_state.finalize
  let db ← w.finalized_state.commit_finalized_direct block
  pure { w with finalized_state := db, non_finalized_state := nfs }

def finalize_blocks : Nat → WriteBlockWorkerTask → Except Abort WriteBlockWorkerTask
  | 0, w => .ok w
  | n + 1, w => do
    let w ← w.finalize
    finalize_blocks n w

def finalize_past_reorg_limit :
    Nat → WriteBlockWorkerTask → Except Abort WriteBlockWorkerTask
  | 0, _ => .error .outOfFuel
  | fuel + 1, w =>
    match w.non_finalized_state.best_chain with
    | none => .error (.expect "just successfully inserted a non-finalized block above")
    | some best_chain =>
      if Read.MAX_BLOCK_REORG_HEIGHT < best_chain.blocks.length then do
        let w ← w.finalize
        finalize_past_reorg_limit fuel w
      else .ok w

def best_chain_len (w : WriteBlockWorkerTask) : Nat :=
  (w.non_finalized_state.best_chain.map (·.blocks.length)).getD 0

def commit_checkpoint (w : WriteBlockWorkerTask) (ordered_block : ContextuallyVerifiedBlock) :
    Except Abort WriteBlockWorkerTask :=
  let next_valid_height := (w.finalized_state.finalized_tip_height.map (· + 1)).getD 0
  if ordered_block.height ≠ next_valid_height then .ok w
  else match rules.checkpoint w.finalized_state ordered_block with
  | some _ => .ok w
  | none => do
    let db ← w.finalized_state.commit_finalized_direct ordered_block
    pure { w with finalized_state := db }

def validate_queued (w : WriteBlockWorkerTask) (queued_child : SemanticallyVerifiedBlock) :
    Verdict NonFinalizedState :=
  match w.parent_error_map.find? fun entry =>
      entry.1 = queued_child.block.header.previous_block_hash with
  | some (_, err) => Verdict.reject err
  | none => validate_and_commit_non_finalized rules w.finalized_state w.non_finalized_state
      queued_child

def commit (w : WriteBlockWorkerTask) (queued_child : SemanticallyVerifiedBlock) :
    Except Abort WriteBlockWorkerTask := do
  match ← (w.validate_queued rules queued_child).run with
  | .error err =>
    let errors := indexInsert w.parent_error_map queued_child.hash err
    pure { w with
      parent_error_map := if PARENT_ERROR_MAP_LIMIT < errors.length then errors.drop 1 else errors }
  | .ok nfs => do
    let w ← update_latest_chain_channels { w with non_finalized_state := nfs }
    finalize_past_reorg_limit (w.best_chain_len + 1) w

def crosslink_finalized (w : WriteBlockWorkerTask) (hash : BlockHash) :
    Except Abort (Except String BlockHash × WriteBlockWorkerTask) :=
  match w.non_finalized_state.crosslink_finalize hash with
  | (some newly_finalized_blocks, nfs) => do
    let w ← update_latest_chain_channels { w with non_finalized_state := nfs }
    let w ← finalize_blocks newly_finalized_blocks.length w
    pure (.ok hash, w)
  | (none, nfs) =>
    let w := { w with non_finalized_state := nfs }
    -- already de-facto finalized as below reorg height
    if w.finalized_state.contains_hash hash then .ok (.ok hash, w)
    else .ok (.error "Couldn't find finalized block", w)

def invalidate (w : WriteBlockWorkerTask) (hash : BlockHash) :
    Except Abort WriteBlockWorkerTask := do
  let (_, nfs) ← w.non_finalized_state.invalidate_block hash
  update_latest_chain_channels { w with non_finalized_state := nfs }

def reconsider (w : WriteBlockWorkerTask) (hash : BlockHash) : Except Abort WriteBlockWorkerTask := do
  match ← (w.non_finalized_state.reconsider_block hash w.finalized_state).run with
  | .ok nfs => update_latest_chain_channels { w with non_finalized_state := nfs }
  | .error _ => update_latest_chain_channels w

def handle (w : WriteBlockWorkerTask) : NonFinalizedWriteMessage → Except Abort WriteBlockWorkerTask
  | .Commit queued_child => w.commit rules queued_child
  | .CrosslinkFinalized hash => do
    let (_, w) ← w.crosslink_finalized hash
    pure w
  | .Invalidate hash => w.invalidate hash
  | .Reconsider hash => w.reconsider hash

/-- One round of `run`. Messages on the other channel wait until checkpointing is over. -/
def step (w : WriteBlockWorkerTask) : WorkerEvent → Except Abort WriteBlockWorkerTask
  | .CheckpointVerified ordered_block =>
    if w.checkpointing then w.commit_checkpoint rules ordered_block else .ok w
  | .CheckpointsClosed => .ok { w with checkpointing := false }
  | .Write msg => if w.checkpointing then .ok w else w.handle rules msg

def run (rules : ContextRules) :
    List WorkerEvent → WriteBlockWorkerTask → Except Abort WriteBlockWorkerTask
  | [], w => .ok w
  | event :: rest, w => do
    let w ← w.step rules event
    run rules rest w

end WriteBlockWorkerTask

end ZebraCrosslink
