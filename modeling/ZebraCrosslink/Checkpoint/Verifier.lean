import ZebraCrosslink.Rust.Map
import ZebraCrosslink.State.Read

/-!
# The checkpoint verifier

Once the queue has blocks at all heights up to a checkpoint, the verifier walks back from it along
the parent hashes. Each request has a number, which stands for the channel on which it is answered.
-/

open Rust

namespace ZebraCrosslink.checkpoint

def MAX_QUEUED_BLOCKS_PER_HEIGHT : Nat := 4

abbrev Tip : Type := Option (Nat × BlockHash)

/-! ## Checkpoint lists -/

structure CheckpointList where
  checkpoints : Map Nat BlockHash
  genesis : 0 ∈ checkpoints
  unique : ∀ h h' x, checkpoints.lookup h = some x → checkpoints.lookup h' = some x → h = h'
  not_null : ∀ h, checkpoints.lookup h ≠ some (Bytes.zero 32)
  valid_heights : ∀ h ∈ checkpoints, h ≤ MAX_HEIGHT

namespace CheckpointList

variable (list : CheckpointList)

def contains (height : Nat) : Bool := height ∈ list.checkpoints

def hash (height : Nat) : Option BlockHash := list.checkpoints.lookup height

def max_height_in_range (range : Nat → Bool) : Option Nat :=
  (list.checkpoints.filter fun height _ => range height).lastKey

theorem nonempty : list.checkpoints.keys.Nonempty :=
  ⟨0, Finmap.mem_keys.mpr list.genesis⟩

def max_height : Nat := list.checkpoints.keys.max' list.nonempty

def prev_checkpoint_index (height : Nat) : Except Abort Nat :=
  match (list.checkpoints.keys.filter (· ≤ height)).card with
  | 0 => .error (.expect "checkpoints must start at the genesis block height 0")
  | n + 1 => .ok n

end CheckpointList

/-! ## Progress -/

inductive Progress (α : Type)
  | BeforeGenesis
  | InitialTip (a : α)
  | PreviousCheckpoint (a : α)
  | FinalCheckpoint
  deriving DecidableEq

def Progress.height : Progress Nat → Option Nat
  | BeforeGenesis => none
  | InitialTip height => some height
  | PreviousCheckpoint height => some height
  | FinalCheckpoint => none

def Progress.cmp (a b : Progress Nat) : Ordering :=
  if a = b then .eq
  else
    match a, b with
    | BeforeGenesis, _ => .lt
    | _, BeforeGenesis => .gt
    | FinalCheckpoint, _ => .gt
    | _, FinalCheckpoint => .lt
    | InitialTip x, InitialTip y | InitialTip x, PreviousCheckpoint y
    | PreviousCheckpoint x, InitialTip y | PreviousCheckpoint x, PreviousCheckpoint y => compare x y

inductive TargetHeight
  | WaitingForBlocks
  | Checkpoint (height : Nat)
  | FinishedVerifying
  deriving DecidableEq

def TargetHeight.partial_cmp : TargetHeight → TargetHeight → Option Ordering
  | FinishedVerifying, FinishedVerifying => some .eq
  | FinishedVerifying, _ => some .gt
  | _, FinishedVerifying => some .lt
  | Checkpoint x, Checkpoint y => some (compare x y)
  | WaitingForBlocks, Checkpoint _ => none
  | Checkpoint _, WaitingForBlocks => none
  | WaitingForBlocks, WaitingForBlocks => some .eq

inductive Bound
  | Unbounded
  | Excluded (height : Nat)
  deriving DecidableEq

def Bound.allows : Bound → Nat → Bool
  | Unbounded, _ => true
  | Excluded start, height => start < height

/-! ## The verifier -/

inductive VerifyCheckpointError
  | Finished
  | TooHigh (height max_height : Nat)
  | AlreadyVerified (height verified_height : Nat)
  | NewerRequest (height : Nat) (hash : BlockHash)
  | CoinbaseHeight (hash : BlockHash)
  /-- A broken rule about the difficulty, the Equihash solution, the subsidy or the Merkle root. -/
  | Check (reason : String)
  | QueuedLimit
  | UnexpectedSideChain (expected found : BlockHash)
  | Dropped
  | CommitCheckpointVerified (error : String)
  | ShuttingDown
  deriving DecidableEq

structure CheckpointVerifiedBlock where
  block : Block
  hash : BlockHash
  height : Nat
  deriving DecidableEq

structure QueuedBlock where
  block : CheckpointVerifiedBlock
  tx : Nat
  deriving DecidableEq

abbrev Sent : Type := List (Nat × Except VerifyCheckpointError BlockHash)

structure Env where
  checkpoint_list : CheckpointList
  hash : Header → BlockHash
  /-- The checks of `check_block` after that of the height. -/
  check : Block → Nat → Except VerifyCheckpointError Unit

structure CheckpointVerifier where
  initial_tip_hash : Option BlockHash
  queued : Map Nat (List QueuedBlock)
  verifier_progress : Progress Nat
  reset_receiver : List Tip

def progress_from_tip (list : CheckpointList) : Tip → Option BlockHash × Progress Nat
  | some (height, hash) =>
    if list.max_height ≤ height then (none, .FinalCheckpoint) else (some hash, .InitialTip height)
  | none => (none, .BeforeGenesis)

namespace CheckpointVerifier

variable (env : Env) (v : CheckpointVerifier)

/-- The index of the last verified checkpoint is only reported. -/
def verified_checkpoint_diagnostics : Option Nat → Except Abort Unit
  | none => .ok ()
  | some verified_height => (env.checkpoint_list.prev_checkpoint_index verified_height).map fun _ => ()

def queued_block_diagnostics : Except Abort Unit :=
  (orAbort v.queued.lastKey (.expect "queued has at least one entry")).map fun _ => ()

def from_checkpoint_list (initial_tip : Tip) : Except Abort CheckpointVerifier := do
  let (initial_tip_hash, verifier_progress) := progress_from_tip env.checkpoint_list initial_tip
  verified_checkpoint_diagnostics env verifier_progress.height
  return ⟨initial_tip_hash, ∅, verifier_progress, []⟩

def reset_progress (tip : Tip) : Except Abort CheckpointVerifier := do
  let (initial_tip_hash, verifier_progress) := progress_from_tip env.checkpoint_list tip
  verified_checkpoint_diagnostics env verifier_progress.height
  return { v with initial_tip_hash, verifier_progress }

def current_start_bound : Option Bound :=
  match v.verifier_progress with
  | .BeforeGenesis => some .Unbounded
  | .InitialTip height | .PreviousCheckpoint height => some (.Excluded height)
  | .FinalCheckpoint => none

/-- The end of the continuous sequence of heights, in ascending order, that starts after a height. -/
def continuous_end (pending_height : Nat) : List Nat → Nat
  | [] => pending_height
  | height :: rest => if height = pending_height + 1 then continuous_end height rest else pending_height

/-- The heights of the queue for which `range` holds, in ascending order. -/
def queued_range (range : Nat → Bool) : List Nat :=
  (v.queued.keys.filter fun height => range height).sort (· ≤ ·)

def start_height : TargetHeight ⊕ Nat :=
  match v.verifier_progress with
  | .BeforeGenesis => if 0 ∈ v.queued then .inr 0 else .inl .WaitingForBlocks
  | .InitialTip height | .PreviousCheckpoint height => .inr height
  | .FinalCheckpoint => .inl .FinishedVerifying

def target_checkpoint_height : Except Abort TargetHeight :=
  match v.start_height with
  | .inl target => .ok target
  | .inr start_height => do
    let pending_height := continuous_end start_height (v.queued_range fun height => start_height < height)
    let start ← orAbort v.current_start_bound
      (.expect "if verification has finished, we should have returned earlier in the function")
    return match env.checkpoint_list.max_height_in_range fun height =>
        start.allows height && height ≤ pending_height with
      | some target_checkpoint => .Checkpoint target_checkpoint
      | none => .WaitingForBlocks

def previous_checkpoint_hash : Except Abort (Progress BlockHash) :=
  match v.verifier_progress with
  | .BeforeGenesis => .ok .BeforeGenesis
  | .InitialTip _ => (orAbort v.initial_tip_hash
      (.expect "initial tip height must have an initial tip hash")).map .InitialTip
  | .PreviousCheckpoint height => (orAbort (env.checkpoint_list.hash height)
      (.expect "every checkpoint height must have a hash")).map .PreviousCheckpoint
  | .FinalCheckpoint => .ok .FinalCheckpoint

def check_height (height : Nat) : Except VerifyCheckpointError Unit :=
  if env.checkpoint_list.max_height < height then .error (.TooHigh height env.checkpoint_list.max_height)
  else
    match v.verifier_progress with
    | .BeforeGenesis => .ok ()
    | .InitialTip previous_height | .PreviousCheckpoint previous_height =>
      if height ≤ previous_height then .error (.AlreadyVerified height previous_height) else .ok ()
    | .FinalCheckpoint => .error .Finished

def update_progress (verified_height : Nat) : Except Abort CheckpointVerifier :=
  match v.check_height env verified_height with
  | .error _ => .ok v
  | .ok () =>
    if verified_height = env.checkpoint_list.max_height then do
      verified_checkpoint_diagnostics env (some verified_height)
      return { v with verifier_progress := .FinalCheckpoint }
    else if env.checkpoint_list.contains verified_height then do
      verified_checkpoint_diagnostics env (some verified_height)
      return { v with verifier_progress := .PreviousCheckpoint verified_height, initial_tip_hash := none }
    else .ok v

def check_block (block : Block) : Except VerifyCheckpointError CheckpointVerifiedBlock :=
  let hash := env.hash block.header
  match block.coinbase_height with
  | none => .error (.CoinbaseHeight hash)
  | some height => do
    v.check_height env height
    env.check block height
    return ⟨block, hash, height⟩

def replace_older (new_qblock : QueuedBlock) : List QueuedBlock → Option (QueuedBlock × List QueuedBlock)
  | [] => none
  | qb :: rest =>
    if qb.block.hash = new_qblock.block.hash then some (qb, new_qblock :: rest)
    else (replace_older new_qblock rest).map fun (old, rest) => (old, qb :: rest)

/-- Adds a block to those at its height, and answers the older request for the same block. -/
def queue_block (block : Block) (number : Nat) :
    Except Abort (Except VerifyCheckpointError (CheckpointVerifier × Sent)) :=
  match v.check_block env block with
  | .error e => .ok (.error e)
  | .ok block =>
    let new_qblock : QueuedBlock := ⟨block, number⟩
    let qblocks := (v.queued.lookup block.height).getD []
    match replace_older new_qblock qblocks with
    | some (old, qblocks) =>
      .ok (.ok ({ v with queued := v.queued.insert block.height qblocks },
        [(old.tx, .error (.NewerRequest block.height block.hash))]))
    | none =>
      if MAX_QUEUED_BLOCKS_PER_HEIGHT ≤ qblocks.length then .ok (.error .QueuedLimit)
      else do
        let v := { v with queued := v.queued.insert block.height (qblocks ++ [new_qblock]) }
        v.queued_block_diagnostics
        return .ok (v, [])

def drain (height : Nat) (expected_hash : BlockHash) :
    Option QueuedBlock → List QueuedBlock → Except Abort (Option QueuedBlock × Sent)
  | valid_qblock, [] => .ok (valid_qblock, [])
  | valid_qblock, qblock :: rest =>
    if qblock.block.hash = expected_hash then
      match valid_qblock with
      | none => drain height expected_hash (some qblock) rest
      | some _ => .error (.panic "unexpected duplicate block \x7b:?\x7d \x7b:?\x7d: duplicate blocks should be rejected before being queued")
    else do
      let (valid_qblock, sent) ← drain height expected_hash valid_qblock rest
      return (valid_qblock, (qblock.tx, .error (.UnexpectedSideChain expected_hash qblock.block.hash)) :: sent)

def check_interim (height : Nat) (expected_hash : BlockHash) : Except Abort Unit :=
  match env.checkpoint_list.hash height with
  | none => .ok ()
  | some checkpoint_hash =>
    assertThat (expected_hash = checkpoint_hash)
      "checkpoints in the range should match: bad checkpoint list, zebra bug, or bad chain"

def process_height (height : Nat) (expected_hash : BlockHash) :
    Except Abort (Option QueuedBlock × CheckpointVerifier × Sent) := do
  let qblocks ← orAbort (v.queued.lookup height)
    (.expect "the current checkpoint range has continuous Vec<QueuedBlock>s")
  assertThat (qblocks ≠ []) "the current checkpoint range has continuous Blocks"
  check_interim env height expected_hash
  let (valid_qblock, sent) ← drain height expected_hash none qblocks
  return (valid_qblock, { v with queued := v.queued.erase height }, sent)

/-- How the walk back from a checkpoint ended: with the parent of the lowest block, or at a height
without a block on the chain. -/
inductive Walk
  | complete (expected_hash : BlockHash) (rev_valid_blocks : List QueuedBlock)
  | stopped (rev_valid_blocks : List QueuedBlock)

def walk_back (v : CheckpointVerifier) (expected_hash : BlockHash) (rev_valid_blocks : List QueuedBlock)
    (sent : Sent) : List Nat → Except Abort (Walk × CheckpointVerifier × Sent)
  | [] => .ok (.complete expected_hash rev_valid_blocks, v, sent)
  | current_height :: rest => do
    let (valid_qblock, v, failed) ← v.process_height env current_height expected_hash
    match valid_qblock with
    | some qblock =>
      walk_back v qblock.block.block.header.previous_block_hash (rev_valid_blocks ++ [qblock])
        (sent ++ failed) rest
    | none => .ok (.stopped rev_valid_blocks, v, sent ++ failed)

def put_back (v : CheckpointVerifier) (qblocks : List QueuedBlock) : CheckpointVerifier :=
  { v with queued := qblocks.foldl (fun queued qblock =>
      queued.insert qblock.block.height ((queued.lookup qblock.block.height).getD [] ++ [qblock])) v.queued }

def on_stopped (v : CheckpointVerifier) (target_checkpoint_height : Nat) (old_progress : Progress Nat)
    (rev_valid_blocks : List QueuedBlock) : Except Abort CheckpointVerifier := do
  let v := v.put_back rev_valid_blocks.reverse
  assertThat (v.verifier_progress = old_progress) "we must not change the previous checkpoint on failure"
  let current_target ← v.target_checkpoint_height env
  assertThat (current_target = .WaitingForBlocks ∨
      current_target.partial_cmp (.Checkpoint target_checkpoint_height) = some .lt)
    "we must decrease or eliminate our target on failure"
  return v

def met_target (target_checkpoint_height : Nat) : Progress Nat → Except Abort Unit
  | .FinalCheckpoint => assertThat (target_checkpoint_height = env.checkpoint_list.max_height)
      "we finish at the maximum checkpoint"
  | new_progress => assertThat (new_progress = .PreviousCheckpoint target_checkpoint_height)
      "the new previous checkpoint must match the old target"

def on_verified (v : CheckpointVerifier) (target_checkpoint_height : Nat) (old_progress : Progress Nat) :
    Except Abort CheckpointVerifier := do
  let v ← v.update_progress env target_checkpoint_height
  assertThat (v.verifier_progress.cmp old_progress = .gt) "we must make progress on success"
  met_target env target_checkpoint_height v.verifier_progress
  let new_target ← v.target_checkpoint_height env
  assertThat (new_target = .WaitingForBlocks ∨ new_target = .FinishedVerifying)
    "processing must cover all available checkpoints"
  return v

/-- Walks back from the target and answers the blocks, if the walk meets the previous checkpoint. -/
def process_range (v : CheckpointVerifier) (previous_checkpoint_hash : BlockHash)
    (target_checkpoint_height : Nat) : Except Abort (CheckpointVerifier × Sent) := do
  let expected_hash ← orAbort (env.checkpoint_list.hash target_checkpoint_height)
    (.expect "every checkpoint height must have a hash")
  let old_progress := v.verifier_progress
  let start ← orAbort v.current_start_bound (.expect "earlier code checks if verification has finished")
  let range_heights := (v.queued_range fun height =>
    start.allows height && height ≤ target_checkpoint_height).reverse
  let (walk, v, sent) ← v.walk_back env expected_hash [] [] range_heights
  match walk with
  | .stopped rev_valid_blocks =>
    let v ← v.on_stopped env target_checkpoint_height old_progress rev_valid_blocks
    return (v, sent)
  | .complete expected_hash rev_valid_blocks =>
    assertThat (expected_hash = previous_checkpoint_hash)
      "the previous checkpoint should match: bad checkpoint list, zebra bug, or bad chain"
    let v ← v.on_verified env target_checkpoint_height old_progress
    return (v, sent ++ rev_valid_blocks.reverse.map fun qblock => (qblock.tx, .ok qblock.block.hash))

def process_checkpoint_range : Except Abort (CheckpointVerifier × Sent) := do
  match ← v.previous_checkpoint_hash env with
  | .FinalCheckpoint => return (v, [])
  | .BeforeGenesis => process_from GENESIS_PREVIOUS_BLOCK_HASH
  | .InitialTip hash | .PreviousCheckpoint hash => process_from hash
where
  process_from (previous_checkpoint_hash : BlockHash) : Except Abort (CheckpointVerifier × Sent) := do
    match ← v.target_checkpoint_height env with
    | .Checkpoint height => v.process_range env previous_checkpoint_hash height
    | .WaitingForBlocks => return (v, [])
    | .FinishedVerifying => throw (.panic "the FinalCheckpoint case should have returned earlier")

def receive_reset : Except Abort CheckpointVerifier :=
  match v.reset_receiver with
  | [] => .ok v
  | tip :: rest => ({ v with reset_receiver := rest } : CheckpointVerifier).reset_progress env tip

/-- A request: the error with which it is refused, if it is, and the answers to queued requests. -/
def call (block : Block) (number : Nat) :
    Except Abort (Option VerifyCheckpointError × CheckpointVerifier × Sent) := do
  let v ← v.receive_reset env
  if v.verifier_progress = .FinalCheckpoint then return (some .Finished, v, [])
  else
    match ← v.queue_block env block number with
    | .error e => return (some e, v, [])
    | .ok (v, replaced) =>
      let (v, sent) ← v.process_checkpoint_range env
      return (none, v, replaced ++ sent)

def drop : Sent :=
  (v.queued_range fun _ => true).flatMap fun height =>
    ((v.queued.lookup height).getD []).map fun qblock => (qblock.tx, .error .Dropped)

end CheckpointVerifier

end ZebraCrosslink.checkpoint
