import ZebraCrosslink.Bft.Roster
import ZebraCrosslink.State.Read

/-!
# The trailing finality layer service

Every question to the PoW state goes through `TFLServiceCalls.state`, and the environment `E` may
change with each answer.
-/

open Rust Exec

namespace ZebraCrosslink

/-- `final_change_tx` is the list of everything that was broadcast, in order. -/
structure TFLServiceInternal where
  latest_final_block : Option (Nat × BlockHash)
  tfl_is_activated : Bool
  final_change_tx : List (Nat × BlockHash)
  bft_blocks : List BftBlock
  fat_pointer_to_tip : FatPointerToBftBlock2
  validators_keys_to_names : KeysToNames
  validators_at_current_height : List MalValidator
  current_bc_final : Option (Nat × BlockHash)

structure TFLServiceCalls (E : Type) where
  state : StateRequest → Exec E (Except String StateResponse)

inductive TMStatus
  | Pass
  | Fail
  | Indeterminate
  deriving DecidableEq, Repr

/-- The state a service starts in, from its peers' keys or, without peers, its own key. -/
def spawn_new_tfl_service (is_regtest : Bool) (peers : List (MalPublicKey × String))
    (own : MalPublicKey × String) : TFLServiceInternal :=
  let members := if peers.isEmpty then [own] else peers
  { latest_final_block := none
    tfl_is_activated := is_regtest
    final_change_tx := []
    bft_blocks := []
    fat_pointer_to_tip := FatPointerToBftBlock.null
    validators_keys_to_names := members.foldl (fun names m => names.insert m.1 m.2) []
    validators_at_current_height := members.map fun m => MalValidator.new m.1 1
    current_bc_final := none }

structure Node (E : Type) where
  crypto : Crypto
  order : PubKeyOrder
  profile : Profile
  call : TFLServiceCalls E

variable {E : Type} (call : TFLServiceCalls E) (node : Node E)

def block_height_from_hash (hash : BlockHash) : Exec E (Option Nat) := do
  match ← call.state (.KnownBlock hash) with
  | .ok (.KnownBlock (some known_block)) => pure (some known_block.height)
  | _ => pure none

/-- `headers.first().expect(..).hash()`: the PoW block that a BFT block finalizes. -/
def new_final_hash (C : Crypto) (b : BftBlock) : Except Abort BlockHash :=
  match b.headers.head? with
  | none => .error (.expect "at least 1 header")
  | some header => header.hash C.sha256d

/-! ## Validation -/

def validate_bft_block_from_malachite_already_locked (internal : TFLServiceInternal)
    (new_block : BftBlock) : Exec E TMStatus := do
  if new_block.previous_block_fat_ptr.points_at_block_hash ≠
      internal.fat_pointer_to_tip.points_at_block_hash then
    pure .Fail
  else do
    let new_final_hash ← Exec.ofExcept (new_final_hash node.crypto new_block)
    match ← block_height_from_hash node.call new_final_hash with
    | some _ => pure .Pass
    | none => pure .Indeterminate

def validate_proposed_block (internal : TFLServiceInternal) (bytes : List UInt8) :
    Exec E TMStatus :=
  match BftBlock.zcash_deserialize bytes with
  | .ok (bft_block, _) => validate_bft_block_from_malachite_already_locked node internal bft_block
  | .error _ => pure .Fail

/-! ## Proposing -/

def latest_bft_block_hash (C : Crypto) (bft_blocks : List BftBlock) : Except Abort Blake3Hash :=
  match bft_blocks.getLast? with
  | some b => b.blake3_hash C
  | none => .ok (Bytes.zero 32)

/-- The lock is released between the two uses of the service state: `internal` is what the first
one sees, `internal'` the second. -/
def propose_new_bft_block (internal internal' : TFLServiceInternal) : Exec E (Option BftBlock) := do
  match ← node.call.state .Tip with
  | .ok (.Tip (some (tip_height, _))) =>
    if tip_height < PROTOTYPE_PARAMETERS.bc_confirmation_depth_sigma then pure none
    else do
      let finality_candidate_height := tip_height - PROTOTYPE_PARAMETERS.bc_confirmation_depth_sigma
      -- the hash is computed, but nothing uses it
      let _ ← Exec.ofExcept (latest_bft_block_hash node.crypto internal.bft_blocks)
      let is_improved_final := match internal.latest_final_block with
        | none => true
        | some (final_height, _) => decide (final_height < finality_candidate_height)
      if !is_improved_final then pure none
      else do
        match ← node.call.state (.BlockHeader (.Height finality_candidate_height)) with
        | .ok (.BlockHeader _ candidate_hash _) =>
          match ← node.call.state (.FindBlockHeaders [candidate_hash] none) with
          | .ok (.BlockHeaders headers) => do
            let height ← Exec.ofExcept
              (addU32 node.profile (internal'.bft_blocks.length % 2 ^ 32) 1)
            match BftBlock.try_from PROTOTYPE_PARAMETERS (UInt32.ofNat height)
                internal'.fat_pointer_to_tip 0 headers with
            | .ok block => pure (some block)
            | .error _ => pure none
          | _ => abort (.panic "TODO: improve error handling.")
        | _ => abort (.panic "TODO: improve error handling.")
  | _ => pure none

/-! ## The sequence of newly final PoW blocks -/

def push_chunk (p : Profile) (start_height : Nat) :
    List BlockHash → List (Nat × BlockHash) → Except Abort (List (Nat × BlockHash))
  | [], hashes => .ok hashes
  | val :: rest, hashes =>
    if 2 ^ 32 ≤ hashes.length then .error (.expect "should fit in u32")
    else do
      let height ← addU32 p start_height hashes.length
      push_chunk p start_height rest (hashes ++ [(height, val)])

/-- The loop of `tfl_block_sequence`, one chunk at a time. `c` of the source is the number of hashes
pushed so far. -/
def fetch_chunks (node : Node E) (start_height : Nat) (start_hash : BlockHash)
    (include_start_hash : Bool) (final_hash : Option BlockHash) :
    Nat → BlockHash → List (Nat × BlockHash) → Exec E (List (Nat × BlockHash))
  | 0, _, _ => abort .outOfFuel
  | fuel + 1, chunk_start_hash, hashes => do
    match ← node.call.state (.FindBlockHashes [chunk_start_hash] final_hash) with
    | .ok (.BlockHashes chunk) => do
      assert (!(hashes.isEmpty && include_start_hash && !chunk.isEmpty) ||
        chunk.head? == some start_hash) "first hash is not the one requested"
      match chunk.getLast? with
      | none => pure hashes
      | some last => do
        let hashes ← Exec.ofExcept (push_chunk node.profile start_height chunk hashes)
        fetch_chunks node start_height start_hash include_start_hash final_hash fuel last hashes
    | _ => pure hashes

def read_infos (call : TFLServiceCalls E) : List (Nat × BlockHash) → Exec E (List (Option Block))
  | [] => pure []
  | (_, hash) :: rest => do
    let reply ← call.state (.Block (.Hash hash))
    let rest ← read_infos call rest
    match reply with
    | .ok (.Block block) => pure (block :: rest)
    | _ => pure (none :: rest)

def tfl_block_sequence (node : Node E) (fuel : Nat) (start_hash : BlockHash)
    (final_height_hash : Option (Nat × BlockHash)) (include_start_hash read_extra_info : Bool) :
    Exec E (List (Nat × BlockHash) × List (Option Block)) := do
  let start ← sequence_start
  let final ← sequence_final
  match start, final with
  | some (start_height, init_hash), some (final_height, final_hash) =>
    if final_height < start_height then pure ([], [])
    else do
      let hashes ← fetch_chunks node start_height start_hash include_start_hash final_hash fuel
        init_hash []
      let infos ← if read_extra_info then read_infos node.call hashes else pure []
      pure (hashes, infos)
  | _, _ => pure ([], [])
where
  sequence_start : Exec E (Option (Nat × BlockHash)) := do
    match ← node.call.state (.BlockHeader (.Hash start_hash)) with
    | .ok (.BlockHeader header _ height) =>
      if include_start_hash then pure (some (height, header.previous_block_hash))
      else do
        let height ← Exec.ofExcept (addU32 node.profile height 1)
        pure (some (height, start_hash))
    | _ => pure none
  sequence_final : Exec E (Option (Nat × Option BlockHash)) := do
    match final_height_hash with
    | some (height, hash) => pure (some (height, some hash))
    | none =>
      match ← node.call.state .Tip with
      | .ok (.Tip (some (height, hash))) => pure (some (height, some hash))
      | _ => pure none

/-! ## Committing a decided block -/

def insert_bft_block (C : Crypto) (p : Profile) (bft_blocks : List BftBlock)
    (new_block : BftBlock) : Except Abort (List BftBlock) := do
  let insert_i ← subUsize p new_block.height.toNat 1
  let missing := List.range' bft_blocks.length (insert_i + 1 - bft_blocks.length)
  let bft_blocks := bft_blocks ++ missing.map BftBlock.placeholder
  check_parent bft_blocks insert_i
  if insert_i ≠ 0 ∧ new_block.previous_block_hash = Bytes.zero 32 then
    .error (.assert "previous_block_hash")
  else do
    let slot ← index bft_blocks insert_i
    if !slot.headers.isEmpty then .error (.assert "slot is not empty")
    else if new_block.headers.isEmpty then .error (.assert "new block has no headers")
    else pure (bft_blocks.set insert_i new_block)
where
  check_parent (bft_blocks : List BftBlock) (insert_i : Nat) : Except Abort Unit := do
    if 0 < insert_i then do
      let parent ← index bft_blocks (insert_i - 1)
      let hash ← parent.blake3_hash C
      if hash = new_block.previous_block_fat_ptr.points_at_block_hash then pure ()
      else .error (.assert "parent hash")
    else pure ()

def apply_final_block (p : Profile) (internal : TFLServiceInternal)
    (height_hash : Nat × BlockHash) (block : Option Block) : Except Abort TFLServiceInternal :=
  -- skip repeated boundary blocks
  if internal.current_bc_final.map (·.2) = some height_hash.2 then .ok internal
  else do
    let finalizers ← distribute_rewards p internal.validators_at_current_height
    let (finalizers, names) ← stake finalizers
    pure { internal with
      validators_at_current_height := finalizers
      validators_keys_to_names := names
      final_change_tx := internal.final_change_tx ++ [height_hash] }
where
  stake (finalizers : List MalValidator) : Except Abort (List MalValidator × KeysToNames) :=
    match block with
    | some block => do
      let (roster, names, _) ←
        update_roster_for_block p finalizers internal.validators_keys_to_names block
      pure (roster, names)
    | none =>
      if p = .dev then .error (.assert "this shouldn't happen")
      else .ok (finalizers, internal.validators_keys_to_names)

def apply_final_blocks (p : Profile) :
    List ((Nat × BlockHash) × Option Block) → TFLServiceInternal → Except Abort TFLServiceInternal
  | [], internal => .ok internal
  | (height_hash, block) :: rest, internal => do
    let internal ← apply_final_block p internal height_hash block
    apply_final_blocks p rest internal

/-- The state is asked to finalize; an error is only logged. -/
def crosslink_finalize (new_final_hash : BlockHash) : Exec E Unit := do
  match ← call.state (.CrosslinkFinalizeBlock new_final_hash) with
  | .ok (.CrosslinkFinalized hash) =>
    assert (hash == new_final_hash) "PoW finalized hash should now match ours"
  | .ok _ => abort (.panic "wrong response type")
  | .error _ => pure ()

/-- The checks at the start of the commit. The result is the height and hash to finalize. -/
def check_decided (internal : TFLServiceInternal) (new_block : BftBlock)
    (fat_pointer : FatPointerToBftBlock2) : Exec E (Nat × BlockHash) := do
  let block_hash ← Exec.ofExcept (new_block.blake3_hash node.crypto)
  if fat_pointer.points_at_block_hash ≠ block_hash then
    abort (.panic "Fat Pointer hash does not match block hash.")
  else if !fat_pointer.validate_signatures node.crypto then
    abort (.panic "Signatures are not valid. Rejecting block.")
  else do
    let status ← validate_bft_block_from_malachite_already_locked node internal new_block
    assert (status == .Pass) "TMStatus::Pass"
    let new_final_hash ← Exec.ofExcept (new_final_hash node.crypto new_block)
    let new_final_height ← block_height_from_hash node.call new_final_hash
    let new_final_height ← expect new_final_height "unwrap"
    pure (new_final_height, new_final_hash)

/-- The part after the state was asked: rewards, roster and broadcasts for the newly final blocks. -/
def apply_new_final (fuel : Nat) (internal : TFLServiceInternal)
    (new_final_height_hash : Nat × BlockHash) : Exec E TFLServiceInternal := do
  let start_hash := match internal.current_bc_final with
    | some prev_height_hash => prev_height_hash.2
    | none => new_final_height_hash.2
  let (height_hashes, blocks) ←
    tfl_block_sequence node fuel start_hash (some new_final_height_hash) true true
  let internal ←
    Exec.ofExcept (apply_final_blocks node.profile (height_hashes.zip blocks) internal)
  pure { internal with current_bc_final := some new_final_height_hash }

def new_decided_bft_block_from_malachite (fuel : Nat) (internal : TFLServiceInternal)
    (new_block : BftBlock) (fat_pointer : FatPointerToBftBlock2) :
    Exec E (TFLServiceInternal × List SortedRosterMember) := do
  let new_final ← check_decided node internal new_block fat_pointer
  let bft_blocks ← Exec.ofExcept
    (insert_bft_block node.crypto node.profile internal.bft_blocks new_block)
  let internal := { internal with
    bft_blocks, fat_pointer_to_tip := fat_pointer, latest_final_block := some new_final }
  crosslink_finalize node.call new_final.2
  let internal ← apply_new_final node fuel internal new_final
  let roster ← Exec.ofExcept
    (tenderlink_roster_from_internal node.profile node.order internal.validators_at_current_height)
  pure (internal, roster)

/-! ## History and finality queries -/

/-- `at_height` is a `u64`; `usize` has 64 bits, so the casts keep it. -/
def fat_pointer_to_block_at_height (bft_blocks : List BftBlock)
    (fat_pointer_to_tip : FatPointerToBftBlock2) (at_height : Nat) :
    Except Abort (Option FatPointerToBftBlock2) :=
  if at_height = 0 ∨ bft_blocks.length ≤ at_height - 1 then .ok none
  else if at_height = bft_blocks.length then .ok (some fat_pointer_to_tip)
  else do
    let block ← index bft_blocks at_height
    pure (some block.previous_block_fat_ptr)

def get_historical_bft_block_at_height (internal : TFLServiceInternal) (at_height : Nat) :
    Except Abort (Option (BftBlock × FatPointerToBftBlock2)) :=
  if at_height = 0 ∨ internal.bft_blocks.length ≤ at_height - 1 then .ok none
  else do
    let block ← index internal.bft_blocks (at_height - 1)
    match ← fat_pointer_to_block_at_height internal.bft_blocks internal.fat_pointer_to_tip
        at_height with
    | some fat_pointer => pure (some (block, fat_pointer))
    | none => .error (.expect "unwrap")

def tfl_reorg_final_block_height_hash : Exec E (Option (Nat × BlockHash)) := do
  match ← call.state .BlockLocator with
  | .ok (.BlockLocator hashes) =>
    match hashes.getLast? with
    | some hash => do
      let height ← block_height_from_hash call hash
      pure (height.map fun height => (height, hash))
    | none => pure none
  | _ => pure none

def tfl_final_block_height_hash (internal : TFLServiceInternal) :
    Exec E (Option (Nat × BlockHash)) :=
  match internal.latest_final_block with
  | some height_hash => pure (some height_hash)
  | none => tfl_reorg_final_block_height_hash node.call

inductive TFLBlockFinality
  | NotYetFinalized
  | Finalized
  | CantBeFinalized
  deriving DecidableEq, Repr

def tfl_block_finality_from_height_hash (node : Node E) (internal : TFLServiceInternal)
    (height : Nat) (hash : BlockHash) : Exec E (Except String (Option TFLBlockFinality)) := do
  match ← tfl_final_block_height_hash node internal with
  | none => pure (.error "There is no final block.")
  | some (final_height, final_hash) =>
    if final_height < height then pure (.ok (some .NotYetFinalized))
    else if height = final_height then pure (.ok (some (compare hash final_hash)))
    else do
      match ← node.call.state (.BlockHeader (.Height height)) with
      | .ok (.BlockHeader _ cmp_hash _) => pure (.ok (some (compare hash cmp_hash)))
      | .error err => pure (.error err)
      | .ok _ => pure (.error "Invalid BlockHeader response type")
where
  compare (hash cmp_hash : BlockHash) : TFLBlockFinality :=
    if hash = cmp_hash then .Finalized else .CantBeFinalized

def tx_finality_status (internal : TFLServiceInternal) (hash : TransactionHash) :
    Exec E (Except String (Option TFLBlockFinality)) := do
  match ← node.call.state (.Transaction hash) with
  | .ok (.Transaction (some tx)) =>
    match ← tfl_final_block_height_hash node internal with
    | none => pure (.error "There is no final block.")
    | some (final_height, _) =>
      if tx.height ≤ final_height then pure (.ok (some .Finalized))
      else pure (.ok (some .NotYetFinalized))
  | _ => pure (.ok none)

def tfl_set_finality_by_hash (internal : TFLServiceInternal) (hash : BlockHash) :
    Exec E (TFLServiceInternal × Option Nat) := do
  if internal.tfl_is_activated then do
    let new_height ← block_height_from_hash node.call hash
    match new_height with
    | some height => pure ({ internal with latest_final_block := some (height, hash) }, new_height)
    | none => pure (internal, new_height)
  else pure (internal, none)

end ZebraCrosslink
