import ZebraCrosslink.Chain.Transaction

/-!
# Reading the PoW state

A snapshot of the non-finalized chains and the finalized database, which may already hold blocks
that are also in the snapshot.
-/

open Rust

namespace ZebraCrosslink

/-! ## Stores -/

structure SemanticallyVerifiedBlock where
  block : Block
  hash : BlockHash
  height : Nat
  deriving DecidableEq

abbrev ContextuallyVerifiedBlock : Type := SemanticallyVerifiedBlock

inductive HashOrHeight
  | Hash (hash : BlockHash)
  | Height (height : Nat)
  deriving DecidableEq

def MAX_HEIGHT : Nat := 2 ^ 31 - 1

structure ZebraDb where
  blocks : List ContextuallyVerifiedBlock

namespace ZebraDb

variable (db : ZebraDb)

def is_empty : Bool := db.blocks.isEmpty

def hash (db : ZebraDb) (height : Nat) : Option BlockHash := db.blocks[height]?.map (·.hash)

def height (hash : BlockHash) : Option Nat :=
  db.blocks.findIdx? fun b => b.hash = hash

def contains_hash (hash : BlockHash) : Bool := (db.height hash).isSome

def tip : Option (Nat × BlockHash) :=
  db.blocks.getLast?.map fun b => (db.blocks.length - 1, b.hash)

def block (db : ZebraDb) : HashOrHeight → Option Block
  | .Height height => db.blocks[height]?.map (·.block)
  | .Hash hash => do
    let height ← db.height hash
    db.blocks[height]?.map (·.block)

def block_header (hash_or_height : HashOrHeight) : Option Header :=
  (db.block hash_or_height).map (·.header)

/-- `tx_loc_by_hash` holds the location that was written last. -/
def transaction (hash : TransactionHash) : Option (Transaction × Nat) := do
  let b ← db.blocks.reverse.find? fun b => b.block.transactions.any fun tx => tx.hash = hash
  let tx ← b.block.transactions.reverse.find? fun tx => tx.hash = hash
  pure (tx, b.height)

end ZebraDb

structure Chain where
  blocks : List ContextuallyVerifiedBlock
  deriving DecidableEq

namespace Chain

variable (chain : Chain)

def hash_by_height (height : Nat) : Option BlockHash :=
  (chain.blocks.find? fun b => b.height = height).map (·.hash)

def height_by_hash (hash : BlockHash) : Option Nat :=
  (chain.blocks.find? fun b => b.hash = hash).map (·.height)

def contains_block_hash (hash : BlockHash) : Bool :=
  (chain.height_by_hash hash).isSome

def block : HashOrHeight → Option ContextuallyVerifiedBlock
  | .Height height => chain.blocks.find? fun b => b.height = height
  | .Hash hash => do
    let height ← chain.height_by_hash hash
    chain.blocks.find? fun b => b.height = height

def transaction (hash : TransactionHash) : Option (Transaction × Nat) := do
  let b ← chain.blocks.find? fun b => b.block.transactions.any fun tx => tx.hash = hash
  let tx ← b.block.transactions.find? fun tx => tx.hash = hash
  pure (tx, b.height)

/-- Only called while `blocks` is populated, hence the `Option`. -/
def non_finalized_tip : Option (Nat × BlockHash) :=
  chain.blocks.getLast?.map fun b => (b.height, b.hash)

end Chain

/-- `chain_set` is kept in `chain_iter` order: best chain first. -/
structure NonFinalizedState where
  chain_set : List Chain
  invalidated_blocks : List (Nat × List ContextuallyVerifiedBlock)

variable (nfs : NonFinalizedState)

def NonFinalizedState.best_chain : Option Chain := nfs.chain_set.head?

structure ReadStateService where
  non_finalized_state : NonFinalizedState
  db : ZebraDb

/-! ## Lookups in the best chain and the database -/

namespace Read

def tip (chain : Option Chain) (db : ZebraDb) : Option (Nat × BlockHash) :=
  match chain with
  | some chain => chain.non_finalized_tip
  | none => db.tip

def height_by_hash (chain : Option Chain) (db : ZebraDb) (hash : BlockHash) : Option Nat :=
  (chain.bind fun chain => chain.height_by_hash hash).or (db.height hash)

def hash_by_height (chain : Option Chain) (db : ZebraDb) (height : Nat) : Option BlockHash :=
  (chain.bind fun chain => chain.hash_by_height height).or (db.hash height)

variable (chain : Option Chain) (db : ZebraDb) (known_blocks : List BlockHash)
  (intersection stop : Option BlockHash) (max_len : Nat)

def chain_contains_hash (hash : BlockHash) : Bool :=
  (match chain with
    | some chain => chain.contains_block_hash hash
    | none => false) || db.contains_hash hash

def block (chain : Option Chain) (db : ZebraDb) (hash_or_height : HashOrHeight) : Option Block :=
  ((chain.bind fun chain => chain.block hash_or_height).map (·.block)).or (db.block hash_or_height)

def block_header (chain : Option Chain) (db : ZebraDb) (hash_or_height : HashOrHeight) :
    Option Header :=
  ((chain.bind fun chain => chain.block hash_or_height).map (·.block.header)).or
    (db.block_header hash_or_height)

structure MinedTx where
  tx : Transaction
  height : Nat
  deriving DecidableEq

def mined_transaction (hash : TransactionHash) : Option MinedTx := do
  let (tx, height) ← (chain.bind fun chain => chain.transaction hash).or (db.transaction hash)
  let _ ← tip chain db
  pure { tx, height }

inductive KnownBlockLocation
  | BestChain
  | SideChain
  deriving DecidableEq, Repr

structure KnownBlock where
  location : KnownBlockLocation
  height : Nat
  deriving DecidableEq

def non_finalized_state_contains_block_hash (hash : BlockHash) : Option KnownBlock :=
  match nfs.chain_set with
  | [] => none
  | best_chain :: side_chains =>
    match best_chain.height_by_hash hash with
    | some height => some { location := .BestChain, height }
    | none =>
      (side_chains.findSome? fun side_chain => side_chain.height_by_hash hash).map fun height =>
        { location := .SideChain, height }

def finalized_state_contains_block_hash (hash : BlockHash) : Option KnownBlock :=
  (db.height hash).map fun height => { location := .BestChain, height }

/-! ## Ranges of the best chain -/

def find_chain_intersection : Option BlockHash :=
  if chain.isNone ∧ db.is_empty then none
  else known_blocks.find? fun hash => chain_contains_hash chain db hash

def heightRange (start stop : Nat) : List Nat := List.range' start (stop + 1 - start)

def find_chain_height_range : List Nat :=
  match tip chain db with
  | none => []
  | some (chain_tip_height, _) =>
    let stop_height := stop.bind fun hash => height_by_hash chain db hash
    let range (start_height max_height : Nat) : List Nat :=
      let final_height := min max_height chain_tip_height
      match stop_height with
      | some stop_height => heightRange start_height (min final_height stop_height)
      | none => heightRange start_height final_height
    match intersection with
    | none => range 0 (max_len - 1)
    | some intersection_hash =>
      match height_by_hash chain db intersection_hash with
      | some intersection_height => range (intersection_height + 1) (intersection_height + max_len)
      -- a recently committed block dropped the intersection
      | none => []

/-- `map_while`: the images up to the first `none`. -/
def mapWhile {α β : Type} (f : α → Option β) : List α → List β
  | [] => []
  | a :: as =>
    match f a with
    | some b => b :: mapWhile f as
    | none => []

def collect_chain_hashes : Except Abort (List BlockHash) :=
  let hashes := mapWhile (hash_by_height chain db)
    (find_chain_height_range chain db intersection stop max_len)
  if intersection.any fun hash => hash ∈ hashes then
    .error (.assert "the list must not contain the intersection hash")
  else if stop.any fun stop => stop ∈ hashes.dropLast then
    .error (.assert "if the stop hash is in the list, it must be the final hash")
  else .ok hashes

def collect_chain_headers : List Header :=
  mapWhile (fun height => block_header chain db (.Height height))
    (find_chain_height_range chain db intersection stop max_len)

def find_chain_hashes : Except Abort (List BlockHash) :=
  collect_chain_hashes chain db (find_chain_intersection chain db known_blocks) stop max_len

def find_chain_headers : List Header :=
  collect_chain_headers chain db (find_chain_intersection chain db known_blocks) stop max_len

/-! ## Block locators -/

def MAX_BLOCK_REORG_HEIGHT : Nat := 99

/-- `tip - 1`, `tip - 2`, `tip - 4` and so on, for the steps that fit in `u32`. -/
def exponential_locators (tip_height : Nat) : List Nat :=
  (List.range 32).filterMap fun k =>
    if 2 ^ k ≤ tip_height then some (tip_height - 2 ^ k) else none

def block_locator_heights (tip_height : Nat) : List Nat :=
  let min_locator_height := tip_height - MAX_BLOCK_REORG_HEIGHT
  ((tip_height :: exponential_locators tip_height).takeWhile fun h => min_locator_height < h) ++
    [min_locator_height]

def block_locator : Option (List BlockHash) := do
  let (tip_height, _) ← tip chain db
  pure ((block_locator_heights tip_height).filterMap (hash_by_height chain db))

end Read

open Read

/-! ## Requests -/

inductive StateRequest
  | Tip
  | KnownBlock (hash : BlockHash)
  | BlockHeader (hash_or_height : HashOrHeight)
  | Block (hash_or_height : HashOrHeight)
  | FindBlockHashes (known_blocks : List BlockHash) (stop : Option BlockHash)
  | FindBlockHeaders (known_blocks : List BlockHash) (stop : Option BlockHash)
  | BlockLocator
  | Transaction (hash : TransactionHash)
  | CrosslinkFinalizeBlock (hash : BlockHash)

inductive StateResponse
  | Tip (tip : Option (Nat × BlockHash))
  | KnownBlock (known : Option KnownBlock)
  | BlockHeader (header : Header) (hash : BlockHash) (height : Nat)
  | Block (block : Option Block)
  | BlockHashes (hashes : List BlockHash)
  | BlockHeaders (headers : List Header)
  | BlockLocator (hashes : List BlockHash)
  | Transaction (tx : Option MinedTx)
  | CrosslinkFinalized (hash : BlockHash)

def MAX_FIND_BLOCK_HASHES_RESULTS : Nat := 500

def MAX_FIND_BLOCK_HEADERS_RESULTS : Nat := 160

/-- What a state call gives back: the outer error is a panic, the inner one the service's own. -/
abbrev StateReply : Type := Except Abort (Except String StateResponse)

namespace ReadStateService

def block_header_reply (s : ReadStateService) (hash_or_height : HashOrHeight) :
    Except String StateResponse :=
  let best_chain := s.non_finalized_state.best_chain
  let not_found := "block hash or height not found"
  let height := match hash_or_height with
    | .Height height => some height
    | .Hash hash => height_by_hash best_chain s.db hash
  let hash := match hash_or_height with
    | .Height height => hash_by_height best_chain s.db height
    | .Hash hash => some hash
  match height, hash with
  | some height, some hash =>
    if MAX_HEIGHT ≤ height then .error "height overflow"
    else match block_header best_chain s.db (.Height height) with
      | some header => .ok (.BlockHeader header hash height)
      | none => .error not_found
  | _, _ => .error not_found

/-- The read requests. `CrosslinkFinalizeBlock` goes to the write half instead. -/
def call (s : ReadStateService) : StateRequest → StateReply
  | .Tip => .ok (.ok (.Tip (tip s.non_finalized_state.best_chain s.db)))
  | .KnownBlock hash =>
    .ok (.ok (.KnownBlock
      ((non_finalized_state_contains_block_hash s.non_finalized_state hash).or
        (finalized_state_contains_block_hash s.db hash))))
  | .BlockHeader hash_or_height => .ok (s.block_header_reply hash_or_height)
  | .Block hash_or_height =>
    .ok (.ok (.Block (block s.non_finalized_state.best_chain s.db hash_or_height)))
  | .FindBlockHashes known_blocks stop => do
    let hashes ← find_chain_hashes s.non_finalized_state.best_chain s.db known_blocks stop
      MAX_FIND_BLOCK_HASHES_RESULTS
    pure (.ok (.BlockHashes hashes))
  | .FindBlockHeaders known_blocks stop =>
    .ok (.ok (.BlockHeaders
      (find_chain_headers s.non_finalized_state.best_chain s.db known_blocks stop
        MAX_FIND_BLOCK_HEADERS_RESULTS)))
  | .BlockLocator =>
    .ok (.ok (.BlockLocator ((block_locator s.non_finalized_state.best_chain s.db).getD [])))
  | .Transaction hash =>
    .ok (.ok (.Transaction
      (mined_transaction s.non_finalized_state.best_chain s.db hash)))
  | .CrosslinkFinalizeBlock _ => .ok (.error "not a read request")

end ReadStateService

end ZebraCrosslink
