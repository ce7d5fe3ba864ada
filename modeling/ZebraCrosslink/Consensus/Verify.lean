import Mathlib
import ZebraCrosslink.Chain.Network
import ZebraCrosslink.State.Chains

/-!
# The semantic verifier

The checks before the state sees a block. Proofs, signatures, amounts and network upgrades are rules
that the model does not look into.
-/

open Rust List

namespace ZebraCrosslink

/-! ## What a transaction has -/

namespace Transaction

variable (tx : Transaction)

def has_transparent_inputs : Bool := !tx.inputs.isEmpty

def has_transparent_outputs : Bool := !tx.outputs.isEmpty

def joinsplit_count : Nat := tx.joinsplits.length

def sapling_outputs : List (Bytes 32) :=
  match tx.sapling_shielded_data with
  | some data => data.outputs
  | none => []

def orchard_flags : OrchardFlags :=
  match tx.orchard_shielded_data with
  | some data => data.flags
  | none => { enable_spends := false, enable_outputs := false }

def has_shielded_inputs : Bool :=
  0 < tx.joinsplit_count || !tx.sapling_nullifiers.isEmpty ||
    (!tx.orchard_nullifiers.isEmpty && tx.orchard_flags.enable_spends)

def has_shielded_outputs : Bool :=
  0 < tx.joinsplit_count || !tx.sapling_outputs.isEmpty ||
    (!tx.orchard_nullifiers.isEmpty && tx.orchard_flags.enable_outputs)

def has_transparent_or_shielded_inputs : Bool :=
  tx.has_transparent_inputs || tx.has_shielded_inputs

def has_transparent_or_shielded_outputs : Bool :=
  tx.has_transparent_outputs || tx.has_shielded_outputs

def version : Nat :=
  match tx.data with
  | .V1 _ _ => 1
  | .V2 _ _ _ => 2
  | .V3 _ _ _ _ => 3
  | .V4 _ _ _ _ _ => 4
  | .V5 _ _ _ _ _ => 5
  | .VCrosslink _ _ _ _ _ _ => 7

def is_overwintered : Bool :=
  match tx.data with
  | .V1 _ _ | .V2 _ _ _ => false
  | _ => true

def has_enough_orchard_flags : Bool :=
  tx.version < 5 || tx.orchard_nullifiers.isEmpty ||
    (tx.orchard_flags.enable_spends || tx.orchard_flags.enable_outputs)

def is_valid_non_coinbase : Bool :=
  tx.inputs.all fun input => input.outpoint.isSome

end Transaction

/-! ## Checks of one transaction -/

def MAX_EXPIRY_HEIGHT : Nat := 499999999

inductive TransactionError
  | CoinbasePosition
  | CoinbaseAfterFirst
  | CoinbaseHasJoinSplit
  | CoinbaseHasSpend
  | CoinbaseHasEnableSpendsOrchard
  | CoinbaseInMempool
  | NonCoinbaseHasCoinbaseInput
  | CoinbaseExpiryBlockHeight (expiry_height : Option Nat) (block_height : Nat)
      (transaction_hash : TransactionHash)
  | MaximumExpiryHeight (expiry_height : Nat) (is_coinbase : Bool) (block_height : Nat)
      (transaction_hash : TransactionHash)
  | ExpiredTransaction (expiry_height block_height : Nat) (transaction_hash : TransactionHash)
  | NoInputs
  | NoOutputs
  | NotEnoughFlags
  | WrongVersion
  | DuplicateTransparentSpend (outpoint : OutPoint)
  | DuplicateSproutNullifier (nullifier : Nullifier)
  | DuplicateSaplingNullifier (nullifier : Nullifier)
  | DuplicateOrchardNullifier (nullifier : Nullifier)
  | LockedUntilAfterBlockHeight (unlock_height : Nat)
  | LockedUntilAfterBlockTime (unlock_time : UInt32)
  | ValidateMempoolLockTimeError
  | BothVPubsNonZero
  | DisabledAddToSproutPool
  | MissingConsensusBranchId
  | WrongConsensusBranchId
  | UnsupportedByNetworkUpgrade (version : Nat) (nu : NetworkUpgrade)
  | TransparentInputNotFound
  | IncorrectFee
  | Other (reason : String)
  deriving DecidableEq

namespace check

variable (tx : Transaction) (expiry_height : Option Nat)

def has_inputs_and_outputs : Except TransactionError Unit :=
  if tx.staking_action.isSome then .ok ()
  else if !tx.has_transparent_or_shielded_inputs then .error .NoInputs
  else if !tx.has_transparent_or_shielded_outputs then .error .NoOutputs
  else .ok ()

def has_enough_orchard_flags (tx : Transaction) : Except TransactionError Unit :=
  if !tx.has_enough_orchard_flags then .error .NotEnoughFlags else .ok ()

def coinbase_tx_no_prevout_joinsplit_spend : Except TransactionError Unit :=
  if tx.is_coinbase then
    if 0 < tx.joinsplit_count then .error .CoinbaseHasJoinSplit
    else if !tx.sapling_nullifiers.isEmpty then .error .CoinbaseHasSpend
    else if tx.orchard_flags.enable_spends then .error .CoinbaseHasEnableSpendsOrchard
    else .ok ()
  else .ok ()

def validate_expiry_height_max (is_coinbase : Bool) (block_height : Nat) (tx : Transaction) :
    Except TransactionError Unit :=
  match expiry_height with
  | some expiry =>
    if MAX_EXPIRY_HEIGHT < expiry then
      .error (.MaximumExpiryHeight expiry is_coinbase block_height tx.hash)
    else .ok ()
  | none => .ok ()

def validate_expiry_height_mined (block_height : Nat) (tx : Transaction) :
    Except TransactionError Unit :=
  match expiry_height with
  | some expiry =>
    if expiry < block_height then .error (.ExpiredTransaction expiry block_height tx.hash)
    else .ok ()
  | none => .ok ()

def coinbase_expiry_height (nu5_activation_height : Option Nat) (block_height : Nat)
    (coinbase : Transaction) : Except TransactionError Unit :=
  if nu5_activation_height.any fun nu5 => nu5 ≤ block_height then
    if coinbase.expiry_height ≠ some block_height then
      .error (.CoinbaseExpiryBlockHeight coinbase.expiry_height block_height coinbase.hash)
    else .ok ()
  else validate_expiry_height_max coinbase.expiry_height true block_height coinbase

def non_coinbase_expiry_height (block_height : Nat) (tx : Transaction) :
    Except TransactionError Unit := do
  if tx.is_overwintered then do
    validate_expiry_height_max tx.expiry_height false block_height tx
    validate_expiry_height_mined tx.expiry_height block_height tx
  else .ok ()

def check_for_duplicates {α : Type} [DecidableEq α] (items : List α)
    (error_wrapper : α → TransactionError) : Except TransactionError Unit :=
  match insertUnique [] items with
  | some duplicate => .error (error_wrapper duplicate)
  | none => .ok ()

def spend_conflicts : Except TransactionError Unit := do
  check_for_duplicates tx.spent_outpoints .DuplicateTransparentSpend
  check_for_duplicates tx.sprout_nullifiers .DuplicateSproutNullifier
  check_for_duplicates tx.sapling_nullifiers .DuplicateSaplingNullifier
  check_for_duplicates tx.orchard_nullifiers .DuplicateOrchardNullifier

end check

/-! ## The transaction verifier -/

/-- The rules for a transaction that the model does not look into. Each gives the reason for a
rejection. -/
structure TransactionRules where
  nu5_activation_height : Option Nat
  consensus_branch_id : Transaction → Nat → Option String
  /-- `joinsplit_has_vpub_zero` and `disabled_add_to_sprout_pool`. -/
  sprout_values : Transaction → Nat → Option String
  lock_time_has_passed : Transaction → Nat → UInt32 → Option String
  /-- The spent outputs are found, and spendable in the mempool. -/
  spent_utxos : Transaction → Nat → Option String
  /-- Scripts, proofs, signatures and the fee. -/
  authorization : Transaction → Nat → Option String
  /-- The outputs that a mempool entry spends from other mempool entries. -/
  dependencies : Transaction → Option String

/-- For a mempool request, `time` is the next median time past. -/
structure TransactionRequest where
  is_mempool : Bool
  height : Nat
  time : UInt32

namespace Verifier

def rule (broken : Option String) : Except TransactionError Unit :=
  match broken with
  | some reason => .error (.Other reason)
  | none => .ok ()

variable (rules : TransactionRules) (req : TransactionRequest) (tx : Transaction)

def coinbase_rules : Except TransactionError Unit := do
  if req.is_mempool && tx.is_coinbase then .error .CoinbaseInMempool
  else if tx.is_coinbase then do
    check.coinbase_tx_no_prevout_joinsplit_spend tx
    check.coinbase_expiry_height rules.nu5_activation_height req.height tx
  else if !tx.is_valid_non_coinbase then .error .NonCoinbaseHasCoinbaseInput
  else check.non_coinbase_expiry_height req.height tx

def full_checks : Except TransactionError Unit := do
  check.has_inputs_and_outputs tx
  check.has_enough_orchard_flags tx
  rule (rules.consensus_branch_id tx req.height)
  coinbase_rules rules req tx
  rule (rules.sprout_values tx req.height)
  check.spend_conflicts tx
  rule (rules.lock_time_has_passed tx req.height req.time)
  rule (rules.spent_utxos tx req.height)
  if tx.version < 4 then .error .WrongVersion else rule (rules.authorization tx req.height)

/-- A mempool entry with the same id stands in for the checks of a mined transaction. -/
def call (mempool : List Transaction) (req : TransactionRequest) (tx : Transaction) :
    Except TransactionError Unit :=
  if req.is_mempool || tx.is_coinbase then full_checks rules req tx
  else match mempool.find? fun entry => entry.hash = tx.hash with
  | some entry => rule (rules.dependencies entry)
  | none => full_checks rules req tx

end Verifier

/-! ## The block verifier -/

inductive BlockError
  | Transaction (err : TransactionError)
  | NoTransactions
  | BadMerkleRoot (actual expected : Bytes 32)
  | DuplicateTransaction
  | AlreadyInChain (hash : BlockHash) (location : Read.KnownBlock)
  | MissingHeight (hash : BlockHash)
  | MaxHeight (height : Nat) (hash : BlockHash) (max : Nat)
  | WrongTransactionConsensusBranchId
  | Other (reason : String)
  deriving DecidableEq

structure HeaderRules where
  merkle_root : List TransactionHash → Bytes 32
  check_transaction_network_upgrade_consistency : Block → Bool
  difficulty_is_valid : Header → Nat → BlockHash → Option String
  time_is_valid_at : Header → Option String

structure BlockRules extends TransactionRules, HeaderRules where
  /-- `subsidy_is_valid` and `coinbase_outputs_are_decryptable`. -/
  subsidy_is_valid : Block → Nat → Option String
  /-- The signature operations and the miner fees of the whole block. -/
  totals : Block → Nat → Option String

namespace check

def coinbase_is_first (block : Block) : Except BlockError Transaction :=
  match block.transactions with
  | [] => .error .NoTransactions
  | first :: rest =>
    if !first.is_coinbase then .error (.Transaction .CoinbasePosition)
    else if !rest.all fun tx => tx.is_valid_non_coinbase then
      .error (.Transaction .CoinbaseAfterFirst)
    else .ok first

def merkle_root_validity (rules : HeaderRules) (block : Block)
    (transaction_hashes : List TransactionHash) : Except BlockError Unit :=
  let merkle_root := rules.merkle_root transaction_hashes
  if !rules.check_transaction_network_upgrade_consistency block then
    .error .WrongTransactionConsensusBranchId
  else if block.header.merkle_root ≠ merkle_root then
    .error (.BadMerkleRoot merkle_root block.header.merkle_root)
  else if transaction_hashes.length ≠ transaction_hashes.dedup.length then
    .error .DuplicateTransaction
  else .ok ()

end check

namespace SemanticBlockVerifier

def rule (broken : Option String) : Except BlockError Unit :=
  match broken with
  | some reason => .error (.Other reason)
  | none => .ok ()

def transactions_verified (rules : BlockRules) (mempool : List Transaction)
    (req : TransactionRequest) : List Transaction → Except BlockError Unit
  | [] => .ok ()
  | tx :: rest => do
    (Verifier.call rules.toTransactionRules mempool req tx).mapError .Transaction
    transactions_verified rules mempool req rest

/-- A commit request. `known` is the answer of the state about the hash. -/
def call (rules : BlockRules) (mempool : List Transaction) (known : Option Read.KnownBlock)
    (hash : BlockHash) (block : Block) : Except BlockError SemanticallyVerifiedBlock :=
  match known, block.coinbase_height with
  | some location, _ => .error (.AlreadyInChain hash location)
  | none, none => .error (.MissingHeight hash)
  | none, some height =>
    if MAX_HEIGHT < height then .error (.MaxHeight height hash MAX_HEIGHT)
    else do
      rule (rules.difficulty_is_valid block.header height hash)
      check.merkle_root_validity rules.toHeaderRules block (block.transactions.map (·.hash))
      rule (rules.time_is_valid_at block.header)
      let _ ← check.coinbase_is_first block
      rule (rules.subsidy_is_valid block height)
      transactions_verified rules mempool
        { is_mempool := false, height, time := block.header.time } block.transactions
      rule (rules.totals block height)
      pure { block, hash, height }

end SemanticBlockVerifier

/-! ## What an accepted block is known to be -/

/-- Something in the transaction can be used only once on a chain. -/
def Transaction.Spends (tx : Transaction) : Prop :=
  tx.spent_outpoints ≠ [] ∨ tx.sprout_nullifiers ≠ [] ∨ tx.sapling_nullifiers ≠ [] ∨
    tx.orchard_nullifiers ≠ []

variable {tx : Transaction} {req : TransactionRequest} {rules : TransactionRules}

theorem Transaction.spends_of_checked
    (h : check.has_inputs_and_outputs tx = .ok ()) (hstake : tx.staking_action = none)
    (hvalid : tx.is_valid_non_coinbase = true) : tx.Spends := by
  have hinputs : tx.has_transparent_or_shielded_inputs = true := by
    by_contra hno
    rw [Bool.not_eq_true] at hno
    simp [check.has_inputs_and_outputs, hstake, hno] at h
  unfold Spends
  simp only [has_transparent_or_shielded_inputs, has_transparent_inputs, has_shielded_inputs,
    Bool.or_eq_true, Bool.and_eq_true, Bool.not_eq_true', isEmpty_eq_false_iff,
    decide_eq_true_eq] at hinputs
  rcases hinputs with hin | (hsprout | hsapling) | ⟨horchard, -⟩
  · left
    obtain ⟨input, hmem⟩ := exists_mem_of_ne_nil _ hin
    obtain ⟨o, ho⟩ := Option.isSome_iff_exists.mp (all_eq_true.mp hvalid input hmem)
    exact ne_nil_of_mem (mem_filterMap.mpr ⟨input, hmem, ho⟩)
  · right; left
    obtain ⟨j, hj⟩ := exists_mem_of_ne_nil _ (length_pos_iff.mp hsprout)
    exact ne_nil_of_mem (mem_flatMap.mpr ⟨j, hj, mem_cons_self⟩)
  · exact .inr (.inr (.inl hsapling))
  · exact .inr (.inr (.inr horchard))

theorem Verifier.full_checks_ok (h : full_checks rules req tx = .ok ()) :
    check.has_inputs_and_outputs tx = .ok () := by
  rw [full_checks, except_bind_ok] at h
  obtain ⟨_, hchecked, -⟩ := h
  exact hchecked

theorem Verifier.call_ok {mempool : List Transaction} (h : call rules mempool req tx = .ok ()) :
    check.has_inputs_and_outputs tx = .ok () ∨ ∃ entry ∈ mempool, entry.hash = tx.hash := by
  unfold call at h
  split at h
  · exact .inl (full_checks_ok h)
  · split at h
    · have hfind := ‹find? _ mempool = some _›
      exact .inr ⟨_, mem_of_find?_eq_some hfind, by simpa using find?_some hfind⟩
    · exact .inl (full_checks_ok h)

namespace SemanticBlockVerifier

structure Formed (b : SemanticallyVerifiedBlock) : Prop where
  distinct : (b.block.transactions.map (·.hash)).Nodup
  coinbase : ∃ first rest, b.block.transactions = first :: rest ∧ first.is_coinbase = true ∧
    ∀ tx ∈ rest, tx.is_valid_non_coinbase = true

variable {rules : BlockRules} {mempool : List Transaction} {block : Block}

theorem transactions_verified_ok {req : TransactionRequest} {txs : List Transaction}
    (h : transactions_verified rules mempool req txs = .ok ()) :
    ∀ tx ∈ txs, Verifier.call rules.toTransactionRules mempool req tx = .ok () := by
  induction txs with
  | nil => simp
  | cons tx rest ih =>
    rw [transactions_verified, except_bind_ok] at h
    obtain ⟨_, hfirst, hrest⟩ := h
    refine forall_mem_cons.mpr ⟨?_, ih hrest⟩
    cases hcall : Verifier.call rules.toTransactionRules mempool req tx with
    | error err => rw [hcall] at hfirst; cases hfirst
    | ok _ => rfl

theorem coinbase_is_first_ok {coinbase : Transaction}
    (h : check.coinbase_is_first block = .ok coinbase) :
    ∃ rest, block.transactions = coinbase :: rest ∧ coinbase.is_coinbase = true ∧
      ∀ tx ∈ rest, tx.is_valid_non_coinbase = true := by
  unfold check.coinbase_is_first at h
  split at h
  · cases h
  · split at h
    · cases h
    · split at h
      · cases h
      · cases h
        exact ⟨_, ‹_›, by simpa using ‹¬(!Transaction.is_coinbase _) = true›, by
          simpa using ‹¬(!all _ _) = true›⟩

theorem merkle_root_validity_ok {rules : HeaderRules} {ids : List TransactionHash}
    (h : check.merkle_root_validity rules block ids = .ok ()) : ids.Nodup := by
  unfold check.merkle_root_validity at h
  by_contra hdup
  have hlen : ids.length ≠ ids.dedup.length := by
    intro heq
    exact hdup (dedup_eq_self.mp ((dedup_sublist ids).eq_of_length heq.symm))
  simp only [hlen, ne_eq, not_false_eq_true, if_true] at h
  split at h
  · cases h
  · split at h <;> cases h

theorem call_ok {known : Option Read.KnownBlock} {hash : BlockHash} {b : SemanticallyVerifiedBlock}
    (h : call rules mempool known hash block = .ok b) :
    Formed b ∧ ∀ tx ∈ b.block.transactions, ∃ req,
      Verifier.call rules.toTransactionRules mempool req tx = .ok () := by
  unfold call at h
  split at h
  · cases h
  · cases h
  · split at h
    · cases h
    · simp only [except_bind_ok] at h
      obtain ⟨_, -, _, hroot, _, -, coinbase, hfirst, _, -, _, htxs, _, -, hb⟩ := h
      cases hb
      obtain ⟨rest, hcons, hrest⟩ := coinbase_is_first_ok hfirst
      exact ⟨⟨merkle_root_validity_ok hroot, coinbase, rest, hcons, hrest⟩,
        fun tx htx => ⟨_, transactions_verified_ok htxs tx htx⟩⟩

end SemanticBlockVerifier

end ZebraCrosslink
