import Mathlib
import ZebraCrosslink.Chain.Transaction
import ZebraCrosslink.Rust.Hashed
import ZebraCrosslink.Rust.Map

/-!
# The verified set of the mempool

The transactions by their mined id, and indexes that could be computed from them. The two totals are
numbers without a bound: a pool of `2 ^ 64` bytes does not fit in memory.
-/

open Rust

namespace ZebraCrosslink

def Transaction.created_outputs (tx : Transaction) : List (OutPoint × Output) :=
  tx.outputs.zipIdx.map fun e => (⟨tx.hash, UInt32.ofNat e.2⟩, e.1)

namespace mempool

/-! ## Unmined transactions -/

abbrev AuthDigest : Type := Bytes 32

structure WtxId where
  id : TransactionHash
  auth_digest : AuthDigest
  deriving DecidableEq

inductive UnminedTxId
  | Legacy (hash : TransactionHash)
  | Witnessed (wtx_id : WtxId)
  deriving DecidableEq

def UnminedTxId.mined_id : UnminedTxId → TransactionHash
  | Legacy legacy_id => legacy_id
  | Witnessed wtx_id => wtx_id.id

structure UnminedTx where
  transaction : Transaction
  id : UnminedTxId
  size : Nat
  conventional_fee : Amount .NonNegative
  id_eq : id.mined_id = transaction.hash
  /-- A transaction is not longer than a block, so its output indexes fit in a `u32`. -/
  outputs_fit : transaction.outputs.length ≤ 2 ^ 32
  deriving DecidableEq

namespace zip317

def MARGINAL_FEE : Int := 5000

def unpaid_actions (conventional_actions : Nat) (miner_fee : Amount .NonNegative) : Nat :=
  (conventional_actions - miner_fee.zatoshis / MARGINAL_FEE).toNat

end zip317

structure VerifiedUnminedTx where
  transaction : UnminedTx
  miner_fee : Amount .NonNegative
  sigops : Nat
  conventional_actions : Nat
  unpaid_actions : Nat
  unpaid_eq : unpaid_actions = zip317.unpaid_actions conventional_actions miner_fee
  deriving DecidableEq

def MEMPOOL_TRANSACTION_COST_THRESHOLD : Nat := 10000

def MEMPOOL_TRANSACTION_LOW_FEE_PENALTY : Nat := 40000

namespace VerifiedUnminedTx

def mined_id (tx : VerifiedUnminedTx) : TransactionHash := tx.transaction.id.mined_id

variable (tx : VerifiedUnminedTx)

def pays_conventional_fee : Bool :=
  tx.transaction.conventional_fee.zatoshis ≤ tx.miner_fee.zatoshis

def cost : Nat := max tx.transaction.size MEMPOOL_TRANSACTION_COST_THRESHOLD

def eviction_weight : Nat :=
  if !tx.pays_conventional_fee then tx.cost + MEMPOOL_TRANSACTION_LOW_FEE_PENALTY else tx.cost

end VerifiedUnminedTx

open VerifiedUnminedTx

/-! ## Dependencies -/

/-- A `HashSet` is a list, of which only the elements matter. -/
structure TransactionDependencies where
  dependencies : Map TransactionHash (List TransactionHash)
  dependents : Map TransactionHash (List TransactionHash)

namespace TransactionDependencies

variable (deps : TransactionDependencies) (tx_hash : TransactionHash)

def direct_dependents : List TransactionHash :=
  (deps.dependents.lookup tx_hash).getD []

def direct_dependencies : List TransactionHash :=
  (deps.dependencies.lookup tx_hash).getD []

def add (dependent : TransactionHash) (spent_mempool_outpoints : List OutPoint) :
    TransactionDependencies where
  dependents := spent_mempool_outpoints.foldl (fun dependents outpoint =>
    dependents.insert outpoint.hash (((dependents.lookup outpoint.hash).getD []).insert dependent))
    deps.dependents
  dependencies :=
    if !spent_mempool_outpoints.isEmpty then
      deps.dependencies.insert dependent (spent_mempool_outpoints.map (·.hash)).dedup
    else deps.dependencies

/-- The dependent is removed from its own dependencies. The mined id stays there. -/
def clear_dependent (dependent_id : TransactionHash) : TransactionDependencies :=
  match deps.dependencies.lookup dependent_id with
  | none => deps
  | some dependencies =>
    { deps with dependencies := deps.dependencies.insert dependent_id (dependencies.erase dependent_id) }

def clear_mined (mined_tx_id : TransactionHash) : TransactionDependencies :=
  (deps.direct_dependents mined_tx_id).foldl clear_dependent
    { deps with dependents := deps.dependents.erase mined_tx_id }

def clear_mined_dependencies (mined_ids : List TransactionHash) : TransactionDependencies :=
  mined_ids.foldl clear_mined deps

def erase (deps : TransactionDependencies) (dep : TransactionHash) : TransactionDependencies where
  dependencies := deps.dependencies.erase dep
  dependents := deps.dependents.erase dep

def remove_level (deps : TransactionDependencies) :
    List TransactionHash → List TransactionHash × TransactionDependencies
  | [] => ([], deps)
  | dep :: level =>
    let (next, rest) := (deps.erase dep).remove_level level
    (deps.direct_dependents dep ∪ next, rest)

def remove_levels (deps : TransactionDependencies) (current_level_dependents all_dependents :
    List TransactionHash) : Nat → Except Abort (List TransactionHash × TransactionDependencies)
  | 0 => .error .outOfFuel
  | fuel + 1 =>
    if current_level_dependents = [] then .ok (all_dependents, deps)
    else
      let (next, deps) := deps.remove_level current_level_dependents
      deps.remove_levels next (all_dependents ∪ next) fuel

/-- Each round but the last one removes an entry of `dependents`. -/
def remove_all : Except Abort (List TransactionHash × TransactionDependencies) :=
  deps.remove_levels [tx_hash] [] (deps.dependents.keys.card + 2)

end TransactionDependencies

/-! ## The set -/

inductive SameEffectsTipRejectionError
  | SpendConflict
  | MissingOutput
  deriving DecidableEq

structure VerifiedSet where
  transactions : List VerifiedUnminedTx
  transaction_dependencies : TransactionDependencies
  created_outputs : Map OutPoint Output
  transactions_serialized_size : Nat
  total_cost : Nat
  spent_outpoints : Finset OutPoint
  sprout_nullifiers : Finset Nullifier
  sapling_nullifiers : Finset Nullifier
  orchard_nullifiers : Finset Nullifier

namespace VerifiedSet

def empty : VerifiedSet where
  transactions := []
  transaction_dependencies := ⟨∅, ∅⟩
  created_outputs := ∅
  transactions_serialized_size := 0
  total_cost := 0
  spent_outpoints := ∅
  sprout_nullifiers := ∅
  sapling_nullifiers := ∅
  orchard_nullifiers := ∅

def get (set : VerifiedSet) (id : TransactionHash) : Option VerifiedUnminedTx :=
  OrderedMap.get? mined_id set.transactions id

def contains (set : VerifiedSet) (id : TransactionHash) : Bool := (set.get id).isSome

variable (p : Profile) (order : IterationOrder)

/-- What the gauges are computed from can panic only where unpaid actions are taken off. -/
def update_metrics (set : VerifiedSet) : Except Abort Unit :=
  set.transactions.forM fun entry => do
    let _ ← subUsize p entry.conventional_actions entry.unpaid_actions

def has_conflicts {α : Type} [DecidableEq α] (set : Finset α) (list : List α) : Bool :=
  list.any fun item => item ∈ set

def has_spend_conflicts (set : VerifiedSet) (tx : Transaction) : Bool :=
  has_conflicts set.spent_outpoints tx.spent_outpoints ||
    has_conflicts set.sprout_nullifiers tx.sprout_nullifiers ||
    has_conflicts set.sapling_nullifiers tx.sapling_nullifiers ||
    has_conflicts set.orchard_nullifiers tx.orchard_nullifiers

def store (set : VerifiedSet) (transaction : VerifiedUnminedTx) (spent_mempool_outpoints : List OutPoint) :
    VerifiedSet :=
  let tx_id := transaction.mined_id
  let tx := transaction.transaction.transaction
  { transactions := OrderedMap.remove mined_id set.transactions tx_id ++ [transaction]
    transaction_dependencies := set.transaction_dependencies.add tx_id spent_mempool_outpoints
    created_outputs := tx.created_outputs.foldl (fun outputs e => outputs.insert e.1 e.2) set.created_outputs
    transactions_serialized_size := set.transactions_serialized_size + transaction.transaction.size
    total_cost := set.total_cost + transaction.cost
    spent_outpoints := set.spent_outpoints ∪ tx.spent_outpoints.toFinset
    sprout_nullifiers := set.sprout_nullifiers ∪ tx.sprout_nullifiers.toFinset
    sapling_nullifiers := set.sapling_nullifiers ∪ tx.sapling_nullifiers.toFinset
    orchard_nullifiers := set.orchard_nullifiers ∪ tx.orchard_nullifiers.toFinset }

def insert (set : VerifiedSet) (transaction : VerifiedUnminedTx)
    (spent_mempool_outpoints : List OutPoint) :
    Except Abort (Except SameEffectsTipRejectionError VerifiedSet) :=
  if set.has_spend_conflicts transaction.transaction.transaction then .ok (.error .SpendConflict)
  else if spent_mempool_outpoints.any fun outpoint => outpoint ∉ set.created_outputs then
    .ok (.error .MissingOutput)
  else do
    let set := set.store transaction spent_mempool_outpoints
    set.update_metrics p
    return .ok set

def remove_outputs (set : VerifiedSet) (unmined_tx : UnminedTx) : VerifiedSet :=
  let tx := unmined_tx.transaction
  { set with
    created_outputs := tx.created_outputs.foldl (fun outputs e => outputs.erase e.1) set.created_outputs
    spent_outpoints := set.spent_outpoints \ tx.spent_outpoints.toFinset
    sprout_nullifiers := set.sprout_nullifiers \ tx.sprout_nullifiers.toFinset
    sapling_nullifiers := set.sapling_nullifiers \ tx.sapling_nullifiers.toFinset
    orchard_nullifiers := set.orchard_nullifiers \ tx.orchard_nullifiers.toFinset }

def remove_one (set : VerifiedSet) (key_to_remove : TransactionHash) :
    Except Abort (VerifiedUnminedTx × VerifiedSet) := do
  let removed_tx ← orAbort (set.get key_to_remove) (.expect "invalid transaction key")
  let size ← subUsize p set.transactions_serialized_size removed_tx.transaction.size
  let cost ← subUsize p set.total_cost removed_tx.cost
  let set := { set with
    transactions := OrderedMap.remove mined_id set.transactions key_to_remove
    transactions_serialized_size := size
    total_cost := cost }
  return (removed_tx, set.remove_outputs removed_tx.transaction)

def remove_each (p : Profile) (set : VerifiedSet) :
    List TransactionHash → Except Abort (List VerifiedUnminedTx × VerifiedSet)
  | [] => .ok ([], set)
  | key :: keys => do
    let (tx, set) ← set.remove_one p key
    let (txs, set) ← set.remove_each p keys
    return (tx :: txs, set)

def remove (set : VerifiedSet) (key_to_remove : TransactionHash) :
    Except Abort (List VerifiedUnminedTx × VerifiedSet) := do
  let (dependents, deps) ← set.transaction_dependencies.remove_all key_to_remove
  let (removed, set) ← { set with transaction_dependencies := deps }.remove_each p (dependents ++ [key_to_remove])
  set.update_metrics p
  return (removed, set)

/-- `WeightedIndex::sample`: the first index whose running total is above the draw. -/
def sample : List Nat → Nat → Nat
  | [], _ => 0
  | weight :: weights, draw => if draw < weight then 0 else sample weights (draw - weight) + 1

/-- The random choice, with probabilities in proportion to the eviction weights. -/
def choose_key (draw : Nat) (set : VerifiedSet) : Except Abort TransactionHash := do
  let entries := order.arrange set.transactions
  let keys := entries.map (·.mined_id)
  let weights := entries.map (·.eviction_weight)
  let total ← orAbort (if weights.sum = 0 then none else some weights.sum)
    (.expect "there is at least one weight, all weights are non-negative, and the total is positive")
  orAbort keys[sample weights (draw % total)]?
    (.expect "should have a key at every index in the distribution")

def evict_one (draw : Nat) (set : VerifiedSet) :
    Except Abort (Option VerifiedUnminedTx × VerifiedSet) := do
  let key_to_remove ← set.choose_key order draw
  let (removed, set) ← set.remove p key_to_remove
  return (removed.getLast?, set)

def clear_mined_dependencies (set : VerifiedSet) (mined_ids : List TransactionHash) : VerifiedSet :=
  { set with transaction_dependencies := set.transaction_dependencies.clear_mined_dependencies mined_ids }

def remove_keys (p : Profile) (set : VerifiedSet) :
    List TransactionHash → Except Abort (List UnminedTxId × VerifiedSet)
  | [] => .ok ([], set)
  | key :: keys => do
    let (removed, set) ← set.remove p key
    let (ids, set) ← set.remove_keys p keys
    return (removed.map (·.transaction.id) ∪ ids, set)

def remove_all_that (set : VerifiedSet) (predicate : VerifiedUnminedTx → Bool) :
    Except Abort (List UnminedTxId × VerifiedSet) :=
  set.remove_keys p ((order.arrange set.transactions).filter predicate |>.map (·.mined_id))

end VerifiedSet

end mempool

end ZebraCrosslink
