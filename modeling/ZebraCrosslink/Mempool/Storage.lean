import ZebraCrosslink.Consensus.Verify
import ZebraCrosslink.Mempool.VerifiedSet

/-!
# Mempool storage

The verified set and the lists of rejected transactions. Each operation reads the clock once.
-/

open Rust

namespace ZebraCrosslink.mempool

/-! ## Eviction lists -/

structure EvictionList where
  unique_entries : Map TransactionHash Nat
  ordered_entries : List TransactionHash
  max_size : Nat
  eviction_memory_time : Nat

namespace EvictionList

def new (max_size eviction_memory_time : Nat) : EvictionList := ⟨∅, [], max_size, eviction_memory_time⟩

variable (list : EvictionList) (now : Nat)

def has_expired (evicted_at : Nat) : Bool :=
  list.eviction_memory_time < now - evicted_at

def pop_front : Except Abort EvictionList :=
  match list.ordered_entries with
  | [] => .ok list
  | key :: rest =>
    if key ∈ list.unique_entries then
      .ok { list with unique_entries := list.unique_entries.erase key, ordered_entries := rest }
    else .error (.assert "all entries should exist in both ordered_entries and unique_entries, missing \x7bkey:?\x7d in unique_entries")

def prune_loop (now : Nat) (list : EvictionList) : Nat → Except Abort EvictionList
  | 0 => .error .outOfFuel
  | fuel + 1 =>
    match list.ordered_entries.head? with
    | none => .ok list
    | some txid => do
      let evicted_at ← orAbort (list.unique_entries.lookup txid)
        (.panic "all entries should exist in both ordered_entries and unique_entries, missing \x7btxid:?\x7d in unique_entries")
      if list.has_expired now evicted_at then
        let list ← list.pop_front
        list.prune_loop now fuel
      else return list

def prune_old (list : EvictionList) : Except Abort EvictionList :=
  list.prune_loop now (list.ordered_entries.length + 1)

def len (list : EvictionList) : Except Abort (Nat × EvictionList) := do
  let list ← list.prune_old now
  return (list.unique_entries.keys.card, list)

def contains_key (list : EvictionList) (txid : TransactionHash) : Bool :=
  match list.unique_entries.lookup txid with
  | some evicted_at => !list.has_expired now evicted_at
  | none => false

def make_room (len : Nat) : Except Abort EvictionList :=
  if list.max_size ≤ len then list.pop_front else .ok list

def insert (now : Nat) (list : EvictionList) (key : TransactionHash) : Except Abort EvictionList := do
  let list ← list.prune_old now
  let (len, list) ← list.len now
  let list ← list.make_room len
  if key ∈ list.unique_entries then
    throw (.assert "an already-evicted transaction should not be evicted again")
  return { list with
    unique_entries := list.unique_entries.insert key now
    ordered_entries := list.ordered_entries ++ [key] }

end EvictionList

/-! ## Rejections -/

def MAX_EVICTION_MEMORY_ENTRIES : Nat := 40000

inductive ExactTipRejectionError
  | FailedVerification (error : TransactionError)
  deriving DecidableEq

inductive SameEffectsChainRejectionError
  | Expired
  | DuplicateSpend
  | Mined
  | RandomlyEvicted
  deriving DecidableEq

inductive RejectionError
  | ExactTip (error : ExactTipRejectionError)
  | SameEffectsTip (error : SameEffectsTipRejectionError)
  | SameEffectsChain (error : SameEffectsChainRejectionError)
  deriving DecidableEq

inductive MempoolError
  | StorageExactTip (error : ExactTipRejectionError)
  | StorageEffectsTip (error : SameEffectsTipRejectionError)
  | StorageEffectsChain (error : SameEffectsChainRejectionError)
  | InMempool
  | AlreadyQueued
  | FullQueue
  deriving DecidableEq

inductive TransactionDownloadVerifyError
  | InState
  | StateError (error : String)
  | DownloadFailed (error : String)
  | Cancelled
  | Invalid (error : TransactionError)
  deriving DecidableEq

structure Storage where
  verified : VerifiedSet
  tip_rejected_exact : Map UnminedTxId ExactTipRejectionError
  tip_rejected_same_effects : Map TransactionHash SameEffectsTipRejectionError
  chain_rejected_same_effects : Map SameEffectsChainRejectionError EvictionList
  eviction_memory_time : Nat
  tx_cost_limit : Nat

namespace Storage

def new (tx_cost_limit eviction_memory_time : Nat) : Storage where
  verified := .empty
  tip_rejected_exact := ∅
  tip_rejected_same_effects := ∅
  chain_rejected_same_effects := ∅
  eviction_memory_time := eviction_memory_time
  tx_cost_limit := tx_cost_limit

def chainReasons : List SameEffectsChainRejectionError := [.Expired, .DuplicateSpend, .Mined, .RandomlyEvicted]

variable (now : Nat) (s : Storage) (p : Profile)

def count_list (reason : SameEffectsChainRejectionError) : Except Abort Storage :=
  match s.chain_rejected_same_effects.lookup reason with
  | none => .ok s
  | some list => do
    let (_, list) ← list.len now
    return { s with chain_rejected_same_effects := s.chain_rejected_same_effects.insert reason list }

def update_rejected_metrics : Except Abort Storage :=
  chainReasons.foldlM (count_list now) s

def clear_tip_rejections : Except Abort Storage :=
  { s with tip_rejected_exact := ∅, tip_rejected_same_effects := ∅ }.update_rejected_metrics now

def clear : Except Abort Storage :=
  { s with
    verified := .empty
    tip_rejected_exact := ∅
    tip_rejected_same_effects := ∅
    chain_rejected_same_effects := ∅ }.update_rejected_metrics now

def limit_rejection_list_memory : Except Abort Storage :=
  { s with
    tip_rejected_exact :=
      if MAX_EVICTION_MEMORY_ENTRIES < s.tip_rejected_exact.keys.card then ∅ else s.tip_rejected_exact
    tip_rejected_same_effects :=
      if MAX_EVICTION_MEMORY_ENTRIES < s.tip_rejected_same_effects.keys.card then ∅
      else s.tip_rejected_same_effects }.update_rejected_metrics now

def chain_list (reason : SameEffectsChainRejectionError) : EvictionList :=
  (s.chain_rejected_same_effects.lookup reason).getD
    (.new MAX_EVICTION_MEMORY_ENTRIES s.eviction_memory_time)

def reject (tx_id : UnminedTxId) (reason : RejectionError) : Except Abort Storage := do
  let s ← match reason with
    | .ExactTip e => pure { s with tip_rejected_exact := s.tip_rejected_exact.insert tx_id e }
    | .SameEffectsTip e =>
      pure { s with tip_rejected_same_effects := s.tip_rejected_same_effects.insert tx_id.mined_id e }
    | .SameEffectsChain e => do
      let list ← (s.chain_list e).insert now tx_id.mined_id
      pure { s with chain_rejected_same_effects := s.chain_rejected_same_effects.insert e list }
  s.limit_rejection_list_memory now

def reject_if_needed (tx_id : UnminedTxId) : TransactionDownloadVerifyError → Except Abort Storage
  | .InState | .StateError _ | .DownloadFailed _ | .Cancelled => .ok s
  | .Invalid error => s.reject now tx_id (.ExactTip (.FailedVerification error))

def rejection_error (order : IterationOrder) (s : Storage) (txid : UnminedTxId) :
    Option MempoolError :=
  match s.tip_rejected_exact.lookup txid with
  | some error => some (.StorageExactTip error)
  | none =>
    match s.tip_rejected_same_effects.lookup txid.mined_id with
    | some error => some (.StorageEffectsTip error)
    | none =>
      ((order.arrange chainReasons).find? fun reason =>
        (s.chain_rejected_same_effects.lookup reason).any fun set => set.contains_key now txid.mined_id).map
        .StorageEffectsChain

/-! ## Changes of the verified set -/

/-- The loop that evicts until the cost limit holds. The draws are those of the random generator. -/
def evict_loop (p : Profile) (now : Nat) (order : IterationOrder) (unmined_tx_id : UnminedTxId)
    (s : Storage) : Nat → (Nat → Nat) → Except MempoolError UnminedTxId →
      Except Abort (Except MempoolError UnminedTxId × Storage)
  | 0, _, _ => .error .outOfFuel
  | fuel + 1, draws, result =>
    if s.tx_cost_limit < s.verified.total_cost then do
      let (victim, verified) ← s.verified.evict_one p order (draws 0)
      let victim_tx ← orAbort victim (.expect "mempool is empty, but was expected to be full")
      let s ← { s with verified := verified }.reject now victim_tx.transaction.id
        (.SameEffectsChain .RandomlyEvicted)
      let result := if victim_tx.transaction.id = unmined_tx_id
        then .error (.StorageEffectsChain .RandomlyEvicted) else result
      s.evict_loop p now order unmined_tx_id fuel (fun i => draws (i + 1)) result
    else .ok (result, s)

def insert_verified (now : Nat) (s : Storage) (tx : VerifiedUnminedTx)
    (spent_mempool_outpoints : List OutPoint) :
    Except Abort (Except MempoolError UnminedTxId × Storage) := do
  match ← s.verified.insert p tx spent_mempool_outpoints with
  | .ok verified => return (.ok tx.transaction.id, { s with verified := verified })
  | .error rejection_error =>
    let s ← s.reject now tx.transaction.id (.SameEffectsTip rejection_error)
    return (.error (.StorageEffectsTip rejection_error), s)

def insert (now : Nat) (order : IterationOrder) (draws : Nat → Nat) (s : Storage)
    (tx : VerifiedUnminedTx) (spent_mempool_outpoints : List OutPoint) :
    Except Abort (Except MempoolError UnminedTxId × Storage) :=
  match s.rejection_error now order tx.transaction.id with
  | some error => .ok (.error error, s)
  | none =>
    if s.verified.contains tx.mined_id then .ok (.error .InMempool, s)
    else do
      let (result, s) ← s.insert_verified p now tx spent_mempool_outpoints
      s.evict_loop p now order tx.transaction.id (s.verified.transactions.length + 1) draws result

def has_exact_id (exact_wtxids : List UnminedTxId) (tx : VerifiedUnminedTx) : Bool :=
  tx.transaction.id ∈ exact_wtxids

def has_mined_id (mined_ids : List TransactionHash) (tx : VerifiedUnminedTx) : Bool := tx.mined_id ∈ mined_ids

def remove_exact (order : IterationOrder) (s : Storage) (exact_wtxids : List UnminedTxId) :
    Except Abort (Nat × Storage) := do
  let (removed, verified) ← s.verified.remove_all_that p order (has_exact_id exact_wtxids)
  return (removed.length, { s with verified := verified })

def clear_mined_dependencies (s : Storage) (mined_ids : List TransactionHash) : Storage :=
  { s with verified := s.verified.clear_mined_dependencies mined_ids }

def reject_each (reason : SameEffectsChainRejectionError) (s : Storage) (ids : List UnminedTxId) :
    Except Abort Storage :=
  ids.foldlM (fun s id => s.reject now id (.SameEffectsChain reason)) s

/-- A stored transaction spends or reveals what one of the `transactions` spends or reveals. -/
def has_duplicate_spend (transactions : List Transaction) (tx : VerifiedUnminedTx) : Bool :=
  let tx := tx.transaction.transaction
  (tx.spent_outpoints.any fun outpoint => outpoint ∈ transactions.flatMap (·.spent_outpoints)) ||
    (tx.sprout_nullifiers.any fun nullifier => nullifier ∈ transactions.flatMap (·.sprout_nullifiers)) ||
    (tx.sapling_nullifiers.any fun nullifier => nullifier ∈ transactions.flatMap (·.sapling_nullifiers)) ||
    (tx.orchard_nullifiers.any fun nullifier => nullifier ∈ transactions.flatMap (·.orchard_nullifiers))

structure RemovedTransactionIds where
  mined : List UnminedTxId
  invalidated : List UnminedTxId

def reject_and_remove_same_effects (now : Nat) (order : IterationOrder) (s : Storage)
    (mined_ids : List TransactionHash) (transactions : List Transaction) :
    Except Abort (RemovedTransactionIds × Storage) := do
  let (removed_mined, verified) ← s.verified.remove_all_that p order (has_mined_id mined_ids)
  let duplicate_spend_ids := (verified.transactions.filter (has_duplicate_spend transactions)).map
    (·.transaction.id)
  let (removed_duplicate_spend, verified) ← verified.remove_all_that p order (has_exact_id duplicate_spend_ids)
  let s ← reject_each now .Mined { s with verified := verified } (mined_ids.map .Legacy)
  let s ← reject_each now .DuplicateSpend s (order.arrange duplicate_spend_ids)
  return (⟨removed_mined, removed_duplicate_spend⟩, s)

def has_expired_at (tip_height : Nat) (tx : VerifiedUnminedTx) : Bool :=
  match tx.transaction.transaction.expiry_height with
  | some expiry_height => expiry_height ≤ tip_height
  | none => false

def remove_expired_transactions (now : Nat) (order : IterationOrder) (s : Storage)
    (tip_height : Nat) : Except Abort (List UnminedTxId × Storage) := do
  let expired := s.verified.transactions.filter (has_expired_at tip_height)
  let tx_ids := expired.map (·.mined_id)
  let unmined_tx_ids := expired.map (·.transaction.id)
  let (_, verified) ← s.verified.remove_all_that p order (has_mined_id tx_ids)
  let s ← reject_each now .Expired { s with verified := verified } ((order.arrange tx_ids).map .Legacy)
  return (unmined_tx_ids, s)

end Storage

/-! ## Runs of operations -/

inductive Mempool.Operation
  | insert (tx : VerifiedUnminedTx) (spent_mempool_outpoints : List OutPoint) (draws : Nat → Nat)
  | reject_and_remove_same_effects (mined_ids : List TransactionHash) (transactions : List Transaction)
  | clear_mined_dependencies (mined_ids : List TransactionHash)
  | remove_exact (exact_wtxids : List UnminedTxId)
  | remove_expired_transactions (tip_height : Nat)
  | reject (tx_id : UnminedTxId) (reason : RejectionError)
  | reject_if_needed (tx_id : UnminedTxId) (e : TransactionDownloadVerifyError)
  | clear_tip_rejections
  | clear

/-- An operation, the time since the one before, and the order in which it iterates. -/
structure Mempool.Call where
  elapsed : Nat
  order : IterationOrder
  operation : Mempool.Operation

structure Mempool where
  storage : Storage
  now : Nat

namespace Mempool

def new (tx_cost_limit eviction_memory_time : Nat) : Mempool := ⟨.new tx_cost_limit eviction_memory_time, 0⟩

variable (p : Profile)

def run_operation (now : Nat) (order : IterationOrder) (s : Storage) :
    Operation → Except Abort Storage
  | .insert tx spent draws => (s.insert p now order draws tx spent).map (·.2)
  | .reject_and_remove_same_effects mined_ids transactions =>
    (s.reject_and_remove_same_effects p now order mined_ids.dedup transactions).map (·.2)
  | .clear_mined_dependencies mined_ids => .ok (s.clear_mined_dependencies mined_ids.dedup)
  | .remove_exact exact_wtxids => (s.remove_exact p order exact_wtxids).map (·.2)
  | .remove_expired_transactions tip_height =>
    (s.remove_expired_transactions p now order tip_height).map (·.2)
  | .reject tx_id reason => s.reject now tx_id reason
  | .reject_if_needed tx_id e => s.reject_if_needed now tx_id e
  | .clear_tip_rejections => s.clear_tip_rejections now
  | .clear => s.clear now

def step (m : Mempool) (call : Call) : Except Abort Mempool := do
  let now := m.now + call.elapsed
  let storage ← run_operation p now call.order m.storage call.operation
  return ⟨storage, now⟩

/-- The best chain grows by a block: its transactions are taken out of the mempool. -/
def grow (now : Nat) (order : IterationOrder) (s : Storage)
    (transaction_hashes : List TransactionHash) (transactions : List Transaction) :
    Except Abort Storage := do
  let s ← run_operation p now order s (.clear_mined_dependencies transaction_hashes)
  let s ← run_operation p now order s (.reject_and_remove_same_effects transaction_hashes transactions)
  run_operation p now order s .clear_tip_rejections

inductive Event
  | insert (tx : VerifiedUnminedTx) (spent_mempool_outpoints : List OutPoint) (draws : Nat → Nat)
  | grow (transaction_hashes : List TransactionHash) (transactions : List Transaction)
  | remove_exact (exact_wtxids : List UnminedTxId)
  | remove_expired_transactions (tip_height : Nat)
  | reject_if_needed (tx_id : UnminedTxId) (e : TransactionDownloadVerifyError)
  | clear

structure Poll where
  elapsed : Nat
  order : IterationOrder
  event : Event

def run_event (now : Nat) (order : IterationOrder) (s : Storage) : Event → Except Abort Storage
  | .insert tx spent draws => run_operation p now order s (.insert tx spent draws)
  | .grow transaction_hashes transactions => grow p now order s transaction_hashes transactions
  | .remove_exact exact_wtxids => run_operation p now order s (.remove_exact exact_wtxids)
  | .remove_expired_transactions tip_height =>
    run_operation p now order s (.remove_expired_transactions tip_height)
  | .reject_if_needed tx_id e => run_operation p now order s (.reject_if_needed tx_id e)
  | .clear => run_operation p now order s .clear

def poll (m : Mempool) (update : Poll) : Except Abort Mempool := do
  let now := m.now + update.elapsed
  let storage ← run_event p now update.order m.storage update.event
  return ⟨storage, now⟩

end Mempool

end ZebraCrosslink.mempool
