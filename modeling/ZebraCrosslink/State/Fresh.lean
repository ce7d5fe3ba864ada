import ZebraCrosslink.Consensus.Verify
import ZebraCrosslink.State.Path
import ZebraCrosslink.State.Push

/-!
# Transactions that occur once

A transaction that spends something cannot be mined again on the same path: its outputs to spend
are gone from the database and its nullifiers are known there.
-/

open Rust List

namespace ZebraCrosslink

def txIds (l : List ContextuallyVerifiedBlock) : List TransactionHash :=
  l.flatMap fun b => b.block.transactions.map (·.hash)

@[simp] theorem txIds_append (l l' : List ContextuallyVerifiedBlock) :
    txIds (l ++ l') = txIds l ++ txIds l' := flatMap_append

@[simp] theorem txIds_singleton (b : ContextuallyVerifiedBlock) :
    txIds [b] = b.block.transactions.map (·.hash) := flatMap_singleton _ _

variable {l : List ContextuallyVerifiedBlock} {tx : Transaction} {o : OutPoint} {txs : List Transaction}

theorem mem_txIds {x : TransactionHash} :
    x ∈ txIds l ↔ ∃ b ∈ l, ∃ tx ∈ b.block.transactions, tx.hash = x := by
  simp [txIds]

theorem txIds_mem_of_tx (h : tx ∈ l.flatMap (·.block.transactions)) : tx.hash ∈ txIds l := by
  obtain ⟨b, hb, htx⟩ := mem_flatMap.mp h
  exact mem_txIds.mpr ⟨b, hb, tx, htx, rfl⟩

theorem Transaction.eq_of_hash {txName : TransactionHash → TransactionData} {t : Transaction}
    (ht : t.data = txName t.hash) (htx : tx.data = txName tx.hash) (h : t.hash = tx.hash) :
    t = tx := by
  rw [h, ← htx] at ht
  cases t
  cases tx
  simp_all

theorem Transaction.hash_of_created (h : o ∈ tx.created_outpoints) : o.hash = tx.hash := by
  obtain ⟨_, -, rfl⟩ := mem_map.mp h
  rfl

theorem hash_mem_of_created (h : ∃ tx ∈ txs, o ∈ tx.created_outpoints) :
    o.hash ∈ txs.map (·.hash) := by
  obtain ⟨tx, htx, ho⟩ := h
  rw [Transaction.hash_of_created ho]
  exact mem_map_of_mem htx

/-! ## Unspent outputs of the database -/

namespace ZebraDb

variable {l : List ContextuallyVerifiedBlock} {b : ContextuallyVerifiedBlock} {x : TransactionHash}
  {o : OutPoint} {height : Nat}

theorem mem_of_txHeight (h : txHeight l x = some height) :
    ∃ b ∈ l, x ∈ b.block.transactions.map (·.hash) ∧ b.height = height := by
  obtain ⟨b, hfind, hheight⟩ := Option.map_eq_some_iff.mp h
  have hx := find?_some hfind
  refine ⟨b, by simpa using mem_of_find?_eq_some hfind, ?_, hheight⟩
  simpa using hx

theorem txHeight_none (h : x ∉ txIds l) : txHeight l x = none := by
  cases hh : txHeight l x with
  | none => rfl
  | some height =>
    obtain ⟨b, hb, hx, -⟩ := mem_of_txHeight hh
    exact absurd (mem_flatMap.mpr ⟨b, hb, hx⟩) h

theorem txHeight_of_mem (hnodup : (txIds l).Nodup) (hb : b ∈ l)
    (hx : x ∈ b.block.transactions.map (·.hash)) : txHeight l x = some b.height := by
  cases hh : txHeight l x with
  | none =>
    have hall := find?_eq_none.mp (Option.map_eq_none_iff.mp hh) b (by simpa using hb)
    obtain ⟨tx, htx, rfl⟩ := mem_map.mp hx
    exact absurd (by simpa using ⟨tx, htx, rfl⟩) hall
  | some height =>
    obtain ⟨b', hb', hx', rfl⟩ := mem_of_txHeight hh
    by_contra hne
    have hpairs := (nodup_flatMap.mp hnodup).2
    have hsymm : Std.Symm (Function.onFun Disjoint fun b : ContextuallyVerifiedBlock =>
        b.block.transactions.map (·.hash)) := ⟨fun _ _ h => h.symm⟩
    exact hpairs.forall hb' hb (fun heq => hne (by rw [heq])) hx' hx

theorem utxosFrom_append (before : List ContextuallyVerifiedBlock) (utxos : List (OutPoint × Nat)) :
    utxosFrom before utxos (l ++ [b]) = writeUtxos (before ++ l) (utxosFrom before utxos l) b := by
  induction l generalizing before utxos with
  | nil => simp [utxosFrom]
  | cons a l ih => simp [utxosFrom, ih]

theorem of_mem_writeUtxos {before : List ContextuallyVerifiedBlock} {utxos : List (OutPoint × Nat)}
    (h : (o, height) ∈ writeUtxos before utxos b) : ((o, height) ∈ utxos ∨
      (∃ tx ∈ b.block.transactions, o ∈ tx.created_outpoints) ∧ b.height = height) ∧
    ∀ tx ∈ b.block.transactions, o ∈ tx.spent_outpoints →
      height ≠ (txHeight before o.hash).getD b.height := by
  simp only [writeUtxos, mem_filter, mem_append, mem_map, mem_flatMap,
    Prod.mk.injEq, decide_eq_true_eq] at h
  obtain ⟨hin, hspent⟩ := h
  constructor
  · rcases hin with hin | ⟨o, ⟨tx, htx, ho⟩, rfl, rfl⟩
    · exact .inl hin
    · exact .inr ⟨⟨tx, htx, ho⟩, rfl⟩
  · intro tx htx ho heq
    exact hspent ⟨o, ⟨tx, htx, ho⟩, rfl, heq.symm⟩

theorem of_mem_utxosFrom (h : (o, height) ∈ utxosFrom [] [] l) :
    ∃ b ∈ l, (∃ tx ∈ b.block.transactions, o ∈ tx.created_outpoints) ∧ b.height = height := by
  induction l using reverseRecOn with
  | nil => cases h
  | append_singleton l b ih =>
    rw [utxosFrom_append] at h
    rcases (of_mem_writeUtxos h).1 with h | h
    · obtain ⟨a, ha, hx⟩ := ih h
      exact ⟨a, mem_append_left _ ha, hx⟩
    · exact ⟨b, by simp, h⟩

theorem utxo_true {db : ZebraDb} (h : db.utxo o = true) :
    ∃ height, (o, height) ∈ utxosFrom [] [] db.blocks := by
  unfold utxo at h
  split at h
  · exact ⟨_, of_decide_eq_true h⟩
  · cases h

end ZebraDb

open ZebraDb

/-! ## Fresh paths -/

def Sourced (l : List ContextuallyVerifiedBlock) : Prop :=
  ∀ p, p <+: l → ∀ b ∈ p, ∀ tx ∈ b.block.transactions, ∀ o ∈ tx.spent_outpoints, o.hash ∈ txIds p

theorem Sourced.left {l' : List ContextuallyVerifiedBlock} (h : Sourced (l ++ l')) : Sourced l :=
  fun p hp => h p (hp.trans (prefix_append _ _))

variable {b : ContextuallyVerifiedBlock}

theorem Sourced.append_singleton (h : Sourced l)
    (hb : ∀ tx ∈ b.block.transactions, ∀ o ∈ tx.spent_outpoints, o.hash ∈ txIds (l ++ [b])) :
    Sourced (l ++ [b]) := by
  intro p hp a ha tx htx o ho
  rcases prefix_concat_iff.mp hp with rfl | hp
  · rcases mem_append.mp ha with ha | ha
    · rw [txIds_append]
      exact mem_append_left _ (h l (prefix_refl l) a ha tx htx o ho)
    · obtain rfl := mem_singleton.mp ha
      exact hb tx htx o ho
  · exact h p hp a ha tx htx o ho

theorem Sourced.spent_gone (h : Sourced l) (hnodup : (txIds l).Nodup) (hb : b ∈ l)
    (htx : tx ∈ b.block.transactions) (ho : o ∈ tx.spent_outpoints) (height : Nat) :
    (o, height) ∉ utxosFrom [] [] l := by
  induction l using reverseRecOn with
  | nil => cases hb
  | append_singleton l a ih =>
    intro hmem
    rw [utxosFrom_append] at hmem
    obtain ⟨hin, hspent⟩ := of_mem_writeUtxos hmem
    rw [txIds_append, txIds_singleton] at hnodup
    have hl := hnodup.of_append_left
    have hdisjoint := disjoint_of_nodup_append hnodup
    replace hin := hin.imp_right fun hin => hin.imp_left hash_mem_of_created
    rcases mem_append.mp hb with hb | hb
    · -- spent before `a`, which cannot create it again
      rcases hin with hin | ⟨hin, -⟩
      · exact ih h.left hl hb hin
      · exact hdisjoint (h l (prefix_append _ _) b hb tx htx o ho) hin
    · -- spent in `a` itself, which deletes it at the height where it was created
      obtain rfl := mem_singleton.mp hb
      refine hspent tx htx ho ?_
      rcases hin with hin | ⟨hin, rfl⟩
      · obtain ⟨c, hc, hx, rfl⟩ := of_mem_utxosFrom hin
        rw [nil_append, txHeight_of_mem hl hc (hash_mem_of_created hx), Option.getD_some]
      · rw [nil_append, txHeight_none fun hx => hdisjoint hx hin, Option.getD_none]

/-! ## What the checks of an accepted block say -/

namespace check

theorem transaction_spends_ok {order : OutPoint → Verdict Unit} {spends : List OutPoint}
    {seen seen' : List OutPoint} (h : transaction_spends order seen spends = .ok (.ok seen')) :
    ∀ o ∈ spends, order o = .ok (.ok ()) := by
  induction spends generalizing seen with
  | nil => simp
  | cons o rest ih =>
    rw [transaction_spends, exceptT_bind_ok] at h
    obtain ⟨_, ho, h⟩ := h
    split at h
    · cases h
    · exact forall_mem_cons.mpr ⟨ho, ih h⟩

theorem block_spends_ok {order : Nat → OutPoint → Verdict Unit} {first : Nat} {seen : List OutPoint}
    (h : block_spends order first seen txs = .ok (.ok ())) :
    ∀ i tx, txs[i]? = some tx → ∀ o ∈ tx.spent_outpoints, order (first + i) o = .ok (.ok ()) := by
  induction txs generalizing first seen with
  | nil => simp
  | cons tx rest ih =>
    rw [block_spends, exceptT_bind_ok] at h
    obtain ⟨seen', htx, h⟩ := h
    intro i t ht o ho
    cases i with
    | zero =>
      cases ht
      exact transaction_spends_ok htx o ho
    | succ i =>
      rw [Nat.add_succ, ← Nat.succ_add]
      exact ih h i t ht o ho

theorem transparent_spend_chain_order_ok {chain : Chain} {db : ZebraDb} {i : Nat} {o : OutPoint}
    (h : transparent_spend_chain_order txs chain db i o = .ok (.ok ())) :
    (∃ j < i, ∃ tx, txs[j]? = some tx ∧ o ∈ tx.created_outpoints) ∨
      o ∉ chain.spent_utxos ∧ (o ∈ chain.unspent_utxos ∨ db.utxo o = true) := by
  unfold transparent_spend_chain_order at h
  split at h
  · split at h
    · cases h
    · obtain ⟨⟨tx, j⟩, hfind, rfl⟩ := Option.map_eq_some_iff.mp ‹newOutputIndex txs o = some _›
      have hmem := mem_of_find?_eq_some hfind
      have hcreated := find?_some hfind
      rw [mem_reverse, mem_zipIdx_iff_getElem?] at hmem
      exact .inl ⟨j, by omega, tx, hmem, of_decide_eq_true hcreated⟩
  · split at h
    · cases h
    · split at h
      · exact .inr ⟨‹_›, ‹_›⟩
      · cases h

theorem no_duplicates_in_finalized_chain_ok {b : SemanticallyVerifiedBlock} {db : ZebraDb}
    (h : no_duplicates_in_finalized_chain b db = .ok (.ok ())) {tx : Transaction}
    (htx : tx ∈ b.block.transactions) :
    (∀ n ∈ tx.sprout_nullifiers, db.contains_sprout_nullifier n = false) ∧
    (∀ n ∈ tx.sapling_nullifiers, db.contains_sapling_nullifier n = false) ∧
    ∀ n ∈ tx.orchard_nullifiers, db.contains_orchard_nullifier n = false := by
  unfold no_duplicates_in_finalized_chain at h
  dsimp only at h
  split at h
  · cases h
  · split at h
    · cases h
    · split at h
      · cases h
      · have hnone {f : Transaction → List Nullifier} {known : Nullifier → Bool}
            (hfind : (b.block.transactions.flatMap f).find? known = none) :
            ∀ n ∈ f tx, known n = false := fun n hn =>
          Bool.not_eq_true _ ▸ find?_eq_none.mp hfind n (mem_flatMap.mpr ⟨tx, htx, hn⟩)
        exact ⟨hnone ‹_›, hnone ‹_›, hnone ‹_›⟩

end check

variable {chain : Chain}

theorem created_of_unspent (h : o ∈ chain.unspent_utxos) :
    ∃ tx ∈ chain.transactions, o ∈ tx.created_outpoints :=
  mem_flatMap.mp (mem_of_mem_filter h)

theorem hash_mem_of_unspent (h : o ∈ chain.unspent_utxos) : o.hash ∈ txIds chain.blocks := by
  obtain ⟨tx, htx, ho⟩ := created_of_unspent h
  rw [Transaction.hash_of_created ho]
  exact txIds_mem_of_tx htx

/-! ## Accepted blocks repeat no transaction -/

theorem Transaction.coinbase_input (h : tx.is_coinbase = true) :
    ∃ height, tx.inputs = [.Coinbase height] := by
  unfold is_coinbase at h
  split at h
  · exact ⟨_, ‹_›⟩
  · cases h

theorem SemanticBlockVerifier.Formed.coinbase_height {b : SemanticallyVerifiedBlock} (h : Formed b)
    (htx : tx ∈ b.block.transactions) {height : Nat}
    (hin : tx.inputs = [.Coinbase height]) : b.block.coinbase_height = some height := by
  obtain ⟨first, rest, hcons, -, hrest⟩ := h.coinbase
  rw [hcons] at htx
  rcases mem_cons.mp htx with rfl | htx
  · simp [Block.coinbase_height, hcons, hin]
  · have hvalid := hrest tx htx
    simp [Transaction.is_valid_non_coinbase, hin, Input.outpoint] at hvalid

structure InContext (db : ZebraDb) (chain : Chain) (b : ContextuallyVerifiedBlock) : Prop where
  height : b.height = (db.blocks ++ chain.blocks).length
  prev : b.block.header.previous_block_hash = tipHash (db.blocks ++ chain.blocks)
  nullifiers : check.no_duplicates_in_finalized_chain b db = .ok (.ok ())
  spends : check.transparent_spend b chain db = .ok (.ok ())
  chain_ids : ∀ tx ∈ b.block.transactions, ∀ t ∈ chain.transactions, t.hash ≠ tx.hash

theorem Accepted.inContext {db : ZebraDb} (h : Accepted db chain b) : InContext db chain b where
  height := h.height
  prev := h.prev
  nullifiers := h.nullifiers
  spends := h.spends
  chain_ids _ htx _ ht := (update_with_transactions_ok_iff.mp h.updates).1.ids.hash_ne ht htx

/-- A block of one coinbase and transactions that spend something. Ids name the transactions. -/
structure Spending (name : BlockHash → Block) (txName : TransactionHash → TransactionData)
    (b : ContextuallyVerifiedBlock) : Prop where
  block : Named name b
  formed : SemanticBlockVerifier.Formed b
  named : ∀ tx ∈ b.block.transactions, tx.data = txName tx.hash
  spends : ∀ tx ∈ b.block.transactions, tx.is_coinbase = true ∨ tx.Spends

structure Fresh (name : BlockHash → Block) (txName : TransactionHash → TransactionData)
    (l : List ContextuallyVerifiedBlock) : Prop where
  path : PowPath name l
  formed : ∀ b ∈ l, SemanticBlockVerifier.Formed b
  named : ∀ b ∈ l, ∀ tx ∈ b.block.transactions, tx.data = txName tx.hash
  distinct : (txIds l).Nodup
  sourced : Sourced l

namespace Fresh

variable {name : BlockHash → Block} {txName : TransactionHash → TransactionData}
  {l l' : List ContextuallyVerifiedBlock} {b a : ContextuallyVerifiedBlock} {db : ZebraDb}
  {chain : Chain}

theorem nil : Fresh name txName [] where
  path := .nil
  formed := by simp
  named := by simp
  distinct := nodup_nil
  sourced p hp b hb := by
    obtain rfl := prefix_nil.mp hp
    cases hb

theorem left (h : Fresh name txName (l ++ l')) : Fresh name txName l where
  path := h.path.left
  formed b hb := h.formed b (mem_append_left _ hb)
  named b hb := h.named b (mem_append_left _ hb)
  distinct := by
    have hnodup := h.distinct
    rw [txIds_append] at hnodup
    exact hnodup.of_append_left
  sourced := h.sourced.left

theorem coinbase_fresh (h : Fresh name txName l) (hb : Spending name txName b)
    (hheight : b.height = l.length) {tx : Transaction} (htx : tx ∈ b.block.transactions)
    (hcoinbase : tx.is_coinbase = true) (ha : a ∈ l) : tx ∉ a.block.transactions := by
  intro hmem
  obtain ⟨height, hin⟩ := Transaction.coinbase_input hcoinbase
  have hboth : some a.height = some b.height := by
    rw [← (h.path.named a ha).height, ← hb.block.height,
      (h.formed a ha).coinbase_height hmem hin, hb.formed.coinbase_height htx hin]
  have hlt := (List.getElem?_eq_some_iff.mp (h.path.getElem?_of_mem ha)).1
  rw [Option.some.inj hboth] at hlt
  omega

section

variable (hctx : InContext db chain b)
include hctx

theorem spending_fresh (h : Fresh name txName (db.blocks ++ chain.blocks)) {i : Nat}
    {tx : Transaction} (hi : b.block.transactions[i]? = some tx) (hspends : tx.Spends)
    (ih : ∀ j < i, ∀ t, b.block.transactions[j]? = some t →
      t.hash ∉ txIds (db.blocks ++ chain.blocks)) (ha : a ∈ db.blocks) :
    tx ∉ a.block.transactions := by
  intro hmem
  have hdb := h.left
  have htx := mem_of_getElem? hi
  have hmined : tx ∈ db.transactions := mem_flatMap.mpr ⟨a, ha, hmem⟩
  obtain ⟨hsprout, hsapling, horchard⟩ :=
    check.no_duplicates_in_finalized_chain_ok hctx.nullifiers htx
  have hknown {f : Transaction → List Nullifier} (hf : f tx ≠ [])
      (hnew : ∀ n ∈ f tx, (db.transactions.any fun t => (f t).contains n) = false) : False := by
    obtain ⟨n, hn⟩ := exists_mem_of_ne_nil _ hf
    have := any_eq_false.mp (hnew n hn) tx hmined
    simp [hn] at this
  rcases hspends with ho | hn | hn | hn
  · obtain ⟨o, ho⟩ := exists_mem_of_ne_nil _ ho
    have hsource := hdb.sourced db.blocks (prefix_refl _) a ha tx hmem o ho
    have horder := check.block_spends_ok hctx.spends i tx hi o ho
    rw [Nat.zero_add] at horder
    rcases check.transparent_spend_chain_order_ok horder with
      ⟨j, hj, t, ht, hto⟩ | ⟨-, hchain | hutxo⟩
    · apply ih j hj t ht
      rw [← Transaction.hash_of_created hto, txIds_append]
      exact mem_append_left _ hsource
    · have hnodup := h.distinct
      rw [txIds_append] at hnodup
      exact disjoint_of_nodup_append hnodup hsource (hash_mem_of_unspent hchain)
    · obtain ⟨height, hutxo⟩ := utxo_true hutxo
      exact hdb.sourced.spent_gone hdb.distinct ha hmem ho height hutxo
  · exact hknown hn hsprout
  · exact hknown hn hsapling
  · exact hknown hn horchard

theorem next_fresh (h : Fresh name txName (db.blocks ++ chain.blocks)) (hb : Spending name txName b)
    (i : Nat) :
    ∀ tx, b.block.transactions[i]? = some tx → tx.hash ∉ txIds (db.blocks ++ chain.blocks) := by
  induction i using Nat.strong_induction_on with
  | _ i ih =>
    intro tx hi hmem
    have htx := mem_of_getElem? hi
    obtain ⟨a, ha, t, ht, hhash⟩ := mem_txIds.mp hmem
    obtain rfl := Transaction.eq_of_hash (h.named a ha t ht) (hb.named tx htx) hhash
    rcases hb.spends t htx with hcoinbase | hspend
    · exact h.coinbase_fresh hb hctx.height htx hcoinbase ha ht
    · rcases mem_append.mp ha with ha | ha
      · exact h.spending_fresh hctx hi hspend ih ha ht
      · exact hctx.chain_ids t htx t (mem_flatMap.mpr ⟨a, ha, ht⟩) rfl

theorem next_sourced {tx : Transaction} (htx : tx ∈ b.block.transactions) {o : OutPoint}
    (ho : o ∈ tx.spent_outpoints) : o.hash ∈ txIds (db.blocks ++ chain.blocks ++ [b]) := by
  obtain ⟨i, hi⟩ := mem_iff_getElem?.mp htx
  have horder := check.block_spends_ok hctx.spends i tx hi o ho
  simp only [txIds_append, mem_append]
  rcases check.transparent_spend_chain_order_ok horder with
    ⟨j, -, t, ht, hto⟩ | ⟨-, hchain | hutxo⟩
  · rw [Transaction.hash_of_created hto, txIds_singleton]
    exact .inr (mem_map_of_mem (mem_of_getElem? ht))
  · exact .inl (.inr (hash_mem_of_unspent hchain))
  · obtain ⟨height, hutxo⟩ := utxo_true hutxo
    obtain ⟨a, ha, hx, -⟩ := of_mem_utxosFrom hutxo
    exact .inl (.inl (mem_flatMap.mpr ⟨a, ha, hash_mem_of_created hx⟩))

theorem extend (h : Fresh name txName (db.blocks ++ chain.blocks)) (hb : Spending name txName b) :
    Fresh name txName (db.blocks ++ chain.blocks ++ [b]) where
  path := h.path.append_singleton hb.block hctx.height hctx.prev
  formed := forall_mem_append.mpr ⟨h.formed, forall_mem_singleton.mpr hb.formed⟩
  named := forall_mem_append.mpr ⟨h.named, forall_mem_singleton.mpr hb.named⟩
  distinct := by
    rw [txIds_append, txIds_singleton]
    refine h.distinct.append hb.formed.distinct fun x hx hx' => ?_
    obtain ⟨tx, htx, rfl⟩ := mem_map.mp hx'
    obtain ⟨i, hi⟩ := mem_iff_getElem?.mp htx
    exact h.next_fresh hctx hb i tx hi hx
  sourced := h.sourced.append_singleton fun _ htx _ => next_sourced hctx htx

end

end Fresh

/-! ## Blocks from the verifier -/

/-- A block that the verifier sends to the state. Transaction ids stand for one transaction each,
and the mempool holds transactions that were verified in full. -/
structure Delivered (rules : BlockRules) (name : BlockHash → Block)
    (txName : TransactionHash → TransactionData) (b : ContextuallyVerifiedBlock) : Prop where
  block : Named name b
  named : ∀ tx ∈ b.block.transactions, tx.data = txName tx.hash
  verified : ∃ mempool known,
    (∀ entry ∈ mempool, entry.data = txName entry.hash ∧
      ∃ req, Verifier.full_checks rules.toTransactionRules req entry = .ok ()) ∧
    SemanticBlockVerifier.call rules mempool known b.hash b.block = .ok b

def StakesSpend (b : ContextuallyVerifiedBlock) : Prop :=
  ∀ tx ∈ b.block.transactions, tx.staking_action.isSome = true →
    tx.is_coinbase = true ∨ tx.Spends

namespace Delivered

variable {rules : BlockRules} {name : BlockHash → Block}
  {txName : TransactionHash → TransactionData} {b : ContextuallyVerifiedBlock}

section

variable (h : Delivered rules name txName b)
include h

theorem formed : SemanticBlockVerifier.Formed b := by
  obtain ⟨_, _, -, hcall⟩ := h.verified
  exact (SemanticBlockVerifier.call_ok hcall).1

theorem checked {tx : Transaction} (htx : tx ∈ b.block.transactions) :
    check.has_inputs_and_outputs tx = .ok () := by
  obtain ⟨mempool, _, hmempool, hcall⟩ := h.verified
  obtain ⟨_, hverified⟩ := (SemanticBlockVerifier.call_ok hcall).2 tx htx
  rcases Verifier.call_ok hverified with hchecked | ⟨entry, hentry, hhash⟩
  · exact hchecked
  · obtain ⟨hdata, _, hfull⟩ := hmempool entry hentry
    obtain rfl := Transaction.eq_of_hash hdata (h.named tx htx) hhash
    exact Verifier.full_checks_ok hfull

theorem spending (hstakes : StakesSpend b) : Spending name txName b where
  block := h.block
  formed := h.formed
  named := h.named
  spends := by
    intro tx htx
    obtain ⟨first, rest, hcons, hfirst, hrest⟩ := h.formed.coinbase
    cases hstake : tx.staking_action with
    | some action => exact hstakes tx htx (by rw [hstake]; rfl)
    | none =>
      have hchecked := h.checked htx
      rw [hcons] at htx
      rcases mem_cons.mp htx with rfl | htx
      · exact .inl hfirst
      · exact .inr (Transaction.spends_of_checked hchecked hstake (hrest tx htx))

end

end Delivered

/-- A block that a checkpoint covers. Nobody checks here that its spends and nullifiers are new. -/
structure Covered (name : BlockHash → Block) (txName : TransactionHash → TransactionData)
    (l : List ContextuallyVerifiedBlock) (b : ContextuallyVerifiedBlock) : Prop where
  spending : Spending name txName b
  nullifiers : check.no_duplicates_in_finalized_chain b ⟨l⟩ = .ok (.ok ())
  spends : check.transparent_spend b ⟨[]⟩ ⟨l⟩ = .ok (.ok ())

theorem lasting_fresh (rules : BlockRules) (name : BlockHash → Block)
    (txName : TransactionHash → TransactionData) :
    Lasting name (fun b => Delivered rules name txName b ∧ StakesSpend b) (Covered name txName)
      (Fresh name txName) where
  path _ h := h.path
  left _ _ h := h.left
  commit _ _ _ h hb hacc := h.extend hacc.inContext (hb.1.spending hb.2)
  checkpoint l b h hb hheight hprev := by
    have hctx : InContext ⟨l⟩ ⟨[]⟩ b := ⟨by simpa using hheight, by simpa using hprev,
      hb.nullifiers, hb.spends, by simp [Chain.transactions]⟩
    have hextend := Fresh.extend hctx (by simpa using h) hb.spending
    simpa using hextend

end ZebraCrosslink
