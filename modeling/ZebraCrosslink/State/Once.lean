import ZebraCrosslink.State.ChainSet
import ZebraCrosslink.State.Fresh

/-!
# Spending once

On a path where no transaction id occurs twice, the checks cover every spend below the block.
-/

open Rust List

namespace ZebraCrosslink

def transactionsOf (l : List ContextuallyVerifiedBlock) : List Transaction :=
  l.flatMap (·.block.transactions)

@[simp] theorem transactionsOf_append (l l' : List ContextuallyVerifiedBlock) :
    transactionsOf (l ++ l') = transactionsOf l ++ transactionsOf l' := flatMap_append

@[simp] theorem transactionsOf_singleton (b : ContextuallyVerifiedBlock) :
    transactionsOf [b] = b.block.transactions := flatMap_singleton _ _

theorem txIds_eq (l : List ContextuallyVerifiedBlock) :
    txIds l = (transactionsOf l).map (·.hash) := by
  rw [txIds, transactionsOf, map_flatMap]

theorem nodup_flatMap_left {α : Type} {f : Transaction → List α} {txs txs' : List Transaction}
    (h : ((txs ++ txs').flatMap f).Nodup) : (txs.flatMap f).Nodup := by
  rw [flatMap_append] at h
  exact h.of_append_left

/-- Along `txs` every output is spent at most once and after it was created, and no nullifier is
revealed twice. -/
structure NoDoubleSpend (txs : List Transaction) : Prop where
  spent_once : (txs.flatMap (·.spent_outpoints)).Nodup
  created_before : ∀ (i : Nat) (tx : Transaction), txs[i]? = some tx → ∀ o ∈ tx.spent_outpoints,
    ∃ j < i, ∃ t, txs[j]? = some t ∧ o ∈ t.created_outpoints
  sprout_once : (txs.flatMap (·.sprout_nullifiers)).Nodup
  sapling_once : (txs.flatMap (·.sapling_nullifiers)).Nodup
  orchard_once : (txs.flatMap (·.orchard_nullifiers)).Nodup

namespace NoDoubleSpend

variable {txs txs' : List Transaction}

theorem nil : NoDoubleSpend [] := ⟨by simp, by simp, by simp, by simp, by simp⟩

theorem left (h : NoDoubleSpend (txs ++ txs')) : NoDoubleSpend txs where
  spent_once := nodup_flatMap_left h.spent_once
  created_before i tx hi o ho := by
    have hlt := (List.getElem?_eq_some_iff.mp hi).1
    obtain ⟨j, hj, t, ht, hot⟩ := h.created_before i tx (by rwa [getElem?_append_left hlt]) o ho
    rw [getElem?_append_left (hj.trans hlt)] at ht
    exact ⟨j, hj, t, ht, hot⟩
  sprout_once := nodup_flatMap_left h.sprout_once
  sapling_once := nodup_flatMap_left h.sapling_once
  orchard_once := nodup_flatMap_left h.orchard_once

theorem created (h : NoDoubleSpend txs) {tx : Transaction} (htx : tx ∈ txs) {o : OutPoint}
    (ho : o ∈ tx.spent_outpoints) : ∃ t ∈ txs, o ∈ t.created_outpoints := by
  obtain ⟨i, hi⟩ := mem_iff_getElem?.mp htx
  obtain ⟨j, -, t, ht, hot⟩ := h.created_before i tx hi o ho
  exact ⟨t, mem_of_getElem? ht, hot⟩

theorem append (h : NoDoubleSpend txs) (hspent : AllNew (·.spent_outpoints) txs txs')
    (hcreated : ∀ (i : Nat) (tx : Transaction), txs'[i]? = some tx → ∀ o ∈ tx.spent_outpoints,
      (∃ j < i, ∃ t, txs'[j]? = some t ∧ o ∈ t.created_outpoints) ∨
        ∃ t ∈ txs, o ∈ t.created_outpoints)
    (hnullifiers : NewNullifiers txs txs') : NoDoubleSpend (txs ++ txs') where
  spent_once := hspent.nodup h.spent_once
  created_before i tx hi o ho := by
    rcases Nat.lt_or_ge i txs.length with hlt | hge
    · rw [getElem?_append_left hlt] at hi
      obtain ⟨j, hj, t, ht, hot⟩ := h.created_before i tx hi o ho
      exact ⟨j, hj, t, by rwa [getElem?_append_left (hj.trans hlt)], hot⟩
    · rw [getElem?_append_right hge] at hi
      rcases hcreated _ tx hi o ho with ⟨j, hj, t, ht, hot⟩ | ⟨t, ht, hot⟩
      · refine ⟨txs.length + j, by omega, t, ?_, hot⟩
        rwa [getElem?_append_right (by omega), Nat.add_sub_cancel_left]
      · obtain ⟨j, hj, rfl⟩ := mem_iff_getElem.mp ht
        exact ⟨j, by omega, _, by rw [getElem?_append_left hj, getElem?_eq_getElem hj], hot⟩
  sprout_once := hnullifiers.sprout.nodup h.sprout_once
  sapling_once := hnullifiers.sapling.nodup h.sapling_once
  orchard_once := hnullifiers.orchard.nodup h.orchard_once

end NoDoubleSpend

/-! ## What the checks of a block cover -/

namespace check

theorem transaction_spends_new {order : OutPoint → Verdict Unit} {spends seen seen' : List OutPoint}
    (h : transaction_spends order seen spends = .ok (.ok seen')) :
    seen' = seen ++ spends ∧ spends.Nodup ∧ Disjoint seen spends := by
  induction spends generalizing seen with
  | nil =>
    obtain rfl := Except.ok.inj (Except.ok.inj h)
    simp
  | cons o rest ih =>
    rw [transaction_spends, exceptT_bind_ok] at h
    obtain ⟨_, -, h⟩ := h
    split at h
    · cases h
    · rename_i hseen
      obtain ⟨rfl, hnodup, hdisjoint⟩ := ih h
      rw [disjoint_append_left, singleton_disjoint] at hdisjoint
      refine ⟨by simp, nodup_cons.mpr ⟨hdisjoint.2, hnodup⟩, ?_⟩
      exact disjoint_cons_right.mpr ⟨hseen, hdisjoint.1⟩

theorem block_spends_new {order : Nat → OutPoint → Verdict Unit} {txs : List Transaction}
    {first : Nat} {seen : List OutPoint} (h : block_spends order first seen txs = .ok (.ok ())) :
    (txs.flatMap (·.spent_outpoints)).Nodup ∧ Disjoint seen (txs.flatMap (·.spent_outpoints)) := by
  induction txs generalizing first seen with
  | nil => simp
  | cons tx rest ih =>
    rw [block_spends, exceptT_bind_ok] at h
    obtain ⟨seen', htx, h⟩ := h
    obtain ⟨rfl, hnodup, hseen⟩ := transaction_spends_new htx
    obtain ⟨hrest, hdisjoint⟩ := ih h
    rw [disjoint_append_left] at hdisjoint
    rw [flatMap_cons]
    exact ⟨hnodup.append hrest hdisjoint.2, disjoint_append_right.mpr ⟨hseen, hdisjoint.1⟩⟩

theorem nullifiers_disjoint {b : SemanticallyVerifiedBlock} {db : ZebraDb}
    (h : no_duplicates_in_finalized_chain b db = .ok (.ok ())) :
    List.Disjoint (db.transactions.flatMap (·.sprout_nullifiers))
      (b.block.transactions.flatMap (·.sprout_nullifiers)) ∧
    List.Disjoint (db.transactions.flatMap (·.sapling_nullifiers))
      (b.block.transactions.flatMap (·.sapling_nullifiers)) ∧
    List.Disjoint (db.transactions.flatMap (·.orchard_nullifiers))
      (b.block.transactions.flatMap (·.orchard_nullifiers)) := by
  have hdisjoint {f : Transaction → List Nullifier} (hf : ∀ tx ∈ b.block.transactions, ∀ n ∈ f tx,
        (db.transactions.any fun t => (f t).contains n) = false) :
      Disjoint (db.transactions.flatMap f) (b.block.transactions.flatMap f) := by
    intro n hn hn'
    obtain ⟨t, ht, hn⟩ := mem_flatMap.mp hn
    obtain ⟨tx, htx, hn'⟩ := mem_flatMap.mp hn'
    have hno := any_eq_false.mp (hf tx htx n hn') t ht
    simp [hn] at hno
  refine ⟨hdisjoint ?_, hdisjoint ?_, hdisjoint ?_⟩
  · intro tx htx
    exact (no_duplicates_in_finalized_chain_ok h htx).1
  · intro tx htx
    exact (no_duplicates_in_finalized_chain_ok h htx).2.1
  · intro tx htx
    exact (no_duplicates_in_finalized_chain_ok h htx).2.2

end check

/-! ## Paths without double spends -/

structure Once (name : BlockHash → Block) (l : List ContextuallyVerifiedBlock) : Prop where
  path : PowPath name l
  distinct : (txIds l).Nodup
  spends : NoDoubleSpend (transactionsOf l)

namespace Once

variable {name : BlockHash → Block} {l l' : List ContextuallyVerifiedBlock} {db : ZebraDb}
  {chain : Chain} {b : ContextuallyVerifiedBlock}

theorem nil : Once name [] := ⟨.nil, nodup_nil, .nil⟩

theorem left (h : Once name (l ++ l')) : Once name l where
  path := h.path.left
  distinct := by
    have hdistinct := h.distinct
    rw [txIds_append] at hdistinct
    exact hdistinct.of_append_left
  spends := by
    have hspends := h.spends
    rw [transactionsOf_append] at hspends
    exact hspends.left

theorem hash_mem_of_spent (h : Once name l) {o : OutPoint}
    (ho : o ∈ (transactionsOf l).flatMap (·.spent_outpoints)) : o.hash ∈ txIds l := by
  obtain ⟨tx, htx, ho⟩ := mem_flatMap.mp ho
  rw [txIds_eq]
  exact hash_mem_of_created (h.spends.created htx ho)

theorem sourced (h : Once name l) : Sourced l := by
  rintro p ⟨rest, rfl⟩ b hb tx htx o ho
  apply h.left.hash_mem_of_spent
  exact mem_flatMap.mpr ⟨tx, mem_flatMap.mpr ⟨b, hb, htx⟩, ho⟩

section

variable (hspends : check.transparent_spend b chain db = .ok (.ok ()))
include hspends

theorem spends_new (h : Once name (db.blocks ++ chain.blocks))
    (hdistinct : (txIds (db.blocks ++ chain.blocks ++ [b])).Nodup) :
    AllNew (·.spent_outpoints) (transactionsOf (db.blocks ++ chain.blocks)) b.block.transactions := by
  refine ⟨(check.block_spends_new hspends).1, ?_⟩
  intro o hbelow hspent
  obtain ⟨tx, htx, ho⟩ := mem_flatMap.mp hspent
  obtain ⟨i, hi⟩ := mem_iff_getElem?.mp htx
  have hpath := h.distinct
  rw [txIds_append] at hpath hdistinct
  rcases check.transparent_spend_chain_order_ok (check.block_spends_ok hspends i tx hi o ho) with
    ⟨j, -, t, ht, hot⟩ | ⟨hchain, hleft⟩
  · -- created in the block, so no block below has its id
    apply disjoint_of_nodup_append hdistinct (h.hash_mem_of_spent hbelow)
    rw [txIds_singleton]
    exact hash_mem_of_created ⟨t, mem_of_getElem? ht, hot⟩
  · rw [transactionsOf_append, flatMap_append, mem_append] at hbelow
    have hdb : o ∈ (transactionsOf db.blocks).flatMap (·.spent_outpoints) :=
      hbelow.resolve_right hchain
    rcases hleft with hunspent | hutxo
    · exact disjoint_of_nodup_append hpath (h.left.hash_mem_of_spent hdb)
        (hash_mem_of_unspent hunspent)
    · obtain ⟨height, hutxo⟩ := ZebraDb.utxo_true hutxo
      obtain ⟨t, ht, hot⟩ := mem_flatMap.mp hdb
      obtain ⟨a, ha, hta⟩ := mem_flatMap.mp ht
      exact h.left.sourced.spent_gone h.left.distinct ha hta hot height hutxo

theorem spends_created {i : Nat} {tx : Transaction} (hi : b.block.transactions[i]? = some tx)
    {o : OutPoint} (ho : o ∈ tx.spent_outpoints) :
    (∃ j < i, ∃ t, b.block.transactions[j]? = some t ∧ o ∈ t.created_outpoints) ∨
      ∃ t ∈ transactionsOf (db.blocks ++ chain.blocks), o ∈ t.created_outpoints := by
  have horder := check.block_spends_ok hspends i tx hi o ho
  rw [Nat.zero_add] at horder
  rw [transactionsOf_append]
  rcases check.transparent_spend_chain_order_ok horder with hblock | ⟨-, hunspent | hutxo⟩
  · exact .inl hblock
  · obtain ⟨t, ht, hot⟩ := created_of_unspent hunspent
    exact .inr ⟨t, mem_append_right _ ht, hot⟩
  · obtain ⟨height, hutxo⟩ := ZebraDb.utxo_true hutxo
    obtain ⟨a, ha, ⟨t, ht, hot⟩, -⟩ := ZebraDb.of_mem_utxosFrom hutxo
    exact .inr ⟨t, mem_append_left _ (mem_flatMap.mpr ⟨a, ha, ht⟩), hot⟩

theorem extend (h : Once name (db.blocks ++ chain.blocks))
    (hpath : PowPath name (db.blocks ++ chain.blocks ++ [b]))
    (hdistinct : (txIds (db.blocks ++ chain.blocks ++ [b])).Nodup)
    (hnullifiers : check.no_duplicates_in_finalized_chain b db = .ok (.ok ()))
    (hchain : NewNullifiers chain.transactions b.block.transactions) :
    Once name (db.blocks ++ chain.blocks ++ [b]) where
  path := hpath
  distinct := hdistinct
  spends := by
    obtain ⟨hsprout, hsapling, horchard⟩ := check.nullifiers_disjoint hnullifiers
    rw [transactionsOf_append, transactionsOf_singleton]
    apply h.spends.append (h.spends_new hspends hdistinct)
    · intro i tx hi o ho
      exact spends_created hspends hi ho
    · rw [transactionsOf_append]
      exact ⟨hchain.sprout.append_left hsprout, hchain.sapling.append_left hsapling,
        hchain.orchard.append_left horchard⟩

end

end Once

theorem lasting_once (rules : BlockRules) (name : BlockHash → Block)
    (txName : TransactionHash → TransactionData) :
    Lasting name (fun b => Delivered rules name txName b ∧ StakesSpend b)
      (fun l b => Covered name txName l b ∧ NewNullifiers [] b.block.transactions)
      (fun l => Fresh name txName l ∧ Once name l) where
  path _ h := h.2.path
  left _ _ h := ⟨h.1.left, h.2.left⟩
  commit db chain b h hb hacc := by
    have hfresh := (lasting_fresh rules name txName).commit db chain b h.1 hb hacc
    refine ⟨hfresh, h.2.extend hacc.spends hfresh.path hfresh.distinct hacc.nullifiers ?_⟩
    exact (update_with_transactions_ok_iff.mp hacc.updates).2
  checkpoint l b h hb hheight hprev := by
    have hfresh := (lasting_fresh rules name txName).checkpoint l b h.1 hb.1 hheight hprev
    have hbefore : Once name ((ZebraDb.mk l).blocks ++ (Chain.mk []).blocks) := by simpa using h.2
    have honce := hbefore.extend hb.1.spends (by simpa using hfresh.path)
      (by simpa using hfresh.distinct) hb.1.nullifiers hb.2
    exact ⟨hfresh, by simpa using honce⟩

/-- Every staking transaction has to spend something. -/
theorem no_double_spend_on_any_chain (rules : ContextRules) (verifier : BlockRules)
    (name : BlockHash → Block) (txName : TransactionHash → TransactionData)
    (events : List WorkerEvent) (w : WriteBlockWorkerTask)
    (hfit : EventsFit rules (fun b => Delivered verifier name txName b ∧ StakesSpend b)
      (fun l b => Covered name txName l b ∧ NewNullifiers [] b.block.transactions) events
      (.spawn ⟨[]⟩)) (hrun : WriteBlockWorkerTask.run rules events (.spawn ⟨[]⟩) = .ok w) :
    NoDoubleSpend (transactionsOf w.finalized_state.blocks) ∧ ∀ c ∈ w.non_finalized_state.chain_set,
        NoDoubleSpend (transactionsOf (w.finalized_state.blocks ++ c.blocks)) := by
  have hkept : Kept (fun l => Fresh name txName l ∧ Once name l) (.spawn ⟨[]⟩) :=
    Kept.spawn ⟨Fresh.nil, Once.nil⟩
  obtain ⟨hend, -⟩ := hkept.run (lasting_once verifier name txName) hfit hrun
  refine ⟨hend.db.2.spends, fun c hc => ?_⟩
  exact (hend.attached.chains c hc).2.spends

namespace Sample

def lenient : BlockRules where
  nu5_activation_height := some 1
  consensus_branch_id _ _ := none
  sprout_values _ _ := none
  lock_time_has_passed _ _ _ := none
  spent_utxos _ _ := none
  authorization _ _ := none
  dependencies _ := none
  -- the roots of the sample headers
  merkle_root ids := hashAt (((ids.headD (Bytes.zero 32)).val.headD 0).toNat - 100)
    ((ids.headD (Bytes.zero 32)).val.getD 1 0).toNat
  check_transaction_network_upgrade_consistency _ := true
  difficulty_is_valid _ _ _ := none
  time_is_valid_at _ := none
  subsidy_is_valid _ _ := none
  totals _ _ := none

def txHash (n : Nat) : TransactionHash := ⟨UInt8.ofNat n :: replicate 31 0, rfl⟩

variable (sapling : Option SaplingShieldedData) (stake : Transaction)

def stakeTx : Transaction where
  hash := txHash 1
  data := .VCrosslink 0 [] [{ value := .zero, lock_script := [] }] sapling none
    (some ⟨.Add, 5, Bytes.zero 32, Bytes.zero 32, "target", ""⟩)

def spendTx (n : Nat) : Transaction where
  hash := txHash (2 + n)
  data := .V5 0 [.PrevOut { hash := txHash 1, index := 0 }]
    (replicate (1 + n) { value := .zero, lock_script := [] }) none none

def replayed (height : Nat) : List Transaction :=
  match height with
  | 1 | 3 => [stake]
  | 2 => [spendTx 0]
  | 4 => [spendTx 1]
  | _ => []

def replayNames (x : TransactionHash) : TransactionData :=
  if x = txHash 1 then stake.data
  else if x = txHash 2 then (spendTx 0).data
  else if x = txHash 3 then (spendTx 1).data
  else (baseTx ((x.val.headD 0).toNat - 100) (x.val.getD 1 0).toNat).data

def replayBlock (height : Nat) : ContextuallyVerifiedBlock :=
  onSide 0 height (replayed stake height)

def replayEvents : List WorkerEvent :=
  [.CheckpointVerified (replayBlock stake 0), .CheckpointsClosed,
    .Write (.Commit (replayBlock stake 1)), .Write (.Commit (replayBlock stake 2)),
    .Write (.CrosslinkFinalized (hashAt 0 2)), .Write (.Commit (replayBlock stake 3)),
    .Write (.Commit (replayBlock stake 4))]

theorem replay_delivered {height : Nat} (hh : height < 256)
    (hnamed : ∀ tx ∈ (replayBlock (stakeTx sapling) height).block.transactions,
      tx.data = replayNames (stakeTx sapling) tx.hash)
    (hcall : SemanticBlockVerifier.call lenient [] none (replayBlock (stakeTx sapling) height).hash
      (replayBlock (stakeTx sapling) height).block = .ok (replayBlock (stakeTx sapling) height)) :
    Delivered lenient (sideNames fun _ => replayed (stakeTx sapling))
      (replayNames (stakeTx sapling)) (replayBlock (stakeTx sapling) height) where
  block := onSide_named (fun _ => replayed (stakeTx sapling)) 0 height (by omega) hh
  named := hnamed
  verified := ⟨[], none, by simp, hcall⟩

theorem genesis_covered :
    Covered (sideNames fun _ => replayed stake) (replayNames stake) [] (replayBlock stake 0) ∧
      NewNullifiers [] (replayBlock stake 0).block.transactions := by
  refine ⟨⟨⟨onSide_named (fun _ => replayed stake) 0 0 (by omega) (by omega), ?_, ?_, ?_⟩, rfl, rfl⟩,
    ⟨.nil _ _, .nil _ _, .nil _ _⟩⟩
  · exact ⟨by simp [replayBlock, onSide, replayed], baseTx 0 0, [], rfl, rfl, by simp⟩
  · intro tx htx
    obtain rfl := mem_singleton.mp htx
    rfl
  · intro tx htx
    obtain rfl := mem_singleton.mp htx
    exact .inl rfl

theorem replayEvents_fit {Verified : ContextuallyVerifiedBlock → Prop}
    (h : ∀ height ∈ [1, 2, 3, 4], Verified (replayBlock stake height)) :
    EventsFit lax Verified (fun l b => Covered (sideNames fun _ => replayed stake)
      (replayNames stake) l b ∧ NewNullifiers [] b.block.transactions) (replayEvents stake)
      (.spawn ⟨[]⟩) := by
  simp only [forall_mem_cons] at h
  obtain ⟨h₁, h₂, h₃, h₄, -⟩ := h
  exact ⟨genesis_covered stake, fun _ _ => ⟨trivial, fun _ _ => ⟨h₁, fun _ _ => ⟨h₂, fun _ _ =>
    ⟨trivial, fun _ _ => ⟨h₃, fun _ _ => ⟨h₄, fun _ _ => trivial⟩⟩⟩⟩⟩⟩⟩

end Sample

open Sample

theorem no_double_spend_on_any_chain_sample :
    ∃ w, WriteBlockWorkerTask.run lax (replayEvents (stakeTx
        (some { spends := [txHash 9], outputs := [], value_balance := .zero }))) (.spawn ⟨[]⟩) = .ok w ∧
      w.finalized_state.blocks.length = 3 ∧
      NoDoubleSpend (transactionsOf w.finalized_state.blocks) := by
  obtain ⟨w, hw, hlength⟩ := exists_of_toOption_map (f := fun w => w.finalized_state.blocks.length)
    (b := 3) (x := WriteBlockWorkerTask.run lax (replayEvents (stakeTx
      (some { spends := [txHash 9], outputs := [], value_balance := .zero }))) (.spawn ⟨[]⟩)) (by decide +kernel)
  refine ⟨w, hw, hlength, ?_⟩
  refine (no_double_spend_on_any_chain lax lenient _ _ _ w (replayEvents_fit _ ?_) hw).1
  intro height hheight
  constructor
  · simp only [mem_cons, not_mem_nil, or_false] at hheight
    rcases hheight with rfl | rfl | rfl | rfl <;>
      exact replay_delivered _ (by omega) (by decide +kernel) rfl
  · simp only [mem_cons, not_mem_nil, or_false] at hheight
    unfold StakesSpend Transaction.Spends
    rcases hheight with rfl | rfl | rfl | rfl <;> decide +kernel

/-- The output of a staking transaction that spends nothing is spent, made again and spent again. -/
theorem output_spent_twice : ∃ w c, EventsFit lax
        (Delivered lenient (sideNames fun _ => replayed (stakeTx none))
          (replayNames (stakeTx none)))
        (fun l b => Covered (sideNames fun _ => replayed (stakeTx none))
          (replayNames (stakeTx none)) l b ∧ NewNullifiers [] b.block.transactions)
        (replayEvents (stakeTx none)) (.spawn ⟨[]⟩) ∧
      WriteBlockWorkerTask.run lax (replayEvents (stakeTx none)) (.spawn ⟨[]⟩) = .ok w ∧
      c ∈ w.non_finalized_state.chain_set ∧
      ((transactionsOf (w.finalized_state.blocks ++ c.blocks)).flatMap
        (·.spent_outpoints)).count { hash := txHash 1, index := 0 } = 2 := by
  have hdelivered : ∀ height ∈ [1, 2, 3, 4], Delivered lenient
      (sideNames fun _ => replayed (stakeTx none))
      (replayNames (stakeTx none)) (replayBlock (stakeTx none) height) := by
    intro height hheight
    simp only [mem_cons, not_mem_nil, or_false] at hheight
    rcases hheight with rfl | rfl | rfl | rfl <;>
      exact replay_delivered _ (by omega) (by decide +kernel) rfl
  obtain ⟨w, hw, hset⟩ := exists_of_toOption_map
    (f := fun w => w.non_finalized_state.chain_set.map fun c =>
      ((transactionsOf (w.finalized_state.blocks ++ c.blocks)).flatMap
        (·.spent_outpoints)).count { hash := txHash 1, index := 0 })
    (b := [2]) (x := WriteBlockWorkerTask.run lax
      (replayEvents (stakeTx none)) (.spawn ⟨[]⟩)) (by decide +kernel)
  obtain ⟨c, hc, hcount⟩ := mem_map.mp (hset ▸ mem_singleton_self 2)
  exact ⟨w, c, replayEvents_fit _ hdelivered, hw, hc, hcount⟩

end ZebraCrosslink
