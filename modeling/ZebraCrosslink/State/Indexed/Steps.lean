import ZebraCrosslink.State.Indexed.Chain
import ZebraCrosslink.State.Indexed.Entries

/-!
# What a push and a revert do to each index

The chains that the node can have are the `Built` ones, and `Valid` collects what holds in all of
them.
-/

open Rust Map
open Finmap (mem_erase mem_insert mem_of_lookup_eq_some notMem_empty)

namespace ZebraCrosslink

theorem Verdict.both_ok {α β : Type} {x : Verdict α} {y : Verdict β} {a : α} {b : β} :
    Verdict.both x y = .ok (.ok (a, b)) ↔ x = .ok (.ok a) ∧ y = .ok (.ok b) := by
  constructor
  · intro h
    rcases x with err | err | a'
    · cases h
    · rcases y with err' | err' | b'
      · cases h
      · cases h
      · cases h
    · rcases y with err' | err' | b'
      · cases h
      · cases h
      · cases h
        exact ⟨rfl, rfl⟩
  · rintro ⟨rfl, rfl⟩
    rfl

namespace ChainInner

variable {H : Type} {rules : IndexRules H} {b : IndexedBlock} {c d : ChainInner H}

/-! ## Pushing -/

theorem update_with_value_pool_change_ok {change : ValueBalance .NegativeAllowed} {height size : Nat} :
    c.update_with_value_pool_change change height size = .ok (.ok d) ↔
      ∃ pools, c.chain_value_pools.add_chain_value_pool_change change = .ok pools ∧
        d = { c with
          chain_value_pools := pools
          block_info_by_height := c.block_info_by_height.insert height ⟨pools, UInt32.ofNat size⟩ } := by
  unfold update_with_value_pool_change
  cases c.chain_value_pools.add_chain_value_pool_change change with
  | error err =>
    constructor
    · intro h
      cases h
    · rintro ⟨pools, h, -⟩
      cases h
  | ok pools =>
    constructor
    · intro h
      cases h
      exact ⟨pools, rfl, rfl⟩
    · rintro ⟨_, h, rfl⟩
      cases h
      rfl

theorem update_except_trees_ok :
    c.update_chain_tip_with_block_except_trees rules b = .ok (.ok d) ↔
      ∃ height_by_hash work txs pools,
        c.height_by_hash.insertNew b.hash b.height = some height_by_hash ∧
        CompactDifficulty.to_work b.block.header.difficulty_threshold = some work ∧
        c.partial_cumulative_work + work < 2 ^ 128 ∧
        (∀ p ∈ b.transactions, b.Complete p) ∧ c.txs.Adds (b.entries rules) txs ∧
        c.chain_value_pools.add_chain_value_pool_change b.chain_value_pool_change = .ok pools ∧
        d = { c with
          height_by_hash
          partial_cumulative_work := c.partial_cumulative_work + work
          txs
          chain_value_pools := pools
          block_info_by_height := c.block_info_by_height.insert b.height
            ⟨pools, UInt32.ofNat (rules.zcash_serialized_size b.block)⟩ } := by
  simp only [update_chain_tip_with_block_except_trees, exceptT_bind_ok, liftAbort_ok, orAbort_ok,
    TransactionIndexes.update_with_transactions_ok, update_with_value_pool_change_ok,
    Option.ite_none_right_eq_some, Option.some.injEq]
  constructor
  · rintro ⟨height_by_hash, hhash, work, hwork, _, ⟨hlt, rfl⟩, txs, ⟨hcomplete, htxs⟩, pools, hpools,
      rfl⟩
    exact ⟨height_by_hash, work, txs, pools, hhash, hwork, hlt, hcomplete, htxs, hpools, rfl⟩
  · rintro ⟨height_by_hash, work, txs, pools, hhash, hwork, hlt, hcomplete, htxs, hpools, rfl⟩
    exact ⟨height_by_hash, hhash, work, hwork, _, ⟨hlt, rfl⟩, txs, ⟨hcomplete, htxs⟩, pools, hpools,
      rfl⟩

/-- The push of a block, index by index. The trees are `nct` before the block and `nct'` after it. -/
structure Pushes (rules : IndexRules H) (b : IndexedBlock) (nct nct' : NoteCommitmentTrees)
    (c d : ChainInner H) : Prop where
  trees : c.note_commitment_trees_for_tip = .ok nct
  updated : nct.update_trees_parallel rules.hashes b.block = .ok (.ok nct')
  height_by_hash : c.height_by_hash.insertNew b.hash b.height = some d.height_by_hash
  work : ∃ work, CompactDifficulty.to_work b.block.header.difficulty_threshold = some work ∧
    c.partial_cumulative_work + work < 2 ^ 128 ∧
    d.partial_cumulative_work = c.partial_cumulative_work + work
  complete : ∀ p ∈ b.transactions, b.Complete p
  txs : c.txs.Adds (b.entries rules) d.txs
  pools : c.chain_value_pools.add_chain_value_pool_change b.chain_value_pool_change =
    .ok d.chain_value_pools
  info : d.block_info_by_height = c.block_info_by_height.insert b.height
    ⟨d.chain_value_pools, UInt32.ofNat (rules.zcash_serialized_size b.block)⟩
  sprout : c.sprout.add_sprout_tree_and_anchor rules.hashes.sprout b.height nct'.sprout = .ok d.sprout
  sapling : add_sapling_tree_and_anchor rules.hashes.sapling b.height nct'.sapling c.sapling =
    .ok d.sapling
  orchard : add_orchard_tree_and_anchor rules.hashes.orchard b.height nct'.orchard c.orchard =
    .ok d.orchard
  sapling_subtrees : d.sapling_subtrees = c.sapling_subtrees.add nct'.sapling_subtree
  orchard_subtrees : d.orchard_subtrees = c.orchard_subtrees.add nct'.orchard_subtree
  history : ∃ sapling_tree orchard_tree tree tree',
    d.sapling.note_commitment_tree_for_tip "sapling" = .ok sapling_tree ∧
    d.orchard.note_commitment_tree_for_tip "orchard" = .ok orchard_tree ∧
    c.history_block_commitment_tree = .ok tree ∧
    rules.push_history tree b.block (sapling_tree.root rules.hashes.sapling)
      (orchard_tree.root rules.hashes.orchard) = .ok tree' ∧
    c.history_trees_by_height.insertNew b.height tree' = some d.history_trees_by_height
  blocks : d.blocks = c.blocks.insert b.height b

theorem history_ok {α : Type} {x : Except String α} {a : α} :
    (ExceptT.mk (.ok (x.mapError ValidateContextError.HistoryTreeError)) : Verdict α) = .ok (.ok a) ↔
      x = .ok a := by
  change Except.ok (x.mapError ValidateContextError.HistoryTreeError) = .ok (.ok a) ↔ _
  rw [Except.ok.injEq, except_mapError_ok]

theorem push_ok : c.push rules b = .ok (.ok d) ↔ ∃ nct nct', Pushes rules b nct nct' c d := by
  simp only [push, update_chain_tip_with_block_parallel, exceptT_bind_ok, liftAbort_ok, orAbort_ok,
    history_ok]
  constructor
  · rintro ⟨c₂, ⟨nct, hnct, ⟨nct', c₁⟩, hboth, sprout, hsprout, sapling, hsapling, orchard, horchard,
      sapling_tree, hsapling_tree, orchard_tree, horchard_tree, tree, htree, tree', htree', history,
      hhistory, h₂⟩, hd⟩
    obtain ⟨hupdated, h₁⟩ := Verdict.both_ok.mp hboth
    rw [exceptT_adapt_ok] at hupdated
    obtain ⟨height_by_hash, work, txs, pools, hhash, hwork, hlt, hcomplete, htxs, hpools, rfl⟩ :=
      update_except_trees_ok.mp h₁
    cases h₂
    cases hd
    exact ⟨nct, nct', {
      trees := hnct
      updated := hupdated
      height_by_hash := hhash
      work := ⟨work, hwork, hlt, rfl⟩
      complete := hcomplete
      txs := htxs
      pools := hpools
      info := rfl
      sprout := hsprout
      sapling := hsapling
      orchard := horchard
      sapling_subtrees := rfl
      orchard_subtrees := rfl
      history := ⟨sapling_tree, orchard_tree, tree, tree', hsapling_tree, horchard_tree, htree, htree',
        hhistory⟩
      blocks := rfl }⟩
  · rintro ⟨nct, nct', h⟩
    obtain ⟨work, hwork, hlt, hd⟩ := h.work
    obtain ⟨sapling_tree, orchard_tree, tree, tree', hsapling_tree, horchard_tree, htree, htree',
      hhistory⟩ := h.history
    refine ⟨{ d with blocks := c.blocks }, ⟨nct, h.trees, (nct', { c with
      height_by_hash := d.height_by_hash
      partial_cumulative_work := c.partial_cumulative_work + work
      txs := d.txs
      chain_value_pools := d.chain_value_pools
      block_info_by_height := c.block_info_by_height.insert b.height
        ⟨d.chain_value_pools, UInt32.ofNat (rules.zcash_serialized_size b.block)⟩ }), ?_,
      d.sprout, h.sprout, d.sapling, h.sapling, d.orchard, h.orchard, sapling_tree, hsapling_tree,
      orchard_tree, horchard_tree, tree, htree, tree', htree', d.history_trees_by_height, hhistory, ?_⟩,
      ?_⟩
    · rw [Verdict.both_ok, exceptT_adapt_ok, update_except_trees_ok]
      exact ⟨h.updated, d.height_by_hash, work, d.txs, d.chain_value_pools, h.height_by_hash, hwork, hlt,
        h.complete, h.txs, h.pools, rfl⟩
    · simp only [← h.info, ← h.sapling_subtrees, ← h.orchard_subtrees, ← hd]
      rfl
    · rw [← h.blocks]
      rfl

/-! ## Reverting -/

structure Reverts (rules : IndexRules H) (b : IndexedBlock) (position : RevertPosition)
    (c d : ChainInner H) : Prop where
  height_by_hash : c.height_by_hash.removeOld b.hash = some d.height_by_hash
  work : ∃ work, CompactDifficulty.to_work b.block.header.difficulty_threshold = some work ∧
    work ≤ c.partial_cumulative_work ∧ d.partial_cumulative_work = c.partial_cumulative_work - work
  complete : ∀ p ∈ b.transactions, b.Complete p
  txs : c.txs.Removes (b.entries rules) d.txs
  sprout : c.sprout.remove_sprout_tree_and_anchor position b.height c.max_block_height = .ok d.sprout
  sapling : remove_sapling_tree_and_anchor position b.height c.max_block_height c.sapling =
    .ok d.sapling
  orchard : remove_orchard_tree_and_anchor position b.height c.max_block_height c.orchard =
    .ok d.orchard
  history : remove_history_tree position b.height c.history_trees_by_height =
    .ok d.history_trees_by_height
  pools : revert_value_pool_change position b.chain_value_pool_change c.chain_value_pools =
    .ok d.chain_value_pools
  info : d.block_info_by_height = c.block_info_by_height.erase b.height
  sapling_subtrees : d.sapling_subtrees = c.sapling_subtrees
  orchard_subtrees : d.orchard_subtrees = c.orchard_subtrees
  blocks : d.blocks = c.blocks

theorem revert_chain_with_ok {position : RevertPosition} :
    c.revert_chain_with rules b position = .ok d ↔ Reverts rules b position c d := by
  simp only [revert_chain_with, except_bind_ok, orAbort_ok,
    TransactionIndexes.revert_transactions_ok 0, Option.ite_none_right_eq_some, Option.some.injEq]
  constructor
  · rintro ⟨height_by_hash, hhash, work, hwork, _, ⟨hle, rfl⟩, txs, ⟨hcomplete, htxs⟩, sprout, hsprout,
      sapling, hsapling, orchard, horchard, history, hhistory, pools, hpools, hd⟩
    cases hd
    exact {
      height_by_hash := hhash
      work := ⟨work, hwork, hle, rfl⟩
      complete := hcomplete
      txs := htxs
      sprout := hsprout
      sapling := hsapling
      orchard := horchard
      history := hhistory
      pools := hpools
      info := rfl
      sapling_subtrees := rfl
      orchard_subtrees := rfl
      blocks := rfl }
  · intro h
    obtain ⟨work, hwork, hle, hd⟩ := h.work
    refine ⟨_, h.height_by_hash, work, hwork, _, ⟨hle, rfl⟩, _, ⟨h.complete, h.txs⟩, _, h.sprout, _,
      h.sapling, _, h.orchard, _, h.history, _, h.pools, ?_⟩
    rw [← h.info, ← h.sapling_subtrees, ← h.orchard_subtrees, ← h.blocks, ← hd]
    rfl

theorem is_empty_eq_false : c.is_empty = false ↔ ∃ k, k ∈ c.blocks := by
  rw [is_empty, decide_eq_false_iff_not, ← Ne, ← Finset.nonempty_iff_ne_empty]
  rfl

theorem pop_tip_ok : c.pop_tip rules = .ok d ↔
    ∃ height b, c.max_block_height = some height ∧ c.blocks.lookup height = some b ∧
      (∃ k, k ∈ c.blocks.erase height) ∧ Reverts rules b .Tip (c.without height) d := by
  simp only [pop_tip, non_finalized_tip_height, except_bind_ok, orAbort_ok]
  constructor
  · rintro ⟨height, hheight, b, hb, h⟩
    split at h
    · cases h
    · next hempty =>
      exact ⟨height, b, hheight, hb, is_empty_eq_false.mp (Bool.eq_false_iff.mpr hempty),
        revert_chain_with_ok.mp h⟩
  · rintro ⟨height, b, hheight, hb, hne, h⟩
    refine ⟨height, hheight, b, hb, ?_⟩
    have hempty : (c.without height).is_empty = false := is_empty_eq_false.mpr hne
    rw [if_neg (Bool.eq_false_iff.mp hempty)]
    exact revert_chain_with_ok.mpr h

/-! ## The chains of the node -/

/-- What holds in a chain whose tip is at height `top`. A chain without blocks has the finalized tip. -/
structure Valid (rules : IndexRules H) (top : Nat) (c : ChainInner H) : Prop where
  heights : ∃ root ≤ top, ∀ k, k ∈ c.blocks ↔ root < k ∧ k ≤ top
  hashes : ∀ k b, c.blocks.lookup k = some b → b.height = k ∧ c.height_by_hash.lookup b.hash = some k
  blocks : ∀ x k, c.height_by_hash.lookup x = some k → ∃ b, c.blocks.lookup k = some b ∧ b.hash = x
  tidy : c.txs.Tidy
  sprout : c.sprout.Below top
  consistent : c.sprout.Consistent rules.hashes.sprout
  sapling : c.sapling.Below top
  orchard : c.orchard.Below top
  history : ∀ k ∈ c.history_trees_by_height, k ≤ top
  info : ∀ k ∈ c.block_info_by_height, k ≤ top

end ChainInner

open ChainInner

/-- Blocks that follow a chain with its tip at `top`. Their heights are those of their coinbases. -/
def Follow : Nat → List IndexedBlock → Prop
  | _, [] => True
  | top, b :: rest =>
    b.height = top + 1 ∧ b.block.coinbase_height = some b.height ∧ Follow (top + 1) rest

namespace ChainInner

/-- The chains that the operations of the source build, with the heights of their tips. -/
inductive Built {H : Type} (rules : IndexRules H) : Nat → ChainInner H → Prop
  | new {tip : FinalizedTip H} {c : ChainInner H} (h : ChainInner.new rules tip = .ok c) :
    Built rules tip.height c
  | push {top : Nat} {c d : ChainInner H} {b : IndexedBlock} (hc : Built rules top c)
    (hb : Follow top [b]) (h : c.push rules b = .ok (.ok d)) : Built rules (top + 1) d
  | pop_tip {top : Nat} {c d : ChainInner H} (hc : Built rules (top + 1) c)
    (h : c.pop_tip rules = .ok d) : Built rules top d
  | pop_root {top : Nat} {c d : ChainInner H} {b : IndexedBlock} {treestate : Treestate H}
    (hc : Built rules top c) (h : c.pop_root rules = .ok (b, treestate, d)) : Built rules top d

variable {H : Type} {rules : IndexRules H} {b : IndexedBlock} {c d : ChainInner H}

section Validity

variable {top : Nat}

theorem new_eq (rules : IndexRules H) (tip : FinalizedTip H) : new rules tip = .ok {
    blocks := ∅
    height_by_hash := ∅
    txs := .empty
    sprout := SproutIndex.empty.added rules.hashes.sprout tip.height tip.sprout
    sapling := TreeIndex.empty.added rules.hashes.sapling tip.height tip.sapling
    sapling_subtrees := ∅
    orchard := TreeIndex.empty.added rules.hashes.orchard tip.height tip.orchard
    orchard_subtrees := ∅
    history_trees_by_height := Finmap.insert tip.height tip.history_tree ∅
    partial_cumulative_work := 0
    chain_value_pools := tip.chain_value_pools
    block_info_by_height := ∅ } := by
  have hnone : ∀ {α : Type}, tip.height ∉ (∅ : Map Nat α) := notMem_empty
  simp only [new, except_bind_ok, orAbort_ok, insertNew_eq_some,
    SproutIndex.add_sprout_tree_and_anchor_ok, add_sapling_tree_and_anchor,
    add_orchard_tree_and_anchor, TreeIndex.add_tree_and_anchor_ok]
  exact ⟨_, ⟨fun h => absurd h hnone, hnone, rfl⟩, _, ⟨fun h => absurd h hnone, hnone, rfl⟩, _,
    ⟨fun h => absurd h hnone, hnone, rfl⟩, _, ⟨hnone, rfl⟩, rfl⟩

theorem Valid.new {tip : FinalizedTip H} (h : new rules tip = .ok c) :
    c.Valid rules tip.height := by
  rw [new_eq] at h
  cases h
  exact {
    heights := ⟨tip.height, le_rfl, fun k => by
      constructor
      · intro hk
        exact absurd hk notMem_empty
      · omega⟩
    hashes := fun k b hb => by cases hb
    blocks := fun x k hk => by cases hk
    tidy := AddressTransfers.tidy_empty
    sprout := (TreeIndex.Below.empty tip.height).added le_rfl
    consistent := SproutIndex.Consistent.empty.added _ _
    sapling := (TreeIndex.Below.empty tip.height).added le_rfl
    orchard := (TreeIndex.Below.empty tip.height).added le_rfl
    history := fun k hk => by
      rcases mem_insert.mp hk with rfl | hk
      · exact le_rfl
      · exact absurd hk notMem_empty
    info := fun k hk => absurd hk notMem_empty }

section

variable {k : Nat} (hc : c.Valid rules top)
include hc

theorem Valid.notMem (hk : top < k) : k ∉ c.blocks := by
  obtain ⟨root, -, hmem⟩ := hc.heights
  rw [hmem]
  omega

theorem Valid.push (hb : b.height = top + 1) (h : c.push rules b = .ok (.ok d)) :
    d.Valid rules (top + 1) := by
  obtain ⟨nct, nct', h⟩ := push_ok.mp h
  have hsprout := (SproutIndex.add_sprout_tree_and_anchor_ok.mp h.sprout).2.2
  have hsapling := (TreeIndex.add_tree_and_anchor_ok.mp h.sapling).2.2
  have horchard := (TreeIndex.add_tree_and_anchor_ok.mp h.orchard).2.2
  obtain ⟨hnew, hhash⟩ := insertNew_eq_some.mp h.height_by_hash
  obtain ⟨_, _, _, _, -, -, -, -, hhistory⟩ := h.history
  obtain ⟨-, hhistory⟩ := insertNew_eq_some.mp hhistory
  have hle : top ≤ b.height := by omega
  exact {
    heights := by
      obtain ⟨root, hroot, hmem⟩ := hc.heights
      refine ⟨root, by omega, fun k => ?_⟩
      rw [h.blocks, mem_insert, hmem]
      omega
    hashes := fun k b' hb' => by
      rw [h.blocks, lookup_insert'] at hb'
      rw [hhash, lookup_insert']
      split at hb'
      · next hk =>
        cases hb'
        exact ⟨hk.symm, by rw [if_pos rfl, hk]⟩
      · obtain ⟨hheight, hlookup⟩ := hc.hashes k b' hb'
        refine ⟨hheight, ?_⟩
        rw [if_neg, hlookup]
        intro heq
        exact hnew (heq ▸ mem_of_lookup_eq_some hlookup)
    blocks := fun x k hk => by
      rw [hhash, lookup_insert'] at hk
      rw [h.blocks, lookup_insert']
      split at hk
      · next hx =>
        cases hk
        exact ⟨b, if_pos rfl, hx.symm⟩
      · obtain ⟨b', hb', hx⟩ := hc.blocks x k hk
        refine ⟨b', ?_, hx⟩
        rw [if_neg, hb']
        rintro rfl
        exact hc.notMem (by omega) (mem_of_lookup_eq_some hb')
    tidy := ((TransactionIndexes.adds_iff hc.tidy).mp h.txs).1.transfers.tidy
    sprout := by
      rw [hsprout, ← hb]
      exact hc.sprout.added hle
    consistent := by
      rw [hsprout]
      exact hc.consistent.added _ _
    sapling := by
      rw [hsapling, ← hb]
      exact hc.sapling.added hle
    orchard := by
      rw [horchard, ← hb]
      exact hc.orchard.added hle
    history := fun k hk => by
      rw [hhistory] at hk
      rcases mem_insert.mp hk with rfl | hk
      · omega
      · have := hc.history k hk
        omega
    info := fun k hk => by
      rw [h.info] at hk
      rcases mem_insert.mp hk with rfl | hk
      · omega
      · have := hc.info k hk
        omega }

theorem Valid.reverted_hashes (hb : c.blocks.lookup k = some b)
    (hblocks : d.blocks = c.blocks.erase k)
    (hhash : c.height_by_hash.removeOld b.hash = some d.height_by_hash) :
    (∀ k b, d.blocks.lookup k = some b → b.height = k ∧ d.height_by_hash.lookup b.hash = some k) ∧
      ∀ x k, d.height_by_hash.lookup x = some k → ∃ b, d.blocks.lookup k = some b ∧ b.hash = x := by
  obtain ⟨-, hhash⟩ := removeOld_eq_some.mp hhash
  obtain ⟨-, hk⟩ := hc.hashes k b hb
  constructor
  · intro k' b' hb'
    rw [hblocks, lookup_erase'] at hb'
    split at hb'
    · cases hb'
    · next hne =>
      obtain ⟨hheight, hlookup⟩ := hc.hashes k' b' hb'
      refine ⟨hheight, ?_⟩
      rw [hhash, lookup_erase', if_neg, hlookup]
      intro heq
      rw [heq, hk] at hlookup
      exact hne (Option.some.inj hlookup).symm
  · intro x k' hk'
    rw [hhash, lookup_erase'] at hk'
    split at hk'
    · cases hk'
    · next hne =>
      obtain ⟨b', hb', hx⟩ := hc.blocks x k' hk'
      refine ⟨b', ?_, hx⟩
      rw [hblocks, lookup_erase', if_neg, hb']
      rintro rfl
      rw [hb] at hb'
      cases hb'
      exact hne hx.symm

theorem Valid.max_block_height (hk : k ∈ c.blocks) : c.max_block_height = some top := by
  obtain ⟨root, -, hmem⟩ := hc.heights
  rw [ChainInner.max_block_height, lastKey_eq_some]
  have := (hmem k).mp hk
  exact ⟨(hmem top).mpr (by omega), fun k' hk' => ((hmem k').mp hk').2⟩

end

theorem max_block_height_le (h : ∀ k ∈ c.blocks, k ≤ top) : ∀ t ∈ c.max_block_height, t ≤ top :=
  fun t ht => h t (lastKey_eq_some.mp ht).1

theorem Valid.pop_tip_ok (hc : c.Valid rules (top + 1)) (h : c.pop_tip rules = .ok d) :
    ∃ b, c.blocks.lookup (top + 1) = some b ∧ b.height = top + 1 ∧ top ∈ c.blocks ∧
      Reverts rules b .Tip (c.without (top + 1)) d := by
  obtain ⟨height, b, hheight, hb, ⟨k, hk⟩, h⟩ := ChainInner.pop_tip_ok.mp h
  rw [hc.max_block_height (mem_of_lookup_eq_some hb)] at hheight
  cases hheight
  obtain ⟨root, -, hmem⟩ := hc.heights
  rw [mem_erase, hmem] at hk
  exact ⟨b, hb, (hc.hashes _ b hb).1, (hmem top).mpr (by omega), h⟩

theorem Valid.pop_tip (hc : c.Valid rules (top + 1)) (h : c.pop_tip rules = .ok d) :
    d.Valid rules top := by
  obtain ⟨b, hb, hheight, hmem, h⟩ := hc.pop_tip_ok h
  obtain ⟨hhashes, hblocks⟩ := hc.reverted_hashes hb h.blocks h.height_by_hash
  have hbelow : ∀ k ∈ (c.without (top + 1)).blocks, k ≤ top := by
    intro k hk
    obtain ⟨root, -, hmem⟩ := hc.heights
    rw [without, mem_erase, hmem] at hk
    omega
  have htip := max_block_height_le hbelow
  have hhistory := h.history
  simp only [remove_history_tree, orAbort_ok, removeOld_eq_some] at hhistory
  have hkeys : ∀ {depth : Nat} {ix : TreeIndex depth}, ix.Below (top + 1) →
      ∀ k, (k ∈ ix.trees_by_height ∨ k ∈ ix.anchors_by_height) →
        k ∉ (ix.removed b.height .Tip).1 → k ≤ top := by
    intro depth ix hix k hk hnot
    have hle : k ≤ top + 1 := hk.elim (hix.trees k) (hix.anchors k)
    simp only [TreeIndex.removed, List.mem_singleton] at hnot
    omega
  exact {
    heights := by
      obtain ⟨root, hroot, hmem'⟩ := hc.heights
      have := (hmem' top).mp hmem
      refine ⟨root, by omega, fun k => ?_⟩
      rw [h.blocks, without, mem_erase, hmem']
      omega
    hashes := hhashes
    blocks := hblocks
    tidy := h.txs.tidy hc.tidy
    sprout := TreeIndex.Below.remove (hkeys hc.sprout) htip (SproutIndex.remove_toTreeIndex h.sprout)
    consistent := SproutIndex.Consistent.remove hc.consistent h.sprout
    sapling := TreeIndex.Below.remove (hkeys hc.sapling) htip h.sapling
    orchard := TreeIndex.Below.remove (hkeys hc.orchard) htip h.orchard
    history := fun k hk => by
      rw [hhistory.2, mem_erase] at hk
      have := hc.history k hk.2
      omega
    info := fun k hk => by
      rw [h.info, mem_erase] at hk
      have := hc.info k hk.2
      omega }

def withoutRoot (c : ChainInner H) (height : Nat) (trees : NoteCommitmentTrees) : ChainInner H :=
  { c with
    sapling_subtrees := pop_subtree c.sapling_subtrees trees.sapling_subtree
    orchard_subtrees := pop_subtree c.orchard_subtrees trees.orchard_subtree
    blocks := c.blocks.erase height }

variable {treestate : Treestate H}

theorem pop_root_ok :
    c.pop_root rules = .ok (b, treestate, d) ↔
      ∃ height, c.blocks.firstKey = some height ∧ c.treestate height = some treestate ∧
        c.blocks.lookup height = some b ∧
        Reverts rules b .Root (c.withoutRoot height treestate.note_commitment_trees) d := by
  simp only [pop_root, non_finalized_root_height, except_bind_ok, orAbort_ok]
  constructor
  · rintro ⟨height, hheight, ts, hts, b', hb', d', hd', h⟩
    cases h
    exact ⟨height, hheight, hts, hb', revert_chain_with_ok.mp hd'⟩
  · rintro ⟨height, hheight, hts, hb, h⟩
    exact ⟨height, hheight, _, hts, _, hb, _, revert_chain_with_ok.mpr h, rfl⟩

theorem Valid.pop_root (hc : c.Valid rules top) (h : c.pop_root rules = .ok (b, treestate, d)) :
    d.Valid rules top := by
  obtain ⟨height, hfirst, -, hb, h⟩ := pop_root_ok.mp h
  obtain ⟨hhashes, hblocks⟩ := hc.reverted_hashes hb h.blocks h.height_by_hash
  obtain ⟨root, hroot, hmem⟩ := hc.heights
  have hheight : height = root + 1 := by
    obtain ⟨hk, hleast⟩ := firstKey_eq_some.mp hfirst
    have hk := (hmem height).mp hk
    have := hleast (root + 1) ((hmem _).mpr (by omega))
    omega
  have hheight' : height ∈ c.blocks := mem_of_lookup_eq_some hb
  have htip : ∀ t ∈ (c.withoutRoot height treestate.note_commitment_trees).max_block_height,
      t ≤ top := by
    refine max_block_height_le fun k hk => ?_
    rw [withoutRoot, mem_erase] at hk
    exact ((hmem k).mp hk.2).2
  have hhistory := h.history
  simp only [remove_history_tree, Except.ok.injEq] at hhistory
  exact {
    heights := by
      have := (hmem height).mp hheight'
      refine ⟨root + 1, by omega, fun k => ?_⟩
      rw [h.blocks, withoutRoot, mem_erase, hmem]
      omega
    hashes := hhashes
    blocks := hblocks
    tidy := h.txs.tidy hc.tidy
    sprout := TreeIndex.Below.remove (fun k hk _ => hk.elim (hc.sprout.trees k) (hc.sprout.anchors k))
      htip (SproutIndex.remove_toTreeIndex h.sprout)
    consistent := SproutIndex.Consistent.remove hc.consistent h.sprout
    sapling := TreeIndex.Below.remove
      (fun k hk _ => hk.elim (hc.sapling.trees k) (hc.sapling.anchors k)) htip h.sapling
    orchard := TreeIndex.Below.remove
      (fun k hk _ => hk.elim (hc.orchard.trees k) (hc.orchard.anchors k)) htip h.orchard
    history := fun k hk => by
      rw [← hhistory] at hk
      obtain ⟨tree, htree, -⟩ := mem_filter.mp hk
      exact hc.history k (mem_of_lookup_eq_some htree)
    info := fun k hk => by
      rw [h.info, mem_erase] at hk
      exact hc.info k hk.2 }

theorem Built.valid (h : Built rules top c) : c.Valid rules top := by
  induction h with
  | new h => exact Valid.new h
  | push _ hb h ih => exact ih.push hb.1 h
  | pop_tip _ h ih => exact ih.pop_tip h
  | pop_root _ h ih => exact ih.pop_root h

end Validity

end ChainInner

end ZebraCrosslink
