import ZebraCrosslink.State.History
import ZebraCrosslink.State.Indexed.Fork

/-!
# A chain with its indexes refines its list of blocks

What an operation of `ChainInner` returns, the same operation of `Chain` returns for the blocks alone.
A fork of the blocks always returns. With the indexes it needs the balances of the addresses to stay
in range.
-/

open Rust List Map
open Finmap (mem_of_lookup_eq_some)

namespace ZebraCrosslink

/-! ## The keys of the indexes -/

abbrev KeySums : Type := Multiset TransactionHash × Multiset OutPoint × Multiset OutPoint ×
  Multiset Nullifier × Multiset Nullifier × Multiset Nullifier

def keysOf (l : List (Transaction × TransactionHash)) : KeySums :=
  (l.flatMap fun p => [p.2], l.flatMap fun p => outpoints p.2 p.1.outputs, l.flatMap (·.1.spent_outpoints),
    l.flatMap (·.1.sprout_nullifiers), l.flatMap (·.1.sapling_nullifiers),
    l.flatMap (·.1.orchard_nullifiers))

def Entries.keys (e : Entries) : KeySums :=
  (e.locations.map (·.1), e.created.map (·.1), e.spent.map (·.1), e.sprout.map (·.1),
    e.sapling.map (·.1), e.orchard.map (·.1))

def TransactionIndexes.keys (ix : TransactionIndexes) : KeySums :=
  (ix.tx_loc_by_hash.keys.1, ix.created_utxos.keys.1, ix.spent_utxos.keys.1,
    ix.sprout_nullifiers.keys.1, ix.sapling_nullifiers.keys.1, ix.orchard_nullifiers.keys.1)

section

variable {ix ix' : TransactionIndexes} {e : Entries}

theorem Adds.keys (h : ix.Adds e ix') : ix'.keys = ix.keys + e.keys := by
  simp only [TransactionIndexes.keys, keys_insertAll h.locations, keys_insertAll h.created,
    keys_insertAll h.spent, keys_insertAll h.sprout, keys_insertAll h.sapling, keys_insertAll h.orchard]
  rfl

theorem Removes.keys (h : ix.Removes e ix') : ix.keys = ix'.keys + e.keys := by
  simp only [TransactionIndexes.keys, keys_removeAll h.locations, keys_removeAll h.created,
    keys_removeAll h.spent, keys_removeAll h.sprout, keys_removeAll h.sapling, keys_removeAll h.orchard]
  rfl

end

namespace IndexedBlock

variable {H : Type} {rules : IndexRules H} {b : IndexedBlock}

theorem map_outputsAt {outputs : Map OutPoint OrderedUtxo} {l : List OutPoint} (h : ∀ o ∈ l, o ∈ outputs) :
    (outputsAt outputs l).map (·.1) = l := by
  induction l with
  | nil => rfl
  | cons o rest ih =>
    obtain ⟨ho, hrest⟩ := forall_mem_cons.mp h
    obtain ⟨utxo, hutxo⟩ := Finmap.mem_iff.mp ho
    rw [outputsAt, filterMap_cons_some (b := (o, utxo)) (by simp [hutxo]), map_cons]
    exact congrArg _ (ih hrest)

theorem keys_entriesFrom {l : List (Transaction × TransactionHash)} (h : ∀ p ∈ l, b.Complete p)
    (index : Nat) : (entriesFrom rules b index l).keys = keysOf l := by
  induction l generalizing index with
  | nil => rfl
  | cons p rest ih =>
    obtain ⟨hp, hrest⟩ := forall_mem_cons.mp h
    have hkeys := ih hrest (index + 1)
    simp only [Entries.keys, keysOf, Prod.mk.injEq, Multiset.coe_eq_coe] at hkeys ⊢
    simp [entriesFrom, entriesOf, Entries.append, map_outputsAt hp.created, Function.comp_def, hkeys,
      perm_append_left_iff]

/-- The block comes with the ids of its transactions. -/
def Hashed (b : IndexedBlock) : Prop := b.transaction_hashes = b.block.transactions.map (·.hash)

theorem Hashed.transactions_eq (h : b.Hashed) :
    b.transactions = b.block.transactions.map fun tx => (tx, tx.hash) := by
  rw [transactions, h, ← map_prod_left_eq_zip]

end IndexedBlock

/-- What the blocks bring to the indexes and to the work of a chain. -/
def sumsOf (l : List IndexedBlock) : KeySums × Nat :=
  (keysOf (l.flatMap (·.transactions)), (l.map fun b => Chain.blockWork b.toSemanticallyVerifiedBlock).sum)

theorem sumsOf_append (l l' : List IndexedBlock) : sumsOf (l ++ l') = sumsOf l + sumsOf l' := by
  simp [sumsOf, keysOf, ← Multiset.coe_add]

theorem sumsOf_singleton (b : IndexedBlock) :
    sumsOf [b] = (keysOf b.transactions, Chain.blockWork b.toSemanticallyVerifiedBlock) := by
  simp [sumsOf]

theorem allNew_of_keys {κ α : Type} (m : Map κ α) {f : Transaction → List κ}
    {before txs : List Transaction} (h : m.keys.1 = (before ++ txs).flatMap f) : AllNew f before txs := by
  have hnodup := m.keys.2
  rw [h, Multiset.coe_nodup, flatMap_append, nodup_append'] at hnodup
  exact hnodup.2

namespace ChainInner

variable {H : Type} {rules : IndexRules H} {b t : IndexedBlock} {c d e : ChainInner H} {top : Nat}
  {bs : List IndexedBlock} {treestate : Treestate H} {x : BlockHash}

def toChain (c : ChainInner H) : Chain :=
  ⟨c.blocks.values.map (·.toSemanticallyVerifiedBlock)⟩

def sums (c : ChainInner H) : KeySums × Nat := (c.txs.keys, c.partial_cumulative_work)

/-! ## Steps -/

theorem blockWork_eq {b : ContextuallyVerifiedBlock} {work : Nat}
    (h : CompactDifficulty.to_work b.block.header.difficulty_threshold = some work) :
    Chain.blockWork b = work := by
  simp [Chain.blockWork, h]

theorem Pushes.sums {nct nct' : NoteCommitmentTrees} (h : Pushes rules b nct nct' c d) :
    d.sums = c.sums + sumsOf [b] := by
  obtain ⟨work, hto, -, hd⟩ := h.work
  rw [ChainInner.sums, Adds.keys h.txs, hd, IndexedBlock.entries, IndexedBlock.keys_entriesFrom h.complete,
    ← blockWork_eq hto, sumsOf_singleton]
  rfl

theorem Reverts.sums {position : RevertPosition} (h : Reverts rules b position c d) :
    c.sums = d.sums + sumsOf [b] := by
  obtain ⟨work, hto, hle, hd⟩ := h.work
  rw [ChainInner.sums, Removes.keys h.txs, IndexedBlock.entries, IndexedBlock.keys_entriesFrom h.complete,
    ← Nat.sub_add_cancel hle, ← hd, ← blockWork_eq hto, sumsOf_singleton]
  rfl

theorem values_push (hc : c.Valid rules top) (hb : b.height = top + 1)
    (h : c.push rules b = .ok (.ok d)) : d.blocks.values = c.blocks.values ++ [b] := by
  obtain ⟨_, _, h⟩ := push_ok.mp h
  have hnew : b.height ∉ c.blocks := hc.notMem (by omega)
  rw [h.blocks, values_of_last (Finmap.lookup_insert _), erase_insert _ hnew]
  intro k hk
  rcases Finmap.mem_insert.mp hk with rfl | hk
  · exact le_rfl
  · exact Nat.le_of_not_lt fun hlt => hc.notMem (by omega) hk

theorem values_pop_tip (h : c.pop_tip rules = .ok d) :
    ∃ b k, c.blocks.values = d.blocks.values ++ [b] ∧ Reverts rules b .Tip (c.without k) d ∧
      d.blocks.values ≠ [] := by
  obtain ⟨k, b, hmax, hb, ⟨j, hj⟩, h⟩ := pop_tip_ok.mp h
  refine ⟨b, k, ?_, h, ?_⟩
  · rw [values_of_last hb (lastKey_eq_some.mp hmax).2, h.blocks]
    rfl
  · obtain ⟨b', hb'⟩ := Finmap.mem_iff.mp hj
    rw [h.blocks]
    exact ne_nil_of_mem (mem_values.mpr ⟨j, hb'⟩)

theorem values_pop_root (h : c.pop_root rules = .ok (b, treestate, d)) :
    c.blocks.values = b :: d.blocks.values ∧
      ∃ k, Reverts rules b .Root (c.withoutRoot k treestate.note_commitment_trees) d := by
  obtain ⟨k, hmin, -, hb, h⟩ := pop_root_ok.mp h
  refine ⟨?_, k, h⟩
  rw [values_of_first hb (firstKey_eq_some.mp hmin).2, h.blocks]
  rfl

theorem Built.sums (h : Built rules top c) : c.sums = sumsOf c.blocks.values := by
  induction h with
  | new h =>
    rw [new_eq] at h
    cases h
    rw [values_empty]
    rfl
  | push hc hb h ih =>
    rw [values_push hc.valid hb.1 h, sumsOf_append, ← ih]
    obtain ⟨_, _, h⟩ := push_ok.mp h
    exact h.sums
  | pop_tip _ h ih =>
    obtain ⟨b, k, hvalues, h, -⟩ := values_pop_tip h
    rw [hvalues, sumsOf_append] at ih
    exact add_right_cancel (h.sums.symm.trans ih)
  | pop_root _ h ih =>
    obtain ⟨hvalues, k, h⟩ := values_pop_root h
    rw [hvalues, ← singleton_append, sumsOf_append, add_comm] at ih
    exact add_right_cancel (h.sums.symm.trans ih)

theorem Built.toChain_work (h : Built rules top c) :
    c.toChain.partial_cumulative_work = c.partial_cumulative_work := by
  have hwork := congrArg Prod.snd h.sums
  simp only [ChainInner.sums, sumsOf] at hwork
  rw [hwork, toChain, Chain.partial_cumulative_work, map_map]
  rfl

/-! ## The operations on the blocks alone -/

theorem Valid.contains_iff (hc : c.Valid rules top) :
    c.toChain.contains_block_hash x = true ↔ x ∈ c.height_by_hash := by
  constructor
  · intro h
    obtain ⟨_, hmem, rfl⟩ := mem_of_contains_block_hash h
    obtain ⟨b, hb, rfl⟩ := mem_map.mp hmem
    obtain ⟨k, hk⟩ := mem_values.mp hb
    exact mem_of_lookup_eq_some (hc.hashes k b hk).2
  · intro h
    obtain ⟨k, hk⟩ := Finmap.mem_iff.mp h
    obtain ⟨b, hb, rfl⟩ := hc.blocks x k hk
    exact contains_block_hash_of_mem (mem_map_of_mem (mem_values.mpr ⟨k, hb⟩))

theorem push_toChain (hc : Built rules top c) (hb : Follow top [b])
    (hhashed : ∀ b ∈ d.blocks.values, b.Hashed) (h : c.push rules b = .ok (.ok d)) :
    c.toChain.push b.toSemanticallyVerifiedBlock = .ok (.ok d.toChain) := by
  have hsums := (hc.push hb h).sums
  have hvalues := values_push hc.valid hb.1 h
  have htxs : d.blocks.values.flatMap (·.transactions) =
      (c.toChain.transactions ++ b.block.transactions).map fun tx => (tx, tx.hash) := by
    rw [flatMap_congr fun b hb => (hhashed b hb).transactions_eq, hvalues]
    simp [toChain, Chain.transactions, flatMap_map, map_flatMap]
  simp only [ChainInner.sums, sumsOf, TransactionIndexes.keys, keysOf, htxs, Prod.mk.injEq, flatMap_map] at hsums
  obtain ⟨⟨hids, hcreated, hspent, hsprout, hsapling, horchard⟩, -⟩ := hsums
  obtain ⟨_, _, h⟩ := push_ok.mp h
  obtain ⟨work, hto, hlt, -⟩ := h.work
  rw [← hc.toChain_work] at hlt
  refine push_ok_iff.mpr ⟨?_, ⟨work, hto, hlt⟩,
    ⟨?_, allNew_of_keys _ hids, allNew_of_keys _ hcreated, allNew_of_keys _ hspent⟩,
    ⟨allNew_of_keys _ hsprout, allNew_of_keys _ hsapling, allNew_of_keys _ horchard⟩, ?_⟩
  · rw [Bool.eq_false_iff, ne_eq, hc.valid.contains_iff]
    exact (insertNew_eq_some.mp h.height_by_hash).1
  · intro tx htx
    refine (h.complete (tx, tx.hash) ?_).version
    rw [(hhashed b (by simp [hvalues])).transactions_eq]
    exact mem_map_of_mem htx
  · simp [toChain, hvalues]

theorem pop_tip_toChain (h : c.pop_tip rules = .ok d) : c.toChain.pop_tip = .ok d.toChain := by
  obtain ⟨b, k, hvalues, -, hne⟩ := values_pop_tip h
  simp [Chain.pop_tip, toChain, hvalues, hne]

theorem pop_root_toChain (h : c.pop_root rules = .ok (b, treestate, d)) :
    c.toChain.pop_root = .ok (b.toSemanticallyVerifiedBlock, d.toChain) := by
  simp [Chain.pop_root, toChain, (values_pop_root h).1]

theorem values_push_all (hc : c.Valid rules top) (hfollow : Follow top bs)
    (h : c.push_all rules bs = .ok (.ok d)) : d.blocks.values = c.blocks.values ++ bs ∧
      ∀ b ∈ bs, b.hash ∉ c.height_by_hash := by
  induction bs generalizing c top with
  | nil =>
    cases h
    simp
  | cons b rest ih =>
    obtain ⟨c₁, h₁, hrest⟩ := push_all_cons.mp h
    obtain ⟨hb, -, hfollow⟩ := hfollow
    obtain ⟨hvalues, hnew⟩ := ih (hc.push hb h₁) hfollow hrest
    rw [hvalues, values_push hc hb h₁, append_assoc]
    obtain ⟨_, _, h₁⟩ := push_ok.mp h₁
    obtain ⟨hfirst, hinsert⟩ := insertNew_eq_some.mp h₁.height_by_hash
    refine ⟨rfl, forall_mem_cons.mpr ⟨hfirst, fun b' hb' hmem => hnew b' hb' ?_⟩⟩
    rw [hinsert]
    exact Finmap.mem_insert.mpr (.inr hmem)

/-- The fork of the blocks at the tip of an earlier chain gives its blocks back. With the indexes it
does so if and only if every balance stays in range during the reverts. -/
theorem fork_iff_inRange {tip : BlockHash} (hc : Built rules top c)
    (htip : c.non_finalized_tip_hash = .ok tip) (hfollow : Follow top bs)
    (h : c.push_all rules bs = .ok (.ok d)) : d.toChain.fork tip = .ok (some c.toChain) ∧
      ((∃ e, d.fork rules tip = .ok (some e) ∧ e.toChain = c.toChain) ↔
        RevertsInRange rules c.txs.partial_transparent_transfers bs) := by
  have hc := hc.valid
  obtain ⟨t, ht, rfl⟩ := hc.tip_of_hash htip
  have hne := mem_of_lookup_eq_some ht
  obtain ⟨hvalues, hnew⟩ := values_push_all hc hfollow h
  constructor
  · have hsplit := values_of_last ht (lastKey_eq_some.mp (hc.max_block_height hne)).2
    simp only [toChain, hvalues, hsplit, map_append, map_singleton, append_assoc, singleton_append]
    refine fork_of_split fun a ha heq => ?_
    obtain ⟨b, hb, rfl⟩ := mem_map.mp ha
    exact hnew b hb (heq ▸ mem_of_lookup_eq_some (hc.hashes top t ht).2)
  · rw [hc.fork_eq hfollow h ht]
    constructor
    · rintro ⟨e, he, -⟩
      obtain ⟨e', hpops, -⟩ := except_bind_ok.mp he
      exact inRange_of_pop_tips hc hfollow h hne hpops
    · intro hrange
      obtain ⟨e, hpops, hnear, -⟩ := pop_tips_push_all hc hfollow h hne hrange
      refine ⟨e, except_bind_ok.mpr ⟨e, hpops, rfl⟩, ?_⟩
      rw [hnear.eq]
      rfl

end ChainInner

end ZebraCrosslink
