import ZebraCrosslink.State.ChainSet
import ZebraCrosslink.State.Indexed.Transfers

/-!
# Crosslink finalization

The worker counts the blocks up to the new final one on one chain, and then takes the root of
whatever chain is best, once per block.
-/

open Rust List

namespace ZebraCrosslink

section Crosslink

variable {name : BlockHash → Block} {db : List ContextuallyVerifiedBlock} {l : List Chain}
  {w : WriteBlockWorkerTask} {b root : ContextuallyVerifiedBlock} {c d : Chain} {x : BlockHash}
  {nfs : NonFinalizedState} {zdb : ZebraDb}

/-! ## From the invariant to paths -/

theorem PowPath.append {blocks : List ContextuallyVerifiedBlock} (h : PowPath name db)
    (hnamed : ∀ b ∈ blocks, Named name b) (hlinked : blocks.IsChain fun a b =>
      b.block.header.previous_block_hash = a.hash ∧ b.height = a.height + 1)
    (hrooted : ∀ b ∈ blocks.head?,
      b.block.header.previous_block_hash = tipHash db ∧ b.height = db.length) :
    PowPath name (db ++ blocks) := by
  induction blocks generalizing db with
  | nil => simpa using h
  | cons b rest ih =>
    obtain ⟨hprev, hheight⟩ := hrooted b rfl
    have hfirst := h.append_singleton (hnamed b mem_cons_self) hheight hprev
    have hrest : PowPath name (db ++ [b] ++ rest) := by
      apply ih hfirst (fun a ha => hnamed a (mem_cons_of_mem _ ha)) hlinked.tail
      intro a ha
      have hab := hlinked.rel_head? ha
      simp [hab.1, hab.2, hheight]
    simpa using hrest

theorem ChainSet.tracked (h : ChainSet zdb nfs) (hdb : PowPath name zdb.blocks)
    (hnamed : ∀ c ∈ nfs.chain_set, ∀ b ∈ c.blocks, Named name b) (hsorted : Sorted nfs.chain_set) :
    Tracked name zdb.blocks nfs.chain_set where
  path c hc := by
    apply hdb.append (hnamed c hc) (h.linked c hc)
    intro b hb
    rw [← ZebraDb.finalized_tip_hash_eq]
    exact h.rooted c hc b hb
  nonempty := h.nonempty
  apart := h.no_prefix
  sorted := hsorted
  count := h.count

/-! ## Chains with common blocks -/

theorem commit_finalized_direct_of_path (h : PowPath name (zdb.blocks ++ [b])) :
    zdb.commit_finalized_direct b = .ok ⟨zdb.blocks ++ [b]⟩ := by
  have hprev : zdb.finalized_tip_hash = b.block.header.previous_block_hash := by
    rw [ZebraDb.finalized_tip_hash_eq, h.prev_last]
  have hheight := h.height_last
  unfold ZebraDb.commit_finalized_direct
  cases hblocks : zdb.blocks using reverseRecOn with
  | nil => simp [ZebraDb.is_empty, hblocks, hprev, hheight]
  | append_singleton below a =>
    simp [ZebraDb.is_empty, ZebraDb.finalized_tip_height, ZebraDb.tip, hblocks, hprev, hheight]

def dropBlocks (n : Nat) (l : List Chain) : List Chain :=
  (l.map fun d => ⟨d.blocks.drop n⟩).filter fun d => !d.blocks.isEmpty

theorem without_shared (h : ∀ d ∈ l, [root] <+: d.blocks) : without root l = dropBlocks 1 l := by
  induction l with
  | nil => rfl
  | cons d rest ih =>
    obtain ⟨hd, hrest⟩ := forall_mem_cons.mp h
    obtain ⟨more, hmore⟩ := hd
    rw [without_cons, ih hrest]
    obtain ⟨blocks⟩ := d
    simp only [singleton_append] at hmore
    subst hmore
    cases more <;> simp [without, dropBlocks]

theorem dropBlocks_zero (h : ∀ d ∈ l, d.blocks ≠ []) : dropBlocks 0 l = l := by
  simpa [dropBlocks, filter_eq_self] using h

theorem dropBlocks_dropBlocks (n : Nat) (l : List Chain) : dropBlocks n (dropBlocks 1 l) = dropBlocks (n + 1) l := by
  simp only [dropBlocks, filter_map, map_map, filter_filter, Function.comp_def, drop_drop, Nat.add_comm 1 n]
  congr 1
  refine filter_congr fun d _ => ?_
  simp only [Bool.and_eq_left_iff_imp, Bool.not_eq_true', isEmpty_eq_false_iff, ne_eq, drop_eq_nil_iff]
  omega

theorem mem_dropBlocks_one (h : ⟨root :: d.blocks⟩ ∈ l) (hne : d.blocks ≠ []) : d ∈ dropBlocks 1 l :=
  mem_filter.mpr ⟨mem_map.mpr ⟨_, h, rfl⟩, by simpa using hne⟩

/-! ## Address balances -/

section Balances

variable (address : Output → Option Address)

/-- The output of an outpoint, by the id of its transaction. -/
def outputAt (path : List Transaction) (outpoint : OutPoint) : Option Output := do
  let tx ← path.find? (·.hash = outpoint.hash)
  tx.outputs[outpoint.index.toNat]?

/-- What outputs add to the balances of their addresses. -/
def receivedBy (outputs : List Output) : List (Address × Int) :=
  outputs.filterMap fun output => (address output).map (·, output.value.zatoshis)

def negated (changes : List (Address × Int)) : List (Address × Int) := changes.map fun (a, value) => (a, -value)

def spentBy (path : List Transaction) (tx : Transaction) : List (Address × Int) :=
  negated (receivedBy address (tx.spent_outpoints.filterMap (outputAt path)))

/-- The outputs of a transaction come before its inputs. -/
def balanceChanges (path txs : List Transaction) : List (Address × Int) :=
  txs.flatMap fun tx => receivedBy address tx.outputs ++ spentBy address path tx

def balanceOf (changes : List (Address × Int)) (a : Address) : Int :=
  ((changes.filter (·.1 = a)).map (·.2)).sum

/-- Changes one after the other, each with an expect that the new balance is in range. -/
def change_balances (expected : String) (before : List (Address × Int)) :
    List (Address × Int) → Except Abort Unit
  | [] => .ok ()
  | change :: rest =>
    if Constraint.NegativeAllowed.Holds (balanceOf (before ++ [change]) change.1) then
      change_balances expected (before ++ [change]) rest
    else .error (.expect expected)

def Chain.root_changes (db : ZebraDb) (chain : Chain) : List (Address × Int) :=
  balanceChanges address (db.transactions ++ chain.transactions) (Chain.mk (chain.blocks.take 1)).transactions

/-- The part of `pop_root` that reverts the transfers of the root. -/
def Chain.revert_root (db : ZebraDb) (chain : Chain) : Except Abort Unit :=
  change_balances "reversing previous balance changes is always valid"
    (balanceChanges address (db.transactions ++ chain.transactions) chain.transactions)
    (negated (chain.root_changes address db))

namespace ZebraDb

variable (db : ZebraDb) (b : ContextuallyVerifiedBlock)

def created_changes : List (Address × Int) := b.block.transactions.flatMap fun tx => receivedBy address tx.outputs

def spent_changes : List (Address × Int) :=
  b.block.transactions.flatMap (spentBy address (db.transactions ++ b.block.transactions))

def known_changes : List (Address × Int) := balanceChanges address db.transactions db.transactions

def has_utxo (outpoint : OutPoint) : Bool :=
  db.utxo outpoint || outpoint ∈ b.block.transactions.flatMap (·.created_outpoints)

/-- The part of `write_block` that updates the balances. All outputs of the block come before all inputs,
and they count from zero: a stored balance is the sum of what the blocks add, which is taken when it is read. -/
def write_balances : Except Abort Unit := do
  orAbort (if ∀ tx ∈ b.block.transactions, ∀ o ∈ tx.spent_outpoints, db.has_utxo b o = true then some () else none)
    (.expect "already checked UTXO was in state or block")
  orAbort (if ∀ change ∈ created_changes address b ++ db.spent_changes address b,
      Constraint.NonNegative.Holds (balanceOf (db.known_changes address) change.1) then some () else none)
    (.expect "address balance/received should not overflow")
  change_balances "balance overflow already checked" [] (created_changes address b)
  change_balances "balance underflow already checked" (created_changes address b) (db.spent_changes address b)

end ZebraDb

namespace WriteBlockWorkerTask

/-- `finalize` with the balances of the addresses. -/
def finalize_indexed (w : WriteBlockWorkerTask) : Except Abort WriteBlockWorkerTask := do
  let (block, nfs) ← w.non_finalized_state.finalize
  (w.non_finalized_state.chain_set.filter fun chain => chain.blocks.head?.map (·.hash) = some block.hash).forM
    (Chain.revert_root address w.finalized_state)
  let db ← w.finalized_state.commit_finalized_direct block
  w.finalized_state.write_balances address block
  pure { w with finalized_state := db, non_finalized_state := nfs }

def finalize_blocks_indexed : Nat → WriteBlockWorkerTask → Except Abort WriteBlockWorkerTask
  | 0, w => .ok w
  | n + 1, w => do
    let w ← w.finalize_indexed address
    finalize_blocks_indexed n w

def crosslink_finalized_indexed (w : WriteBlockWorkerTask) (hash : BlockHash) :
    Except Abort (Except String BlockHash × WriteBlockWorkerTask) :=
  match w.non_finalized_state.crosslink_finalize hash with
  | (some newly_finalized_blocks, nfs) => do
    let w ← update_latest_chain_channels { w with non_finalized_state := nfs }
    let w ← finalize_blocks_indexed address newly_finalized_blocks.length w
    pure (.ok hash, w)
  | (none, _) => w.crosslink_finalized hash

end WriteBlockWorkerTask

open WriteBlockWorkerTask

/-- Every balance stays in range while the changes are made one after the other. -/
def BalancesInRange (before : List (Address × Int)) : List (Address × Int) → Prop
  | [] => True
  | change :: rest => Constraint.NegativeAllowed.Holds (balanceOf (before ++ [change]) change.1) ∧
    BalancesInRange (before ++ [change]) rest

theorem change_balances_ok {expected : String} {before changes : List (Address × Int)} {u : Unit} :
    change_balances expected before changes = .ok u ↔ BalancesInRange before changes := by
  induction changes generalizing before with
  | nil => exact iff_of_true rfl trivial
  | cons change rest ih =>
    rw [change_balances, BalancesInRange]
    split
    · next hholds => rw [ih, and_iff_right hholds]
    · next hnot => simp [hnot]

/-- The balances are in range while the block is written. -/
@[mk_iff]
structure Writable (db : ZebraDb) (b : ContextuallyVerifiedBlock) : Prop where
  found : ∀ tx ∈ b.block.transactions, ∀ o ∈ tx.spent_outpoints, db.has_utxo b o = true
  read : ∀ change ∈ ZebraDb.created_changes address b ++ db.spent_changes address b,
    Constraint.NonNegative.Holds (balanceOf (db.known_changes address) change.1)
  created : BalancesInRange [] (ZebraDb.created_changes address b)
  spent : BalancesInRange (ZebraDb.created_changes address b) (db.spent_changes address b)

/-- The balances are in range while the root is taken out of the index of the chain. -/
def Revertible (db : ZebraDb) (chain : Chain) : Prop :=
  BalancesInRange (balanceChanges address (db.transactions ++ chain.transactions) chain.transactions)
    (negated (chain.root_changes address db))

/-- Each block can be written after those before it, and can be taken out of every chain. -/
def BalancesFit : List ContextuallyVerifiedBlock → List ContextuallyVerifiedBlock → List Chain → Prop
  | _, [], _ => True
  | db, root :: more, chains => Writable address ⟨db⟩ root ∧ (∀ d ∈ chains, Revertible address ⟨db⟩ d) ∧
    BalancesFit (db ++ [root]) more (dropBlocks 1 chains)

theorem write_balances_ok {u : Unit} : zdb.write_balances address b = .ok u ↔ Writable address zdb b := by
  simp [ZebraDb.write_balances, except_bind_ok, orAbort_ok, change_balances_ok, writable_iff]

section

variable (h : Tracked name w.finalized_state.blocks w.non_finalized_state.chain_set)
include h

theorem finalize_shared (hne : w.non_finalized_state.chain_set ≠ [])
    (hshared : ∀ d ∈ w.non_finalized_state.chain_set, [root] <+: d.blocks) :
    ∃ w₁, (∀ w', w.finalize_indexed address = .ok w' ↔ w' = w₁ ∧ Writable address w.finalized_state root ∧
        ∀ d ∈ w.non_finalized_state.chain_set, Revertible address w.finalized_state d) ∧
      w₁.finalized_state.blocks = w.finalized_state.blocks ++ [root] ∧
      w₁.non_finalized_state.chain_set = dropBlocks 1 w.non_finalized_state.chain_set ∧
      Tracked name w₁.finalized_state.blocks w₁.non_finalized_state.chain_set := by
  obtain ⟨⟨blocks⟩, sides, hset⟩ := exists_cons_of_ne_nil hne
  have hbest : (⟨blocks⟩ : Chain) ∈ w.non_finalized_state.chain_set := by simp [hset]
  obtain ⟨rest, hrest⟩ := hshared _ hbest
  simp only [singleton_append] at hrest
  subst hrest
  have hroot : Named name root := (h.path _ hbest).named root (by simp)
  have hall : (w.non_finalized_state.chain_set.filter fun chain =>
      chain.blocks.head?.map (·.hash) = some root.hash) = w.non_finalized_state.chain_set := by
    refine filter_eq_self.mpr fun d hd => ?_
    obtain ⟨more, hmore⟩ := hshared d hd
    simp [← hmore]
  refine ⟨{ w with
    finalized_state := ⟨w.finalized_state.blocks ++ [root]⟩
    non_finalized_state := {
      chain_set := ZebraCrosslink.without root w.non_finalized_state.chain_set
      invalidated_blocks := w.non_finalized_state.invalidated_blocks.filter fun entry =>
        root.height ≤ entry.1 } }, fun w' => ?_, rfl, without_shared hshared, h.without hroot⟩
  unfold finalize_indexed
  simp only [h.finalize_eq hset, commit_finalized_direct_of_path (h.path _ hbest).through, except_bind_ok,
    Except.ok.injEq, exists_eq_left', hall, forM_ok, write_balances_ok, Chain.revert_root, change_balances_ok]
  constructor
  · rintro ⟨-, hreverts, -, hwrite, hw⟩
    exact ⟨(Except.ok.inj hw).symm, hwrite, hreverts⟩
  · rintro ⟨rfl, hwrite, hreverts⟩
    exact ⟨(), hreverts, (), hwrite, rfl⟩

/-- By induction on the blocks that all chains share, with one step of `finalize_shared` each. -/
theorem finalize_blocks_shared (shared : List ContextuallyVerifiedBlock)
    (hne : shared ≠ [] → w.non_finalized_state.chain_set ≠ [])
    (hshared : ∀ d ∈ w.non_finalized_state.chain_set, shared <+: d.blocks) :
    ((∃ w', finalize_blocks_indexed address shared.length w = .ok w') ↔
      BalancesFit address w.finalized_state.blocks shared w.non_finalized_state.chain_set) ∧
    ∀ w', finalize_blocks_indexed address shared.length w = .ok w' →
      w'.finalized_state.blocks = w.finalized_state.blocks ++ shared ∧
      w'.non_finalized_state.chain_set = dropBlocks shared.length w.non_finalized_state.chain_set := by
  induction shared generalizing w with
  | nil =>
    refine ⟨iff_of_true ⟨w, rfl⟩ trivial, fun w' hw => ?_⟩
    cases hw
    exact ⟨(append_nil _).symm, (dropBlocks_zero h.nonempty).symm⟩
  | cons root more ih =>
    have hroot : ∀ d ∈ w.non_finalized_state.chain_set, [root] <+: d.blocks := fun d hd =>
      IsPrefix.trans (by simp) (hshared d hd)
    obtain ⟨w₁, hstep, hdb, hset, hkept⟩ := finalize_shared address h (hne (by simp)) hroot
    have hne₁ : more ≠ [] → w₁.non_finalized_state.chain_set ≠ [] := by
      intro hmore
      obtain ⟨⟨blocks⟩, hd⟩ := exists_mem_of_ne_nil _ (hne (by simp))
      obtain ⟨rest, rfl⟩ := hshared _ hd
      rw [hset]
      exact ne_nil_of_mem (mem_dropBlocks_one (d := ⟨more ++ rest⟩) hd (by simp [hmore]))
    have hshared₁ : ∀ d ∈ w₁.non_finalized_state.chain_set, more <+: d.blocks := by
      intro d hd
      rw [hset] at hd
      obtain ⟨e, he, rfl⟩ := mem_map.mp (mem_filter.mp hd).1
      obtain ⟨rest, hrest⟩ := hshared e he
      exact ⟨rest, by simp [← hrest]⟩
    obtain ⟨hfit, heffect⟩ := ih hkept hne₁ hshared₁
    rw [hdb, hset] at hfit heffect
    simp only [length_cons, finalize_blocks_indexed, except_bind_ok, hstep, BalancesFit, ← hfit]
    constructor
    · constructor
      · rintro ⟨w', _, ⟨rfl, hwrite, hreverts⟩, hrun⟩
        exact ⟨hwrite, hreverts, w', hrun⟩
      · rintro ⟨hwrite, hreverts, w', hrun⟩
        exact ⟨w', w₁, ⟨rfl, hwrite, hreverts⟩, hrun⟩
    · rintro w' ⟨_, ⟨rfl, -⟩, hrun⟩
      obtain ⟨hblocks, hchains⟩ := heffect w' hrun
      exact ⟨by simpa using hblocks, by rw [hchains, dropBlocks_dropBlocks]⟩

end

end Balances

variable {below above : List ContextuallyVerifiedBlock}

theorem shared_of_contains
    (hc : PowPath name (db ++ (below ++ b :: above))) (hd : PowPath name (db ++ d.blocks))
    (hx : d.contains_block_hash b.hash = true) : below ++ [b] <+: d.blocks := by
  obtain ⟨a, ha, hhash⟩ := mem_of_contains_block_hash hx
  obtain ⟨below', above', hsplit⟩ := append_of_mem ha
  rw [hsplit] at hd
  have htip : tipHash (db ++ below ++ [b]) = tipHash (db ++ below' ++ [a]) := by
    rw [tipHash_append_singleton, tipHash_append_singleton, hhash]
  have heq := hc.through_split.eq_of_tipHash hd.through_split htip
  rw [append_assoc, append_assoc, append_cancel_left_eq] at heq
  rw [heq, hsplit]
  simp

theorem height_by_hash_of_mem (hc : PowPath name (db ++ c.blocks)) (hb : b ∈ c.blocks) :
    c.height_by_hash b.hash = some b.height := by
  obtain ⟨height, hheight⟩ := Option.isSome_iff_exists.mp (contains_block_hash_of_mem hb)
  obtain ⟨a, ha, rfl⟩ := Option.map_eq_some_iff.mp hheight
  have hhash : a.hash = b.hash := by simpa using find?_some ha
  have hmem := mem_of_find?_eq_some ha
  rw [hheight, hc.eq_of_hash (mem_append_right _ hmem) (mem_append_right _ hb) hhash]

theorem crosslink_finalize_eq (h : Tracked name db nfs.chain_set)
    (hc : ⟨below ++ b :: above⟩ ∈ nfs.chain_set) :
    nfs.crosslink_finalize b.hash = (some (below ++ [b]),
      { nfs with chain_set := nfs.chain_set.filter fun d => d.contains_block_hash b.hash }) := by
  have hbc : b ∈ (Chain.mk (below ++ b :: above)).blocks := by simp
  have hfound : (nfs.find_chain fun d => (d.height_by_hash b.hash).isSome).isSome := by
    rw [NonFinalizedState.find_chain, find?_isSome]
    exact ⟨_, hc, contains_block_hash_of_mem hbc⟩
  obtain ⟨d, hd⟩ := Option.isSome_iff_exists.mp hfound
  have hmem := mem_of_find?_eq_some hd
  have hx := find?_some hd
  obtain ⟨rest, hrest⟩ := shared_of_contains (h.path _ hc) (h.path d hmem) hx
  have hbd : b ∈ d.blocks := by simp [← hrest]
  have hheight := (h.path _ hc).height_split
  unfold NonFinalizedState.crosslink_finalize
  rw [hd]
  simp only [height_by_hash_of_mem (h.path d hmem) hbd, Option.getD_some]
  rw [(h.path d hmem).filter_ge, ← hrest, hheight]
  have hcount : db.length + below.length + 1 - db.length = (below ++ [b]).length := by
    rw [length_append, length_singleton]
    omega
  rw [hcount, take_left]

theorem Tracked.update_channels_eq
    (h : Tracked name w.finalized_state.blocks w.non_finalized_state.chain_set)
    (hne : w.non_finalized_state.chain_set ≠ []) : w.update_latest_chain_channels =
      .ok { w with non_finalized_state_sender := w.non_finalized_state } := by
  obtain ⟨best, sides, hset⟩ := exists_cons_of_ne_nil hne
  have hbest := h.nonempty best (by simp [hset])
  unfold WriteBlockWorkerTask.update_latest_chain_channels NonFinalizedState.best_chain
  simp [hset, hbest]

theorem crosslink_finalized_unknown (address : Output → Option Address)
    (hnone : ∀ c ∈ w.non_finalized_state.chain_set, c.contains_block_hash x = false) :
    w.crosslink_finalized_indexed address x = .ok
      (if w.finalized_state.contains_hash x then .ok x else .error "Couldn't find finalized block",
        w) := by
  have hfind : w.non_finalized_state.find_chain (fun d => (d.height_by_hash x).isSome) = none := by
    rw [NonFinalizedState.find_chain, find?_eq_none]
    intro c hc
    exact Bool.eq_false_iff.mp (hnone c hc)
  unfold WriteBlockWorkerTask.crosslink_finalized_indexed WriteBlockWorkerTask.crosslink_finalized
    NonFinalizedState.crosslink_finalize
  simp only [hfind]
  split <;> rfl

namespace Sample

/-- The scripts start with a byte for their address. -/
def payee (output : Output) : Option Address :=
  output.lock_script.head?.map fun n => .PayToPublicKeyHash ⟨n :: replicate 19 0, rfl⟩

def paymentHash (n : Nat) : TransactionHash := ⟨UInt8.ofNat (200 + n) :: replicate 31 0, rfl⟩

/-- Eight million coins, which an address pays to itself once more each time. -/
def payment (n : Nat) : Transaction where
  hash := paymentHash n
  data := .V5 0 (if n = 0 then [] else [.PrevOut ⟨paymentHash (n - 1), 0⟩])
    [⟨⟨8000000 * COIN, by decide⟩, [7]⟩] none none

def payments (n _side height : Nat) : List Transaction :=
  match height with
  | 0 => [payment 0]
  | 1 => (range n).map fun k => payment (k + 1)
  | _ => []

/-- A fork above a block with this number of payments. -/
def paying (n : Nat) : WriteBlockWorkerTask :=
  let blockAt side height := onSide side height (payments n side height)
  { finalized_state := ⟨[blockAt 0 0]⟩
    non_finalized_state := {
      chain_set := [⟨[blockAt 0 1, blockAt 0 2, blockAt 0 3, blockAt 0 4]⟩,
        ⟨[blockAt 0 1, blockAt 0 2, blockAt 1 3]⟩]
      invalidated_blocks := [] }
    non_finalized_state_sender := ⟨[], []⟩
    parent_error_map := []
    checkpointing := false }

theorem paying_set {n : Nat} (hn : n ∈ [2, 3]) :
    ChainSet (paying n).finalized_state (paying n).non_finalized_state := by
  simp only [mem_cons, not_mem_nil, or_false] at hn
  rcases hn with rfl | rfl <;> exact ⟨by decide +kernel, by decide +kernel, by decide +kernel,
    by decide +kernel, by decide +kernel, by decide +kernel⟩

end Sample

open Sample

end Crosslink

end ZebraCrosslink
