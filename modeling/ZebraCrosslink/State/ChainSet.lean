import ZebraCrosslink.Rust.Runs
import ZebraCrosslink.State.Tracked

/-!
# The chain set

No chain is a part of another one, as long as invalidating a block does not cut a chain back to
where a sibling goes on, and no block is put in twice.
-/

open Rust List

namespace ZebraCrosslink

/-! ## The invariant over whole runs -/

structure PowStore where
  finalized_state : ZebraDb
  non_finalized_state : NonFinalizedState

/-- What is done to the non-finalized state. A commit is `commit_new_chain` or `commit_block`, as
`validate_and_commit_non_finalized` chooses between them. -/
inductive ChainSetOp
  | Commit (prepared : SemanticallyVerifiedBlock)
  | Finalize
  | CrosslinkFinalize (hash : BlockHash)
  | Invalidate (hash : BlockHash)
  | Reconsider (hash : BlockHash)

namespace PowStore

def apply (rules : ContextRules) (s : PowStore) : ChainSetOp → Except Abort PowStore
  | .Commit prepared => do
    match ← (validate_and_commit_non_finalized rules s.finalized_state s.non_finalized_state
        prepared).run with
    | .ok nfs => pure { s with non_finalized_state := nfs }
    | .error _ => pure s
  | .Finalize => do
    let (block, nfs) ← s.non_finalized_state.finalize
    let db ← s.finalized_state.commit_finalized_direct block
    pure { finalized_state := db, non_finalized_state := nfs }
  | .CrosslinkFinalize hash =>
    .ok { s with non_finalized_state := (s.non_finalized_state.crosslink_finalize hash).2 }
  | .Invalidate hash => do
    let (_, nfs) ← s.non_finalized_state.invalidate_block hash
    pure { s with non_finalized_state := nfs }
  | .Reconsider hash => do
    match ← (s.non_finalized_state.reconsider_block hash s.finalized_state).run with
    | .ok nfs => pure { s with non_finalized_state := nfs }
    | .error _ => pure s

/-- A block is put in only once, and invalidating cuts no chain back to where a sibling goes on. -/
def Clean (s : PowStore) : ChainSetOp → Prop
  | .Commit prepared => ∀ c ∈ s.non_finalized_state.chain_set,
      c.contains_block_hash prepared.hash = false
  | .Finalize => True
  | .CrosslinkFinalize _ => True
  | .Invalidate hash => CutsNoSibling s.non_finalized_state.chain_set hash
  | .Reconsider hash => ∀ c ∈ s.non_finalized_state.chain_set, c.contains_block_hash hash = false

abbrev run (rules : ContextRules) (ops : List ChainSetOp) (s : PowStore) : Except Abort PowStore :=
  Runs.run (·.apply rules ·) s ops

abbrev Meets (rules : ContextRules) (P : PowStore → ChainSetOp → Prop) (ops : List ChainSetOp)
    (s : PowStore) : Prop :=
  Runs.Meets (·.apply rules ·) P s ops

end PowStore

open PowStore

structure ChainSet (db : ZebraDb) (nfs : NonFinalizedState) : Prop where
  nonempty : ∀ c ∈ nfs.chain_set, c.blocks ≠ []
  linked : ∀ c ∈ nfs.chain_set, c.blocks.IsChain fun a b =>
    b.block.header.previous_block_hash = a.hash ∧ b.height = a.height + 1
  rooted : ∀ c ∈ nfs.chain_set, ∀ b ∈ c.blocks.head?,
    b.block.header.previous_block_hash = db.finalized_tip_hash ∧ b.height = db.blocks.length
  tips : nfs.chain_set.Pairwise fun c d =>
    c.non_finalized_tip_hash ≠ d.non_finalized_tip_hash
  no_prefix : nfs.chain_set.Pairwise fun c d => ¬ c.blocks <+: d.blocks ∧ ¬ d.blocks <+: c.blocks
  count : nfs.chain_set.length ≤ MAX_NON_FINALIZED_CHAIN_FORKS

/-! The conditions and the invariant can be tested. -/

instance (l : List Chain) (x : BlockHash) : Decidable (CutsNoSibling l x) :=
  inferInstanceAs (Decidable (∀ c ∈ l, ∀ b ∈ c.blocks, b.hash = x → ∀ d ∈ l,
    d.contains_block_hash b.block.header.previous_block_hash = true →
    d.contains_block_hash x = true))

instance (s : PowStore) : (op : ChainSetOp) → Decidable (s.Clean op)
  | .Commit prepared => inferInstanceAs (Decidable (∀ c ∈ s.non_finalized_state.chain_set,
      c.contains_block_hash prepared.hash = false))
  | .Finalize => .isTrue trivial
  | .CrosslinkFinalize _ => .isTrue trivial
  | .Invalidate hash => inferInstanceAs (Decidable (CutsNoSibling _ hash))
  | .Reconsider hash => inferInstanceAs (Decidable (∀ c ∈ s.non_finalized_state.chain_set,
      c.contains_block_hash hash = false))

section Runs

variable {name : BlockHash → Block} {rules : ContextRules} {s s' : PowStore} {op : ChainSetOp}
  {db : ZebraDb} {nfs : NonFinalizedState} {c d : Chain}

theorem non_finalized_tip_hash_eq {b : ContextuallyVerifiedBlock}
    (h : c.blocks.getLast? = some b) : c.non_finalized_tip_hash = .ok b.hash := by
  unfold Chain.non_finalized_tip_hash
  rw [h]

theorem Tracked.linked {l : List ContextuallyVerifiedBlock} {k : List Chain}
    (h : Tracked name l k) (hc : c ∈ k) : c.blocks.IsChain fun a b =>
      b.block.header.previous_block_hash = a.hash ∧ b.height = a.height + 1 := by
  have hpath := h.path c hc
  rw [isChain_iff_getElem]
  intro i hi
  have hlinked := isChain_iff_getElem.mp hpath.linked (l.length + i) (by simp; omega)
  have hheight : ∀ j (hj : j < c.blocks.length), c.blocks[j].height = l.length + j := by
    intro j hj
    apply hpath.heights
    rw [getElem?_append_right (Nat.le_add_right _ _)]
    simp
  constructor
  · simpa [getElem_append_right, Nat.add_assoc] using hlinked
  · rw [hheight i (by omega), hheight (i + 1) hi]
    omega

theorem Tracked.chainSet (h : Tracked name db.blocks nfs.chain_set) : ChainSet db nfs where
  nonempty := h.nonempty
  linked c hc := h.linked hc
  rooted c hc b hb := by
    have hpath := h.path c hc
    obtain ⟨blocks⟩ := c
    cases blocks with
    | nil => cases hb
    | cons a rest =>
      obtain rfl : a = b := by simpa using hb
      have hfirst := hpath.through
      rw [hfirst.prev_last, ZebraDb.finalized_tip_hash_eq]
      exact ⟨rfl, hfirst.height_last⟩
  tips := by
    apply Pairwise.imp_of_mem ?_ h.apart
    intro c d hc hd hapart htip
    have hcl := getLast?_eq_some_getLast (h.nonempty c hc)
    have hdl := getLast?_eq_some_getLast (h.nonempty d hd)
    rw [non_finalized_tip_hash_eq hcl, non_finalized_tip_hash_eq hdl, Except.ok.injEq] at htip
    have hcd : c = d := by
      apply eq_of_tip (h.path c hc) (h.path d hd)
      rw [tipHash_getLast hcl, tipHash_getLast hdl, htip]
    rw [hcd] at hapart
    exact hapart.1 (prefix_refl _)
  no_prefix := h.apart
  count := h.count

structure PowStore.InOrder (name : BlockHash → Block) (s : PowStore) : Prop where
  db : PowPath name s.finalized_state.blocks
  attached : Attached (PowPath name) s.finalized_state.blocks s.non_finalized_state
  tracked : Tracked name s.finalized_state.blocks s.non_finalized_state.chain_set

theorem PowStore.InOrder.finalize (hk : s.InOrder name) (h : s.apply rules .Finalize = .ok s') :
    s'.InOrder name := by
  simp only [apply, except_bind_ok] at h
  obtain ⟨⟨root, nfs⟩, hfin, db, hdb, h⟩ := h
  cases h
  obtain ⟨best, rest, hbest, hblocks, hattached, -⟩ := hk.attached.finalize (lasting_powPath name) hfin
  obtain ⟨hdb, -, -⟩ := commit_finalized_direct_ok hdb
  have hset : ∃ sides, s.non_finalized_state.chain_set = ⟨root :: rest⟩ :: sides := by
    obtain ⟨sides, hsides⟩ := head?_eq_some_iff.mp hbest
    exact ⟨sides, by rw [hsides, ← hblocks]⟩
  obtain ⟨sides, hset⟩ := hset
  have heq := hk.tracked.finalize_eq hset
  obtain ⟨-, rfl⟩ := Prod.mk.inj (Except.ok.inj (hfin.symm.trans heq))
  have hpath := hk.tracked.path ⟨root :: rest⟩ (by rw [hset]; exact mem_cons_self)
  refine ⟨?_, by rw [hdb]; exact hattached, ?_⟩
  · rw [hdb]
    exact hpath.through
  · rw [hdb]
    exact hk.tracked.without (hpath.named root (by simp))

theorem PowStore.InOrder.apply (hk : s.InOrder name)
    (hop : ∀ prepared, op = .Commit prepared → Named name prepared) (hclean : s.Clean op)
    (h : s.apply rules op = .ok s') : s'.InOrder name := by
  have hlaw := lasting_powPath name
  cases op with
  | Commit prepared =>
    have hnamed := hop prepared rfl
    simp only [apply, except_bind_ok] at h
    obtain ⟨verdict, hverdict, h⟩ := h
    cases verdict with
    | error err =>
      cases h
      exact hk
    | ok nfs =>
      cases h
      exact ⟨hk.db, hk.attached.validate_and_commit_non_finalized hlaw hk.db hnamed hverdict,
        (hk.tracked.commit hk.db hk.attached hnamed hclean hverdict).1⟩
  | Finalize => exact hk.finalize h
  | CrosslinkFinalize x =>
    cases h
    simp only [NonFinalizedState.crosslink_finalize]
    split
    · exact ⟨hk.db, ⟨fun c hc => hk.attached.chains c (mem_of_mem_filter hc),
        hk.attached.sorted.sublist filter_sublist, hk.attached.invalidated⟩,
        hk.tracked.sublist filter_sublist⟩
    · exact hk
  | Invalidate x =>
    simp only [apply, except_bind_ok] at h
    obtain ⟨⟨reply, nfs⟩, hinvalidate, h⟩ := h
    cases h
    exact ⟨hk.db, hk.attached.invalidate_block hlaw hinvalidate,
      hk.tracked.invalidate_block hclean hinvalidate⟩
  | Reconsider x =>
    simp only [apply, except_bind_ok] at h
    obtain ⟨reply, hreconsider, h⟩ := h
    cases reply with
    | error err =>
      cases h
      exact hk
    | ok nfs =>
      cases h
      exact ⟨hk.db, hk.attached.reconsider_block hlaw hk.db hreconsider,
        (hk.tracked.reconsider_block hk.db hk.attached hclean hreconsider).1⟩

theorem PowStore.run_preserves {Inv : PowStore → Prop} {ops : List ChainSetOp}
    (hstep : ∀ s op s', Inv s → (∀ prepared, op = .Commit prepared → Named name prepared) →
      s.Clean op → s.apply rules op = .ok s' → Inv s')
    (hs : Inv s) (hops : ∀ prepared, .Commit prepared ∈ ops → Named name prepared)
    (hclean : Meets rules Clean ops s) (h : run rules ops s = .ok s') : Inv s' :=
  Runs.run_invariant Inv (fun s s' op hop hinv => hstep s op s' hinv fun b hb => hops b (hb ▸ hop)) hs
    hclean h

end Runs

/-- In every run that puts each block in only once and cuts no chain back to where a sibling goes
on, the chain set is as the non-finalized state expects it. -/
theorem chain_set_of_clean_run (rules : ContextRules) (name : BlockHash → Block) (db : ZebraDb)
    (hdb : PowPath name db.blocks) (ops : List ChainSetOp)
    (hnamed : ∀ prepared, .Commit prepared ∈ ops → Named name prepared)
    (hclean : PowStore.Meets rules PowStore.Clean ops ⟨db, ⟨[], []⟩⟩) (s : PowStore)
    (hrun : PowStore.run rules ops ⟨db, ⟨[], []⟩⟩ = .ok s) :
    ChainSet s.finalized_state s.non_finalized_state := by
  have hstart : InOrder name ⟨db, ⟨[], []⟩⟩ :=
    ⟨hdb, ⟨by simp, Pairwise.nil, by simp⟩, Tracked.nil⟩
  have horder : s.InOrder name :=
    run_preserves (fun _ _ _ hk => hk.apply) hstart hnamed hclean hrun
  exact horder.tracked.chainSet

namespace Sample

def lax : ContextRules :=
  ⟨fun _ _ => none, fun _ _ _ => none, fun _ _ _ => none, fun _ _ => none⟩

def hashAt (side height : Nat) : Bytes 32 :=
  ⟨UInt8.ofNat (1 + side) :: UInt8.ofNat height :: replicate 30 0, rfl⟩

def baseTx (side height : Nat) : Transaction where
  hash := ⟨UInt8.ofNat (100 + side) :: UInt8.ofNat height :: replicate 30 0, rfl⟩
  data := .V5 height [.Coinbase height] [{ value := ⟨1, Constraint.holds_one⟩, lock_script := [] }] none none

def onSide (side height : Nat) (txs : List Transaction) : ContextuallyVerifiedBlock where
  block := {
    header := .blank (if height = 0 then GENESIS_PREVIOUS_BLOCK_HASH
      else hashAt (if height ≤ 3 then 0 else side) (height - 1)) (hashAt side height) 0x200f0f0f
    transactions := baseTx side height :: txs }
  hash := hashAt side height
  height := height

variable (txs : Nat → Nat → List Transaction)

def sideNames (x : BlockHash) : Block :=
  let side := (x.val.headD 0).toNat - 1
  let height := (x.val.getD 1 0).toNat
  (onSide side height (txs side height)).block

theorem onSide_named (side height : Nat) (hs : side < 100) (hh : height < 256) :
    Named (sideNames txs) (onSide side height (txs side height)) := by
  have hside : (UInt8.ofNat (1 + side)).toNat = 1 + side := by
    rw [UInt8.toNat_ofNat', Nat.mod_eq_of_lt (by omega)]
  have hheight : (UInt8.ofNat height).toNat = height := by
    rw [UInt8.toNat_ofNat', Nat.mod_eq_of_lt (by omega)]
  refine ⟨?_, rfl, ?_, ?_⟩
  · have hname : sideNames txs (hashAt side height) =
        (onSide ((UInt8.ofNat (1 + side)).toNat - 1) (UInt8.ofNat height).toNat
          (txs ((UInt8.ofNat (1 + side)).toNat - 1) (UInt8.ofNat height).toNat)).block := rfl
    rw [show (onSide side height (txs side height)).hash = hashAt side height from rfl, hname,
      hside, hheight, Nat.add_sub_cancel_left]
  · intro hzero
    have hhead : (UInt8.ofNat (1 + side)).toNat = 0 :=
      congrArg (fun x : Bytes 32 => (x.val.headD 0).toNat) hzero
    omega
  · change height < MAX_HEIGHT
    unfold MAX_HEIGHT
    omega

def plain (side height : Nat) : ContextuallyVerifiedBlock := onSide side height []

def plainNames : BlockHash → Block := sideNames fun _ _ => []

theorem plain_named (side height : Nat) (hs : side < 100) (hh : height < 256) :
    Named plainNames (plain side height) := onSide_named (fun _ _ => []) side height hs hh

def origin : ZebraDb := ⟨[plain 0 0]⟩

theorem origin_path : PowPath plainNames origin.blocks :=
  PowPath.nil.append_singleton (plain_named 0 0 (by omega) (by omega)) rfl rfl

def fork : List ChainSetOp :=
  [.Commit (plain 0 1), .Commit (plain 0 2), .Commit (plain 0 3), .Commit (plain 1 3)]

def cleanOps : List ChainSetOp :=
  fork ++ [.Commit (plain 0 4), .Invalidate (hashAt 0 4), .Reconsider (hashAt 0 4),
    .CrosslinkFinalize (hashAt 0 3), .Finalize]

def cutOps : List ChainSetOp := fork ++ [.Invalidate (hashAt 0 3)]

theorem fork_named {prepared : SemanticallyVerifiedBlock} (h : .Commit prepared ∈ fork) :
    Named plainNames prepared := by
  simp only [fork, mem_cons, ChainSetOp.Commit.injEq, not_mem_nil, or_false] at h
  rcases h with rfl | rfl | rfl | rfl <;> exact plain_named _ _ (by omega) (by omega)

end Sample

open Sample

theorem chain_set_of_clean_run_sample : ∃ s, PowStore.run lax cleanOps ⟨origin, ⟨[], []⟩⟩ = .ok s ∧
      s.non_finalized_state.chain_set = [⟨[plain 0 2, plain 0 3, plain 0 4]⟩] ∧
      ChainSet s.finalized_state s.non_finalized_state := by
  have heval : (run lax cleanOps ⟨origin, ⟨[], []⟩⟩).toOption.map
      (·.non_finalized_state.chain_set) =
      some [⟨[plain 0 2, plain 0 3, plain 0 4]⟩] := by decide +kernel
  obtain ⟨s, hs, hset⟩ := exists_of_toOption_map heval
  refine ⟨s, hs, hset, ?_⟩
  apply chain_set_of_clean_run lax plainNames origin origin_path
    cleanOps ?_ (by decide +kernel) s hs
  intro prepared h
  rcases mem_append.mp h with h | h
  · exact fork_named h
  · obtain rfl : prepared = plain 0 4 := by simpa using h
    exact plain_named 0 4 (by omega) (by omega)

/-- After the third block is taken out, the first two are a chain, beside one that goes on from
them. -/
theorem cut_chain_is_prefix :
    ∃ s, (∀ prepared, .Commit prepared ∈ cutOps → Named plainNames prepared) ∧
      PowStore.run lax cutOps ⟨origin, ⟨[], []⟩⟩ = .ok s ∧
      ¬ ChainSet s.finalized_state s.non_finalized_state := by
  have heval : (run lax cutOps ⟨origin, ⟨[], []⟩⟩).toOption.map (·.non_finalized_state.chain_set) =
      some [⟨[plain 0 1, plain 0 2, plain 1 3]⟩, ⟨[plain 0 1, plain 0 2]⟩] := by decide +kernel
  obtain ⟨s, hs, hset⟩ := exists_of_toOption_map heval
  refine ⟨s, ?_, hs, ?_⟩
  · intro prepared h
    apply fork_named
    simpa [cutOps] using h
  · intro h
    have hprefix := h.no_prefix
    rw [hset, pairwise_pair] at hprefix
    exact hprefix.2 ⟨[plain 1 3], rfl⟩

end ZebraCrosslink
