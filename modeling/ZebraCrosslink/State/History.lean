import Mathlib
import ZebraCrosslink.State.Reconsider

/-!
# What was invalidated

The records of the non-finalized state, compared with the operations that were applied to it.
-/

open Rust List

namespace ZebraCrosslink

open NonFinalizedState

/-- The state with the blocks that were ever invalidated, and those not reconsidered since. -/
structure PowHistory where
  store : PowStore
  ever : List BlockHash
  still : List BlockHash

namespace PowHistory

def apply (rules : ContextRules) (h : PowHistory) (op : ChainSetOp) : Except Abort PowHistory := do
  let store ← h.store.apply rules op
  match op with
  | .Invalidate x =>
    if h.store.non_finalized_state.chain_set.any fun c => c.contains_block_hash x then
      pure { store, ever := x :: h.ever, still := x :: h.still }
    else pure { h with store }
  | .Reconsider x =>
    match h.store.non_finalized_state.reconsider_block x h.store.finalized_state with
    | .ok (.ok _) => pure { h with store, still := h.still.filter fun y => y ≠ x }
    | _ => pure { h with store }
  | _ => pure { h with store }

abbrev run (rules : ContextRules) (ops : List ChainSetOp) (h : PowHistory) : Except Abort PowHistory :=
  Runs.run (·.apply rules ·) h ops

/-- The heights of invalidated blocks are left alone: the only block committed at such a height is
the invalidated one itself, before it is reconsidered, and no block is finalized there. -/
def Careful (name : BlockHash → Block) (h : PowHistory) : ChainSetOp → Prop
  | .Commit prepared => ∀ x ∈ h.ever, (name x).coinbase_height = some prepared.height →
      x = prepared.hash ∧ x ∈ h.still
  | .Finalize => ∀ c ∈ h.store.non_finalized_state.best_chain, ∀ root ∈ c.blocks.head?,
      ∀ x ∈ h.ever, (name x).coinbase_height ≠ some root.height
  | .CrosslinkFinalize _ => True
  | .Invalidate _ => True
  | .Reconsider _ => True

abbrev Meets (rules : ContextRules) (P : PowHistory → ChainSetOp → Prop) (ops : List ChainSetOp)
    (h : PowHistory) : Prop :=
  Runs.Meets (·.apply rules ·) P h ops

end PowHistory

open PowHistory

/-- Every record starts with a block that was invalidated, above the finalized blocks. -/
structure Chronicle (name : BlockHash → Block) (h : PowHistory) : Prop where
  path : PowPath name h.store.finalized_state.blocks
  attached : Attached (PowPath name) h.store.finalized_state.blocks h.store.non_finalized_state
  recorded : ∀ entry ∈ h.store.non_finalized_state.invalidated_blocks,
    ∃ b ∈ entry.2.head?, b.height = entry.1 ∧ Named name b ∧ b.hash ∈ h.ever
  above : ∀ entry ∈ h.store.non_finalized_state.invalidated_blocks,
    h.store.finalized_state.blocks.length ≤ entry.1

/-! ## Records, one operation at a time -/

section Operations

variable {name : BlockHash → Block} {rules : ContextRules} {db : ZebraDb}
  {nfs nfs' : NonFinalizedState} {x : BlockHash} {entry : Nat × List ContextuallyVerifiedBlock}

theorem commit_records {b : SemanticallyVerifiedBlock}
    (h : validate_and_commit_non_finalized rules db nfs b = .ok (.ok nfs')) :
    nfs'.invalidated_blocks = nfs.invalidated_blocks := by
  obtain ⟨-, parent, d, keep, -, -, hins, -⟩ := commit_ok h
  exact (insert_with_ok hins).1

theorem reconsider_records (h : nfs.reconsider_block x db = .ok (.ok nfs')) :
    nfs'.invalidated_blocks = kept_records db nfs.invalidated_blocks := by
  obtain ⟨key, root, rest, parent, d, -, -, -, -, hins⟩ := reconsider_block_ok h
  exact (insert_with_ok hins).1

theorem finalize_records {root : ContextuallyVerifiedBlock} (h : nfs.finalize = .ok (root, nfs')) :
    nfs'.invalidated_blocks = nfs.invalidated_blocks.filter fun entry => root.height ≤ entry.1 := by
  obtain ⟨best, sides, popped, swept, -, -, hsides, rfl⟩ := finalize_ok h
  dsimp only
  rw [(finalize_side_chains_ok hsides).1]

theorem of_mem_invalidated (ha : Attached (PowPath name) db.blocks nfs)
    {r : Except String BlockHash} (h : nfs.invalidate_block x = .ok (r, nfs'))
    (hentry : entry ∈ nfs'.invalidated_blocks) : entry ∈ nfs.invalidated_blocks ∨
      (nfs.chain_set.any fun c => c.contains_block_hash x) = true ∧
        ∃ b ∈ entry.2.head?, b.height = entry.1 ∧ Named name b ∧ b.hash = x ∧
          db.blocks.length ≤ entry.1 := by
  obtain rfl | ⟨c, hc, hx, d, b, rest, left, hcut, -, rfl⟩ := invalidate_block_ok h
  · exact .inl hentry
  have hpath := ha.chains c hc
  obtain ⟨hne, ⟨a, more, hblocks, rfl⟩, -⟩ := invalidate_block_cut hcut
  obtain ⟨blocks⟩ := c
  obtain rfl : blocks = d.blocks ++ a :: more := hblocks
  have hsame := hcut.symm.trans (invalidate_block_eq hpath hne)
  simp only [Except.ok.injEq, Option.some.injEq, Prod.mk.injEq, cons.injEq] at hsame
  obtain ⟨-, rfl, rfl⟩ := hsame
  have hheight := hpath.height_split
  refine (of_mem_recorded hentry).imp_right ?_
  rintro rfl
  refine ⟨any_eq_true.mpr ⟨_, hc, hx⟩, b, rfl, rfl, hpath.named b (by simp), rfl, ?_⟩
  dsimp only
  omega

end Operations

/-! ## Records, over whole runs -/

section Runs

variable {name : BlockHash → Block} {rules : ContextRules} {h h' : PowHistory} {op : ChainSetOp}

section

variable (hk : Chronicle name h)
include hk

theorem Chronicle.keep {nfs : NonFinalizedState} {still : List BlockHash}
    (ha : Attached (PowPath name) h.store.finalized_state.blocks nfs)
    (hold : ∀ entry ∈ nfs.invalidated_blocks,
      entry ∈ h.store.non_finalized_state.invalidated_blocks) :
    Chronicle name ⟨⟨h.store.finalized_state, nfs⟩, h.ever, still⟩ where
  path := hk.path
  attached := ha
  recorded entry hentry := hk.recorded entry (hold entry hentry)
  above entry hentry := hk.above entry (hold entry hentry)

theorem Chronicle.finalize (hcareful : h.Careful name .Finalize)
    (hstep : h.apply rules .Finalize = .ok h') : Chronicle name h' := by
  simp only [apply, PowStore.apply, except_bind_ok] at hstep
  obtain ⟨store, ⟨⟨root, nfs⟩, hfin, db, hdb, hstore⟩, hstep⟩ := hstep
  cases hstore
  cases hstep
  obtain ⟨best, rest, hbest, hblocks, hattached, -⟩ := hk.attached.finalize (lasting_powPath name) hfin
  obtain ⟨hdb, -, -⟩ := commit_finalized_direct_ok hdb
  have hmem : best ∈ h.store.non_finalized_state.chain_set := mem_of_head? hbest
  have hpath := hk.attached.chains best hmem
  rw [hblocks] at hpath
  have hroot := hpath.through
  have hrecords : ∀ entry ∈ nfs.invalidated_blocks,
      entry ∈ h.store.non_finalized_state.invalidated_blocks ∧ root.height ≤ entry.1 := by
    intro entry hentry
    rw [finalize_records hfin, mem_filter] at hentry
    simpa using hentry
  refine ⟨by rw [hdb]; exact hroot, by rw [hdb]; exact hattached, ?_, ?_⟩
  · intro entry hentry
    exact hk.recorded entry (hrecords entry hentry).1
  · intro entry hentry
    obtain ⟨hold, hle⟩ := hrecords entry hentry
    obtain ⟨b, -, hkey, hb, hever⟩ := hk.recorded entry hold
    -- a record at the height of the root would be of a block that was invalidated there
    have hne : entry.1 ≠ root.height := by
      intro heq
      have hheight := hb.height
      rw [hb.block, hkey, heq] at hheight
      exact hcareful best hbest root (by simp [hblocks]) b.hash hever hheight
    have hlength := hroot.height_last
    rw [hdb, length_append, length_singleton]
    omega

theorem Chronicle.apply (hop : ∀ prepared, op = .Commit prepared → Named name prepared)
    (hcareful : h.Careful name op) (hstep : h.apply rules op = .ok h') : Chronicle name h' := by
  have hlaw := lasting_powPath name
  cases op with
  | Commit prepared =>
    simp only [apply, PowStore.apply, except_bind_ok] at hstep
    obtain ⟨store, ⟨verdict, hverdict, hstore⟩, hstep⟩ := hstep
    cases hstep
    cases verdict with
    | error err =>
      cases hstore
      exact hk
    | ok nfs =>
      cases hstore
      apply hk.keep
      · exact hk.attached.validate_and_commit_non_finalized hlaw hk.path (hop prepared rfl) hverdict
      · intro entry hentry
        rwa [commit_records hverdict] at hentry
  | Finalize => exact hk.finalize hcareful hstep
  | CrosslinkFinalize x =>
    cases hstep
    unfold NonFinalizedState.crosslink_finalize
    dsimp only
    split
    · exact hk.keep ⟨fun c hc => hk.attached.chains c (mem_of_mem_filter hc),
        hk.attached.sorted.sublist filter_sublist, hk.attached.invalidated⟩ fun _ h => h
    · exact hk
  | Invalidate x =>
    simp only [apply, PowStore.apply, except_bind_ok] at hstep
    obtain ⟨store, ⟨⟨reply, nfs⟩, hinvalidate, hstore⟩, hstep⟩ := hstep
    cases hstore
    have hattached := hk.attached.invalidate_block hlaw hinvalidate
    split at hstep
    · cases hstep
      refine ⟨hk.path, hattached, ?_, ?_⟩
      · intro entry hentry
        rcases of_mem_invalidated hk.attached hinvalidate hentry with hold | ⟨-, b, hb, hkey, hn, hx, -⟩
        · obtain ⟨b, hb, hkey, hn, hever⟩ := hk.recorded entry hold
          exact ⟨b, hb, hkey, hn, mem_cons_of_mem _ hever⟩
        · exact ⟨b, hb, hkey, hn, by rw [hx]; exact mem_cons_self⟩
      · intro entry hentry
        rcases of_mem_invalidated hk.attached hinvalidate hentry with hold | ⟨-, b, -, -, -, -, hle⟩
        · exact hk.above entry hold
        · exact hle
    · rename_i hnone
      cases hstep
      apply hk.keep hattached
      intro entry hentry
      rcases of_mem_invalidated hk.attached hinvalidate hentry with hold | ⟨hx, -⟩
      · exact hold
      · exact absurd hx hnone
  | Reconsider x =>
    simp only [apply, PowStore.apply, except_bind_ok] at hstep
    obtain ⟨store, ⟨reply, hreconsider, hstore⟩, hstep⟩ := hstep
    have hreconsider : h.store.non_finalized_state.reconsider_block x h.store.finalized_state =
      .ok reply := hreconsider
    rw [hreconsider] at hstep
    cases reply with
    | error err =>
      cases hstore
      cases hstep
      exact hk
    | ok nfs =>
      cases hstore
      cases hstep
      apply hk.keep
      · exact hk.attached.reconsider_block hlaw hk.path hreconsider
      · intro entry hentry
        rw [reconsider_records hreconsider, mem_kept_records] at hentry
        exact hentry.1

theorem Chronicle.run {ops : List ChainSetOp}
    (hops : ∀ prepared, .Commit prepared ∈ ops → Named name prepared)
    (hcareful : Meets rules (Careful name) ops h)
    (hrun : run rules ops h = .ok h') : Chronicle name h' :=
  Runs.run_invariant (Chronicle name) (fun _ _ _ hop hk => hk.apply fun b hb => hops b (hb ▸ hop)) hk
    hcareful hrun

theorem Chronicle.refused {b : SemanticallyVerifiedBlock} {y : BlockHash}
    (hcareful : h.Careful name (.Commit b))
    (hrefused : validate_and_commit_non_finalized rules h.store.finalized_state
      h.store.non_finalized_state b = .ok (.error (.BlockPreviouslyInvalidated y))) :
    b.hash ∈ h.still := by
  by_contra hnot
  apply notRefused_commit ?_ y hrefused
  intro entry hentry hkey
  obtain ⟨r, -, hr, hnamed, hever⟩ := hk.recorded entry hentry
  have hheight := hnamed.height
  rw [hnamed.block, hr, hkey] at hheight
  obtain ⟨heq, hstill⟩ := hcareful r.hash hever hheight
  rw [heq] at hstill
  exact hnot hstill

end

end Runs

/-! ## Reachable states are settled -/

section Pushed

variable {c d : Chain} {b : ContextuallyVerifiedBlock} {nfs nfs' : NonFinalizedState} {db : ZebraDb}
  {rules : ContextRules} {x : BlockHash} {before more l : List ContextuallyVerifiedBlock}

theorem push_ok_iff : c.push b = .ok (.ok d) ↔ c.contains_block_hash b.hash = false ∧
    (∃ work, CompactDifficulty.to_work b.block.header.difficulty_threshold = some work ∧
      c.partial_cumulative_work + work < 2 ^ 128) ∧ Indexable c.transactions b.block.transactions ∧
    NewNullifiers c.transactions b.block.transactions ∧ d = ⟨c.blocks ++ [b]⟩ := by
  constructor
  · intro h
    obtain ⟨hblocks, hupdate⟩ := push_ok h
    rw [update_with_transactions_ok_iff] at hupdate
    unfold Chain.push at h
    split at h
    · cases h
    rename_i hnew
    split at h
    · cases h
    rename_i work hwork
    split at h
    · cases h
    rename_i hsum
    refine ⟨by simpa using hnew, ⟨work, hwork, by omega⟩, hupdate.1, hupdate.2, ?_⟩
    cases d
    exact congrArg _ hblocks
  · rintro ⟨hnew, ⟨work, hwork, hsum⟩, hindex, hnullifiers, rfl⟩
    obtain ⟨r, hr, hpushed⟩ := push_eq hnew hwork hsum hindex
    rw [hr, hpushed hnullifiers]

theorem push_of_longer (h : (Chain.mk (before ++ more)).push b = .ok (.ok ⟨before ++ more ++ [b]⟩)) :
    (Chain.mk more).push b = .ok (.ok ⟨more ++ [b]⟩) := by
  obtain ⟨hnew, ⟨work, hwork, hsum⟩, hindex, hnullifiers, -⟩ := push_ok_iff.mp h
  have htxs : (Chain.mk (before ++ more)).transactions =
      (Chain.mk before).transactions ++ (Chain.mk more).transactions := by
    simp [Chain.transactions]
  rw [htxs] at hindex hnullifiers
  refine push_ok_iff.mpr ⟨?_, ⟨work, hwork, ?_⟩, ?_, ?_, rfl⟩
  · rw [← Bool.not_eq_true] at hnew ⊢
    intro hx
    apply hnew
    obtain ⟨a, ha, heq⟩ := mem_of_contains_block_hash hx
    rw [← heq]
    exact contains_block_hash_of_mem (mem_append_right _ ha)
  · simp only [Chain.partial_cumulative_work, map_append, sum_append] at hsum ⊢
    omega
  · exact ⟨hindex.recent, hindex.ids.of_append, hindex.created.of_append, hindex.spent.of_append⟩
  · exact ⟨hnullifiers.sprout.of_append, hnullifiers.sapling.of_append,
      hnullifiers.orchard.of_append⟩

def Pushed (c : Chain) : Prop := push_all ⟨[]⟩ c.blocks = .ok (.ok c)

theorem push_all_of_longer (h : push_all ⟨before ++ more⟩ l = .ok (.ok ⟨before ++ more ++ l⟩)) :
    push_all ⟨more⟩ l = .ok (.ok ⟨more ++ l⟩) := by
  induction l generalizing more with
  | nil => simp [push_all, pure, ExceptT.pure, ExceptT.mk, Except.pure]
  | cons a rest ih =>
    rw [push_all, exceptT_bind_ok] at h
    obtain ⟨⟨blocks⟩, hpush, h⟩ := h
    obtain rfl : blocks = before ++ more ++ [a] := (push_ok hpush).1
    rw [push_all, exceptT_bind_of_ok (push_of_longer hpush)]
    have hlong : push_all ⟨before ++ (more ++ [a])⟩ rest =
        .ok (.ok ⟨before ++ (more ++ [a]) ++ rest⟩) := by simpa using h
    simpa using ih hlong

theorem Pushed.tail {rest : List ContextuallyVerifiedBlock} (h : Pushed ⟨b :: rest⟩) :
    Pushed ⟨rest⟩ := by
  have hupper : push_all ⟨[b]⟩ rest = .ok (.ok ⟨[b] ++ rest⟩) := push_all_upper h
  have hlong : push_all ⟨[b] ++ []⟩ rest = .ok (.ok ⟨[b] ++ [] ++ rest⟩) := by simpa using hupper
  exact push_all_of_longer hlong

theorem Pushed.part (h : Pushed c) (hpart : d.blocks <+: c.blocks) : Pushed d := by
  obtain ⟨rest, hrest⟩ := hpart
  unfold Pushed at h
  rw [← hrest, push_all_append, exceptT_bind_ok] at h
  obtain ⟨e, he, -⟩ := h
  have hblocks := push_all_ok he
  obtain rfl : e = d := by
    cases e
    cases d
    simpa using hblocks
  exact he

theorem Pushed.push_all (h : Pushed c) (hpush : push_all c l = .ok (.ok d)) : Pushed d := by
  unfold Pushed
  rw [push_all_ok hpush, push_all_append, exceptT_bind_of_ok h, hpush]

/-! Each operation keeps the chains pushed. -/

theorem insert_with_pushed {keep : Chain → Except Abort Bool}
    (h : nfs.insert_with c keep = .ok nfs') (hall : ∀ d ∈ nfs.chain_set, Pushed d)
    (hc : Pushed c) : ∀ d ∈ nfs'.chain_set, Pushed d := by
  intro d hd
  rcases (insert_with_ok h).2.1 d hd with rfl | hd
  · exact hc
  · exact hall d hd

section

variable (hall : ∀ d ∈ nfs.chain_set, Pushed d)
include hall

theorem IsParent.pushed {y : BlockHash} (h : IsParent db nfs y c) : Pushed c := by
  rcases h with ⟨rfl, -⟩ | h
  · rfl
  · obtain ⟨d, hd, hpart, -⟩ := parent_chain_ok h
    exact (hall d hd).part hpart

theorem commit_pushed {b : SemanticallyVerifiedBlock}
    (h : validate_and_commit_non_finalized rules db nfs b = .ok (.ok nfs')) :
    ∀ d ∈ nfs'.chain_set, Pushed d := by
  obtain ⟨-, parent, d, keep, hparent, hd, hins, -⟩ := commit_ok h
  have hpush := (validate_and_commit_ok hd).2
  apply insert_with_pushed hins hall
  apply (hparent.pushed hall).push_all (l := [b])
  rw [push_all, exceptT_bind_of_ok hpush]
  rfl

theorem finalize_pushed {root : ContextuallyVerifiedBlock} (h : nfs.finalize = .ok (root, nfs')) :
    ∀ d ∈ nfs'.chain_set, Pushed d := by
  obtain ⟨best, sides, popped, swept, hset, hblocks, hsides, rfl⟩ := finalize_ok h
  have htail : ∀ s ∈ nfs.chain_set, ∀ a l, s.blocks = a :: l → Pushed ⟨l⟩ := by
    intro s hs a l hs'
    apply Pushed.tail (b := a)
    rw [← hs']
    exact hall s hs
  rw [hset] at htail
  intro d hd
  rcases (finalize_side_chains_ok hsides).2.2 d hd with hd | ⟨s, hs, a, ha, -⟩
  · dsimp only at hd
    split at hd
    · cases hd
    · rw [mem_singleton.mp hd]
      exact htail best mem_cons_self root popped.blocks hblocks
  · exact htail s (mem_cons_of_mem _ hs) a d.blocks ha

theorem invalidate_pushed {r : Except String BlockHash}
    (h : nfs.invalidate_block x = .ok (r, nfs')) : ∀ d ∈ nfs'.chain_set, Pushed d := by
  obtain rfl | ⟨c, hc, -, d, b, rest, left, hcut, hins, rfl⟩ := invalidate_block_ok h
  · exact hall
  obtain ⟨-, ⟨a, more, hblocks, -⟩, -⟩ := invalidate_block_cut hcut
  apply insert_with_pushed hins hall
  apply (hall c hc).part
  rw [hblocks]
  exact prefix_append _ _

theorem reconsider_pushed (h : nfs.reconsider_block x db = .ok (.ok nfs')) :
    ∀ d ∈ nfs'.chain_set, Pushed d := by
  obtain ⟨key, root, rest, parent, d, -, -, hparent, hpush, hins⟩ := reconsider_block_ok h
  exact insert_with_pushed hins hall ((hparent.pushed hall).push_all hpush)

end

end Pushed

section Records

variable {records : InvalidatedBlocks} {nfs nfs' : NonFinalizedState} {x : BlockHash}

theorem Records.sublist {kept : InvalidatedBlocks} (h : Records records)
    (hsub : kept.Sublist records) : Records kept where
  keyed entry hentry := h.keyed entry (hsub.subset hentry)
  keys := h.keys.sublist (hsub.map _)
  count := hsub.length_le.trans h.count

theorem Records.recorded (h : Records records) (b : ContextuallyVerifiedBlock)
    (above : List ContextuallyVerifiedBlock) :
    Records (ZebraCrosslink.recorded records b.height (b :: above)) where
  keyed entry hentry := by
    rcases of_mem_recorded hentry with hold | rfl
    · exact h.keyed entry hold
    · exact ⟨b, rfl, rfl⟩
  keys := (keys_indexInsert h.keys).sublist ((drop_sublist _ _).map _)
  count := by
    unfold ZebraCrosslink.recorded
    dsimp only
    rw [length_drop]
    omega

theorem Records.invalidate {r : Except String BlockHash} (hr : Records nfs.invalidated_blocks)
    (h : nfs.invalidate_block x = .ok (r, nfs')) : Records nfs'.invalidated_blocks := by
  obtain rfl | ⟨c, -, -, d, b, rest, left, -, -, rfl⟩ := invalidate_block_ok h
  · exact hr
  · exact hr.recorded b rest

theorem Records.kept {db : ZebraDb} (h : Records records) : Records (kept_records db records) := by
  unfold kept_records
  split
  · exact h.sublist filter_sublist
  · exact h

end Records

section SettledRuns

variable {name : BlockHash → Block} {rules : ContextRules} {s s' : PowStore} {op : ChainSetOp}

structure PowStore.Sound (name : BlockHash → Block) (s : PowStore) : Prop where
  order : s.InOrder name
  pushed : ∀ c ∈ s.non_finalized_state.chain_set, Pushed c
  records : Records s.non_finalized_state.invalidated_blocks

theorem PowStore.Sound.settled (h : s.Sound name) :
    Settled name s.finalized_state s.non_finalized_state where
  path := h.order.db
  set := h.order.tracked.chainSet
  sorted := h.order.attached.sorted
  named c hc b hb := (h.order.tracked.path c hc).named b (mem_append_right _ hb)
  pushed := h.pushed
  records := h.records
  recorded entry hentry b hb := by
    obtain ⟨l, hl⟩ := h.order.attached.invalidated entry hentry
    exact hl.named b (mem_append_right _ hb)

theorem PowStore.Sound.apply (hk : s.Sound name)
    (hop : ∀ prepared, op = .Commit prepared → Named name prepared) (hclean : s.Clean op)
    (h : s.apply rules op = .ok s') : s'.Sound name := by
  have horder := hk.order.apply hop hclean h
  cases op with
  | Commit prepared =>
    simp only [PowStore.apply, except_bind_ok] at h
    obtain ⟨verdict, hverdict, h⟩ := h
    cases verdict with
    | error err =>
      cases h
      exact hk
    | ok nfs =>
      cases h
      refine ⟨horder, commit_pushed hk.pushed hverdict, ?_⟩
      dsimp only
      rw [commit_records hverdict]
      exact hk.records
  | Finalize =>
    simp only [PowStore.apply, except_bind_ok] at h
    obtain ⟨⟨root, nfs⟩, hfin, db, -, h⟩ := h
    cases h
    refine ⟨horder, finalize_pushed hk.pushed hfin, ?_⟩
    dsimp only
    rw [finalize_records hfin]
    exact hk.records.sublist filter_sublist
  | CrosslinkFinalize x =>
    cases h
    refine ⟨horder, ?_, ?_⟩
    · intro c hc
      apply hk.pushed
      simp only [NonFinalizedState.crosslink_finalize] at hc
      split at hc
      · exact mem_of_mem_filter hc
      · exact hc
    · simp only [NonFinalizedState.crosslink_finalize]
      split
      · exact hk.records
      · exact hk.records
  | Invalidate x =>
    simp only [PowStore.apply, except_bind_ok] at h
    obtain ⟨⟨reply, nfs⟩, hinvalidate, h⟩ := h
    cases h
    exact ⟨horder, invalidate_pushed hk.pushed hinvalidate, hk.records.invalidate hinvalidate⟩
  | Reconsider x =>
    simp only [PowStore.apply, except_bind_ok] at h
    obtain ⟨reply, hreconsider, h⟩ := h
    cases reply with
    | error err =>
      cases h
      exact hk
    | ok nfs =>
      cases h
      refine ⟨horder, reconsider_pushed hk.pushed hreconsider, ?_⟩
      dsimp only
      rw [reconsider_records hreconsider]
      exact hk.records.kept

theorem settled_of_clean_run {db : ZebraDb} (hdb : PowPath name db.blocks) {ops : List ChainSetOp}
    (hops : ∀ prepared, .Commit prepared ∈ ops → Named name prepared)
    (hclean : PowStore.Meets rules PowStore.Clean ops ⟨db, ⟨[], []⟩⟩)
    (hrun : PowStore.run rules ops ⟨db, ⟨[], []⟩⟩ = .ok s) :
    Settled name s.finalized_state s.non_finalized_state := by
  have hstart : PowStore.Sound name ⟨db, ⟨[], []⟩⟩ :=
    ⟨⟨hdb, ⟨by simp, Pairwise.nil, by simp⟩, Tracked.nil⟩, by simp,
      ⟨by simp, nodup_nil, Nat.zero_le _⟩⟩
  have hsound : s.Sound name :=
    PowStore.run_preserves (fun _ _ _ hk => hk.apply) hstart hops hclean hrun
  exact hsound.settled

end SettledRuns

/-! ## The law -/

def PowHistory.Refused (rules : ContextRules) (h : PowHistory) (b : SemanticallyVerifiedBlock) : Prop :=
  ∃ y, validate_and_commit_non_finalized rules h.store.finalized_state h.store.non_finalized_state b =
    .ok (.error (.BlockPreviouslyInvalidated y))

def Descends (name : BlockHash → Block) : BlockHash → BlockHash → Prop :=
  Relation.ReflTransGen fun child parent => (name child).header.previous_block_hash = parent

instance (db : ZebraDb) (nfs : NonFinalizedState) (x : BlockHash) : Decidable (Restorable db nfs x) :=
  decidable_of_iff
    ((∀ c ∈ nfs.chain_set, ∀ b ∈ c.blocks.head?, b.hash ≠ x) ∧
      (∀ c ∈ nfs.chain_set, ∀ d ∈ nfs.chain_set, c.contains_block_hash x = true →
        d.contains_block_hash x = true → c = d) ∧
      (∀ c ∈ nfs.chain_set, ∀ b ∈ c.blocks, b.hash = x →
        (b.height, c.child_blocks b.height) ∈ nfs.invalidated_blocks) ∧
      ∀ entry ∈ nfs.invalidated_blocks, ∀ tip ∈ db.finalized_tip_height, tip ≤ entry.1)
    ⟨fun ⟨h₁, h₂, h₃, h₄⟩ => ⟨h₁, h₂, h₃, h₄⟩, fun h => ⟨h.1, h.2, h.3, h.4⟩⟩

instance (rules : ContextRules) (h : PowHistory) (b : SemanticallyVerifiedBlock) :
    Decidable (h.Refused rules b) :=
  decidable_of_iff ((validate_and_commit_non_finalized rules h.store.finalized_state
      h.store.non_finalized_state b).refusal.isSome = true) (by
    rw [Option.isSome_iff_exists]
    simp only [Verdict.refusal_eq_some]
    rfl)

instance (name : BlockHash → Block) (h : PowHistory) : (op : ChainSetOp) → Decidable (h.Careful name op)
  | .Commit prepared => inferInstanceAs (Decidable (∀ x ∈ h.ever,
      (name x).coinbase_height = some prepared.height → x = prepared.hash ∧ x ∈ h.still))
  | .Finalize => inferInstanceAs (Decidable (∀ c ∈ h.store.non_finalized_state.best_chain,
      ∀ root ∈ c.blocks.head?, ∀ x ∈ h.ever, (name x).coinbase_height ≠ some root.height))
  | .CrosslinkFinalize _ => .isTrue trivial
  | .Invalidate _ => .isTrue trivial
  | .Reconsider _ => .isTrue trivial

namespace Sample

def backOps : List ChainSetOp :=
  fork ++ [.Commit (plain 0 4), .Invalidate (hashAt 0 4), .Reconsider (hashAt 0 4)]

def outOps : List ChainSetOp := fork ++ [.Commit (plain 0 4), .Invalidate (hashAt 0 4), .Finalize]

def unmarked : PowHistory := ⟨⟨origin, ⟨[], []⟩⟩, [], []⟩

theorem fork_and_named {ops : List ChainSetOp}
    (h : ∀ prepared, .Commit prepared ∈ ops → prepared = plain 0 4) :
    ∀ prepared, .Commit prepared ∈ fork ++ ops → Named plainNames prepared := by
  intro prepared hmem
  rcases mem_append.mp hmem with hmem | hmem
  · exact fork_named hmem
  · rw [h prepared hmem]
    exact plain_named 0 4 (by omega) (by omega)

end Sample

namespace Sample

def lostOps : List ChainSetOp := fork ++ [.Invalidate (hashAt 0 2), .Reconsider (hashAt 0 2)]

def finalOps : List ChainSetOp :=
  [.Commit (plain 0 1), .Commit (plain 0 2), .Invalidate (hashAt 0 2), .Reconsider (hashAt 0 2),
    .Finalize, .Finalize]

end Sample

end ZebraCrosslink
