import ZebraCrosslink.State.Attached

/-!
# What the worker keeps

The database only grows, all chains continue it, and the best chain that the readers were shown
passes through every block of it.
-/

open Rust List

namespace ZebraCrosslink

theorem ZebraDb.mem_of_contains {db : ZebraDb} {x : BlockHash} (hx : db.contains_hash x = true) :
    ∃ b ∈ db.blocks, b.hash = x := by
  obtain ⟨i, hi⟩ := Option.isSome_iff_exists.mp hx
  obtain ⟨hlt, hix, -⟩ := findIdx?_eq_some_iff_getElem.mp hi
  exact ⟨_, getElem_mem hlt, by simpa using hix⟩

/-! ## Published chains -/

/-- The chains of a snapshot leave the database somewhere. The best one passes through all of it,
also when blocks were finalized after the snapshot. -/
structure Published (Good : List ContextuallyVerifiedBlock → Prop) (db : ZebraDb)
    (snapshot : NonFinalizedState) : Prop where
  chains : ∀ c ∈ snapshot.chain_set,
    ∃ r ≤ db.blocks.length, Good (db.blocks.take r ++ c.blocks)
  best : ∀ c, snapshot.best_chain = some c → c.blocks ≠ [] ∧
    ∃ r ≤ db.blocks.length, Good (db.blocks.take r ++ c.blocks) ∧
      db.blocks <+: db.blocks.take r ++ c.blocks

structure Kept (Good : List ContextuallyVerifiedBlock → Prop) (w : WriteBlockWorkerTask) :
    Prop where
  db : Good w.finalized_state.blocks
  attached : Attached Good w.finalized_state.blocks w.non_finalized_state
  published : Published Good w.finalized_state w.non_finalized_state_sender
  no_chains : w.checkpointing = true →
    w.non_finalized_state.chain_set = [] ∧ w.non_finalized_state_sender.chain_set = []

section Kept

variable {name : BlockHash → Block} {Verified : ContextuallyVerifiedBlock → Prop}
  {Trusted : List ContextuallyVerifiedBlock → ContextuallyVerifiedBlock → Prop}
  {Good : List ContextuallyVerifiedBlock → Prop} {w w' w₁ : WriteBlockWorkerTask} {c : Chain}
  {x : BlockHash} {rules : ContextRules} {db db' : ZebraDb} {n : Nat} {nfs : NonFinalizedState}
  {r : Except String BlockHash} {b : ContextuallyVerifiedBlock}
  (law : Lasting name Verified Trusted Good)

theorem published_nil {snapshot : NonFinalizedState} (h : snapshot.chain_set = []) :
    Published Good db snapshot := by
  constructor
  · simp [h]
  · simp [NonFinalizedState.best_chain, h]

theorem published_of_attached {db : List ContextuallyVerifiedBlock}
    (ha : Attached Good db nfs) (hbest : nfs.best_chain = some c)
    (hne : c.blocks ≠ []) (hdb' : db'.blocks = db ++ c.blocks.take n) : Published Good db' nfs := by
  have hlen : db.length ≤ db'.blocks.length := by simp [hdb']
  have htake : db'.blocks.take db.length = db := by simp [hdb']
  constructor
  · intro d hd
    refine ⟨db.length, hlen, ?_⟩
    rw [htake]
    exact ha.chains d hd
  · intro d hd
    cases hbest.symm.trans hd
    refine ⟨hne, db.length, hlen, ?_, ?_⟩
    · rw [htake]
      exact ha.chains c (mem_of_head? hbest)
    · rw [htake, hdb', prefix_append_right_inj]
      exact take_prefix _ _

/-! ## Moving blocks to the database -/

theorem commit_finalized_direct_ok (h : db.commit_finalized_direct b = .ok db') :
    db'.blocks = db.blocks ++ [b] ∧ b.block.header.previous_block_hash = tipHash db.blocks ∧
      b.height = db.blocks.length := by
  unfold ZebraDb.commit_finalized_direct at h
  simp only [ZebraDb.finalized_tip_hash_eq] at h
  split at h
  · rename_i hempty
    have hnil : db.blocks = [] := isEmpty_iff.mp hempty
    split at h
    · cases h
    rename_i hprev
    split at h
    · cases h
    rename_i hheight
    cases h
    exact ⟨rfl, (not_not.mp hprev).symm, by rw [not_not.mp hheight, hnil]; rfl⟩
  · rename_i hempty
    split at h
    · cases h
    rename_i hheight
    split at h
    · cases h
    rename_i hprev
    cases h
    refine ⟨rfl, (not_not.mp hprev).symm, ?_⟩
    have hne : db.blocks ≠ [] := fun hnil => hempty (by simp [ZebraDb.is_empty, hnil])
    have hpos := length_pos_iff.mpr hne
    simp only [ne_eq, not_not, ZebraDb.finalized_tip_height, ZebraDb.tip,
      getLast?_eq_some_getLast hne, Option.map_some, Option.some.injEq] at hheight
    omega

/-- `n` blocks of the best chain `c` have moved to the database, and nothing was published. -/
structure Moved (Good : List ContextuallyVerifiedBlock → Prop) (c : Chain) (n : Nat)
    (w w' : WriteBlockWorkerTask) : Prop where
  db : w'.finalized_state.blocks = w.finalized_state.blocks ++ c.blocks.take n
  attached : Attached Good w'.finalized_state.blocks w'.non_finalized_state
  sender : w'.non_finalized_state_sender = w.non_finalized_state_sender
  checkpointing : w'.checkpointing = w.checkpointing

theorem Moved.refl (ha : Attached Good w.finalized_state.blocks w.non_finalized_state) (c : Chain) :
    Moved Good c 0 w w := ⟨by simp, ha, rfl, rfl⟩

theorem Moved.cons (h : Moved Good c 1 w w₁)
    (h' : Moved Good ⟨c.blocks.drop 1⟩ n w₁ w') : Moved Good c (1 + n) w w' where
  db := by rw [h'.db, h.db, append_assoc, take_add]
  attached := h'.attached
  sender := h'.sender.trans h.sender
  checkpointing := h'.checkpointing.trans h.checkpointing

theorem update_latest_chain_channels_ok (h : w.update_latest_chain_channels = .ok w') :
    ∃ c, w.non_finalized_state.best_chain = some c ∧ c.blocks ≠ [] ∧
      w' = { w with non_finalized_state_sender := w.non_finalized_state } := by
  unfold WriteBlockWorkerTask.update_latest_chain_channels at h
  split at h
  · cases h
  rename_i c hbest
  split at h
  · cases h
  rename_i hne
  exact ⟨c, hbest, fun hnil => hne (by simp [hnil]), (Except.ok.inj h).symm⟩

/-- The chains that are left once the block `x` is final. -/
def through (x : BlockHash) (nfs : NonFinalizedState) : NonFinalizedState :=
  { nfs with chain_set := nfs.chain_set.filter fun c => c.contains_block_hash x }

theorem crosslink_finalized_cases (h : w.crosslink_finalized x = .ok (r, w')) :
    (∃ c height w₁, (through x w.non_finalized_state).best_chain = some c ∧
        c.height_by_hash x = some height ∧
        { w with non_finalized_state :=
            through x w.non_finalized_state }.update_latest_chain_channels = .ok w₁ ∧
        WriteBlockWorkerTask.finalize_blocks
          (c.blocks.filter fun b => b.height ≤ height).length w₁ = .ok w') ∨
      w' = w ∧ ∀ c ∈ w.non_finalized_state.chain_set, c.contains_block_hash x = false := by
  unfold WriteBlockWorkerTask.crosslink_finalized NonFinalizedState.crosslink_finalize at h
  cases hfind : w.non_finalized_state.find_chain fun c => (c.height_by_hash x).isSome with
  | some c =>
    rw [hfind] at h
    simp only [except_bind_ok] at h
    obtain ⟨w₁, hpublish, w₂, hmove, h⟩ := h
    cases h
    have hx := find?_some hfind
    obtain ⟨height, hheight⟩ := Option.isSome_iff_exists.mp hx
    rw [hheight, Option.getD_some] at hmove
    refine .inl ⟨c, height, w₁, ?_, hheight, hpublish, hmove⟩
    rw [NonFinalizedState.best_chain, through, head?_filter]
    exact hfind
  | none =>
    rw [hfind] at h
    simp only at h
    refine .inr ⟨?_, fun c hc => ?_⟩
    · split at h <;> exact ((Prod.mk.inj (Except.ok.inj h)).2).symm
    · simpa [Chain.contains_block_hash] using find?_eq_none.mp hfind c hc

theorem Attached.through (ha : Attached Good w.finalized_state.blocks w.non_finalized_state) :
    Attached Good w.finalized_state.blocks (through x w.non_finalized_state) where
  chains d hd := ha.chains d (mem_of_mem_filter hd)
  sorted := ha.sorted.sublist filter_sublist
  invalidated := ha.invalidated

def Fits (Verified : ContextuallyVerifiedBlock → Prop)
    (Trusted : List ContextuallyVerifiedBlock → ContextuallyVerifiedBlock → Prop)
    (w : WriteBlockWorkerTask) : WorkerEvent → Prop
  | .CheckpointVerified b => Trusted w.finalized_state.blocks b
  | .Write (.Commit b) => Verified b
  | _ => True

def EventsFit (rules : ContextRules) (Verified : ContextuallyVerifiedBlock → Prop)
    (Trusted : List ContextuallyVerifiedBlock → ContextuallyVerifiedBlock → Prop) :
    List WorkerEvent → WriteBlockWorkerTask → Prop
  | [], _ => True
  | e :: rest, w => Fits Verified Trusted w e ∧
    ∀ w', w.step rules e = .ok w' → EventsFit rules Verified Trusted rest w'

theorem Kept.spawn (h : Good db.blocks) : Kept Good (.spawn db) where
  db := h
  attached := ⟨by simp [WriteBlockWorkerTask.spawn], Pairwise.nil,
    by simp [WriteBlockWorkerTask.spawn]⟩
  published := published_nil rfl
  no_chains _ := ⟨rfl, rfl⟩

/-! ## Steps of the worker -/

/-- The worker is in order after the step, and the database has only grown. -/
structure Grows (Good : List ContextuallyVerifiedBlock → Prop) (w w' : WriteBlockWorkerTask) :
    Prop where
  kept : Kept Good w'
  part : w.finalized_state.blocks <+: w'.finalized_state.blocks

theorem Kept.grows (hk : Kept Good w) : Grows Good w w := ⟨hk, prefix_refl _⟩

include law

section

variable (ha : Attached Good w.finalized_state.blocks w.non_finalized_state)
include ha

theorem finalize_moves (hbest : w.non_finalized_state.best_chain = some c)
    (h : w.finalize = .ok w') : Moved Good c 1 w w' ∧
      (c.blocks.drop 1 ≠ [] → w'.non_finalized_state.best_chain = some ⟨c.blocks.drop 1⟩) := by
  simp only [WriteBlockWorkerTask.finalize, except_bind_ok] at h
  obtain ⟨⟨root, nfs⟩, hfin, db, hcommit, h⟩ := h
  cases h
  obtain ⟨best, rest, hbest', hblocks, hattached, hnext⟩ := ha.finalize law hfin
  cases hbest'.symm.trans hbest
  have hdb := (commit_finalized_direct_ok hcommit).1
  simp only [hblocks, drop_succ_cons, drop_zero]
  exact ⟨⟨by simp [hdb, hblocks], by rw [hdb]; exact hattached, rfl, rfl⟩, hnext⟩

theorem finalize_blocks_moves (hn : n ≤ c.blocks.length)
    (hbest : c.blocks ≠ [] → w.non_finalized_state.best_chain = some c)
    (h : WriteBlockWorkerTask.finalize_blocks n w = .ok w') : Moved Good c n w w' := by
  induction n generalizing w c with
  | zero =>
    cases h
    exact .refl ha c
  | succ n ih =>
    rw [WriteBlockWorkerTask.finalize_blocks, except_bind_ok] at h
    obtain ⟨w₁, hfin, h⟩ := h
    have hne : c.blocks ≠ [] := ne_nil_of_length_pos (by omega)
    obtain ⟨hmoved, hnext⟩ := finalize_moves law ha (hbest hne) hfin
    rw [Nat.add_comm]
    refine hmoved.cons (ih hmoved.attached ?_ hnext h)
    rw [length_drop]
    omega

theorem finalize_past_reorg_limit_moves {fuel : Nat}
    (hbest : w.non_finalized_state.best_chain = some c)
    (h : WriteBlockWorkerTask.finalize_past_reorg_limit fuel w = .ok w') :
    ∃ n, Moved Good c n w w' := by
  induction fuel generalizing w c with
  | zero => cases h
  | succ fuel ih =>
    rw [WriteBlockWorkerTask.finalize_past_reorg_limit, hbest] at h
    simp only at h
    split at h
    · rename_i hlong
      obtain ⟨w₁, hfin, h⟩ := except_bind_ok.mp h
      obtain ⟨hmoved, hnext⟩ := finalize_moves law ha hbest hfin
      have hrest : c.blocks.drop 1 ≠ [] := by
        apply ne_nil_of_length_pos
        rw [length_drop]
        unfold Read.MAX_BLOCK_REORG_HEIGHT at hlong
        omega
      obtain ⟨n, hn⟩ := ih hmoved.attached (hnext hrest) h
      exact ⟨1 + n, hmoved.cons hn⟩
    · cases h
      exact ⟨0, .refl ha c⟩

end

theorem Attached.publish (hopen : w.checkpointing = false)
    (ha : Attached Good w.finalized_state.blocks nfs)
    (hpublish : { w with non_finalized_state := nfs }.update_latest_chain_channels = .ok w₁)
    (hmoves : ∀ c, Attached Good w₁.finalized_state.blocks w₁.non_finalized_state →
      w₁.non_finalized_state.best_chain = some c → ∃ n, Moved Good c n w₁ w') :
    Grows Good w w' := by
  obtain ⟨c, hbest, hne, rfl⟩ := update_latest_chain_channels_ok hpublish
  obtain ⟨n, hmoved⟩ := hmoves c ha hbest
  have hdb := hmoved.db
  simp only at hdb
  refine ⟨⟨?_, hmoved.attached, ?_, ?_⟩, by rw [hdb]; exact prefix_append _ _⟩
  · rw [hdb]
    refine law.left _ (c.blocks.drop n) ?_
    rw [append_assoc, take_append_drop]
    exact ha.chains c (mem_of_head? hbest)
  · rw [hmoved.sender]
    exact published_of_attached ha hbest hne hdb
  · intro hcheck
    rw [hmoved.checkpointing] at hcheck
    exact absurd hcheck (by simp [hopen])

variable (hk : Kept Good w)
include hk

theorem Kept.commit_checkpoint (hopen : w.checkpointing = true)
    (hb : Trusted w.finalized_state.blocks b) (h : w.commit_checkpoint rules b = .ok w') :
    Grows Good w w' := by
  unfold WriteBlockWorkerTask.commit_checkpoint at h
  simp only at h
  split at h
  · cases h
    exact hk.grows
  split at h
  · cases h
    exact hk.grows
  obtain ⟨db, hdb, h⟩ := except_bind_ok.mp h
  cases h
  obtain ⟨hblocks, hprev, hheight⟩ := commit_finalized_direct_ok hdb
  obtain ⟨hchains, hsender⟩ := hk.no_chains hopen
  have hgood := law.checkpoint _ _ hk.db hb hheight hprev
  refine ⟨⟨by simpa [hblocks] using hgood, ⟨?_, hk.attached.sorted, hk.attached.invalidated⟩,
    published_nil hsender, fun _ => ⟨hchains, hsender⟩⟩, by simp [hblocks]⟩
  simp [hchains]

theorem Kept.crosslink_finalized_contains (hx : w.finalized_state.contains_hash x = true ∨
      ∃ c ∈ w.non_finalized_state.chain_set, c.contains_block_hash x = true)
    (h : w.crosslink_finalized x = .ok (r, w')) : ∃ b ∈ w'.finalized_state.blocks, b.hash = x := by
  rcases crosslink_finalized_cases h with ⟨c, height, w₁, hbest, hheight, hpublish, hmove⟩ |
    ⟨rfl, hnone⟩
  · obtain ⟨_, -, -, rfl⟩ := update_latest_chain_channels_ok hpublish
    have hmoved := finalize_blocks_moves law hk.attached.through (length_filter_le _ _)
      (fun _ => hbest) hmove
    obtain ⟨b, hb, hbh⟩ := Option.map_eq_some_iff.mp hheight
    have hbx : b.hash = x := by simpa using find?_some hb
    have hpath := law.path _ (hk.attached.through.chains c (mem_of_head? hbest))
    refine ⟨b, ?_, hbx⟩
    -- the blocks up to `b` are a lower part of the chain
    have hcut := hpath.filter_ge height
    have hmem : b ∈ c.blocks.filter fun b => b.height ≤ height :=
      mem_filter.mpr ⟨mem_of_find?_eq_some hb, by simp [hbh]⟩
    rw [hmoved.db, mem_append]
    refine .inr ?_
    rw [hcut] at hmem ⊢
    rwa [length_take, ← take_take, take_length]
  · rcases hx with hx | ⟨c, hc, hcx⟩
    · exact ZebraDb.mem_of_contains hx
    · rw [hnone c hc] at hcx
      cases hcx

section

variable (hopen : w.checkpointing = false)
include hopen

theorem Kept.commit {b : SemanticallyVerifiedBlock} (hb : Verified b)
    (h : w.commit rules b = .ok w') : Grows Good w w' := by
  unfold WriteBlockWorkerTask.commit at h
  obtain ⟨verdict, hverdict, h⟩ := except_bind_ok.mp h
  cases verdict with
  | error err =>
    cases h
    exact ⟨⟨hk.db, hk.attached, hk.published, hk.no_chains⟩, prefix_refl _⟩
  | ok nfs =>
    have ha : Attached Good w.finalized_state.blocks nfs := by
      unfold WriteBlockWorkerTask.validate_queued at hverdict
      split at hverdict
      · cases hverdict
      · exact hk.attached.validate_and_commit_non_finalized law hk.db hb hverdict
    simp only [except_bind_ok] at h
    obtain ⟨w₁, hpublish, h⟩ := h
    exact ha.publish law hopen hpublish fun c ha' hbest =>
      finalize_past_reorg_limit_moves law ha' hbest h

theorem Kept.crosslink_finalized (h : w.crosslink_finalized x = .ok (r, w')) : Grows Good w w' := by
  rcases crosslink_finalized_cases h with ⟨c, height, w₁, hbest, -, hpublish, hmove⟩ | ⟨rfl, -⟩
  · refine hk.attached.through.publish law hopen hpublish fun d ha hd => ?_
    obtain ⟨_, -, -, rfl⟩ := update_latest_chain_channels_ok hpublish
    cases hbest.symm.trans hd
    exact ⟨_, finalize_blocks_moves law ha (length_filter_le _ _) (fun _ => hd) hmove⟩
  · exact hk.grows

theorem Kept.invalidate (h : w.invalidate x = .ok w') : Grows Good w w' := by
  simp only [WriteBlockWorkerTask.invalidate, except_bind_ok] at h
  obtain ⟨⟨r, nfs⟩, hinv, hpublish⟩ := h
  exact (hk.attached.invalidate_block law hinv).publish law hopen hpublish
    fun c ha _ => ⟨0, .refl ha c⟩

theorem Kept.reconsider (h : w.reconsider x = .ok w') : Grows Good w w' := by
  unfold WriteBlockWorkerTask.reconsider at h
  obtain ⟨verdict, hverdict, h⟩ := except_bind_ok.mp h
  cases verdict with
  | error err => exact hk.attached.publish law hopen h fun c ha _ => ⟨0, .refl ha c⟩
  | ok nfs =>
    exact (hk.attached.reconsider_block law hk.db hverdict).publish law hopen h
      fun c ha _ => ⟨0, .refl ha c⟩

end

theorem Kept.step {e : WorkerEvent} (he : Fits Verified Trusted w e) (h : w.step rules e = .ok w') :
    Grows Good w w' := by
  cases e with
  | CheckpointVerified b =>
    rw [WriteBlockWorkerTask.step] at h
    split at h
    · exact hk.commit_checkpoint law ‹_› he h
    · cases h
      exact hk.grows
  | CheckpointsClosed =>
    cases h
    exact ⟨⟨hk.db, hk.attached, hk.published, nofun⟩, prefix_refl _⟩
  | Write msg =>
    rw [WriteBlockWorkerTask.step] at h
    split at h
    · cases h
      exact hk.grows
    · rename_i hopen
      have hopen : w.checkpointing = false := by simpa using hopen
      cases msg with
      | Commit b => exact hk.commit law hopen he h
      | CrosslinkFinalized x =>
        rw [WriteBlockWorkerTask.handle, except_bind_ok] at h
        obtain ⟨⟨r, w₁⟩, hfin, h⟩ := h
        cases h
        exact hk.crosslink_finalized law hopen hfin
      | Invalidate x => exact hk.invalidate law hopen h
      | Reconsider x => exact hk.reconsider law hopen h

theorem Kept.run {events : List WorkerEvent} (he : EventsFit rules Verified Trusted events w)
    (h : WriteBlockWorkerTask.run rules events w = .ok w') : Grows Good w w' := by
  induction events generalizing w with
  | nil =>
    cases h
    exact hk.grows
  | cons e rest ih =>
    rw [WriteBlockWorkerTask.run, except_bind_ok] at h
    obtain ⟨w₁, hstep, h⟩ := h
    obtain ⟨hk₁, hpart⟩ := hk.step law he.1 hstep
    obtain ⟨hk', hpart'⟩ := ih hk₁ (he.2 w₁ hstep) h
    exact ⟨hk', hpart.trans hpart'⟩

end Kept

end ZebraCrosslink
