import ZebraCrosslink.Chain.Trees
import ZebraCrosslink.State.Reconsider

/-!
# The trees kept for the next finalized block

The write worker keeps the note commitment trees of the block it finalized last, and hands them to
the next commit. `CachedWorker` is the worker with these trees.
-/

open Rust List

namespace ZebraCrosslink

/-! ## The trees of the finalized tip -/

/-- The trees after a block. There is a subtree only where the block completes one. A block that
does not fit into the trees is never written. -/
def NoteCommitmentTrees.extend (hs : TreeHashes) (trees : NoteCommitmentTrees) (block : Block) :
    NoteCommitmentTrees :=
  match { trees with sapling_subtree := none, orchard_subtree := none }.update_trees_parallel hs
      block with
  | .ok (.ok trees) => trees
  | _ => trees

def treesOf (hs : TreeHashes) (blocks : List ContextuallyVerifiedBlock) : NoteCommitmentTrees :=
  blocks.foldl (fun trees b => trees.extend hs b.block) .default

def ZebraDb.note_commitment_trees_for_tip (hs : TreeHashes) (db : ZebraDb) : NoteCommitmentTrees :=
  treesOf hs db.blocks

def ContextRules.withTrees (hs : TreeHashes) (rules : ContextRules) : ContextRules where
  difficulty_threshold_and_time := rules.difficulty_threshold_and_time
  spends_and_anchors := rules.spends_and_anchors
  block_commitment db chain b :=
    match (treesOf hs (db.blocks ++ chain.blocks)).update_trees_parallel hs b.block with
    | .ok (.ok _) => rules.block_commitment db chain b
    | _ => some "note commitment tree error"
  checkpoint db b :=
    match (db.note_commitment_trees_for_tip hs).update_trees_parallel hs b.block with
    | .ok (.ok _) => rules.checkpoint db b
    | _ => some "note commitment tree error"

/-! ## Committing with trees -/

inductive FinalizableBlock
  | Checkpoint (checkpoint_verified : ContextuallyVerifiedBlock)
  | Contextual (contextually_verified : ContextuallyVerifiedBlock)
      (note_commitment_trees : NoteCommitmentTrees)

def FinalizedState.commit_finalized_direct (hs : TreeHashes) (rules : ContextRules) (db : ZebraDb)
    (finalizable_block : FinalizableBlock)
    (prev_note_commitment_trees : Option NoteCommitmentTrees) :
    ExceptT String (Except Abort) (ZebraDb × NoteCommitmentTrees) :=
  match finalizable_block with
  | .Checkpoint b => do
    let prev_note_commitment_trees :=
      prev_note_commitment_trees.getD (db.note_commitment_trees_for_tip hs)
    let note_commitment_trees ← (prev_note_commitment_trees.update_trees_parallel hs b.block).adapt
      fun _ => "note commitment tree error"
    match rules.checkpoint db b with
    | some reason => throw reason
    | none => do
      let db ← liftAbort (db.commit_finalized_direct b)
      pure (db, note_commitment_trees)
  | .Contextual b note_commitment_trees => do
    let db ← liftAbort (db.commit_finalized_direct b)
    pure (db, note_commitment_trees)

/-- What a call of `commit_finalized_direct` was given, and the database it met. -/
structure TreeCall where
  prev_note_commitment_trees : Option NoteCommitmentTrees
  db : ZebraDb

structure CachedWorker where
  task : WriteBlockWorkerTask
  prev_finalized_note_commitment_trees : Option NoteCommitmentTrees
  calls : List TreeCall

namespace CachedWorker

def spawn (db : ZebraDb) : CachedWorker := ⟨.spawn db, none, []⟩

def called (w : CachedWorker) (prev_note_commitment_trees : Option NoteCommitmentTrees) :
    List TreeCall :=
  w.calls ++ [⟨prev_note_commitment_trees, w.task.finalized_state⟩]

def commit_checkpoint (hs : TreeHashes) (rules : ContextRules) (w : CachedWorker)
    (ordered_block : ContextuallyVerifiedBlock) : Except Abort CachedWorker := do
  let db := w.task.finalized_state
  let next_valid_height := (db.finalized_tip_height.map (· + 1)).getD 0
  if ordered_block.height ≠ next_valid_height then pure w
  else do
    let taken := w.prev_finalized_note_commitment_trees
    match ← (FinalizedState.commit_finalized_direct hs rules db (.Checkpoint ordered_block) taken).run
      with
    | .ok (db, note_commitment_trees) =>
      pure ⟨{ w.task with finalized_state := db }, some note_commitment_trees, w.called taken⟩
    | .error _ => pure ⟨w.task, none, w.called taken⟩

/-- One block moves from the chains to the database. It also gives back the trees of the block. -/
def finalize (hs : TreeHashes) (rules : ContextRules) (w : CachedWorker)
    (prev_note_commitment_trees : Option NoteCommitmentTrees) :
    Except Abort (CachedWorker × NoteCommitmentTrees) := do
  let (block, nfs) ← w.task.non_finalized_state.finalize
  let db := w.task.finalized_state
  let treestate := (db.note_commitment_trees_for_tip hs).extend hs block.block
  match ← (FinalizedState.commit_finalized_direct hs rules db (.Contextual block treestate)
    prev_note_commitment_trees).run with
  | .ok (db, note_commitment_trees) =>
    pure (⟨{ w.task with finalized_state := db, non_finalized_state := nfs },
      w.prev_finalized_note_commitment_trees, w.called prev_note_commitment_trees⟩,
      note_commitment_trees)
  | .error _ => .error (.expect "unexpected finalized block commit error")

/-- The loop for a Crosslink-finalized block. It leaves the kept trees as they are. -/
def finalize_blocks (hs : TreeHashes) (rules : ContextRules) :
    Nat → CachedWorker → Except Abort CachedWorker
  | 0, w => .ok w
  | n + 1, w => do
    let (w, _) ← w.finalize hs rules none
    finalize_blocks hs rules n w

def finalize_past_reorg_limit (hs : TreeHashes) (rules : ContextRules) :
    Nat → CachedWorker → Except Abort CachedWorker
  | 0, _ => .error .outOfFuel
  | fuel + 1, w =>
    match w.task.non_finalized_state.best_chain with
    | none => .error (.expect "just successfully inserted a non-finalized block above")
    | some best_chain =>
      if Read.MAX_BLOCK_REORG_HEIGHT < best_chain.blocks.length then do
        let (w, note_commitment_trees) ← w.finalize hs rules w.prev_finalized_note_commitment_trees
        finalize_past_reorg_limit hs rules fuel
          { w with prev_finalized_note_commitment_trees := some note_commitment_trees }
      else .ok w

def commit (hs : TreeHashes) (rules : ContextRules) (w : CachedWorker)
    (queued_child : SemanticallyVerifiedBlock) : Except Abort CachedWorker := do
  match ← (w.task.validate_queued (rules.withTrees hs) queued_child).run with
  | .error err =>
    let errors := indexInsert w.task.parent_error_map queued_child.hash err
    pure { w with task := { w.task with
      parent_error_map := if PARENT_ERROR_MAP_LIMIT < errors.length then errors.drop 1 else errors } }
  | .ok nfs => do
    let task ← { w.task with non_finalized_state := nfs }.update_latest_chain_channels
    finalize_past_reorg_limit hs rules (task.best_chain_len + 1) { w with task }

def crosslink_finalized (hs : TreeHashes) (rules : ContextRules) (w : CachedWorker)
    (hash : BlockHash) : Except Abort CachedWorker :=
  match w.task.non_finalized_state.crosslink_finalize hash with
  | (some newly_finalized_blocks, nfs) => do
    let task ← { w.task with non_finalized_state := nfs }.update_latest_chain_channels
    finalize_blocks hs rules newly_finalized_blocks.length { w with task }
  | (none, nfs) => .ok { w with task := { w.task with non_finalized_state := nfs } }

def handle (hs : TreeHashes) (rules : ContextRules) (w : CachedWorker) :
    NonFinalizedWriteMessage → Except Abort CachedWorker
  | .Commit queued_child => w.commit hs rules queued_child
  | .CrosslinkFinalized hash => w.crosslink_finalized hs rules hash
  | .Invalidate hash => do
    let task ← w.task.invalidate hash
    pure { w with task }
  | .Reconsider hash => do
    let task ← w.task.reconsider hash
    pure { w with task }

def step (hs : TreeHashes) (rules : ContextRules) (w : CachedWorker) :
    WorkerEvent → Except Abort CachedWorker
  | .CheckpointVerified ordered_block =>
    if w.task.checkpointing then w.commit_checkpoint hs rules ordered_block else .ok w
  | .CheckpointsClosed => .ok { w with task := { w.task with checkpointing := false } }
  | .Write msg => if w.task.checkpointing then .ok w else w.handle hs rules msg

abbrev run (hs : TreeHashes) (rules : ContextRules) (events : List WorkerEvent) (w : CachedWorker) :
    Except Abort CachedWorker :=
  Runs.run (·.step hs rules ·) w events

end CachedWorker

open CachedWorker

/-! ## Trees along the database -/

section Trees

variable {hs : TreeHashes} {trees trees' other : NoteCommitmentTrees} {block : Block}

theorem treesOf_append (l l' : List ContextuallyVerifiedBlock) :
    treesOf hs (l ++ l') = l'.foldl (fun trees b => trees.extend hs b.block) (treesOf hs l) :=
  foldl_append

/-- A pool that completed a subtree with the last block gets new notes from this one. Otherwise the
old subtree would stay with the trees. -/
def NoteCommitmentTrees.Renews (trees : NoteCommitmentTrees) (block : Block) : Prop :=
  (block.sapling_note_commitments ≠ [] ∨ trees.sapling_subtree = none) ∧
    (block.orchard_note_commitments ≠ [] ∨ trees.orchard_subtree = none)

theorem NoteCommitmentTrees.same_extend
    (h : trees.update_trees_parallel hs block = .ok (.ok trees')) :
    trees'.Same (trees.extend hs block) ∧ (trees.Renews block → trees' = trees.extend hs block) := by
  have hcleared : trees.Same { trees with sapling_subtree := none, orchard_subtree := none } :=
    ⟨rfl, rfl, rfl⟩
  obtain ⟨fresh, hfresh, hsame, heq⟩ := hcleared.update h
  have hextend : trees.extend hs block = fresh := by
    unfold NoteCommitmentTrees.extend
    rw [hfresh]
  rw [hextend]
  exact ⟨hsame, fun hrenews => (heq hrenews.1 hrenews.2).symm⟩

theorem NoteCommitmentTrees.Same.update_ok_iff (h : trees.Same other) :
    (∃ trees', trees.update_trees_parallel hs block = .ok (.ok trees')) ↔
      ∃ other', other.update_trees_parallel hs block = .ok (.ok other') := by
  constructor
  · rintro ⟨trees', hu⟩
    obtain ⟨other', hu', -⟩ := h.update hu
    exact ⟨other', hu'⟩
  · rintro ⟨other', hu⟩
    obtain ⟨trees', hu', -⟩ := h.symm.update hu
    exact ⟨trees', hu'⟩

end Trees

/-! ## Inversions -/

section Steps

variable {hs : TreeHashes} {rules : ContextRules} {w w' : CachedWorker}
  {prev : Option NoteCommitmentTrees} {trees : NoteCommitmentTrees}
  {R : NoteCommitmentTrees → NoteCommitmentTrees → Prop} {b : ContextuallyVerifiedBlock}
  {name : BlockHash → Block} {e : WorkerEvent}

theorem CachedWorker.finalize_ok (h : w.finalize hs rules prev = .ok (w', trees)) :
    w.task.finalize = .ok w'.task ∧
      w'.prev_finalized_note_commitment_trees = w.prev_finalized_note_commitment_trees ∧
      w'.calls = w.called prev ∧
      trees = w'.task.finalized_state.note_commitment_trees_for_tip hs := by
  simp only [finalize, except_bind_ok] at h
  obtain ⟨⟨block, nfs⟩, hfin, verdict, hcommit, h⟩ := h
  cases verdict with
  | error err => cases h
  | ok r =>
    obtain ⟨db, note_commitment_trees⟩ := r
    cases h
    rw [FinalizedState.commit_finalized_direct] at hcommit
    obtain ⟨db', hdb, hcommit⟩ := exceptT_bind_ok.mp hcommit
    have hdb := liftAbort_ok.mp hdb
    cases hcommit
    refine ⟨?_, rfl, rfl, ?_⟩
    · rw [WriteBlockWorkerTask.finalize, hfin]
      simp only [bind, Except.bind, hdb]
      rfl
    · have hblocks := (commit_finalized_direct_ok hdb).1
      simp [ZebraDb.note_commitment_trees_for_tip, hblocks, treesOf_append]

theorem CachedWorker.finalize_blocks_ok {n : Nat} (h : finalize_blocks hs rules n w = .ok w') :
    WriteBlockWorkerTask.finalize_blocks n w.task = .ok w'.task ∧
      w'.prev_finalized_note_commitment_trees = w.prev_finalized_note_commitment_trees ∧
      ∃ more, w'.calls = w.calls ++ more ∧ ∀ call ∈ more, call.prev_note_commitment_trees = none := by
  induction n generalizing w with
  | zero =>
    cases h
    exact ⟨rfl, rfl, [], by simp⟩
  | succ n ih =>
    rw [finalize_blocks, except_bind_ok] at h
    obtain ⟨⟨w₁, trees⟩, hfin, h⟩ := h
    obtain ⟨htask, hprev, hcalls, -⟩ := finalize_ok hfin
    obtain ⟨htask', hprev', more, hmore, hnone⟩ := ih h
    refine ⟨?_, hprev'.trans hprev, ⟨none, w.task.finalized_state⟩ :: more, ?_, ?_⟩
    · rw [WriteBlockWorkerTask.finalize_blocks, htask]
      exact htask'
    · rw [hmore, hcalls, called, append_assoc, singleton_append]
    · simpa using hnone

/-- The passed trees, if there are any, are in the relation to those of the tip. -/
def TreeCall.Fresh (hs : TreeHashes) (R : NoteCommitmentTrees → NoteCommitmentTrees → Prop)
    (call : TreeCall) : Prop :=
  ∀ t, call.prev_note_commitment_trees = some t → R t (call.db.note_commitment_trees_for_tip hs)

def CachedWorker.Synced (hs : TreeHashes) (R : NoteCommitmentTrees → NoteCommitmentTrees → Prop)
    (w : CachedWorker) : Prop :=
  TreeCall.Fresh hs R ⟨w.prev_finalized_note_commitment_trees, w.task.finalized_state⟩

theorem CachedWorker.finalize_past_reorg_limit_ok (hrefl : ∀ t, R t t) {fuel : Nat}
    (h : finalize_past_reorg_limit hs rules fuel w = .ok w') :
    WriteBlockWorkerTask.finalize_past_reorg_limit fuel w.task = .ok w'.task ∧
      ∃ more, w'.calls = w.calls ++ more ∧
        (w.Synced hs R → w'.Synced hs R ∧ ∀ call ∈ more, call.Fresh hs R) := by
  induction fuel generalizing w with
  | zero => cases h
  | succ fuel ih =>
    unfold finalize_past_reorg_limit at h
    unfold WriteBlockWorkerTask.finalize_past_reorg_limit
    cases hbest : w.task.non_finalized_state.best_chain with
    | none =>
      rw [hbest] at h
      cases h
    | some best_chain =>
      simp only [hbest] at h ⊢
      split at h
      · rename_i hlong
        obtain ⟨⟨w₁, trees⟩, hfin, h⟩ := except_bind_ok.mp h
        obtain ⟨htask, -, hcalls, htrees⟩ := finalize_ok hfin
        obtain ⟨htask', more, hmore, hfresh⟩ := ih h
        rw [if_pos hlong, htask]
        refine ⟨htask', _ :: more, by rw [hmore, hcalls, called, append_assoc,
          singleton_append], fun hsync => ?_⟩
        have hnext : Synced hs R
            { w₁ with prev_finalized_note_commitment_trees := some trees } := by
          intro t ht
          cases ht
          rw [htrees]
          exact hrefl _
        refine ⟨(hfresh hnext).1, fun call hcall => ?_⟩
        rcases mem_cons.mp hcall with rfl | hcall
        · exact hsync
        · exact (hfresh hnext).2 call hcall
      · rename_i hshort
        cases h
        rw [if_neg hshort]
        exact ⟨rfl, [], by simp, fun hsync => ⟨hsync, by simp⟩⟩

theorem CachedWorker.commit_checkpoint_cases (h : w.commit_checkpoint hs rules b = .ok w') :
    b.height ≠ (w.task.finalized_state.finalized_tip_height.map (· + 1)).getD 0 ∧ w' = w ∨
      b.height = (w.task.finalized_state.finalized_tip_height.map (· + 1)).getD 0 ∧
      w'.calls = w.called w.prev_finalized_note_commitment_trees ∧
      ((∃ db trees, (w.prev_finalized_note_commitment_trees.getD
            (w.task.finalized_state.note_commitment_trees_for_tip hs)).update_trees_parallel hs
            b.block = .ok (.ok trees) ∧ rules.checkpoint w.task.finalized_state b = none ∧
          w.task.finalized_state.commit_finalized_direct b = .ok db ∧
          w'.task = { w.task with finalized_state := db } ∧
          w'.prev_finalized_note_commitment_trees = some trees) ∨
        (¬ ((∃ trees, (w.prev_finalized_note_commitment_trees.getD
            (w.task.finalized_state.note_commitment_trees_for_tip hs)).update_trees_parallel hs
            b.block = .ok (.ok trees)) ∧ rules.checkpoint w.task.finalized_state b = none)) ∧
          w'.task = w.task ∧ w'.prev_finalized_note_commitment_trees = none) := by
  unfold commit_checkpoint at h
  simp only at h
  split at h
  · rename_i hheight
    cases h
    exact .inl ⟨hheight, rfl⟩
  rename_i hheight
  refine .inr ⟨not_not.mp hheight, ?_⟩
  obtain ⟨verdict, hverdict, h⟩ := except_bind_ok.mp h
  cases verdict with
  | error err =>
    cases h
    refine ⟨rfl, .inr ⟨?_, rfl, rfl⟩⟩
    rintro ⟨⟨trees, htrees⟩, hnone⟩
    simp only [FinalizedState.commit_finalized_direct, htrees, hnone] at hverdict
    cases hdb : w.task.finalized_state.commit_finalized_direct b with
    | error abort => rw [hdb] at hverdict; cases hverdict
    | ok db => rw [hdb] at hverdict; cases hverdict
  | ok r =>
    obtain ⟨db, trees⟩ := r
    cases h
    rw [FinalizedState.commit_finalized_direct] at hverdict
    obtain ⟨trees', htrees, hverdict⟩ := exceptT_bind_ok.mp hverdict
    have htrees := (exceptT_adapt_ok _ _ _).mp htrees
    split at hverdict
    · cases hverdict
    rename_i hnone
    obtain ⟨db', hdb, hverdict⟩ := exceptT_bind_ok.mp hverdict
    cases hverdict
    exact ⟨rfl, .inl ⟨_, _, htrees, hnone, liftAbort_ok.mp hdb, rfl, rfl⟩⟩

theorem CachedWorker.commit_checkpoint_task
    (hsync : w.Synced hs NoteCommitmentTrees.Same) (h : w.commit_checkpoint hs rules b = .ok w') :
    w.task.commit_checkpoint (rules.withTrees hs) b = .ok w'.task := by
  have hsame : (w.prev_finalized_note_commitment_trees.getD
      (w.task.finalized_state.note_commitment_trees_for_tip hs)).Same
      (w.task.finalized_state.note_commitment_trees_for_tip hs) := by
    cases hprev : w.prev_finalized_note_commitment_trees with
    | none => exact .refl _
    | some t => exact hsync t hprev
  unfold WriteBlockWorkerTask.commit_checkpoint
  simp only [ContextRules.withTrees]
  rcases commit_checkpoint_cases h with ⟨hheight, rfl⟩ | ⟨hheight, -, hcase⟩
  · rw [if_pos hheight]
  rw [if_neg (not_not.mpr hheight)]
  rcases hcase with ⟨db, trees, htrees, hnone, hdb, htask, -⟩ | ⟨hrefused, htask, -⟩
  · obtain ⟨trees', htrees'⟩ := hsame.update_ok_iff.mp ⟨trees, htrees⟩
    simp only [htrees', hnone, hdb, htask]
    rfl
  · rw [hsame.update_ok_iff] at hrefused
    rw [htask]
    split
    · rfl
    · rename_i hpass
      exfalso
      split at hpass
      · exact hrefused ⟨⟨_, ‹_›⟩, hpass⟩
      · cases hpass

theorem CachedWorker.commit_checkpoint_fresh (hrefl : ∀ t, R t t)
    (hkeeps : ∀ t u, R t (w.task.finalized_state.note_commitment_trees_for_tip hs) →
      t.update_trees_parallel hs b.block = .ok (.ok u) →
      R u ((w.task.finalized_state.note_commitment_trees_for_tip hs).extend hs b.block))
    (hsync : w.Synced hs R) (h : w.commit_checkpoint hs rules b = .ok w') :
    w'.Synced hs R ∧ ∃ more, w'.calls = w.calls ++ more ∧ ∀ call ∈ more, call.Fresh hs R := by
  rcases commit_checkpoint_cases h with ⟨-, rfl⟩ | ⟨-, hcalls, hcase⟩
  · exact ⟨hsync, [], by simp, by simp⟩
  refine ⟨?_, _, hcalls, fun call hcall => ?_⟩
  · intro t ht
    rcases hcase with ⟨db, trees, htrees, -, hdb, htask, hprev⟩ | ⟨-, -, hprev⟩
    · cases hprev.symm.trans ht
      have hblocks := (commit_finalized_direct_ok hdb).1
      simp only [htask, ZebraDb.note_commitment_trees_for_tip, hblocks, treesOf_append,
        foldl_cons, foldl_nil]
      apply hkeeps _ _ ?_ htrees
      cases hcache : w.prev_finalized_note_commitment_trees with
      | none => exact hrefl _
      | some t => exact hsync t hcache
    · cases hprev.symm.trans ht
  · obtain rfl := mem_singleton.mp hcall
    exact hsync

def blocksUpTo (x : BlockHash) (nfs : NonFinalizedState) : List ContextuallyVerifiedBlock :=
  match nfs.find_chain fun c => c.contains_block_hash x with
  | some c => c.blocks.filter fun b => b.height ≤ (c.height_by_hash x).getD 0
  | none => []

theorem CachedWorker.crosslink_finalized_ok {x : BlockHash}
    (h : w.crosslink_finalized hs rules x = .ok w') :
    (∃ r, w.task.crosslink_finalized x = .ok (r, w'.task)) ∧
      w'.prev_finalized_note_commitment_trees = w.prev_finalized_note_commitment_trees ∧
      ∃ more, w'.calls = w.calls ++ more ∧ ∀ call ∈ more, call.prev_note_commitment_trees = none := by
  unfold crosslink_finalized at h
  unfold WriteBlockWorkerTask.crosslink_finalized
  generalize w.task.non_finalized_state.crosslink_finalize x = found at h ⊢
  obtain ⟨_ | newly, nfs⟩ := found
  · cases h
    refine ⟨?_, rfl, [], by simp, by simp⟩
    dsimp only
    split
    · exact ⟨_, rfl⟩
    · exact ⟨_, rfl⟩
  · obtain ⟨task, hpublish, h⟩ := except_bind_ok.mp h
    obtain ⟨htask, hprev, more, hcalls, hnone⟩ := finalize_blocks_ok h
    refine ⟨⟨.ok x, ?_⟩, hprev, more, hcalls, hnone⟩
    simp only [bind, Except.bind, hpublish, htask]
    rfl

theorem crosslink_finalized_db {task task' : WriteBlockWorkerTask}
    {x : BlockHash} {r : Except String BlockHash} (hk : Kept (PowPath name) task)
    (h : task.crosslink_finalized x = .ok (r, task')) : task'.finalized_state.blocks =
      task.finalized_state.blocks ++ blocksUpTo x task.non_finalized_state := by
  unfold blocksUpTo NonFinalizedState.find_chain
  rcases crosslink_finalized_cases h with ⟨c, height, task₁, hbest, hheight, hpublish, hmove⟩ |
    ⟨rfl, hnone⟩
  · obtain ⟨_, -, -, rfl⟩ := update_latest_chain_channels_ok hpublish
    have hmoved := finalize_blocks_moves (lasting_powPath name) hk.attached.through
      (length_filter_le _ _) (fun _ => hbest) hmove
    have hpath := hk.attached.through.chains c (mem_of_head? hbest)
    have hcut := hpath.filter_ge height
    rw [NonFinalizedState.best_chain, through, head?_filter] at hbest
    rw [hmoved.db, hbest]
    simp only [hheight, Option.getD_some]
    -- the blocks up to `x` are a lower part of the chain
    rw [hcut, length_take, ← take_take, take_length]
  · have hfind : task'.non_finalized_state.chain_set.find? (fun c => c.contains_block_hash x) = none :=
      find?_eq_none.mpr fun c hc => by simp [hnone c hc]
    rw [hfind, append_nil]

/-! ## Steps and runs -/

/-- The step leaves the trees of the tip in the relation that the kept trees are in. -/
def CachedWorker.Keeps (hs : TreeHashes) (R : NoteCommitmentTrees → NoteCommitmentTrees → Prop)
    (w : CachedWorker) : WorkerEvent → Prop
  | .CheckpointVerified b => ∀ t u,
      R t (w.task.finalized_state.note_commitment_trees_for_tip hs) →
      t.update_trees_parallel hs b.block = .ok (.ok u) →
      R u ((w.task.finalized_state.note_commitment_trees_for_tip hs).extend hs b.block)
  | .Write (.CrosslinkFinalized x) => ∀ t, w.prev_finalized_note_commitment_trees = some t →
      R t (treesOf hs w.task.finalized_state.blocks) →
      R t (treesOf hs (w.task.finalized_state.blocks ++ blocksUpTo x w.task.non_finalized_state))
  | _ => True

theorem CachedWorker.step_task
    (hsync : w.task.checkpointing = true → w.Synced hs NoteCommitmentTrees.Same)
    (h : w.step hs rules e = .ok w') : w.task.step (rules.withTrees hs) e = .ok w'.task := by
  cases e with
  | CheckpointVerified b =>
    rw [step] at h
    rw [WriteBlockWorkerTask.step]
    split at h
    · rename_i hopen
      rw [if_pos hopen]
      exact commit_checkpoint_task (hsync hopen) h
    · rename_i hopen
      cases h
      rw [if_neg hopen]
  | CheckpointsClosed =>
    cases h
    rfl
  | Write msg =>
    rw [step] at h
    rw [WriteBlockWorkerTask.step]
    split at h
    · rename_i hopen
      cases h
      rw [if_pos hopen]
    rename_i hopen
    rw [if_neg hopen]
    cases msg with
    | Commit b =>
      rw [handle, commit, except_bind_ok] at h
      rw [WriteBlockWorkerTask.handle, WriteBlockWorkerTask.commit, except_bind_ok]
      obtain ⟨verdict, hverdict, h⟩ := h
      refine ⟨verdict, hverdict, ?_⟩
      cases verdict with
      | error err =>
        cases h
        rfl
      | ok nfs =>
        simp only [except_bind_ok] at h ⊢
        obtain ⟨task, hpublish, h⟩ := h
        exact ⟨task, hpublish, (finalize_past_reorg_limit_ok (fun _ => rfl) h).1⟩
    | CrosslinkFinalized x =>
      obtain ⟨⟨r, hr⟩, -⟩ := crosslink_finalized_ok h
      rw [WriteBlockWorkerTask.handle, hr]
      rfl
    | Invalidate x =>
      rw [handle, except_bind_ok] at h
      obtain ⟨task, htask, h⟩ := h
      cases h
      exact htask
    | Reconsider x =>
      rw [handle, except_bind_ok] at h
      obtain ⟨task, htask, h⟩ := h
      cases h
      exact htask

theorem CachedWorker.step_fresh (hrefl : ∀ t, R t t) (hk : Kept (PowPath name) w.task)
    (hkeeps : w.Keeps hs R e) (hsync : w.Synced hs R) (h : w.step hs rules e = .ok w') :
    w'.Synced hs R ∧ ∃ more, w'.calls = w.calls ++ more ∧ ∀ call ∈ more, call.Fresh hs R := by
  have hstay : ∀ w' : CachedWorker, w'.calls = w.calls → ∃ more, w'.calls = w.calls ++ more ∧
      ∀ call ∈ more, call.Fresh hs R := fun w' hcalls => ⟨[], by simp [hcalls], by simp⟩
  cases e with
  | CheckpointVerified b =>
    rw [step] at h
    split at h
    · exact commit_checkpoint_fresh hrefl hkeeps hsync h
    · cases h
      exact ⟨hsync, hstay _ rfl⟩
  | CheckpointsClosed =>
    cases h
    exact ⟨hsync, hstay _ rfl⟩
  | Write msg =>
    rw [step] at h
    split at h
    · cases h
      exact ⟨hsync, hstay _ rfl⟩
    cases msg with
    | Commit b =>
      rw [handle, commit, except_bind_ok] at h
      obtain ⟨verdict, -, h⟩ := h
      cases verdict with
      | error err =>
        cases h
        exact ⟨hsync, hstay _ rfl⟩
      | ok nfs =>
        simp only [except_bind_ok] at h
        obtain ⟨task, hpublish, h⟩ := h
        obtain ⟨-, -, -, rfl⟩ := update_latest_chain_channels_ok hpublish
        obtain ⟨-, more, hcalls, hfresh⟩ := finalize_past_reorg_limit_ok hrefl h
        exact ⟨(hfresh hsync).1, more, hcalls, (hfresh hsync).2⟩
    | CrosslinkFinalized x =>
      obtain ⟨⟨r, hr⟩, hprev, more, hcalls, hnone⟩ := crosslink_finalized_ok h
      refine ⟨fun t ht => ?_, more, hcalls, fun call hcall t ht => ?_⟩
      · simp only [hprev] at ht
        simp only [ZebraDb.note_commitment_trees_for_tip, crosslink_finalized_db hk hr]
        exact hkeeps t ht (hsync t ht)
      · rw [hnone call hcall] at ht
        cases ht
    | Invalidate x =>
      rw [handle, except_bind_ok] at h
      obtain ⟨task, htask, h⟩ := h
      cases h
      simp only [WriteBlockWorkerTask.invalidate, except_bind_ok] at htask
      obtain ⟨⟨r, nfs⟩, -, hpublish⟩ := htask
      obtain ⟨-, -, -, rfl⟩ := update_latest_chain_channels_ok hpublish
      exact ⟨hsync, hstay _ rfl⟩
    | Reconsider x =>
      rw [handle, except_bind_ok] at h
      obtain ⟨task, htask, h⟩ := h
      cases h
      rw [WriteBlockWorkerTask.reconsider, except_bind_ok] at htask
      obtain ⟨verdict, -, htask⟩ := htask
      cases verdict with
      | error err =>
        obtain ⟨-, -, -, rfl⟩ := update_latest_chain_channels_ok htask
        exact ⟨hsync, hstay _ rfl⟩
      | ok nfs =>
        obtain ⟨-, -, -, rfl⟩ := update_latest_chain_channels_ok htask
        exact ⟨hsync, hstay _ rfl⟩

abbrev CachedWorker.Meets (hs : TreeHashes) (rules : ContextRules)
    (P : CachedWorker → WorkerEvent → Prop) (events : List WorkerEvent) (w : CachedWorker) : Prop :=
  Runs.Meets (·.step hs rules ·) P w events

/-- What holds of the worker as long as the kept trees are in the relation to those of the tip. -/
structure CachedWorker.InSync (name : BlockHash → Block) (hs : TreeHashes)
    (R : NoteCommitmentTrees → NoteCommitmentTrees → Prop) (w : CachedWorker) : Prop where
  kept : Kept (PowPath name) w.task
  synced : w.Synced hs R
  fresh : ∀ call ∈ w.calls, call.Fresh hs R

theorem CachedWorker.InSync.step (hrefl : ∀ t, R t t) (hsame : ∀ t t', R t t' → t.Same t')
    (hin : w.InSync name hs R) (hnamed : ∀ b, e = .CheckpointVerified b ∨ e = .Write (.Commit b) → Named name b)
    (hkeeps : w.Keeps hs R e) (h : w.step hs rules e = .ok w') : w'.InSync name hs R := by
  obtain ⟨hsync, more, hcalls, hfresh⟩ := step_fresh hrefl hin.kept hkeeps hin.synced h
  have htask := step_task (fun _ t ht => hsame _ _ (hin.synced t ht)) h
  have hfits : Fits (Named name) (fun _ => Named name) w.task e := by
    cases e with
    | CheckpointVerified b => exact hnamed b (.inl rfl)
    | CheckpointsClosed => trivial
    | Write msg =>
      cases msg with
      | Commit b => exact hnamed b (.inr rfl)
      | _ => trivial
  refine ⟨(hin.kept.step (lasting_powPath name) hfits htask).1, hsync, fun call hcall => ?_⟩
  rw [hcalls] at hcall
  rcases mem_append.mp hcall with hcall | hcall
  · exact hin.fresh call hcall
  · exact hfresh call hcall

theorem CachedWorker.InSync.run (hrefl : ∀ t, R t t)
    (hsame : ∀ t t', R t t' → t.Same t') {events : List WorkerEvent}
    (hnamed : ∀ b, .CheckpointVerified b ∈ events ∨ .Write (.Commit b) ∈ events → Named name b)
    (hin : w.InSync name hs R) (hmeets : Meets hs rules (Keeps hs R) events w)
    (h : run hs rules events w = .ok w') : w'.InSync name hs R := by
  refine Runs.run_invariant (InSync name hs R) (fun _ _ _ he hin => hin.step hrefl hsame ?_) hin hmeets h
  rintro b (rfl | rfl)
  · exact hnamed b (.inl he)
  · exact hnamed b (.inr he)

end Steps

/-- A Crosslink finalization meets no kept trees, or blocks that leave the trees as they are. -/
def CachedWorker.Quiet (hs : TreeHashes) (w : CachedWorker) : WorkerEvent → Prop
  | .Write (.CrosslinkFinalized x) => w.prev_finalized_note_commitment_trees = none ∨
      (treesOf hs (w.task.finalized_state.blocks ++ blocksUpTo x w.task.non_finalized_state)).Same
        (treesOf hs w.task.finalized_state.blocks)
  | _ => True

/-- The same for the trees together with their subtrees. Then a checkpoint may leave no subtree
behind either. -/
def CachedWorker.Tight (hs : TreeHashes) (w : CachedWorker) : WorkerEvent → Prop
  | .CheckpointVerified b =>
      (w.task.finalized_state.note_commitment_trees_for_tip hs).Renews b.block
  | .Write (.CrosslinkFinalized x) => w.prev_finalized_note_commitment_trees = none ∨
      treesOf hs (w.task.finalized_state.blocks ++ blocksUpTo x w.task.non_finalized_state) =
        treesOf hs w.task.finalized_state.blocks
  | _ => True

section Quiet

variable {hs : TreeHashes} {rules : ContextRules} {w w' : CachedWorker} {e : WorkerEvent}
  {name : BlockHash → Block}

theorem CachedWorker.Quiet.keeps (h : w.Quiet hs e) : w.Keeps hs NoteCommitmentTrees.Same e := by
  cases e with
  | CheckpointVerified b =>
    intro t u hsame hu
    obtain ⟨tip, htip, hsame', -⟩ := hsame.update hu
    exact hsame'.trans (NoteCommitmentTrees.same_extend htip).1
  | CheckpointsClosed => trivial
  | Write msg =>
    cases msg with
    | CrosslinkFinalized x =>
      intro t ht hsame
      rcases h with hnone | hquiet
      · cases hnone.symm.trans ht
      · exact hsame.trans hquiet.symm
    | _ => trivial

theorem CachedWorker.Tight.keeps (h : w.Tight hs e) : w.Keeps hs Eq e := by
  cases e with
  | CheckpointVerified b =>
    rintro t u rfl hu
    exact (NoteCommitmentTrees.same_extend hu).2 h
  | CheckpointsClosed => trivial
  | Write msg =>
    cases msg with
    | CrosslinkFinalized x =>
      intro t ht heq
      rcases h with hnone | hquiet
      · cases hnone.symm.trans ht
      · exact heq.trans hquiet.symm
    | _ => trivial

theorem CachedWorker.crosslink_finalized_synced {x : BlockHash} (hk : Kept (PowPath name) w.task)
    (hsync : w.Synced hs NoteCommitmentTrees.Same) (h : w.crosslink_finalized hs rules x = .ok w') :
    w'.Synced hs NoteCommitmentTrees.Same ↔ w.Quiet hs (.Write (.CrosslinkFinalized x)) := by
  obtain ⟨⟨r, hr⟩, hprev, -⟩ := crosslink_finalized_ok h
  have hdb := crosslink_finalized_db hk hr
  simp only [Synced, TreeCall.Fresh, hprev, ZebraDb.note_commitment_trees_for_tip, hdb, Quiet]
  constructor
  · intro hsync'
    cases hcache : w.prev_finalized_note_commitment_trees with
    | none => exact .inl rfl
    | some t => exact .inr ((hsync' t hcache).symm.trans (hsync t hcache))
  · rintro (hnone | hquiet) t ht
    · cases hnone.symm.trans ht
    · exact (hsync t ht).trans hquiet.symm

theorem CachedWorker.InSync.spawn {db : ZebraDb}
    {R : NoteCommitmentTrees → NoteCommitmentTrees → Prop} (hdb : PowPath name db.blocks) :
    (spawn db).InSync name hs R where
  kept := .spawn hdb
  synced t ht := by cases ht
  fresh call hcall := by cases hcall

end Quiet

/-- In a run where every Crosslink finalization meets no kept trees, or blocks that leave the trees
as they are, all trees that are passed are those of the finalized tip. After a request that is
different the kept trees are not. -/
theorem cached_trees_of_quiet_run (hs : TreeHashes) (rules : ContextRules)
    (name : BlockHash → Block) (db : ZebraDb) (hdb : PowPath name db.blocks)
    (events : List WorkerEvent)
    (hnamed : ∀ b, .CheckpointVerified b ∈ events ∨ .Write (.Commit b) ∈ events → Named name b)
    (w : CachedWorker) (hrun : CachedWorker.run hs rules events (.spawn db) = .ok w) :
    (CachedWorker.Meets hs rules (CachedWorker.Quiet hs) events (.spawn db) →
      (∀ call ∈ w.calls, ∀ t, call.prev_note_commitment_trees = some t →
        t.Same (call.db.note_commitment_trees_for_tip hs)) ∧
      ∀ x w', w.crosslink_finalized hs rules x = .ok w' →
        ((∀ t, w'.prev_finalized_note_commitment_trees = some t →
            t.Same (w'.task.finalized_state.note_commitment_trees_for_tip hs)) ↔
          w.Quiet hs (.Write (.CrosslinkFinalized x)))) ∧
    (CachedWorker.Meets hs rules (CachedWorker.Tight hs) events (.spawn db) →
      ∀ call ∈ w.calls, ∀ t, call.prev_note_commitment_trees = some t →
        t = call.db.note_commitment_trees_for_tip hs) := by
  constructor
  · intro hquiet
    have hin : w.InSync name hs NoteCommitmentTrees.Same :=
      (InSync.spawn hdb).run .refl (fun _ _ h => h) hnamed (hquiet.imp fun _ _ h => h.keeps) hrun
    exact ⟨hin.fresh, fun x w' hx => crosslink_finalized_synced hin.kept hin.synced hx⟩
  · intro htight
    have hin : w.InSync name hs Eq :=
      (InSync.spawn hdb).run (fun _ => rfl) (fun _ _ h => h ▸ .refl _) hnamed
        (htight.imp fun _ _ h => h.keeps) hrun
    exact hin.fresh

instance (trees trees' : NoteCommitmentTrees) : Decidable (trees.Same trees') :=
  decidable_of_iff (trees.sprout = trees'.sprout ∧ trees.sapling = trees'.sapling ∧
    trees.orchard = trees'.orchard) ⟨fun h => ⟨h.1, h.2.1, h.2.2⟩,
      fun h => ⟨h.sprout, h.sapling, h.orchard⟩⟩

instance (trees : NoteCommitmentTrees) (block : Block) : Decidable (trees.Renews block) :=
  inferInstanceAs (Decidable (_ ∧ _))

instance (hs : TreeHashes) (w : CachedWorker) : (e : WorkerEvent) → Decidable (w.Quiet hs e)
  | .CheckpointVerified _ => .isTrue trivial
  | .CheckpointsClosed => .isTrue trivial
  | .Write (.Commit _) => .isTrue trivial
  | .Write (.CrosslinkFinalized _) => inferInstanceAs (Decidable (_ ∨ _))
  | .Write (.Invalidate _) => .isTrue trivial
  | .Write (.Reconsider _) => .isTrue trivial

instance (hs : TreeHashes) (w : CachedWorker) : (e : WorkerEvent) → Decidable (w.Tight hs e)
  | .CheckpointVerified _ => inferInstanceAs (Decidable (NoteCommitmentTrees.Renews _ _))
  | .CheckpointsClosed => .isTrue trivial
  | .Write (.Commit _) => .isTrue trivial
  | .Write (.CrosslinkFinalized _) => inferInstanceAs (Decidable (_ ∨ _))
  | .Write (.Invalidate _) => .isTrue trivial
  | .Write (.Reconsider _) => .isTrue trivial

namespace Sample

def leftmost : MerkleCrh := ⟨Bytes.zero 32, fun _ left _ => left⟩

def treeHashes : TreeHashes := ⟨leftmost, leftmost, leftmost⟩

def noteTx : Transaction where
  hash := hashAt 200 0
  data := .V5 0 [] [] (some { spends := [], outputs := [hashAt 7 7], value_balance := .zero }) none

def noted (_ height : Nat) : List Transaction := if height = 1 then [noteTx] else []

def noteBlock (height : Nat) : ContextuallyVerifiedBlock := onSide 0 height (noted 0 height)

theorem noteBlock_named {height : Nat} (h : height < 256) :
    Named (sideNames noted) (noteBlock height) := onSide_named noted 0 height (by omega) h

def quietEvents : List WorkerEvent :=
  [.CheckpointVerified (noteBlock 0), .CheckpointVerified (noteBlock 1), .CheckpointsClosed,
    .Write (.Commit (noteBlock 2)), .Write (.CrosslinkFinalized (hashAt 0 2))]

end Sample

open Sample

theorem cached_trees_of_quiet_run_sample :
    ∃ w, CachedWorker.run treeHashes lax quietEvents (.spawn ⟨[]⟩) = .ok w ∧
      (w.calls.map fun call => call.prev_note_commitment_trees.isSome) = [false, true, false] ∧
      ∀ call ∈ w.calls, ∀ t, call.prev_note_commitment_trees = some t →
        t.Same (call.db.note_commitment_trees_for_tip treeHashes) ∧
          t = call.db.note_commitment_trees_for_tip treeHashes := by
  have heval : (run treeHashes lax quietEvents
      (.spawn ⟨[]⟩)).toOption.map (fun w => w.calls.map fun call =>
        call.prev_note_commitment_trees.isSome) = some [false, true, false] := by decide +kernel
  obtain ⟨w, hw, hcalls⟩ := exists_of_toOption_map heval
  have hall := cached_trees_of_quiet_run treeHashes lax (sideNames noted)
    ⟨[]⟩ .nil quietEvents ?_ w hw
  · refine ⟨w, hw, hcalls, fun call hcall t ht => ⟨?_, ?_⟩⟩
    · exact (hall.1 (by decide +kernel)).1 call hcall t ht
    · exact hall.2 (by decide +kernel) call hcall t ht
  · intro b hb
    simp only [quietEvents, mem_cons, WorkerEvent.CheckpointVerified.injEq,
      WorkerEvent.Write.injEq, NonFinalizedWriteMessage.Commit.injEq, not_mem_nil, reduceCtorEq,
      false_or, or_false] at hb
    rcases hb with (rfl | rfl) | rfl <;> exact noteBlock_named (by omega)

namespace Sample

def lagStart : List WorkerEvent :=
  [.CheckpointVerified (noteBlock 0), .CheckpointsClosed, .Write (.Commit (noteBlock 1)),
    .Write (.CrosslinkFinalized (hashAt 0 1)), .Write (.Commit (noteBlock 2))]

def commits (first n : Nat) : List WorkerEvent :=
  (range' first n).map fun i => .Write (.Commit (noteBlock i))

def lagEvents : List WorkerEvent :=
  lagStart ++ (commits 3 98 ++ [.Write (.Commit (noteBlock 101))])

theorem lagEvents_named {b : ContextuallyVerifiedBlock}
    (hb : .CheckpointVerified b ∈ lagEvents ∨ .Write (.Commit b) ∈ lagEvents) :
    Named (sideNames noted) b := by
  have hblock : ∃ i < 256, b = noteBlock i := by
    simp only [lagEvents, lagStart, commits, mem_append, mem_cons, mem_map,
      WorkerEvent.CheckpointVerified.injEq, WorkerEvent.Write.injEq,
      NonFinalizedWriteMessage.Commit.injEq, not_mem_nil, reduceCtorEq, and_false, exists_false,
      false_or, or_false, mem_range'_1] at hb
    rcases hb with rfl | (rfl | rfl) | ⟨i, hi, rfl⟩ | rfl
    · exact ⟨0, by omega, rfl⟩
    · exact ⟨1, by omega, rfl⟩
    · exact ⟨2, by omega, rfl⟩
    · exact ⟨i, by omega, rfl⟩
    · exact ⟨101, by omega, rfl⟩
  obtain ⟨i, hi, rfl⟩ := hblock
  exact noteBlock_named hi

/-- The worker with `n` blocks above the database. -/
def lagging (n : Nat) : CachedWorker :=
  let chains := ⟨[⟨(range' 2 n).map noteBlock⟩], []⟩
  ⟨⟨⟨[noteBlock 0, noteBlock 1]⟩, chains, chains, [], false⟩, some .default,
    [⟨none, ⟨[]⟩⟩, ⟨none, ⟨[noteBlock 0]⟩⟩]⟩

-- the kernel keeps all it computed until a lemma is done, so each part is a lemma of its own
set_option maxRecDepth 1000 in
theorem lagging_commits {k : Nat} (hk : k < 14) :
    run treeHashes lax (commits (7 * k + 3) 7) (lagging (7 * k + 1)) =
      .ok (lagging (7 * k + 8)) := by
  interval_cases k <;> as_aux_lemma => rfl

theorem lagging_run {k : Nat} (hk : k ≤ 14) :
    run treeHashes lax (commits 3 (7 * k)) (lagging 1) = .ok (lagging (7 * k + 1)) := by
  induction k with
  | zero => rfl
  | succ k ih =>
    have hsplit : commits 3 (7 * (k + 1)) = commits 3 (7 * k) ++ commits (7 * k + 3) 7 := by
      rw [commits, commits, commits, ← map_append, Nat.add_comm (7 * k), range'_append_1]
      rfl
    rw [hsplit]
    exact (Runs.run_append_ok (ih (by omega))).trans (lagging_commits hk)

end Sample

/-- The 100 blocks above a finalized block with a note push one out. It is committed with the trees
from before that note. -/
theorem cached_trees_go_stale :
    ∃ w, (∀ b, .CheckpointVerified b ∈ lagEvents ∨ .Write (.Commit b) ∈ lagEvents →
        Named (sideNames noted) b) ∧
      CachedWorker.run treeHashes lax lagEvents (.spawn ⟨[]⟩) = .ok w ∧
      ∃ call ∈ w.calls, ∃ t, call.prev_note_commitment_trees = some t ∧
        ¬ t.Same (call.db.note_commitment_trees_for_tip treeHashes) := by
  have hstart : run treeHashes lax lagStart (.spawn ⟨[]⟩) = .ok (lagging 1) := by rfl
  have hlast : (run treeHashes lax [.Write (.Commit (noteBlock 101))] (lagging 99)).toOption.map
      (fun w => decide (∃ call ∈ w.calls, ∃ t ∈ call.prev_note_commitment_trees,
        ¬ t.Same (call.db.note_commitment_trees_for_tip treeHashes))) = some true := by decide +kernel
  obtain ⟨w, hw, hstale⟩ := exists_of_toOption_map hlast
  refine ⟨w, fun b => lagEvents_named, ?_, of_decide_eq_true hstale⟩
  exact (Runs.run_append_ok hstart).trans ((Runs.run_append_ok (lagging_run le_rfl)).trans hw)

end ZebraCrosslink
