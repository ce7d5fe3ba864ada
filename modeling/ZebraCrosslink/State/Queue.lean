import ZebraCrosslink.Consensus.Transaction
import ZebraCrosslink.Rust.Index
import ZebraCrosslink.State.ChainSet
import ZebraCrosslink.State.Indexed.Transfers

/-!
# Queued blocks

Blocks that wait for their parent. A dequeued block takes all the blocks of its height out of the
second index, so a block of another parent is no longer found there.
-/

open Rust List Index

namespace ZebraCrosslink

def OrderedUtxo.utxo (ordered_utxo : OrderedUtxo) : Utxo :=
  ⟨ordered_utxo.output, ordered_utxo.height, ordered_utxo.from_coinbase⟩

/-! ## The queue -/

structure Sender where
  channel : Nat
  deriving DecidableEq

/-- A queued block with its sender. `new_outputs` has the entries of the map, in some order. -/
structure QueuedSemanticallyVerified extends SemanticallyVerifiedBlock where
  new_outputs : List (OutPoint × OrderedUtxo)
  sender : Sender
  deriving DecidableEq

def QueuedSemanticallyVerified.parent (queued : QueuedSemanticallyVerified) : BlockHash :=
  queued.block.header.previous_block_hash

structure Sent where
  sender : Sender
  error : ValidateContextError
  deriving DecidableEq

structure QueuedBlocks where
  blocks : Map BlockHash QueuedSemanticallyVerified
  by_parent : Index BlockHash BlockHash
  by_height : Index Nat BlockHash
  known_utxos : Map OutPoint Utxo

def insert_utxos (known_utxos : Map OutPoint Utxo) (queued : QueuedSemanticallyVerified) :
    Map OutPoint Utxo :=
  queued.new_outputs.foldl (fun known entry => known.insert entry.1 entry.2.utxo) known_utxos

def remove_utxos (known_utxos : Map OutPoint Utxo) (queued : QueuedSemanticallyVerified) :
    Map OutPoint Utxo :=
  queued.new_outputs.foldl (fun known entry => known.erase entry.1) known_utxos

/-- `blocks.remove(hash)` for the children of a block. -/
def remove_children (blocks : Map BlockHash QueuedSemanticallyVerified) :
    List BlockHash →
      Except Abort (List QueuedSemanticallyVerified × Map BlockHash QueuedSemanticallyVerified)
  | [] => .ok ([], blocks)
  | hash :: rest => do
    let queued ← orAbort (blocks.lookup hash)
      (.expect "block is present if its hash is in by_parent")
    let (children, blocks) ← remove_children (blocks.erase hash) rest
    pure (queued :: children, blocks)

def remove_from_parent (by_parent : Index BlockHash BlockHash) (parent_hash hash : BlockHash) :
    Except Abort (Index BlockHash BlockHash) := do
  let parent_list ← orAbort (by_parent.lookup parent_hash) (.expect "parent is present")
  if hash ∉ parent_list then .error (.assert "hash must be present in parent hash list")
  else if parent_list.card = 1 then pure (by_parent.erase parent_hash)
  else pure (by_parent.insert parent_hash (parent_list.erase hash))

namespace QueuedBlocks

def default : QueuedBlocks := ⟨∅, ∅, ∅, ∅⟩

def queue (self : QueuedBlocks) (new : QueuedSemanticallyVerified) : QueuedBlocks :=
  if new.hash ∈ self.blocks then self
  else {
    blocks := self.blocks.insert new.hash new
    by_parent := self.by_parent.add new.parent new.hash
    by_height := self.by_height.add new.height new.hash
    known_utxos := insert_utxos self.known_utxos new }

/-- The children of a block, in the order in which the set of their hashes is read. -/
def dequeue_children (self : QueuedBlocks) (order : ReadOrder BlockHash) (parent_hash : BlockHash) :
    Except Abort (List QueuedSemanticallyVerified × QueuedBlocks) := do
  let (queued_children, blocks) ←
    remove_children self.blocks (order.read (self.by_parent.get parent_hash))
  pure (queued_children, {
    blocks
    by_parent := self.by_parent.erase parent_hash
    by_height := queued_children.foldl (fun by_height queued => by_height.erase queued.height)
      self.by_height
    known_utxos := queued_children.foldl remove_utxos self.known_utxos })

def prune_block (self : QueuedBlocks) (hash : BlockHash) : Except Abort (Sent × QueuedBlocks) := do
  let expired ← orAbort (self.blocks.lookup hash) (.expect "block is present")
  let by_parent ← remove_from_parent self.by_parent expired.parent hash
  pure (⟨expired.sender, .PrunedBelowFinalizedTip expired.height⟩, { self with
    blocks := self.blocks.erase hash
    by_parent
    known_utxos := remove_utxos self.known_utxos expired })

def prune_blocks : List BlockHash → QueuedBlocks → Except Abort (List Sent × QueuedBlocks)
  | [], self => .ok ([], self)
  | hash :: rest, self => do
    let (answer, self) ← self.prune_block hash
    let (sent, self) ← prune_blocks rest self
    pure (answer :: sent, self)

/-- The hashes below a height, by height, in the order in which each set is read. -/
def hashes_below (self : QueuedBlocks) (order : ReadOrder BlockHash) (split_height : Nat) :
    List BlockHash :=
  ((self.by_height.keys.filter (· < split_height)).sort (· ≤ ·)).flatMap fun height =>
    order.read (self.by_height.get height)

def prune_by_height (self : QueuedBlocks) (order : ReadOrder BlockHash)
    (finalized_tip_height : Nat) : Except Abort (List Sent × QueuedBlocks) :=
  let split_height := finalized_tip_height + 1
  if MAX_HEIGHT < split_height then
    .error (.expect "height after finalized tip won't exceed max height")
  else
    prune_blocks (self.hashes_below order split_height) { self with
      by_height := self.by_height.filter fun height _ => split_height ≤ height }

end QueuedBlocks

open QueuedBlocks

/-! ## Runs -/

inductive QueueOp
  | Queue (new : QueuedSemanticallyVerified)
  | DequeueChildren (order : ReadOrder BlockHash) (parent_hash : BlockHash)
  | PruneByHeight (order : ReadOrder BlockHash) (finalized_tip_height : Nat)

/-- The call panics by design: there is no height above the finalized tip. -/
def QueueOp.AtMaxHeight : QueueOp → Prop
  | .PruneByHeight _ finalized_tip_height => MAX_HEIGHT ≤ finalized_tip_height
  | _ => False

namespace QueuedBlocks

def apply (self : QueuedBlocks) : QueueOp → Except Abort (List Sent × QueuedBlocks)
  | .Queue new => .ok ([], self.queue new)
  | .DequeueChildren order parent_hash => do
    let (_, self) ← self.dequeue_children order parent_hash
    pure ([], self)
  | .PruneByHeight order finalized_tip_height => self.prune_by_height order finalized_tip_height

def run : List QueueOp → QueuedBlocks → Except Abort (List Sent × QueuedBlocks)
  | [], self => .ok ([], self)
  | op :: ops, self => do
    let (sent, self) ← self.apply op
    let (sent', self) ← run ops self
    pure (sent ++ sent', self)

structure Indexes {κ : Type} [DecidableEq κ] (blocks : Map BlockHash QueuedSemanticallyVerified)
    (index : Index κ BlockHash) (key : QueuedSemanticallyVerified → κ) : Prop where
  mem : ∀ k hash, hash ∈ index.get k ↔ ∃ b, blocks.lookup hash = some b ∧ key b = k
  tidy : index.Tidy

structure Agree (q : QueuedBlocks) : Prop where
  by_parent : Indexes q.blocks q.by_parent (·.parent)
  by_height : Indexes q.blocks q.by_height (·.height)

/-- The indexes agree after the call. A call of `prune_by_height` leaves only blocks above the height,
and has sent an error to each block that it removed. -/
def Settled (self : QueuedBlocks) (op : QueueOp) (sent : List Sent) (after : QueuedBlocks) : Prop :=
  after.Agree ∧
  match op with
  | .PruneByHeight _ finalized_tip_height =>
    (∀ hash b, after.blocks.lookup hash = some b → finalized_tip_height < b.height) ∧
    ∀ hash b, self.blocks.lookup hash = some b → hash ∉ after.blocks →
      ⟨b.sender, .PrunedBelowFinalizedTip b.height⟩ ∈ sent
  | _ => True

def AllSettled : List QueueOp → QueuedBlocks → Prop
  | [], _ => True
  | op :: ops, self =>
    match self.apply op with
    | .ok (sent, after) => self.Settled op sent after ∧ AllSettled ops after
    | .error _ => op.AtMaxHeight

def Alone (self : QueuedBlocks) : QueueOp → Prop
  | .DequeueChildren _ parent_hash => ∀ hash b hash' b',
    self.blocks.lookup hash = some b → b.parent = parent_hash →
    self.blocks.lookup hash' = some b' → b'.parent ≠ parent_hash → b'.height ≠ b.height
  | _ => True

def AllAlone : List QueueOp → QueuedBlocks → Prop
  | [], _ => True
  | op :: ops, self => self.Alone op ∧
    match self.apply op with
    | .ok (_, after) => AllAlone ops after
    | .error _ => True

section Steps

variable {self after : QueuedBlocks} {blocks : Map BlockHash QueuedSemanticallyVerified}
  {b : QueuedSemanticallyVerified} {hash parent_hash : BlockHash} {order : ReadOrder BlockHash}
  {l : List BlockHash}

/-! ## Queueing -/

theorem Indexes.empty {κ : Type} [DecidableEq κ] (key : QueuedSemanticallyVerified → κ) :
    Indexes ∅ ∅ key where
  mem k hash := by simp
  tidy := Tidy.empty

theorem Indexes.insert {κ : Type} [DecidableEq κ] {index : Index κ BlockHash}
    {key : QueuedSemanticallyVerified → κ} (h : Indexes blocks index key) (hnew : hash ∉ blocks) :
    Indexes (blocks.insert hash b) (index.add (key b) hash) key where
  mem k hash' := by
    rw [mem_get_add, h.mem, Map.lookup_insert']
    split
    · next heq =>
      rw [heq, Finmap.lookup_eq_none.mpr hnew]
      simp [eq_comm]
    · next hne => simp [hne]
  tidy := h.tidy.add _ _

theorem Agree.queue (h : self.Agree) (new : QueuedSemanticallyVerified) : (self.queue new).Agree := by
  unfold QueuedBlocks.queue
  split
  · exact h
  · next hnew => exact ⟨h.by_parent.insert hnew, h.by_height.insert hnew⟩

/-! ## Dequeueing -/

theorem remove_children_eq (blocks : Map BlockHash QueuedSemanticallyVerified) (hl : l.Nodup)
    (hmem : ∀ hash ∈ l, hash ∈ blocks) : ∃ children, remove_children blocks l =
        .ok (children, l.foldl (fun blocks hash => blocks.erase hash) blocks) ∧
      ∀ b, b ∈ children ↔ ∃ hash ∈ l, blocks.lookup hash = some b := by
  induction l generalizing blocks with
  | nil => exact ⟨[], rfl, by simp⟩
  | cons hash l ih =>
    obtain ⟨hnot, hl⟩ := nodup_cons.mp hl
    obtain ⟨b, hb⟩ := Finmap.mem_iff.mp (hmem hash mem_cons_self)
    have hrest : ∀ hash' ∈ l, (blocks.erase hash).lookup hash' = blocks.lookup hash' := by
      intro hash' hin
      exact Finmap.lookup_erase_ne fun heq => hnot (heq ▸ hin)
    have hkeep : ∀ hash' ∈ l, hash' ∈ blocks.erase hash := by
      intro hash' hin
      obtain ⟨b', hb'⟩ := Finmap.mem_iff.mp (hmem hash' (mem_cons_of_mem _ hin))
      exact Finmap.mem_iff.mpr ⟨b', (hrest hash' hin).trans hb'⟩
    obtain ⟨children, hchildren, hiff⟩ := ih (blocks.erase hash) hl hkeep
    refine ⟨b :: children, ?_, ?_⟩
    · simp [remove_children, hb, orAbort, hchildren, bind, Except.bind, pure, Except.pure]
    · intro b'
      simp only [mem_cons, hiff, exists_eq_or_imp, hb, Option.some.injEq, eq_comm (a := b')]
      refine or_congr Iff.rfl (exists_congr fun hash' => and_congr_right fun hin => ?_)
      rw [hrest hash' hin]

theorem Indexes.dequeue_children (h : Indexes self.blocks self.by_parent (·.parent))
    (order : ReadOrder BlockHash) (parent_hash : BlockHash) :
    ∃ children after, self.dequeue_children order parent_hash = .ok (children, after) ∧
      (∀ b, b ∈ children ↔ ∃ hash, self.blocks.lookup hash = some b ∧ b.parent = parent_hash) ∧
      (∀ hash b, after.blocks.lookup hash = some b ↔
        self.blocks.lookup hash = some b ∧ b.parent ≠ parent_hash) ∧
      after.by_parent = self.by_parent.erase parent_hash ∧
      ∀ height hashes, after.by_height.lookup height = some hashes ↔
        self.by_height.lookup height = some hashes ∧
        ∀ hash b, self.blocks.lookup hash = some b → b.parent = parent_hash → b.height ≠ height := by
  have hread : ∀ hash, hash ∈ order.read (self.by_parent.get parent_hash) ↔
      ∃ b, self.blocks.lookup hash = some b ∧ b.parent = parent_hash := by
    intro hash
    rw [order.mem, h.mem]
  obtain ⟨children, hchildren, hmem⟩ := remove_children_eq self.blocks
    (order.nodup (self.by_parent.get parent_hash)) (by
      intro hash hin
      obtain ⟨b, hb, -⟩ := (hread hash).mp hin
      exact Finmap.mem_of_lookup_eq_some hb)
  have hok : self.dequeue_children order parent_hash = .ok (children, {
      blocks := (order.read (self.by_parent.get parent_hash)).foldl
        (fun blocks hash => blocks.erase hash) self.blocks
      by_parent := self.by_parent.erase parent_hash
      by_height := children.foldl (fun by_height queued => by_height.erase queued.height)
        self.by_height
      known_utxos := children.foldl remove_utxos self.known_utxos }) := by
    unfold QueuedBlocks.dequeue_children
    rw [hchildren]
    rfl
  have hparents : ∀ b, b ∈ children ↔
      ∃ hash, self.blocks.lookup hash = some b ∧ b.parent = parent_hash := by
    intro b
    rw [hmem]
    refine exists_congr fun hash => ?_
    rw [hread, and_comm]
    refine and_congr_right fun hb => ?_
    simp [hb]
  refine ⟨children, _, hok, hparents, ?_, rfl, ?_⟩
  · intro hash b
    simp only
    rw [Map.lookup_foldl_erase fun hash => hash]
    refine and_congr_right fun hb => ?_
    have hin : hash ∈ order.read (self.by_parent.get parent_hash) ↔ b.parent = parent_hash := by
      simp [hread, hb]
    rw [Ne, ← hin]
    exact ⟨fun hout hmem => hout hash hmem rfl, fun hout x hx heq => hout (heq ▸ hx)⟩
  · intro height hashes
    rw [Map.lookup_foldl_erase fun queued : QueuedSemanticallyVerified => queued.height]
    refine and_congr_right fun _ => ?_
    simp only [hparents, forall_exists_index, and_imp]
    exact forall_comm

theorem Indexes.dequeue {blocks' : Map BlockHash QueuedSemanticallyVerified}
    {by_parent : Index BlockHash BlockHash} (h : Indexes blocks by_parent (·.parent))
    (hblocks : ∀ hash b, blocks'.lookup hash = some b ↔
      blocks.lookup hash = some b ∧ b.parent ≠ parent_hash) :
    Indexes blocks' (by_parent.erase parent_hash) (·.parent) where
  mem parent hash := by
    rw [get_erase]
    simp only [hblocks]
    split
    · next heq =>
      simp only [Finset.notMem_empty, false_iff, not_exists, not_and, heq]
      exact fun b hb => hb.2
    · next hne =>
      rw [h.mem]
      refine exists_congr fun b => ?_
      constructor
      · rintro ⟨hb, rfl⟩
        exact ⟨⟨hb, hne⟩, rfl⟩
      · rintro ⟨⟨hb, -⟩, hbp⟩
        exact ⟨hb, hbp⟩
  tidy := h.tidy.erase _

/-! ## Pruning -/

theorem remove_from_parent_eq (h : Indexes self.blocks self.by_parent (·.parent))
    (hb : self.blocks.lookup hash = some b) :
    ∃ by_parent, remove_from_parent self.by_parent b.parent hash = .ok by_parent ∧
      Indexes (self.blocks.erase hash) by_parent (·.parent) := by
  have hin : hash ∈ self.by_parent.get b.parent := (h.mem _ _).mpr ⟨b, hb, rfl⟩
  have hlookup := lookup_of_mem_get hin
  refine ⟨if (self.by_parent.get b.parent).card = 1 then self.by_parent.erase b.parent
    else self.by_parent.insert b.parent ((self.by_parent.get b.parent).erase hash), ?_, ?_⟩
  · unfold remove_from_parent
    simp only [hlookup, orAbort, bind, Except.bind, pure, Except.pure, hin, not_true, if_false]
    split <;> rfl
  · refine ⟨fun parent hash' => ?_, h.tidy.remove hin rfl⟩
    rw [get_remove hlookup hin rfl, Map.lookup_erase']
    by_cases hhash : hash' = hash
    · rw [if_pos hhash]
      subst hhash
      split
      · simp
      · next hne =>
        rw [h.mem, hb]
        simp [Ne.symm hne]
    · rw [if_neg hhash, ← h.mem]
      split
      · next heq => simp [hhash, heq]
      · rfl

theorem prune_block_eq (h : Indexes self.blocks self.by_parent (·.parent))
    (hb : self.blocks.lookup hash = some b) : ∃ after, self.prune_block hash =
        .ok (⟨b.sender, .PrunedBelowFinalizedTip b.height⟩, after) ∧
      after.blocks = self.blocks.erase hash ∧ after.by_height = self.by_height ∧
      Indexes after.blocks after.by_parent (·.parent) := by
  obtain ⟨by_parent, hremove, hindexes⟩ := remove_from_parent_eq h hb
  have hok : self.prune_block hash = .ok (⟨b.sender, .PrunedBelowFinalizedTip b.height⟩, { self with
      blocks := self.blocks.erase hash
      by_parent
      known_utxos := remove_utxos self.known_utxos b }) := by
    unfold prune_block
    simp [hb, orAbort, hremove, bind, Except.bind, pure, Except.pure]
  exact ⟨_, hok, rfl, rfl, hindexes⟩

theorem prune_blocks_eq (self : QueuedBlocks) (hl : l.Nodup) (hmem : ∀ hash ∈ l, hash ∈ self.blocks)
    (h : Indexes self.blocks self.by_parent (·.parent)) :
    ∃ sent after, prune_blocks l self = .ok (sent, after) ∧ (∀ hash, after.blocks.lookup hash =
        if hash ∈ l then none else self.blocks.lookup hash) ∧
      after.by_height = self.by_height ∧ Indexes after.blocks after.by_parent (·.parent) ∧
      ∀ hash ∈ l, ∀ b, self.blocks.lookup hash = some b →
        ⟨b.sender, .PrunedBelowFinalizedTip b.height⟩ ∈ sent := by
  induction l generalizing self with
  | nil => exact ⟨[], self, rfl, by simp, rfl, h, by simp⟩
  | cons hash l ih =>
    obtain ⟨hnot, hl⟩ := nodup_cons.mp hl
    obtain ⟨b, hb⟩ := Finmap.mem_iff.mp (hmem hash mem_cons_self)
    obtain ⟨pruned, hpruned, hblocks, hheight, hindexes⟩ := prune_block_eq h hb
    have hrest : ∀ hash' ∈ l, pruned.blocks.lookup hash' = self.blocks.lookup hash' := by
      intro hash' hin
      rw [hblocks]
      exact Finmap.lookup_erase_ne fun heq => hnot (heq ▸ hin)
    have hkeep : ∀ hash' ∈ l, hash' ∈ pruned.blocks := by
      intro hash' hin
      obtain ⟨b', hb'⟩ := Finmap.mem_iff.mp (hmem hash' (mem_cons_of_mem _ hin))
      exact Finmap.mem_iff.mpr ⟨b', (hrest hash' hin).trans hb'⟩
    obtain ⟨sent, after, hok, hafter, hheight', hindexes', hsent⟩ := ih pruned hl hkeep hindexes
    refine ⟨⟨b.sender, .PrunedBelowFinalizedTip b.height⟩ :: sent, after, ?_, ?_,
      hheight'.trans hheight, hindexes', ?_⟩
    · simp [prune_blocks, hpruned, hok, bind, Except.bind, pure, Except.pure]
    · intro hash'
      rw [hafter, hblocks, Map.lookup_erase']
      by_cases hin : hash' ∈ l <;> simp [hin, mem_cons]
    · intro hash' hin b' hb'
      rcases mem_cons.mp hin with rfl | hin
      · cases hb.symm.trans hb'
        exact mem_cons_self
      · exact mem_cons_of_mem _ (hsent hash' hin b' ((hrest hash' hin).trans hb'))

theorem mem_hashes_below (self : QueuedBlocks) (order : ReadOrder BlockHash) (split_height : Nat)
    (hash : BlockHash) : hash ∈ self.hashes_below order split_height ↔
      ∃ height < split_height, hash ∈ self.by_height.get height := by
  simp only [hashes_below, mem_flatMap, Finset.mem_sort, Finset.mem_filter, Finmap.mem_keys,
    order.mem]
  constructor
  · rintro ⟨height, ⟨-, hlt⟩, hin⟩
    exact ⟨height, hlt, hin⟩
  · rintro ⟨height, hlt, hin⟩
    exact ⟨height, ⟨Finmap.mem_of_lookup_eq_some (lookup_of_mem_get hin), hlt⟩, hin⟩

theorem Agree.nodup_hashes_below (h : self.Agree) (order : ReadOrder BlockHash) (split_height : Nat) :
    (self.hashes_below order split_height).Nodup := by
  unfold hashes_below
  rw [nodup_flatMap]
  refine ⟨fun height _ => order.nodup _, ?_⟩
  apply Pairwise.imp ?_ (Finset.sort_nodup _ _)
  intro height height' hne hash hin hin'
  rw [order.mem, h.by_height.mem] at hin hin'
  obtain ⟨b, hb, rfl⟩ := hin
  obtain ⟨b', hb', rfl⟩ := hin'
  rw [hb, Option.some.injEq] at hb'
  exact hne (by rw [hb'])

theorem Agree.prune_by_height (h : self.Agree) (order : ReadOrder BlockHash) {tip : Nat}
    (htip : tip < MAX_HEIGHT) : ∃ sent after, self.prune_by_height order tip = .ok (sent, after) ∧
      (∀ hash b, after.blocks.lookup hash = some b ↔
        self.blocks.lookup hash = some b ∧ tip < b.height) ∧ after.Agree ∧
      ∀ hash b, self.blocks.lookup hash = some b → b.height ≤ tip →
        ⟨b.sender, .PrunedBelowFinalizedTip b.height⟩ ∈ sent := by
  have hbelow : ∀ hash b, self.blocks.lookup hash = some b →
      (hash ∈ self.hashes_below order (tip + 1) ↔ b.height ≤ tip) := by
    intro hash b hb
    simp only [mem_hashes_below, h.by_height.mem, hb, Option.some.injEq, exists_eq_left']
    constructor
    · rintro ⟨_, hlt, heq⟩
      omega
    · exact fun hle => ⟨_, by omega, rfl⟩
  obtain ⟨sent, after, hok, hblocks, hheight, hparent, hsent⟩ :=
    prune_blocks_eq { self with
      by_height := self.by_height.filter fun height _ => tip + 1 ≤ height }
      (h.nodup_hashes_below order (tip + 1)) (by
        intro hash hin
        obtain ⟨_, -, hin⟩ := (mem_hashes_below ..).mp hin
        obtain ⟨b, hb, -⟩ := (h.by_height.mem _ _).mp hin
        exact Finmap.mem_of_lookup_eq_some hb) h.by_parent
  have hiff : ∀ hash b, after.blocks.lookup hash = some b ↔
      self.blocks.lookup hash = some b ∧ tip < b.height := by
    intro hash b
    rw [hblocks]
    split
    · next hin =>
      simp only [reduceCtorEq, false_iff, not_and, Nat.not_lt]
      exact fun hb => (hbelow hash b hb).mp hin
    · next hout =>
      refine ⟨fun hb => ⟨hb, ?_⟩, fun hb => hb.1⟩
      have := mt (hbelow hash b hb).mpr hout
      omega
  refine ⟨sent, after, ?_, hiff, ⟨hparent, ?_⟩, ?_⟩
  · unfold QueuedBlocks.prune_by_height
    simp only
    rw [if_neg (by omega)]
    exact hok
  · have hlookup : ∀ height, after.by_height.lookup height =
        (self.by_height.lookup height).filter fun _ => tip + 1 ≤ height := by
      intro height
      rw [hheight]
      exact Map.lookup_filter _ _ _
    refine ⟨fun height hash => ?_, fun height hashes hsome => ?_⟩
    · have hget : hash ∈ after.by_height.get height ↔
          tip < height ∧ hash ∈ self.by_height.get height := by
        unfold Index.get
        rw [hlookup]
        cases self.by_height.lookup height with
        | none => simp
        | some hashes => by_cases hle : tip + 1 ≤ height <;> simp [Option.filter, hle] <;> omega
      rw [hget, h.by_height.mem]
      constructor
      · rintro ⟨hlt, b, hb, rfl⟩
        exact ⟨b, (hiff hash b).mpr ⟨hb, hlt⟩, rfl⟩
      · rintro ⟨b, hb, rfl⟩
        obtain ⟨hb, hlt⟩ := (hiff hash b).mp hb
        exact ⟨hlt, b, hb, rfl⟩
    · rw [hlookup, Option.filter_eq_some_iff] at hsome
      exact h.by_height.tidy height hashes hsome.1
  · intro hash b hb hle
    exact hsent hash ((hbelow hash b hb).mpr hle) b hb

/-! ## Whole runs -/

theorem Agree.dequeued_iff (h : self.Agree) (hblocks : ∀ hash b, after.blocks.lookup hash = some b ↔
      self.blocks.lookup hash = some b ∧ b.parent ≠ parent_hash)
    (hparent : after.by_parent = self.by_parent.erase parent_hash)
    (hheight : ∀ height hashes, after.by_height.lookup height = some hashes ↔
      self.by_height.lookup height = some hashes ∧
      ∀ hash b, self.blocks.lookup hash = some b → b.parent = parent_hash → b.height ≠ height) :
    after.Agree ↔ self.Alone (.DequeueChildren order parent_hash) := by
  constructor
  · intro hafter hash b hash' b' hb hbp hb' hbp' heq
    have hin := (hafter.by_height.mem b'.height hash').mpr
      ⟨b', (hblocks hash' b').mpr ⟨hb', hbp'⟩, rfl⟩
    obtain ⟨-, hnone⟩ := (hheight _ _).mp (lookup_of_mem_get hin)
    exact hnone hash b hb hbp heq.symm
  · intro halone
    refine ⟨hparent ▸ h.by_parent.dequeue hblocks, ⟨fun height hash => ?_, fun height hashes hsome => ?_⟩⟩
    · constructor
      · intro hin
        obtain ⟨hlookup, hnone⟩ := (hheight _ _).mp (lookup_of_mem_get hin)
        rw [← get_of_lookup hlookup] at hin
        obtain ⟨b, hb, rfl⟩ := (h.by_height.mem _ _).mp hin
        refine ⟨b, (hblocks hash b).mpr ⟨hb, fun hbp => ?_⟩, rfl⟩
        exact hnone hash b hb hbp rfl
      · rintro ⟨b, hb, rfl⟩
        obtain ⟨hb, hbp⟩ := (hblocks hash b).mp hb
        have hin := (h.by_height.mem b.height hash).mpr ⟨b, hb, rfl⟩
        have hlookup := (hheight _ _).mpr ⟨lookup_of_mem_get hin,
          fun hash' b' hb' hbp' heq => halone hash' b' hash b hb' hbp' hb hbp heq.symm⟩
        rwa [get_of_lookup hlookup]
    · exact h.by_height.tidy height hashes ((hheight _ _).mp hsome).1

theorem Agree.default : default.Agree := ⟨Indexes.empty _, Indexes.empty _⟩

theorem Agree.apply (h : self.Agree) (op : QueueOp) :
    (∃ sent after, self.apply op = .ok (sent, after) ∧
      (self.Settled op sent after ↔ self.Alone op)) ∨
    (op.AtMaxHeight ∧ self.Alone op ∧ ∃ abort, self.apply op = .error abort) := by
  cases op with
  | Queue new =>
    refine .inl ⟨[], _, rfl, ?_⟩
    simp [Settled, Alone, h.queue new]
  | DequeueChildren order parent_hash =>
    obtain ⟨children, after, hok, -, hblocks, hparent, hheight⟩ :=
      h.by_parent.dequeue_children order parent_hash
    refine .inl ⟨[], after, ?_, ?_⟩
    · simp [QueuedBlocks.apply, hok, bind, Except.bind, pure, Except.pure]
    · rw [← h.dequeued_iff hblocks hparent hheight]
      simp [Settled]
  | PruneByHeight order tip =>
    by_cases htip : tip < MAX_HEIGHT
    · obtain ⟨sent, after, hok, hblocks, hafter, hsent⟩ := h.prune_by_height order htip
      refine .inl ⟨sent, after, hok, iff_of_true ⟨hafter, ?_, ?_⟩ trivial⟩
      · exact fun hash b hb => ((hblocks hash b).mp hb).2
      · intro hash b hb hgone
        apply hsent hash b hb
        by_contra hlt
        exact hgone (Finmap.mem_of_lookup_eq_some ((hblocks hash b).mpr ⟨hb, by omega⟩))
    · refine .inr ⟨Nat.le_of_not_lt htip, trivial,
        .expect "height after finalized tip won't exceed max height", ?_⟩
      simp only [QueuedBlocks.apply, QueuedBlocks.prune_by_height]
      rw [if_pos (by omega)]

theorem Agree.all_settled_iff (h : self.Agree) (ops : List QueueOp) :
    AllSettled ops self ↔ AllAlone ops self := by
  induction ops generalizing self with
  | nil => exact Iff.rfl
  | cons op ops ih =>
    rcases h.apply op with ⟨sent, after, hok, hiff⟩ | ⟨hmax, halone, abort, herror⟩
    · simp only [AllSettled, AllAlone, hok, ← hiff]
      exact and_congr_right fun hsettled => ih hsettled.1
    · simp [AllSettled, AllAlone, herror, hmax, halone]

end Steps

/-- The indexes agree and every pruned block is answered, exactly if each call of `dequeue_children`
finds the heights of its blocks free of blocks with other parents. -/
theorem settled_iff_alone (ops : List QueueOp) : AllSettled ops default ↔ AllAlone ops default :=
  Agree.default.all_settled_iff ops

end QueuedBlocks

namespace Sample

def numberLe (a b : BlockHash) : Prop := a.toNat ≤ b.toNat

instance : DecidableRel numberLe := fun a b => inferInstanceAs (Decidable (a.toNat ≤ b.toNat))

instance : IsTrans BlockHash numberLe := ⟨fun _ _ _ => Nat.le_trans⟩

instance : Std.Antisymm numberLe :=
  ⟨fun _ _ h h' => Bytes.eq_of_toNat (Nat.le_antisymm h h')⟩

instance : Std.Total numberLe := ⟨fun a b => Nat.le_total a.toNat b.toNat⟩

def byNumber : ReadOrder BlockHash where
  read s := s.sort numberLe
  nodup s := Finset.sort_nodup s numberLe
  mem _ _ := Finset.mem_sort numberLe

def waiting (side : Nat) : QueuedSemanticallyVerified where
  toSemanticallyVerifiedBlock := plain side 4
  new_outputs := []
  sender := ⟨side⟩

def siblings : List QueueOp :=
  [.Queue (waiting 0), .Queue (waiting 1), .DequeueChildren byNumber (hashAt 0 3),
    .PruneByHeight byNumber 4]

end Sample

open Sample

/-- The block of the other side stays in the queue, and nothing is sent to it. -/
theorem QueuedBlocks.sibling_left_behind : ¬ AllSettled siblings default ∧
      (run siblings default).toOption.map
        (fun r => (r.1, (r.2.blocks.lookup (hashAt 1 4)).map (·.sender))) =
        some ([], some (waiting 1).sender) := by
  refine ⟨?_, by decide +kernel⟩
  rw [Agree.default.all_settled_iff]
  intro h
  have halone : ((default.queue (waiting 0)).queue (waiting 1)).Alone
      (.DequeueChildren byNumber (hashAt 0 3)) := h.2.2.1
  exact halone (hashAt 0 4) (waiting 0) (hashAt 1 4) (waiting 1) rfl rfl rfl (by decide) rfl

end ZebraCrosslink
