import ZebraCrosslink.Rust.Runs
import ZebraCrosslink.State.Queue

/-!
# Sent blocks

The hashes and UTXOs of the blocks that were sent to the block write task. They are found by
batches, which are meant to be in the order of their heights. The traversal of the queued blocks
keeps this order only if a fork among them ends early.
-/

open Rust List

namespace ZebraCrosslink

structure SentHashes where
  bufs : List (List (BlockHash × Nat))
  curr_buf : List (BlockHash × Nat)
  sent : Map BlockHash (List OutPoint)
  known_utxos : Map OutPoint Utxo

namespace SentHashes

def default : SentHashes := ⟨[], [], ∅, ∅⟩

def add (self : SentHashes) (block : QueuedSemanticallyVerified) : SentHashes where
  bufs := self.bufs
  curr_buf := self.curr_buf ++ [(block.hash, block.height)]
  sent := self.sent.insert block.hash (block.new_outputs.map (·.1))
  known_utxos := insert_utxos self.known_utxos block

def utxo (self : SentHashes) (outpoint : OutPoint) : Option Utxo := self.known_utxos.lookup outpoint

def contains (self : SentHashes) (hash : BlockHash) : Bool := hash ∈ self.sent

def finish_batch (self : SentHashes) : SentHashes :=
  if self.curr_buf.isEmpty then self
  else { self with bufs := self.bufs ++ [self.curr_buf], curr_buf := [] }

def remove (self : SentHashes) (hash : BlockHash) : SentHashes :=
  match self.sent.lookup hash with
  | some expired_outpoints => { self with
    sent := self.sent.erase hash
    known_utxos := expired_outpoints.foldl (fun known outpoint => known.erase outpoint) self.known_utxos }
  | none => self

def prune_buf (height_bound : Nat) :
    List (BlockHash × Nat) → SentHashes → List (BlockHash × Nat) × SentHashes
  | [], self => ([], self)
  | (hash, height) :: buf, self =>
    if height_bound < height then ((hash, height) :: buf, self)
    else prune_buf height_bound buf (self.remove hash)

def retain_bufs (height_bound : Nat) :
    List (List (BlockHash × Nat)) → SentHashes → List (List (BlockHash × Nat)) × SentHashes
  | [], self => ([], self)
  | buf :: bufs, self =>
    let (buf, self) := prune_buf height_bound buf self
    let (bufs, self) := retain_bufs height_bound bufs self
    (if buf.isEmpty then bufs else buf :: bufs, self)

def prune_by_height (self : SentHashes) (height_bound : Nat) : SentHashes :=
  let self := self.finish_batch
  let (bufs, self) := retain_bufs height_bound self.bufs self
  { self with bufs }

end SentHashes

open SentHashes

/-! ## The traversal -/

variable {children : List QueuedSemanticallyVerified} {queue queue' : QueuedBlocks}
  {order : ReadOrder BlockHash} {parent_hash : BlockHash}

theorem remove_children_spec {l : List BlockHash} {blocks blocks' : Map BlockHash QueuedSemanticallyVerified}
    (h : remove_children blocks l = .ok (children, blocks')) :
    blocks'.keys.card + children.length = blocks.keys.card ∧
      ((∀ hash b, blocks.lookup hash = some b → b.hash = hash) → children.map (·.hash) = l) := by
  induction l generalizing blocks children with
  | nil =>
    cases h
    simp
  | cons hash rest ih =>
    simp only [remove_children, except_bind_ok, orAbort_ok] at h
    obtain ⟨queued, hqueued, ⟨children', left⟩, hrest, h⟩ := h
    cases h
    have hmem : hash ∈ blocks.keys := Finmap.mem_keys.mpr (Finmap.mem_of_lookup_eq_some hqueued)
    obtain ⟨hcard, hhashes⟩ := ih hrest
    refine ⟨?_, fun hkeyed => ?_⟩
    · rw [Finmap.keys_erase] at hcard
      rw [length_cons, ← Finset.card_erase_add_one hmem, ← hcard]
      rfl
    · rw [map_cons, hkeyed hash queued hqueued, hhashes fun k b hb => ?_]
      rw [Map.lookup_erase'] at hb
      split at hb
      · cases hb
      · exact hkeyed k b hb

theorem dequeue_children_spec (h : queue.dequeue_children order parent_hash = .ok (children, queue')) :
    queue'.blocks.keys.card + children.length = queue.blocks.keys.card ∧
      ((∀ hash b, queue.blocks.lookup hash = some b → b.hash = hash) →
        children.map (·.hash) = order.read (queue.by_parent.get parent_hash)) := by
  obtain ⟨⟨removed, blocks⟩, hremoved, h⟩ := except_bind_ok.mp h
  cases h
  exact remove_children_spec hremoved

/-- The blocks that the loop of `send_ready_non_finalized_queued` adds, in their order. The last of
`new_parents` comes first here. `sends` says which messages the block write task takes. -/
def ready_blocks (order : ReadOrder BlockHash) (sends : BlockHash → Bool) (new_parents : List BlockHash)
    (queue : QueuedBlocks) : Except Abort (List QueuedSemanticallyVerified × Bool) :=
  match new_parents with
  | [] => .ok ([], true)
  | parent_hash :: rest =>
    match _h : queue.dequeue_children order parent_hash with
    | .error abort => .error abort
    | .ok (queued_children, queue') =>
      if queued_children.all fun child => sends child.hash then do
        let (blocks, finished) ←
          ready_blocks order sends ((queued_children.map (·.hash)).reverse ++ rest) queue'
        pure (queued_children ++ blocks, finished)
      else
        .ok (queued_children.takeWhile (fun child => sends child.hash) ++
          (queued_children.dropWhile fun child => sends child.hash).take 1, false)
termination_by new_parents.length + queue.blocks.keys.card
decreasing_by
  have := (dequeue_children_spec _h).1
  simp only [length_append, length_reverse, length_map, length_cons]
  omega

/-! ## The queued tree -/

def QueuedSemanticallyVerified.NamedBy (name : BlockHash → Nat × List OutPoint)
    (b : QueuedSemanticallyVerified) : Prop :=
  (b.height, b.new_outputs.map (·.1)) = name b.hash

/-- The block is in the queue. -/
def QueuedBlocks.Waits (q : QueuedBlocks) (b : QueuedSemanticallyVerified) : Prop :=
  q.blocks.lookup b.hash = some b

/-- The blocks are found by their hashes and their parents, the height and the outputs of a block are those
that its hash names, and heights follow the parents. -/
structure QueuedBlocks.Placed (name : BlockHash → Nat × List OutPoint) (q : QueuedBlocks) : Prop where
  indexed : Indexes q.blocks q.by_parent (·.parent)
  hashed : ∀ hash b, q.blocks.lookup hash = some b → b.hash = hash
  named : ∀ b, q.Waits b → b.NamedBy name
  above : ∀ b, q.Waits b → b.height = (name b.parent).1 + 1

/-- If a block has grandchildren in the queue, then no other block with its parent has children there. -/
def QueuedBlocks.Slim (q : QueuedBlocks) : Prop :=
  ∀ b c d e f, q.Waits b → q.Waits c → q.Waits d → q.Waits e → q.Waits f → b.parent = c.parent →
    d.parent = b.hash → e.parent = d.hash → f.parent = c.hash → b.hash = c.hash

variable {name : BlockHash → Nat × List OutPoint} {sends : BlockHash → Bool} {parents : List BlockHash}
  {height : Nat} {blocks : List QueuedSemanticallyVerified} {finished : Bool}

theorem QueuedBlocks.Placed.of_queued {l : List QueuedSemanticallyVerified}
    (h : ∀ b ∈ l, b.NamedBy name ∧ b.height = (name b.parent).1 + 1) :
    (l.foldl QueuedBlocks.queue .default).Placed name ∧
      ∀ b, (l.foldl QueuedBlocks.queue .default).Waits b → b ∈ l := by
  obtain ⟨hagree, hblocks⟩ := foldlRecOn (motive := fun q : QueuedBlocks =>
      q.Agree ∧ ∀ hash b, q.blocks.lookup hash = some b → b.hash = hash ∧ b ∈ l) l QueuedBlocks.queue
      ⟨Agree.default, nofun⟩ fun q ⟨hagree, hmem⟩ new hnew => by
    refine ⟨hagree.queue new, fun hash b hb => ?_⟩
    unfold QueuedBlocks.queue at hb
    split at hb
    · exact hmem hash b hb
    · rw [Map.lookup_insert'] at hb
      split at hb
      · next heq => exact Option.some.inj hb ▸ ⟨heq.symm, hnew⟩
      · exact hmem hash b hb
  have hin := fun (b : QueuedSemanticallyVerified) hb => (hblocks b.hash b hb).2
  exact ⟨⟨hagree.by_parent, fun hash b hb => (hblocks hash b hb).1, fun b hb => (h b (hin b hb)).1,
    fun b hb => (h b (hin b hb)).2⟩, hin⟩

theorem QueuedBlocks.Placed.height_hash (h : queue.Placed name) {b : QueuedSemanticallyVerified}
    (hb : queue.Waits b) : (name b.hash).1 = (name b.parent).1 + 1 := by
  rw [← h.named b hb, h.above b hb]

/-- What a call of `dequeue_children` does. -/
structure Dequeued (name : BlockHash → Nat × List OutPoint) (order : ReadOrder BlockHash)
    (parent_hash : BlockHash) (queue : QueuedBlocks) (children : List QueuedSemanticallyVerified)
    (queue' : QueuedBlocks) : Prop where
  placed : queue.Placed name
  hashes : children.map (·.hash) = order.read (queue.by_parent.get parent_hash)
  mem : ∀ b, b ∈ children ↔ queue.Waits b ∧ b.parent = parent_hash
  left : ∀ b, queue'.Waits b ↔ queue.Waits b ∧ b.parent ≠ parent_hash

theorem QueuedBlocks.Placed.dequeue (h : queue.Placed name) (order : ReadOrder BlockHash)
    (parent_hash : BlockHash) :
    ∃ children queue', queue.dequeue_children order parent_hash = .ok (children, queue') ∧
      Dequeued name order parent_hash queue children queue' ∧ queue'.Placed name := by
  obtain ⟨children, queue', hok, hchildren, hblocks, hparent, -⟩ :=
    h.indexed.dequeue_children order parent_hash
  refine ⟨children, queue', hok, ⟨h, (dequeue_children_spec hok).2 h.hashed, fun b => (hchildren b).trans
    ⟨?_, fun hb => ⟨b.hash, hb⟩⟩, fun b => hblocks b.hash b⟩, hparent ▸ h.indexed.dequeue hblocks,
    fun hash b hb => ?_, fun b hb => ?_, fun b hb => ?_⟩
  · rintro ⟨hash, hb, hparent⟩
    obtain rfl := h.hashed hash b hb
    exact ⟨hb, hparent⟩
  · exact h.hashed hash b ((hblocks hash b).mp hb).1
  · exact h.named b ((hblocks _ b).mp hb).1
  · exact h.above b ((hblocks _ b).mp hb).1

/-- The steps of the loop, from a stack and a queue to the blocks that are added. -/
inductive Traversed (name : BlockHash → Nat × List OutPoint) (order : ReadOrder BlockHash)
    (sends : BlockHash → Bool) : List BlockHash → QueuedBlocks → List QueuedSemanticallyVerified → Prop
  | nil (queue : QueuedBlocks) : Traversed name order sends [] queue []
  | next {parent_hash : BlockHash} {parents : List BlockHash} {queue queue' : QueuedBlocks}
      {children blocks : List QueuedSemanticallyVerified}
      (dequeued : Dequeued name order parent_hash queue children queue')
      (rest : Traversed name order sends ((children.map (·.hash)).reverse ++ parents) queue' blocks) :
      Traversed name order sends (parent_hash :: parents) queue (children ++ blocks)
  | stop {parent_hash : BlockHash} {parents : List BlockHash} {queue queue' : QueuedBlocks}
      {children blocks : List QueuedSemanticallyVerified}
      (dequeued : Dequeued name order parent_hash queue children queue')
      (failed : ¬ children.all (fun child => sends child.hash) = true) (sub : blocks ⊆ children) :
      Traversed name order sends (parent_hash :: parents) queue blocks

theorem ready_blocks_traversed (hplaced : queue.Placed name) (order : ReadOrder BlockHash)
    (sends : BlockHash → Bool) (parents : List BlockHash) :
    ∃ blocks finished, ready_blocks order sends parents queue = .ok (blocks, finished) ∧
      Traversed name order sends parents queue blocks := by
  fun_induction ready_blocks order sends parents queue with
  | case1 queue => exact ⟨[], true, rfl, .nil queue⟩
  | case2 queue parent_hash rest abort heq =>
    obtain ⟨_, _, hok, -⟩ := hplaced.dequeue order parent_hash
    cases heq.symm.trans hok
  | case3 queue parent_hash rest children queue' heq hall ih =>
    obtain ⟨_, _, hok, hdequeued, hplaced'⟩ := hplaced.dequeue order parent_hash
    cases heq.symm.trans hok
    obtain ⟨blocks, finished, hready, hrest⟩ := ih hplaced'
    exact ⟨children ++ blocks, finished, by rw [hready]; rfl, .next hdequeued hrest⟩
  | case4 queue parent_hash rest children queue' heq hall =>
    obtain ⟨_, _, hok, hdequeued, -⟩ := hplaced.dequeue order parent_hash
    cases heq.symm.trans hok
    exact ⟨_, false, rfl, .stop hdequeued hall (append_subset.mpr
      ⟨takeWhile_subset _, fun b hb => dropWhile_subset _ (take_subset _ _ hb)⟩)⟩

/-! ## The order of the additions -/

/-- What the stack of parents keeps: those with children are at the height, and one that has grandchildren
is the only one with children. -/
structure Stacked (name : BlockHash → Nat × List OutPoint) (q : QueuedBlocks) (parents : List BlockHash)
    (height : Nat) : Prop where
  level : ∀ b, q.Waits b → b.parent ∈ parents → (name b.parent).1 = height
  lone : ∀ b c d, q.Waits b → q.Waits c → q.Waits d → b.parent ∈ parents → c.parent = b.hash →
    d.parent ∈ parents → d.parent = b.parent

section Steps

variable (hdequeued : Dequeued name order parent_hash queue children queue')

include hdequeued

theorem Dequeued.slim (h : queue.Slim) : queue'.Slim := by
  have hold : ∀ b, queue'.Waits b → queue.Waits b := fun b hb => ((hdequeued.left b).mp hb).1
  exact fun b c d e f hb hc hd he hf =>
    h b c d e f (hold b hb) (hold c hc) (hold d hd) (hold e he) (hold f hf)

theorem Stacked.next (hslim : queue.Slim) (h : Stacked name queue (parent_hash :: parents) height) :
    ∃ next, height ≤ next ∧ Stacked name queue' ((children.map (·.hash)).reverse ++ parents) next := by
  have hmem : ∀ x ∈ (children.map (·.hash)).reverse ++ parents,
      (∃ b, (queue.Waits b ∧ b.parent = parent_hash) ∧ b.hash = x) ∨ x ∈ parents := by simp [hdequeued.mem]
  have hold : ∀ b, queue'.Waits b → queue.Waits b := fun b hb => ((hdequeued.left b).mp hb).1
  by_cases hdeep : ∃ b c, queue.Waits b ∧ queue.Waits c ∧ b.parent = parent_hash ∧ c.parent = b.hash
  · obtain ⟨b, c, hb, hc, rfl, hcb⟩ := hdeep
    -- so no other parent has children, and only one of the children has some
    have hnew : ∀ d, queue'.Waits d → d.parent ∈ (children.map (·.hash)).reverse ++ parents →
        ∃ a, (queue.Waits a ∧ a.parent = b.parent) ∧ a.hash = d.parent := by
      intro d hd hin
      refine (hmem _ hin).resolve_right fun hin => ((hdequeued.left d).mp hd).2 ?_
      exact h.lone b c d hb hc (hold d hd) mem_cons_self hcb (mem_cons_of_mem _ hin)
    refine ⟨height + 1, Nat.le_succ _, fun d hd hin => ?_, fun d e f hd he hf hdin hed hfin => ?_⟩
    · obtain ⟨a, ⟨ha, hab⟩, hda⟩ := hnew d hd hin
      rw [← hda, hdequeued.placed.height_hash ha, hab, h.level b hb mem_cons_self]
    · obtain ⟨a, ⟨ha, hab⟩, hda⟩ := hnew d hd hdin
      obtain ⟨a', ⟨ha', hab'⟩, hfa⟩ := hnew f hf hfin
      rw [← hda, ← hfa]
      exact (hslim a a' d e f ha ha' (hold d hd) (hold e he) (hold f hf) (hab.trans hab'.symm) hda.symm
        hed hfa.symm).symm
  · have hstay : ∀ d, queue'.Waits d → d.parent ∈ (children.map (·.hash)).reverse ++ parents →
        d.parent ∈ parent_hash :: parents := by
      intro d hd hin
      rcases hmem _ hin with ⟨a, ⟨ha, hap⟩, hda⟩ | hin
      · exact absurd ⟨a, d, ha, hold d hd, hap, hda.symm⟩ hdeep
      · exact mem_cons_of_mem _ hin
    refine ⟨height, le_rfl, fun d hd hin => h.level d (hold d hd) (hstay d hd hin), ?_⟩
    exact fun d e f hd he hf hdin hed hfin =>
      h.lone d e f (hold d hd) (hold e he) (hold f hf) (hstay d hd hdin) hed (hstay f hf hfin)

theorem Stacked.ordered (h : Stacked name queue (parent_hash :: parents) height) (hsub : blocks ⊆ children) :
    blocks.Pairwise (·.height ≤ ·.height) ∧ ∀ b ∈ blocks, b.height = height + 1 ∧ b.NamedBy name := by
  have hall : ∀ b ∈ blocks, b.height = height + 1 ∧ b.NamedBy name := by
    intro b hb
    obtain ⟨hb, rfl⟩ := (hdequeued.mem b).mp (hsub hb)
    exact ⟨h.level b hb mem_cons_self ▸ hdequeued.placed.above b hb, hdequeued.placed.named b hb⟩
  exact ⟨pairwise_of_forall_mem_list fun a ha b hb => ((hall a ha).1.trans (hall b hb).1.symm).le, hall⟩

end Steps

/-- By induction on the steps, with `Stacked` as the invariant. -/
theorem Traversed.ordered (h : Traversed name order sends parents queue blocks) (hslim : queue.Slim)
    (hstacked : Stacked name queue parents height) :
    blocks.Pairwise (·.height ≤ ·.height) ∧ ∀ b ∈ blocks, height < b.height ∧ b.NamedBy name := by
  induction h generalizing height with
  | nil => simp
  | next hdequeued _ ih =>
    obtain ⟨next, hle, hnext⟩ := hstacked.next hdequeued hslim
    obtain ⟨hsorted, hall⟩ := hstacked.ordered hdequeued (Subset.refl _)
    obtain ⟨hsorted', hall'⟩ := ih (hdequeued.slim hslim) hnext
    refine ⟨pairwise_append.mpr ⟨hsorted, hsorted', fun a ha b hb => ?_⟩, fun b hb => ?_⟩
    · rw [(hall a ha).1]
      exact hle.trans_lt (hall' b hb).1
    · rcases mem_append.mp hb with hb | hb
      · exact ⟨(hall b hb).1.ge, (hall b hb).2⟩
      · exact ⟨hle.trans_lt (hall' b hb).1, (hall' b hb).2⟩
  | stop hdequeued _ hsub =>
    obtain ⟨hsorted, hall⟩ := hstacked.ordered hdequeued hsub
    exact ⟨hsorted, fun b hb => ⟨(hall b hb).1.ge, (hall b hb).2⟩⟩

/-! ## Forks that do not end early -/

theorem Traversed.mem {f : QueuedSemanticallyVerified} (hf : queue.Waits f)
    (h : Traversed name order (fun _ => true) parents queue blocks) (hmem : f.parent ∈ parents) : f ∈ blocks := by
  induction h with
  | nil => cases hmem
  | @next parent_hash _ _ _ _ _ hdequeued _ ih =>
    by_cases hparent : f.parent = parent_hash
    · exact mem_append_left _ ((hdequeued.mem f).mpr ⟨hf, hparent⟩)
    · exact mem_append_right _ (ih ((hdequeued.left f).mpr ⟨hf, hparent⟩)
        (mem_append_right _ (mem_of_ne_of_mem hparent hmem)))
  | stop _ hfailed => simp at hfailed

theorem Dequeued.hash_ne {b f : QueuedSemanticallyVerified}
    (h : Dequeued name order parent_hash queue children queue') (hb : b ∈ children) (hf : queue.Waits f)
    (hne : f.parent ≠ parent_hash) : b.hash ≠ f.hash := by
  intro hsame
  obtain ⟨hb, hparent⟩ := (h.mem b).mp hb
  rw [QueuedBlocks.Waits, hsame, hf] at hb
  exact hne (Option.some.inj hb ▸ hparent)

/-- The loop empties the part of the stack above the parent of `f` first, which has `e` among its children
or grandchildren. -/
theorem Traversed.late {upper lower : List BlockHash} {e f : QueuedSemanticallyVerified}
    (h : Traversed name order (fun _ => true) (upper ++ lower) queue blocks) (he : queue.Waits e)
    (hf : queue.Waits f) (hupper : ∀ x ∈ upper, (name f.parent).1 ≤ (name x).1 ∧ f.parent ≠ x)
    (hlower : f.parent ∈ lower)
    (hreach : e.parent ∈ upper ∨ ∃ d, queue.Waits d ∧ d.hash = e.parent ∧ d.parent ∈ upper) :
    ∃ before after, blocks = before ++ e :: after ∧ f ∈ after ∧ ∀ b ∈ before, b.hash ≠ f.hash := by
  generalize hparents : upper ++ lower = parents at h
  induction h generalizing upper with
  | nil => simp [(append_eq_nil_iff.mp hparents).2] at hlower
  | @next _ _ _ queue' children more hdequeued hrest ih =>
    cases upper with
    | nil => simp at hreach
    | cons x upper =>
      obtain ⟨rfl, rfl⟩ := cons.inj hparents
      obtain ⟨⟨hle, hne⟩, hupper⟩ := forall_mem_cons.mp hupper
      have hother : ∀ b ∈ children, b.hash ≠ f.hash := fun b hb => hdequeued.hash_ne hb hf hne
      have hf' : queue'.Waits f := (hdequeued.left f).mpr ⟨hf, hne⟩
      by_cases hex : e.parent = x
      · obtain ⟨before, after, rfl⟩ := append_of_mem ((hdequeued.mem e).mpr ⟨he, hex⟩)
        exact ⟨before, after ++ more, by simp, mem_append_right _ (hrest.mem hf' (by simp [hlower])),
          fun b hb => hother b (mem_append_left _ hb)⟩
      · have hupper' : ∀ y ∈ (children.map (·.hash)).reverse ++ upper,
            (name f.parent).1 ≤ (name y).1 ∧ f.parent ≠ y := by
          refine forall_mem_append.mpr ⟨fun y hy => ?_, hupper⟩
          obtain ⟨b, hb, rfl⟩ := mem_map.mp (mem_reverse.mp hy)
          obtain ⟨hb, rfl⟩ := (hdequeued.mem b).mp hb
          have hheight := hdequeued.placed.height_hash hb
          refine ⟨by omega, fun heq => ?_⟩
          rw [← heq] at hheight
          omega
        have hreach' : e.parent ∈ (children.map (·.hash)).reverse ++ upper ∨
            ∃ d, queue'.Waits d ∧ d.hash = e.parent ∧ d.parent ∈ (children.map (·.hash)).reverse ++ upper := by
          rcases hreach with hin | ⟨d, hd, hde, hin⟩
          · exact .inl (mem_append_right _ (mem_of_ne_of_mem hex hin))
          · by_cases hdx : d.parent = x
            · refine .inl (mem_append_left _ (mem_reverse.mpr (mem_map.mpr ⟨d, ?_, hde⟩)))
              exact (hdequeued.mem d).mpr ⟨hd, hdx⟩
            · exact .inr ⟨d, (hdequeued.left d).mpr ⟨hd, hdx⟩, hde, mem_append_right _ (mem_of_ne_of_mem hdx hin)⟩
        obtain ⟨before, after, rfl, hmem, hbefore⟩ :=
          ih ((hdequeued.left e).mpr ⟨he, hex⟩) hf' hupper' hreach' (append_assoc ..)
        exact ⟨children ++ before, after, by simp, hmem, forall_mem_append.mpr ⟨hother, hbefore⟩⟩
  | stop _ hfailed => simp at hfailed

/-- The block with grandchildren is read last, so its side is followed first. -/
theorem QueuedBlocks.Placed.late (h : queue.Placed name) (hfork : ¬ queue.Slim) :
    ∃ order new_parent before e after f finished,
      ready_blocks order (fun _ => true) [new_parent] queue = .ok (before ++ e :: after, finished) ∧
      f ∈ after ∧ f.height < e.height ∧ (∀ b ∈ before, b.hash ≠ f.hash) ∧ f.NamedBy name := by
  simp only [QueuedBlocks.Slim, not_forall] at hfork
  obtain ⟨b, c, d, e, f, hb, hc, hd, he, hf, hbc, hdb, hed, hfc, hne⟩ := hfork
  have hbheight := h.height_hash hb
  have hcheight := h.height_hash hc
  have hdheight := h.height_hash hd
  rw [← hbc] at hcheight
  rw [hdb] at hdheight
  obtain ⟨order, horder⟩ := ReadOrder.exists_last b.hash
  obtain ⟨blocks, finished, hready, htraversed⟩ := ready_blocks_traversed h order (fun _ => true) [b.parent]
  cases htraversed with
  | stop _ hfailed => simp at hfailed
  | @next _ _ _ queue' children more hdequeued hrest =>
    have hother : ∀ x : QueuedSemanticallyVerified, (name x.parent).1 ≠ (name b.parent).1 → x.parent ≠ b.parent :=
      fun x hx heq => hx (heq ▸ rfl)
    have hfb := hother f (by rw [hfc]; omega)
    obtain ⟨l, hl⟩ := horder _ ((h.indexed.mem b.parent b.hash).mpr ⟨b, hb, rfl⟩)
    have hhashes := hdequeued.hashes.trans hl
    have hlower : f.parent ∈ l.reverse := by
      have hin : c.hash ∈ l ++ [b.hash] := hhashes ▸ mem_map_of_mem ((hdequeued.mem c).mpr ⟨hc, hbc.symm⟩)
      rw [hfc, mem_reverse]
      simpa [Ne.symm hne] using hin
    rw [hhashes, reverse_append, append_nil] at hrest
    obtain ⟨before, after, rfl, hafter, hbefore⟩ := hrest.late
      ((hdequeued.left e).mpr ⟨he, hother e (by rw [hed]; omega)⟩) ((hdequeued.left f).mpr ⟨hf, hfb⟩)
      (forall_mem_singleton.mpr ⟨by rw [hfc]; omega, hfc ▸ Ne.symm hne⟩) hlower
      (.inr ⟨d, (hdequeued.left d).mpr ⟨hd, hother d (by rw [hdb]; omega)⟩, hed.symm, by simp [hdb]⟩)
    refine ⟨order, b.parent, children ++ before, e, after, f, finished, by rw [hready, append_assoc], hafter, ?_,
      forall_mem_append.mpr ⟨fun g hg => hdequeued.hash_ne hg hf hfb, hbefore⟩, h.named f hf⟩
    rw [h.above e he, h.above f hf, hed, hfc]
    omega

/-! ## Runs -/

inductive SentOp
  | SendReady (queue : QueuedBlocks) (order : ReadOrder BlockHash) (sends : BlockHash → Bool)
      (new_parent : BlockHash)
  | FinishBatch
  | PruneByHeight (height_bound : Nat)

namespace SentHashes

variable (self : SentHashes)

def apply : SentOp → Except Abort SentHashes
  | .SendReady queue order sends new_parent => do
    let (blocks, finished) ← ready_blocks order sends [new_parent] queue
    let self := blocks.foldl add self
    pure (if finished then self.finish_batch else self)
  | .FinishBatch => .ok self.finish_batch
  | .PruneByHeight height_bound => .ok (self.prune_by_height height_bound)

/-- The queued tree is slim, and no batch is unfinished since a send failed. -/
def Orderly (name : BlockHash → Nat × List OutPoint) (self : SentHashes) : SentOp → Prop
  | .SendReady queue _ _ _ => queue.Placed name ∧ queue.Slim ∧ self.curr_buf = []
  | _ => True

def entries : List (BlockHash × Nat) := self.bufs.flatten ++ self.curr_buf

/-- No two blocks create one output. -/
def Apart (name : BlockHash → Nat × List OutPoint) : Prop :=
  ∀ x y o, o ∈ (name x).2 → o ∈ (name y).2 → x = y

/-- The maps have the outputs of these blocks, and no others. -/
structure Reports (name : BlockHash → Nat × List OutPoint) (s : SentHashes)
    (hashes : Finset BlockHash) : Prop where
  sent : ∀ x, s.sent.lookup x = if x ∈ hashes then some (name x).2 else none
  known : ∀ o ∈ s.known_utxos, ∃ x ∈ hashes, o ∈ (name x).2
  exact : Apart name → ∀ x ∈ hashes, ∀ o ∈ (name x).2, o ∈ s.known_utxos

structure Tracked (name : BlockHash → Nat × List OutPoint) (s : SentHashes) : Prop where
  sorted : ∀ buf ∈ s.bufs ++ [s.curr_buf], buf.Pairwise (·.2 ≤ ·.2)
  heights : ∀ e ∈ s.entries, e.2 = (name e.1).1
  reports : s.Reports name (s.entries.map (·.1)).toFinset

section

variable {s after : SentHashes} {block : QueuedSemanticallyVerified} {hashes : Finset BlockHash}

theorem Reports.contains (h : s.Reports name hashes) (x : BlockHash) : s.contains x = true ↔ x ∈ hashes := by
  rw [SentHashes.contains, decide_eq_true_eq, ← Finmap.lookup_isSome, h.sent]
  split <;> simp [*]

theorem Reports.remove (h : s.Reports name hashes) (x : BlockHash) :
    (s.remove x).Reports name (hashes.erase x) := by
  unfold SentHashes.remove
  rw [h.sent]
  by_cases hx : x ∈ hashes
  · have hknown : ∀ o, o ∈ (name x).2.foldl (fun known o => known.erase o) s.known_utxos ↔
        o ∈ s.known_utxos ∧ o ∉ (name x).2 := by
      intro o
      simp only [Finmap.mem_iff, Map.lookup_foldl_erase fun o => o, exists_and_right]
      exact and_congr_right fun _ => ⟨fun hout hmem => hout o hmem rfl, fun hout _ hx heq => hout (heq ▸ hx)⟩
    rw [if_pos hx]
    refine ⟨fun y => ?_, fun o ho => ?_, fun hapart y hy o ho => ?_⟩
    · simp only [Map.lookup_erase', h.sent, Finset.mem_erase]
      by_cases hyx : y = x <;> simp [hyx]
    · obtain ⟨hold, hnot⟩ := (hknown o).mp ho
      obtain ⟨y, hy, hmem⟩ := h.known o hold
      exact ⟨y, Finset.mem_erase.mpr ⟨fun heq => hnot (heq ▸ hmem), hy⟩, hmem⟩
    · obtain ⟨hne, hy⟩ := Finset.mem_erase.mp hy
      exact (hknown o).mpr ⟨h.exact hapart y hy o ho, fun hmem => hne (hapart y x o ho hmem)⟩
  · rwa [if_neg hx, Finset.erase_eq_of_notMem hx]

theorem Reports.add (h : s.Reports name hashes) (hnamed : block.NamedBy name) :
    (s.add block).Reports name (insert block.hash hashes) := by
  have hname : block.new_outputs.map (·.1) = (name block.hash).2 := congrArg Prod.snd hnamed
  have hknown : ∀ o, o ∈ (s.add block).known_utxos ↔ o ∈ s.known_utxos ∨ o ∈ (name block.hash).2 := by
    intro o
    rw [← hname, SentHashes.add, insert_utxos]
    generalize s.known_utxos = known
    induction block.new_outputs generalizing known with
    | nil => simp
    | cons e rest ih => simp [ih, or_assoc, or_left_comm, or_comm]
  refine ⟨fun y => ?_, fun o ho => ?_, fun hapart y hy o ho => (hknown o).mpr ?_⟩
  · rw [SentHashes.add, Map.lookup_insert', h.sent, hname]
    by_cases hy : y = block.hash <;> simp [hy]
  · rcases (hknown o).mp ho with hold | hnew
    · obtain ⟨y, hy, hmem⟩ := h.known o hold
      exact ⟨y, Finset.mem_insert_of_mem hy, hmem⟩
    · exact ⟨_, Finset.mem_insert_self _ _, hnew⟩
  · rcases Finset.mem_insert.mp hy with rfl | hy
    · exact .inr ho
    · exact .inl (h.exact hapart y hy o ho)

/-! ## Pruning -/

theorem remove_bufs (s : SentHashes) (x : BlockHash) : (s.remove x).curr_buf = s.curr_buf := by
  unfold SentHashes.remove
  split <;> rfl

variable (height_bound : Nat)

/-- A sorted batch loses the blocks at or below the height, and no others. -/
theorem Reports.prune_buf {buf : List (BlockHash × Nat)} (hsorted : buf.Pairwise (·.2 ≤ ·.2))
    (h : s.Reports name hashes) :
    (prune_buf height_bound buf s).1 = buf.filter (height_bound < ·.2) ∧
      (prune_buf height_bound buf s).2.curr_buf = s.curr_buf ∧
      (prune_buf height_bound buf s).2.Reports name
        (hashes \ ((buf.filter (·.2 ≤ height_bound)).map (·.1)).toFinset) := by
  induction buf generalizing s hashes with
  | nil => simpa [SentHashes.prune_buf] using h
  | cons e buf ih =>
    obtain ⟨hle, hsorted⟩ := pairwise_cons.mp hsorted
    unfold SentHashes.prune_buf
    by_cases habove : height_bound < e.2
    · have hall : ∀ e ∈ buf, height_bound < e.2 := fun e he => habove.trans_le (hle e he)
      have hnone : buf.filter (·.2 ≤ height_bound) = [] := by
        simpa [filter_eq_nil_iff] using fun a b hmem => hall (a, b) hmem
      have hself : buf.filter (height_bound < ·.2) = buf := by
        simpa [filter_eq_self] using fun a b hmem => hall (a, b) hmem
      simpa [habove, Nat.not_le.mpr habove, hnone, hself] using h
    · obtain ⟨hkept, hcurr, hreports⟩ := ih hsorted (h.remove e.1)
      rw [remove_bufs] at hcurr
      simp only [filter_cons, habove, Nat.not_lt.mp habove, decide_true, decide_false, if_true,
        Bool.false_eq_true, if_false, map_cons, toFinset_cons, Finset.sdiff_insert]
      exact ⟨hkept, hcurr, Finset.erase_sdiff_comm hashes _ e.1 ▸ hreports⟩

theorem Reports.retain_bufs {bufs : List (List (BlockHash × Nat))}
    (hsorted : ∀ buf ∈ bufs, buf.Pairwise (·.2 ≤ ·.2)) (h : s.Reports name hashes) :
    (retain_bufs height_bound bufs s).1.flatten = bufs.flatten.filter (height_bound < ·.2) ∧
      (∀ buf ∈ (retain_bufs height_bound bufs s).1, buf.Pairwise (·.2 ≤ ·.2)) ∧
      (retain_bufs height_bound bufs s).2.curr_buf = s.curr_buf ∧
      (retain_bufs height_bound bufs s).2.Reports name
        (hashes \ ((bufs.flatten.filter (·.2 ≤ height_bound)).map (·.1)).toFinset) := by
  induction bufs generalizing s hashes with
  | nil => simpa [SentHashes.retain_bufs] using h
  | cons buf bufs ih =>
    obtain ⟨hbuf, hbufs⟩ := forall_mem_cons.mp hsorted
    obtain ⟨hkept, hcurr, hreports⟩ := h.prune_buf height_bound hbuf
    obtain ⟨hflat, hstill, hrest, hreports⟩ := ih hbufs hreports
    simp only [SentHashes.retain_bufs, flatten_cons, filter_append, map_append, toFinset_append]
    refine ⟨?_, ?_, hrest.trans hcurr, by rwa [sdiff_sdiff_left] at hreports⟩
    · split
      · next hempty =>
        rw [← hkept, List.isEmpty_iff.mp hempty, hflat, nil_append]
      · rw [flatten_cons, hkept, hflat]
    · split
      · exact hstill
      · exact forall_mem_cons.mpr ⟨hkept ▸ hbuf.filter _, hstill⟩

theorem finish_batch_same (s : SentHashes) :
    s.finish_batch.entries = s.entries ∧ s.finish_batch.curr_buf = [] ∧
      (∀ buf ∈ s.finish_batch.bufs, buf ∈ s.bufs ++ [s.curr_buf]) ∧
      s.finish_batch.sent = s.sent ∧ s.finish_batch.known_utxos = s.known_utxos := by
  unfold finish_batch
  split
  · next hempty =>
    exact ⟨rfl, List.isEmpty_iff.mp hempty, fun buf hbuf => mem_append_left _ hbuf, rfl, rfl⟩
  · exact ⟨by simp [entries], rfl, fun buf hbuf => hbuf, rfl, rfl⟩

theorem Tracked.finish_batch (h : s.Tracked name) : s.finish_batch.Tracked name := by
  obtain ⟨hentries, hcurr, hbufs, hsent, hknown⟩ := finish_batch_same s
  refine ⟨fun buf hbuf => ?_, hentries ▸ h.heights, ?_⟩
  · rcases mem_append.mp hbuf with hold | hlast
    · exact h.sorted buf (hbufs buf hold)
    · rw [mem_singleton.mp hlast, hcurr]
      exact Pairwise.nil
  · rw [hentries]
    exact ⟨hsent ▸ h.reports.sent, hknown ▸ h.reports.known, hknown ▸ h.reports.exact⟩

theorem Tracked.prune (h : s.Tracked name) :
    (s.prune_by_height height_bound).entries = s.entries.filter (height_bound < ·.2) ∧
      (s.prune_by_height height_bound).Tracked name := by
  obtain ⟨hentries, hcurr, -⟩ := finish_batch_same s
  have hflat : s.finish_batch.bufs.flatten = s.entries := by
    rw [← hentries, entries, hcurr, append_nil]
  obtain ⟨hkept, hsorted, hcurr', hreports⟩ := h.finish_batch.reports.retain_bufs height_bound
    fun buf hbuf => h.finish_batch.sorted buf (mem_append_left _ hbuf)
  rw [hflat] at hkept hreports
  have hleft : (s.prune_by_height height_bound).entries = s.entries.filter (height_bound < ·.2) := by
    rw [prune_by_height, entries, hcurr', hcurr, append_nil, hkept]
  refine ⟨hleft, ?_, fun e he => ?_, ?_⟩
  · simp only [prune_by_height, hcurr', hcurr]
    simpa [or_imp, forall_and] using hsorted
  · exact h.heights e (mem_filter.mp (hleft ▸ he)).1
  · -- a hash stands for one height, so it is left in full or not at all
    have hsame : (s.finish_batch.entries.map (·.1)).toFinset \
        ((s.entries.filter (·.2 ≤ height_bound)).map (·.1)).toFinset =
          ((s.prune_by_height height_bound).entries.map (·.1)).toFinset := by
      rw [hleft, hentries]
      ext x
      simp only [Finset.mem_sdiff, mem_toFinset, mem_map, mem_filter, decide_eq_true_eq]
      constructor
      · rintro ⟨⟨e, he, rfl⟩, hnot⟩
        exact ⟨e, ⟨he, not_le.mp fun hle => hnot ⟨e, ⟨he, hle⟩, rfl⟩⟩, rfl⟩
      · rintro ⟨e, ⟨he, habove⟩, rfl⟩
        refine ⟨⟨e, he, rfl⟩, fun ⟨e', ⟨he', hle⟩, hsame⟩ => ?_⟩
        rw [h.heights e' he', hsame, ← h.heights e he] at hle
        exact absurd hle (not_le.mpr habove)
    rw [hsame] at hreports
    exact ⟨hreports.sent, hreports.known, hreports.exact⟩

/-! ## Whole runs -/

/-- A block that was sent before is named by its hash, so it is added with the same outputs. -/
theorem Tracked.add_all {blocks : List QueuedSemanticallyVerified} (h : s.Tracked name)
    (hnamed : ∀ b ∈ blocks, b.NamedBy name)
    (hsorted : (s.curr_buf.map (·.2) ++ blocks.map (·.height)).Pairwise (· ≤ ·)) :
    (blocks.foldl SentHashes.add s).Tracked name := by
  induction blocks generalizing s with
  | nil => exact h
  | cons b rest ih =>
    obtain ⟨hb, hrest⟩ := forall_mem_cons.mp hnamed
    have hentries : (s.add b).entries = s.entries ++ [(b.hash, b.height)] := by
      simp [entries, SentHashes.add]
    refine ih ⟨?_, ?_, ?_⟩ hrest (by simpa [SentHashes.add] using hsorted)
    · have hcurr : (s.curr_buf ++ [(b.hash, b.height)]).Pairwise (·.2 ≤ ·.2) := by
        rw [← pairwise_map]
        exact hsorted.sublist (by simp)
      simpa [SentHashes.add, or_imp, forall_and] using
        ⟨fun buf hbuf => h.sorted buf (mem_append_left _ hbuf), hcurr⟩
    · rw [hentries]
      exact forall_mem_append.mpr ⟨h.heights, forall_mem_singleton.mpr (congrArg Prod.fst hb)⟩
    · rw [hentries, map_append, toFinset_append, Finset.union_comm]
      exact h.reports.add hb

theorem Tracked.default : default.Tracked name :=
  ⟨by simp [SentHashes.default], nofun, fun _ => rfl, fun _ ho => absurd ho Finmap.notMem_empty, nofun⟩

theorem Tracked.step (h : s.Tracked name) {op : SentOp} (hop : s.Orderly name op)
    (happly : s.apply op = .ok after) : after.Tracked name := by
  cases op with
  | SendReady queue order sends new_parent =>
    obtain ⟨⟨blocks, finished⟩, hready, happly⟩ := except_bind_ok.mp happly
    cases happly
    obtain ⟨hplaced, hslim, hempty⟩ := hop
    have hstacked : Stacked name queue [new_parent] (name new_parent).1 :=
      ⟨fun b _ hb => mem_singleton.mp hb ▸ rfl,
        fun b _ d _ _ _ hb _ hd => (mem_singleton.mp hd).trans (mem_singleton.mp hb).symm⟩
    obtain ⟨_, _, hready', htraversed⟩ := ready_blocks_traversed hplaced order sends [new_parent]
    cases hready.symm.trans hready'
    obtain ⟨hsorted, hnamed⟩ := htraversed.ordered hslim hstacked
    have hadded := h.add_all (fun b hb => (hnamed b hb).2) (by simpa [hempty, pairwise_map] using hsorted)
    split
    · exact hadded.finish_batch
    · exact hadded
  | FinishBatch =>
    cases happly
    exact h.finish_batch
  | PruneByHeight height_bound =>
    cases happly
    exact (h.prune height_bound).2

end

/-- What a call of `prune_by_height` does: of the blocks that were reported as sent those above the height
still are, and the known outputs are theirs. -/
structure PrunedTo (name : BlockHash → Nat × List OutPoint) (s : SentHashes) (height_bound : Nat) : Prop where
  kept : ∀ x, (s.prune_by_height height_bound).contains x = true ↔
    s.contains x = true ∧ height_bound < (name x).1
  created : ∀ o, ((s.prune_by_height height_bound).utxo o).isSome = true →
    ∃ x, (s.prune_by_height height_bound).contains x = true ∧ o ∈ (name x).2
  known : Apart name → ∀ x o, (s.prune_by_height height_bound).contains x = true → o ∈ (name x).2 →
    ((s.prune_by_height height_bound).utxo o).isSome = true

theorem Tracked.prunedTo {name : BlockHash → Nat × List OutPoint} {s : SentHashes} (h : s.Tracked name)
    (height_bound : Nat) : s.PrunedTo name height_bound := by
  obtain ⟨hentries, hpruned⟩ := h.prune height_bound
  refine ⟨fun x => ?_, fun o ho => ?_, fun hapart x o hx ho => ?_⟩
  · rw [hpruned.reports.contains, hentries, h.reports.contains]
    simp only [mem_toFinset, mem_map, mem_filter, decide_eq_true_eq]
    constructor
    · rintro ⟨e, ⟨he, habove⟩, rfl⟩
      exact ⟨⟨e, he, rfl⟩, h.heights e he ▸ habove⟩
    · rintro ⟨⟨e, he, rfl⟩, habove⟩
      exact ⟨e, ⟨he, (h.heights e he).symm ▸ habove⟩, rfl⟩
  · obtain ⟨x, hx, hmem⟩ := hpruned.reports.known o (Finmap.lookup_isSome.mp ho)
    exact ⟨x, (hpruned.reports.contains x).mpr hx, hmem⟩
  · exact Finmap.lookup_isSome.mpr
      (hpruned.reports.exact hapart x ((hpruned.reports.contains x).mp hx) o ho)

/-! ## Blocks left behind -/

theorem foldl_add (blocks : List QueuedSemanticallyVerified) (s : SentHashes) :
    (blocks.foldl add s).bufs = s.bufs ∧
      (blocks.foldl add s).curr_buf = s.curr_buf ++ blocks.map (fun b => (b.hash, b.height)) ∧
      ∀ x, x ∈ s.sent ∨ x ∈ blocks.map (·.hash) → x ∈ (blocks.foldl add s).sent := by
  induction blocks generalizing s with
  | nil => simp
  | cons b rest ih =>
    obtain ⟨hbufs, hcurr, hsent⟩ := ih (s.add b)
    refine ⟨hbufs, hcurr.trans (by simp [add]), fun x hx => hsent x ?_⟩
    simpa [add, or_assoc, or_left_comm] using hx

theorem contains_prune_buf {height_bound : Nat} {before after : List (BlockHash × Nat)} {e : BlockHash × Nat}
    {x : BlockHash} {s : SentHashes} (habove : height_bound < e.2) (hbefore : ∀ p ∈ before, p.1 ≠ x)
    (h : s.contains x = true) : (prune_buf height_bound (before ++ e :: after) s).2.contains x = true := by
  induction before generalizing s with
  | nil => simpa [prune_buf, habove] using h
  | cons p before ih =>
    obtain ⟨hne, hbefore⟩ := forall_mem_cons.mp hbefore
    rw [cons_append, prune_buf]
    split
    · exact h
    · refine ih hbefore ?_
      unfold remove
      split
      · simpa [contains, hne.symm] using h
      · exact h

theorem left_behind {name : BlockHash → Nat × List OutPoint} {queue : QueuedBlocks} (h : queue.Placed name)
    (hfork : ¬ queue.Slim) : ∃ order new_parent s height_bound,
      Runs.run SentHashes.apply .default [.SendReady queue order (fun _ => true) new_parent] = .ok s ∧
      ¬ s.PrunedTo name height_bound := by
  obtain ⟨order, new_parent, before, e, after, f, finished, hready, hf, hlt, hbefore, hnamed⟩ := h.late hfork
  obtain ⟨hbufs, hcurr, hsent⟩ := foldl_add (before ++ e :: after) .default
  generalize hs : (before ++ e :: after).foldl add .default = s at *
  refine ⟨order, new_parent, if finished then s.finish_batch else s, f.height, ?_, fun hpruned => ?_⟩
  · simp [Runs.run, apply, hready, hs, bind, Except.bind, pure, Except.pure]
  · have hcontains : ((if finished then s.finish_batch else s).prune_by_height f.height).contains f.hash = true := by
      have hbatch : (if finished then s.finish_batch else s).finish_batch =
          { s with bufs := [s.curr_buf], curr_buf := [] } := by
        cases finished <;> simp [finish_batch, hcurr, hbufs, SentHashes.default]
      simp only [prune_by_height, hbatch, retain_bufs, hcurr, map_append, map_cons]
      refine contains_prune_buf hlt (by simpa using hbefore) (decide_eq_true (hsent f.hash (.inr ?_)))
      exact mem_map_of_mem (mem_append_right _ (mem_cons_of_mem _ hf))
    have hlt := ((hpruned.kept f.hash).mp hcontains).2
    rw [← hnamed] at hlt
    exact lt_irrefl _ hlt

end SentHashes

/-- The tree is slim exactly if no order of the traversal leaves a block behind. -/
theorem sent_hashes_pruned (name : BlockHash → Nat × List OutPoint) :
    (∀ ops s, Runs.Meets SentHashes.apply (SentHashes.Orderly name) .default ops →
      Runs.run SentHashes.apply .default ops = .ok s → ∀ height_bound, s.PrunedTo name height_bound) ∧
    ∀ queue : QueuedBlocks, queue.Placed name → ¬ queue.Slim → ∃ order new_parent s height_bound,
      Runs.run SentHashes.apply .default [.SendReady queue order (fun _ => true) new_parent] = .ok s ∧
      ¬ s.PrunedTo name height_bound := by
  refine ⟨fun ops s horderly hrun height_bound => ?_, fun queue h hfork => SentHashes.left_behind h hfork⟩
  have htracked := Runs.run_invariant (SentHashes.Tracked name)
    (fun _ _ _ _ h hop happly => h.step hop happly) .default horderly hrun
  exact htracked.prunedTo height_bound

namespace Sample

/-- A block with one output. -/
def creating (side height : Nat) (outpoint : OutPoint) : QueuedSemanticallyVerified where
  toSemanticallyVerifiedBlock := plain side height
  new_outputs := [(outpoint, ⟨⟨⟨1, Constraint.holds_one⟩, []⟩, height, false, 1⟩)]
  sender := ⟨side⟩

def ownOutput (x : BlockHash) : OutPoint := ⟨x, 0⟩

def heightAndOutput (x : BlockHash) : Nat × List OutPoint := ((x.val.getD 1 0).toNat, [ownOutput x])

/-- Reads the two blocks at height 3 in the order of their sides. -/
def bySide : ReadOrder BlockHash where
  read s := if s = {hashAt 0 3, hashAt 1 3} then [hashAt 0 3, hashAt 1 3] else byNumber.read s
  nodup s := by
    split
    · decide
    · exact byNumber.nodup s
  mem s x := by
    split
    · next heq => simp [heq]
    · exact byNumber.mem s x

def queuedAt (side height : Nat) : QueuedSemanticallyVerified :=
  creating side height (ownOutput (hashAt side height))

def sendQueued (l : List QueuedSemanticallyVerified) : SentOp :=
  .SendReady (l.foldl QueuedBlocks.queue .default) bySide (fun _ => true) (hashAt 0 2)

/-- The block of side 0 at height 3 has no children. -/
def earlyEnd : List QueuedSemanticallyVerified := [queuedAt 0 3, queuedAt 1 3, queuedAt 1 4, queuedAt 1 5]

def lateEnd : List QueuedSemanticallyVerified := queuedAt 0 4 :: earlyEnd

end Sample

open Sample

theorem early_fork_pruned :
    (∃ s, Runs.run SentHashes.apply .default [sendQueued earlyEnd, .PruneByHeight 3] = .ok s ∧
      s.contains (hashAt 1 4) = true ∧ s.PrunedTo heightAndOutput 4) ∧
    ∃ order new_parent s height_bound,
      Runs.run SentHashes.apply .default [.SendReady (lateEnd.foldl QueuedBlocks.queue .default) order
        (fun _ => true) new_parent] = .ok s ∧ ¬ s.PrunedTo heightAndOutput height_bound := by
  have hblocks : ∀ b ∈ earlyEnd ++ lateEnd, b.NamedBy heightAndOutput ∧
      b.height = (heightAndOutput b.parent).1 + 1 := by
    unfold QueuedSemanticallyVerified.NamedBy
    decide +kernel
  obtain ⟨hearly, hlate⟩ := forall_mem_append.mp hblocks
  constructor
  · obtain ⟨s, hrun, hcontains⟩ := exists_of_toOption_map (x := Runs.run SentHashes.apply .default
      [sendQueued earlyEnd, .PruneByHeight 3]) (f := (·.contains (hashAt 1 4))) (b := true) (by decide +kernel)
    obtain ⟨hplaced, hin⟩ := QueuedBlocks.Placed.of_queued hearly
    have hends : ∀ b ∈ earlyEnd, ∀ c ∈ earlyEnd, ∀ d ∈ earlyEnd, ∀ f ∈ earlyEnd, b.parent = c.parent →
        d.parent = b.hash → f.parent = c.hash → b.hash = c.hash := by decide +kernel
    have hslim : (earlyEnd.foldl QueuedBlocks.queue .default).Slim :=
      fun b c d e f hb hc hd _ hf hbc hdb _ hfc =>
        hends b (hin b hb) c (hin c hc) d (hin d hd) f (hin f hf) hbc hdb hfc
    have horderly : Runs.Meets SentHashes.apply (SentHashes.Orderly heightAndOutput) .default
        [sendQueued earlyEnd, .PruneByHeight 3] :=
      ⟨⟨hplaced, hslim, rfl⟩, fun _ _ => ⟨trivial, fun _ _ => trivial⟩⟩
    exact ⟨s, hrun, hcontains, (sent_hashes_pruned heightAndOutput).1 _ s horderly hrun 4⟩
  · refine (sent_hashes_pruned heightAndOutput).2 _ (QueuedBlocks.Placed.of_queued hlate).1 fun hslim => ?_
    have hfork := hslim (queuedAt 1 3) (queuedAt 0 3) (queuedAt 1 4) (queuedAt 1 5) (queuedAt 0 4)
    unfold QueuedBlocks.Waits at hfork
    revert hfork
    decide +kernel

/-- Both blocks at height 3 have children, and the loop goes to the height 5 of one side before it comes to
the height 4 of the other. -/
theorem forked_queue_left_behind :
    (ready_blocks bySide (fun _ => true) [hashAt 0 2]
        (lateEnd.foldl QueuedBlocks.queue .default)).toOption.map
          (fun r => r.1.map (·.height)) = some [3, 3, 4, 5, 4] ∧
      (Runs.run SentHashes.apply .default
        [sendQueued lateEnd, .PruneByHeight 4]).toOption.map
          (fun s => (s.contains (hashAt 0 4), (s.utxo (ownOutput (hashAt 0 4))).isSome)) = some (true, true) := by
  decide +kernel

/-- An output that two blocks create is forgotten with the first of them. -/
example :
    (Runs.run SentHashes.apply .default [sendQueued [queuedAt 0 3,
      creating 0 4 (ownOutput (hashAt 0 3))], .PruneByHeight 3]).toOption.map
        (fun s => (s.contains (hashAt 0 4), s.utxo (ownOutput (hashAt 0 3)))) = some (true, none) := by
  decide +kernel

end ZebraCrosslink
