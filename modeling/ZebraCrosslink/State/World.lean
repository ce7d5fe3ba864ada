import ZebraCrosslink.Rust.Along
import ZebraCrosslink.State.Kept

/-!
# The state service and its worker

A request meets a worker that may receive any number of messages before it is answered.
-/

open Rust List

namespace ZebraCrosslink

/-- `schedule` holds what the worker receives at each of the next points where a call may wait. -/
structure World where
  worker : WriteBlockWorkerTask
  schedule : List (List WorkerEvent)

namespace World

abbrev db (e : World) : ZebraDb := e.worker.finalized_state

variable (rules : ContextRules)

def deliver : Exec World Unit := fun e =>
  match e.schedule with
  | [] => .ok ((), e)
  | events :: rest => do
    let worker ← WriteBlockWorkerTask.run rules events e.worker
    pure ((), { worker, schedule := rest })

def read (req : StateRequest) : Exec World (Except String StateResponse) := do
  deliver rules
  let snapshot ← fun e => .ok (e.worker.non_finalized_state_sender, e)
  deliver rules
  fun e => (ReadStateService.call ⟨snapshot, e.db⟩ req).map fun reply => (reply, e)

/-- `Request::CrosslinkFinalizeBlock` goes through the worker's channel and waits for the reply. -/
def crosslink_finalize_block (hash : BlockHash) : Exec World (Except String StateResponse) := do
  deliver rules
  fun e =>
    if e.worker.checkpointing then .ok (.error "not ready to crosslink-finalize blocks", e)
    else do
      let (reply, worker) ← e.worker.crosslink_finalized hash
      pure (reply.map .CrosslinkFinalized, { e with worker })

def state : StateRequest → Exec World (Except String StateResponse)
  | .CrosslinkFinalizeBlock hash => crosslink_finalize_block rules hash
  | req => read rules req

end World

open World

/-! ## Later worlds -/

def Brings (name : BlockHash → Block) : WorkerEvent → Prop
  | .CheckpointVerified b => Named name b
  | .Write (.Commit b) => Named name b
  | _ => True

def FedBy (name : BlockHash → Block) (schedule : List (List WorkerEvent)) : Prop :=
  ∀ events ∈ schedule, ∀ event ∈ events, Brings name event

structure Sound (name : BlockHash → Block) (e : World) : Prop where
  kept : Kept (PowPath name) e.worker
  fed : FedBy name e.schedule

/-- From a sound world only sound worlds are reached, and the database only grows. -/
def Later (name : BlockHash → Block) (e e' : World) : Prop :=
  Sound name e → Sound name e' ∧ e.db.blocks <+: e'.db.blocks

theorem later_forward (name : BlockHash → Block) : Forward (Later name) where
  refl _ h := ⟨h, prefix_refl _⟩
  trans h₁ h₂ h := by
    obtain ⟨hs, hpart⟩ := h₁ h
    obtain ⟨hs', hpart'⟩ := h₂ hs
    exact ⟨hs', hpart.trans hpart'⟩

section World

variable {name : BlockHash → Block} {rules : ContextRules} {w w' : WriteBlockWorkerTask} {e e' : World}
  {x : BlockHash} {reply : Except String StateResponse} {db db' : ZebraDb} {snapshot : NonFinalizedState}
  {h i : Nat} {c : Chain} {txid : TransactionHash} {tx : Transaction} {b a : ContextuallyVerifiedBlock}
  {l : List ContextuallyVerifiedBlock}

theorem fits_of_brings {event : WorkerEvent} (h : Brings name event) :
    Fits (Named name) (fun _ => Named name) w event := by
  cases event with
  | CheckpointVerified b => exact h
  | CheckpointsClosed => trivial
  | Write msg => cases msg <;> exact h

theorem run_kept {events : List WorkerEvent} (hk : Kept (PowPath name) w)
    (hfed : ∀ event ∈ events, Brings name event)
    (h : WriteBlockWorkerTask.run rules events w = .ok w') : Grows (PowPath name) w w' := by
  refine hk.run (lasting_powPath name) ?_ h
  clear h hk
  induction events generalizing w with
  | nil => trivial
  | cons event rest ih =>
    refine ⟨fits_of_brings (hfed event mem_cons_self), fun w₁ _ => ih ?_⟩
    exact fun event hevent => hfed event (mem_cons_of_mem _ hevent)

theorem deliver_along : Exec.Along (Later name) (deliver rules) := by
  intro e u e' h hs
  unfold deliver at h
  split at h
  · cases h
    exact ⟨hs, prefix_refl _⟩
  · rename_i events rest hsched
    obtain ⟨worker, hrun, h⟩ := except_bind_ok.mp h
    cases h
    have hfed := hs.fed
    rw [hsched] at hfed
    obtain ⟨hk, hpart⟩ := run_kept hs.kept (hfed events mem_cons_self) hrun
    exact ⟨⟨hk, fun events hmem => hfed events (mem_cons_of_mem _ hmem)⟩, hpart⟩

theorem read_ok (name : BlockHash → Block) {req : StateRequest}
    (h : World.read rules req e = .ok (reply, e')) : ∃ e₁, Later name e e₁ ∧ Later name e₁ e' ∧
      ReadStateService.call ⟨e₁.worker.non_finalized_state_sender, e'.db⟩ req = .ok reply := by
  simp only [World.read, bind_ok] at h
  obtain ⟨_, e₁, h₁, snapshot, e₂, hget, _, e₃, h₃, h⟩ := h
  cases hget
  refine ⟨e₁, deliver_along _ _ _ h₁, ?_⟩
  cases hreply : ReadStateService.call ⟨e₁.worker.non_finalized_state_sender, e₃.db⟩ req with
  | error err => rw [hreply] at h; cases h
  | ok r =>
    rw [hreply] at h
    cases h
    exact ⟨deliver_along _ _ _ h₃, hreply⟩

theorem crosslink_finalize_block_ok (h : crosslink_finalize_block rules x e = .ok (reply, e')) :
    ∃ e₁, deliver rules e = .ok ((), e₁) ∧ (e₁.worker.checkpointing = true ∧ e' = e₁ ∨
        e₁.worker.checkpointing = false ∧ e'.schedule = e₁.schedule ∧
          ∃ r, e₁.worker.crosslink_finalized x = .ok (r, e'.worker)) := by
  simp only [crosslink_finalize_block, bind_ok] at h
  obtain ⟨⟨⟩, e₁, h₁, h⟩ := h
  refine ⟨e₁, h₁, ?_⟩
  split at h
  · rename_i hcheck
    cases h
    exact .inl ⟨hcheck, rfl⟩
  · rename_i hcheck
    obtain ⟨⟨r, worker⟩, hfin, h⟩ := except_bind_ok.mp h
    cases h
    exact .inr ⟨by simpa using hcheck, rfl, r, hfin⟩

theorem state_along (req : StateRequest) : Exec.Along (Later name) (state rules req) := by
  intro e reply e' h
  have hR := later_forward name
  cases req with
  | CrosslinkFinalizeBlock x =>
    obtain ⟨e₁, h₁, hcase⟩ := crosslink_finalize_block_ok h
    refine hR.trans (deliver_along _ _ _ h₁) ?_
    rcases hcase with ⟨-, rfl⟩ | ⟨hopen, hsched, r, hfin⟩
    · exact hR.refl _
    · intro hs
      obtain ⟨hk, hpart⟩ := hs.kept.crosslink_finalized (lasting_powPath name) hopen hfin
      exact ⟨⟨hk, by rw [hsched]; exact hs.fed⟩, hpart⟩
  | _ =>
    obtain ⟨e₁, h₁, h₂, -⟩ := read_ok name h
    exact hR.trans h₁ h₂

/-! ## Answers from a stale snapshot -/

theorem Published.shown (hp : Published (PowPath name) db snapshot) (hdb : PowPath name db.blocks) :
    ∃ l, ∃ hpath : PowPath name l, Shown snapshot.best_chain db hpath.powChain := by
  cases hbest : snapshot.best_chain with
  | none => exact ⟨_, hdb, hdb.shown_db⟩
  | some c =>
    obtain ⟨hne, r, hr, hpath, hpart⟩ := hp.best c hbest
    exact ⟨_, hpath, hpath.shown hr hne hpart⟩

theorem hash_of_part (hpart : db.blocks <+: db'.blocks) (hh : h < db.blocks.length) :
    db'.hash h = db.hash h := by
  obtain ⟨rest, hrest⟩ := hpart
  rw [ZebraDb.hash, ZebraDb.hash, ← hrest, getElem?_append_left hh]

theorem Published.hash_by_height (hp : Published (PowPath name) db snapshot)
    (hdb : PowPath name db.blocks) (hpart : db.blocks <+: db'.blocks) (hh : h < db.blocks.length) :
    Read.hash_by_height snapshot.best_chain db' h = db.hash h := by
  obtain ⟨l, hpath, hshown⟩ := hp.shown hdb
  calc Read.hash_by_height snapshot.best_chain db' h
      = Read.hash_by_height snapshot.best_chain db h := by
        simp only [Read.hash_by_height, hash_of_part hpart hh]
    _ = db.hash h := by
        rw [hshown.hash_by_height, PowChain.hashes_getElem?, ← hshown.db_getElem? hh, ZebraDb.hash]

theorem block_header_hash {s : ReadStateService} {header : Header} {k : Nat}
    (hreply : s.call (.BlockHeader (.Height h)) = .ok (.ok (.BlockHeader header x k))) :
    Read.hash_by_height s.non_finalized_state.best_chain s.db h = some x := by
  unfold ReadStateService.call ReadStateService.block_header_reply at hreply
  simp only [Except.ok.injEq] at hreply
  split at hreply
  · rename_i hhash
    split at hreply
    · cases hreply
    · split at hreply
      · obtain ⟨-, rfl, -⟩ := StateResponse.BlockHeader.inj (Except.ok.inj hreply)
        exact hhash
      · cases hreply
  · cases hreply

theorem height_by_hash_named (hc : ∀ b ∈ c.blocks, Named name b)
    (hx : c.height_by_hash x = some h) : (name x).coinbase_height = some h := by
  obtain ⟨b, hb, rfl⟩ := Option.map_eq_some_iff.mp hx
  have hnamed := hc b (mem_of_find?_eq_some hb)
  have hhash : b.hash = x := by simpa using find?_some hb
  rw [← hhash, ← hnamed.block, hnamed.height]

theorem Published.known_block (hp : Published (PowPath name) db snapshot)
    (hdb' : PowPath name db'.blocks) {k : Read.KnownBlock}
    (hx : ReadStateService.call ⟨snapshot, db'⟩ (.KnownBlock x) =
      .ok (.ok (.KnownBlock (some k)))) : (name x).coinbase_height = some k.height := by
  have hchains : ∀ c ∈ snapshot.chain_set, ∀ b ∈ c.blocks, Named name b := by
    intro c hc b hb
    obtain ⟨r, -, hpath⟩ := hp.chains c hc
    exact hpath.named b (mem_append_right _ hb)
  rw [ReadStateService.call, Except.ok.injEq, Except.ok.injEq, StateResponse.KnownBlock.injEq,
    Option.or_eq_some_iff] at hx
  rcases hx with hx | ⟨-, hx⟩
  · unfold Read.non_finalized_state_contains_block_hash at hx
    split at hx
    · cases hx
    rename_i best sides hset
    simp only at hset
    split at hx
    · rename_i height hheight
      cases hx
      exact height_by_hash_named (hchains best (by simp [hset])) hheight
    · obtain ⟨height, hheight, rfl⟩ := Option.map_eq_some_iff.mp hx
      obtain ⟨c, hc, hcx⟩ := exists_of_findSome?_eq_some hheight
      exact height_by_hash_named (hchains c (by simp [hset, hc])) hcx
  · obtain ⟨i, hi, rfl⟩ := Option.map_eq_some_iff.mp hx
    obtain ⟨hlt, hix, -⟩ := findIdx?_eq_some_iff_getElem.mp hi
    have hget := getElem?_eq_getElem hlt
    have hnamed := hdb'.named _ (mem_of_getElem? hget)
    have hhash : db'.blocks[i].hash = x := by simpa using hix
    rw [← hhash, ← hnamed.block, hnamed.height, hdb'.heights i _ hget]

theorem Chain.transaction_some (htx : c.transaction txid = some (tx, h)) :
    ∃ b ∈ c.blocks, b.height = h ∧ ∃ t ∈ b.block.transactions, t.hash = txid := by
  unfold Chain.transaction at htx
  simp only [bind, Option.bind_eq_some_iff, pure, Option.some.injEq, Prod.mk.injEq] at htx
  obtain ⟨b, hb, t, ht, -, rfl⟩ := htx
  exact ⟨b, mem_of_find?_eq_some hb, rfl, t, mem_of_find?_eq_some ht, by simpa using find?_some ht⟩

theorem ZebraDb.transaction_some (htx : db.transaction txid = some (tx, h)) :
    ∃ b ∈ db.blocks, b.height = h ∧ ∃ t ∈ b.block.transactions, t.hash = txid := by
  unfold ZebraDb.transaction at htx
  simp only [bind, Option.bind_eq_some_iff, pure, Option.some.injEq, Prod.mk.injEq] at htx
  obtain ⟨b, hb, t, ht, -, rfl⟩ := htx
  exact ⟨b, mem_reverse.mp (mem_of_find?_eq_some hb), rfl, t,
    mem_reverse.mp (mem_of_find?_eq_some ht), by simpa using find?_some ht⟩

theorem getElem?_of_longer {l' : List ContextuallyVerifiedBlock}
    (hl' : PowPath name l') (hpart : l <+: l') (hb : b ∈ l') (hlt : b.height < l.length) :
    l[b.height]? = some b := by
  obtain ⟨rest, rfl⟩ := hpart
  rw [← hl'.getElem?_of_mem hb, getElem?_append_left hlt]

theorem Published.mined_transaction (hp : Published (PowPath name) db snapshot)
    (hdb' : PowPath name db'.blocks) (hpart : db.blocks <+: db'.blocks)
    {tx : Read.MinedTx}
    (htx : Read.mined_transaction snapshot.best_chain db' txid = some tx)
    (hlt : tx.height < db.blocks.length) :
    ∃ b, db.blocks[tx.height]? = some b ∧ ∃ t ∈ b.block.transactions, t.hash = txid := by
  unfold Read.mined_transaction at htx
  simp only [bind, Option.bind_eq_some_iff, pure, Option.some.injEq] at htx
  obtain ⟨⟨t, height⟩, hfound, -, -, rfl⟩ := htx
  simp only at hlt ⊢
  rw [Option.or_eq_some_iff] at hfound
  rcases hfound with hfound | ⟨-, hfound⟩
  · obtain ⟨c, hbest, hc⟩ := Option.bind_eq_some_iff.mp hfound
    obtain ⟨-, r, -, hpath, hpart'⟩ := hp.best c hbest
    obtain ⟨b, hb, rfl, ht⟩ := Chain.transaction_some hc
    exact ⟨b, getElem?_of_longer hpath hpart' (mem_append_right _ hb) hlt, ht⟩
  · obtain ⟨b, hb, rfl, ht⟩ := ZebraDb.transaction_some hfound
    exact ⟨b, getElem?_of_longer hdb' hpart hb hlt, ht⟩

/-! ## Ancestors -/

def parentOf (name : BlockHash → Block) (x : BlockHash) : BlockHash :=
  (name x).header.previous_block_hash

/-- `x` is `y` or one of the blocks that `y` builds on, down to genesis. -/
def Precedes (name : BlockHash → Block) (x y : BlockHash) : Prop :=
  ∃ n height, (name y).coinbase_height = some height ∧ n ≤ height ∧ (parentOf name)^[n] y = x

theorem PowPath.parentOf (hl : PowPath name l) (ha : l[i]? = some a) (hb : l[i + 1]? = some b) :
    parentOf name b.hash = a.hash := by
  obtain ⟨hlt, hb'⟩ := List.getElem?_eq_some_iff.mp hb
  obtain ⟨_, ha'⟩ := List.getElem?_eq_some_iff.mp ha
  have hlink := List.isChain_iff_getElem.mp hl.linked i hlt
  rw [hb', ha'] at hlink
  rw [ZebraCrosslink.parentOf, ← (hl.named b (List.mem_of_getElem? hb)).block, hlink]

theorem PowPath.iterate_parentOf (hl : PowPath name l) {n : Nat} (ha : l[i]? = some a)
    (hb : l[i + n]? = some b) : (ZebraCrosslink.parentOf name)^[n] b.hash = a.hash := by
  induction n generalizing b with
  | zero =>
    cases ha.symm.trans hb
    rfl
  | succ n ih =>
    obtain ⟨hlt, -⟩ := List.getElem?_eq_some_iff.mp hb
    have hc := List.getElem?_eq_getElem (show i + n < l.length by omega)
    rw [Function.iterate_succ_apply, hl.parentOf hc hb, ih hc]

theorem ZebraDb.precedes (hdb : PowPath name db.blocks) {j : Nat} {y : BlockHash}
    (hx : db.hash i = some x) (hy : db.hash j = some y) (hij : i ≤ j) : Precedes name x y := by
  obtain ⟨a, ha, rfl⟩ := Option.map_eq_some_iff.mp hx
  obtain ⟨b, hb, rfl⟩ := Option.map_eq_some_iff.mp hy
  have hnamed := hdb.named b (mem_of_getElem? hb)
  refine ⟨j - i, j, ?_, Nat.sub_le j i, hdb.iterate_parentOf ha (by rwa [Nat.add_sub_cancel' hij])⟩
  rw [← hnamed.block, hnamed.height, hdb.heights j b hb]

theorem ZebraDb.hash_of_mem (hdb : PowPath name db.blocks)
    (hb : b ∈ db.blocks) (hx : b.hash = x) (hh : (name x).coinbase_height = some h) :
    db.hash h = some x := by
  have hnamed := hdb.named b hb
  rw [← hx, ← hnamed.block, hnamed.height, Option.some.injEq] at hh
  rw [ZebraDb.hash, ← hh, hdb.getElem?_of_mem hb, Option.map_some, hx]

end World

end ZebraCrosslink
