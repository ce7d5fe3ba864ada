import Mathlib
import ZebraCrosslink.Checkpoint.Range
import ZebraCrosslink.Rust.Runs

/-!
# Checkpoint verification is exact

The blocks that are answered `Ok` make up the part of the chain between the previous checkpoint, or
the tip the verifier started from, and a checkpoint.
-/

open Rust Rust.Runs Map

namespace ZebraCrosslink.checkpoint

open CheckpointVerifier

variable {env : Env} {chain : Nat → Header} {v : CheckpointVerifier}

/-! ## One call -/

theorem replace_older_eq_some {new_qblock old : QueuedBlock} {l l' : List QueuedBlock}
    (h : replace_older new_qblock l = some (old, l')) :
    l' ≠ [] ∧ l'.map (·.block.hash) = l.map (·.block.hash) ∧ (∀ q ∈ l', q = new_qblock ∨ q ∈ l) ∧
      (new_qblock.tx :: l.map (·.tx)).Perm (old.tx :: l'.map (·.tx)) ∧
      ∃ q ∈ l, q.block.hash = new_qblock.block.hash := by
  induction l generalizing l' with
  | nil => cases h
  | cons q rest ih =>
    rw [replace_older] at h
    split at h
    · next heq =>
      cases h
      refine ⟨List.cons_ne_nil _ _, by simp [heq], fun q' hq' => ?_, .swap .., _, List.mem_cons_self, heq⟩
      rcases List.mem_cons.mp hq' with rfl | hq'
      · exact .inl rfl
      · exact .inr (List.mem_cons_of_mem _ hq')
    · simp only [Option.map_eq_some_iff, Prod.mk.injEq] at h
      obtain ⟨⟨old', rest'⟩, hrest, rfl, rfl⟩ := h
      obtain ⟨-, hhash, hmem, hperm, q', hq', heq'⟩ := ih hrest
      refine ⟨List.cons_ne_nil _ _, by simp [hhash], fun q' hq' => ?_, ?_, q', List.mem_cons_of_mem _ hq', heq'⟩
      · rcases List.mem_cons.mp hq' with rfl | hq'
        · exact .inr List.mem_cons_self
        · exact (hmem q' hq').imp_right (List.mem_cons_of_mem _)
      · exact (List.Perm.swap ..).trans ((hperm.cons _).trans (.swap ..))

theorem replace_older_eq_none {new_qblock : QueuedBlock} {l : List QueuedBlock}
    (h : replace_older new_qblock l = none) : ∀ q ∈ l, q.block.hash ≠ new_qblock.block.hash := by
  induction l with
  | nil => exact fun q hq => by cases hq
  | cons q rest ih =>
    rw [replace_older] at h
    split at h
    · cases h
    · next hne => exact List.forall_mem_cons.mpr ⟨hne, ih (Option.map_eq_none_iff.mp h)⟩

/-- A block with the hash of the one on the chain at its height has the header of that one. -/
def CollisionFree (env : Env) (chain : Nat → Header) (block : Block) : Prop :=
  ∀ h ≤ env.checkpoint_list.max_height, block.coinbase_height = some h →
    env.hash block.header = env.hash (chain h) → block.header = chain h

theorem check_block_ok {block : Block} {checked : CheckpointVerifiedBlock}
    (h : v.check_block env block = .ok checked) : checked.block = block ∧
      checked.hash = env.hash block.header ∧ block.coinbase_height = some checked.height ∧
      checked.height ≤ env.checkpoint_list.max_height := by
  unfold check_block at h
  dsimp only at h
  split at h
  · cases h
  · next height hheight =>
    obtain ⟨_, hcheck, h⟩ := except_bind_ok.mp h
    obtain ⟨_, -, h⟩ := except_bind_ok.mp h
    cases h
    refine ⟨rfl, rfl, hheight, ?_⟩
    by_contra hhigh
    rw [check_height, if_pos (not_le.mp hhigh)] at hcheck
    cases hcheck

theorem queued_block_diagnostics_ok {h : Nat} (hmem : h ∈ v.queued) : v.queued_block_diagnostics = .ok () := by
  have hkeys : v.queued.keys.Nonempty := ⟨h, Finmap.mem_keys.mpr hmem⟩
  unfold queued_block_diagnostics lastKey
  rw [dif_pos hkeys]
  rfl

theorem Kept.insert (h : Kept env chain v) {height : Nat} {qblocks : List QueuedBlock}
    (hlist : GenuineList env chain height qblocks) :
    Kept env chain { v with queued := v.queued.insert height qblocks } := by
  refine ⟨fun h' qblocks' hlookup => ?_, h.initial, h.previous, h.resets⟩
  rw [lookup_insert'] at hlookup
  split at hlookup
  · next heq =>
    cases hlookup
    exact heq ▸ hlist
  · exact h.lists h' qblocks' hlookup

def Queued (queued : Map Nat (List QueuedBlock)) (hash : BlockHash) : Prop :=
  ∃ h qblocks q, queued.lookup h = some qblocks ∧ q ∈ qblocks ∧ q.block.hash = hash

def Joins (env : Env) (block : Block) (queued queued' : Map Nat (List QueuedBlock)) : Prop :=
  ∀ h qblocks q, queued'.lookup h = some qblocks → q ∈ qblocks →
    (q.block.hash = env.hash block.header ∧ block.coinbase_height = some h ∧
        h ≤ env.checkpoint_list.max_height) ∨
      ∃ before, queued.lookup h = some before ∧ q ∈ before

theorem joins_insert {block : Block} {queued : Map Nat (List QueuedBlock)} {height : Nat} {qblocks : List QueuedBlock}
    (hheight : block.coinbase_height = some height) (hmax : height ≤ env.checkpoint_list.max_height)
    (hmem : ∀ q ∈ qblocks, q.block.hash = env.hash block.header ∨ q ∈ (queued.lookup height).getD []) :
    Joins env block queued (queued.insert height qblocks) := by
  intro h qblocks' q hlookup hq
  rw [lookup_insert'] at hlookup
  split at hlookup
  · next heq =>
    cases hlookup
    subst heq
    rcases hmem q hq with hq | hq
    · exact .inl ⟨hq, hheight, hmax⟩
    · cases hbefore : queued.lookup h with
      | none => simp [hbefore] at hq
      | some before =>
        rw [hbefore] at hq
        exact .inr ⟨before, rfl, hq⟩
  · exact .inr ⟨qblocks', hlookup, hq⟩

theorem queue_block_ok (h : Kept env chain v) {block : Block} (hfree : CollisionFree env chain block)
    (number : Nat) : (∃ e, v.queue_block env block number = .ok (.error e)) ∨
      ∃ queued' replaced, v.queue_block env block number = .ok (.ok ({ v with queued := queued' }, replaced)) ∧
        Kept env chain { v with queued := queued' } ∧ (∀ a ∈ replaced, ∃ e, a.2 = .error e) ∧
        (replaced = [] ∨ Queued v.queued (env.hash block.header)) ∧ Joins env block v.queued queued' ∧
        {number} + requests v.queued = (replaced.map Prod.fst : Multiset Nat) + requests queued' := by
  unfold queue_block
  cases hcheck : v.check_block env block with
  | error e => exact .inl ⟨e, rfl⟩
  | ok checked =>
    obtain ⟨hblock, hhash, hheight, hmax⟩ := check_block_ok hcheck
    have hgenuine : Genuine env chain checked.height ⟨checked, number⟩ := by
      refine ⟨rfl, fun _ hchain => ?_⟩
      dsimp only at hchain ⊢
      rw [hblock]
      exact hfree _ hmax hheight (hhash.symm.trans hchain)
    -- The requests at the other heights stay.
    have hrequests : ∀ qblocks : List QueuedBlock, requests (v.queued.insert checked.height qblocks) =
        (qblocks.map (·.tx) : Multiset Nat) + requests (v.queued.erase checked.height) := fun qblocks =>
      items_insert _ _ _ _
    have hlist : requests v.queued = (((v.queued.lookup checked.height).getD []).map (·.tx) : Multiset Nat) +
          requests (v.queued.erase checked.height) ∧
        (((v.queued.lookup checked.height).getD []).map (·.block.hash)).Nodup ∧
        ∀ q ∈ (v.queued.lookup checked.height).getD [], Genuine env chain checked.height q ∧
          (q.block.hash = checked.hash → Queued v.queued (env.hash block.header)) := by
      cases hlookup : v.queued.lookup checked.height with
      | none => simp [erase_of_notMem (Finmap.lookup_eq_none.mp hlookup)]
      | some qblocks =>
        have hlist := h.lists _ _ hlookup
        exact ⟨items_of_lookup _ hlookup, hlist.distinct, fun q hq =>
          ⟨hlist.genuine q hq, fun heq => ⟨_, qblocks, q, hlookup, hq, heq.trans hhash⟩⟩⟩
    have hjoins := @joins_insert env block v.queued checked.height
    dsimp only
    generalize (v.queued.lookup checked.height).getD [] = qblocks at hlist hjoins ⊢
    obtain ⟨hbefore, hdistinct, hold⟩ := hlist
    split
    · next old qblocks' hreplace =>
      obtain ⟨hne, hhashes, hmem, hperm, q, hq, heq⟩ := replace_older_eq_some hreplace
      refine .inr ⟨_, _, rfl, h.insert ⟨hne, hhashes ▸ hdistinct, fun q hq => ?_⟩, ?_, .inr ((hold q hq).2 heq),
        hjoins hheight hmax fun q hq => (hmem q hq).imp_left ?_, ?_⟩
      · rcases hmem q hq with rfl | hq
        · exact hgenuine
        · exact (hold q hq).1
      · simp
      · rintro rfl
        exact hhash
      · have hperm := Multiset.coe_eq_coe.mpr hperm
        rw [← Multiset.cons_coe, ← Multiset.cons_coe, ← Multiset.singleton_add, ← Multiset.singleton_add] at hperm
        rw [hrequests, hbefore, ← add_assoc, hperm, add_assoc]
        rfl
    · next hreplace =>
      have hnew := replace_older_eq_none hreplace
      split
      · exact .inl ⟨_, rfl⟩
      · refine .inr ⟨v.queued.insert checked.height (qblocks ++ [⟨checked, number⟩]), [], ?_, h.insert ?_,
          by simp, .inl rfl, hjoins hheight hmax fun q hq => ?_, ?_⟩
        · rw [queued_block_diagnostics_ok (h := checked.height) (Finmap.mem_insert.mpr (.inl rfl))]
          rfl
        · refine ⟨by simp, ?_, fun q hq => ?_⟩
          · rw [List.map_append, List.nodup_append]
            exact ⟨hdistinct, List.nodup_singleton _, by simpa using hnew⟩
          · rcases List.mem_append.mp hq with hq | hq
            · exact (hold q hq).1
            · exact List.mem_singleton.mp hq ▸ hgenuine
        · rcases List.mem_append.mp hq with hq | hq
          · exact .inr hq
          · exact .inl (List.mem_singleton.mp hq ▸ hhash)
        · rw [hrequests, hbefore]
          simp only [List.map_append, List.map_cons, List.map_nil, ← Multiset.coe_add, Multiset.coe_singleton,
            Multiset.coe_nil, zero_add]
          abel

theorem receive_reset_ok (h : Kept env chain v) :
    ∃ v₀, v.receive_reset env = .ok v₀ ∧ Kept env chain v₀ ∧ v₀.queued = v.queued ∧
      v₀.reset_receiver = v.reset_receiver.tail ∧ (v.reset_receiver = [] → v₀ = v) := by
  unfold receive_reset
  cases hresets : v.reset_receiver with
  | nil => exact ⟨v, rfl, h, rfl, hresets, fun _ => rfl⟩
  | cons tip rest =>
    have hall := h.resets
    rw [hresets] at hall
    obtain ⟨htip, hrest⟩ := List.forall_mem_cons.mp hall
    have hkept : Kept env chain { v with reset_receiver := rest } := ⟨h.lists, h.initial, h.previous, hrest⟩
    exact ⟨_, reset_progress_eq tip, hkept.reset htip, rfl, rfl, fun hnil => by cases hnil⟩

theorem OffChain.error {queued : Map Nat (List QueuedBlock)} {a : Nat × Except VerifyCheckpointError BlockHash}
    (h : OffChain env chain queued a) : ∃ e, a.2 = .error e := by
  obtain ⟨_, _, _, -, -, -, rfl⟩ := h
  exact ⟨_, rfl⟩

theorem RangeStep.of_queued {queued queued' : Map Nat (List QueuedBlock)} {v' : CheckpointVerifier} {sent : Sent}
    (h : RangeStep env chain queued { v with queued := queued' } v' sent) :
    RangeStep env chain queued v v' sent := by
  rcases h with h | ⟨target, blocks, failed, hverified, hrest⟩
  · exact .inl h
  · exact .inr ⟨target, blocks, failed, ⟨hverified.first, hverified.heights, hverified.start, hverified.linked,
      hverified.checkpoint_hash⟩, hrest⟩

theorem call_ok (h : Kept env chain v) (hchain : OnOneChain env chain) {block : Block}
    (hfree : CollisionFree env chain block) (number : Nat) :
    ∃ v₀, v.receive_reset env = .ok v₀ ∧ Kept env chain v₀ ∧
      ((∃ e, v.call env block number = .ok (some e, v₀, []) ∧ v₀.queued = v.queued) ∨
        ∃ queued' v' replaced sent, v.call env block number = .ok (none, v', replaced ++ sent) ∧
          v₀.verifier_progress ≠ .FinalCheckpoint ∧ Kept env chain v' ∧ v'.reset_receiver = v₀.reset_receiver ∧
          (∀ a ∈ replaced, ∃ e, a.2 = .error e) ∧ (replaced = [] ∨ Queued v.queued (env.hash block.header)) ∧
          Joins env block v.queued queued' ∧ RangeStep env chain queued' v₀ v' sent ∧
          Remains env chain queued' v'.queued ∧
          {number} + requests v.queued =
            ((replaced ++ sent).map Prod.fst : Multiset Nat) + requests v'.queued) := by
  obtain ⟨v₀, hreset, hkept, hqueued, -⟩ := receive_reset_ok h
  refine ⟨v₀, hreset, hkept, ?_⟩
  unfold call
  rw [hreset]
  change (∃ e, (if v₀.verifier_progress = .FinalCheckpoint then _ else _) = _ ∧ _) ∨
    ∃ queued' v' replaced sent, (if v₀.verifier_progress = .FinalCheckpoint then _ else _) = _ ∧ _
  by_cases hfinal : v₀.verifier_progress = .FinalCheckpoint
  · simp only [if_pos hfinal]
    exact .inl ⟨_, rfl, hqueued⟩
  · simp only [if_neg hfinal]
    rcases queue_block_ok hkept hfree number with
      ⟨e, he⟩ | ⟨queued', replaced, hqueue, hkept', hreplaced, hrepeated, hjoins, hrequests⟩
    · rw [he]
      exact .inl ⟨e, rfl, hqueued⟩
    · obtain ⟨v', sent, hrange, hkept'', hresets, hstep, hremains, hsent⟩ :=
        process_checkpoint_range_ok hkept' hchain hfinal
      rw [hqueued] at hrepeated hjoins hrequests
      refine .inr ⟨queued', v', replaced, sent, ?_, hfinal, hkept'', hresets, hreplaced, hrepeated, hjoins,
        hstep.of_queued, hremains, ?_⟩
      · rw [hqueue]
        exact except_bind_ok.mpr ⟨_, rfl, except_bind_ok.mpr ⟨_, hrange, rfl⟩⟩
      · rw [hrequests, hsent]
        simp only [List.map_append, ← Multiset.coe_add]
        abel

/-! ## Runs -/

/-- The verifier with the requests it has queued and refused, and the answers it has sent. -/
structure System where
  verifier : CheckpointVerifier
  calls : Nat
  accepted : List Nat
  refused : List (Nat × VerifyCheckpointError)
  answers : Sent

inductive Event
  | call (block : Block)
  | reset (tip : Tip)

namespace System

def start (env : Env) (initial_tip : Tip) : Except Abort System := do
  let verifier ← from_checkpoint_list env initial_tip
  return ⟨verifier, 0, [], [], []⟩

def step (env : Env) (w : System) : Event → Except Abort System
  | .call block => do
    let (refusal, verifier, sent) ← w.verifier.call env block w.calls
    return {
      verifier
      calls := w.calls + 1
      accepted := w.accepted ++ if refusal.isNone then [w.calls] else []
      refused := w.refused ++ refusal.toList.map (w.calls, ·)
      answers := w.answers ++ sent }
  | .reset tip => .ok { w with verifier.reset_receiver := w.verifier.reset_receiver ++ [tip] }

/-- What a step from `w` to `w'` may answer `Ok`: the blocks of a whole range, in height order, which
leaves no block of the range in the queue, or nothing. -/
def AnswersRange (env : Env) (w w' : System) : Prop :=
  ∃ failed blocks, w'.answers = w.answers ++ failed ++ blocks.map (fun q => (q.tx, .ok q.block.hash)) ∧
    (∀ a ∈ failed, ∃ e, a.2 = .error e) ∧
    (blocks = [] ∨ ∃ v target, w.verifier.receive_reset env = .ok v ∧ RangeVerified env v blocks target ∧
      ∀ h, v.verifier_progress.first ≤ h → h ≤ target → h ∉ w'.verifier.queued)

/-- Every request that was queued has been answered once, or is still queued and will be answered once if
the verifier is dropped. A block is queued only once at its height. -/
structure Accounted (w : System) : Prop where
  accepted_once : w.accepted.Nodup
  answered_once : (w.answers.map Prod.fst).Nodup
  answered_or_queued : ((w.answers ++ w.verifier.drop).map Prod.fst).Perm w.accepted
  queued : ∀ n, n ∈ w.verifier.drop.map Prod.fst ↔
    ∃ h qblocks q, w.verifier.queued.lookup h = some qblocks ∧ q ∈ qblocks ∧ q.tx = n
  distinct : ∀ h qblocks, w.verifier.queued.lookup h = some qblocks → (qblocks.map (·.block.hash)).Nodup

structure Sound (env : Env) (chain : Nat → Header) (w : System) : Prop where
  kept : Kept env chain w.verifier
  requests_eq : (w.answers.map Prod.fst : Multiset Nat) + requests w.verifier.queued = w.accepted
  once : w.accepted.Nodup
  fresh : ∀ n ∈ w.accepted, n < w.calls

theorem drop_requests (v : CheckpointVerifier) : (v.drop.map Prod.fst : Multiset Nat) = requests v.queued := by
  have hsort : ((v.queued_range fun _ => true : List Nat) : Multiset Nat) = v.queued.keys.val := by
    rw [queued_range, Finset.sort_eq]
    simp
  rw [requests, items_eq_bind_keys, ← hsort, Multiset.coe_bind]
  unfold drop
  rw [List.map_flatMap]
  refine congrArg _ (List.flatMap_congr fun h _ => ?_)
  cases v.queued.lookup h <;> simp [Function.comp_def]

theorem Sound.accounted {w : System} (h : Sound env chain w) : Accounted w := by
  have hperm : ((w.answers ++ w.verifier.drop).map Prod.fst).Perm w.accepted := by
    rw [← Multiset.coe_eq_coe, List.map_append, ← Multiset.coe_add, drop_requests]
    exact h.requests_eq
  have hnodup := hperm.nodup_iff.mpr h.once
  rw [List.map_append, List.nodup_append] at hnodup
  refine ⟨h.once, hnodup.1, hperm, fun n => ?_, fun k qblocks hlookup => (h.kept.lists k qblocks hlookup).distinct⟩
  simp only [drop, List.mem_map, List.mem_flatMap, mem_queued_range, and_true]
  constructor
  · rintro ⟨_, ⟨k, -, q, hq, rfl⟩, rfl⟩
    cases hlookup : w.verifier.queued.lookup k with
    | none => simp [hlookup] at hq
    | some qblocks =>
      rw [hlookup] at hq
      exact ⟨k, qblocks, q, hlookup, hq, rfl⟩
  · rintro ⟨k, qblocks, q, hlookup, hq, rfl⟩
    exact ⟨_, ⟨k, Finmap.mem_of_lookup_eq_some hlookup, q, by rwa [hlookup], rfl⟩, rfl⟩

theorem sound_start (env : Env) {initial_tip : Tip} (htip : OnChain env chain initial_tip) :
    ∃ w, start env initial_tip = .ok w ∧ Sound env chain w := by
  have hempty : Kept env chain ⟨none, ∅, .BeforeGenesis, []⟩ :=
    ⟨fun h qblocks hlookup => (by cases hlookup), fun h hh => (by cases hh), fun h hh => (by cases hh),
      fun tip hmem => by cases hmem⟩
  refine ⟨⟨⟨_, ∅, _, []⟩, 0, [], [], []⟩, ?_, hempty.reset htip, by simp [requests, items_empty],
    List.nodup_nil, by simp⟩
  unfold start from_checkpoint_list
  simp only [diagnostics_ok]
  rfl

/-- Blocks have the hash of a block on the chain only if they have its header. Resets are to tips on the
chain. -/
def Proper (env : Env) (chain : Nat → Header) : Event → Prop
  | .call block => CollisionFree env chain block
  | .reset tip => OnChain env chain tip

theorem step_ok {w : System} (h : Sound env chain w) (hchain : OnOneChain env chain) {e : Event}
    (he : Proper env chain e) :
    ∃ w', w.step env e = .ok w' ∧ Sound env chain w' ∧ AnswersRange env w w' := by
  cases e with
  | reset tip =>
    refine ⟨_, rfl, ⟨⟨h.kept.lists, h.kept.initial, h.kept.previous, fun t ht => ?_⟩, h.requests_eq, h.once,
      h.fresh⟩, [], [], by simp, by simp, .inl rfl⟩
    rcases List.mem_append.mp ht with ht | ht
    · exact h.kept.resets t ht
    · exact List.mem_singleton.mp ht ▸ he
  | call block =>
    obtain ⟨v₀, hreset, hkept, ⟨e, hcall, hqueued⟩ |
        ⟨queued', v', replaced, sent, hcall, -, hkept', -, hreplaced, -, -, hstep, -, hrequests⟩⟩ :=
      call_ok h.kept hchain he w.calls
    · refine ⟨_, except_bind_ok.mpr ⟨_, hcall, rfl⟩, ⟨hkept, ?_, ?_, ?_⟩, [], [], by simp, by simp, .inl rfl⟩
      · simpa [hqueued] using h.requests_eq
      · simpa using h.once
      · simpa using fun n hn => Nat.lt_succ_of_lt (h.fresh n hn)
    · refine ⟨_, except_bind_ok.mpr ⟨_, hcall, rfl⟩, ⟨hkept', ?_, ?_, ?_⟩, ?_⟩
      · have hbefore := h.requests_eq
        simp only [Option.isNone_none, if_true, List.map_append, ← Multiset.coe_add, Multiset.coe_singleton]
          at hrequests ⊢
        rw [← hbefore, add_assoc, ← hrequests]
        abel
      · have hnew : w.calls ∉ w.accepted := fun hmem => absurd (h.fresh _ hmem) (lt_irrefl _)
        simp only [Option.isNone_none, if_true]
        rw [List.nodup_append]
        exact ⟨h.once, List.nodup_singleton _, by simpa using fun n hn => ne_of_mem_of_not_mem hn hnew⟩
      · intro n hn
        simp only [Option.isNone_none, if_true, List.mem_append, List.mem_singleton] at hn
        rcases hn with hn | rfl
        · exact Nat.lt_succ_of_lt (h.fresh n hn)
        · exact Nat.lt_succ_self _
      · rcases hstep with ⟨-, hfailed⟩ | ⟨target, blocks, failed, hverified, hfailed, rfl, hempty, -⟩
        · refine ⟨replaced ++ sent, [], by simp, fun a ha => ?_, .inl rfl⟩
          rcases List.mem_append.mp ha with ha | ha
          · exact hreplaced a ha
          · exact (hfailed a ha).error
        · refine ⟨replaced ++ failed, blocks, by simp, fun a ha => ?_, .inr ⟨v₀, target, hreset, hverified, hempty⟩⟩
          rcases List.mem_append.mp ha with ha | ha
          · exact hreplaced a ha
          · exact (hfailed a ha).error

end System

/-- No run of the verifier fails. Each step answers `Ok` for a whole range or for nothing, and the
requests are accounted for after every step. -/
theorem checkpoint_verification_exact (hchain : OnOneChain env chain) {initial_tip : Tip}
    (htip : OnChain env chain initial_tip) {events : List Event} (hproper : ∀ e ∈ events, System.Proper env chain e) :
    ∃ w₀, System.start env initial_tip = .ok w₀ ∧ w₀.Accounted ∧
      ∀ done e, done ++ [e] <+: events → ∃ w w', run (System.step env) w₀ done = .ok w ∧
        w.step env e = .ok w' ∧ System.AnswersRange env w w' ∧ w'.Accounted := by
  obtain ⟨w₀, hstart, hsound⟩ := System.sound_start env htip
  refine ⟨w₀, hstart, hsound.accounted, fun done e hprefix => ?_⟩
  obtain ⟨w, w', hrun, hstep, hw', hanswers⟩ := run_step_keeps (fun w e hw he => System.step_ok hw hchain he)
    hsound (Meets.of_forall hproper w₀) hprefix
  exact ⟨w, w', hrun, hstep, hanswers, hw'.accounted⟩

namespace Sample

variable (side : Nat) (height : Nat)

def mark : BlockHash := ⟨UInt8.ofNat (side + 1) :: UInt8.ofNat height :: List.replicate 30 0, rfl⟩

def parent : Nat → BlockHash
  | 0 => GENESIS_PREVIOUS_BLOCK_HASH
  | height + 1 => mark 0 height

def header : Header := .blank (parent height) (mark side height) 0

def block : Block where
  header := header side height
  transactions := [⟨mark side height, .V1 [.Coinbase height] []⟩]

def list : CheckpointList where
  checkpoints := ((∅ : Map Nat BlockHash).insert 0 (mark 0 0)).insert 2 (mark 0 2)
  genesis := by decide
  unique := by
    intro h h' x hx hx'
    rw [lookup_insert', lookup_insert'] at hx hx'
    grind [mark, Finmap.lookup_empty]
  not_null := by
    intro h
    rw [lookup_insert', lookup_insert']
    split
    · decide
    · split
      · decide
      · simp
  valid_heights := by
    intro h hh
    simp only [Finmap.mem_insert, Finmap.notMem_empty, or_false] at hh
    unfold MAX_HEIGHT
    omega

def rules : Env := ⟨list, Header.merkle_root, fun _ _ => .ok ()⟩

theorem onOneChain : OnOneChain rules (header 0) where
  genesis := rfl
  linked _ _ := rfl
  listed h x hx := by
    change (((∅ : Map Nat BlockHash).insert 0 (mark 0 0)).insert 2 (mark 0 2)).lookup h = some x at hx
    rw [lookup_insert', lookup_insert'] at hx
    split at hx
    · next heq =>
      cases hx
      exact heq ▸ rfl
    · split at hx
      · next heq =>
        cases hx
        exact heq ▸ rfl
      · simp at hx

theorem collisionFree {side height : Nat} (hside : side ≤ 1) (hheight : height ≤ 2) :
    CollisionFree rules (header 0) (block side height) := by
  intro k hk _ heq
  rw [show rules.checkpoint_list.max_height = 2 by decide] at hk
  interval_cases side <;> interval_cases height <;> interval_cases k <;> revert heq <;> decide

def arrivals : List Event :=
  [.call (block 0 1), .call (block 0 0), .call (block 0 1), .call (block 1 2), .reset none,
    .call (block 0 0), .call (block 0 2)]

end Sample

open checkpoint.Sample

/-- The side chain block is answered when the walk from the last checkpoint stops at it. -/
theorem sample_verification_exact : ∃ w₀, System.start rules none = .ok w₀ ∧ w₀.Accounted ∧
      ∀ done e, done ++ [e] <+: arrivals → ∃ w w', run (System.step rules) w₀ done = .ok w ∧
        w.step rules e = .ok w' ∧ System.AnswersRange rules w w' ∧ w'.Accounted :=
  checkpoint_verification_exact onOneChain (fun _ _ h => by cases h) (by
    simp only [arrivals, List.forall_mem_cons, List.not_mem_nil, false_imp_iff, implies_true, and_true]
    refine ⟨collisionFree ?_ ?_, collisionFree ?_ ?_, collisionFree ?_ ?_,
      collisionFree ?_ ?_, fun _ _ h => (by cases h), collisionFree ?_ ?_,
      collisionFree ?_ ?_⟩ <;> decide)

end ZebraCrosslink.checkpoint
