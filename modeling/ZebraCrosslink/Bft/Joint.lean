import Mathlib
import ZebraCrosslink.Bft.Forward
import ZebraCrosslink.Bft.Store
import ZebraCrosslink.State.World

/-!
# The service and the worker together

The two side by side, under any interleaving of decided blocks, requests and worker messages.
-/

open Rust

namespace ZebraCrosslink

structure Setup where
  crypto : Crypto
  order : PubKeyOrder
  profile : Profile
  rules : ContextRules

def Setup.node (S : Setup) : Node World where
  crypto := S.crypto
  order := S.order
  profile := S.profile
  call := { state := World.state S.rules }

structure Joint where
  internal : TFLServiceInternal
  worker : WriteBlockWorkerTask

/-- `schedule` is what the worker receives while the service works on its request. -/
inductive JointAction
  | receive (event : WorkerEvent)
  | decided (fuel : Nat) (b : BftBlock) (fp : FatPointerToBftBlock2)
      (schedule : List (List WorkerEvent))
  | setFinal (hash : BlockHash) (schedule : List (List WorkerEvent))
  | activate

namespace Joint

def next (S : Setup) (j : Joint) : JointAction → Except Abort Joint
  | .receive event => do
    let worker ← j.worker.step S.rules event
    pure { j with worker }
  | .decided fuel b fp schedule => do
    let ((internal, _), e) ←
      new_decided_bft_block_from_malachite S.node fuel j.internal b fp ⟨j.worker, schedule⟩
    pure { internal, worker := e.worker }
  | .setFinal hash schedule => do
    let ((internal, _), e) ← tfl_set_finality_by_hash S.node j.internal hash ⟨j.worker, schedule⟩
    pure { internal, worker := e.worker }
  | .activate => .ok { j with internal := { j.internal with tfl_is_activated := true } }

def Next (S : Setup) (P : Joint → JointAction → Prop) (j j' : Joint) : Prop :=
  ∃ a, P j a ∧ j.next S a = .ok j'

def spawn (is_regtest : Bool) (peers : List (MalPublicKey × String)) (own : MalPublicKey × String)
    (db : ZebraDb) : Joint where
  internal := spawn_new_tfl_service is_regtest peers own
  worker := .spawn db

end Joint

open Joint

def WriteBlockWorkerTask.Has (w : WriteBlockWorkerTask) (x : BlockHash) : Prop :=
  w.finalized_state.contains_hash x = true ∨
    ∃ c ∈ w.non_finalized_state.chain_set, c.contains_block_hash x = true

def JointAction.Fed (name : BlockHash → Block) : JointAction → Prop
  | .receive event => Brings name event
  | .decided _ _ _ schedule => FedBy name schedule
  | .setFinal _ schedule => FedBy name schedule
  | .activate => True

/-- The worker can follow: it has finished the checkpoints and has the block when the finalize
request arrives, and a requested block that the state knows is in the database already. -/
def Joint.CanFollow (S : Setup) (j : Joint) : JointAction → Prop
  | .decided _ b fp schedule => ∀ nf e₁ e₂,
      check_decided S.node j.internal b fp ⟨j.worker, schedule⟩ = .ok (nf, e₁) →
        World.deliver S.rules e₁ = .ok ((), e₂) →
          e₂.worker.checkpointing = false ∧ e₂.worker.Has nf.2
  | .setFinal x schedule => j.internal.tfl_is_activated = true → ∀ height e₁,
      block_height_from_hash S.node.call x ⟨j.worker, schedule⟩ = .ok (some height, e₁) →
        j.worker.finalized_state.contains_hash x = true
  | _ => True

structure Agrees (name : BlockHash → Block) (j : Joint) : Prop where
  kept : Kept (PowPath name) j.worker
  stored : ∀ h x, j.internal.latest_final_block = some (h, x) →
    j.worker.finalized_state.hash h = some x

open Relation (ReflTransGen)

section Joint

variable {S : Setup} {name : BlockHash → Block} {s s' : TFLServiceInternal} {e e' : World} {j j' : Joint}
  {a : JointAction} {h : Nat} {x : BlockHash} {db : ZebraDb}

theorem fedBy_nil (name : BlockHash → Block) : FedBy name [] := by simp [FedBy]

theorem call_along (S : Setup) (name : BlockHash → Block) (req : StateRequest) :
    Exec.Along (Later name) (S.node.call.state req) := state_along req

theorem hash_lt (hx : db.hash h = some x) : h < db.blocks.length := by
  obtain ⟨b, hb, -⟩ := Option.map_eq_some_iff.mp hx
  exact (List.getElem?_eq_some_iff.mp hb).1

theorem hash_mono {db' : ZebraDb} (hpart : db.blocks <+: db'.blocks) (hx : db.hash h = some x) :
    db'.hash h = some x := by
  rw [hash_of_part hpart (hash_lt hx), hx]

/-! ## What one call learns -/

theorem block_height_named (hs : Sound name e)
    (hk : block_height_from_hash S.node.call x e = .ok (some h, e')) :
    (name x).coinbase_height = some h := by
  unfold block_height_from_hash at hk
  rw [bind_ok] at hk
  obtain ⟨reply, e₁, hreply, hk⟩ := hk
  obtain ⟨e₀, h₀, h₁, hread⟩ := read_ok name hreply
  obtain ⟨hs₀, -⟩ := h₀ hs
  obtain ⟨hs₁, -⟩ := h₁ hs₀
  split at hk
  · rename_i known
    obtain ⟨hheight, -⟩ := (pure_ok ..).mp hk
    rw [Option.some.inj hheight]
    exact hs₀.kept.published.known_block hs₁.kept.db hread
  · cases ((pure_ok ..).mp hk).1

theorem crosslink_finalize_stores (hs : Sound name e)
    (hhas : ∀ e₁, World.deliver S.rules e = .ok ((), e₁) →
      e₁.worker.checkpointing = false ∧ e₁.worker.Has x)
    (hf : crosslink_finalize S.node.call x e = .ok ((), e')) : ∃ b ∈ e'.db.blocks, b.hash = x := by
  unfold crosslink_finalize at hf
  rw [bind_ok] at hf
  obtain ⟨reply, e₂, hreply, hf⟩ := hf
  have hsame : e' = e₂ := by
    split at hf
    · exact ((Exec.assert_ok ..).mp hf).2
    · cases hf
    · exact ((pure_ok ..).mp hf).2
  subst hsame
  obtain ⟨e₁, h₁, hcase⟩ := crosslink_finalize_block_ok hreply
  obtain ⟨hopen, hx⟩ := hhas e₁ h₁
  obtain ⟨hs₁, -⟩ := (deliver_along _ _ _ h₁ : Later name e e₁) hs
  rcases hcase with ⟨hclosed, -⟩ | ⟨-, -, r, hfin⟩
  · rw [hopen] at hclosed
    cases hclosed
  · exact hs₁.kept.crosslink_finalized_contains (lasting_powPath name) hx hfin

/-! ## Steps -/

theorem next_kept (hk : Kept (PowPath name) j.worker) (hfed : a.Fed name)
    (hnext : j.next S a = .ok j') : Grows (PowPath name) j.worker j'.worker := by
  have hR := later_forward name
  cases a with
  | receive event =>
    simp only [next, except_bind_ok] at hnext
    obtain ⟨worker, hstep, hnext⟩ := hnext
    cases hnext
    exact hk.step (lasting_powPath name) (fits_of_brings hfed) hstep
  | decided fuel b fp schedule =>
    simp only [next, except_bind_ok] at hnext
    obtain ⟨⟨⟨s', roster⟩, e'⟩, hstep, hnext⟩ := hnext
    cases hnext
    obtain ⟨hs, hpart⟩ := new_decided_along hR (call_along S name) fuel j.internal b fp _ _ _ hstep
      ⟨hk, hfed⟩
    exact ⟨hs.kept, hpart⟩
  | setFinal x schedule =>
    simp only [next, except_bind_ok] at hnext
    obtain ⟨⟨⟨s', height⟩, e'⟩, hstep, hnext⟩ := hnext
    cases hnext
    obtain ⟨hs, hpart⟩ := set_finality_along hR (call_along S name) j.internal x _ _ _ hstep
      ⟨hk, hfed⟩
    exact ⟨hs.kept, hpart⟩
  | activate =>
    cases hnext
    exact hk.grows

theorem Agrees.decided {fuel : Nat} {b : BftBlock} {fp : FatPointerToBftBlock2}
    {roster : List SortedRosterMember} (hs : Sound name e)
    (hhas : ∀ nf e₁ e₂, check_decided S.node s b fp e = .ok (nf, e₁) →
      World.deliver S.rules e₁ = .ok ((), e₂) →
        e₂.worker.checkpointing = false ∧ e₂.worker.Has nf.2)
    (hstep : new_decided_bft_block_from_malachite S.node fuel s b fp e = .ok ((s', roster), e')) :
    ∃ h x, s'.latest_final_block = some (h, x) ∧ new_final_hash S.crypto b = .ok x ∧
      (name x).coinbase_height = some h ∧ e'.db.hash h = some x := by
  have hR := later_forward name
  have hcall := call_along S name
  obtain ⟨⟨h, x⟩, e₁, hc', -, -, hlatest, -⟩ := new_decided_leaves _ _ _ _ _ _ _ _ _ hstep
  obtain ⟨nf, e₁', blocks, e₂, hc, -, hf, ha, -⟩ := (new_decided_ok ..).mp hstep
  obtain ⟨rfl, rfl⟩ := Prod.mk.inj (Except.ok.inj (hc'.symm.trans hc))
  obtain ⟨hs₁, -⟩ := check_decided_along hR hcall s b fp _ _ _ hc hs
  obtain ⟨-, -, hx, e₀, hval, hheight⟩ := (check_decided_ok ..).mp hc
  obtain ⟨hs₀, -⟩ := validate_along hR hcall s b _ _ _ hval hs
  have hnamed := block_height_named hs₀ hheight
  obtain ⟨c, hmem, hhash⟩ := crosslink_finalize_stores hs₁ (fun e₂ => hhas _ e₁ e₂ hc) hf
  obtain ⟨hs₂, -⟩ := crosslink_finalize_along hR hcall x _ _ _ hf hs₁
  obtain ⟨-, hpart⟩ := apply_new_final_along hR hcall fuel _ _ _ _ _ ha hs₂
  exact ⟨h, x, hlatest, hx, hnamed,
    hash_mono hpart (ZebraDb.hash_of_mem hs₂.kept.db hmem hhash hnamed)⟩

theorem Agrees.next (hagree : Agrees name j) (hfed : a.Fed name) (hcan : j.CanFollow S a)
    (hnext : j.next S a = .ok j') : Agrees name j' := by
  obtain ⟨hkept, hpart⟩ := next_kept hagree.kept hfed hnext
  refine ⟨hkept, fun h x hfinal => ?_⟩
  cases a with
  | receive event =>
    simp only [next, except_bind_ok] at hnext
    obtain ⟨worker, -, hnext⟩ := hnext
    cases hnext
    exact hash_mono hpart (hagree.stored h x hfinal)
  | decided fuel b fp schedule =>
    simp only [next, except_bind_ok] at hnext
    obtain ⟨⟨⟨s', roster⟩, e'⟩, hstep, hnext⟩ := hnext
    cases hnext
    have hs : Sound name ⟨j.worker, schedule⟩ := ⟨hagree.kept, hfed⟩
    obtain ⟨h', x', hlatest, -, -, hstored⟩ := Agrees.decided hs hcan hstep
    obtain ⟨rfl, rfl⟩ := Prod.mk.inj (Option.some.inj (hlatest.symm.trans hfinal))
    exact hstored
  | setFinal y schedule =>
    simp only [next, except_bind_ok] at hnext
    obtain ⟨⟨⟨s', r⟩, e'⟩, hstep, hnext⟩ := hnext
    cases hnext
    rcases set_finality_ok _ _ _ _ _ _ _ hstep with ⟨rfl, -⟩ | ⟨height, hact, hheight, rfl⟩
    · exact hash_mono hpart (hagree.stored h x hfinal)
    · obtain ⟨rfl, rfl⟩ := Prod.mk.inj (Option.some.inj hfinal)
      have hs : Sound name ⟨j.worker, schedule⟩ := ⟨hagree.kept, hfed⟩
      have hnamed := block_height_named hs hheight
      obtain ⟨b, hb, hx⟩ := ZebraDb.mem_of_contains (hcan hact _ _ hheight)
      exact hash_mono hpart (ZebraDb.hash_of_mem hagree.kept.db hb hx hnamed)
  | activate =>
    cases hnext
    exact hagree.stored h x hfinal

theorem agrees_spawn (is_regtest : Bool) (peers : List (MalPublicKey × String))
    (own : MalPublicKey × String) (hdb : PowPath name db.blocks) :
    Agrees name (spawn is_regtest peers own db) := ⟨Kept.spawn hdb, nofun⟩

theorem Agrees.run (hagree : Agrees name j)
    (hrun : ReflTransGen (Next S fun j a => a.Fed name ∧ j.CanFollow S a) j j') :
    Agrees name j' := by
  induction hrun with
  | refl => exact hagree
  | tail _ hstep ih =>
    obtain ⟨a, ⟨hfed, hcan⟩, hnext⟩ := hstep
    exact ih.next hfed hcan hnext

theorem run_grows (hk : Kept (PowPath name) j.worker)
    (hrun : ReflTransGen (Next S fun _ a => a.Fed name) j j') :
    Grows (PowPath name) j.worker j'.worker := by
  induction hrun with
  | refl => exact hk.grows
  | tail _ hstep ih =>
    obtain ⟨a, hfed, hnext⟩ := hstep
    obtain ⟨hk', hpart⟩ := next_kept ih.1 hfed hnext
    exact ⟨hk', ih.2.trans hpart⟩

/-! ## Finality queries -/

theorem compare_finalized {hash cmp_hash : BlockHash}
    (h : tfl_block_finality_from_height_hash.compare hash cmp_hash = .Finalized) :
    hash = cmp_hash := by
  by_contra hne
  rw [tfl_block_finality_from_height_hash.compare, if_neg hne] at h
  cases h

theorem header_at_height (hs : Sound name e) (hh : h < e.db.blocks.length) {header : Header}
    {k : Nat} (hreply : S.node.call.state (.BlockHeader (.Height h)) e =
      .ok (.ok (.BlockHeader header x k), e')) : e.db.hash h = some x := by
  obtain ⟨e₁, h₁, h₂, hread⟩ := read_ok name hreply
  obtain ⟨hs₁, hpart₁⟩ := h₁ hs
  obtain ⟨-, hpart₂⟩ := h₂ hs₁
  have hfound := block_header_hash hread
  rwa [hs₁.kept.published.hash_by_height hs₁.kept.db hpart₂ (hh.trans_le hpart₁.length_le),
    hash_of_part hpart₁ hh] at hfound

theorem block_finality_stored (hs : Sound name e) (hfinal : s.latest_final_block = some (h, x))
    (hx : e.db.hash h = some x) {height : Nat} {hash : BlockHash}
    (hq : tfl_block_finality_from_height_hash S.node s height hash e =
      .ok (.ok (some .Finalized), e')) : height ≤ h ∧ e.db.hash height = some hash := by
  have hlt := hash_lt hx
  unfold tfl_block_finality_from_height_hash tfl_final_block_height_hash at hq
  rw [hfinal, bind_ok] at hq
  obtain ⟨final, e₀, hfin, hq⟩ := hq
  obtain ⟨rfl, he₀⟩ := (pure_ok ..).mp hfin
  rw [he₀] at hq
  simp only at hq
  split at hq
  · cases ((pure_ok ..).mp hq).1
  split at hq
  · -- at the final height the final hash itself is compared
    rename_i heq
    have hcmp := ((pure_ok ..).mp hq).1
    rw [heq, compare_finalized (Option.some.inj (Except.ok.inj hcmp)).symm]
    exact ⟨le_rfl, hx⟩
  · rename_i hle hne
    rw [bind_ok] at hq
    obtain ⟨reply, e₂, hreply, hq⟩ := hq
    refine ⟨by omega, ?_⟩
    split at hq
    · have hcmp := ((pure_ok ..).mp hq).1
      rw [compare_finalized (Option.some.inj (Except.ok.inj hcmp)).symm]
      exact header_at_height hs (by omega) hreply
    · cases ((pure_ok ..).mp hq).1
    · cases ((pure_ok ..).mp hq).1

theorem tx_finality_stored (hs : Sound name e) (hfinal : s.latest_final_block = some (h, x))
    (hx : e.db.hash h = some x) {txid : TransactionHash}
    (hq : tx_finality_status S.node s txid e = .ok (.ok (some .Finalized), e')) :
    ∃ height ≤ h, ∃ b, e.db.blocks[height]? = some b ∧
      ∃ t ∈ b.block.transactions, t.hash = txid := by
  have hlt := hash_lt hx
  unfold tx_finality_status at hq
  rw [bind_ok] at hq
  obtain ⟨reply, e₂, hreply, hq⟩ := hq
  obtain ⟨e₁, h₁, h₂, hread⟩ := read_ok name hreply
  obtain ⟨hs₁, hpart₁⟩ := h₁ hs
  obtain ⟨hs₂, hpart₂⟩ := h₂ hs₁
  split at hq
  · rename_i tx
    unfold tfl_final_block_height_hash at hq
    rw [hfinal, bind_ok] at hq
    obtain ⟨final, e₃, hfin, hq⟩ := hq
    obtain ⟨rfl, -⟩ := (pure_ok ..).mp hfin
    simp only at hq
    split at hq
    · rename_i hle
      refine ⟨tx.height, hle, ?_⟩
      rw [ReadStateService.call, Except.ok.injEq, Except.ok.injEq,
        StateResponse.Transaction.injEq] at hread
      have hheight : tx.height < e.db.blocks.length := by omega
      obtain ⟨b, hb, ht⟩ := hs₁.kept.published.mined_transaction hs₂.kept.db hpart₂ hread
        (hheight.trans_le hpart₁.length_le)
      refine ⟨b, ?_, ht⟩
      obtain ⟨rest, hrest⟩ := hpart₁
      rw [← hb, ← hrest, List.getElem?_append_left hheight]
    · cases ((pure_ok ..).mp hq).1
  · cases ((pure_ok ..).mp hq).1

end Joint

/-- The final block is in the database for good, and the finality queries answer `Finalized` only
for it, for what it builds on and what is in there. -/
theorem final_block_stored_of_followed (S : Setup) (name : BlockHash → Block) (is_regtest : Bool)
    (peers : List (MalPublicKey × String)) (own : MalPublicKey × String) (db : ZebraDb)
    (hdb : PowPath name db.blocks) (j : Joint)
    (hrun : ReflTransGen (Joint.Next S fun j a => a.Fed name ∧ j.CanFollow S a)
      (Joint.spawn is_regtest peers own db) j)
    (h : Nat) (x : BlockHash) (hfinal : j.internal.latest_final_block = some (h, x)) :
    j.worker.finalized_state.hash h = some x ∧
      Read.hash_by_height j.worker.non_finalized_state_sender.best_chain j.worker.finalized_state h =
        some x ∧ (∀ j', ReflTransGen (Joint.Next S fun _ a => a.Fed name) j j' →
        j'.worker.finalized_state.hash h = some x) ∧
      (∀ schedule, FedBy name schedule → ∀ height y e',
        tfl_block_finality_from_height_hash S.node j.internal height y ⟨j.worker, schedule⟩ =
          .ok (.ok (some .Finalized), e') → Precedes name y x) ∧
      (∀ schedule, FedBy name schedule → ∀ txid e',
        tx_finality_status S.node j.internal txid ⟨j.worker, schedule⟩ =
          .ok (.ok (some .Finalized), e') →
            ∃ y, Precedes name y x ∧ ∃ t ∈ (name y).transactions, t.hash = txid) := by
  have hagree := (agrees_spawn is_regtest peers own hdb).run hrun
  have hx := hagree.stored h x hfinal
  have hpath := hagree.kept.db
  refine ⟨hx, ?_, ?_, ?_, ?_⟩
  · rw [hagree.kept.published.hash_by_height hpath (List.prefix_refl _) (hash_lt hx), hx]
  · intro j' hrun'
    exact hash_mono (run_grows hagree.kept hrun').2 hx
  · intro schedule hfed height y e' hq
    have hs : Sound name ⟨j.worker, schedule⟩ := ⟨hagree.kept, hfed⟩
    obtain ⟨hle, hy⟩ := block_finality_stored hs hfinal hx hq
    exact ZebraDb.precedes hpath hy hx hle
  · intro schedule hfed txid e' hq
    have hs : Sound name ⟨j.worker, schedule⟩ := ⟨hagree.kept, hfed⟩
    obtain ⟨height, hle, b, hb, ht⟩ := tx_finality_stored hs hfinal hx hq
    have hy : j.worker.finalized_state.hash height = some b.hash := by rw [ZebraDb.hash, hb]; rfl
    refine ⟨b.hash, ZebraDb.precedes hpath hy hx hle, ?_⟩
    rw [← (hpath.named b (List.mem_of_getElem? hb)).block]
    exact ht

/-! ## Sample runs -/

namespace Sample

def setup : Setup where
  crypto := crypto
  order := byteOrder
  profile := .dev
  rules := ⟨fun _ _ => none, fun _ _ _ => none, fun _ _ _ => none, fun _ _ => none⟩

def coinbase (height : Nat) : Transaction where
  hash := fit [200, UInt8.ofNat height]
  data := .V5 height [.Coinbase height] [{ value := ⟨1, Constraint.holds_one⟩, lock_script := [] }] none none

def mined (height : Nat) (txs : List Transaction) : ContextuallyVerifiedBlock where
  block := {
    header := { header (UInt8.ofNat (9 + height)) (UInt8.ofNat (10 + height)) with
      previous_block_hash :=
        if height = 0 then GENESIS_PREVIOUS_BLOCK_HASH else id (UInt8.ofNat (9 + height))
      difficulty_threshold := 0x200f0f0f }
    transactions := coinbase height :: txs }
  hash := id (UInt8.ofNat (10 + height))
  height := height

variable (txs : Nat → List Transaction) {P : Joint → JointAction → Prop}

def namesWith (x : BlockHash) : Block :=
  (mined ((x.val.headD 0).toNat - 10) (txs ((x.val.headD 0).toNat - 10))).block

theorem mined_namedWith (height : Nat) (h : height < 200) :
    Named (namesWith txs) (mined height (txs height)) where
  block := by
    have : (((id (UInt8.ofNat (10 + height))).val.headD 0).toNat - 10) = height := by
      change (UInt8.ofNat (10 + height)).toNat - 10 = height
      rw [UInt8.toNat_ofNat', Nat.mod_eq_of_lt (by omega)]
      omega
    change _ = namesWith txs (id (UInt8.ofNat (10 + height)))
    rw [namesWith, this]
  height := rfl
  hash_ne := by
    intro hzero
    have hhead := congrArg (fun x => (x.val.headD 0).toNat) hzero
    change (UInt8.ofNat (10 + height)).toNat = 0 at hhead
    rw [UInt8.toNat_ofNat', Nat.mod_eq_of_lt (by omega)] at hhead
    omega
  short := by
    change height < MAX_HEIGHT
    unfold MAX_HEIGHT
    omega

def names : BlockHash → Block := namesWith fun _ => []

theorem mined_named (height : Nat) (h : height < 200) : Named names (mined height []) :=
  mined_namedWith (fun _ => []) height h

theorem genesis_path : PowPath names [mined 0 []] :=
  PowPath.nil.append_singleton (mined_named 0 (by omega)) rfl rfl

def advance (j : Joint) (a : JointAction) : Joint :=
  match j.next setup a with
  | .ok j' => j'
  | .error _ => j

theorem next_advance {j : Joint} {a : JointAction} (h : (j.next setup a).isOk = true) :
    j.next setup a = .ok (advance j a) := by
  obtain ⟨j', hnext⟩ := exists_of_isOk h
  rw [advance, hnext]

def joint : Joint := .spawn true [] (id 1, "own") ⟨[mined 0 []]⟩

def oneBlock : Joint :=
  advance (advance joint (.receive .CheckpointsClosed)) (.receive (.Write (.Commit (mined 1 []))))

def finalizer (height : UInt32) (prev : FatPointerToBftBlock2) (n : Nat) : BftBlock :=
  bftBlock height prev [(mined n []).block.header]

def decision (b : BftBlock) : JointAction := .decided 3 b (pointer b) []

theorem decision_follows {j : Joint} {b : BftBlock} (nf : Nat × BlockHash)
    (hcheck : check_decided setup.node j.internal b (pointer b) ⟨j.worker, []⟩ =
      .ok (nf, ⟨j.worker, []⟩))
    (hopen : j.worker.checkpointing = false) (hhas : j.worker.Has nf.2) :
    j.CanFollow setup (decision b) := by
  intro nf' e₁ e₂ hc hd
  obtain ⟨rfl, rfl⟩ := Prod.mk.inj (Except.ok.inj (hcheck.symm.trans hc))
  cases hd
  exact ⟨hopen, hhas⟩

def firstFinal : BftBlock := finalizer 1 FatPointerToBftBlock.null 1

theorem firstFinal_follows : oneBlock.CanFollow setup (decision firstFinal) :=
  decision_follows (1, id 11) rfl rfl (.inr ⟨⟨[mined 1 []]⟩, List.mem_cons_self, by decide +kernel⟩)

theorem oneBlock_reached (hclose : P joint (.receive .CheckpointsClosed))
    (hcommit : P (advance joint (.receive .CheckpointsClosed))
      (.receive (.Write (.Commit (mined 1 []))))) : ReflTransGen (Next setup P) joint oneBlock :=
  (ReflTransGen.single ⟨_, hclose, next_advance (by decide +kernel)⟩).tail
    ⟨_, hcommit, next_advance (by decide +kernel)⟩

def oneFinal : Joint := advance oneBlock (decision firstFinal)

theorem oneFinal_reached (hclose : P joint (.receive .CheckpointsClosed))
    (hcommit : P (advance joint (.receive .CheckpointsClosed))
      (.receive (.Write (.Commit (mined 1 []))))) (hdecide : P oneBlock (decision firstFinal)) :
    ReflTransGen (Next setup P) joint oneFinal :=
  (oneBlock_reached hclose hcommit).tail ⟨_, hdecide, next_advance (by decide +kernel)⟩

end Sample

open Sample

theorem final_block_stored_of_followed_sample :
    oneFinal.worker.finalized_state.hash 1 = some (Sample.id 11) ∧
      ∀ j', ReflTransGen (Joint.Next setup fun _ a => a.Fed names) oneFinal j' →
        j'.worker.finalized_state.hash 1 = some (Sample.id 11) := by
  have hrun : ReflTransGen (Joint.Next setup fun j a => a.Fed names ∧ j.CanFollow setup a)
      joint oneFinal :=
    oneFinal_reached ⟨trivial, trivial⟩ ⟨mined_named 1 (by omega), trivial⟩
      ⟨fedBy_nil _, firstFinal_follows⟩
  obtain ⟨hx, -, hlater, -⟩ := final_block_stored_of_followed setup names true []
    (Sample.id 1, "own") ⟨[mined 0 []]⟩ genesis_path _ hrun 1 (Sample.id 11)
    (by decide +kernel)
  exact ⟨hx, hlater⟩

/-- The service calls the requested block final, and the worker never hears of it. -/
theorem requested_final_block_not_stored :
    ∃ j, ReflTransGen (Joint.Next setup fun _ a => a.Fed names) joint j ∧
      j.internal.latest_final_block = some (1, Sample.id 11) ∧
      j.worker.finalized_state.hash 1 = none := by
  refine ⟨advance oneBlock (.setFinal (Sample.id 11) []), ?_, by decide +kernel, by decide +kernel⟩
  exact (oneBlock_reached trivial (mined_named 1 (by omega))).tail
    ⟨.setFinal (Sample.id 11) [], fedBy_nil _, next_advance (by decide +kernel)⟩

/-! ## Runs of decided blocks -/

/-- A decided block is not below the final one, and nothing else sets the final block. -/
def Joint.Rises (S : Setup) (name : BlockHash → Block) (j : Joint) : JointAction → Prop
  | .decided _ b _ _ => ∀ x height final, new_final_hash S.crypto b = .ok x →
      (name x).coinbase_height = some height → j.internal.latest_final_block = some final →
        final.1 ≤ height
  | .setFinal _ _ => False
  | _ => True

/-- If no decided block is below the final block, each new final block builds on the one before it.
-/
theorem final_block_rises_of_followed (S : Setup) (name : BlockHash → Block) (is_regtest : Bool)
    (peers : List (MalPublicKey × String)) (own : MalPublicKey × String) (db : ZebraDb)
    (hdb : PowPath name db.blocks) (j j' : Joint) (hrun : ReflTransGen
      (Joint.Next S fun j a => a.Fed name ∧ j.CanFollow S a ∧ j.Rises S name a)
      (Joint.spawn is_regtest peers own db) j)
    (hstep : Joint.Next S (fun j a => a.Fed name ∧ j.CanFollow S a ∧ j.Rises S name a) j j')
    (h₁ h₂ : Nat) (x₁ x₂ : BlockHash) (hbefore : j.internal.latest_final_block = some (h₁, x₁))
    (hafter : j'.internal.latest_final_block = some (h₂, x₂)) : h₁ ≤ h₂ ∧ Precedes name x₁ x₂ := by
  have hfollowed : ReflTransGen (Joint.Next S fun j a => a.Fed name ∧ j.CanFollow S a)
      (Joint.spawn is_regtest peers own db) j := by
    refine ReflTransGen.mono ?_ _ _ hrun
    rintro j j' ⟨a, ⟨hfed, hcan, -⟩, hnext⟩
    exact ⟨a, ⟨hfed, hcan⟩, hnext⟩
  have hagree := (agrees_spawn is_regtest peers own hdb).run hfollowed
  obtain ⟨a, ⟨hfed, hcan, hrise⟩, hnext⟩ := hstep
  have hagree' := hagree.next hfed hcan hnext
  have hx₁ := hash_mono (next_kept hagree.kept hfed hnext).2 (hagree.stored h₁ x₁ hbefore)
  have hx₂ := hagree'.stored h₂ x₂ hafter
  suffices hle : h₁ ≤ h₂ from ⟨hle, ZebraDb.precedes hagree'.kept.db hx₁ hx₂ hle⟩
  cases a with
  | receive event =>
    simp only [Joint.next, except_bind_ok] at hnext
    obtain ⟨worker, -, hnext⟩ := hnext
    cases hnext
    exact (Prod.mk.inj (Option.some.inj (hbefore.symm.trans hafter))).1.le
  | decided fuel b fp schedule =>
    simp only [Joint.next, except_bind_ok] at hnext
    obtain ⟨⟨⟨s', roster⟩, e'⟩, hdecided, hnext⟩ := hnext
    cases hnext
    have hs : Sound name ⟨j.worker, schedule⟩ := ⟨hagree.kept, hfed⟩
    obtain ⟨h, x, hlatest, hx, hnamed, -⟩ := Agrees.decided hs hcan hdecided
    obtain ⟨rfl, rfl⟩ := Prod.mk.inj (Option.some.inj (hlatest.symm.trans hafter))
    exact hrise x h (h₁, x₁) hx hnamed hbefore
  | setFinal x schedule => exact hrise.elim
  | activate =>
    cases hnext
    exact (Prod.mk.inj (Option.some.inj (hbefore.symm.trans hafter))).1.le

namespace Sample

theorem decision_rises {j : Joint} {b : BftBlock} {x : BlockHash} {h : Nat}
    (hx : new_final_hash crypto b = .ok x) (hh : (names x).coinbase_height = some h)
    (hfinal : ∀ final, j.internal.latest_final_block = some final → final.1 ≤ h) :
    j.Rises setup names (decision b) := by
  intro y height final hy hheight hlatest
  cases hx.symm.trans hy
  cases hh.symm.trans hheight
  exact hfinal final hlatest

def secondBlock : Joint := advance oneFinal (.receive (.Write (.Commit (mined 2 []))))

def secondFinal : BftBlock := finalizer 2 (pointer firstFinal) 2

def twoBlocks : Joint := advance oneBlock (.receive (.Write (.Commit (mined 2 []))))

def higherFinal : BftBlock := finalizer 1 FatPointerToBftBlock.null 2

def lowerFinal : BftBlock := finalizer 2 (pointer higherFinal) 1

end Sample

theorem final_block_rises_of_followed_sample : Precedes names (Sample.id 11) (Sample.id 12) := by
  have hrun : ReflTransGen (Joint.Next setup fun j a => a.Fed names ∧
      j.CanFollow setup a ∧ j.Rises setup names a)
      joint secondBlock := by
    refine (oneFinal_reached ⟨trivial, trivial, trivial⟩
      ⟨mined_named 1 (by omega), trivial, trivial⟩
      ⟨fedBy_nil _, firstFinal_follows, ?_⟩).tail
      ⟨.receive (.Write (.Commit (mined 2 []))),
        ⟨mined_named 2 (by omega), trivial, trivial⟩, next_advance (by decide +kernel)⟩
    exact decision_rises (x := Sample.id 11) rfl rfl nofun
  have hfollow : secondBlock.CanFollow setup (decision secondFinal) :=
    decision_follows (2, Sample.id 12) rfl rfl
      (.inr ⟨⟨[mined 2 []]⟩, List.mem_cons_self, by decide +kernel⟩)
  refine (final_block_rises_of_followed setup names true [] (Sample.id 1, "own")
    ⟨[mined 0 []]⟩ genesis_path secondBlock
    (advance secondBlock (decision secondFinal)) hrun
    ⟨decision secondFinal, ⟨fedBy_nil _, hfollow, ?_⟩, next_advance (by decide +kernel)⟩
    1 2 (Sample.id 11) (Sample.id 12) (by decide +kernel) (by decide +kernel)).2
  refine decision_rises (x := Sample.id 12) (h := 2) rfl rfl ?_
  rintro final hfinal
  have hlatest : secondBlock.internal.latest_final_block = some (1, Sample.id 11) := by
    decide +kernel
  rw [hlatest] at hfinal
  cases hfinal
  decide

/-- After a block that finalizes height 2, a block that finalizes height 1 is committed as well. -/
theorem final_block_drops : ∃ j j', ReflTransGen (Joint.Next setup fun _ a => a.Fed names) joint j ∧
      j.next setup (decision lowerFinal) = .ok j' ∧
      j.internal.latest_final_block = some (2, Sample.id 12) ∧
      j'.internal.latest_final_block = some (1, Sample.id 11) := by
  refine ⟨advance twoBlocks (decision higherFinal),
    advance (advance twoBlocks (decision higherFinal))
      (decision lowerFinal), ?_, next_advance (by decide +kernel),
    by decide +kernel, by decide +kernel⟩
  have hone : ReflTransGen (Joint.Next setup fun _ a => a.Fed names) joint oneBlock :=
    oneBlock_reached trivial (mined_named 1 (by omega))
  have htwo := hone.tail (c := twoBlocks)
    ⟨.receive (.Write (.Commit (mined 2 []))), mined_named 2 (by omega),
      next_advance (by decide +kernel)⟩
  exact htwo.tail ⟨decision higherFinal, fedBy_nil _, next_advance (by decide +kernel)⟩

/-- A height that is in the database is answered with the same hash for good, whatever requests and
messages come in between. -/
theorem finalized_reads_stable {S : Setup} {name : BlockHash → Block} {e f f' : World} {h k : Nat}
    {reqs : List StateRequest} {replies : List (Except String StateResponse)} {header : Header}
    {x : BlockHash} (hs : Sound name e) (hh : h < e.db.blocks.length)
    (hserved : reqs.mapM (World.state S.rules) e = .ok (replies, f))
    (hread : World.state S.rules (.BlockHeader (.Height h)) f = .ok (.ok (.BlockHeader header x k), f')) :
    e.db.hash h = some x := by
  obtain ⟨hf, hpart⟩ := Exec.Along.mapM (later_forward name) state_along reqs e _ f hserved hs
  rw [← hash_of_part hpart hh]
  exact header_at_height (S := S) hf (hh.trans_le hpart.length_le) hread

namespace Sample

/-- Blocks 2 to 4 are committed and finalized before, between and during the requests. -/
def busy : World where
  worker := .spawn ⟨[mined 0 [], mined 1 []]⟩
  schedule :=
    [[.CheckpointsClosed, .Write (.Commit (mined 2 []))], [], [.Write (.Commit (mined 3 []))],
      [.Write (.Commit (mined 4 [])), .Write (.CrosslinkFinalized (id 13))],
      [.Write (.CrosslinkFinalized (id 14))]]

theorem busy_sound : Sound names busy where
  kept := .spawn (genesis_path.append_singleton (mined_named 1 (by omega)) rfl rfl)
  fed := by
    simp only [busy, FedBy, Brings, List.mem_cons, List.not_mem_nil, or_false, forall_eq_or_imp,
      forall_eq, IsEmpty.forall_iff, implies_true, and_true, true_and]
    exact ⟨mined_named 2 (by omega), mined_named 3 (by omega), mined_named 4 (by omega)⟩

end Sample

theorem read_amid_finalizations : ∃ replies f f' header k,
    [.Tip, .CrosslinkFinalizeBlock (Sample.id 12)].mapM (World.state setup.rules) busy = .ok (replies, f) ∧
      World.state setup.rules (.BlockHeader (.Height 1)) f =
        .ok (.ok (.BlockHeader header (Sample.id 11) k), f') ∧
      f.db.blocks.length = 3 ∧ f'.db.blocks.length = 5 ∧ busy.db.hash 1 = some (Sample.id 11) :=
  have hserved : [.Tip, .CrosslinkFinalizeBlock (Sample.id 12)].mapM (World.state setup.rules) busy =
      .ok (_, _) := rfl
  ⟨_, _, _, _, _, hserved, rfl, rfl, rfl, finalized_reads_stable busy_sound (by decide) hserved rfl⟩

end ZebraCrosslink
