import Mathlib
import ZebraCrosslink.Bft.Joint
import ZebraCrosslink.Bft.StakeRun
import ZebraCrosslink.State.Fresh
import ZebraCrosslink.State.Kept
import ZebraCrosslink.State.Once

/-!
# Staking transactions that are applied again

Nothing in the roster remembers a transaction. Whether an action counts once is up to the chain.
-/

open Rust List

namespace ZebraCrosslink

/-! ## Which transactions change the roster -/

/-- `update_roster_for_block`, with the ids of the transactions that changed the roster. -/
def transactions_changes (p : Profile) : List Transaction → List MalValidator → KeysToNames →
    Except Abort (List TransactionHash × List MalValidator × KeysToNames)
  | [], roster, names => .ok ([], roster, names)
  | tx :: rest, roster, names =>
    match tx.staking_action with
    | none => transactions_changes p rest roster names
    | some action => do
      let (new_roster, names, _) ← update_roster_for_cmd p roster names action
      let (changes, result) ← transactions_changes p rest new_roster names
      pure ((if new_roster = roster then [] else [tx.hash]) ++ changes, result)

/-- `stake_blocks`, with the ids of the transactions that changed the roster. -/
def roster_changes (p : Profile) : List Block → List MalValidator → KeysToNames →
    Except Abort (List TransactionHash × List MalValidator × KeysToNames)
  | [], roster, names => .ok ([], roster, names)
  | block :: rest, roster, names => do
    let roster ← distribute_rewards p roster
    let (changes, roster, names) ← transactions_changes p block.transactions roster names
    let (more, result) ← roster_changes p rest roster names
    pure (changes ++ more, result)

variable {r : List TransactionHash × List MalValidator × KeysToNames} {names : KeysToNames}
  {roster : List MalValidator} {p : Profile}

theorem transactions_changes_sublist {txs : List Transaction}
    (h : transactions_changes p txs roster names = .ok r) : r.1.Sublist (txs.map (·.hash)) := by
  induction txs generalizing roster names r with
  | nil =>
    cases h
    exact Sublist.refl []
  | cons tx rest ih =>
    rw [transactions_changes] at h
    cases haction : tx.staking_action with
    | none =>
      rw [haction] at h
      exact (ih h).cons _
    | some action =>
      simp only [haction, except_bind_ok] at h
      obtain ⟨⟨roster', names', _⟩, -, ⟨changes, result⟩, hrest, hr⟩ := h
      cases hr
      have hfirst : (if roster' = roster then [] else [tx.hash]).Sublist [tx.hash] := by
        split
        · exact nil_sublist _
        · exact Sublist.refl _
      exact hfirst.append (ih hrest)

theorem roster_changes_sublist {blocks : List Block}
    (h : roster_changes p blocks roster names = .ok r) :
    r.1.Sublist (blocks.flatMap fun b => b.transactions.map (·.hash)) := by
  induction blocks generalizing roster names r with
  | nil =>
    cases h
    exact Sublist.refl []
  | cons block rest ih =>
    simp only [roster_changes, except_bind_ok] at h
    obtain ⟨roster₁, -, ⟨changes, roster₂, names₂⟩, htxs, ⟨more, result⟩, hrest, hr⟩ := h
    cases hr
    exact (transactions_changes_sublist htxs).append (ih hrest)

/-! ## Replays -/

/-- Every staking transaction has to spend something. -/
theorem staking_changes_roster_once (rules : ContextRules) (verifier : BlockRules)
    (name : BlockHash → Block) (txName : TransactionHash → TransactionData) (db : ZebraDb)
    (hdb : Fresh name txName db.blocks) (events : List WorkerEvent) (w : WriteBlockWorkerTask)
    (hfit : EventsFit rules (fun b => Delivered verifier name txName b ∧ StakesSpend b)
      (Covered name txName) events (.spawn db))
    (hrun : WriteBlockWorkerTask.run rules events (.spawn db) = .ok w) (p : Profile)
    (blocks : List Block) (hblocks : blocks.Sublist (w.finalized_state.blocks.map (·.block)))
    (roster : List MalValidator) (names : KeysToNames)
    (r : List TransactionHash × List MalValidator × KeysToNames)
    (hr : roster_changes p blocks roster names = .ok r) (x : TransactionHash) :
    r.1.count x ≤ 1 := by
  have hfresh := ((Kept.spawn hdb).run (lasting_fresh verifier name txName) hfit hrun).1.db
  have hids : (blocks.flatMap fun b => b.transactions.map (·.hash)).Sublist
      (txIds w.finalized_state.blocks) := by
    have hsub := hblocks.flatMap fun b : Block => b.transactions.map (·.hash)
    rwa [List.flatMap_map] at hsub
  have hnodup : r.1.Nodup := hfresh.distinct.sublist ((roster_changes_sublist hr).trans hids)
  exact List.nodup_iff_count_le_one.mp hnodup x

namespace Sample

def merkleRoot (ids : List TransactionHash) : Bytes 32 := id (10 + (ids.headD (id 0)).val.getD 1 0)

def verifier : BlockRules := { lenient with merkle_root := merkleRoot }

def spendingTx : Transaction where
  hash := id 100
  data := .VCrosslink 0 [] [] none
    (some {
      flags := { enable_spends := true, enable_outputs := true }
      actions := [{ nullifier := id 50, cm_x := id 51 }]
      value_balance := .zero })
    (some (addStake (id 1) 5))

def stakeOnlyTx : Transaction := stakingTx (id 100) (addStake (id 1) 5)

variable (tx : Transaction)

def restaked (height : Nat) : List Transaction := if height = 0 then [] else [tx]

def txName (x : TransactionHash) : TransactionData :=
  if x = tx.hash then tx.data else (coinbase (x.val.getD 1 0).toNat).data

theorem genesis_fresh (h : (coinbase 0).hash ≠ tx.hash) :
    Fresh (namesWith (restaked tx)) (txName tx) [mined 0 []] := by
  have hspending : Spending (namesWith (restaked tx)) (txName tx) (mined 0 []) := by
    refine ⟨mined_namedWith _ 0 (by omega), ⟨by simp [mined], coinbase 0, [], rfl, rfl, by simp⟩,
      ?_, ?_⟩
    · intro t ht
      obtain rfl := mem_singleton.mp ht
      rw [txName, if_neg h]
      rfl
    · intro t ht
      obtain rfl := mem_singleton.mp ht
      exact .inl rfl
  exact (lasting_fresh verifier _ _).checkpoint [] (mined 0 []) .nil ⟨hspending, rfl, rfl⟩ rfl rfl

def stakeEvents : List WorkerEvent :=
  [.CheckpointsClosed, .Write (.Commit (mined 1 [tx])), .Write (.CrosslinkFinalized (id 11)),
    .Write (.Commit (mined 2 [tx])), .Write (.CrosslinkFinalized (id 12))]

def staked (events : List WorkerEvent) : Except Abort (List TransactionHash) := do
  let w ← WriteBlockWorkerTask.run setup.rules events (.spawn ⟨[mined 0 []]⟩)
  let r ← roster_changes .dev (w.finalized_state.blocks.map (·.block))
    start.validators_at_current_height []
  pure r.1

theorem stakeEvents_fit {Verified : ContextuallyVerifiedBlock → Prop}
    {Trusted : List ContextuallyVerifiedBlock → ContextuallyVerifiedBlock → Prop}
    (h₁ : Verified (mined 1 [tx])) (h₂ : Verified (mined 2 [tx])) (w : WriteBlockWorkerTask) :
    EventsFit setup.rules Verified Trusted (stakeEvents tx) w :=
  ⟨trivial, fun _ _ => ⟨h₁, fun _ _ => ⟨trivial, fun _ _ => ⟨h₂, fun _ _ =>
    ⟨trivial, fun _ _ => trivial⟩⟩⟩⟩⟩

end Sample

open Sample

theorem staking_changes_roster_once_sample :
    ∃ w r, WriteBlockWorkerTask.run setup.rules (stakeEvents spendingTx)
        (.spawn ⟨[mined 0 []]⟩) = .ok w ∧
      roster_changes .dev (w.finalized_state.blocks.map (·.block))
        start.validators_at_current_height [] = .ok r ∧
      r.1 = [Sample.id 100] ∧ r.1.count (Sample.id 100) ≤ 1 := by
  have hstaked : staked (stakeEvents spendingTx) = .ok [Sample.id 100] := by
    decide +kernel
  simp only [staked, except_bind_ok] at hstaked
  obtain ⟨w, hw, r, hr, hids⟩ := hstaked
  refine ⟨w, r, hw, hr, Except.ok.inj hids, ?_⟩
  have hstakes : ∀ n, StakesSpend (mined n [spendingTx]) := by
    intro n tx htx _
    rcases List.mem_cons.mp htx with rfl | htx
    · exact .inl rfl
    · obtain rfl := List.mem_singleton.mp htx
      exact .inr (.inr (.inr (.inr (by decide))))
  refine staking_changes_roster_once setup.rules verifier
    (namesWith (restaked spendingTx)) (txName spendingTx)
    ⟨[mined 0 []]⟩ (genesis_fresh _ (by decide)) _ w
    (stakeEvents_fit _ ⟨⟨?_, ?_, [], none, by simp, rfl⟩, hstakes 1⟩
      ⟨⟨?_, ?_, [], none, by simp, rfl⟩, hstakes 2⟩ _) hw .dev _ (List.Sublist.refl _) _ _ r hr _
  · exact mined_namedWith _ 1 (by omega)
  · decide +kernel
  · exact mined_namedWith _ 2 (by omega)
  · decide +kernel

/-- A staking transaction that spends nothing is mined and applied a second time once its first
copy is final. -/
theorem staking_transaction_replayed : ∃ w r, EventsFit setup.rules
        (Delivered verifier (namesWith (restaked stakeOnlyTx)) (txName stakeOnlyTx))
        (Covered (namesWith (restaked stakeOnlyTx)) (txName stakeOnlyTx))
        (stakeEvents stakeOnlyTx) (.spawn ⟨[mined 0 []]⟩) ∧
      WriteBlockWorkerTask.run setup.rules (stakeEvents stakeOnlyTx)
        (.spawn ⟨[mined 0 []]⟩) = .ok w ∧
      roster_changes .dev (w.finalized_state.blocks.map (·.block))
        start.validators_at_current_height [] = .ok r ∧ r.1.count (Sample.id 100) = 2 := by
  have hstaked : staked (stakeEvents stakeOnlyTx) = .ok [Sample.id 100, Sample.id 100] := by
    decide +kernel
  simp only [staked, except_bind_ok] at hstaked
  obtain ⟨w, hw, r, hr, hids⟩ := hstaked
  refine ⟨w, r, stakeEvents_fit _
    ⟨mined_namedWith _ 1 (by omega), by decide +kernel, [], none, by simp, rfl⟩
    ⟨mined_namedWith _ 2 (by omega), by decide +kernel, [], none, by simp, rfl⟩ _,
    hw, hr, ?_⟩
  rw [Except.ok.inj hids]
  decide

end ZebraCrosslink
