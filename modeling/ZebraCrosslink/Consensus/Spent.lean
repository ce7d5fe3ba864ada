import ZebraCrosslink.Consensus.Fees

/-!
# The order of the spent outputs

The outputs that a transaction spends are matched with its inputs by position.
-/

open Rust

namespace ZebraCrosslink

namespace TransactionVerifier

variable {A : Type} {answers : Answers A} {req : Request A}

/-- Each spent output stands where its input stands, and the map has the UTXO of each outpoint. -/
structure Spent.LinesUp (spent : Spent) (answers : Answers A) (req : Request A) : Prop where
  entries : spent.spent_outputs.map some =
    req.transaction.spent_outpoints.map fun o => (utxoOf answers req o).map (·.output)
  lookups : ∀ o, spent.spent_utxos.lookup o =
    if o ∈ req.transaction.spent_outpoints then utxoOf answers req o else none
  keys : ∀ o, o ∈ spent.spent_utxos ↔ o ∈ req.transaction.spent_outpoints

theorem spent_outputs_line_up_iff {spent : Spent} (h : spent_utxos answers req = .ok spent) :
    spent.LinesUp answers req ↔ outputsOf answers req (mempoolLast answers req) =
        outputsOf answers req req.transaction.spent_outpoints := by
  obtain ⟨hall, hlookup, houtputs⟩ := spent_utxos_spec h
  have hentries : (outputsOf answers req req.transaction.spent_outpoints).map some =
      req.transaction.spent_outpoints.map fun o => (utxoOf answers req o).map (·.output) := by
    generalize req.transaction.spent_outpoints = l at hall
    induction l with
    | nil => rfl
    | cons o rest ih =>
      obtain ⟨utxo, hutxo⟩ := Option.isSome_iff_exists.mp (hall o List.mem_cons_self)
      simpa [outputsOf, hutxo] using ih fun o' ho' => hall o' (List.mem_cons_of_mem _ ho')
  rw [← houtputs]
  constructor
  · intro hlines
    exact List.map_injective_iff.mpr (Option.some_injective _) (hlines.entries.trans hentries.symm)
  · intro heq
    refine ⟨heq ▸ hentries, hlookup, fun o => ?_⟩
    rw [← Finmap.lookup_isSome, hlookup]
    by_cases ho : o ∈ req.transaction.spent_outpoints
    · simpa [ho] using hall o ho
    · simp [ho]

end TransactionVerifier

namespace Sample

/-- The state has the outpoints with index 0, and the mempool has the others. -/
def splitAnswers : Answers Unit :=
  { silent with
    unspent_best_chain_utxo := fun o => .ok (if o.index = 0 then some ⟨⟨⟨2, by decide⟩, []⟩, 1, false⟩ else none)
    mempool := some ⟨fun _ => none, fun _ => some ⟨⟨1, by decide⟩, []⟩⟩ }

def spending (indices : List UInt32) : Request Unit :=
  .Mempool (fullTx () 4 (.V5 0 (indices.map fun i => .PrevOut ⟨Bytes.zero 32, i⟩) [] none none)) 6

end Sample

open TransactionVerifier Sample in
theorem chain_input_first_lines_up :
    ∃ spent, spent_utxos splitAnswers (spending [0, 1]) = .ok spent ∧
      spent.LinesUp splitAnswers (spending [0, 1]) :=
  ⟨_, rfl, (spent_outputs_line_up_iff rfl).mpr rfl⟩

open TransactionVerifier Sample in
theorem mempool_input_first_swaps :
    ∃ spent, spent_utxos splitAnswers (spending [1, 0]) = .ok spent ∧
      spent.spent_outputs.map (·.value.zatoshis) = [2, 1] ∧
      (outputsOf splitAnswers (spending [1, 0]) (spending [1, 0]).transaction.spent_outpoints).map
        (·.value.zatoshis) = [1, 2] ∧ ¬ spent.LinesUp splitAnswers (spending [1, 0]) :=
  ⟨_, rfl, rfl, rfl, fun h => absurd h.entries (by decide)⟩

end ZebraCrosslink
