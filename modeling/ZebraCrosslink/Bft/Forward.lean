import ZebraCrosslink.Bft.Service
import ZebraCrosslink.Rust.Along

/-!
# The service asks and never undoes

Whatever the service calls, the PoW state only moves forward.
-/

open Rust Exec

namespace ZebraCrosslink

variable {E : Type} {R : E → E → Prop} {node : Node E}

section Forward

variable (hR : Forward R) (hcall : ∀ req, Exec.Along R (node.call.state req))
include hR hcall

theorem block_height_from_hash_along (x : BlockHash) :
    Along R (block_height_from_hash node.call x) := by
  unfold block_height_from_hash
  refine .bind hR (hcall _) fun reply => ?_
  split <;> exact .pure hR _

variable (s : TFLServiceInternal) (b : BftBlock) (fuel : Nat)

theorem validate_along : Along R (validate_bft_block_from_malachite_already_locked node s b) := by
  unfold validate_bft_block_from_malachite_already_locked
  split
  · exact .pure hR _
  · refine .bind hR (.ofExcept hR _) fun x => ?_
    refine .bind hR (block_height_from_hash_along hR hcall x) fun known => ?_
    cases known <;> exact .pure hR _

theorem check_decided_along (fp : FatPointerToBftBlock2) : Along R (check_decided node s b fp) := by
  unfold check_decided
  refine .bind hR (.ofExcept hR _) fun hash => ?_
  split
  · exact .abort _
  split
  · exact .abort _
  refine .bind hR (validate_along hR hcall s b) fun status => ?_
  refine .bind hR (.assert hR _ _) fun _ => ?_
  refine .bind hR (.ofExcept hR _) fun x => ?_
  refine .bind hR (block_height_from_hash_along hR hcall x) fun known => ?_
  exact .bind hR (.expect hR _ _) fun height => .pure hR _

theorem crosslink_finalize_along (x : BlockHash) : Along R (crosslink_finalize node.call x) := by
  unfold crosslink_finalize
  refine .bind hR (hcall _) fun reply => ?_
  split
  · exact .assert hR _ _
  · exact .abort _
  · exact .pure hR _

theorem fetch_chunks_along (start_height : Nat) (start_hash : BlockHash) (incl : Bool)
    (final_hash : Option BlockHash) (fuel : Nat) (chunk_start : BlockHash)
    (hashes : List (Nat × BlockHash)) : Along R
      (fetch_chunks node start_height start_hash incl final_hash fuel chunk_start hashes) := by
  induction fuel generalizing chunk_start hashes with
  | zero => exact .abort _
  | succ fuel ih =>
    unfold fetch_chunks
    refine .bind hR (hcall _) fun reply => ?_
    split
    · refine .bind hR (.assert hR _ _) fun _ => ?_
      split
      · exact .pure hR _
      · exact .bind hR (.ofExcept hR _) fun hashes => ih _ hashes
    · exact .pure hR _

theorem read_infos_along (l : List (Nat × BlockHash)) : Along R (read_infos node.call l) := by
  induction l with
  | nil => exact .pure hR _
  | cons hh rest ih =>
    unfold read_infos
    refine .bind hR (hcall _) fun reply => ?_
    refine .bind hR ih fun rest => ?_
    split <;> exact .pure hR _

theorem sequence_start_along (start_hash : BlockHash) (incl : Bool) :
    Along R (tfl_block_sequence.sequence_start node start_hash incl) := by
  unfold tfl_block_sequence.sequence_start
  refine .bind hR (hcall _) fun reply => ?_
  split
  · split
    · exact .pure hR _
    · exact .bind hR (.ofExcept hR _) fun _ => .pure hR _
  · exact .pure hR _

theorem sequence_final_along (final : Option (Nat × BlockHash)) :
    Along R (tfl_block_sequence.sequence_final node final) := by
  unfold tfl_block_sequence.sequence_final
  split
  · exact .pure hR _
  · refine .bind hR (hcall _) fun reply => ?_
    split <;> exact .pure hR _

theorem tfl_block_sequence_along (start_hash : BlockHash) (final : Option (Nat × BlockHash))
    (incl extra : Bool) : Along R (tfl_block_sequence node fuel start_hash final incl extra) := by
  unfold tfl_block_sequence
  refine .bind hR (sequence_start_along hR hcall _ _) fun start => ?_
  refine .bind hR (sequence_final_along hR hcall _) fun final => ?_
  split
  · split
    · exact .pure hR _
    · refine .bind hR (fetch_chunks_along hR hcall _ _ _ _ _ _ _) fun hashes => ?_
      split
      · exact .bind hR (read_infos_along hR hcall hashes) fun infos => .pure hR _
      · exact .bind hR (.pure hR _) fun _ => .pure hR _
  · exact .pure hR _

theorem apply_new_final_along (s : TFLServiceInternal) (nf : Nat × BlockHash) :
    Along R (apply_new_final node fuel s nf) := by
  unfold apply_new_final
  refine .bind hR (tfl_block_sequence_along hR hcall _ _ _ _ _) fun r => ?_
  exact .bind hR (.ofExcept hR _) fun s => .pure hR _

theorem new_decided_along (s : TFLServiceInternal) (b : BftBlock) (fp : FatPointerToBftBlock2) :
    Along R (new_decided_bft_block_from_malachite node fuel s b fp) := by
  unfold new_decided_bft_block_from_malachite
  refine .bind hR (check_decided_along hR hcall s b fp) fun nf => ?_
  refine .bind hR (.ofExcept hR _) fun blocks => ?_
  refine .bind hR (crosslink_finalize_along hR hcall _) fun _ => ?_
  refine .bind hR (apply_new_final_along hR hcall _ _ _) fun s' => ?_
  exact .bind hR (.ofExcept hR _) fun roster => .pure hR _

theorem set_finality_along (x : BlockHash) : Along R (tfl_set_finality_by_hash node s x) := by
  unfold tfl_set_finality_by_hash
  split
  · refine .bind hR (block_height_from_hash_along hR hcall x) fun height => ?_
    split <;> exact .pure hR _
  · exact .pure hR _

end Forward

end ZebraCrosslink
