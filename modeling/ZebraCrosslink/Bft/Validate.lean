import ZebraCrosslink.Bft.Store

/-!
# Validating proposed bytes

The decoder accepts a block without headers, and the validator takes the first header of what it
gets.
-/

open Rust

namespace ZebraCrosslink

variable {E : Type} (call : TFLServiceCalls E)

/-- The state answers `KnownBlock` requests. -/
def answersKnownBlock : Prop :=
  ∀ x e, ∃ reply e', call.state (.KnownBlock x) e = .ok (reply, e')

theorem block_height_from_hash_returns (hcall : answersKnownBlock call) (x : BlockHash) (e : E) :
    ∃ known e', block_height_from_hash call x e = .ok (known, e') := by
  obtain ⟨reply, e', hreply⟩ := hcall x e
  unfold block_height_from_hash
  rw [bind_of_ok hreply]
  split <;> exact ⟨_, _, rfl⟩

/-! ## Decoded blocks -/

theorem zcash_deserialize_versions (s s' : List UInt8) (b : BftBlock)
    (hd : BftBlock.zcash_deserialize s = .ok (b, s')) :
    ∀ h ∈ b.headers, check_version h.version = .ok () := by
  unfold BftBlock.zcash_deserialize at hd
  simp only [bind_ok] at hd
  obtain ⟨_, _, -, _, _, -, _, _, -, _, _, -, count, s₁, -, hd⟩ := hd
  split at hd
  · cases hd
  · simp only [bind_ok, pure_ok] at hd
    obtain ⟨headers, s₂, hmany, rfl, -⟩ := hd
    exact Reader.many_forall _ _ Header.check_version_of_zcash_deserialize _ _ _ _ hmany

theorem new_final_hash_of_decoded (C : Crypto) (s s' : List UInt8) (b : BftBlock)
    (hd : BftBlock.zcash_deserialize s = .ok (b, s')) (hne : b.headers ≠ []) :
    ∃ x, new_final_hash C b = .ok x := by
  obtain ⟨h, rest, hheaders⟩ := List.exists_cons_of_ne_nil hne
  have hv := zcash_deserialize_versions s s' b hd h (by simp [hheaders])
  simpa [new_final_hash, hheaders] using Header.hash_of_check_version C.sha256d h hv

/-! ## Verdicts -/

theorem validate_returns_iff (node : Node E) (hcall : answersKnownBlock node.call)
    (s : TFLServiceInternal) (e : E) (bytes rest : List UInt8) (b : BftBlock)
    (hd : BftBlock.zcash_deserialize bytes = .ok (b, rest)) :
    (∃ status e', validate_bft_block_from_malachite_already_locked node s b e = .ok (status, e')) ↔
      ¬ (b.headers = [] ∧ b.previous_block_fat_ptr.points_at_block_hash =
        s.fat_pointer_to_tip.points_at_block_hash) := by
  unfold validate_bft_block_from_malachite_already_locked
  by_cases hprev : b.previous_block_fat_ptr.points_at_block_hash =
      s.fat_pointer_to_tip.points_at_block_hash
  · rw [if_neg (not_not.mpr hprev)]
    by_cases hne : b.headers = []
    · rw [bind_of_error (by rw [new_final_hash, hne]; rfl)]
      simp [hne, hprev]
    · obtain ⟨x, hx⟩ := new_final_hash_of_decoded node.crypto _ _ b hd hne
      obtain ⟨known, e', hk⟩ := block_height_from_hash_returns node.call hcall x e
      rw [bind_of_ok ((Exec.ofExcept_ok _ e e x).mpr ⟨hx, rfl⟩), bind_of_ok hk]
      refine ⟨fun _ h => hne h.1, fun _ => ?_⟩
      cases known <;> exact ⟨_, _, rfl⟩
  · rw [if_pos hprev]
    exact ⟨fun _ h => hprev h.2, fun _ => ⟨.Fail, e, rfl⟩⟩

/-- A block without headers on top of the tip is the one exception. -/
theorem validate_proposed_block_returns_iff (node : Node E) (hcall : answersKnownBlock node.call)
    (s : TFLServiceInternal) (e : E) (bytes : List UInt8) :
    (∃ status e', validate_proposed_block node s bytes e = .ok (status, e')) ↔
      ¬ ∃ b rest, BftBlock.zcash_deserialize bytes = .ok (b, rest) ∧ b.headers = [] ∧
        b.previous_block_fat_ptr.points_at_block_hash =
          s.fat_pointer_to_tip.points_at_block_hash := by
  unfold validate_proposed_block
  cases hd : BftBlock.zcash_deserialize bytes with
  | error err => simpa using ⟨.Fail, e, rfl⟩
  | ok r =>
    obtain ⟨b, rest⟩ := r
    rw [validate_returns_iff node hcall s e bytes rest b hd]
    simp

namespace Sample

def firstBytes : List UInt8 :=
  match first.zcash_serialize with
  | .ok (.ok bytes) => bytes
  | _ => []

end Sample

open Sample

theorem validate_proposed_block_returns_on_first :
    BftBlock.zcash_deserialize firstBytes = .ok (first, []) ∧
      ∃ status e', validate_proposed_block node start firstBytes () = .ok (status, e') := by
  have hd : BftBlock.zcash_deserialize firstBytes = .ok (first, []) := by decide +kernel
  refine ⟨hd, (validate_proposed_block_returns_iff node (fun _ _ => ⟨_, _, rfl⟩) start ()
    firstBytes).mpr ?_⟩
  rintro ⟨b, rest, hd', hnone, -⟩
  cases hd.symm.trans hd'
  cases hnone

/-- 62 zero bytes are a block without headers whose previous fat pointer is null. -/
theorem validate_proposed_block_panics_on_zeros :
    Reached node start [] start ∧ validate_proposed_block node start (List.replicate 62 0) () =
        .error (.expect "at least 1 header") :=
  ⟨.start, rfl⟩

end ZebraCrosslink
