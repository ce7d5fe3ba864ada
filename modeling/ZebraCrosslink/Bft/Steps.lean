import ZebraCrosslink.Bft.Service

/-!
# What one call of the service does

One inversion lemma per function: what a call that returns has checked and what it leaves behind.
-/

open Rust Exec

namespace ZebraCrosslink

variable {E : Type} (node : Node E) (s : TFLServiceInternal) (b : BftBlock) (fuel : Nat)

/-! ## Validation -/

theorem validate_pass (e e' : E) :
    validate_bft_block_from_malachite_already_locked node s b e = .ok (.Pass, e') ↔
      b.previous_block_fat_ptr.points_at_block_hash = s.fat_pointer_to_tip.points_at_block_hash ∧
        ∃ x h, new_final_hash node.crypto b = .ok x ∧
          block_height_from_hash node.call x e = .ok (some h, e') := by
  unfold validate_bft_block_from_malachite_already_locked
  by_cases hprev : b.previous_block_fat_ptr.points_at_block_hash =
      s.fat_pointer_to_tip.points_at_block_hash
  · rw [if_neg (not_not.mpr hprev)]
    simp only [bind_ok, ofExcept_ok]
    constructor
    · rintro ⟨x, _, ⟨hx, rfl⟩, known, e₁, hk, hr⟩
      cases known with
      | none => simp [pure_ok] at hr
      | some h =>
        obtain ⟨-, rfl⟩ := (pure_ok _ _ _ _).mp hr
        exact ⟨hprev, x, h, hx, hk⟩
    · rintro ⟨-, x, h, hx, hk⟩
      exact ⟨x, e, ⟨hx, rfl⟩, some h, e', hk, rfl⟩
  · rw [if_pos hprev]
    simp [pure_ok, hprev]

/-! ## Checks before a commit -/

theorem check_decided_ok (fp : FatPointerToBftBlock2) (e e' : E) (h : Nat) (x : BlockHash) :
    check_decided node s b fp e = .ok ((h, x), e') ↔
      b.blake3_hash node.crypto = .ok fp.points_at_block_hash ∧
        fp.validate_signatures node.crypto = true ∧ new_final_hash node.crypto b = .ok x ∧
        ∃ e₁, validate_bft_block_from_malachite_already_locked node s b e = .ok (.Pass, e₁) ∧
          block_height_from_hash node.call x e₁ = .ok (some h, e') := by
  unfold check_decided
  simp only [bind_ok, ofExcept_ok]
  constructor
  · rintro ⟨bh, _, ⟨hbh, rfl⟩, hrest⟩
    split at hrest
    · cases hrest
    rename_i hfp
    split at hrest
    · cases hrest
    rename_i hsig
    simp only [bind_ok, ofExcept_ok, assert_ok, expect_ok, pure_ok, Prod.mk.injEq] at hrest
    obtain ⟨status, e₁, hval, _, _, ⟨hpass, rfl⟩, y, _, ⟨hy, rfl⟩, _, e₂, hk, k, _, ⟨rfl, rfl⟩,
      ⟨rfl, rfl⟩, rfl⟩ := hrest
    rw [eq_of_beq hpass] at hval
    rw [not_not.mp hfp]
    exact ⟨hbh, by simpa using hsig, hy, _, hval, hk⟩
  · rintro ⟨hbh, hsig, hx, e₁, hval, hk⟩
    refine ⟨_, e, ⟨hbh, rfl⟩, ?_⟩
    rw [if_neg (by simp), if_neg (by simp [hsig])]
    simp only [bind_ok, ofExcept_ok, assert_ok, expect_ok, pure_ok]
    exact ⟨.Pass, e₁, hval, (), e₁, ⟨rfl, rfl⟩, x, e₁, ⟨hx, rfl⟩, some h, e', hk, h, e',
      ⟨rfl, rfl⟩, rfl, rfl⟩

/-! ## The commit -/

theorem new_decided_ok (s s' : TFLServiceInternal) (b : BftBlock) (fp : FatPointerToBftBlock2)
    (e e' : E) (roster : List SortedRosterMember) :
    new_decided_bft_block_from_malachite node fuel s b fp e = .ok ((s', roster), e') ↔
      ∃ new_final e₁ blocks e₂, check_decided node s b fp e = .ok (new_final, e₁) ∧
        insert_bft_block node.crypto node.profile s.bft_blocks b = .ok blocks ∧
        crosslink_finalize node.call new_final.2 e₁ = .ok ((), e₂) ∧ apply_new_final node fuel
          { s with
            bft_blocks := blocks, fat_pointer_to_tip := fp, latest_final_block := some new_final }
          new_final e₂ = .ok (s', e') ∧
        tenderlink_roster_from_internal node.profile node.order s'.validators_at_current_height =
          .ok roster := by
  unfold new_decided_bft_block_from_malachite
  simp only [bind_ok, ofExcept_ok, pure_ok, Prod.mk.injEq]
  constructor
  · rintro ⟨nf, e₁, hc, blocks, _, ⟨hi, rfl⟩, ⟨⟩, e₂, hf, s₂, e₃, ha, r, _, ⟨hr, rfl⟩,
      ⟨rfl, rfl⟩, rfl⟩
    exact ⟨nf, _, blocks, e₂, hc, hi, hf, ha, hr⟩
  · rintro ⟨nf, e₁, blocks, e₂, hc, hi, hf, ha, hr⟩
    exact ⟨nf, e₁, hc, blocks, e₁, ⟨hi, rfl⟩, (), e₂, hf, s', e', ha, roster, e', ⟨hr, rfl⟩,
      ⟨rfl, rfl⟩, rfl⟩

/-! ## What the newly final blocks change -/

/-- The loop over newly final blocks changes the roster, its names and the broadcasts only. -/
def sameBft (s s' : TFLServiceInternal) : Prop :=
  s'.latest_final_block = s.latest_final_block ∧ s'.tfl_is_activated = s.tfl_is_activated ∧
    s'.bft_blocks = s.bft_blocks ∧ s'.fat_pointer_to_tip = s.fat_pointer_to_tip ∧
    s'.current_bc_final = s.current_bc_final

theorem sameBft_refl : sameBft s s := ⟨rfl, rfl, rfl, rfl, rfl⟩

theorem sameBft_trans {s s₁ s₂ : TFLServiceInternal} (h : sameBft s s₁) (h' : sameBft s₁ s₂) :
    sameBft s s₂ := by
  obtain ⟨ha, hb, hc, hd, he⟩ := h
  obtain ⟨ha', hb', hc', hd', he'⟩ := h'
  exact ⟨ha'.trans ha, hb'.trans hb, hc'.trans hc, hd'.trans hd, he'.trans he⟩

theorem apply_final_block_sameBft (p : Profile) (s s' : TFLServiceInternal)
    (hh : Nat × BlockHash) (block : Option Block)
    (h : apply_final_block p s hh block = .ok s') : sameBft s s' := by
  unfold apply_final_block at h
  split at h
  · cases h
    exact sameBft_refl s
  · simp only [except_bind_ok] at h
    obtain ⟨_, -, ⟨_, _⟩, -, h⟩ := h
    cases h
    exact sameBft_refl s

theorem apply_final_blocks_sameBft (p : Profile) (l : List ((Nat × BlockHash) × Option Block))
    (s s' : TFLServiceInternal) (h : apply_final_blocks p l s = .ok s') : sameBft s s' := by
  induction l generalizing s with
  | nil =>
    obtain rfl := Except.ok.inj h
    exact sameBft_refl s
  | cons x rest ih =>
    obtain ⟨hh, block⟩ := x
    rw [apply_final_blocks, except_bind_ok] at h
    obtain ⟨s₁, h₁, h⟩ := h
    exact sameBft_trans (apply_final_block_sameBft p s s₁ hh block h₁) (ih s₁ h)

def sequenceStart (s : TFLServiceInternal) (new_final : Nat × BlockHash) : BlockHash :=
  match s.current_bc_final with
  | some prev => prev.2
  | none => new_final.2

theorem apply_new_final_ok (s s' : TFLServiceInternal) (nf : Nat × BlockHash) (e e' : E) :
    apply_new_final node fuel s nf e = .ok (s', e') ↔ ∃ hashes blocks s₁,
        tfl_block_sequence node fuel (sequenceStart s nf) (some nf) true true e =
          .ok ((hashes, blocks), e') ∧
        apply_final_blocks node.profile (hashes.zip blocks) s = .ok s₁ ∧
        s' = { s₁ with current_bc_final := some nf } := by
  unfold apply_new_final sequenceStart
  simp only [bind_ok, ofExcept_ok, pure_ok, Prod.exists]
  constructor
  · rintro ⟨hashes, blocks, e₁, hs, s₁, _, ⟨ha, rfl⟩, rfl, rfl⟩
    exact ⟨hashes, blocks, s₁, hs, ha, rfl⟩
  · rintro ⟨hashes, blocks, s₁, hs, ha, rfl⟩
    exact ⟨hashes, blocks, e', hs, s₁, e', ⟨ha, rfl⟩, rfl, rfl⟩

theorem new_decided_leaves (s s' : TFLServiceInternal) (b : BftBlock) (fp : FatPointerToBftBlock2)
    (e e' : E) (roster : List SortedRosterMember)
    (h : new_decided_bft_block_from_malachite node fuel s b fp e = .ok ((s', roster), e')) :
    ∃ nf e₁, check_decided node s b fp e = .ok (nf, e₁) ∧
      insert_bft_block node.crypto node.profile s.bft_blocks b = .ok s'.bft_blocks ∧
      s'.fat_pointer_to_tip = fp ∧ s'.latest_final_block = some nf ∧
      s'.current_bc_final = some nf ∧ s'.tfl_is_activated = s.tfl_is_activated := by
  obtain ⟨nf, e₁, blocks, e₂, hc, hi, -, ha, -⟩ := (new_decided_ok ..).mp h
  obtain ⟨hashes, infos, s₁, -, hs, rfl⟩ := (apply_new_final_ok ..).mp ha
  obtain ⟨hl, ht, hb, hf, -⟩ := apply_final_blocks_sameBft _ _ _ _ hs
  exact ⟨nf, e₁, hc, hb ▸ hi, hf, hl, rfl, ht⟩

theorem set_finality_ok (s' : TFLServiceInternal) (x : BlockHash) (r : Option Nat) (e e' : E)
    (h : tfl_set_finality_by_hash node s x e = .ok ((s', r), e')) :
    (s' = s ∧ (s.tfl_is_activated = false ∧ e' = e ∨
        s.tfl_is_activated = true ∧ block_height_from_hash node.call x e = .ok (none, e'))) ∨
      ∃ height, s.tfl_is_activated = true ∧
        block_height_from_hash node.call x e = .ok (some height, e') ∧
        s' = { s with latest_final_block := some (height, x) } := by
  unfold tfl_set_finality_by_hash at h
  cases hact : s.tfl_is_activated with
  | false =>
    rw [hact, if_neg Bool.false_ne_true, pure_ok, Prod.mk.injEq] at h
    exact .inl ⟨h.1.1, .inl ⟨rfl, h.2⟩⟩
  | true =>
    rw [hact, if_pos rfl, bind_ok] at h
    obtain ⟨known, e₁, hk, h⟩ := h
    cases known with
    | none =>
      rw [pure_ok, Prod.mk.injEq] at h
      obtain ⟨⟨rfl, -⟩, rfl⟩ := h
      exact .inl ⟨rfl, .inr ⟨rfl, hk⟩⟩
    | some height =>
      rw [pure_ok, Prod.mk.injEq] at h
      obtain ⟨⟨rfl, -⟩, rfl⟩ := h
      exact .inr ⟨height, rfl, hk, rfl⟩

/-! ## Runs of the service -/

/-- The states a service reaches from `start`, with the blocks committed on the way. Each step may
meet any environment. -/
inductive Reached (node : Node E) (start : TFLServiceInternal) :
    List BftBlock → TFLServiceInternal → Prop
  | start : Reached node start [] start
  | decided {bs : List BftBlock} {s s' : TFLServiceInternal} (fuel : Nat) (b : BftBlock)
      (fp : FatPointerToBftBlock2) (e e' : E) (roster : List SortedRosterMember)
      (run : Reached node start bs s)
      (step : new_decided_bft_block_from_malachite node fuel s b fp e = .ok ((s', roster), e')) :
      Reached node start (bs ++ [b]) s'
  | setFinal {bs : List BftBlock} {s s' : TFLServiceInternal} (x : BlockHash) (r : Option Nat)
      (e e' : E) (run : Reached node start bs s)
      (step : tfl_set_finality_by_hash node s x e = .ok ((s', r), e')) :
      Reached node start bs s'
  | activate {bs : List BftBlock} {s : TFLServiceInternal} (run : Reached node start bs s) :
      Reached node start bs { s with tfl_is_activated := true }

end ZebraCrosslink
