import ZebraCrosslink.Rust.Returns
import ZebraCrosslink.State.Crosslink
import ZebraCrosslink.State.Once

/-!
# Operations that return

On chains that are tracked, finding, cutting and inserting a chain does not panic. A push does not
panic if the block brings no transaction that is on the path below it.
-/

open Rust List

namespace ZebraCrosslink

open NonFinalizedState

section Total

variable {name : BlockHash → Block} {db below above : List ContextuallyVerifiedBlock} {l : List Chain}
  {nfs nfs' : NonFinalizedState} {b : ContextuallyVerifiedBlock} {c d : Chain} {x : BlockHash}
  {keep : Chain → Except Abort Bool}

/-! ## Finding a chain -/

theorem find_tip_returns (h : ∀ c ∈ l, c.blocks ≠ []) : Returns (find_tip x l) := by
  induction l with
  | nil => exact ⟨none, rfl⟩
  | cons c rest ih =>
    obtain ⟨hc, hrest⟩ := forall_mem_cons.mp h
    unfold find_tip
    rw [non_finalized_tip_hash_eq (getLast?_eq_some_getLast hc)]
    apply Returns.bind (.ok _)
    intro tip _
    split
    · exact .ok _
    · exact ih hrest

theorem pop_to_eq (habove : ∀ a ∈ above, a.hash ≠ b.hash) {fuel : Nat}
    (hfuel : above.length < fuel) :
    Chain.pop_to b.hash fuel ⟨below ++ b :: above⟩ = .ok ⟨below ++ [b]⟩ := by
  induction above using reverseRecOn generalizing fuel with
  | nil =>
    obtain ⟨fuel, rfl⟩ := Nat.exists_eq_add_one_of_ne_zero (Nat.ne_zero_of_lt hfuel)
    unfold Chain.pop_to
    rw [non_finalized_tip_hash_eq (b := b) (by simp)]
    simp [bind, Except.bind, pure, Except.pure]
  | append_singleton above a ih =>
    obtain ⟨fuel, rfl⟩ := Nat.exists_eq_add_one_of_ne_zero (Nat.ne_zero_of_lt hfuel)
    have hlast : (Chain.mk (below ++ b :: (above ++ [a]))).blocks.getLast? = some a := by
      simp [getLast?_append, getLast?_cons]
    have hpop : (Chain.mk (below ++ b :: (above ++ [a]))).pop_tip = .ok ⟨below ++ b :: above⟩ := by
      have hdrop : (below ++ b :: (above ++ [a])).dropLast = below ++ b :: above := by
        rw [← cons_append, ← append_assoc, dropLast_concat]
      simp [Chain.pop_tip, hdrop]
    unfold Chain.pop_to
    rw [non_finalized_tip_hash_eq hlast]
    simp only [bind, Except.bind, if_neg (habove a (by simp)), hpop]
    apply ih
    · intro e he
      exact habove e (by simp [he])
    · simp only [length_append, length_singleton] at hfuel
      omega

theorem fork_of_split (habove : ∀ a ∈ above, a.hash ≠ b.hash) :
    (Chain.mk (below ++ b :: above)).fork b.hash = .ok (some ⟨below ++ [b]⟩) := by
  have hx := contains_block_hash_of_mem (c := ⟨below ++ b :: above⟩) (b := b) (by simp)
  unfold Chain.fork
  rw [pop_to_eq habove (by simp; omega)]
  simp [hx, bind, Except.bind, pure, Except.pure]

theorem hash_ne_of_split (h : PowPath name (db ++ (below ++ b :: above))) :
    (∀ a ∈ below, a.hash ≠ b.hash) ∧ ∀ a ∈ above, a.hash ≠ b.hash := by
  have hnodup := h.nodup
  rw [map_append, map_append, map_cons] at hnodup
  have hchain := hnodup.of_append_right
  rw [nodup_middle, nodup_cons, mem_append] at hchain
  constructor
  · intro a ha heq
    exact hchain.1 (.inl (heq ▸ mem_map_of_mem ha))
  · intro a ha heq
    exact hchain.1 (.inr (heq ▸ mem_map_of_mem ha))

theorem fork_eq (h : PowPath name (db ++ (below ++ b :: above))) :
    (Chain.mk (below ++ b :: above)).fork b.hash = .ok (some ⟨below ++ [b]⟩) :=
  fork_of_split (hash_ne_of_split h).2

/-! ## Inserting a chain -/

theorem retain_returns (h : ∀ c ∈ l, Returns (keep c)) : Returns (retain keep l) := by
  induction l with
  | nil => exact .ok _
  | cons c rest ih =>
    obtain ⟨hc, hrest⟩ := forall_mem_cons.mp h
    unfold retain
    apply Returns.bind hc
    intro kept _
    apply Returns.bind (ih hrest)
    intro rest' _
    exact .ok _

theorem tipIsNot_returns (hne : c.blocks ≠ []) : Returns (tipIsNot x c) := by
  unfold tipIsNot
  rw [non_finalized_tip_hash_eq (getLast?_eq_some_getLast hne)]
  exact .ok _

theorem strict_of_nodup (hpath : ∀ c ∈ l, PowPath name (db ++ c.blocks))
    (hne : ∀ c ∈ l, c.blocks ≠ []) (hsorted : Sorted l) (hnodup : l.Nodup) : StrictlySorted l := by
  apply Pairwise.imp_of_mem ?_ (hsorted.and hnodup)
  rintro c d hc hd ⟨hle, hdiff⟩
  apply lt_of_le_of_ne hle
  intro heq
  exact hdiff (eq_of_rank (hpath d hd) (hpath c hc) (hne d hd) (hne c hc) heq).symm

theorem insert_with_returns (hpath : ∀ d ∈ nfs.chain_set, PowPath name (db ++ d.blocks))
    (hnonempty : ∀ d ∈ nfs.chain_set, d.blocks ≠ []) (hstrict : StrictlySorted nfs.chain_set)
    (hc : PowPath name (db ++ c.blocks)) (hne : c.blocks ≠ []) (hnew : c ∉ nfs.chain_set)
    (hkeep : ∀ d, d.blocks ≠ [] → Returns (keep d)) : Returns (nfs.insert_with c keep) := by
  have hrank : ∀ d ∈ nfs.chain_set, d.rank ≠ c.rank := by
    intro d hd heq
    have hdc := eq_of_rank (hpath d hd) hc (hnonempty d hd) hne heq
    exact hnew (hdc ▸ hd)
  obtain ⟨above, below, hsplit, hins, -⟩ := insertSorted_between hne hnonempty hrank hstrict
  unfold insert_with
  rw [hins]
  apply Returns.bind (.ok _)
  rintro inserted hinserted
  cases hinserted
  apply Returns.bind
  · apply retain_returns
    intro d hd
    apply hkeep d
    rcases mem_append.mp hd with hd | hd
    · exact hnonempty d (by simp [hsplit, hd])
    · rcases mem_cons.mp hd with rfl | hd
      · exact hne
      · exact hnonempty d (by simp [hsplit, hd])
  · intro kept _
    exact .ok _

theorem Tracked.insert_with_returns (h : Tracked name db nfs.chain_set)
    (hc : PowPath name (db ++ c.blocks)) (hne : c.blocks ≠ []) (hnew : c ∉ nfs.chain_set)
    (hkeep : ∀ d, d.blocks ≠ [] → Returns (keep d)) : Returns (nfs.insert_with c keep) :=
  ZebraCrosslink.insert_with_returns h.path h.nonempty h.strict hc hne hnew hkeep

/-! ## Invalidating -/

section

variable (h : PowPath name (db ++ (below ++ b :: above)))
include h

theorem child_blocks_eq : (Chain.mk (below ++ b :: above)).child_blocks b.height = b :: above := by
  unfold Chain.child_blocks
  rw [h.filter_le, h.height_split, Nat.add_sub_cancel_left]
  simp

theorem invalidate_block_eq (hne : below ≠ []) :
    (Chain.mk (below ++ b :: above)).invalidate_block b.hash = .ok (some (⟨below⟩, b :: above)) := by
  have hpop : (Chain.mk (below ++ [b])).pop_tip = .ok ⟨below⟩ := by
    simp [Chain.pop_tip, hne]
  unfold Chain.invalidate_block
  simp only [height_by_hash_of_mem (c := ⟨below ++ b :: above⟩) h (b := b) (by simp)]
  rw [fork_eq h]
  simp only [bind, Except.bind]
  rw [hpop, child_blocks_eq h]
  rfl

theorem take_out_eq (hne : below ≠ []) : nfs.take_out ⟨below ++ b :: above⟩ b.hash =
      (nfs.insert_with ⟨below⟩ fun c => .ok (!c.contains_block_hash b.hash)) >>=
        fun left => .ok (left, b :: above) := by
  have hbelow := (hash_ne_of_split h).1
  obtain ⟨root, rest, rfl⟩ := exists_cons_of_ne_nil hne
  unfold take_out
  simp only [Chain.non_finalized_root_hash, cons_append, head?_cons, bind, Except.bind]
  rw [if_neg (hbelow root (by simp)), ← cons_append, invalidate_block_eq h hne]
  rfl

end

theorem Tracked.take_out_returns (h : Tracked name db nfs.chain_set)
    (hc : ⟨below ++ b :: above⟩ ∈ nfs.chain_set) (hne : below ≠ []) :
    ∃ left, nfs.take_out ⟨below ++ b :: above⟩ b.hash = .ok (left, b :: above) ∧
      nfs.insert_with ⟨below⟩ (fun c => .ok (!c.contains_block_hash b.hash)) = .ok left ∧
      left.chain_set ≠ [] := by
  have hpath := h.path _ hc
  have hbelow := (hash_ne_of_split hpath).1
  have hcut : PowPath name (db ++ below ++ b :: above) := by simpa using hpath
  have hnew : (⟨below⟩ : Chain) ∉ nfs.chain_set := by
    intro hmem
    have hdiff : (⟨below⟩ : Chain) ≠ ⟨below ++ b :: above⟩ := by simp
    exact (h.apart.forall hmem hc hdiff).1 (prefix_append _ _)
  have hkeep : (Chain.mk below).contains_block_hash b.hash = false := by
    rw [← Bool.not_eq_true]
    intro hx
    obtain ⟨a, ha, heq⟩ := mem_of_contains_block_hash hx
    exact hbelow a ha heq
  have hinsert : Returns (nfs.insert_with ⟨below⟩ fun c => .ok (!c.contains_block_hash b.hash)) :=
    h.insert_with_returns hcut.left hne hnew fun d _ => .ok _
  obtain ⟨left, hleft⟩ := hinsert
  refine ⟨left, ?_, hleft, insert_with_nonempty hleft (by simp [hkeep])⟩
  rw [take_out_eq hpath hne, hleft]
  rfl

end Total

end ZebraCrosslink
