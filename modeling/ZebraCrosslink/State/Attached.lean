import Mathlib
import ZebraCrosslink.State.Path

/-!
# Chains attached to the database

Every chain of the non-finalized state continues the database, and so does every list of blocks that
was taken out of it.
-/

open Rust List Chain

namespace ZebraCrosslink

/-! ## The order of chains -/

namespace Chain

def tipNat (c : Chain) : Nat :=
  match c.blocks.getLast? with
  | some b => b.hash.toNat
  | none => 0

def rank (c : Chain) : ℕ ×ₗ ℕ := toLex (c.partial_cumulative_work, c.tipNat)

variable {a : Chain} {b : ContextuallyVerifiedBlock} {l : List ContextuallyVerifiedBlock}

theorem rank_le {b : Chain} :
    a.rank ≤ b.rank ↔ a.partial_cumulative_work < b.partial_cumulative_work ∨
      a.partial_cumulative_work = b.partial_cumulative_work ∧ a.tipNat ≤ b.tipNat :=
  Prod.Lex.toLex_le_toLex

theorem rank_lt {b : Chain} :
    a.rank < b.rank ↔ a.partial_cumulative_work < b.partial_cumulative_work ∨
      a.partial_cumulative_work = b.partial_cumulative_work ∧ a.tipNat < b.tipNat :=
  Prod.Lex.toLex_lt_toLex

theorem cmp_ok {b : Chain} {r : Ordering} (h : a.cmp b = .ok r) :
    if r = .gt then b.rank < a.rank else a.rank ≤ b.rank := by
  unfold cmp at h
  split at h
  · rename_i hwork
    cases h
    split
    · rename_i hgt
      exact rank_lt.mpr (.inl (Nat.compare_eq_gt.mp hgt))
    · rename_i hle
      refine rank_le.mpr (.inl ?_)
      have : ¬ b.partial_cumulative_work < a.partial_cumulative_work :=
        fun hlt => hle (Nat.compare_eq_gt.mpr hlt)
      omega
  · rename_i hwork
    split at h
    · rename_i self_tip other_tip ha hb
      split at h
      · cases h
      · cases h
        have hta : a.tipNat = self_tip.hash.toNat := by simp [tipNat, ha]
        have htb : b.tipNat = other_tip.hash.toNat := by simp [tipNat, hb]
        split
        · rename_i hgt
          refine rank_lt.mpr (.inr ⟨(not_not.mp hwork).symm, ?_⟩)
          rw [hta, htb]
          exact Nat.compare_eq_gt.mp hgt
        · rename_i hle
          refine rank_le.mpr (.inr ⟨not_not.mp hwork, ?_⟩)
          rw [hta, htb]
          exact Nat.le_of_not_lt fun hlt => hle (Nat.compare_eq_gt.mpr hlt)
    · cases h

theorem pop_root_ok {c d : Chain} {x : BlockHash} (h : c.pop_root = .ok (b, d))
    (hx : c.non_finalized_root_hash = .ok x) : c.blocks = b :: d.blocks ∧ b.hash = x := by
  unfold pop_root at h
  unfold non_finalized_root_hash at hx
  split at h
  · rename_i hblocks
    cases h
    rw [hblocks] at hx
    exact ⟨hblocks, Except.ok.inj hx⟩
  · cases h

theorem work_cons (b : ContextuallyVerifiedBlock) (l : List ContextuallyVerifiedBlock) :
    (mk (b :: l)).partial_cumulative_work = blockWork b + (mk l).partial_cumulative_work := by
  simp [partial_cumulative_work]

theorem tipNat_cons (b : ContextuallyVerifiedBlock) (hl : l ≠ []) :
    (mk (b :: l)).tipNat = (mk l).tipNat := by
  cases l with
  | nil => exact absurd rfl hl
  | cons c l => simp [tipNat]

theorem rank_tail_le {l' : List ContextuallyVerifiedBlock}
    (h : (mk (b :: l)).rank ≤ (mk (b :: l')).rank) (hl' : l' ≠ []) :
    (mk l).rank ≤ (mk l').rank := by
  by_cases hl : l = []
  · subst hl
    rw [rank_le]
    have hzero : (mk []).partial_cumulative_work = 0 := rfl
    have htip : (mk []).tipNat = 0 := rfl
    omega
  · rw [rank_le, work_cons, work_cons, tipNat_cons b hl, tipNat_cons b hl'] at h
    rw [rank_le]
    omega

end Chain

/-! ## Sorted chain sets -/

def Sorted (l : List Chain) : Prop := l.Pairwise fun a b => b.rank ≤ a.rank

namespace NonFinalizedState

variable {c best : Chain} {l l' : List Chain} {nfs nfs' : NonFinalizedState}
  {keep : Chain → Except Abort Bool}

theorem insertSorted_perm (h : insertSorted c l = .ok l') : l'.Perm (c :: l) := by
  induction l generalizing l' with
  | nil =>
    cases h
    exact .refl _
  | cons other rest ih =>
    rw [insertSorted, except_bind_ok] at h
    obtain ⟨r, -, h⟩ := h
    split at h
    · cases h
      exact .refl _
    · obtain ⟨rest', hrest, h⟩ := except_bind_ok.mp h
      cases h
      exact ((ih hrest).cons other).trans (.swap ..)

theorem insertSorted_sorted (h : insertSorted c l = .ok l') (hs : Sorted l) : Sorted l' := by
  induction l generalizing l' with
  | nil =>
    cases h
    exact pairwise_singleton _ _
  | cons other rest ih =>
    rw [insertSorted, except_bind_ok] at h
    obtain ⟨r, hcmp, h⟩ := h
    obtain ⟨hother, hrest⟩ := pairwise_cons.mp hs
    have hrank := Chain.cmp_ok hcmp
    split at h
    · cases h
      rw [if_pos rfl] at hrank
      refine pairwise_cons.mpr ⟨?_, hs⟩
      intro d hd
      rcases mem_cons.mp hd with rfl | hd
      · exact hrank.le
      · exact (hother d hd).trans hrank.le
    · rename_i hgt
      obtain ⟨rest', hins, h⟩ := except_bind_ok.mp h
      cases h
      rw [if_neg hgt] at hrank
      refine pairwise_cons.mpr ⟨?_, ih hins hrest⟩
      intro d hd
      rcases mem_cons.mp ((insertSorted_perm hins).mem_iff.mp hd) with rfl | hd
      · exact hrank
      · exact hother d hd

theorem insertSorted_head (h : insertSorted c l = .ok l') (hl : l.head? = some best)
    (hrank : c.rank ≤ best.rank) : l'.head? = some best := by
  cases l with
  | nil => cases hl
  | cons other rest =>
    obtain rfl : other = best := by simpa using hl
    rw [insertSorted, except_bind_ok] at h
    obtain ⟨r, hcmp, h⟩ := h
    split at h
    · have hlt := Chain.cmp_ok hcmp
      rw [if_pos rfl] at hlt
      exact absurd hrank (not_le.mpr hlt)
    · obtain ⟨rest', -, h⟩ := except_bind_ok.mp h
      cases h
      rfl

theorem retain_sublist (h : retain keep l = .ok l') : l'.Sublist l := by
  induction l generalizing l' with
  | nil =>
    cases h
    exact .refl _
  | cons d rest ih =>
    simp only [retain, except_bind_ok] at h
    obtain ⟨kept, -, rest', hrest, h⟩ := h
    cases h
    split
    · exact (ih hrest).cons_cons d
    · exact (ih hrest).cons d

theorem retain_all (l : List Chain) : retain (fun _ => .ok true) l = .ok l := by
  induction l with
  | nil => rfl
  | cons d rest ih => simp [retain, ih, bind, Except.bind, pure, Except.pure]

theorem insert_with_ok (h : nfs.insert_with c keep = .ok nfs') :
    nfs'.invalidated_blocks = nfs.invalidated_blocks ∧
      (∀ d ∈ nfs'.chain_set, d = c ∨ d ∈ nfs.chain_set) ∧
      (Sorted nfs.chain_set → Sorted nfs'.chain_set) := by
  simp only [insert_with, except_bind_ok] at h
  obtain ⟨inserted, hins, kept, hret, h⟩ := h
  cases h
  have hsub : (kept.take MAX_NON_FINALIZED_CHAIN_FORKS).Sublist inserted :=
    (take_sublist _ _).trans (retain_sublist hret)
  refine ⟨rfl, ?_, ?_⟩
  · intro d hd
    exact mem_cons.mp ((insertSorted_perm hins).mem_iff.mp (hsub.subset hd))
  · intro hs
    exact (insertSorted_sorted hins hs).sublist hsub

theorem insert_head (h : nfs.insert c = .ok nfs') (hbest : nfs.chain_set.head? = some best)
    (hrank : c.rank ≤ best.rank) : nfs'.chain_set.head? = some best := by
  simp only [insert, insert_with, except_bind_ok, retain_all] at h
  obtain ⟨inserted, hins, kept, hret, h⟩ := h
  cases hret
  cases h
  rw [head?_take, if_neg (by decide)]
  exact insertSorted_head hins hbest hrank

end NonFinalizedState

open NonFinalizedState

/-! ## Attached chains -/

/-- Each chain continues `db`, and each list of invalidated blocks continued something. -/
structure Attached (Good : List ContextuallyVerifiedBlock → Prop)
    (db : List ContextuallyVerifiedBlock) (nfs : NonFinalizedState) : Prop where
  chains : ∀ c ∈ nfs.chain_set, Good (db ++ c.blocks)
  sorted : Sorted nfs.chain_set
  invalidated : ∀ entry ∈ nfs.invalidated_blocks, ∃ l, Good (l ++ entry.2)

section Attached

variable {name : BlockHash → Block} {Verified : ContextuallyVerifiedBlock → Prop}
  {Trusted : List ContextuallyVerifiedBlock → ContextuallyVerifiedBlock → Prop}
  {Good : List ContextuallyVerifiedBlock → Prop} {db out : List ContextuallyVerifiedBlock}
  {nfs nfs' : NonFinalizedState} {c d : Chain} {x : BlockHash} {root : ContextuallyVerifiedBlock}
  {sides : List Chain} {entry : Nat × List ContextuallyVerifiedBlock} {records : InvalidatedBlocks}
  {r : Except String BlockHash}

open NonFinalizedState

theorem Attached.insert_with {keep : Chain → Except Abort Bool} (ha : Attached Good db nfs)
    (hc : Good (db ++ c.blocks)) (h : nfs.insert_with c keep = .ok nfs') :
    Attached Good db nfs' := by
  obtain ⟨hinv, hmem, hsorted⟩ := insert_with_ok h
  refine ⟨?_, hsorted ha.sorted, by rw [hinv]; exact ha.invalidated⟩
  intro d hd
  rcases hmem d hd with rfl | hd
  · exact hc
  · exact ha.chains d hd

/-! ## Finalizing -/

theorem finalize_side_chains_ok (h : finalize_side_chains root sides nfs = .ok nfs') :
    nfs'.invalidated_blocks = nfs.invalidated_blocks ∧
      (Sorted nfs.chain_set → Sorted nfs'.chain_set) ∧ (∀ d ∈ nfs'.chain_set, d ∈ nfs.chain_set ∨
        ∃ s ∈ sides, ∃ b, s.blocks = b :: d.blocks ∧ b.hash = root.hash) := by
  induction sides generalizing nfs with
  | nil =>
    cases h
    exact ⟨rfl, id, fun d hd => .inl hd⟩
  | cons side rest ih =>
    rw [finalize_side_chains, except_bind_ok] at h
    obtain ⟨root_hash, hroot, h⟩ := h
    split at h
    · obtain ⟨hinv, hsorted, hmem⟩ := ih h
      refine ⟨hinv, hsorted, fun d hd => (hmem d hd).imp_right ?_⟩
      rintro ⟨s, hs, hb⟩
      exact ⟨s, mem_cons_of_mem _ hs, hb⟩
    · rename_i heq
      simp only [except_bind_ok] at h
      obtain ⟨⟨b, popped⟩, hpop, inserted, hins, h⟩ := h
      obtain ⟨hinv, hsorted, hmem⟩ := ih h
      obtain ⟨hinv', hmem', hsorted'⟩ := insert_with_ok hins
      refine ⟨hinv.trans hinv', hsorted ∘ hsorted', ?_⟩
      intro d hd
      rcases hmem d hd with hd | ⟨s, hs, hb⟩
      · rcases hmem' d hd with rfl | hd
        · obtain ⟨hblocks, hhash⟩ := Chain.pop_root_ok hpop hroot
          exact .inr ⟨side, mem_cons_self, b, hblocks, hhash.trans (not_not.mp heq)⟩
        · exact .inl hd
      · exact .inr ⟨s, mem_cons_of_mem _ hs, hb⟩

theorem finalize_side_chains_head {best : Chain}
    (h : finalize_side_chains root sides nfs = .ok nfs') (hbest : nfs.chain_set.head? = some best)
    (hrank : ∀ s ∈ sides, ∀ b d, s.blocks = b :: d → b.hash = root.hash →
      (Chain.mk d).rank ≤ best.rank) : nfs'.chain_set.head? = some best := by
  induction sides generalizing nfs with
  | nil =>
    cases h
    exact hbest
  | cons side rest ih =>
    have hrank' := fun s hs => hrank s (mem_cons_of_mem _ hs)
    rw [finalize_side_chains, except_bind_ok] at h
    obtain ⟨root_hash, hroot, h⟩ := h
    split at h
    · exact ih h hbest hrank'
    · rename_i heq
      simp only [except_bind_ok] at h
      obtain ⟨⟨b, popped⟩, hpop, inserted, hins, h⟩ := h
      obtain ⟨hblocks, hhash⟩ := Chain.pop_root_ok hpop hroot
      have hle := hrank side mem_cons_self b popped.blocks hblocks (hhash.trans (not_not.mp heq))
      exact ih h (insert_head hins hbest hle) hrank'

theorem finalize_ok (h : nfs.finalize = .ok (root, nfs')) :
    ∃ best sides popped swept, nfs.chain_set = best :: sides ∧ best.blocks = root :: popped.blocks ∧
      finalize_side_chains root sides
        { nfs with chain_set := if popped.blocks.isEmpty then [] else [popped] } = .ok swept ∧
      nfs' = { swept with invalidated_blocks :=
        swept.invalidated_blocks.filter fun entry => root.height ≤ entry.1 } := by
  unfold finalize at h
  split at h
  · cases h
  · rename_i best sides hset
    simp only [except_bind_ok] at h
    obtain ⟨⟨b, popped⟩, hpop, swept, hsides, h⟩ := h
    cases h
    refine ⟨best, sides, popped, swept, hset, ?_, hsides, rfl⟩
    unfold Chain.pop_root at hpop
    split at hpop
    · cases hpop
      assumption
    · cases hpop

/-! ## Chains that a block continues -/

theorem pop_tip_ok (h : c.pop_tip = .ok d) :
    d.blocks ≠ [] ∧ ∃ b, c.blocks.getLast? = some b ∧ c.blocks = d.blocks ++ [b] := by
  unfold Chain.pop_tip at h
  split at h
  · cases h
  rename_i hne
  split at h
  · cases h
  rename_i hlong
  cases h
  rw [List.isEmpty_iff] at hne hlong
  have hlast := getLast?_eq_some_getLast hne
  exact ⟨hlong, _, hlast, (dropLast_append_getLast hne).symm⟩

theorem find_tip_ok {l : List Chain} (h : find_tip x l = .ok (some c)) :
    c ∈ l ∧ c.non_finalized_tip_hash = .ok x := by
  induction l with
  | nil => cases h
  | cons d rest ih =>
    rw [find_tip, except_bind_ok] at h
    obtain ⟨tip, htip, h⟩ := h
    split at h
    · rename_i heq
      obtain rfl := Option.some.inj (Except.ok.inj h)
      exact ⟨mem_cons_self, by rw [htip, heq]⟩
    · exact (ih h).imp_left (mem_cons_of_mem _)

theorem pop_to_ok {fuel : Nat} (h : Chain.pop_to x fuel c = .ok d) :
    d.blocks <+: c.blocks ∧ d.non_finalized_tip_hash = .ok x := by
  induction fuel generalizing c with
  | zero => cases h
  | succ fuel ih =>
    rw [Chain.pop_to, except_bind_ok] at h
    obtain ⟨tip, htip, h⟩ := h
    split at h
    · rename_i heq
      cases h
      exact ⟨prefix_refl _, by rw [htip, heq]⟩
    · obtain ⟨popped, hpop, h⟩ := except_bind_ok.mp h
      obtain ⟨hpart, hx⟩ := ih h
      obtain ⟨-, b, -, hblocks⟩ := pop_tip_ok hpop
      refine ⟨hpart.trans ?_, hx⟩
      rw [hblocks]
      exact prefix_append _ _

theorem fork_ok (h : c.fork x = .ok (some d)) :
    d.blocks <+: c.blocks ∧ d.non_finalized_tip_hash = .ok x := by
  unfold Chain.fork at h
  split at h
  · cases h
  · obtain ⟨forked, hpop, h⟩ := except_bind_ok.mp h
    obtain rfl := Option.some.inj (Except.ok.inj h)
    exact pop_to_ok hpop

theorem find_fork_ok {l : List Chain} (h : find_fork x l = .ok (some c)) :
    ∃ d ∈ l, c.blocks <+: d.blocks ∧ c.non_finalized_tip_hash = .ok x := by
  induction l with
  | nil => cases h
  | cons d rest ih =>
    rw [find_fork, except_bind_ok] at h
    obtain ⟨forked, hfork, h⟩ := h
    split at h
    · obtain rfl := Option.some.inj (Except.ok.inj h)
      exact ⟨d, mem_cons_self, fork_ok hfork⟩
    · obtain ⟨d', hd', hc⟩ := ih h
      exact ⟨d', mem_cons_of_mem _ hd', hc⟩

theorem tipHash_of_tip (h : c.non_finalized_tip_hash = .ok x) : tipHash (db ++ c.blocks) = x := by
  unfold Chain.non_finalized_tip_hash at h
  split at h
  · rename_i b hb
    rw [tipHash, getLast?_append, hb]
    exact Except.ok.inj h
  · cases h

theorem tipHash_getLast {b : ContextuallyVerifiedBlock} (h : c.blocks.getLast? = some b) :
    tipHash (db ++ c.blocks) = b.hash := by
  simp [tipHash, getLast?_append, h]

theorem parent_chain_ok (h : nfs.parent_chain x = .ok (.ok c)) :
    ∃ e ∈ nfs.chain_set, c.blocks <+: e.blocks ∧ c.non_finalized_tip_hash = .ok x := by
  unfold parent_chain at h
  obtain ⟨found, hfound, h⟩ := exceptT_bind_ok.mp h
  cases found with
  | some d =>
    obtain rfl : d = c := by cases h; rfl
    obtain ⟨hd, htip⟩ := find_tip_ok (liftAbort_ok.mp hfound)
    exact ⟨d, hd, prefix_refl _, htip⟩
  | none =>
    simp only [exceptT_bind_ok] at h
    obtain ⟨forked, hforked, h⟩ := h
    cases forked with
    | none => cases h
    | some d =>
      obtain rfl : d = c := by cases h; rfl
      exact find_fork_ok (liftAbort_ok.mp hforked)

/-! ## Taking blocks out and putting them back -/

theorem Chain.cmp_self (c : Chain) : ∃ abort, c.cmp c = .error abort := by
  unfold cmp
  rw [if_neg (by simp)]
  cases c.blocks.getLast? with
  | none => exact ⟨_, rfl⟩
  | some b => exact ⟨.panic "Chain tip block hashes are always unique", by simp⟩

abbrev InvalidatedBlocks : Type := List (Nat × List ContextuallyVerifiedBlock)

def recorded (records : InvalidatedBlocks) (height : Nat) (blocks : List ContextuallyVerifiedBlock) :
    InvalidatedBlocks :=
  let records := indexInsert records height blocks
  records.drop (records.length - MAX_INVALIDATED_BLOCKS)

theorem of_mem_recorded {height : Nat} {blocks : List ContextuallyVerifiedBlock}
    (h : entry ∈ recorded records height blocks) : entry ∈ records ∨ entry = (height, blocks) :=
  mem_indexInsert (mem_of_mem_drop h)

theorem invalidate_block_cut (h : c.invalidate_block x = .ok (some (d, out))) :
    d.blocks ≠ [] ∧ (∃ b rest, c.blocks = d.blocks ++ b :: rest ∧ b.hash = x) ∧
      ∃ k, out = c.child_blocks k := by
  unfold Chain.invalidate_block at h
  split at h
  · cases h
  rename_i k _
  obtain ⟨forked, hfork, h⟩ := except_bind_ok.mp h
  cases forked with
  | none => cases h
  | some forked =>
    simp only [except_bind_ok] at h
    obtain ⟨popped, hpop, h⟩ := h
    obtain ⟨rfl, rfl⟩ := Prod.mk.inj (Option.some.inj (Except.ok.inj h))
    obtain ⟨⟨rest, hrest⟩, htip⟩ := fork_ok hfork
    obtain ⟨hne, b, hlast, hblocks⟩ := pop_tip_ok hpop
    have hbx : b.hash = x := by
      have htip' : tipHash ([] ++ forked.blocks) = x := tipHash_of_tip htip
      rwa [tipHash_getLast hlast] at htip'
    refine ⟨hne, ⟨b, rest, ?_, hbx⟩, k, rfl⟩
    rw [← hrest, hblocks, append_assoc, singleton_append]

/-- The removal of a whole chain panics, so blocks are only taken off the end of a chain. -/
theorem take_out_ok (h : nfs.take_out c x = .ok (nfs', out)) :
    ∃ d, c.invalidate_block x = .ok (some (d, out)) ∧
      nfs.insert_with d (fun e => .ok (!e.contains_block_hash x)) = .ok nfs' := by
  unfold take_out at h
  obtain ⟨root, -, h⟩ := except_bind_ok.mp h
  split at h
  · obtain ⟨_, hcmp, -⟩ := except_bind_ok.mp h
    obtain ⟨abort, habort⟩ := Chain.cmp_self c
    cases habort.symm.trans hcmp
  obtain ⟨cut, hcut, h⟩ := except_bind_ok.mp h
  cases cut with
  | none => cases h
  | some cut =>
    simp only [except_bind_ok] at h
    obtain ⟨inserted, hins, h⟩ := h
    cases h
    exact ⟨cut.1, hcut, hins⟩

theorem invalidate_block_ok (h : nfs.invalidate_block x = .ok (r, nfs')) :
    nfs' = nfs ∨ ∃ c ∈ nfs.chain_set, c.contains_block_hash x = true ∧ ∃ d b rest left,
      c.invalidate_block x = .ok (some (d, b :: rest)) ∧
      nfs.insert_with d (fun e => .ok (!e.contains_block_hash x)) = .ok left ∧
      nfs' = ⟨left.chain_set, recorded nfs.invalidated_blocks b.height (b :: rest)⟩ := by
  unfold invalidate_block at h
  split at h
  · exact .inl (Prod.mk.inj (Except.ok.inj h)).2.symm
  rename_i chain hfind
  have hx := find?_some hfind
  obtain ⟨⟨left, out⟩, hout, h⟩ := except_bind_ok.mp h
  obtain ⟨d, hcut, hins⟩ := take_out_ok hout
  cases out with
  | nil => cases h
  | cons b rest =>
    cases h
    refine .inr ⟨chain, mem_of_find?_eq_some hfind, hx, d, b, rest, left, hcut, hins, ?_⟩
    rw [← (insert_with_ok hins).1]
    rfl

section

variable (law : Lasting name Verified Trusted Good) (ha : Attached Good db nfs)
include law ha

theorem Attached.root_eq {c : Chain} (hc : c ∈ nfs.chain_set) (hd : d ∈ nfs.chain_set)
    {a b : ContextuallyVerifiedBlock} {l l' : List ContextuallyVerifiedBlock}
    (ha' : c.blocks = a :: l) (hb' : d.blocks = b :: l') (hhash : a.hash = b.hash) : a = b :=
  ((law.path _ (ha.chains c hc)).named a (by simp [ha'])).eq_of_hash
    ((law.path _ (ha.chains d hd)).named b (by simp [hb'])) hhash

theorem Attached.finalize (h : nfs.finalize = .ok (root, nfs')) :
    ∃ best rest, nfs.best_chain = some best ∧ best.blocks = root :: rest ∧
      Attached Good (db ++ [root]) nfs' ∧ (rest ≠ [] → nfs'.best_chain = some ⟨rest⟩) := by
  obtain ⟨best, sides, popped, swept, hset, hblocks, hsides, rfl⟩ := finalize_ok h
  have hbest : best ∈ nfs.chain_set := by rw [hset]; exact mem_cons_self
  have hside : ∀ s ∈ sides, s ∈ nfs.chain_set := fun s hs => by
    rw [hset]; exact mem_cons_of_mem _ hs
  obtain ⟨hinv, hsorted, hmem⟩ := finalize_side_chains_ok hsides
  refine ⟨best, popped.blocks, by rw [best_chain, hset]; rfl, hblocks, ⟨?_, ?_, ?_⟩, ?_⟩
  · -- what is left of a chain continues the longer database
    intro d hd
    rw [append_assoc, singleton_append]
    rcases hmem d hd with hd | ⟨s, hs, b, hb, hhash⟩
    · obtain rfl : d = popped := by
        simp only at hd
        split at hd
        · cases hd
        · exact mem_singleton.mp hd
      rw [← hblocks]
      exact ha.chains best hbest
    · obtain rfl := ha.root_eq law (hside s hs) hbest hb hblocks hhash
      rw [← hb]
      exact ha.chains s (hside s hs)
  · refine hsorted ?_
    simp only
    split
    · exact Pairwise.nil
    · exact pairwise_singleton _ _
  · intro entry hentry
    simp only [hinv] at hentry
    exact ha.invalidated entry (mem_of_mem_filter hentry)
  · intro hrest
    change swept.chain_set.head? = some popped
    refine finalize_side_chains_head hsides (by simp [hrest]) ?_
    intro s hs b d hd hhash
    obtain rfl := ha.root_eq law (hside s hs) hbest hd hblocks hhash
    have hsorted := ha.sorted
    rw [hset] at hsorted
    have hle := (pairwise_cons.mp hsorted).1 s hs
    rw [show s = ⟨b :: d⟩ by rw [← hd], show best = ⟨b :: popped.blocks⟩ by rw [← hblocks]] at hle
    exact Chain.rank_tail_le hle hrest

theorem Attached.parent_chain (h : nfs.parent_chain x = .ok (.ok c)) :
    Good (db ++ c.blocks) ∧ tipHash (db ++ c.blocks) = x := by
  obtain ⟨e, he, ⟨rest, hrest⟩, hx⟩ := parent_chain_ok h
  refine ⟨law.left _ rest ?_, tipHash_of_tip hx⟩
  rw [append_assoc, hrest]
  exact ha.chains e he

theorem Attached.invalidate_block (h : nfs.invalidate_block x = .ok (r, nfs')) :
    Attached Good db nfs' := by
  obtain rfl | ⟨c, hc, -, d, b, rest, left, hcut, hins, rfl⟩ := invalidate_block_ok h
  · exact ha
  have hgood := ha.chains c hc
  obtain ⟨-, ⟨a, more, hblocks, -⟩, k, hout⟩ := invalidate_block_cut hcut
  have hleft : Attached Good db left := by
    refine ha.insert_with (law.left _ (a :: more) ?_) hins
    rw [append_assoc, ← hblocks]
    exact hgood
  refine ⟨hleft.chains, hleft.sorted, ?_⟩
  intro entry hentry
  rcases of_mem_recorded hentry with hentry | rfl
  · exact ha.invalidated entry hentry
  · refine ⟨db ++ c.blocks.take (k - db.length), ?_⟩
    rw [hout, Chain.child_blocks, (law.path _ hgood).filter_le, List.append_assoc, take_append_drop]
    exact hgood

end

theorem push_ok {b : ContextuallyVerifiedBlock} (h : c.push b = .ok (.ok d)) :
    d.blocks = c.blocks ++ [b] ∧
      update_with_transactions c.transactions b.block.transactions = .ok (.ok ()) := by
  unfold Chain.push at h
  split at h
  · cases h
  split at h
  · cases h
  split at h
  · cases h
  · obtain ⟨⟨⟩, hupdate, h⟩ := exceptT_bind_ok.mp h
    obtain rfl := Except.ok.inj (Except.ok.inj h)
    exact ⟨rfl, hupdate⟩

theorem push_all_ok {l : List ContextuallyVerifiedBlock}
    (h : push_all c l = .ok (.ok d)) : d.blocks = c.blocks ++ l := by
  induction l generalizing c with
  | nil =>
    obtain rfl := Except.ok.inj (Except.ok.inj h)
    simp
  | cons b l ih =>
    rw [push_all, exceptT_bind_ok] at h
    obtain ⟨pushed, hpush, h⟩ := h
    rw [ih h, (push_ok hpush).1, append_assoc, singleton_append]

variable {zdb : ZebraDb} {y : BlockHash} {b : SemanticallyVerifiedBlock} {rules : ContextRules}
  (law : Lasting name Verified Trusted Good) (hdb : Good zdb.blocks) (ha : Attached Good zdb.blocks nfs)

/-- The chain that ends at `y`: none, if it is the finalized tip. -/
def IsParent (zdb : ZebraDb) (nfs : NonFinalizedState) (y : BlockHash) (c : Chain) : Prop :=
  c = ⟨[]⟩ ∧ zdb.finalized_tip_hash = y ∨ nfs.parent_chain y = .ok (.ok c)

theorem IsParent.part (h : IsParent zdb nfs y c) :
    c.blocks = [] ∨ ∃ e ∈ nfs.chain_set, c.blocks <+: e.blocks := by
  rcases h with ⟨rfl, -⟩ | h
  · exact .inl rfl
  · obtain ⟨e, he, hpart, -⟩ := parent_chain_ok h
    exact .inr ⟨e, he, hpart⟩

theorem reconsider_parent_ok (h : nfs.reconsider_parent x y zdb = .ok (.ok c)) :
    IsParent zdb nfs y c := by
  unfold reconsider_parent at h
  split at h
  · rename_i heq
    split at h
    · cases h
    · exact .inl ⟨(Except.ok.inj (Except.ok.inj h)).symm, heq.symm⟩
  · exact .inr ((exceptT_adapt_ok ..).mp h)

def kept_records (db : ZebraDb) (records : InvalidatedBlocks) : InvalidatedBlocks :=
  match db.finalized_tip_height with
  | some height => records.filter fun entry => height ≤ entry.1
  | none => records

theorem mem_kept_records : entry ∈ kept_records zdb records ↔
      entry ∈ records ∧ ∀ tip ∈ zdb.finalized_tip_height, tip ≤ entry.1 := by
  unfold kept_records
  cases zdb.finalized_tip_height with
  | none => simp
  | some tip => simp

theorem reconsider_block_ok (h : nfs.reconsider_block x zdb = .ok (.ok nfs')) :
    ∃ key root rest parent d, (key, root :: rest) ∈ nfs.invalidated_blocks ∧ root.hash = x ∧
      IsParent zdb nfs root.block.header.previous_block_hash parent ∧
      push_all parent (root :: rest) = .ok (.ok d) ∧
      insert_with ⟨nfs.chain_set, kept_records zdb nfs.invalidated_blocks⟩ d
        (tipIsNot root.block.header.previous_block_hash) = .ok nfs' := by
  unfold reconsider_block at h
  split at h
  · cases h
  rename_i key out hfind
  split at h
  · cases h
  rename_i root rest
  simp only [exceptT_bind_ok, exceptT_adapt_ok] at h
  obtain ⟨parent, hparent, d, hpush, h⟩ := h
  exact ⟨key, root, rest, parent, d, mem_of_find?_eq_some hfind,
    by simpa using find?_some hfind, reconsider_parent_ok hparent, hpush, liftAbort_ok.mp h⟩

/-! ## Committing -/

theorem contains_nonempty (h : c.contains_block_hash x = true) : c.blocks ≠ [] := by
  intro hnil
  simp [Chain.contains_block_hash, Chain.height_by_hash, hnil] at h

theorem initial_contextual_validity_ok
    (h : check.initial_contextual_validity rules zdb nfs b = .ok (.ok ())) :
    zdb.blocks ≠ [] ∧ check.no_duplicates_in_finalized_chain b zdb = .ok (.ok ()) ∧
      ∃ parent height, (check.any_ancestor_blocks nfs zdb
          b.block.header.previous_block_hash).head? = some parent ∧
        parent.coinbase_height = some height ∧ b.height = height + 1 := by
  unfold check.initial_contextual_validity at h
  obtain ⟨⟨⟩, hrecent, hnull⟩ := exceptT_bind_ok.mp h
  unfold check.block_is_valid_for_recent_chain at hrecent
  split at hrecent
  · cases hrecent
  rename_i tip htip
  split at hrecent
  · cases hrecent
  simp only at hrecent
  split at hrecent
  · cases hrecent
  rename_i parent rest htake
  split at hrecent
  · cases hrecent
  rename_i height hheight
  split at hrecent
  · cases hrecent
  rename_i heq
  refine ⟨?_, hnull, parent, height, ?_, hheight, (not_not.mp heq).symm⟩
  · intro hnil
    simp [ZebraDb.finalized_tip_height, ZebraDb.tip, hnil] at htip
  · have hhead := congrArg head? htake
    rwa [head?_take, if_neg (by decide)] at hhead

theorem validate_and_commit_ok (h : nfs.validate_and_commit rules c b zdb = .ok (.ok d)) :
    check.transparent_spend b c zdb = .ok (.ok ()) ∧ c.push b = .ok (.ok d) := by
  unfold validate_and_commit at h
  split at h
  · cases h
  simp only [exceptT_bind_ok] at h
  obtain ⟨⟨⟩, hspend, ⟨⟩, -, h⟩ := h
  unfold validate_and_update_parallel at h
  simp only [exceptT_bind_ok] at h
  obtain ⟨pushed, hpush, ⟨⟩, -, h⟩ := h
  cases h
  exact ⟨hspend, liftAbort_ok.mp hpush⟩

theorem commit_ok
    (h : ZebraCrosslink.validate_and_commit_non_finalized rules zdb nfs b = .ok (.ok nfs')) :
    check.initial_contextual_validity rules zdb nfs b = .ok (.ok ()) ∧ ∃ parent d keep,
      IsParent zdb nfs b.block.header.previous_block_hash parent ∧
      nfs.validate_and_commit rules parent b zdb = .ok (.ok d) ∧ nfs.insert_with d keep = .ok nfs' ∧
      (keep = tipIsNot b.block.header.previous_block_hash ∨
        parent = ⟨[]⟩ ∧ keep = fun _ => .ok true) := by
  unfold ZebraCrosslink.validate_and_commit_non_finalized at h
  obtain ⟨⟨⟩, hvalid, h⟩ := exceptT_bind_ok.mp h
  refine ⟨hvalid, ?_⟩
  split at h
  · rename_i htip
    unfold commit_new_chain at h
    split at h
    · cases h
    obtain ⟨d, hd, h⟩ := exceptT_bind_ok.mp h
    exact ⟨_, d, _, .inl ⟨rfl, htip⟩, hd, liftAbort_ok.mp h, .inr ⟨rfl, rfl⟩⟩
  · simp only [commit_block, exceptT_bind_ok] at h
    obtain ⟨parent, hparent, d, hd, h⟩ := h
    exact ⟨parent, d, _, .inr hparent, hd, liftAbort_ok.mp h, .inl rfl⟩

include law hdb ha

theorem Attached.parent (h : IsParent zdb nfs y c) :
    Good (zdb.blocks ++ c.blocks) ∧ tipHash (zdb.blocks ++ c.blocks) = y := by
  rcases h with ⟨rfl, rfl⟩ | h
  · rw [append_nil, ZebraDb.finalized_tip_hash_eq]
    exact ⟨hdb, rfl⟩
  · exact ha.parent_chain law h

/-- Recorded blocks go back to where they were taken from. -/
theorem Attached.restored {key : Nat} {root : ContextuallyVerifiedBlock}
    {rest : List ContextuallyVerifiedBlock} (hmem : (key, root :: rest) ∈ nfs.invalidated_blocks)
    (hparent : IsParent zdb nfs root.block.header.previous_block_hash c) :
    Good (zdb.blocks ++ (c.blocks ++ root :: rest)) := by
  obtain ⟨hgood, htip⟩ := ha.parent law hdb hparent
  obtain ⟨l, hl⟩ := ha.invalidated _ hmem
  have hroot := (law.path _ hl).through
  have hsame : l = zdb.blocks ++ c.blocks :=
    hroot.left.eq_of_tipHash (law.path _ hgood) (hroot.prev_last.symm.trans htip.symm)
  rw [← append_assoc, ← hsame]
  exact hl

theorem Attached.reconsider_block (h : nfs.reconsider_block x zdb = .ok (.ok nfs')) :
    Attached Good zdb.blocks nfs' := by
  obtain ⟨key, root, rest, parent, d, hmem, -, hparent, hpush, h⟩ := reconsider_block_ok h
  refine Attached.insert_with ?_ ?_ h
  · refine ⟨ha.chains, ha.sorted, ?_⟩
    intro entry hentry
    exact ha.invalidated entry (mem_kept_records.mp hentry).1
  · rw [push_all_ok hpush]
    exact ha.restored law hdb hmem hparent

theorem head_any_ancestor_blocks {parent : Block}
    (h : (check.any_ancestor_blocks nfs zdb x).head? = some parent) :
    ∃ b, Named name b ∧ b.hash = x ∧ b.block = parent := by
  unfold check.any_ancestor_blocks at h
  generalize hchain : (nfs.find_chain fun chain => chain.contains_block_hash x) = chain at h
  simp only at h
  obtain ⟨l, hpath, hshown⟩ : ∃ l, ∃ hpath : PowPath name l, Shown chain zdb hpath.powChain := by
    cases chain with
    | none => exact ⟨_, law.path _ hdb, PowPath.shown_db _⟩
    | some c =>
      have hpath := law.path _ (ha.chains c (mem_of_find?_eq_some hchain))
      have hx := find?_some hchain
      exact ⟨_, hpath, hpath.shown_attached (contains_nonempty hx)⟩
  rw [hshown.height_by_hash] at h
  cases hheight : hpath.powChain.heightOf x with
  | none => rw [hheight] at h; cases h
  | some height =>
    rw [PowChain.heightOf_eq_some_iff, PowChain.hashes_getElem?, Option.map_eq_some_iff] at hheight
    obtain ⟨b, hb, hx⟩ := hheight
    rw [PowChain.heightOf_eq_some_iff.mpr (by rw [PowChain.hashes_getElem?, hb, ← hx]; rfl)] at h
    simp only [range_succ, reverse_append, reverse_singleton,
      singleton_append, Read.mapWhile, hshown.block_at_height, hb, Option.map_some,
      head?_cons, Option.some.injEq] at h
    exact ⟨b, hpath.named b (mem_of_getElem? hb), hx, h⟩

theorem Attached.height_of_valid
    (h : check.initial_contextual_validity rules zdb nfs b = .ok (.ok ()))
    (hgood : Good (zdb.blocks ++ c.blocks))
    (hprev : tipHash (zdb.blocks ++ c.blocks) = b.block.header.previous_block_hash) :
    b.height = (zdb.blocks ++ c.blocks).length := by
  obtain ⟨hne, -, parent, height, hparent, hheight, hb⟩ := initial_contextual_validity_ok h
  have hpath := law.path _ hgood
  have hlast := getLast?_eq_some_getLast (append_ne_nil_of_left_ne_nil hne c.blocks)
  generalize (zdb.blocks ++ c.blocks).getLast _ = last at hlast
  have hnamed := hpath.named last (mem_of_getLast? hlast)
  have hhash : last.hash = b.block.header.previous_block_hash := by rw [← hprev, tipHash, hlast]
  obtain ⟨a, ha, hax, rfl⟩ := head_any_ancestor_blocks law hdb ha hparent
  rw [ha.eq_of_hash hnamed (hax.trans hhash.symm), hnamed.height, Option.some.injEq] at hheight
  rw [getLast?_eq_getElem?] at hlast
  have hlen := hpath.heights _ _ hlast
  have hpos : 0 < (zdb.blocks ++ c.blocks).length :=
    length_pos_iff.mpr (append_ne_nil_of_left_ne_nil hne c.blocks)
  omega

theorem Attached.validate_and_commit_non_finalized (hb : Verified b)
    (h : ZebraCrosslink.validate_and_commit_non_finalized rules zdb nfs b = .ok (.ok nfs')) :
    Attached Good zdb.blocks nfs' := by
  obtain ⟨hvalid, parent, d, keep, hparent, hd, hins, -⟩ := commit_ok h
  obtain ⟨hgood, hprev⟩ := ha.parent law hdb hparent
  obtain ⟨hspend, hpush⟩ := validate_and_commit_ok hd
  obtain ⟨hblocks, hupdate⟩ := push_ok hpush
  refine ha.insert_with ?_ hins
  rw [hblocks, ← append_assoc]
  have hnull := (initial_contextual_validity_ok hvalid).2.1
  exact law.commit zdb parent b hgood hb
    ⟨ha.height_of_valid law hdb hvalid hgood hprev, hprev.symm, hnull, hspend, hupdate⟩

end Attached

end ZebraCrosslink
