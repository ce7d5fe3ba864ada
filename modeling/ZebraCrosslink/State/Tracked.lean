import Mathlib
import ZebraCrosslink.State.Kept

/-!
# Tracked chains

The chains in memory as they should be: none of them is empty or a part of another one.
-/

open Rust List Chain

namespace ZebraCrosslink

/-! ## Chains with different ranks -/

namespace Chain

variable {c d : Chain} {b : ContextuallyVerifiedBlock}

theorem cmp_of_rank_lt (hc : c.blocks ≠ []) (hd : d.blocks ≠ [])
    (h : c.rank < d.rank) : c.cmp d = .ok .lt ∧ d.cmp c = .ok .gt := by
  have hcl := getLast?_eq_some_getLast hc
  have hdl := getLast?_eq_some_getLast hd
  generalize c.blocks.getLast hc = a at hcl
  generalize d.blocks.getLast hd = b at hdl
  unfold cmp
  rcases rank_lt.mp h with hwork | ⟨hwork, htip⟩
  · rw [if_pos hwork.ne, if_pos hwork.ne', Nat.compare_eq_lt.mpr hwork, Nat.compare_eq_gt.mpr hwork]
    exact ⟨rfl, rfl⟩
  · simp only [tipNat, hcl, hdl] at htip
    have hne : a.hash ≠ b.hash := fun heq => by rw [heq] at htip; omega
    simp [hwork, hcl, hdl, hne, hne.symm, Nat.compare_eq_lt.mpr htip, Nat.compare_eq_gt.mpr htip]

theorem tip_of_rank {a : ContextuallyVerifiedBlock}
    (ha : c.blocks.getLast? = some a) (hb : d.blocks.getLast? = some b) (h : c.rank = d.rank) :
    a.hash = b.hash := by
  have htip := congrArg Prod.snd (congrArg ofLex h)
  change c.tipNat = d.tipNat at htip
  simp only [tipNat, ha, hb] at htip
  exact Bytes.eq_of_toNat htip

theorem rank_tail_lt {l l' : List ContextuallyVerifiedBlock}
    (h : (mk (b :: l)).rank < (mk (b :: l')).rank) (hl : l ≠ []) (hl' : l' ≠ []) :
    (mk l).rank < (mk l').rank := by
  rw [rank_lt, work_cons, work_cons, tipNat_cons b hl, tipNat_cons b hl'] at h
  rw [rank_lt]
  omega

end Chain

/-! ## Inserting without a panic -/

def StrictlySorted (l : List Chain) : Prop := l.Pairwise fun a b => b.rank < a.rank

namespace NonFinalizedState

variable {c : Chain} {l l' : List Chain} {nfs nfs' : NonFinalizedState}
  {keep : Chain → Except Abort Bool}

theorem insertSorted_between (hc : c.blocks ≠ []) (hne : ∀ d ∈ l, d.blocks ≠ [])
    (hrank : ∀ d ∈ l, d.rank ≠ c.rank) (hs : StrictlySorted l) :
    ∃ above below, l = above ++ below ∧ insertSorted c l = .ok (above ++ c :: below) ∧
      StrictlySorted (above ++ c :: below) := by
  induction l with
  | nil => exact ⟨[], [], rfl, rfl, pairwise_singleton _ _⟩
  | cons other rest ih =>
    obtain ⟨hother, hrest⟩ := pairwise_cons.mp hs
    have hd : other.blocks ≠ [] := hne other mem_cons_self
    rcases lt_or_gt_of_ne (hrank other mem_cons_self) with hlt | hgt
    · -- `c` is above the first chain, and so above all of them
      refine ⟨[], other :: rest, rfl, ?_, pairwise_cons.mpr ⟨?_, hs⟩⟩
      · rw [insertSorted, (Chain.cmp_of_rank_lt hd hc hlt).2]
        rfl
      · intro d hmem
        rcases mem_cons.mp hmem with rfl | hmem
        · exact hlt
        · exact (hother d hmem).trans hlt
    · obtain ⟨above, below, rfl, hins, hsorted⟩ := ih (fun d hmem => hne d (mem_cons_of_mem _ hmem))
        (fun d hmem => hrank d (mem_cons_of_mem _ hmem)) hrest
      refine ⟨other :: above, below, rfl, ?_, pairwise_cons.mpr ⟨?_, hsorted⟩⟩
      · rw [insertSorted, (Chain.cmp_of_rank_lt hc hd hgt).1]
        rw [show insertSorted c (above ++ below) = _ from hins]
        rfl
      · intro d hmem
        rcases mem_append.mp hmem with hmem | hmem
        · exact hother d (mem_append_left _ hmem)
        rcases mem_cons.mp hmem with rfl | hmem
        · exact hgt
        · exact hother d (mem_append_right _ hmem)

theorem insertSorted_last (hc : c.blocks ≠ []) (hne : ∀ d ∈ l, d.blocks ≠ [])
    (hrank : ∀ d ∈ l, c.rank < d.rank) : insertSorted c l = .ok (l ++ [c]) := by
  induction l with
  | nil => rfl
  | cons other rest ih =>
    have hlt := hrank other mem_cons_self
    rw [insertSorted, (Chain.cmp_of_rank_lt hc (hne other List.mem_cons_self) hlt).1]
    simp [ih (fun d hmem => hne d (mem_cons_of_mem _ hmem))
      (fun d hmem => hrank d (mem_cons_of_mem _ hmem)), bind, Except.bind, pure, Except.pure]

theorem retain_ok (h : retain keep l = .ok l') : l' = l.filter fun d => keep d = .ok true := by
  induction l generalizing l' with
  | nil => exact (Except.ok.inj h).symm
  | cons d rest ih =>
    simp only [retain, except_bind_ok] at h
    obtain ⟨kept, hkept, rest', hrest, h⟩ := h
    rw [← Except.ok.inj h, ih hrest, filter_cons, hkept]
    cases kept <;> simp

end NonFinalizedState

/-! ## Tracked chains -/

def Apart (c d : Chain) : Prop := ¬ c.blocks <+: d.blocks ∧ ¬ d.blocks <+: c.blocks

theorem Apart.symm {c d : Chain} (h : Apart c d) : Apart d c := ⟨h.2, h.1⟩

instance : Std.Symm Apart := ⟨fun _ _ => Apart.symm⟩

/-- Chains on top of the final blocks `db`, as the non-finalized state keeps them. -/
structure Tracked (name : BlockHash → Block) (db : List ContextuallyVerifiedBlock)
    (l : List Chain) : Prop where
  path : ∀ c ∈ l, PowPath name (db ++ c.blocks)
  nonempty : ∀ c ∈ l, c.blocks ≠ []
  apart : l.Pairwise Apart
  sorted : Sorted l
  count : l.length ≤ MAX_NON_FINALIZED_CHAIN_FORKS

section Tracked

variable {name : BlockHash → Block} {db : List ContextuallyVerifiedBlock} {l l' : List Chain}
  {nfs nfs' : NonFinalizedState} {c d : Chain} {root b : ContextuallyVerifiedBlock} {x : BlockHash}

open NonFinalizedState

theorem eq_of_tip (hc : PowPath name (db ++ c.blocks)) (hd : PowPath name (db ++ d.blocks))
    (h : tipHash (db ++ c.blocks) = tipHash (db ++ d.blocks)) : c = d := by
  have hblocks := append_cancel_left (hc.eq_of_tipHash hd h)
  cases c
  cases d
  exact congrArg _ hblocks

theorem eq_of_rank (hc : PowPath name (db ++ c.blocks)) (hd : PowPath name (db ++ d.blocks))
    (hcne : c.blocks ≠ []) (hdne : d.blocks ≠ []) (h : c.rank = d.rank) : c = d := by
  have hcl := getLast?_eq_some_getLast hcne
  have hdl := getLast?_eq_some_getLast hdne
  apply eq_of_tip hc hd
  rw [tipHash_getLast hcl, tipHash_getLast hdl]
  exact Chain.tip_of_rank hcl hdl h

namespace Tracked

theorem nil : Tracked name db [] where
  path := by simp
  nonempty := by simp
  apart := Pairwise.nil
  sorted := Pairwise.nil
  count := Nat.zero_le _

theorem sublist (h : Tracked name db l) (hsub : l'.Sublist l) : Tracked name db l' where
  path c hc := h.path c (hsub.subset hc)
  nonempty c hc := h.nonempty c (hsub.subset hc)
  apart := h.apart.sublist hsub
  sorted := h.sorted.sublist hsub
  count := hsub.length_le.trans h.count

theorem strict (h : Tracked name db l) : StrictlySorted l := by
  apply Pairwise.imp_of_mem ?_ (h.sorted.and h.apart)
  rintro c d hc hd ⟨hle, hapart⟩
  apply lt_of_le_of_ne hle
  intro heq
  have hcd := eq_of_rank (h.path d hd) (h.path c hc) (h.nonempty d hd) (h.nonempty c hc) heq
  rw [hcd] at hapart
  exact hapart.1 (prefix_refl _)

end Tracked

open Tracked

/-! ## Finalizing -/

/-- The chains that are left once `root` is final: those that start with it, without it. -/
def without (root : ContextuallyVerifiedBlock) (l : List Chain) : List Chain :=
  l.filterMap fun c =>
    match c.blocks with
    | [] => none
    | b :: rest => if b.hash = root.hash ∧ rest ≠ [] then some ⟨rest⟩ else none

theorem without_cons (root : ContextuallyVerifiedBlock) (c : Chain) (l : List Chain) :
    without root (c :: l) = without root [c] ++ without root l := by
  simp only [without, filterMap_cons, filterMap_nil]
  split <;> rfl

theorem mem_without : d ∈ without root l ↔
    ∃ b, ⟨b :: d.blocks⟩ ∈ l ∧ b.hash = root.hash ∧ d.blocks ≠ [] := by
  unfold without
  rw [mem_filterMap]
  constructor
  · rintro ⟨⟨blocks⟩, hc, hd⟩
    cases blocks with
    | nil => cases hd
    | cons b rest =>
      simp only [Option.ite_none_right_eq_some, Option.some.injEq] at hd
      obtain ⟨⟨hb, hrest⟩, rfl⟩ := hd
      exact ⟨b, hc, hb, hrest⟩
  · rintro ⟨b, hc, hb, hd⟩
    exact ⟨_, hc, by simp [hb, hd]⟩

variable {rest : List ContextuallyVerifiedBlock} {sides : List Chain} {keep : Chain → Except Abort Bool}
  {zdb : ZebraDb} {rules : ContextRules}

theorem Tracked.root_eq (h : Tracked name db l) (hroot : Named name root)
    (hc : ⟨b :: rest⟩ ∈ l) (hb : b.hash = root.hash) :
    b = root := ((h.path _ hc).named b (by simp)).eq_of_hash hroot hb

theorem Tracked.pairwise_without {R S : Chain → Chain → Prop} (h : Tracked name db l)
    (hroot : Named name root) (hR : l.Pairwise R)
    (hRS : ∀ d e : List ContextuallyVerifiedBlock, R ⟨root :: d⟩ ⟨root :: e⟩ → d ≠ [] → e ≠ [] →
      S ⟨d⟩ ⟨e⟩) : (without root l).Pairwise S := by
  unfold without
  rw [pairwise_filterMap]
  apply Pairwise.imp_of_mem ?_ hR
  rintro ⟨c⟩ ⟨d⟩ hc hd hcd e he f hf
  cases c with
  | nil => cases he
  | cons a c =>
    cases d with
    | nil => cases hf
    | cons b d =>
      simp only [Option.ite_none_right_eq_some, Option.some.injEq] at he hf
      obtain ⟨⟨ha, hcne⟩, rfl⟩ := he
      obtain ⟨⟨hb, hdne⟩, rfl⟩ := hf
      rw [h.root_eq hroot hc ha, h.root_eq hroot hd hb] at hcd
      exact hRS c d hcd hcne hdne

theorem Tracked.without (h : Tracked name db l) (hroot : Named name root) :
    Tracked name (db ++ [root]) (without root l) where
  path d hd := by
    obtain ⟨b, hc, hb, -⟩ := mem_without.mp hd
    have hpath := h.path _ hc
    rw [h.root_eq hroot hc hb] at hpath
    simpa using hpath
  nonempty d hd := by
    obtain ⟨_, -, -, hne⟩ := mem_without.mp hd
    exact hne
  apart := by
    apply h.pairwise_without hroot h.apart
    intro d e hde _ _
    simpa [Apart] using hde
  sorted := by
    apply h.pairwise_without hroot h.strict
    intro d e hlt hd he
    exact (Chain.rank_tail_lt hlt he hd).le
  count := (length_filterMap_le _ _).trans h.count

theorem finalize_side_chains_eq (hne : ∀ s ∈ sides, s.blocks ≠ [])
    (hlong : ∀ s ∈ sides, ∀ b, s.blocks = [b] → b.hash ≠ root.hash)
    (hset : ∀ d ∈ nfs.chain_set, d.blocks ≠ [])
    (hstrict : StrictlySorted (nfs.chain_set ++ without root sides))
    (hcount : nfs.chain_set.length + sides.length ≤ MAX_NON_FINALIZED_CHAIN_FORKS) :
    finalize_side_chains root sides nfs =
      .ok { nfs with chain_set := nfs.chain_set ++ without root sides } := by
  induction sides generalizing nfs with
  | nil => simp [finalize_side_chains, without]
  | cons side rest ih =>
    obtain ⟨hside, hrest⟩ := forall_mem_cons.mp hne
    obtain ⟨hlong₁, hlong₂⟩ := forall_mem_cons.mp hlong
    obtain ⟨blocks⟩ := side
    cases blocks with
    | nil => exact absurd rfl hside
    | cons b tail =>
      rw [length_cons] at hcount
      rw [finalize_side_chains]
      simp only [Chain.non_finalized_root_hash, List.head?_cons]
      change (if b.hash ≠ root.hash then _ else _) = _
      split
      · rename_i hb
        have hskip : without root (⟨b :: tail⟩ :: rest) = without root rest := by
          simp [without, hb]
        rw [hskip] at hstrict ⊢
        exact ih hrest hlong₂ hset hstrict (by omega)
      · rename_i hb
        rw [not_not] at hb
        have htail : tail ≠ [] := fun hnil => hlong₁ b (by rw [hnil]) hb
        have hcons : without root (⟨b :: tail⟩ :: rest) = ⟨tail⟩ :: without root rest := by
          simp [without, hb, htail]
        rw [hcons] at hstrict ⊢
        -- `tail` ranks below everything that is in the set
        have hlast : insertSorted ⟨tail⟩ nfs.chain_set = .ok (nfs.chain_set ++ [⟨tail⟩]) := by
          apply insertSorted_last htail hset
          intro d hd
          exact (pairwise_append.mp hstrict).2.2 d hd _ mem_cons_self
        have hins : nfs.insert ⟨tail⟩ =
            .ok { nfs with chain_set := nfs.chain_set ++ [⟨tail⟩] } := by
          have htake : (nfs.chain_set ++ [Chain.mk tail]).take MAX_NON_FINALIZED_CHAIN_FORKS =
              nfs.chain_set ++ [⟨tail⟩] := by
            apply take_of_length_le
            rw [length_append, length_singleton]
            omega
          unfold NonFinalizedState.insert NonFinalizedState.insert_with
          rw [hlast]
          change (retain _ _ >>= _) = _
          rw [retain_all]
          change Except.ok _ = _
          rw [htake]
        change (nfs.insert ⟨tail⟩ >>= fun nfs => finalize_side_chains root rest nfs) = _
        rw [hins]
        change finalize_side_chains root rest _ = _
        rw [ih hrest hlong₂ ?_ (by simpa using hstrict) (by simp; omega)]
        · simp
        · intro d hd
          rcases mem_append.mp hd with hd | hd
          · exact hset d hd
          · rw [mem_singleton.mp hd]
            exact htail

theorem Tracked.finalize_eq (h : Tracked name db nfs.chain_set)
    (hset : nfs.chain_set = ⟨root :: rest⟩ :: sides) : nfs.finalize = .ok (root, {
      chain_set := ZebraCrosslink.without root nfs.chain_set
      invalidated_blocks := nfs.invalidated_blocks.filter fun entry => root.height ≤ entry.1 }) := by
  have hroot : Named name root := by
    have hpath := h.path ⟨root :: rest⟩ (by rw [hset]; exact mem_cons_self)
    exact hpath.named root (by simp)
  have hstrict := (h.without hroot).strict
  have hfirst : ZebraCrosslink.without root [⟨root :: rest⟩] =
      if rest.isEmpty then [] else [⟨rest⟩] := by
    cases rest <;> simp [ZebraCrosslink.without]
  have hapart := h.apart
  have hne := h.nonempty
  have hcount := h.count
  rw [hset] at hapart hne hcount
  rw [hset, without_cons, hfirst] at hstrict
  have hsides : finalize_side_chains root sides
      { nfs with chain_set := if rest.isEmpty then [] else [⟨rest⟩] } =
      .ok { nfs with chain_set :=
        (if rest.isEmpty then [] else [⟨rest⟩]) ++ ZebraCrosslink.without root sides } := by
    apply finalize_side_chains_eq (fun s hs => hne s (mem_cons_of_mem _ hs)) ?_ ?_ hstrict ?_
    · -- a side chain of `root` alone would be a part of the best chain
      rintro ⟨blocks⟩ hs b hb hhash
      have hmem : (⟨blocks⟩ : Chain) ∈ nfs.chain_set := by
        rw [hset]
        exact mem_cons_of_mem _ hs
      simp only at hb
      subst hb
      rw [h.root_eq hroot hmem hhash] at hs
      exact ((pairwise_cons.mp hapart).1 _ hs).2 (by simp)
    · intro d hd
      simp only at hd
      split at hd
      · cases hd
      · rename_i hrest
        rw [mem_singleton.mp hd]
        simpa using hrest
    · simp only [length_cons] at hcount
      split <;> simp <;> omega
  unfold NonFinalizedState.finalize
  rw [hset]
  simp only [Chain.pop_root]
  change (finalize_side_chains root sides _ >>= _) = _
  rw [hsides, without_cons, hfirst]
  rfl

/-! ## Putting a chain in -/

theorem Tracked.insert_with
    (hins : nfs.insert_with c keep = .ok nfs') (h : Tracked name db nfs.chain_set)
    (hc : PowPath name (db ++ c.blocks)) (hne : c.blocks ≠ [])
    (hapart : ∀ d ∈ nfs.chain_set, keep d = .ok true → Apart c d) :
    Tracked name db nfs'.chain_set := by
  obtain ⟨-, hmem, hsorted⟩ := insert_with_ok hins
  simp only [NonFinalizedState.insert_with, except_bind_ok] at hins
  obtain ⟨inserted, hinserted, kept, hkept, hins⟩ := hins
  cases hins
  refine ⟨?_, ?_, ?_, hsorted h.sorted, length_take_le _ _⟩
  · intro d hd
    rcases hmem d hd with rfl | hd
    · exact hc
    · exact h.path d hd
  · intro d hd
    rcases hmem d hd with rfl | hd
    · exact hne
    · exact h.nonempty d hd
  · -- the filter leaves the new chain, and the old ones that are apart from it
    apply Pairwise.sublist (take_sublist _ _)
    rw [retain_ok hkept]
    apply ((insertSorted_perm hinserted).filter _).symm.pairwise ?_ Apart.symm
    rw [filter_cons]
    split
    · refine pairwise_cons.mpr ⟨?_, h.apart.sublist filter_sublist⟩
      intro d hd
      rw [mem_filter, decide_eq_true_eq] at hd
      exact hapart d hd.1 hd.2
    · exact h.apart.sublist filter_sublist

theorem insert_with_nonempty
    (h : nfs.insert_with c keep = .ok nfs') (hkeep : keep c = .ok true) : nfs'.chain_set ≠ [] := by
  simp only [NonFinalizedState.insert_with, except_bind_ok] at h
  obtain ⟨inserted, hins, kept, hkept, h⟩ := h
  cases h
  have hmem : c ∈ inserted := (insertSorted_perm hins).mem_iff.mpr mem_cons_self
  have hc : c ∈ kept := by
    rw [retain_ok hkept, mem_filter]
    exact ⟨hmem, by simpa using hkeep⟩
  intro hnil
  rw [take_eq_nil_iff] at hnil
  rcases hnil with hnil | hnil
  · cases hnil
  · simp [hnil] at hc

theorem tipIsNot_longer {more : List ContextuallyVerifiedBlock}
    (h : PowPath name (db ++ (c.blocks ++ more))) (hmore : more ≠ []) :
    tipIsNot (tipHash (db ++ c.blocks)) ⟨c.blocks ++ more⟩ = .ok true := by
  have hne : c.blocks ++ more ≠ [] := by simp [hmore]
  have hlast := getLast?_eq_some_getLast hne
  generalize (c.blocks ++ more).getLast hne = tip at hlast
  have htip : tip.hash ≠ tipHash (db ++ c.blocks) := by
    intro heq
    have htip : tipHash (db ++ (c.blocks ++ more)) = tip.hash :=
      tipHash_getLast (c := ⟨c.blocks ++ more⟩) hlast
    have hsplit : PowPath name (db ++ c.blocks ++ more) := by simpa using h
    have hsame := h.eq_of_tipHash hsplit.left (htip.trans heq)
    simp [hmore] at hsame
  unfold tipIsNot Chain.non_finalized_tip_hash
  simp [hlast, htip, bind, Except.bind, pure, Except.pure]

theorem tipIsNot_true (h : tipIsNot x c = .ok true) : tipHash (db ++ c.blocks) ≠ x := by
  simp only [tipIsNot, except_bind_ok] at h
  obtain ⟨tip, htip, h⟩ := h
  rw [tipHash_of_tip htip]
  simpa using Except.ok.inj h

theorem Tracked.apart_extended (h : Tracked name db l) {part new : List ContextuallyVerifiedBlock}
    (hpart : part = [] ∨ ∃ e ∈ l, part <+: e.blocks) (hnew : new.head? = some b)
    (hb : ∀ e ∈ l, b ∉ e.blocks) (hd : d ∈ l)
    (htip : tipHash (db ++ d.blocks) ≠ tipHash (db ++ part)) : Apart ⟨part ++ new⟩ d := by
  have hmem : b ∈ new := mem_of_head? hnew
  constructor
  · intro hle
    exact hb d hd (hle.subset (mem_append_right _ hmem))
  · intro hle
    -- past `part`, the next block of `d` would be `b`
    have hle : d.blocks <+: part := by
      rcases prefix_or_prefix_of_prefix hle (prefix_append part new) with hle | ⟨more, hmore⟩
      · exact hle
      · simp only [← hmore, prefix_append_right_inj] at hle
        cases more with
        | nil => simp [← hmore]
        | cons a more =>
          obtain ⟨rest, hrest⟩ := hle
          rw [← hrest] at hnew
          have hab : a = b := by simpa using hnew
          exact absurd (by rw [← hmore, hab]; simp) (hb d hd)
    rcases hpart with rfl | ⟨e, he, hpart⟩
    · exact h.nonempty d hd (prefix_nil.mp hle)
    · by_cases hde : d = e
      · rw [← hde] at hpart
        exact htip (by rw [hle.eq_of_length (hle.length_le.antisymm hpart.length_le)])
      · exact (h.apart.forall hd he hde).1 (hle.trans hpart)

/-! ## Steps -/

theorem mem_of_contains_block_hash (hx : c.contains_block_hash x = true) :
    ∃ b ∈ c.blocks, b.hash = x := by
  obtain ⟨height, hheight⟩ := Option.isSome_iff_exists.mp hx
  obtain ⟨b, hb, -⟩ := Option.map_eq_some_iff.mp hheight
  exact ⟨b, mem_of_find?_eq_some hb, by simpa using find?_some hb⟩

theorem contains_block_hash_of_mem (hb : b ∈ c.blocks) : c.contains_block_hash b.hash = true := by
  unfold Chain.contains_block_hash Chain.height_by_hash
  rw [Option.isSome_map, find?_isSome]
  exact ⟨b, hb, by simp⟩

theorem Tracked.tip_ne_db (hdb : PowPath name db) (h : Tracked name db l) (hd : d ∈ l) :
    tipHash (db ++ d.blocks) ≠ tipHash (db ++ []) := by
  intro htip
  rw [append_nil] at htip
  have hblocks := (h.path d hd).eq_of_tipHash hdb htip
  exact h.nonempty d hd (by simpa using hblocks)

theorem pushed_path {parent : Chain} {b : SemanticallyVerifiedBlock} (hdb : PowPath name zdb.blocks)
    (ha : Attached (PowPath name) zdb.blocks nfs) (hb : Named name b)
    (hvalid : check.initial_contextual_validity rules zdb nfs b = .ok (.ok ()))
    (hparent : PowPath name (zdb.blocks ++ parent.blocks))
    (htip : tipHash (zdb.blocks ++ parent.blocks) = b.block.header.previous_block_hash)
    (hd : nfs.validate_and_commit rules parent b zdb = .ok (.ok d)) :
    d = ⟨parent.blocks ++ [b]⟩ ∧ PowPath name (zdb.blocks ++ (parent.blocks ++ [b])) := by
  have hheight := ha.height_of_valid (lasting_powPath name) hdb hvalid hparent htip
  obtain ⟨-, hpush⟩ := validate_and_commit_ok hd
  have hblocks := (push_ok hpush).1
  refine ⟨by cases d; exact congrArg _ hblocks, ?_⟩
  rw [← append_assoc]
  exact hparent.append_singleton hb hheight htip.symm

theorem Tracked.extend {parent : Chain} {rest : List ContextuallyVerifiedBlock}
    (hins : nfs.insert_with ⟨parent.blocks ++ b :: rest⟩ keep = .ok nfs')
    (hdb : PowPath name db) (h : Tracked name db nfs.chain_set)
    (htip : tipHash (db ++ parent.blocks) = x)
    (hpart : parent.blocks = [] ∨ ∃ e ∈ nfs.chain_set, parent.blocks <+: e.blocks)
    (hfresh : ∀ e ∈ nfs.chain_set, e.contains_block_hash b.hash = false)
    (hpath : PowPath name (db ++ (parent.blocks ++ b :: rest)))
    (hkeep : keep = tipIsNot x ∨ parent = ⟨[]⟩ ∧ keep = fun _ => .ok true) :
    Tracked name db nfs'.chain_set ∧ nfs'.chain_set ≠ [] := by
  have hnew : ∀ e ∈ nfs.chain_set, b ∉ e.blocks := by
    intro e he hmem
    have hcontains := contains_block_hash_of_mem hmem
    simp [hfresh e he] at hcontains
  have hkept : keep ⟨parent.blocks ++ b :: rest⟩ = .ok true := by
    rcases hkeep with rfl | ⟨-, rfl⟩
    · rw [← htip]
      exact tipIsNot_longer hpath (by simp)
    · rfl
  refine ⟨?_, insert_with_nonempty hins hkept⟩
  apply insert_with hins h hpath (by simp)
  intro e he hkept
  apply h.apart_extended hpart rfl hnew he
  rcases hkeep with rfl | ⟨rfl, -⟩
  · rw [htip]
    exact tipIsNot_true hkept
  · exact h.tip_ne_db hdb he

theorem Tracked.commit (hdb : PowPath name zdb.blocks)
    (ha : Attached (PowPath name) zdb.blocks nfs) (h : Tracked name zdb.blocks nfs.chain_set)
    {b : SemanticallyVerifiedBlock} (hb : Named name b)
    (hnew : ∀ c ∈ nfs.chain_set, c.contains_block_hash b.hash = false)
    (hcommit : validate_and_commit_non_finalized rules zdb nfs b = .ok (.ok nfs')) :
    Tracked name zdb.blocks nfs'.chain_set ∧ nfs'.chain_set ≠ [] := by
  obtain ⟨hvalid, parent, d, keep, hparent, hd, hins, hkeep⟩ := commit_ok hcommit
  obtain ⟨hgood, htip⟩ := ha.parent (lasting_powPath name) hdb hparent
  obtain ⟨rfl, hnext⟩ := pushed_path hdb ha hb hvalid hgood htip hd
  exact extend hins hdb h htip hparent.part hnew hnext hkeep

theorem Tracked.reconsider_block (hdb : PowPath name zdb.blocks)
    (ha : Attached (PowPath name) zdb.blocks nfs) (h : Tracked name zdb.blocks nfs.chain_set)
    (hnew : ∀ c ∈ nfs.chain_set, c.contains_block_hash x = false)
    (hstep : nfs.reconsider_block x zdb = .ok (.ok nfs')) :
    Tracked name zdb.blocks nfs'.chain_set ∧ nfs'.chain_set ≠ [] := by
  have hlaw := lasting_powPath name
  obtain ⟨key, root, rest, parent, d, hmem, rfl, hparent, hpush, hins⟩ := reconsider_block_ok hstep
  obtain ⟨-, htip⟩ := ha.parent hlaw hdb hparent
  obtain rfl : d = ⟨parent.blocks ++ root :: rest⟩ := by
    cases d
    exact congrArg _ (push_all_ok hpush)
  exact extend hins hdb h htip hparent.part hnew (ha.restored hlaw hdb hmem hparent) (.inl rfl)

def CutsNoSibling (l : List Chain) (x : BlockHash) : Prop :=
  ∀ c ∈ l, ∀ b ∈ c.blocks, b.hash = x → ∀ d ∈ l,
    d.contains_block_hash b.block.header.previous_block_hash = true →
    d.contains_block_hash x = true

theorem Tracked.invalidate_block (h : Tracked name db nfs.chain_set)
    (hclean : CutsNoSibling nfs.chain_set x) {r : Except String BlockHash}
    (hstep : nfs.invalidate_block x = .ok (r, nfs')) : Tracked name db nfs'.chain_set := by
  obtain rfl | ⟨chain, hmem, -, new_chain, b', rest', left, hcut, hins, rfl⟩ :=
    invalidate_block_ok hstep
  · exact h
  obtain ⟨hne, ⟨b, rest, hblocks, hbx⟩, -⟩ := invalidate_block_cut hcut
  have hpath := h.path chain hmem
  rw [hblocks, ← append_assoc] at hpath
  apply insert_with hins h hpath.left hne
  intro e he hkeep
  have hex : e.contains_block_hash x = false := by simpa using hkeep
  constructor
  · -- a sibling that goes on from where the chain is cut off
    intro hpart
    have hlast := getLast?_eq_some_getLast hne
    have hprev : b.block.header.previous_block_hash = (new_chain.blocks.getLast hne).hash := by
      rw [hpath.through.prev_last, tipHash_getLast hlast]
    have hparent := contains_block_hash_of_mem (hpart.subset (mem_of_getLast? hlast))
    rw [← hprev] at hparent
    have hx := hclean chain hmem b (by rw [hblocks]; simp) hbx e he hparent
    simp [hex] at hx
  · intro hpart
    have hle : e.blocks <+: chain.blocks := by
      rw [hblocks]
      exact hpart.trans (prefix_append _ _)
    by_cases hechain : e = chain
    · have hx := contains_block_hash_of_mem (c := e) (b := b) (by rw [hechain, hblocks]; simp)
      simp [hbx, hex] at hx
    · exact (h.apart.forall he hmem hechain).1 hle

end Tracked

end ZebraCrosslink
