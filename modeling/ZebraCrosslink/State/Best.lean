import Mathlib
import ZebraCrosslink.State.Indexed.Refine

/-!
# The best chain

A chain stores the work of its own blocks only. All the chains stand on the finalized tip, so this
is the order of the work from genesis on.
-/

open Rust List

namespace ZebraCrosslink

/-! ## The stored work -/

namespace ChainInner

variable {H : Type} {rules : IndexRules H} {top top' : Nat} {c d : ChainInner H}

/-- `Ord for Chain`, with the work that the chain stores. -/
def cmp (self other : ChainInner H) : Except Abort Ordering :=
  if self.partial_cumulative_work ≠ other.partial_cumulative_work then
    .ok (compare self.partial_cumulative_work other.partial_cumulative_work)
  else match self.blocks.last, other.blocks.last with
  | some (_, self_tip), some (_, other_tip) =>
    if self_tip.hash = other_tip.hash then
      .error (.panic "Chain tip block hashes are always unique")
    else .ok (compare self_tip.hash.toNat other_tip.hash.toNat)
  | _, _ => .error (.expect "always at least 1 element")

theorem Built.cmp_eq (hc : Built rules top c) (hd : Built rules top' d) :
    c.cmp d = c.toChain.cmp d.toChain := by
  unfold ChainInner.cmp Chain.cmp
  rw [hc.toChain_work, hd.toChain_work]
  simp only [toChain, getLast?_map, Map.values_getLast?]
  cases c.blocks.last <;> cases d.blocks.last <;> rfl

end ChainInner

/-! ## The order of the chains -/

def totalWork (db : ZebraDb) (c : Chain) : Nat :=
  ((db.blocks ++ c.blocks).map Chain.blockWork).sum

def Better (db : ZebraDb) (c d : Chain) : Prop :=
  totalWork db d < totalWork db c ∨ totalWork db d = totalWork db c ∧ d.tipNat < c.tipNat

section Order

variable {name : BlockHash → Block} {db : ZebraDb} {nfs nfs' : NonFinalizedState} {c d best : Chain}

open NonFinalizedState

theorem better_iff : Better db c d ↔ d.rank < c.rank := by
  have hwork : ∀ e, totalWork db e =
      (db.blocks.map Chain.blockWork).sum + e.partial_cumulative_work := by
    intro e
    simp [totalWork, Chain.partial_cumulative_work]
  rw [Better, Chain.rank_lt, hwork, hwork]
  omega

namespace Chain

theorem cmp_ok_ne {r : Ordering} (h : c.cmp d = .ok r) : c.rank ≠ d.rank := by
  intro hrank
  have hwork : c.partial_cumulative_work = d.partial_cumulative_work := congrArg (·.1) hrank
  unfold cmp at h
  rw [if_neg (not_not.mpr hwork)] at h
  split at h
  · next a b ha hb =>
    rw [if_pos (tip_of_rank ha hb hrank)] at h
    cases h
  · cases h

theorem cmp_eq_lt (hc : c.blocks ≠ []) (hd : d.blocks ≠ []) :
    c.cmp d = .ok .lt ↔ c.rank < d.rank := by
  constructor
  · intro h
    have hle := cmp_ok h
    rw [if_neg (by decide)] at hle
    exact lt_of_le_of_ne hle (cmp_ok_ne h)
  · exact fun h => (cmp_of_rank_lt hc hd h).1

theorem cmp_cons (root : ContextuallyVerifiedBlock) {l l' : List ContextuallyVerifiedBlock}
    (hl : l ≠ []) (hl' : l' ≠ []) :
    (Chain.mk (root :: l)).cmp ⟨root :: l'⟩ = (Chain.mk l).cmp ⟨l'⟩ := by
  have hlast : ∀ k : List ContextuallyVerifiedBlock, k ≠ [] →
      (root :: k).getLast? = k.getLast? := by
    intro k hk
    cases k with
    | nil => exact absurd rfl hk
    | cons a k => simp
  have hcompare : ∀ m n k : Nat, compare (k + m) (k + n) = compare m n := by
    intro m n k
    simp [Nat.compare_eq_ite_lt]
  unfold cmp
  simp [work_cons, hlast l hl, hlast l' hl', hcompare]

end Chain

open Chain

variable {l : List Chain}

theorem StrictlySorted.head?_iff (h : StrictlySorted l) :
    l.head? = some best ↔ best ∈ l ∧ ∀ c ∈ l, c ≠ best → c.rank < best.rank := by
  cases l with
  | nil => simp
  | cons a l =>
    have ha := (pairwise_cons.mp h).1
    constructor
    · intro hbest
      obtain rfl : a = best := by simpa using hbest
      refine ⟨mem_cons_self, fun c hc hne => ha c ?_⟩
      exact (mem_cons.mp hc).resolve_left hne
    · rintro ⟨hbest, hless⟩
      rcases mem_cons.mp hbest with rfl | hmem
      · rfl
      · have hne : a ≠ best := fun heq => lt_irrefl _ (heq ▸ ha best hmem)
        exact absurd (ha best hmem) (lt_asymm (hless a mem_cons_self hne))

theorem Tracked.rank_ne (h : Tracked name db.blocks l) (hc : c ∈ l) (hd : d ∈ l)
    (hne : c ≠ d) : c.rank ≠ d.rank := by
  intro hrank
  exact hne (eq_of_rank (h.path c hc) (h.path d hd) (h.nonempty c hc) (h.nonempty d hd) hrank)

section

variable (h : Tracked name db.blocks nfs.chain_set)
include h

theorem Tracked.strict_total :
    IsStrictTotalOrder {c // c ∈ nfs.chain_set} fun c d => c.1.cmp d.1 = .ok .lt where
  trichotomous c d hcd hdc := by
    rw [cmp_eq_lt (h.nonempty _ c.2) (h.nonempty _ d.2)] at hcd
    rw [cmp_eq_lt (h.nonempty _ d.2) (h.nonempty _ c.2)] at hdc
    by_contra hne
    have hrank := h.rank_ne c.2 d.2 (fun heq => hne (Subtype.ext heq))
    exact hrank (le_antisymm (not_lt.mp hdc) (not_lt.mp hcd))
  irrefl c hc := by
    obtain ⟨abort, habort⟩ := cmp_self c.1
    rw [habort] at hc
    cases hc
  trans c d e hcd hde := by
    rw [cmp_eq_lt (h.nonempty _ c.2) (h.nonempty _ d.2)] at hcd
    rw [cmp_eq_lt (h.nonempty _ d.2) (h.nonempty _ e.2)] at hde
    exact (cmp_eq_lt (h.nonempty _ c.2) (h.nonempty _ e.2)).mpr (hcd.trans hde)

/-! ## Finalizing -/

variable {root : ContextuallyVerifiedBlock}

theorem Tracked.finalize_kept (hfinal : nfs.finalize = .ok (root, nfs')) :
    Named name root ∧ nfs'.chain_set = ZebraCrosslink.without root nfs.chain_set := by
  obtain ⟨⟨blocks⟩, sides, popped, -, hset, hblocks, -⟩ := finalize_ok hfinal
  obtain rfl : blocks = root :: popped.blocks := hblocks
  have hpath := h.path ⟨root :: popped.blocks⟩ (by rw [hset]; exact mem_cons_self)
  rw [h.finalize_eq hset] at hfinal
  cases hfinal
  exact ⟨hpath.named root (by simp), rfl⟩

theorem Tracked.mem_finalize (hfinal : nfs.finalize = .ok (root, nfs')) (hc : c ∈ nfs'.chain_set) :
    ⟨root :: c.blocks⟩ ∈ nfs.chain_set ∧ c.blocks ≠ [] := by
  obtain ⟨hroot, hset⟩ := h.finalize_kept hfinal
  rw [hset] at hc
  obtain ⟨b, hb, hhash, hne⟩ := mem_without.mp hc
  rw [h.root_eq hroot hb hhash] at hb
  exact ⟨hb, hne⟩

end

theorem crosslink_finalize_sublist (nfs : NonFinalizedState) (hash : BlockHash) :
    (nfs.crosslink_finalize hash).2.chain_set.Sublist nfs.chain_set := by
  unfold NonFinalizedState.crosslink_finalize
  split
  · exact filter_sublist
  · exact Sublist.refl _

/-! ## Committing -/

variable {b : ContextuallyVerifiedBlock}

theorem PowPath.prev_ne {l : List ContextuallyVerifiedBlock}
    (h : PowPath name l) (hb : b ∈ l) : b.block.header.previous_block_hash ≠ b.hash := by
  intro heq
  obtain ⟨before, after, rfl⟩ := append_of_mem hb
  have hpath := h.through
  have hlast : tipHash before = tipHash (before ++ [b]) := by
    rw [tipHash_append_singleton, ← heq, hpath.prev_last]
  simpa using hpath.left.eq_of_tipHash hpath hlast

theorem Chain.push_work_pos (h : c.push b = .ok (.ok d)) : 0 < blockWork b := by
  unfold push at h
  split at h
  · cases h
  split at h
  · cases h
  · next work hwork =>
    rw [ChainInner.blockWork_eq hwork]
    simp only [CompactDifficulty.to_work, Option.bind_eq_bind, Option.bind_eq_some_iff,
      Option.ite_none_right_eq_some, Option.some.injEq] at hwork
    obtain ⟨_, -, -, rfl⟩ := hwork
    exact Nat.succ_pos _

theorem Tracked.keeps_modified (h : Tracked name db.blocks nfs.chain_set)
    {parent : Chain} {b : SemanticallyVerifiedBlock} (hb : Named name b)
    (hparent : nfs.parent_chain b.block.header.previous_block_hash = .ok (.ok parent)) :
    tipIsNot b.block.header.previous_block_hash ⟨parent.blocks ++ [b]⟩ = .ok true := by
  obtain ⟨e, he, hpart, htip⟩ := parent_chain_ok hparent
  have hne : b.hash ≠ b.block.header.previous_block_hash := by
    intro heq
    unfold non_finalized_tip_hash at htip
    split at htip
    · next a ha =>
      have hmem := mem_append_right db.blocks (hpart.subset (mem_of_getLast? ha))
      have hpath := h.path e he
      have hab := (hpath.named a hmem).eq_of_hash hb ((Except.ok.inj htip).trans heq.symm)
      rw [hab] at hmem
      exact hpath.prev_ne hmem heq.symm
    · cases htip
  simp [tipIsNot, non_finalized_tip_hash, bind, Except.bind, pure, Except.pure, hne]

theorem parent_chain_best {rest : List Chain} {x : BlockHash} (hset : nfs.chain_set = best :: rest)
    (htip : best.non_finalized_tip_hash = .ok x) : nfs.parent_chain x = .ok (.ok best) := by
  have hfind : find_tip x nfs.chain_set = .ok (some best) := by
    rw [hset, find_tip, htip]
    simp [bind, Except.bind, pure, Except.pure]
  unfold NonFinalizedState.parent_chain
  rw [hfind]
  rfl

theorem retain_cons_true {keep : Chain → Except Abort Bool} {l' : List Chain}
    (h : retain keep (c :: l) = .ok l') (hc : keep c = .ok true) :
    (l'.take MAX_NON_FINALIZED_CHAIN_FORKS).head? = some c := by
  rw [head?_take, if_neg (by decide), retain_ok h]
  simp [hc]

theorem Tracked.commit_best (h : Tracked name db.blocks nfs.chain_set) {rules : ContextRules}
    {b : SemanticallyVerifiedBlock} (hb : Named name b)
    (hcommit : nfs.commit_block rules b db = .ok (.ok nfs')) : ∃ parent best,
      nfs.parent_chain b.block.header.previous_block_hash = .ok (.ok parent) ∧
      nfs.best_chain = some best ∧ Sorted nfs'.chain_set ∧
      (nfs'.best_chain = some ⟨parent.blocks ++ [b]⟩ ↔ Better db ⟨parent.blocks ++ [b]⟩ best) ∧
      (¬ Better db ⟨parent.blocks ++ [b]⟩ best → nfs'.best_chain = some best) := by
  unfold commit_block at hcommit
  simp only [exceptT_bind_ok] at hcommit
  obtain ⟨parent, hparent, d, hd, hins⟩ := hcommit
  have hins := liftAbort_ok.mp hins
  have hpush := (validate_and_commit_ok hd).2
  obtain rfl : d = ⟨parent.blocks ++ [b]⟩ := by
    cases d
    exact congrArg _ (push_ok hpush).1
  have hsorted := (insert_with_ok hins).2.2 h.sorted
  obtain ⟨e, he, -, -⟩ := parent_chain_ok hparent
  obtain ⟨best, rest, hset⟩ := exists_cons_of_ne_nil (ne_nil_of_mem he)
  have hbest : nfs.best_chain = some best := by simp [NonFinalizedState.best_chain, hset]
  refine ⟨parent, best, hparent, hbest, hsorted, ?_⟩
  simp only [NonFinalizedState.insert_with, hset, insertSorted, except_bind_ok] at hins
  obtain ⟨inserted, ⟨r, hcmp, hinserted⟩, kept, hkept, hins⟩ := hins
  cases hins
  have hrank := cmp_ok hcmp
  have hne := cmp_ok_ne hcmp
  rw [better_iff]
  simp only [NonFinalizedState.best_chain]
  split at hinserted
  · cases hinserted
    rw [if_pos rfl] at hrank
    rw [retain_cons_true hkept (h.keeps_modified hb hparent)]
    exact ⟨by simp [hrank], fun hnot => absurd hrank hnot⟩
  · next hgt =>
    rw [if_neg hgt] at hrank
    obtain ⟨rest', -, hinserted⟩ := except_bind_ok.mp hinserted
    cases hinserted
    -- a best chain that ends at the parent would have been the chain that was extended
    have hkeep : tipIsNot b.block.header.previous_block_hash best = .ok true := by
      have hbne : best.blocks ≠ [] := h.nonempty best (by rw [hset]; exact mem_cons_self)
      have htip := non_finalized_tip_hash_eq (getLast?_eq_some_getLast hbne)
      have hother : (best.blocks.getLast hbne).hash ≠ b.block.header.previous_block_hash := by
        intro heq
        rw [heq] at htip
        have hsame := (parent_chain_best hset htip).symm.trans hparent
        obtain rfl := Except.ok.inj (Except.ok.inj hsame)
        have hpos := push_work_pos hpush
        have hwork : (Chain.mk (best.blocks ++ [b])).partial_cumulative_work =
            best.partial_cumulative_work + Chain.blockWork b := by
          simp [partial_cumulative_work]
        rw [Chain.rank_le] at hrank
        omega
      simp [tipIsNot, htip, bind, Except.bind, pure, Except.pure, hother]
    rw [retain_cons_true hkept hkeep]
    refine ⟨?_, fun _ => rfl⟩
    constructor
    · intro heq
      rw [Option.some.inj heq] at hne
      exact absurd rfl hne
    · exact fun hlt => absurd hrank (not_le.mpr hlt)

end Order

/-! ## The best chain -/

/-- The first chain is the one with the most work, and the operations keep this order. The work that
a chain stores stands for the work of its blocks. -/
theorem best_chain_of_chain_set (name : BlockHash → Block) (db : ZebraDb) (nfs : NonFinalizedState)
    (hdb : PowPath name db.blocks) (hnamed : ∀ c ∈ nfs.chain_set, ∀ b ∈ c.blocks, Named name b)
    (hset : ChainSet db nfs) (hsorted : Sorted nfs.chain_set) :
    (∀ best, nfs.best_chain = some best ↔
      best ∈ nfs.chain_set ∧ ∀ c ∈ nfs.chain_set, c ≠ best → Better db best c) ∧
    (IsStrictTotalOrder {c // c ∈ nfs.chain_set} fun c d => c.1.cmp d.1 = .ok .lt) ∧
    (∀ c ∈ nfs.chain_set, ∀ d ∈ nfs.chain_set, c.cmp d = .ok .lt ↔ Better db d c) ∧
    (∀ {H : Type} (rules : IndexRules H) (top top' : Nat) (c d : ChainInner H),
      c.Built rules top → d.Built rules top' → c.cmp d = c.toChain.cmp d.toChain) ∧
    (∀ root nfs', nfs.finalize = .ok (root, nfs') → Sorted nfs'.chain_set ∧
      ∀ c ∈ nfs'.chain_set, ∀ d ∈ nfs'.chain_set,
        ⟨root :: c.blocks⟩ ∈ nfs.chain_set ∧ ⟨root :: d.blocks⟩ ∈ nfs.chain_set ∧
        c.cmp d = (Chain.mk (root :: c.blocks)).cmp ⟨root :: d.blocks⟩) ∧
    (∀ hash, (nfs.crosslink_finalize hash).2.chain_set.Sublist nfs.chain_set) ∧
    (∀ rules b nfs', Named name b → nfs.commit_block rules b db = .ok (.ok nfs') → ∃ parent best,
        nfs.parent_chain b.block.header.previous_block_hash = .ok (.ok parent) ∧
        nfs.best_chain = some best ∧ Sorted nfs'.chain_set ∧
        (nfs'.best_chain = some ⟨parent.blocks ++ [b]⟩ ↔ Better db ⟨parent.blocks ++ [b]⟩ best) ∧
        (¬ Better db ⟨parent.blocks ++ [b]⟩ best → nfs'.best_chain = some best)) := by
  have h := hset.tracked hdb hnamed hsorted
  refine ⟨?_, h.strict_total, ?_, ?_, ?_, crosslink_finalize_sublist nfs, ?_⟩
  · intro best
    simp only [better_iff]
    exact h.strict.head?_iff
  · intro c hc d hd
    rw [better_iff]
    exact Chain.cmp_eq_lt (h.nonempty c hc) (h.nonempty d hd)
  · intro H rules top top' c d hc hd
    exact hc.cmp_eq hd
  · intro root nfs' hfinal
    obtain ⟨hroot, hkept⟩ := h.finalize_kept hfinal
    refine ⟨?_, ?_⟩
    · rw [hkept]
      exact (h.without hroot).sorted
    · intro c hc d hd
      obtain ⟨hc, hcne⟩ := h.mem_finalize hfinal hc
      obtain ⟨hd, hdne⟩ := h.mem_finalize hfinal hd
      exact ⟨hc, hd, (Chain.cmp_cons root hcne hdne).symm⟩
  · intro rules b nfs' hb hcommit
    exact h.commit_best hb hcommit

namespace Sample

def evenFork : NonFinalizedState where
  chain_set := [⟨[plain 0 1, plain 0 2, plain 1 3]⟩, ⟨[plain 0 1, plain 0 2, plain 0 3]⟩]
  invalidated_blocks := []

theorem evenFork_named : ∀ c ∈ evenFork.chain_set, ∀ b ∈ c.blocks, Named plainNames b := by
  simp only [evenFork, mem_cons, not_mem_nil, or_false]
  rintro c (rfl | rfl) b hb <;>
  · simp only [mem_cons, not_mem_nil, or_false] at hb
    rcases hb with rfl | rfl | rfl <;> exact plain_named _ _ (by omega) (by omega)

theorem evenFork_set : ChainSet origin evenFork where
  nonempty := by decide
  linked := by decide +kernel
  rooted := by decide +kernel
  tips := by decide +kernel
  no_prefix := by decide +kernel
  count := by decide

theorem evenFork_sorted : Sorted evenFork.chain_set := by
  simp only [Sorted, evenFork, pairwise_pair]
  decide +kernel

end Sample

open Sample

theorem best_chain_of_fork : Better origin ⟨[plain 0 1, plain 0 2, plain 1 3]⟩
        ⟨[plain 0 1, plain 0 2, plain 0 3]⟩ ∧ ∃ nfs', evenFork.commit_block lax (plain 0 4) origin =
          .ok (.ok nfs') ∧ Sorted nfs'.chain_set := by
  have h := best_chain_of_chain_set plainNames origin evenFork origin_path
    evenFork_named evenFork_set evenFork_sorted
  refine ⟨?_, ?_⟩
  · exact ((h.1 ⟨[plain 0 1, plain 0 2, plain 1 3]⟩).mp rfl).2
      ⟨[plain 0 1, plain 0 2, plain 0 3]⟩ (by simp [evenFork])
      (by decide +kernel)
  · have hok : ((evenFork.commit_block lax (plain 0 4)
        origin).run.toOption.bind Except.toOption).isSome = true := by decide +kernel
    obtain ⟨nfs', hnfs⟩ := Option.isSome_iff_exists.mp hok
    rw [Option.bind_eq_some_iff] at hnfs
    obtain ⟨r, hr, hnfs⟩ := hnfs
    have hcommit : evenFork.commit_block lax (plain 0 4) origin = .ok (.ok nfs') := by
      rw [← toOption_eq_some.mp hnfs]
      exact toOption_eq_some.mp hr
    obtain ⟨_, _, -, -, hsorted, -⟩ := h.2.2.2.2.2.2 lax (plain 0 4) nfs'
      (plain_named 0 4 (by omega) (by omega)) hcommit
    exact ⟨nfs', hcommit, hsorted⟩

end ZebraCrosslink
