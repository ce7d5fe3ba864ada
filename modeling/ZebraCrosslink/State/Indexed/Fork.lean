import Mathlib
import ZebraCrosslink.State.Indexed.Subtrees

/-!
# A fork at the tip of an earlier chain

Each pop gives back every index of the chain before the push but for the subtrees, which no revert
touches.
-/

open Rust List Map Bytes
open Finmap (erase lookup_insert mem_erase mem_iff mem_insert mem_of_lookup_eq_some notMem_empty)

namespace ZebraCrosslink

namespace ChainInner

variable {H : Type} {rules : IndexRules H} {b t : IndexedBlock} {c c' d d' e : ChainInner H} {top : Nat}
  {bs : List IndexedBlock}

/-! ## Popping what was pushed -/

def withSide (c : ChainInner H) (trees_by_anchor : Map TreeNode SproutTree)
    (sapling_subtrees orchard_subtrees : Subtrees) : ChainInner H :=
  { c with
    sprout := c.sprout.withTrees trees_by_anchor
    sapling_subtrees
    orchard_subtrees }

/-- The chains are equal but for their subtrees. Sprout trees by anchor are compared as the source
compares trees, by their roots. -/
structure Near (rules : IndexRules H) (c d : ChainInner H) : Prop where
  eq : d = c.withSide d.sprout.trees_by_anchor d.sapling_subtrees d.orchard_subtrees
  roots : SameRoots rules.hashes.sprout c.sprout.trees_by_anchor d.sprout.trees_by_anchor

theorem near_withSide {m : Map TreeNode SproutTree}
    (h : SameRoots rules.hashes.sprout c.sprout.trees_by_anchor m)
    (sapling_subtrees orchard_subtrees : Subtrees) :
    Near rules c (c.withSide m sapling_subtrees orchard_subtrees) := ⟨rfl, h⟩

theorem Near.trans (h : Near rules c d) (h' : Near rules d e) : Near rules c e := by
  refine ⟨?_, fun a => (h.roots a).trans (h'.roots a)⟩
  have h₁ := h.eq
  have h₂ := h'.eq
  rw [h₁] at h₂
  exact h₂

theorem Near.symm (h : Near rules c d) : Near rules d c := by
  refine ⟨?_, fun a => (h.roots a).symm⟩
  have h₁ := h.eq
  rw [h₁]
  rfl

theorem Pushes.revert (hc : c.Valid rules top) (hb : b.height = top + 1)
    {nct nct' : NoteCommitmentTrees} (h : Pushes rules b nct nct' c d)
    (hrange : c.txs.partial_transparent_transfers.SuffixesInRange (b.entries rules).transfers []) :
    ∃ m, SameRoots rules.hashes.sprout c.sprout.trees_by_anchor m ∧
      Reverts rules b .Tip (d.without b.height) (c.withSide m d.sapling_subtrees d.orchard_subtrees) := by
  have hblocks : (d.without b.height).blocks = c.blocks := by
    rw [without, h.blocks]
    exact erase_insert b (hc.notMem (by omega))
  have htip : ∀ t ∈ (d.without b.height).max_block_height, t ≤ b.height := by
    refine max_block_height_le fun k hk => ?_
    rw [hblocks] at hk
    obtain ⟨root, -, hmem⟩ := hc.heights
    have := (hmem k).mp hk
    omega
  have habove : top < b.height := by omega
  have hsprout := (SproutIndex.add_sprout_tree_and_anchor_ok.mp h.sprout).2.2
  have hsapling := (TreeIndex.add_tree_and_anchor_ok.mp h.sapling).2.2
  have horchard := (TreeIndex.add_tree_and_anchor_ok.mp h.orchard).2.2
  obtain ⟨m, hm, hroots⟩ := SproutIndex.remove_added nct'.sprout hc.consistent htip
    (hc.sprout.notMem habove).1 (hc.sprout.notMem habove).2
  obtain ⟨hnew, hhash⟩ := insertNew_eq_some.mp h.height_by_hash
  obtain ⟨_, _, _, _, -, -, -, -, hhistory⟩ := h.history
  obtain ⟨hnewtree, hhistory⟩ := insertNew_eq_some.mp hhistory
  obtain ⟨work, hwork, -, hadd⟩ := h.work
  have hholds := ((TransactionIndexes.adds_iff hc.tidy).mp h.txs).1
  rw [← Entries.append_nil (b.entries rules)] at hholds
  refine ⟨m, hroots, ?_⟩
  exact {
    height_by_hash := by
      rw [removeOld_eq_some, without, hhash]
      exact ⟨mem_insert.mpr (.inl rfl), (erase_insert _ hnew).symm⟩
    work := ⟨work, hwork, by
      change work ≤ d.partial_cumulative_work
      omega, by
      change c.partial_cumulative_work = d.partial_cumulative_work - work
      omega⟩
    complete := h.complete
    txs := (TransactionIndexes.removes_iff hholds).mpr ⟨TransactionIndexes.Holds.nil hc.tidy, hrange⟩
    sprout := by
      change d.sprout.remove_sprout_tree_and_anchor _ _ _ = _
      rw [hsprout]
      exact hm
    sapling := by
      change remove_sapling_tree_and_anchor _ _ _ d.sapling = _
      rw [hsapling]
      exact TreeIndex.remove_added htip (hc.sapling.notMem habove).1 (hc.sapling.notMem habove).2
    orchard := by
      change remove_orchard_tree_and_anchor _ _ _ d.orchard = _
      rw [horchard]
      exact TreeIndex.remove_added htip (hc.orchard.notMem habove).1 (hc.orchard.notMem habove).2
    history := by
      simp only [remove_history_tree, orAbort_ok, removeOld_eq_some, without, hhistory]
      exact ⟨mem_insert.mpr (.inl rfl), (erase_insert _ hnewtree).symm⟩
    pools := by
      simp only [revert_value_pool_change, orAbort_ok, toOption_eq_some]
      exact ValueBalance.add_chain_value_pool_change_neg h.pools
    info := by
      change c.block_info_by_height = erase b.height d.block_info_by_height
      rw [h.info, erase_insert]
      intro hk
      have := hc.info _ hk
      omega
    sapling_subtrees := rfl
    orchard_subtrees := rfl
    blocks := hblocks.symm }

theorem pop_tip_push (hc : c.Valid rules top) (hne : top ∈ c.blocks) (hb : b.height = top + 1)
    (h : c.push rules b = .ok (.ok d))
    (hrange : c.txs.partial_transparent_transfers.SuffixesInRange (b.entries rules).transfers []) :
    ∃ e, d.pop_tip rules = .ok e ∧ Near rules c e ∧ e.sapling_subtrees = d.sapling_subtrees ∧
      e.orchard_subtrees = d.orchard_subtrees := by
  have hd := hc.push hb h
  obtain ⟨nct, nct', h⟩ := push_ok.mp h
  obtain ⟨m, hroots, hreverts⟩ := h.revert hc hb hrange
  refine ⟨_, ?_, near_withSide hroots _ _, rfl, rfl⟩
  have hmem : b.height ∈ d.blocks := by
    rw [h.blocks]
    exact mem_insert.mpr (.inl rfl)
  refine ChainInner.pop_tip_ok.mpr ⟨b.height, b, ?_, ?_, ⟨top, ?_⟩, hreverts⟩
  · rw [hd.max_block_height hmem, hb]
  · rw [h.blocks]
    exact lookup_insert _
  · rw [h.blocks, mem_erase]
    exact ⟨by omega, mem_insert.mpr (.inr hne)⟩

theorem inRange_of_pop_tip_push (hc : c.Valid rules top) (hb : b.height = top + 1)
    (h : c.push rules b = .ok (.ok d)) (hpop : d.pop_tip rules = .ok e) :
    c.txs.partial_transparent_transfers.SuffixesInRange (b.entries rules).transfers [] := by
  have hd := hc.push hb h
  obtain ⟨nct, nct', h⟩ := push_ok.mp h
  obtain ⟨b', hlookup, -, -, hreverts⟩ := hd.pop_tip_ok hpop
  rw [h.blocks, hb, lookup_insert] at hlookup
  cases hlookup
  have hholds := ((TransactionIndexes.adds_iff hc.tidy).mp h.txs).1
  rw [← Entries.append_nil (b.entries rules)] at hholds
  exact ((TransactionIndexes.removes_iff hholds).mp hreverts.txs).2

theorem Near.pop_tip (hnear : Near rules c c') (hc : c.Valid rules (top + 1))
    (h : c.pop_tip rules = .ok d) : ∃ d', c'.pop_tip rules = .ok d' ∧ Near rules d d' ∧
      d'.sapling_subtrees = c'.sapling_subtrees ∧ d'.orchard_subtrees = c'.orchard_subtrees := by
  obtain ⟨b, hb, hheight, hmem, h⟩ := hc.pop_tip_ok h
  have hmax := hc.max_block_height hmem
  have htip : ∀ t ∈ (c.without (top + 1)).max_block_height, t ≤ b.height := by
    refine max_block_height_le fun k hk => ?_
    rw [without, mem_erase] at hk
    rw [hheight]
    exact (lastKey_eq_some.mp hmax).2 k hk.2
  obtain ⟨m, hm, hroots⟩ := SproutIndex.remove_tip_withTrees htip hnear.roots h.sprout
  refine ⟨d.withSide m c'.sapling_subtrees c'.orchard_subtrees, ?_, near_withSide hroots _ _, rfl, rfl⟩
  rw [hnear.eq]
  refine ChainInner.pop_tip_ok.mpr ⟨top + 1, b, hmax, hb, ⟨top, ?_⟩, ?_⟩
  · exact mem_erase.mpr ⟨by omega, hmem⟩
  · exact { h with sprout := hm, sapling_subtrees := rfl, orchard_subtrees := rfl }

theorem Near.valid (hnear : Near rules c d) (hc : c.Valid rules top) : d.Valid rules top := by
  rw [hnear.eq]
  exact { hc with
    sprout := ⟨hc.sprout.trees, hc.sprout.anchors⟩
    consistent := hc.consistent.withTrees hnear.roots }

/-! ## Popping a list of blocks -/

def pop_tips (rules : IndexRules H) : Nat → ChainInner H → Except Abort (ChainInner H)
  | 0, c => .ok c
  | n + 1, c => do
    let c ← pop_tips rules n c
    c.pop_tip rules

def transfers (rules : IndexRules H) (bs : List IndexedBlock) : List (Address × Transfer) :=
  bs.flatMap fun b => (b.entries rules).transfers

/-- Every balance stays in range while the blocks are reverted from the last to the first, where the
transfers of each block are taken out from its first to its last. -/
def RevertsInRange (rules : IndexRules H) (m : AddressTransfers) (bs : List IndexedBlock) : Prop :=
  ∀ before b after, bs = before ++ b :: after → ∀ l l', (b.entries rules).transfers = l ++ l' →
    m.InRange (transfers rules before ++ l')

theorem revertsInRange_cons {m m' : AddressTransfers}
    (h : m.Applied (b.entries rules).transfers m') : RevertsInRange rules m (b :: bs) ↔
      m.SuffixesInRange (b.entries rules).transfers [] ∧ RevertsInRange rules m' bs := by
  constructor
  · intro hrange
    constructor
    · intro l l' heq
      rw [append_nil]
      exact hrange [] b bs rfl l l' heq
    · rintro before b' after rfl l l' heq
      rw [h.inRange_iff, ← append_assoc]
      exact hrange (b :: before) b' after rfl l l' heq
  · rintro ⟨hfirst, hrest⟩ before b' after heq l l' hl
    cases before with
    | nil =>
      obtain ⟨rfl, rfl⟩ := cons.inj heq
      have := hfirst l l' hl
      rwa [append_nil] at this
    | cons b₁ before =>
      obtain ⟨rfl, rfl⟩ := cons.inj heq
      have := hrest before b' after rfl l l' hl
      rwa [h.inRange_iff, ← append_assoc] at this

theorem push_all_cons : c.push_all rules (b :: bs) = .ok (.ok d) ↔
      ∃ c₁, c.push rules b = .ok (.ok c₁) ∧ c₁.push_all rules bs = .ok (.ok d) := by
  rw [push_all, exceptT_bind_ok]

theorem Valid.applied (hc : c.Valid rules top) (h : c.push rules b = .ok (.ok d)) :
    c.txs.partial_transparent_transfers.Applied (b.entries rules).transfers
      d.txs.partial_transparent_transfers := by
  obtain ⟨nct, nct', h⟩ := push_ok.mp h
  exact ((TransactionIndexes.adds_iff hc.tidy).mp h.txs).1.transfers

theorem Valid.tip_mem_push (hb : b.height = top + 1) (h : c.push rules b = .ok (.ok d)) :
    top + 1 ∈ d.blocks := by
  obtain ⟨nct, nct', h⟩ := push_ok.mp h
  rw [h.blocks, hb]
  exact mem_insert.mpr (.inl rfl)

/-! ## The loop of fork -/

theorem pop_tips_succ (n : Nat) (c : ChainInner H) :
    pop_tips rules (n + 1) c = (c.pop_tip rules >>= fun c => pop_tips rules n c) := by
  induction n with
  | zero =>
    simp only [pop_tips]
    exact (bind_pure (c.pop_tip rules)).symm
  | succ n ih =>
    rw [pop_tips, ih]
    simp only [bind_assoc]
    rfl

theorem Valid.tip_hash (hc : c.Valid rules top) (ht : c.blocks.lookup top = some t) :
    c.non_finalized_tip_hash = .ok t.hash := by
  have hmax := lastKey_eq_some.mp (hc.max_block_height (mem_of_lookup_eq_some ht))
  rw [non_finalized_tip_hash, orAbort_ok, Option.map_eq_some_iff]
  exact ⟨(top, t), last_eq_some.mpr ⟨ht, hmax.2⟩, rfl⟩

theorem Valid.tip_of_hash (hc : c.Valid rules top) {x : BlockHash}
    (h : c.non_finalized_tip_hash = .ok x) : ∃ t, c.blocks.lookup top = some t ∧ t.hash = x := by
  rw [non_finalized_tip_hash, orAbort_ok, Option.map_eq_some_iff] at h
  obtain ⟨⟨k, t⟩, hlast, rfl⟩ := h
  obtain ⟨ht, hmax⟩ := last_eq_some.mp hlast
  have hk := lastKey_eq_some.mpr ⟨mem_of_lookup_eq_some ht, hmax⟩
  have htop := hc.max_block_height (mem_of_lookup_eq_some ht)
  rw [ChainInner.max_block_height, hk] at htop
  cases htop
  exact ⟨t, ht, rfl⟩

theorem pop_to_eq {n fuel : Nat} (hc : c.Valid rules (top + n)) (ht : c.blocks.lookup top = some t)
    (hfuel : n < fuel) : pop_to rules t.hash fuel c = pop_tips rules n c := by
  induction n generalizing c fuel with
  | zero =>
    obtain ⟨fuel, rfl⟩ := Nat.exists_eq_add_of_lt hfuel
    rw [Nat.zero_add, pop_to, hc.tip_hash ht]
    change (if t.hash = t.hash then pure c else _) = _
    rw [if_pos rfl]
    rfl
  | succ n ih =>
    obtain ⟨fuel, rfl⟩ : ∃ m, fuel = m + 1 := ⟨fuel - 1, by omega⟩
    obtain ⟨tip, htip⟩ : ∃ tip, c.blocks.lookup (top + (n + 1)) = some tip := by
      obtain ⟨root, -, hmem⟩ := hc.heights
      have := (hmem top).mp (mem_of_lookup_eq_some ht)
      exact mem_iff.mp ((hmem _).mpr (by omega))
    have hne : tip.hash ≠ t.hash := by
      intro heq
      have h₁ := (hc.hashes _ tip htip).2
      have h₂ := (hc.hashes _ t ht).2
      rw [heq, h₂] at h₁
      have := Option.some.inj h₁
      omega
    rw [pop_to, hc.tip_hash htip, pop_tips_succ]
    change (if tip.hash = t.hash then _ else _) = _
    rw [if_neg hne]
    cases hpop : c.pop_tip rules with
    | error err => rfl
    | ok c₁ =>
      have hc' : c.Valid rules (top + n + 1) := hc
      have hc₁ := hc'.pop_tip hpop
      obtain ⟨b, -, -, -, hreverts⟩ := hc'.pop_tip_ok hpop
      refine ih hc₁ ?_ (by omega)
      rw [hreverts.blocks, without, lookup_erase', if_neg (by omega), ht]

section

variable (hc : c.Valid rules top) (hfollow : Follow top bs) (h : c.push_all rules bs = .ok (.ok d))
include hc hfollow h

theorem pop_tips_push_all (hne : top ∈ c.blocks)
    (hrange : RevertsInRange rules c.txs.partial_transparent_transfers bs) :
    ∃ e, pop_tips rules bs.length d = .ok e ∧ Near rules c e ∧
      e.sapling_subtrees = d.sapling_subtrees ∧ e.orchard_subtrees = d.orchard_subtrees := by
  induction bs generalizing c top with
  | nil =>
    cases h
    exact ⟨d, rfl, ⟨rfl, fun _ => rfl⟩, rfl, rfl⟩
  | cons b rest ih =>
    obtain ⟨c₁, h₁, hrest⟩ := push_all_cons.mp h
    obtain ⟨hb, -, hfollow⟩ := hfollow
    rw [revertsInRange_cons (hc.applied h₁)] at hrange
    have hc₁ := hc.push hb h₁
    obtain ⟨e₁, hpops, hnear, hsapling, horchard⟩ :=
      ih hc₁ hfollow hrest (Valid.tip_mem_push hb h₁) hrange.2
    obtain ⟨c₀, hpop, hnear₀, -, -⟩ := pop_tip_push hc hne hb h₁ hrange.1
    obtain ⟨e, he, hnear', hsapling', horchard'⟩ := hnear.pop_tip hc₁ hpop
    refine ⟨e, ?_, hnear₀.trans hnear', hsapling'.trans hsapling, horchard'.trans horchard⟩
    simp only [length_cons, pop_tips, except_bind_ok]
    exact ⟨e₁, hpops, he⟩

theorem inRange_of_pop_tips (hne : top ∈ c.blocks) (hpops : pop_tips rules bs.length d = .ok e) :
    RevertsInRange rules c.txs.partial_transparent_transfers bs := by
  induction bs generalizing c top e with
  | nil =>
    intro before b after heq
    exact absurd heq.symm (by simp)
  | cons b rest ih =>
    obtain ⟨c₁, h₁, hrest⟩ := push_all_cons.mp h
    obtain ⟨hb, -, hfollow⟩ := hfollow
    have hc₁ := hc.push hb h₁
    simp only [length_cons, pop_tips, except_bind_ok] at hpops
    obtain ⟨e₁, hpops, hpop⟩ := hpops
    have hrange := ih hc₁ hfollow hrest (Valid.tip_mem_push hb h₁) hpops
    obtain ⟨e₁', hpops', hnear, -, -⟩ :=
      pop_tips_push_all hc₁ hfollow hrest (Valid.tip_mem_push hb h₁) hrange
    rw [hpops] at hpops'
    cases hpops'
    -- The chain that is popped last is the pushed one but for the subtrees.
    obtain ⟨e', hpop', -, -⟩ := hnear.symm.pop_tip (hnear.valid hc₁) hpop
    rw [revertsInRange_cons (hc.applied h₁)]
    exact ⟨inRange_of_pop_tip_push hc hb h₁ hpop', hrange⟩

theorem Valid.push_all :
    d.Valid rules (top + bs.length) ∧ ∀ k ≤ top, d.blocks.lookup k = c.blocks.lookup k := by
  induction bs generalizing c top with
  | nil =>
    cases h
    exact ⟨hc, fun _ _ => rfl⟩
  | cons b rest ih =>
    obtain ⟨c₁, h₁, hrest⟩ := push_all_cons.mp h
    obtain ⟨hb, -, hfollow⟩ := hfollow
    obtain ⟨hd, hlookup⟩ := ih (hc.push hb h₁) hfollow hrest
    obtain ⟨nct, nct', h₁⟩ := push_ok.mp h₁
    rw [length_cons, show top + (rest.length + 1) = top + 1 + rest.length by omega]
    refine ⟨hd, fun k hk => ?_⟩
    rw [hlookup k (by omega), h₁.blocks, lookup_insert', if_neg (by omega)]

theorem Valid.fork_eq (ht : c.blocks.lookup top = some t) :
    d.fork rules t.hash = (pop_tips rules bs.length d >>= fun e => pure (some e)) := by
  obtain ⟨hd, hlookup⟩ := hc.push_all hfollow h
  have ht' : d.blocks.lookup top = some t := (hlookup top le_rfl).trans ht
  have hmem : t.hash ∈ d.height_by_hash := mem_of_lookup_eq_some (hd.hashes _ t ht').2
  rw [fork, if_neg (not_not.mpr hmem)]
  rw [pop_to_eq hd ht']
  -- The blocks are at the heights above the root.
  obtain ⟨root, hroot, hheights⟩ := hd.heights
  have hkeys : d.blocks.keys = Finset.Ioc root (top + bs.length) := by
    ext k
    rw [Finmap.mem_keys, hheights, Finset.mem_Ioc]
  have := (hheights top).mp (mem_of_lookup_eq_some ht')
  rw [hkeys, Nat.card_Ioc]
  omega

end

theorem Valid.fork_none (hd : d.Valid rules top) {x : BlockHash}
    (hx : ∀ k b, d.blocks.lookup k = some b → b.hash ≠ x) : d.fork rules x = .ok none := by
  rw [fork, if_pos]
  intro hmem
  obtain ⟨k, hk⟩ := mem_iff.mp hmem
  obtain ⟨b, hb, hhash⟩ := hd.blocks x k hk
  exact hx k b hb hhash

/-! ## Chains with the same inner state -/

/-- The chains are equal. Only the Sprout trees by anchor are compared by their roots. -/
structure Alike (rules : IndexRules H) (c d : ChainInner H) : Prop extends Near rules c d where
  sapling_subtrees : d.sapling_subtrees = c.sapling_subtrees
  orchard_subtrees : d.orchard_subtrees = c.orchard_subtrees

theorem Alike.symm (h : Alike rules c d) : Alike rules d c :=
  ⟨h.toNear.symm, h.sapling_subtrees.symm, h.orchard_subtrees.symm⟩

theorem Alike.push (hc : Alike rules c c') (h : c.push rules b = .ok (.ok d)) :
    ∃ d', c'.push rules b = .ok (.ok d') ∧ Alike rules d d' := by
  obtain ⟨nct, nct', h⟩ := push_ok.mp h
  obtain ⟨htrees, hanchors, hsprout⟩ := SproutIndex.add_sprout_tree_and_anchor_ok.mp h.sprout
  have hroots : SameRoots rules.hashes.sprout d.sprout.trees_by_anchor
      (c'.sprout.trees_by_anchor.insert (nct'.sprout.root rules.hashes.sprout) nct'.sprout) := by
    rw [hsprout]
    exact hc.roots.insert _ _
  refine ⟨_, push_ok.mpr ⟨nct, nct', ?_⟩, near_withSide hroots d.sapling_subtrees d.orchard_subtrees,
    rfl, rfl⟩
  have heq := hc.eq
  rw [hc.sapling_subtrees, hc.orchard_subtrees] at heq
  rw [heq]
  exact { h with
    sprout := SproutIndex.add_sprout_tree_and_anchor_ok.mpr
      ⟨htrees, hanchors, by rw [withSide, hsprout]; rfl⟩ }

theorem Alike.push_all (hc : Alike rules c c') (h : c.push_all rules bs = .ok (.ok d)) :
    ∃ d', c'.push_all rules bs = .ok (.ok d') ∧ Alike rules d d' := by
  induction bs generalizing c c' with
  | nil =>
    cases h
    exact ⟨c', rfl, hc⟩
  | cons b rest ih =>
    obtain ⟨c₁, h₁, hrest⟩ := push_all_cons.mp h
    obtain ⟨c₁', h₁', hc₁⟩ := hc.push h₁
    obtain ⟨d', h', hd⟩ := ih hc₁ hrest
    exact ⟨d', push_all_cons.mpr ⟨c₁', h₁', h'⟩, hd⟩

/-! ## The law -/

def Pool.RecordedIn (pool : Pool rules) (c : ChainInner H) (bs : List IndexedBlock) : Prop :=
  (pool.subtrees c).Recorded (subtreesOf pool.hash (pool.tipLeaves c) (pool.notesOf bs))

theorem Pool.subtrees_push_all (pool : Pool rules) (hc : c.Valid rules top)
    (hfollow : Follow top bs) (h : c.push_all rules bs = .ok (.ok d)) :
    pool.subtrees d = pool.subtrees c ↔ pool.RecordedIn c bs := by
  cases bs with
  | nil =>
    cases h
    refine ⟨fun _ l₁ s l₂ heq => absurd heq.symm (by simp [notesOf, subtreesOf]), fun _ => rfl⟩
  | cons b rest =>
    obtain ⟨c₁, h₁, -⟩ := push_all_cons.mp h
    obtain ⟨tip, -, htip, -⟩ := pool.push hc ⟨hfollow.1, hfollow.2.1, trivial⟩ h₁
    rw [pool.push_all hc hfollow htip h, Subtrees.addAll_eq_iff, RecordedIn, tipLeaves, htip]

/-- The fork at the tip of a chain gives the chain back, if and only if every balance stays in range
during the reverts and the blocks on top complete no new subtree. -/
theorem fork_restores_iff {bs : List IndexedBlock} {tip : BlockHash} (hc : Built rules top c)
    (htip : c.non_finalized_tip_hash = .ok tip) (hfollow : Follow top bs)
    (h : c.push_all rules bs = .ok (.ok d)) :
    ((∃ e, d.fork rules tip = .ok (some e) ∧ Alike rules c e ∧
        (∀ bs' f, c.push_all rules bs' = .ok (.ok f) →
          ∃ f', e.push_all rules bs' = .ok (.ok f') ∧ Alike rules f f') ∧
        (∀ bs' f', e.push_all rules bs' = .ok (.ok f') →
          ∃ f, c.push_all rules bs' = .ok (.ok f) ∧ Alike rules f f')) ↔
      RevertsInRange rules c.txs.partial_transparent_transfers bs ∧
        (saplingPool rules).RecordedIn c bs ∧ (orchardPool rules).RecordedIn c bs) ∧
      ∀ x, (∀ k b, d.blocks.lookup k = some b → b.hash ≠ x) → d.fork rules x = .ok none := by
  have hc := hc.valid
  obtain ⟨t, ht, rfl⟩ := hc.tip_of_hash htip
  have hne := mem_of_lookup_eq_some ht
  refine ⟨?_, fun x hx => (hc.push_all hfollow h).1.fork_none hx⟩
  rw [← (saplingPool rules).subtrees_push_all hc hfollow h,
    ← (orchardPool rules).subtrees_push_all hc hfollow h, hc.fork_eq hfollow h ht]
  constructor
  · rintro ⟨e, he, halike, -⟩
    obtain ⟨e', hpops, he⟩ := except_bind_ok.mp he
    cases he
    have hrange := inRange_of_pop_tips hc hfollow h hne hpops
    obtain ⟨e', hpops', -, hsapling, horchard⟩ := pop_tips_push_all hc hfollow h hne hrange
    rw [hpops] at hpops'
    cases hpops'
    exact ⟨hrange, hsapling.symm.trans halike.sapling_subtrees,
      horchard.symm.trans halike.orchard_subtrees⟩
  · rintro ⟨hrange, hsapling, horchard⟩
    obtain ⟨e, hpops, hnear, hsapling', horchard'⟩ := pop_tips_push_all hc hfollow h hne hrange
    have halike : Alike rules c e := ⟨hnear, hsapling'.trans hsapling, horchard'.trans horchard⟩
    refine ⟨e, ?_, halike, fun bs' f hf => halike.push_all hf, fun bs' f' hf' => ?_⟩
    · rw [except_bind_ok]
      exact ⟨e, hpops, rfl⟩
    · obtain ⟨f, hf, hff⟩ := halike.symm.push_all hf'
      exact ⟨f, hf, hff.symm⟩

end ChainInner

open ChainInner

namespace Sample

def lastLeaf : MerkleCrh :=
  ⟨zero 32, fun _ left right => if right = zero 32 then left else right⟩

def shieldedRules : IndexRules Unit where
  hashes := ⟨lastLeaf, lastLeaf, lastLeaf⟩
  address _ := none
  push_history _ _ _ _ := .ok ()
  zcash_serialized_size _ := 0

def nodeAt (n : Nat) : Bytes 32 := ⟨UInt8.ofNat n :: replicate 31 0, by simp⟩

def shieldedCoinbase (height : Nat) (notes : List NoteCommitment) : Transaction where
  hash := nodeAt height
  data := .V5 height [.Coinbase height] []
    (some { spends := [], outputs := notes, value_balance := .zero }) none

def shieldedBlock (height : Nat) (notes : List NoteCommitment) : IndexedBlock where
  block := {
    header := .blank (nodeAt (height - 1)) (nodeAt height) 0x200f0f0f
    transactions := [shieldedCoinbase height notes] }
  hash := nodeAt height
  height := height
  new_outputs := ∅
  spent_outputs := ∅
  transaction_hashes := [nodeAt height]
  chain_value_pool_change := .zero

theorem shieldedBlock_entries (height : Nat) (notes : List NoteCommitment) :
    (shieldedBlock height notes).entries shieldedRules =
      { Entries.nil with locations := [(nodeAt height, ⟨height, 0⟩)] } := rfl

theorem shieldedBlock_follows (height : Nat) (notes : List NoteCommitment) :
    Follow height [shieldedBlock (height + 1) notes] := ⟨rfl, rfl, trivial⟩

theorem shieldedBlock_complete (height : Nat) (notes : List NoteCommitment) :
    ∀ p ∈ (shieldedBlock height notes).transactions, (shieldedBlock height notes).Complete p := by
  intro p hp
  rw [show (shieldedBlock height notes).transactions = [(shieldedCoinbase height notes, nodeAt height)]
    from rfl, mem_singleton] at hp
  subst hp
  exact ⟨rfl, fun _ ho => absurd ho not_mem_nil, fun _ ho => absurd ho not_mem_nil⟩

theorem zero_pools : (ValueBalance.zero : ValueBalance .NonNegative).add_chain_value_pool_change .zero =
    .ok .zero := by
  rw [ValueBalance.add_chain_value_pool_change_eq_ok]
  decide

theorem shielded_work : CompactDifficulty.to_work 0x200f0f0f = some 17 := by decide +kernel

structure Ready (height : Nat) (nct : NoteCommitmentTrees) (c : ChainInner Unit) : Prop where
  built : Built shieldedRules height c
  trees : c.note_commitment_trees_for_tip = .ok nct
  hash : nodeAt (height + 1) ∉ c.height_by_hash
  location : nodeAt (height + 1) ∉ c.txs.tx_loc_by_hash
  work : c.partial_cumulative_work ≤ 17
  pools : c.chain_value_pools = .zero
  history : c.history_block_commitment_tree = .ok ()
  transfers : c.txs.partial_transparent_transfers = ∅

variable {c : ChainInner Unit} {height : Nat} {nct nct' : NoteCommitmentTrees}
  {notes : List NoteCommitment}

theorem Ready.push (hc : Ready height nct c)
    (hupdated : nct.update_trees_parallel shieldedRules.hashes
      (shieldedBlock (height + 1) notes).block = .ok (.ok nct')) :
    ∃ d, c.push shieldedRules (shieldedBlock (height + 1) notes) = .ok (.ok d) := by
  have hadds : c.txs.Adds ((shieldedBlock (height + 1) notes).entries shieldedRules) { c.txs with
      tx_loc_by_hash := c.txs.tx_loc_by_hash.insert (nodeAt (height + 1)) ⟨height + 1, 0⟩ } := by
    rw [shieldedBlock_entries]
    refine ⟨?_, rfl, rfl, rfl, rfl, rfl, rfl⟩
    exact insertAll_cons.mpr ⟨hc.location, rfl⟩
  have hpools : c.chain_value_pools.add_chain_value_pool_change
      (shieldedBlock (height + 1) notes).chain_value_pool_change = .ok .zero := by
    rw [hc.pools]
    exact zero_pools
  have := hc.work
  exact ⟨_, hc.built.valid.exists_push rfl hc.trees hupdated hc.hash shielded_work (by omega)
    (shieldedBlock_complete _ _) hadds hpools hc.history rfl⟩

def almostFull : SaplingTree := ⟨replicate 65535 (nodeAt 9), by rw [length_replicate]; decide⟩

theorem almostFull_length : almostFull.leaves.length = 65535 := length_replicate

theorem almostFull_completed (note : NoteCommitment) :
    ∃ root, completedSubtree lastLeaf 2 almostFull.leaves [note] = some ⟨0, root, 2⟩ := by
  simp only [completedSubtree, almostFull_length, length_singleton]
  rw [if_pos (by decide)]
  exact ⟨_, rfl⟩

def shieldedTip : FinalizedTip Unit where
  height := 0
  sprout := .default
  sapling := almostFull
  orchard := .default
  history_tree := ()
  chain_value_pools := .zero

def tipTrees : NoteCommitmentTrees where
  sprout := .default
  sapling := almostFull
  sapling_subtree := none
  orchard := .default
  orchard_subtree := none

theorem ready_new : ∃ c, new shieldedRules shieldedTip = .ok c ∧ Ready 0 tipTrees c ∧
    c.sapling_subtrees = ∅ ∧ c.orchard_subtrees = ∅ ∧ c.height_by_hash = ∅ ∧ c.txs = .empty ∧
    c.partial_cumulative_work = 0 := by
  have hnew := new_eq shieldedRules shieldedTip
  refine ⟨_, hnew, ⟨.new hnew, ?_, notMem_empty, notMem_empty, Nat.zero_le _, rfl, rfl, rfl⟩,
    rfl, rfl, rfl, rfl, rfl⟩
  simp only [note_commitment_trees_for_tip, except_bind_ok]
  exact ⟨_, TreeIndex.for_tip_empty _ _ _ _, _, TreeIndex.for_tip_empty _ _ _ _, _,
    TreeIndex.for_tip_empty _ _ _ _, rfl⟩

theorem subtree_for_tip_empty (c : ChainInner Unit) : c.subtree_for_tip ∅ = none := by
  unfold subtree_for_tip
  cases c.max_block_height <;> rfl

theorem ready_one : ∃ c₀ c, new shieldedRules shieldedTip = .ok c₀ ∧
    c₀.push shieldedRules (shieldedBlock 1 []) = .ok (.ok c) ∧ Ready 1 tipTrees c ∧
    c.non_finalized_tip_hash = .ok (nodeAt 1) ∧ c.sapling_subtrees = ∅ ∧ c.orchard_subtrees = ∅ := by
  obtain ⟨c, hnew, hc, hsapling, horchard, hhash₀, htxs₀, hwork₀⟩ := ready_new
  have hupdated : tipTrees.update_trees_parallel shieldedRules.hashes (shieldedBlock 1 []).block =
      .ok (.ok tipTrees) := NoteCommitmentTrees.update_without_notes rfl rfl rfl rfl
  obtain ⟨d, hpush⟩ := hc.push hupdated
  have hvalid := hc.built.valid
  have hbuilt := hc.built.push (shieldedBlock_follows 0 []) hpush
  obtain ⟨nct, nct', h⟩ := push_ok.mp hpush
  cases hc.trees.symm.trans h.trees
  cases hupdated.symm.trans h.updated
  obtain ⟨-, hhash⟩ := insertNew_eq_some.mp h.height_by_hash
  obtain ⟨-, hloc⟩ := insertAll_cons.mp h.txs.locations
  have hsapling' : d.sapling_subtrees = ∅ := h.sapling_subtrees.trans hsapling
  have horchard' : d.orchard_subtrees = ∅ := h.orchard_subtrees.trans horchard
  have hne : nodeAt 2 ≠ nodeAt 1 := by decide
  refine ⟨c, d, hnew, hpush, {
    built := hbuilt
    trees := ?_
    hash := ?_
    location := ?_
    work := ?_
    pools := ?_
    history := (hvalid.history_after_push rfl h).choose_spec.choose_spec.2.2.2
    transfers := ?_ }, ?_, hsapling', horchard'⟩
  · rw [hvalid.trees_after_push rfl h, hsapling', horchard']
    simp only [TreeIndex.stored, ite_self, subtree_for_tip_empty]
    rfl
  · rw [hhash, hhash₀, mem_insert, not_or]
    exact ⟨hne, notMem_empty⟩
  · rw [← Option.some.inj hloc, htxs₀]
    exact fun hmem => (mem_insert.mp hmem).elim hne notMem_empty
  · obtain ⟨work, hwork, -, hsum⟩ := h.work
    cases hwork.symm.trans shielded_work
    omega
  · have hpools := h.pools
    rw [hc.pools] at hpools
    exact Except.ok.inj (hpools.symm.trans zero_pools)
  · have htransfers := h.txs.transfers
    rw [htxs₀] at htransfers
    exact (Except.ok.inj htransfers).symm
  · refine hbuilt.valid.tip_hash (t := shieldedBlock 1 []) ?_
    rw [h.blocks]
    exact lookup_insert _

theorem exists_on_top (hc : Ready 1 tipTrees c) (notes : List NoteCommitment) (hlen : notes.length ≤ 1) :
    ∃ d, c.push_all shieldedRules [shieldedBlock 2 notes] = .ok (.ok d) := by
  have hfits : (almostFull.leaves ++ notes).length ≤ 2 ^ 32 := by
    rw [length_append, almostFull_length]
    omega
  obtain ⟨subtree, hpool⟩ : ∃ subtree, update_pool lastLeaf 2 almostFull none notes =
      .ok (⟨_, hfits⟩, subtree) := exists_update_pool rfl lastLeaf 2 none
  have hnotes : (shieldedBlock 2 notes).block.sapling_note_commitments = notes :=
    append_nil notes
  have hupdated : tipTrees.update_trees_parallel shieldedRules.hashes (shieldedBlock 2 notes).block =
      .ok (.ok { tipTrees with sapling := ⟨_, hfits⟩, sapling_subtree := subtree }) := by
    rw [NoteCommitmentTrees.update_trees_parallel_ok, hnotes]
    exact ⟨2, rfl, rfl, hpool, rfl⟩
  obtain ⟨d, hd⟩ := hc.push hupdated
  exact ⟨d, push_all_cons.mpr ⟨d, hd, rfl⟩⟩

theorem reverts_in_range (notes : List NoteCommitment) :
    RevertsInRange shieldedRules ∅ [shieldedBlock 2 notes] := by
  intro before b after heq l l' hl a
  have hbefore : before = [] := by
    rw [singleton_eq_append_iff] at heq
    rcases heq with ⟨h, -⟩ | ⟨-, h⟩
    · exact h
    · cases h
  subst hbefore
  cases heq
  rw [shieldedBlock_entries] at hl
  obtain ⟨-, rfl⟩ := append_eq_nil_iff.mp hl.symm
  change Constraint.NegativeAllowed.Holds 0
  decide

theorem recorded_without_notes (pool : Pool shieldedRules) (c : ChainInner Unit)
    (hnotes : pool.notes (shieldedBlock 2 notes).block = []) :
    pool.RecordedIn c [shieldedBlock 2 notes] := by
  intro l₁ s l₂ heq
  simp [Pool.notesOf, subtreesOf, hnotes, completedSubtree_nil] at heq

end Sample

open Sample

theorem fork_restores_iff_sample : ∃ (c d e : ChainInner Unit), ChainInner.Built shieldedRules 1 c ∧
      c.push_all shieldedRules [shieldedBlock 2 []] = .ok (.ok d) ∧
      d.fork shieldedRules (nodeAt 1) = .ok (some e) ∧ ChainInner.Alike shieldedRules c e := by
  obtain ⟨-, c, -, -, hc, htip, -⟩ := ready_one
  obtain ⟨d, hd⟩ := exists_on_top hc [] (by decide)
  have hlaw := fork_restores_iff hc.built htip (shieldedBlock_follows 1 []) hd
  obtain ⟨e, he, halike, -⟩ := hlaw.1.mpr ⟨hc.transfers ▸ reverts_in_range [],
    recorded_without_notes _ c rfl, recorded_without_notes _ c rfl⟩
  exact ⟨c, d, e, hc.built, hd, he, halike⟩

/-- The block on top completes the first Sapling subtree, and the fork below it keeps that subtree. -/
theorem fork_keeps_subtree : ∃ (c d e : ChainInner Unit) (data : NoteCommitmentSubtreeData),
    ChainInner.Built shieldedRules 1 c ∧ c.non_finalized_tip_hash = .ok (nodeAt 1) ∧
      Follow 1 [shieldedBlock 2 [nodeAt 7]] ∧
      c.push_all shieldedRules [shieldedBlock 2 [nodeAt 7]] = .ok (.ok d) ∧
      d.fork shieldedRules (nodeAt 1) = .ok (some e) ∧
      c.sapling_subtrees.lookup 0 = none ∧ e.sapling_subtrees.lookup 0 = some data ∧
      data.end_height = 2 := by
  obtain ⟨-, c, -, -, hc, htip, hsapling, -⟩ := ready_one
  obtain ⟨d, hd⟩ := exists_on_top hc [nodeAt 7] (by decide)
  have hfollow := shieldedBlock_follows 1 [nodeAt 7]
  have hvalid := hc.built.valid
  obtain ⟨t, ht, hhash⟩ := hvalid.tip_of_hash htip
  obtain ⟨e, hpops, -, hsubtrees, -⟩ := pop_tips_push_all hvalid hfollow
    hd (mem_of_lookup_eq_some ht) (hc.transfers ▸ reverts_in_range _)
  have htipTree : c.sapling.note_commitment_tree_for_tip "sapling" = .ok almostFull :=
    (trees_for_tip_ok hc.trees).2.1
  have hadded := (saplingPool shieldedRules).push_all hvalid hfollow htipTree hd
  obtain ⟨root, hcompleted⟩ := almostFull_completed (nodeAt 7)
  refine ⟨c, d, e, ⟨2, root⟩, hc.built, htip, hfollow, hd, ?_, ?_, ?_, rfl⟩
  · rw [← hhash, hvalid.fork_eq hfollow hd ht, except_bind_ok]
    exact ⟨e, hpops, rfl⟩
  · rw [hsapling]
    rfl
  · have hlist : subtreesOf lastLeaf almostFull.leaves [(2, [nodeAt 7])] =
        [⟨0, root, 2⟩] := by rw [subtreesOf, hcompleted, subtreesOf]; rfl
    rw [hsubtrees]
    change d.sapling_subtrees = c.sapling_subtrees.addAll
      (subtreesOf lastLeaf almostFull.leaves [(2, [nodeAt 7])]) at hadded
    rw [hadded, hlist, hsapling]
    rfl

end ZebraCrosslink
