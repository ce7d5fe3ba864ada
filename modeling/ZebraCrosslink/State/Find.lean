import ZebraCrosslink.Bft.Propose

/-!
# Finding the chains of peers

A locator names some blocks of the own chain, and the answer to one names the blocks that follow.
-/

open Rust List

namespace ZebraCrosslink

section

variable {p : Profile} {chain : Option Chain} {db : ZebraDb} {best : PowChain}

/-! ## Hashes after a known block -/

theorem find_chain_hashes_exact (s : Shown chain db best) (known : List BlockHash)
    (stop : Option BlockHash) {max_len : Nat} (hpos : 0 < max_len)
    (hfits : best.startAfter known + max_len ≤ 2 ^ 32) :
    Read.U32.find_chain_hashes p chain db known stop max_len =
      .ok ((best.slice (best.startAfter known)
        (min (best.startAfter known + max_len) (best.stopAt stop))).map (·.hash)) := by
  obtain ⟨x, hx, hstart⟩ := s.find_intersection known
  rw [s.u32_find_chain_hashes known stop hpos hfits, ← hstart, ← s.find_chain_hashes x stop hpos,
    Read.find_chain_hashes, hx, Read.find_chain_hashes]

end

open Sample

theorem find_chain_hashes_exact_sample :
    Read.U32.find_chain_hashes .release reads.non_finalized_state.best_chain reads.db
        [Sample.id 99, Sample.id 11] none 2 = .ok ((best.slice 2 4).map (·.hash)) :=
  find_chain_hashes_exact reads_shows [Sample.id 99, Sample.id 11] none (by decide)
    (by decide +kernel)

/-- A length of zero is refused, even where there is no block. -/
theorem find_chain_hashes_zero :
    Read.U32.find_chain_hashes .release none ⟨[]⟩ [] none 0 =
      .error (.assert "max_len must be at least 1") :=
  rfl

/-! ## Locators -/

namespace Read

variable (tip_height : Nat)

theorem exponential_locators_decreasing : (exponential_locators tip_height).Pairwise (· > ·) := by
  unfold exponential_locators
  rw [pairwise_filterMap]
  refine pairwise_lt_range.imp ?_
  intro k k' hlt h hh h' hh'
  simp only [Option.ite_none_right_eq_some, Option.some.injEq] at hh hh'
  have := Nat.pow_lt_pow_right (show 1 < 2 by decide) hlt
  omega

theorem block_locator_heights_eq : block_locator_heights tip_height =
    ((tip_height :: exponential_locators tip_height).takeWhile fun h =>
      tip_height - MAX_BLOCK_REORG_HEIGHT < h) ++ [tip_height - MAX_BLOCK_REORG_HEIGHT] := rfl

theorem block_locator_heights_decreasing : (block_locator_heights tip_height).Pairwise (· > ·) := by
  rw [block_locator_heights_eq]
  refine pairwise_append.mpr ⟨?_, pairwise_singleton _ _, ?_⟩
  · refine (pairwise_cons.mpr ⟨fun h hmem => ?_, exponential_locators_decreasing _⟩).sublist
      (takeWhile_sublist _)
    obtain ⟨k, -, hk⟩ := mem_filterMap.mp hmem
    simp only [Option.ite_none_right_eq_some, Option.some.injEq] at hk
    have := Nat.two_pow_pos k
    omega
  · intro h hmem h' hmem'
    have := mem_takeWhile_imp hmem
    rw [mem_singleton.mp hmem']
    simpa using this

theorem block_locator_heights_head :
    (block_locator_heights tip_height).head? = some tip_height := by
  rw [block_locator_heights_eq, takeWhile_cons]
  split
  · rfl
  · next hmin =>
    rw [decide_eq_true_eq] at hmin
    rw [nil_append, head?_cons, Option.some.injEq]
    omega

/-- Besides the tip and the last height, only the steps that stay within the span are taken. -/
theorem block_locator_heights_length : (block_locator_heights tip_height).length ≤
      Nat.log 2 (min tip_height MAX_BLOCK_REORG_HEIGHT) + 3 := by
  have hdecreasing := block_locator_heights_decreasing tip_height
  rw [block_locator_heights_eq] at hdecreasing ⊢
  have hnodup := (pairwise_append.mp hdecreasing).1.imp fun h => Nat.ne_of_gt h
  have hsub : ((tip_height :: exponential_locators tip_height).takeWhile fun h =>
      tip_height - MAX_BLOCK_REORG_HEIGHT < h) ⊆ tip_height ::
        (range (Nat.log 2 (min tip_height MAX_BLOCK_REORG_HEIGHT) + 1)).map
          (tip_height - 2 ^ ·) := by
    intro h hmem
    have hmin := mem_takeWhile_imp hmem
    rcases mem_cons.mp (takeWhile_subset _ hmem) with rfl | hstep
    · exact mem_cons_self
    · obtain ⟨k, -, hk⟩ := mem_filterMap.mp hstep
      simp only [Option.ite_none_right_eq_some, Option.some.injEq] at hk
      refine mem_cons_of_mem _ (mem_map.mpr ⟨k, mem_range.mpr ?_, hk.2⟩)
      rw [decide_eq_true_eq] at hmin
      exact Nat.lt_succ_of_le (Nat.le_log_of_pow_le (by decide) (by omega))
  have := (subperm_of_subset hnodup hsub).length_le
  simp only [length_cons, length_map, length_range] at this
  simp only [length_append, length_singleton]
  omega

end Read

open Read

/-- No two headers of the chains collide: a hash fixes the parent. -/
def PowChain.NoCollision (own other : PowChain) : Prop :=
  ∀ a ∈ own.blocks, ∀ b ∈ other.blocks, a.hash = b.hash →
    a.block.header.previous_block_hash = b.block.header.previous_block_hash

instance (own other : PowChain) : Decidable (own.NoCollision other) :=
  inferInstanceAs (Decidable (∀ a ∈ own.blocks, ∀ b ∈ other.blocks, _ → _))

theorem PowChain.NoCollision.ancestor {own other : PowChain} (hparent : own.NoCollision other)
    {j i : Nat} (hle : j ≤ i) :
    (∃ x, own.hashes[i]? = some x ∧ other.hashes[i]? = some x) →
      ∃ x, own.hashes[j]? = some x ∧ other.hashes[j]? = some x := by
  induction i, hle using Nat.le_induction with
  | base => exact id
  | succ i _ ih =>
    rintro ⟨x, hown, hother⟩
    simp only [hashes_getElem?, Option.map_eq_some_iff] at hown hother
    obtain ⟨a, ha, hx⟩ := hown
    obtain ⟨b, hb, hx'⟩ := hother
    have heq := hparent a (mem_of_getElem? ha) b (mem_of_getElem? hb) (hx.trans hx'.symm)
    refine ih ⟨a.block.header.previous_block_hash, heightOf_eq_some_iff.mp (heightOf_parent ha), ?_⟩
    rw [heq]
    exact heightOf_eq_some_iff.mp (heightOf_parent hb)

theorem block_locator_reaches :
    (∀ tip_height, (Read.block_locator_heights tip_height).Pairwise (· > ·) ∧
      (Read.block_locator_heights tip_height).head? = some tip_height ∧
      (Read.block_locator_heights tip_height).getLast? =
        some (tip_height - Read.MAX_BLOCK_REORG_HEIGHT) ∧
      (Read.block_locator_heights tip_height).length ≤
        Nat.log 2 (min tip_height Read.MAX_BLOCK_REORG_HEIGHT) + 3) ∧
    ∀ {chain chain' : Option Chain} {db db' : ZebraDb} {own other : PowChain},
      Shown chain db own → Shown chain' db' other → own.NoCollision other →
      ∀ {tip i : Nat} {tip_hash x : BlockHash}, Read.tip chain db = some (tip, tip_hash) →
        own.hashes[i]? = some x → other.hashes[i]? = some x →
        tip ≤ i + Read.MAX_BLOCK_REORG_HEIGHT →
        ∃ locator hash, Read.block_locator chain db = some locator ∧
          Read.find_chain_intersection chain' db' locator = some hash ∧
          hash ∈ own.hashes ∧ hash ∈ other.hashes := by
  refine ⟨fun tip => ⟨block_locator_heights_decreasing tip, block_locator_heights_head tip,
    getLast?_concat, block_locator_heights_length tip⟩, ?_⟩
  intro chain chain' db db' own other s s' hparent tip i tip_hash x htip hown hother hspan
  -- The last height of the locator is not above the shared block, so its block is shared too.
  obtain ⟨hash, hmine, htheirs⟩ := hparent.ancestor (j := tip - MAX_BLOCK_REORG_HEIGHT)
    (by omega) ⟨x, hown, hother⟩
  have hmem : hash ∈ (block_locator_heights tip).filterMap (hash_by_height chain db) := by
    rw [mem_filterMap]
    refine ⟨_, mem_append_right _ mem_cons_self, ?_⟩
    rw [s.hash_by_height]
    exact hmine
  have hcontains : chain_contains_hash chain' db' hash = true := by
    rw [s'.contains_hash, PowChain.heightOf_eq_some_iff.mpr htheirs]
    rfl
  obtain ⟨found, hfound⟩ := Option.isSome_iff_exists.mp (find?_isSome.mpr ⟨hash, hmem, hcontains⟩)
  refine ⟨_, found, by rw [block_locator, htip]; rfl, ?_, ?_, ?_⟩
  · rw [find_chain_intersection, if_neg, hfound]
    intro hempty
    rw [PowChain.hashes, s'.blocks_empty hempty] at htheirs
    cases htheirs
  · obtain ⟨h, -, hh⟩ := mem_filterMap.mp (mem_of_find?_eq_some hfound)
    rw [s.hash_by_height] at hh
    exact mem_of_getElem? hh
  · have := find?_some hfound
    rw [s'.contains_hash] at this
    by_contra hnot
    rw [PowChain.heightOf_eq_none_iff.mpr hnot] at this
    cases this

namespace Sample

/-- Leaves the best chain above height 2. -/
def forkedPow : PowChain where
  blocks := best.blocks.take 3 ++
    [{ block := { header := header 12 43, transactions := [] }, hash := id 43, height := 3 }]
  heights i b hb := by
    obtain ⟨hlt, rfl⟩ := List.getElem?_eq_some_iff.mp hb
    revert i
    decide +kernel
  linked := by decide +kernel
  nodup := by decide +kernel
  genesis := by decide +kernel
  short := by decide +kernel

theorem forkedPow_shown : Shown (some ⟨forkedPow.blocks.drop 1⟩) ⟨forkedPow.blocks.take 1⟩ forkedPow where
  db_part := take_prefix _ _
  chain_none := nofun
  chain_some := by
    rintro _ ⟨⟩
    exact ⟨1, by decide +kernel, by decide +kernel, rfl⟩

end Sample

theorem block_locator_reaches_fork : ¬ best.hashes <+: forkedPow.hashes ∧ ¬ forkedPow.hashes <+: best.hashes ∧
    ∃ locator hash,
      Read.block_locator reads.non_finalized_state.best_chain reads.db = some locator ∧
        Read.find_chain_intersection (some ⟨forkedPow.blocks.drop 1⟩) ⟨forkedPow.blocks.take 1⟩
          locator = some hash ∧ hash ∈ best.hashes ∧ hash ∈ forkedPow.hashes :=
  ⟨by decide +kernel, by decide +kernel,
    block_locator_reaches.2 reads_shows forkedPow_shown (by decide +kernel) (i := 2)
      (by rw [reads_shows.tip]; rfl) rfl rfl (by decide)⟩

end ZebraCrosslink
