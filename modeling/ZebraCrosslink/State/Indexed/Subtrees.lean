import ZebraCrosslink.State.Indexed.Steps

/-!
# The subtrees that a chain records

A push records the last subtree that its block completes, beginning with the tree stored last.
-/

open Rust Map List

namespace ZebraCrosslink

/-! ## Subtrees of a list of blocks -/

def storedLeaves (h : MerkleCrh) (leaves notes : List NoteCommitment) : List NoteCommitment :=
  if h.root 32 (leaves ++ notes) = h.root 32 leaves then leaves else leaves ++ notes

def subtreesOf (h : MerkleCrh) (leaves : List NoteCommitment) :
    List (Nat × List NoteCommitment) → List NoteCommitmentSubtree
  | [] => []
  | (height, notes) :: rest =>
    (completedSubtree h height leaves notes).toList ++
      subtreesOf h (storedLeaves h leaves notes) rest

namespace Subtrees

variable {m : Subtrees} {l : List NoteCommitmentSubtree}

def addAll (m : Subtrees) (l : List NoteCommitmentSubtree) : Subtrees :=
  l.foldl (fun m s => m.add (some s)) m

def Recorded (m : Subtrees) (l : List NoteCommitmentSubtree) : Prop :=
  ∀ l₁ s l₂, l = l₁ ++ s :: l₂ → (∀ s' ∈ l₂, s'.index ≠ s.index) →
    m.lookup s.index = some s.into_data

theorem add_subtree (m : Subtrees) (height : Nat) : m.add (m.subtree height) = m := by
  unfold subtree
  cases h : m.find fun data => data.end_height = height with
  | none => rfl
  | some e =>
    obtain ⟨index, data⟩ := e
    exact insert_of_lookup (find_eq_some.mp h).1

theorem addAll_append (m : Subtrees) (l l' : List NoteCommitmentSubtree) :
    m.addAll (l ++ l') = (m.addAll l).addAll l' := foldl_append

theorem addAll_toList (m : Subtrees) (s : Option NoteCommitmentSubtree) : m.addAll s.toList = m.add s := by
  cases s <;> rfl

theorem lookup_add_some (m : Subtrees) (s : NoteCommitmentSubtree) (i : Nat) :
    (m.add (some s)).lookup i = if i = s.index then some s.into_data else m.lookup i :=
  lookup_insert' m s.index i s.into_data

theorem lookup_addAll_of_ne {i : Nat} (h : ∀ s ∈ l, s.index ≠ i) :
    (m.addAll l).lookup i = m.lookup i := by
  induction l generalizing m with
  | nil => rfl
  | cons s rest ih =>
    rw [forall_mem_cons] at h
    change ((m.add (some s)).addAll rest).lookup i = _
    rw [ih h.2, lookup_add_some, if_neg (Ne.symm h.1)]

theorem addAll_eq_iff : m.addAll l = m ↔ m.Recorded l := by
  constructor
  · rintro h l₁ s l₂ rfl hlast
    rw [← h, addAll_append]
    change (((m.addAll l₁).add (some s)).addAll l₂).lookup s.index = _
    rw [lookup_addAll_of_ne hlast, lookup_add_some, if_pos rfl]
  · intro h
    refine Finmap.ext_lookup fun i => ?_
    by_cases hi : ∃ s ∈ l, s.index = i
    · -- Split at the last subtree with this index.
      obtain ⟨l₁, s, l₂, rfl, hs, hlast⟩ : ∃ l₁ s l₂, l = l₁ ++ s :: l₂ ∧ s.index = i ∧
          ∀ s' ∈ l₂, s'.index ≠ i := by
        clear h
        induction l using reverseRecOn with
        | nil =>
          obtain ⟨s, hs, -⟩ := hi
          cases hs
        | append_singleton l s ih =>
          by_cases hs : s.index = i
          · exact ⟨l, s, [], rfl, hs, fun _ h => by cases h⟩
          · obtain ⟨s', hs', heq⟩ := hi
            obtain ⟨l₁, t, l₂, rfl, ht, hlast⟩ := ih ⟨s', by
              rcases mem_append.mp hs' with h | h
              · exact h
              · rw [mem_singleton.mp h] at heq
                exact absurd heq hs, heq⟩
            refine ⟨l₁, t, l₂ ++ [s], by simp, ht, fun u hu => ?_⟩
            rcases mem_append.mp hu with h | h
            · exact hlast u h
            · rw [mem_singleton.mp h]
              exact hs
      rw [← hs] at hlast ⊢
      rw [h l₁ s l₂ rfl hlast, addAll_append]
      change (((m.addAll l₁).add (some s)).addAll l₂).lookup s.index = _
      rw [lookup_addAll_of_ne hlast, lookup_add_some, if_pos rfl]
    · push Not at hi
      exact lookup_addAll_of_ne hi

end Subtrees

open Subtrees

/-! ## The stored tree -/

namespace TreeIndex

variable {depth : Nat} {h : MerkleCrh} {pool : String} {top : Nat} {tree tip : NoteCommitmentTree depth}
  {ix : TreeIndex depth}

theorem for_tip_ok : ix.note_commitment_tree_for_tip pool = .ok tip ↔
    ∃ height, ix.trees_by_height.last = some (height, tip) := by
  rw [note_commitment_tree_for_tip, orAbort_ok, Option.map_eq_some_iff]
  constructor
  · rintro ⟨⟨height, _⟩, hlast, rfl⟩
    exact ⟨height, hlast⟩
  · rintro ⟨height, hlast⟩
    exact ⟨(height, tip), hlast, rfl⟩

theorem tree_of_below (hb : ix.Below top) (htip : ix.note_commitment_tree_for_tip pool = .ok tip) :
    ix.tree top = some tip := by
  obtain ⟨height, hlast⟩ := for_tip_ok.mp htip
  rw [TreeIndex.tree, lastUpTo_of_le hb.trees, hlast]
  rfl

theorem unchanged_of_below (hb : ix.Below top) (htip : ix.note_commitment_tree_for_tip pool = .ok tip) :
    ix.unchanged h (top + 1) tree = decide (tip.root h = tree.root h) := by
  simp [unchanged, tree_of_below hb htip]

def stored (h : MerkleCrh) (tip tree : NoteCommitmentTree depth) : NoteCommitmentTree depth :=
  if tip.root h = tree.root h then tip else tree

theorem root_stored (h : MerkleCrh) (tip tree : NoteCommitmentTree depth) :
    (stored h tip tree).root h = tree.root h := by
  unfold stored
  split
  · assumption
  · rfl

theorem for_tip_empty (h : MerkleCrh) (height : Nat) (tree : NoteCommitmentTree depth)
    (pool : String) :
    (TreeIndex.empty.added h height tree).note_commitment_tree_for_tip pool = .ok tree := by
  have hunchanged : (TreeIndex.empty : TreeIndex depth).unchanged h height tree = false := by
    have hnone : ∀ k, (TreeIndex.empty : TreeIndex depth).tree k = none := fun _ => rfl
    simp [unchanged, hnone]
  rw [for_tip_ok, added, hunchanged]
  exact ⟨height, last_insert _ fun _ hk => absurd hk Finmap.notMem_empty⟩

theorem for_tip_added (h : MerkleCrh) (tree : NoteCommitmentTree depth) (hb : ix.Below top) (htip : ix.note_commitment_tree_for_tip pool = .ok tip) :
    (ix.added h (top + 1) tree).note_commitment_tree_for_tip pool =
      .ok (stored h tip tree) := by
  rw [for_tip_ok]
  simp only [added, unchanged_of_below hb htip, decide_eq_true_eq, stored]
  split
  · exact for_tip_ok.mp htip
  · exact ⟨top + 1, last_insert _ fun k hk => (hb.trees k hk).trans (Nat.le_succ top)⟩

end TreeIndex

open TreeIndex

/-! ## The subtrees after a push -/

theorem Subtrees.add_update_pool {m : Subtrees} {h : MerkleCrh} {height : Nat}
    {tree tree' : NoteCommitmentTree 32} {subtree subtree' : Option NoteCommitmentSubtree}
    {notes : List NoteCommitment} (hm : m.add subtree = m)
    (heq : update_pool h height tree subtree notes = .ok (tree', subtree')) :
    m.add subtree' = m.add (completedSubtree h height tree.leaves notes) := by
  by_cases hne : notes = []
  · subst hne
    cases heq
    rw [hm, completedSubtree_nil]
    rfl
  · rw [update_pool_completed hne heq]

namespace ChainInner

variable {H : Type} {rules : IndexRules H} {b : IndexedBlock} {c d : ChainInner H} {top : Nat}
  {nct nct' : NoteCommitmentTrees}

theorem add_subtree_for_tip (c : ChainInner H) (m : Subtrees) : m.add (c.subtree_for_tip m) = m := by
  unfold subtree_for_tip
  cases c.max_block_height with
  | none => rfl
  | some height => exact m.add_subtree height

/-- One pool of a chain: its hash, its trees, its subtrees and the notes of a block. -/
structure Pool (rules : IndexRules H) where
  name : String
  hash : MerkleCrh
  index : ChainInner H → TreeIndex 32
  subtrees : ChainInner H → Subtrees
  notes : Block → List NoteCommitment
  push : ∀ {top : Nat} {c d : ChainInner H} {b : IndexedBlock}, c.Valid rules top →
    Follow top [b] → c.push rules b = .ok (.ok d) → ∃ tip tree' : NoteCommitmentTree 32,
      (index c).note_commitment_tree_for_tip name = .ok tip ∧
      tree'.leaves = tip.leaves ++ notes b.block ∧ index d = (index c).added hash b.height tree' ∧
      subtrees d = (subtrees c).add (completedSubtree hash b.height tip.leaves (notes b.block))
  below : ∀ {top : Nat} {c : ChainInner H}, c.Valid rules top → (index c).Below top

theorem trees_for_tip_ok (h : c.note_commitment_trees_for_tip = .ok nct) :
    c.sprout.note_commitment_tree_for_tip "sprout" = .ok nct.sprout ∧
      c.sapling.note_commitment_tree_for_tip "sapling" = .ok nct.sapling ∧
      c.orchard.note_commitment_tree_for_tip "orchard" = .ok nct.orchard ∧
      nct.sapling_subtree = c.subtree_for_tip c.sapling_subtrees ∧
      nct.orchard_subtree = c.subtree_for_tip c.orchard_subtrees := by
  simp only [note_commitment_trees_for_tip, except_bind_ok] at h
  obtain ⟨sprout, hsprout, sapling, hsapling, orchard, horchard, h⟩ := h
  cases h
  exact ⟨hsprout, hsapling, horchard, rfl, rfl⟩

theorem Valid.exists_push (hc : c.Valid rules top) (hb : b.height = top + 1)
    (htrees : c.note_commitment_trees_for_tip = .ok nct)
    (hupdated : nct.update_trees_parallel rules.hashes b.block = .ok (.ok nct'))
    (hhash : b.hash ∉ c.height_by_hash) {work : Nat}
    (hwork : CompactDifficulty.to_work b.block.header.difficulty_threshold = some work)
    (hlt : c.partial_cumulative_work + work < 2 ^ 128) (hcomplete : ∀ p ∈ b.transactions, b.Complete p)
    {txs : TransactionIndexes} (htxs : c.txs.Adds (b.entries rules) txs)
    {pools : ValueBalance .NonNegative}
    (hpools : c.chain_value_pools.add_chain_value_pool_change b.chain_value_pool_change = .ok pools)
    {tree tree' : H} (htree : c.history_block_commitment_tree = .ok tree)
    (hpush : rules.push_history tree b.block (nct'.sapling.root rules.hashes.sapling)
      (nct'.orchard.root rules.hashes.orchard) = .ok tree') :
    c.push rules b = .ok (.ok {
      blocks := c.blocks.insert b.height b
      height_by_hash := c.height_by_hash.insert b.hash b.height
      txs
      sprout := c.sprout.added rules.hashes.sprout b.height nct'.sprout
      sapling := c.sapling.added rules.hashes.sapling b.height nct'.sapling
      sapling_subtrees := c.sapling_subtrees.add nct'.sapling_subtree
      orchard := c.orchard.added rules.hashes.orchard b.height nct'.orchard
      orchard_subtrees := c.orchard_subtrees.add nct'.orchard_subtree
      history_trees_by_height := c.history_trees_by_height.insert b.height tree'
      partial_cumulative_work := c.partial_cumulative_work + work
      chain_value_pools := pools
      block_info_by_height := c.block_info_by_height.insert b.height
        ⟨pools, UInt32.ofNat (rules.zcash_serialized_size b.block)⟩ }) := by
  obtain ⟨-, hsapling, horchard, -⟩ := trees_for_tip_ok htrees
  have hlt' : top < b.height := by omega
  refine push_ok.mpr ⟨nct, nct', ?_⟩
  exact {
    trees := htrees
    updated := hupdated
    height_by_hash := insertNew_eq_some.mpr ⟨hhash, rfl⟩
    work := ⟨work, hwork, hlt, rfl⟩
    complete := hcomplete
    txs := htxs
    pools := hpools
    info := rfl
    sprout := SproutIndex.add_sprout_tree_and_anchor_ok.mpr
      ⟨fun hk => absurd hk (hc.sprout.notMem hlt').1, (hc.sprout.notMem hlt').2, rfl⟩
    sapling := add_tree_and_anchor_ok.mpr
      ⟨fun hk => absurd hk (hc.sapling.notMem hlt').1, (hc.sapling.notMem hlt').2, rfl⟩
    orchard := add_tree_and_anchor_ok.mpr
      ⟨fun hk => absurd hk (hc.orchard.notMem hlt').1, (hc.orchard.notMem hlt').2, rfl⟩
    sapling_subtrees := rfl
    orchard_subtrees := rfl
    history := by
      have hs := for_tip_added rules.hashes.sapling nct'.sapling hc.sapling hsapling
      have ho := for_tip_added rules.hashes.orchard nct'.orchard hc.orchard horchard
      rw [← hb] at hs ho
      refine ⟨_, _, tree, tree', hs, ho, htree, ?_, insertNew_eq_some.mpr ⟨fun hk => ?_, rfl⟩⟩
      · rw [root_stored, root_stored, hpush]
      · have := hc.history _ hk
        omega
    blocks := rfl }

theorem Valid.trees_after_push (hc : c.Valid rules top) (hb : b.height = top + 1)
    (h : Pushes rules b nct nct' c d) :
    d.note_commitment_trees_for_tip = .ok {
      sprout := stored rules.hashes.sprout nct.sprout nct'.sprout
      sapling := stored rules.hashes.sapling nct.sapling nct'.sapling
      sapling_subtree := d.subtree_for_tip d.sapling_subtrees
      orchard := stored rules.hashes.orchard nct.orchard nct'.orchard
      orchard_subtree := d.subtree_for_tip d.orchard_subtrees } := by
  obtain ⟨hsprout, hsapling, horchard, -⟩ := trees_for_tip_ok h.trees
  simp only [note_commitment_trees_for_tip, except_bind_ok]
  refine ⟨_, ?_, _, ?_, _, ?_, rfl⟩
  · rw [(SproutIndex.add_sprout_tree_and_anchor_ok.mp h.sprout).2.2, hb]
    exact for_tip_added _ _ hc.sprout hsprout
  · rw [(add_tree_and_anchor_ok.mp h.sapling).2.2, hb]
    exact for_tip_added _ _ hc.sapling hsapling
  · rw [(add_tree_and_anchor_ok.mp h.orchard).2.2, hb]
    exact for_tip_added _ _ hc.orchard horchard

theorem Valid.history_after_push (hc : c.Valid rules top) (hb : b.height = top + 1)
    (h : Pushes rules b nct nct' c d) :
    ∃ tree tree', c.history_block_commitment_tree = .ok tree ∧
      rules.push_history tree b.block (nct'.sapling.root rules.hashes.sapling)
        (nct'.orchard.root rules.hashes.orchard) = .ok tree' ∧
      d.history_trees_by_height = c.history_trees_by_height.insert b.height tree' ∧
      d.history_block_commitment_tree = .ok tree' := by
  obtain ⟨sapling, orchard, tree, tree', hsapling, horchard, htree, hpush, hnew⟩ := h.history
  obtain ⟨-, hsapling', horchard', -⟩ := trees_for_tip_ok (hc.trees_after_push hb h)
  rw [hsapling] at hsapling'
  rw [horchard] at horchard'
  cases hsapling'
  cases horchard'
  rw [root_stored, root_stored] at hpush
  obtain ⟨-, hnew⟩ := insertNew_eq_some.mp hnew
  refine ⟨tree, tree', htree, hpush, hnew, ?_⟩
  rw [history_block_commitment_tree, orAbort_ok, hnew, last_insert]
  · rfl
  · intro k hk
    have := hc.history k hk
    omega

def saplingPool (rules : IndexRules H) : Pool rules where
  name := "sapling"
  hash := rules.hashes.sapling
  index := (·.sapling)
  subtrees := (·.sapling_subtrees)
  notes := (·.sapling_note_commitments)
  below hc := hc.sapling
  push hc hb h := by
    obtain ⟨nct, nct', h⟩ := push_ok.mp h
    obtain ⟨-, htip, -, hsubtree, -⟩ := trees_for_tip_ok h.trees
    obtain ⟨height, hheight, -, hupdate, -⟩ := NoteCommitmentTrees.update_trees_parallel_ok.mp h.updated
    rw [hb.2.1] at hheight
    cases hheight
    refine ⟨nct.sapling, nct'.sapling, htip, update_pool_leaves hupdate,
      (TreeIndex.add_tree_and_anchor_ok.mp h.sapling).2.2, ?_⟩
    rw [h.sapling_subtrees]
    exact Subtrees.add_update_pool (hsubtree ▸ add_subtree_for_tip _ _) hupdate

def orchardPool (rules : IndexRules H) : Pool rules where
  name := "orchard"
  hash := rules.hashes.orchard
  index := (·.orchard)
  subtrees := (·.orchard_subtrees)
  notes := (·.orchard_note_commitments)
  below hc := hc.orchard
  push hc hb h := by
    obtain ⟨nct, nct', h⟩ := push_ok.mp h
    obtain ⟨-, -, htip, -, hsubtree⟩ := trees_for_tip_ok h.trees
    obtain ⟨height, hheight, -, -, hupdate⟩ := NoteCommitmentTrees.update_trees_parallel_ok.mp h.updated
    rw [hb.2.1] at hheight
    cases hheight
    refine ⟨nct.orchard, nct'.orchard, htip, update_pool_leaves hupdate,
      (TreeIndex.add_tree_and_anchor_ok.mp h.orchard).2.2, ?_⟩
    rw [h.orchard_subtrees]
    exact Subtrees.add_update_pool (hsubtree ▸ add_subtree_for_tip _ _) hupdate

variable (pool : Pool rules)

def Pool.notesOf (bs : List IndexedBlock) : List (Nat × List NoteCommitment) :=
  bs.map fun b => (b.height, pool.notes b.block)

def Pool.tipLeaves (c : ChainInner H) : List NoteCommitment :=
  match (pool.index c).note_commitment_tree_for_tip pool.name with
  | .ok tree => tree.leaves
  | .error _ => []

theorem Pool.push_all {bs : List IndexedBlock} {tip : NoteCommitmentTree 32}
    (hc : c.Valid rules top) (hfollow : Follow top bs)
    (htip : (pool.index c).note_commitment_tree_for_tip pool.name = .ok tip)
    (h : c.push_all rules bs = .ok (.ok d)) :
    pool.subtrees d =
      (pool.subtrees c).addAll (subtreesOf pool.hash tip.leaves (pool.notesOf bs)) := by
  induction bs generalizing c top tip with
  | nil =>
    cases h
    rfl
  | cons b rest ih =>
    rw [ChainInner.push_all, exceptT_bind_ok] at h
    obtain ⟨c₁, h₁, hrest⟩ := h
    obtain ⟨hb, hcoinbase, hfollow⟩ := hfollow
    obtain ⟨tip', tree', htip', hleaves, hindex, hsubtrees⟩ := pool.push hc ⟨hb, hcoinbase, trivial⟩ h₁
    rw [htip'] at htip
    cases htip
    have htip₁ := for_tip_added pool.hash tree' (pool.below hc) htip'
    rw [← hb, ← hindex] at htip₁
    have hstored : (stored pool.hash tip tree').leaves =
        storedLeaves pool.hash tip.leaves (pool.notes b.block) := by
      rw [stored, storedLeaves, ← hleaves]
      simp only [NoteCommitmentTree.root, eq_comm (a := pool.hash.root 32 tip.leaves)]
      split <;> rfl
    have hcons : subtreesOf pool.hash tip.leaves (pool.notesOf (b :: rest)) =
        (completedSubtree pool.hash b.height tip.leaves (pool.notes b.block)).toList ++
          subtreesOf pool.hash (storedLeaves pool.hash tip.leaves (pool.notes b.block))
            (pool.notesOf rest) := rfl
    rw [ih (hc.push hb h₁) hfollow htip₁ hrest, hsubtrees, hstored, hcons, addAll_append,
      addAll_toList]

end ChainInner

end ZebraCrosslink
