import ZebraCrosslink.State.Cached

/-!
# New subtrees

What the trees report of the subtrees that a block's commitments complete.
-/

namespace ZebraCrosslink

open List NoteCommitmentTrees NoteCommitmentTree

theorem update_pool_subtree_iff {h : MerkleCrh} {height : Nat} {notes : List NoteCommitment}
    {tree tree' : NoteCommitmentTree 32} {subtree subtree' : Option NoteCommitmentSubtree}
    (hu : update_pool h height tree subtree notes = .ok (tree', subtree')) :
    subtree' = completedSubtree h height tree.leaves notes ↔ notes ≠ [] ∨ subtree = none := by
  by_cases hnotes : notes = []
  · subst hnotes
    cases hu
    simp [completedSubtree_nil]
  · simp [update_pool_completed hnotes hu, hnotes]

namespace NoteCommitmentTree

variable {depth : Nat} {tree tree' longer shorter : NoteCommitmentTree depth}
  {cms added : List NoteCommitment}

theorem append_all_leaves (h : tree.append_all cms = .ok tree') :
    tree'.leaves = tree.leaves ++ cms := by
  induction cms generalizing tree with
  | nil =>
    cases h
    rw [append_nil]
  | cons cm rest ih =>
    simp only [append_all, Rust.except_bind_ok, append_eq_ok] at h
    obtain ⟨mid, hmid, h⟩ := h
    rw [ih h, hmid, append_assoc, singleton_append]

/-- The subtree with no notes has the index -1. -/
def contains_new_subtree (tree prev_tree : NoteCommitmentTree depth) : Bool :=
  let index : Int := (tree.subtree_index.map Int.ofNat).getD (-1)
  let prev_index : Int := (prev_tree.subtree_index.map Int.ofNat).getD (-1)
  let index_difference := index - prev_index
  if index < prev_index then false
  else if index_difference > 1 then true
  else if index = prev_index then tree.is_complete_subtree
  else if tree.is_complete_subtree then true
  else if prev_tree.is_complete_subtree ∨ prev_index = -1 then false
  else true

theorem is_complete_subtree_iff :
    tree.is_complete_subtree = true ↔ 0 < tree.leaves.length ∧ tree.leaves.length % 65536 = 0 := by
  rw [is_complete_subtree, decide_eq_true_iff, length_pos_iff]
  rfl

theorem index_eq (tree : NoteCommitmentTree depth) :
    (tree.subtree_index.map Int.ofNat).getD (-1) = ((tree.leaves.length : Int) - 1) / 65536 := by
  unfold subtree_index
  split
  · next hnil => simp [hnil]
  · next hne =>
    have hpos := length_pos_iff.mpr hne
    simp only [Option.map_some, Option.getD_some, TRACKED_SUBTREE_HEIGHT, Nat.reducePow,
      Int.ofNat_eq_natCast, Int.natCast_ediv]
    omega

theorem contains_new_subtree_iff (h : MerkleCrh) (height : Nat)
    (hadded : longer.leaves = shorter.leaves ++ added) :
    longer.contains_new_subtree shorter = true ↔
      completedSubtree h height shorter.leaves added ≠ none ∨
        added = [] ∧ shorter.is_complete_subtree = true := by
  have hlength : longer.leaves.length = shorter.leaves.length + added.length := by simp [hadded]
  rw [ne_eq, completedSubtree_eq_none, ← length_eq_zero_iff, ← hlength]
  unfold contains_new_subtree
  simp only [index_eq, is_complete_subtree_iff, TRACKED_SUBTREE_HEIGHT, Nat.reducePow]
  split_ifs <;> simp only [is_complete_subtree_iff, false_iff, true_iff] <;> omega

end NoteCommitmentTree

/-- The trees have the block's commitments, and report the subtrees that these complete. -/
def NoteCommitmentTrees.Updated (hs : TreeHashes) (trees : NoteCommitmentTrees) (block : Block)
    (trees' : NoteCommitmentTrees) : Prop :=
  trees'.sprout.leaves = trees.sprout.leaves ++ block.sprout_note_commitments ∧
  trees'.sapling.leaves = trees.sapling.leaves ++ block.sapling_note_commitments ∧
  trees'.orchard.leaves = trees.orchard.leaves ++ block.orchard_note_commitments ∧
  ∀ height, block.coinbase_height = some height →
    trees'.sapling_subtree =
      completedSubtree hs.sapling height trees.sapling.leaves block.sapling_note_commitments ∧
    trees'.orchard_subtree =
      completedSubtree hs.orchard height trees.orchard.leaves block.orchard_note_commitments

/-- A pool without commitments in the block keeps the subtree of an earlier block, and a tree whose
last leaf completed a subtree has a new one compared with itself. Otherwise the report is exact. -/
theorem new_subtrees_reported_iff (hs : TreeHashes) (trees trees' : NoteCommitmentTrees)
    (block : Block) (hu : trees.update_trees_parallel hs block = .ok (.ok trees')) (depth height : Nat)
    (longer shorter : NoteCommitmentTree depth) (added : List NoteCommitment)
    (hadded : longer.leaves = shorter.leaves ++ added) :
    (trees.Updated hs block trees' ↔ trees.Renews block) ∧
      ((longer.contains_new_subtree shorter = true ↔
          completedSubtree hs.sapling height shorter.leaves added ≠ none) ↔
        added ≠ [] ∨ shorter.is_complete_subtree = false) := by
  constructor
  · obtain ⟨height, hheight, hsprout, hsap, horch⟩ :=
      update_trees_parallel_ok.mp hu
    rw [Renews, ← update_pool_subtree_iff hsap, ← update_pool_subtree_iff horch]
    simp [Updated, hheight, append_all_leaves hsprout,
      update_pool_leaves hsap, update_pool_leaves horch]
  · rw [contains_new_subtree_iff hs.sapling height hadded]
    by_cases hnil : added = []
    · simp [hnil, completedSubtree_nil]
    · simp [hnil]

namespace Sample

/-- The Sapling tree lacks one note to its first subtree. -/
def lackingOne : NoteCommitmentTrees :=
  { NoteCommitmentTrees.default with
    sapling := ⟨replicate 65535 (hashAt 7 7), by rw [length_replicate]; decide⟩ }

def subtreeFull : SaplingTree := ⟨replicate 65536 (hashAt 7 7), by rw [length_replicate]; decide⟩

theorem lackingOne_leaves : subtreeFull.leaves = lackingOne.sapling.leaves ++ [hashAt 7 7] := replicate_succ'

theorem lackingOne_completes (h : MerkleCrh) (height : Nat) :
    completedSubtree h height lackingOne.sapling.leaves [hashAt 7 7] ≠ none := by
  have hbefore : lackingOne.sapling.leaves.length = 65535 := length_replicate
  rw [ne_eq, completedSubtree_eq_none, hbefore]
  decide

end Sample

open Sample

theorem new_subtrees_reported_full : ∃ trees' : NoteCommitmentTrees,
    trees'.sapling_subtree.isSome ∧ lackingOne.Updated treeHashes (noteBlock 1).block trees' ∧
      trees'.sapling.contains_new_subtree lackingOne.sapling = true := by
  obtain ⟨subtree, hpool⟩ := exists_update_pool lackingOne_leaves treeHashes.sapling 1 none
  have hu : lackingOne.update_trees_parallel treeHashes (noteBlock 1).block =
      .ok (.ok { NoteCommitmentTrees.default with sapling := subtreeFull, sapling_subtree := subtree }) :=
    update_trees_parallel_ok.mpr ⟨1, rfl, rfl, hpool, rfl⟩
  obtain ⟨hupdated, hnew⟩ := new_subtrees_reported_iff treeHashes lackingOne _ (noteBlock 1).block hu
    32 1 subtreeFull lackingOne.sapling [hashAt 7 7] lackingOne_leaves
  have hsome : subtree.isSome := by
    rw [update_pool_completed (by decide) hpool]
    exact Option.isSome_iff_ne_none.mpr (lackingOne_completes _ _)
  exact ⟨_, hsome, hupdated.mpr ⟨.inr rfl, .inr rfl⟩,
    (hnew.mpr (.inl (by decide))).mpr (lackingOne_completes _ _)⟩

/-- The block has no commitments and the subtree of an earlier one is reported, and a full subtree is
new compared with itself. -/
theorem new_subtrees_misreported : (∃ trees : NoteCommitmentTrees,
      trees.update_trees_parallel treeHashes (noteBlock 2).block = .ok (.ok trees) ∧
      (noteBlock 2).block.sapling_note_commitments = [] ∧
      ¬ trees.Updated treeHashes (noteBlock 2).block trees) ∧
    ∃ tree : SaplingTree, tree.contains_new_subtree tree = true ∧
      completedSubtree treeHashes.sapling 2 tree.leaves [] = none := by
  constructor
  · refine ⟨{ NoteCommitmentTrees.default with sapling_subtree := some ⟨0, hashAt 7 7, 1⟩ }, rfl,
      rfl, ?_⟩
    rintro ⟨-, -, -, h⟩
    cases (h 2 rfl).1.trans (completedSubtree_nil ..)
  · have hfits : (replicate 65536 (hashAt 7 7)).length ≤ 2 ^ 32 := by
      rw [length_replicate]
      decide
    have hlength : (⟨_, hfits⟩ : SaplingTree).leaves.length = 65536 := length_replicate
    refine ⟨⟨_, hfits⟩, ?_, completedSubtree_nil ..⟩
    rw [contains_new_subtree_iff treeHashes.sapling 2 (append_nil _).symm,
      is_complete_subtree_iff, hlength]
    exact .inr ⟨rfl, by decide⟩

end ZebraCrosslink
