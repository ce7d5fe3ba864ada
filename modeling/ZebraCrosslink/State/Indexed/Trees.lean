import ZebraCrosslink.Chain.Trees
import ZebraCrosslink.Rust.Map

/-!
# The trees and anchors of a chain

A tree is stored only at the heights where it changes, an anchor at every height.
-/

open Rust Map

namespace ZebraCrosslink

inductive RevertPosition
  | Root
  | Tip
  deriving DecidableEq

structure TreeIndex (depth : Nat) where
  trees_by_height : Map Nat (NoteCommitmentTree depth)
  anchors : Multiset TreeNode
  anchors_by_height : Map Nat TreeNode

namespace TreeIndex

variable {depth : Nat} (pool : String)

def empty : TreeIndex depth := ⟨∅, 0, ∅⟩

def tree (ix : TreeIndex depth) (height : Nat) : Option (NoteCommitmentTree depth) :=
  (ix.trees_by_height.lastUpTo height).map (·.2)

def note_commitment_tree_for_tip (ix : TreeIndex depth) : Except Abort (NoteCommitmentTree depth) :=
  orAbort (ix.trees_by_height.last.map (·.2))
    (.expect ("only called while " ++ pool ++ "_trees_by_height is populated"))

def unchanged (h : MerkleCrh) (ix : TreeIndex depth) (height : Nat)
    (tree : NoteCommitmentTree depth) : Bool :=
  height ≠ 0 ∧ (ix.tree (height - 1)).any fun prev_tree => prev_tree.root h = tree.root h

def add_tree_and_anchor (h : MerkleCrh) (pool : String) (height : Nat)
    (tree : NoteCommitmentTree depth) (ix : TreeIndex depth) : Except Abort (TreeIndex depth) := do
  let anchor := tree.root h
  let trees_by_height ← orAbort
    (if ix.unchanged h height tree then some ix.trees_by_height
      else ix.trees_by_height.insertNew height tree)
    (.assert ("incorrect overwrite of " ++ pool ++ " tree: trees must be reverted then inserted"))
  let anchors_by_height ← orAbort (ix.anchors_by_height.insertNew height anchor)
    (.assert ("incorrect overwrite of " ++ pool ++ " anchor: anchors must be reverted then inserted"))
  pure { trees_by_height, anchors := anchor ::ₘ ix.anchors, anchors_by_height }

def remove_at (height : Nat) (ix : TreeIndex depth) :
    Except Abort (TreeNode × TreeIndex depth) := do
  let msg := pool ++ " anchor must be present if block was added to chain"
  let anchor ← orAbort (ix.anchors_by_height.lookup height) (.expect msg)
  let anchors ← orAbort (if anchor ∈ ix.anchors then some (ix.anchors.erase anchor) else none)
    (.assert msg)
  pure (anchor, {
    trees_by_height := ix.trees_by_height.erase height
    anchors
    anchors_by_height := ix.anchors_by_height.erase height })

def remove_heights (pool : String) (ix : TreeIndex depth) :
    List Nat → Except Abort (TreeIndex depth)
  | [] => .ok ix
  | height :: rest => do
    let (_, ix) ← ix.remove_at pool height
    ix.remove_heights pool rest

def removed (ix : TreeIndex depth) (height : Nat) :
    RevertPosition → List Nat × Option (NoteCommitmentTree depth)
  | .Root => ((ix.anchors_by_height.keys.filter (· ≤ height)).sort (· ≤ ·), ix.tree height)
  | .Tip => ([height], none)

/-- The height after the removed ones keeps a tree, unless the chain ends there. -/
def keep_tree (height : Nat) (tip : Option Nat)
    (highest_removed_tree : Option (NoteCommitmentTree depth)) (ix : TreeIndex depth) :
    Except Abort (TreeIndex depth) :=
  if tip.any (height < ·) ∧ height + 1 ∉ ix.trees_by_height then do
    let tree ← orAbort highest_removed_tree (.expect "There should be a cached removed tree.")
    pure { ix with trees_by_height := ix.trees_by_height.insert (height + 1) tree }
  else .ok ix

/-- `tip` is the height of the last block that is left in the chain. -/
def remove_tree_and_anchor (position : RevertPosition) (height : Nat) (tip : Option Nat)
    (ix : TreeIndex depth) : Except Abort (TreeIndex depth) := do
  let (removed_heights, highest_removed_tree) := ix.removed height position
  let ix ← ix.remove_heights pool removed_heights
  ix.keep_tree height tip highest_removed_tree

end TreeIndex

open TreeIndex

/-! ## The three pools -/

structure SproutIndex extends TreeIndex 29 where
  trees_by_anchor : Map TreeNode SproutTree

namespace SproutIndex

def empty : SproutIndex := { TreeIndex.empty with trees_by_anchor := ∅ }

def add_sprout_tree_and_anchor (h : MerkleCrh) (height : Nat) (tree : SproutTree)
    (ix : SproutIndex) : Except Abort SproutIndex := do
  let trees ← ix.toTreeIndex.add_tree_and_anchor h "sprout" height tree
  pure { trees with trees_by_anchor := ix.trees_by_anchor.insert (tree.root h) tree }

def remove_at (height : Nat) (ix : SproutIndex) : Except Abort SproutIndex := do
  let (anchor, trees) ← ix.toTreeIndex.remove_at "Sprout" height
  pure { trees with
    trees_by_anchor :=
      if anchor ∈ trees.anchors then ix.trees_by_anchor else ix.trees_by_anchor.erase anchor }

def remove_heights (ix : SproutIndex) : List Nat → Except Abort SproutIndex
  | [] => .ok ix
  | height :: rest => do
    let ix ← ix.remove_at height
    ix.remove_heights rest

def remove_sprout_tree_and_anchor (position : RevertPosition) (height : Nat) (tip : Option Nat)
    (ix : SproutIndex) : Except Abort SproutIndex := do
  let (removed_heights, highest_removed_tree) := ix.removed height position
  let ix ← ix.remove_heights removed_heights
  let trees ← ix.toTreeIndex.keep_tree height tip highest_removed_tree
  pure { trees with trees_by_anchor := ix.trees_by_anchor }

end SproutIndex

open SproutIndex

def add_sapling_tree_and_anchor (h : MerkleCrh) (height : Nat) (tree : SaplingTree)
    (ix : TreeIndex 32) : Except Abort (TreeIndex 32) :=
  ix.add_tree_and_anchor h "sapling" height tree

def remove_sapling_tree_and_anchor (position : RevertPosition) (height : Nat) (tip : Option Nat)
    (ix : TreeIndex 32) : Except Abort (TreeIndex 32) :=
  ix.remove_tree_and_anchor "Sapling" position height tip

def add_orchard_tree_and_anchor (h : MerkleCrh) (height : Nat) (tree : OrchardTree)
    (ix : TreeIndex 32) : Except Abort (TreeIndex 32) :=
  ix.add_tree_and_anchor h "orchard" height tree

def remove_orchard_tree_and_anchor (position : RevertPosition) (height : Nat) (tip : Option Nat)
    (ix : TreeIndex 32) : Except Abort (TreeIndex 32) :=
  ix.remove_tree_and_anchor "Orchard" position height tip

/-! ## Subtrees -/

structure NoteCommitmentSubtreeData where
  end_height : Nat
  root : TreeNode
  deriving DecidableEq

def NoteCommitmentSubtreeData.with_index (data : NoteCommitmentSubtreeData) (index : Nat) :
    NoteCommitmentSubtree :=
  { index, root := data.root, end_height := data.end_height }

def NoteCommitmentSubtree.into_data (subtree : NoteCommitmentSubtree) : NoteCommitmentSubtreeData :=
  { end_height := subtree.end_height, root := subtree.root }

abbrev Subtrees : Type := Map Nat NoteCommitmentSubtreeData

namespace Subtrees

def subtree (m : Subtrees) (height : Nat) : Option NoteCommitmentSubtree :=
  (m.find fun data => data.end_height = height).map fun (index, data) => data.with_index index

def add (m : Subtrees) : Option NoteCommitmentSubtree → Subtrees
  | some subtree => m.insert subtree.index subtree.into_data
  | none => m

end Subtrees

/-! ## Adding and removing at the tip -/

namespace TreeIndex

variable {depth height : Nat} {h : MerkleCrh} {pool : String} {tree : NoteCommitmentTree depth}
  {ix ix' : TreeIndex depth} {tip : Option Nat}

def added (h : MerkleCrh) (height : Nat) (tree : NoteCommitmentTree depth) (ix : TreeIndex depth) :
    TreeIndex depth where
  trees_by_height :=
    if ix.unchanged h height tree then ix.trees_by_height
    else ix.trees_by_height.insert height tree
  anchors := tree.root h ::ₘ ix.anchors
  anchors_by_height := ix.anchors_by_height.insert height (tree.root h)

theorem add_tree_and_anchor_ok : ix.add_tree_and_anchor h pool height tree = .ok ix' ↔
      (height ∈ ix.trees_by_height → ix.unchanged h height tree = true) ∧
      height ∉ ix.anchors_by_height ∧ ix' = ix.added h height tree := by
  simp only [add_tree_and_anchor, except_bind_ok, orAbort_ok, insertNew_eq_some]
  unfold added
  cases hunchanged : ix.unchanged h height tree with
  | true =>
    simp only [if_true, Option.some.injEq, exists_eq_left', implies_true, true_and]
    constructor
    · rintro ⟨_, ⟨hnew, rfl⟩, heq⟩
      cases heq
      exact ⟨hnew, rfl⟩
    · rintro ⟨hnew, rfl⟩
      exact ⟨_, ⟨hnew, rfl⟩, rfl⟩
  | false =>
    simp only [Bool.false_eq_true, if_false, insertNew_eq_some, imp_false]
    constructor
    · rintro ⟨_, ⟨htree, rfl⟩, _, ⟨hnew, rfl⟩, heq⟩
      cases heq
      exact ⟨htree, hnew, rfl⟩
    · rintro ⟨htree, hnew, rfl⟩
      exact ⟨_, ⟨htree, rfl⟩, _, ⟨hnew, rfl⟩, rfl⟩

theorem remove_at_ok {anchor : TreeNode} : ix.remove_at pool height = .ok (anchor, ix') ↔
      ix.anchors_by_height.lookup height = some anchor ∧ anchor ∈ ix.anchors ∧
        ix' = ⟨ix.trees_by_height.erase height, ix.anchors.erase anchor,
          ix.anchors_by_height.erase height⟩ := by
  simp only [remove_at, except_bind_ok, orAbort_ok, Option.ite_none_right_eq_some, Option.some.injEq]
  constructor
  · rintro ⟨_, hlookup, _, ⟨hmem, rfl⟩, heq⟩
    cases heq
    exact ⟨hlookup, hmem, rfl⟩
  · rintro ⟨hlookup, hmem, rfl⟩
    exact ⟨_, hlookup, _, ⟨hmem, rfl⟩, rfl⟩

theorem remove_at_added (htree : height ∉ ix.trees_by_height)
    (hanchor : height ∉ ix.anchors_by_height) :
    (ix.added h height tree).remove_at pool height = .ok (tree.root h, ix) := by
  rw [remove_at_ok]
  refine ⟨Finmap.lookup_insert _, Multiset.mem_cons_self _ _, ?_⟩
  unfold added
  simp only [Multiset.erase_cons_head, erase_insert _ hanchor]
  split
  · rw [erase_of_notMem htree]
  · rw [erase_insert _ htree]

theorem keep_tree_eq {highest : Option (NoteCommitmentTree depth)} (htip : ∀ t ∈ tip, t ≤ height) :
    ix.keep_tree height tip highest = .ok ix := by
  rw [keep_tree, if_neg]
  rintro ⟨hlt, -⟩
  cases tip with
  | none => cases hlt
  | some t =>
    have hle := htip t rfl
    simp only [Option.any_some, decide_eq_true_eq] at hlt
    omega

theorem remove_added (htip : ∀ t ∈ tip, t ≤ height) (htree : height ∉ ix.trees_by_height)
    (hanchor : height ∉ ix.anchors_by_height) :
    (ix.added h height tree).remove_tree_and_anchor pool .Tip height tip = .ok ix := by
  simp only [remove_tree_and_anchor, removed, remove_heights, except_bind_ok,
    remove_at_added htree hanchor]
  exact ⟨ix, ⟨_, rfl, rfl⟩, keep_tree_eq htip⟩

end TreeIndex

/-! ### Sprout -/

/-- The same roots, with trees that the source does not tell apart. -/
def SameRoots (h : MerkleCrh) (m m' : Map TreeNode SproutTree) : Prop :=
  ∀ a, (m.lookup a).map (·.root h) = (m'.lookup a).map (·.root h)

variable {m m' : Map TreeNode SproutTree} {h : MerkleCrh}

section

variable (hsame : SameRoots h m m')
include hsame

theorem SameRoots.insert (a : TreeNode) (tree : SproutTree) :
    SameRoots h (m.insert a tree) (m'.insert a tree) := by
  intro b
  rw [lookup_insert', lookup_insert']
  split
  · rfl
  · exact hsame b

theorem SameRoots.erase (a : TreeNode) : SameRoots h (m.erase a) (m'.erase a) := by
  intro b
  rw [lookup_erase', lookup_erase']
  split
  · rfl
  · exact hsame b

end

namespace SproutIndex

variable {h : MerkleCrh} {height : Nat} {tree : SproutTree} {ix ix' : SproutIndex} {tip : Option Nat}
  {position : RevertPosition}

structure Consistent (h : MerkleCrh) (ix : SproutIndex) : Prop where
  mem : ∀ a, a ∈ ix.trees_by_anchor ↔ a ∈ ix.anchors
  root : ∀ a tree, ix.trees_by_anchor.lookup a = some tree → tree.root h = a

def added (h : MerkleCrh) (height : Nat) (tree : SproutTree) (ix : SproutIndex) : SproutIndex :=
  { ix.toTreeIndex.added h height tree with
    trees_by_anchor := ix.trees_by_anchor.insert (tree.root h) tree }

def withTrees (ix : SproutIndex) (trees_by_anchor : Map TreeNode SproutTree) : SproutIndex :=
  { ix with trees_by_anchor }

theorem add_sprout_tree_and_anchor_ok : ix.add_sprout_tree_and_anchor h height tree = .ok ix' ↔
      (height ∈ ix.trees_by_height → ix.toTreeIndex.unchanged h height tree = true) ∧
      height ∉ ix.anchors_by_height ∧ ix' = ix.added h height tree := by
  simp only [add_sprout_tree_and_anchor, except_bind_ok, add_tree_and_anchor_ok]
  constructor
  · rintro ⟨_, ⟨htree, hanchor, rfl⟩, heq⟩
    cases heq
    exact ⟨htree, hanchor, rfl⟩
  · rintro ⟨htree, hanchor, rfl⟩
    exact ⟨_, ⟨htree, hanchor, rfl⟩, rfl⟩

theorem Consistent.empty : SproutIndex.empty.Consistent h where
  mem a := by simp [SproutIndex.empty, TreeIndex.empty, Finmap.notMem_empty]
  root a tree hlookup := by cases hlookup

theorem Consistent.added (hc : ix.Consistent h) (height : Nat) (tree : SproutTree) :
    (ix.added h height tree).Consistent h where
  mem a := by
    rw [SproutIndex.added, Finmap.mem_insert, hc.mem, TreeIndex.added, Multiset.mem_cons]
  root a t ht := by
    rw [SproutIndex.added, lookup_insert'] at ht
    split at ht
    · next heq =>
      cases ht
      exact heq.symm
    · exact hc.root a t ht

theorem Consistent.withTrees (hc : ix.Consistent h) {m : Map TreeNode SproutTree}
    (hsame : SameRoots h ix.trees_by_anchor m) : (ix.withTrees m).Consistent h where
  mem a := by
    have hsome := congrArg Option.isSome (hsame a)
    rw [Option.isSome_map, Option.isSome_map] at hsome
    change a ∈ m ↔ a ∈ ix.anchors
    rw [← hc.mem a, ← Finmap.lookup_isSome, ← Finmap.lookup_isSome, hsome]
  root a tree hlookup := by
    have hroot := hsame a
    rw [show m.lookup a = some tree from hlookup, Option.map_some, Option.map_eq_some_iff] at hroot
    obtain ⟨tree', htree', hroot⟩ := hroot
    rw [← hroot, hc.root a tree' htree']

def dropAnchor (anchor : TreeNode) (anchors : Multiset TreeNode) (m : Map TreeNode SproutTree) :
    Map TreeNode SproutTree :=
  if anchor ∈ anchors then m else m.erase anchor

theorem remove_at_ok : ix.remove_at height = .ok ix' ↔
    ∃ anchor trees, ix.toTreeIndex.remove_at "Sprout" height = .ok (anchor, trees) ∧
      ix' = { trees with trees_by_anchor := dropAnchor anchor trees.anchors ix.trees_by_anchor } := by
  simp only [remove_at, except_bind_ok]
  constructor
  · rintro ⟨⟨anchor, trees⟩, h, heq⟩
    cases heq
    exact ⟨anchor, trees, h, rfl⟩
  · rintro ⟨anchor, trees, h, rfl⟩
    exact ⟨_, h, rfl⟩

theorem SameRoots.dropAnchor {m m' : Map TreeNode SproutTree} (hsame : SameRoots h m m')
    (anchor : TreeNode) (anchors : Multiset TreeNode) :
    SameRoots h (dropAnchor anchor anchors m) (dropAnchor anchor anchors m') := by
  unfold SproutIndex.dropAnchor
  split
  · exact hsame
  · exact hsame.erase anchor

theorem Consistent.remove_at (hc : ix.Consistent h) (hr : ix.remove_at height = .ok ix') :
    ix'.Consistent h := by
  obtain ⟨anchor, trees, htrees, rfl⟩ := remove_at_ok.mp hr
  obtain ⟨-, -, rfl⟩ := TreeIndex.remove_at_ok.mp htrees
  unfold dropAnchor
  constructor
  · intro a
    by_cases ha : a = anchor
    · subst ha
      split
      · next hmem => simp [hmem, hc.mem, Multiset.mem_of_mem_erase hmem]
      · next hmem => simp [hmem]
    · split <;> simp [ha, hc.mem, Multiset.mem_erase_of_ne]
  · intro a tree hlookup
    split at hlookup
    · exact hc.root a tree hlookup
    · rw [lookup_erase'] at hlookup
      split at hlookup
      · cases hlookup
      · exact hc.root a tree hlookup

theorem Consistent.remove_heights (hc : ix.Consistent h) {heights : List Nat}
    (hr : ix.remove_heights heights = .ok ix') : ix'.Consistent h := by
  induction heights generalizing ix with
  | nil =>
    cases hr
    exact hc
  | cons height rest ih =>
    rw [remove_heights, except_bind_ok] at hr
    obtain ⟨ix₁, h₁, hr⟩ := hr
    exact ih (hc.remove_at h₁) hr

theorem keep_tree_anchors {depth : Nat}
    {highest : Option (NoteCommitmentTree depth)} {trees trees' : TreeIndex depth}
    (h : trees.keep_tree height tip highest = .ok trees') :
    trees'.anchors = trees.anchors ∧ trees'.anchors_by_height = trees.anchors_by_height := by
  unfold keep_tree at h
  split at h
  · obtain ⟨tree, -, h⟩ := except_bind_ok.mp h
    cases h
    exact ⟨rfl, rfl⟩
  · cases h
    exact ⟨rfl, rfl⟩

theorem remove_sprout_tree_and_anchor_ok :
    ix.remove_sprout_tree_and_anchor position height tip = .ok ix' ↔
      ∃ ix₁ trees, ix.remove_heights (ix.removed height position).1 = .ok ix₁ ∧
        ix₁.toTreeIndex.keep_tree height tip (ix.removed height position).2 = .ok trees ∧
        ix' = { trees with trees_by_anchor := ix₁.trees_by_anchor } := by
  simp only [remove_sprout_tree_and_anchor, except_bind_ok]
  constructor
  · rintro ⟨ix₁, h₁, trees, h₂, heq⟩
    cases heq
    exact ⟨ix₁, trees, h₁, h₂, rfl⟩
  · rintro ⟨ix₁, trees, h₁, h₂, rfl⟩
    exact ⟨ix₁, h₁, trees, h₂, rfl⟩

theorem Consistent.remove (hc : ix.Consistent h)
    (hr : ix.remove_sprout_tree_and_anchor position height tip = .ok ix') : ix'.Consistent h := by
  obtain ⟨ix₁, trees, h₁, h₂, rfl⟩ := remove_sprout_tree_and_anchor_ok.mp hr
  have hc₁ := hc.remove_heights h₁
  have hanchors := (keep_tree_anchors h₂).1
  exact ⟨fun a => by rw [hc₁.mem, hanchors], hc₁.root⟩

theorem remove_tip_ok (htip : ∀ t ∈ tip, t ≤ height) :
    ix.remove_sprout_tree_and_anchor .Tip height tip = .ok ix' ↔ ix.remove_at height = .ok ix' := by
  simp only [remove_sprout_tree_and_anchor_ok, removed, remove_heights, except_bind_ok,
    Except.ok.injEq, exists_eq_right, keep_tree_eq htip]
  constructor
  · rintro ⟨ix₁, trees, h₁, rfl, rfl⟩
    exact h₁
  · intro h₁
    exact ⟨ix', _, h₁, rfl, rfl⟩

theorem remove_tip_withTrees (htip : ∀ t ∈ tip, t ≤ height)
    {m : Map TreeNode SproutTree} (hsame : SameRoots h ix.trees_by_anchor m)
    (hr : ix.remove_sprout_tree_and_anchor .Tip height tip = .ok ix') :
    ∃ m', (ix.withTrees m).remove_sprout_tree_and_anchor .Tip height tip = .ok (ix'.withTrees m') ∧
      SameRoots h ix'.trees_by_anchor m' := by
  rw [remove_tip_ok htip, remove_at_ok] at hr
  obtain ⟨anchor, trees, hr, rfl⟩ := hr
  refine ⟨dropAnchor anchor trees.anchors m, ?_, SameRoots.dropAnchor hsame anchor _⟩
  rw [remove_tip_ok htip, remove_at_ok]
  exact ⟨anchor, trees, hr, rfl⟩

theorem remove_added (tree : SproutTree) (hc : ix.Consistent h) (htip : ∀ t ∈ tip, t ≤ height)
    (htree : height ∉ ix.trees_by_height) (hanchor : height ∉ ix.anchors_by_height) :
    ∃ m, (ix.added h height tree).remove_sprout_tree_and_anchor .Tip height tip =
        .ok (ix.withTrees m) ∧ SameRoots h ix.trees_by_anchor m := by
  refine ⟨dropAnchor (tree.root h) ix.anchors (ix.trees_by_anchor.insert (tree.root h) tree), ?_, ?_⟩
  · rw [remove_tip_ok htip, remove_at_ok]
    exact ⟨_, _, remove_at_added htree hanchor, rfl⟩
  · intro a
    unfold dropAnchor
    split
    · next hmem =>
      rw [lookup_insert']
      split
      · next ha =>
        subst ha
        obtain ⟨tree', htree'⟩ := Finmap.mem_iff.mp ((hc.mem _).mpr hmem)
        rw [htree', Option.map_some, Option.map_some, hc.root _ _ htree']
      · rfl
    · next hmem => rw [erase_insert _ (fun h => hmem ((hc.mem _).mp h))]

end SproutIndex

/-! ## Heights of the indexes -/

namespace TreeIndex

variable {depth height top : Nat} {h : MerkleCrh} {pool : String} {tree : NoteCommitmentTree depth}
  {ix ix' : TreeIndex depth} {tip : Option Nat}

structure Below (top : Nat) (ix : TreeIndex depth) : Prop where
  trees : ∀ k ∈ ix.trees_by_height, k ≤ top
  anchors : ∀ k ∈ ix.anchors_by_height, k ≤ top

theorem Below.notMem {ix : TreeIndex depth} {top height : Nat} (hix : ix.Below top)
    (h : top < height) : height ∉ ix.trees_by_height ∧ height ∉ ix.anchors_by_height :=
  ⟨fun hk => Nat.not_le.mpr h (hix.trees _ hk), fun hk => Nat.not_le.mpr h (hix.anchors _ hk)⟩

theorem Below.empty (top : Nat) : (empty : TreeIndex depth).Below top where
  trees _ hk := absurd hk Finmap.notMem_empty
  anchors _ hk := absurd hk Finmap.notMem_empty

theorem Below.added (hb : ix.Below top) (hle : top ≤ height) :
    (ix.added h height tree).Below height := by
  constructor
  · intro k hk
    unfold TreeIndex.added at hk
    split at hk
    · exact (hb.trees k hk).trans hle
    · rcases Finmap.mem_insert.mp hk with rfl | hk
      · exact le_rfl
      · exact (hb.trees k hk).trans hle
  · intro k hk
    rcases Finmap.mem_insert.mp hk with rfl | hk
    · exact le_rfl
    · exact (hb.anchors k hk).trans hle

theorem remove_heights_keys {heights : List Nat} (hr : ix.remove_heights pool heights = .ok ix') :
    (∀ k, k ∈ ix'.trees_by_height ↔ k ∈ ix.trees_by_height ∧ k ∉ heights) ∧
      ∀ k, k ∈ ix'.anchors_by_height ↔ k ∈ ix.anchors_by_height ∧ k ∉ heights := by
  induction heights generalizing ix with
  | nil =>
    cases hr
    simp
  | cons height rest ih =>
    rw [remove_heights, except_bind_ok] at hr
    obtain ⟨⟨anchor, ix₁⟩, h₁, hr⟩ := hr
    obtain ⟨-, -, rfl⟩ := remove_at_ok.mp h₁
    obtain ⟨htrees, hanchors⟩ := ih hr
    constructor <;> intro k <;> simp [htrees, hanchors] <;> tauto

theorem keep_tree_keys {highest : Option (NoteCommitmentTree depth)}
    (hk : ix.keep_tree height tip highest = .ok ix') :
    ix'.anchors_by_height = ix.anchors_by_height ∧
      ∀ k ∈ ix'.trees_by_height, k ∈ ix.trees_by_height ∨ ∃ t ∈ tip, k ≤ t := by
  unfold keep_tree at hk
  split at hk
  · next hlt =>
    obtain ⟨tree, -, hk⟩ := except_bind_ok.mp hk
    cases hk
    refine ⟨rfl, fun k hmem => ?_⟩
    rcases Finmap.mem_insert.mp hmem with rfl | hmem
    · cases tip with
      | none => cases hlt.1
      | some t => exact .inr ⟨t, rfl, Nat.succ_le_of_lt (by simpa using hlt.1)⟩
    · exact .inl hmem
  · cases hk
    exact ⟨rfl, fun k hmem => .inl hmem⟩

theorem Below.remove {position : RevertPosition}
    (hb : ∀ k, (k ∈ ix.trees_by_height ∨ k ∈ ix.anchors_by_height) →
      k ∉ (ix.removed height position).1 → k ≤ top) (htip : ∀ t ∈ tip, t ≤ top)
    (hr : ix.remove_tree_and_anchor pool position height tip = .ok ix') : ix'.Below top := by
  simp only [remove_tree_and_anchor, except_bind_ok] at hr
  obtain ⟨ix₁, h₁, hr⟩ := hr
  obtain ⟨htrees, hanchors⟩ := remove_heights_keys h₁
  obtain ⟨hkeep, hkeep'⟩ := keep_tree_keys hr
  constructor
  · intro k hk
    rcases hkeep' k hk with hk | ⟨t, ht, hle⟩
    · obtain ⟨hk, hnot⟩ := (htrees k).mp hk
      exact hb k (.inl hk) hnot
    · exact hle.trans (htip t ht)
  · intro k hk
    rw [hkeep] at hk
    obtain ⟨hk, hnot⟩ := (hanchors k).mp hk
    exact hb k (.inr hk) hnot

end TreeIndex

namespace SproutIndex

variable {h : MerkleCrh} {height : Nat} {ix ix' : SproutIndex}

theorem remove_heights_toTreeIndex {heights : List Nat} (hr : ix.remove_heights heights = .ok ix') :
    ix.toTreeIndex.remove_heights "Sprout" heights = .ok ix'.toTreeIndex := by
  induction heights generalizing ix with
  | nil =>
    cases hr
    rfl
  | cons height rest ih =>
    rw [remove_heights, except_bind_ok] at hr
    obtain ⟨ix₁, h₁, hr⟩ := hr
    obtain ⟨anchor, trees, htrees, rfl⟩ := remove_at_ok.mp h₁
    rw [TreeIndex.remove_heights, except_bind_ok]
    exact ⟨(anchor, trees), htrees, ih hr⟩

theorem remove_toTreeIndex {position : RevertPosition} {tip : Option Nat}
    (hr : ix.remove_sprout_tree_and_anchor position height tip = .ok ix') :
    ix.toTreeIndex.remove_tree_and_anchor "Sprout" position height tip = .ok ix'.toTreeIndex := by
  obtain ⟨ix₁, trees, h₁, h₂, rfl⟩ := remove_sprout_tree_and_anchor_ok.mp hr
  simp only [remove_tree_and_anchor, except_bind_ok]
  exact ⟨ix₁.toTreeIndex, remove_heights_toTreeIndex h₁, h₂⟩

end SproutIndex

end ZebraCrosslink
