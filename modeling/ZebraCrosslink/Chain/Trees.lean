import ZebraCrosslink.Chain.Transaction

/-!
# Note commitment trees

A tree is given by its leaves. The frontier, the root and the roots of the subtrees are functions of
them.
-/

open Rust List

namespace ZebraCrosslink

/-! ## Merkle trees -/

abbrev TreeNode : Type := Bytes 32

/-- The hash of one pool's tree. `merkle_crh` combines two nodes of a level. -/
structure MerkleCrh where
  uncommitted : TreeNode
  merkle_crh : Nat → TreeNode → TreeNode → TreeNode

def MerkleCrh.empty_root (h : MerkleCrh) : Nat → TreeNode
  | 0 => h.uncommitted
  | level + 1 =>
    let node := h.empty_root level
    h.merkle_crh level node node

/-- The root above `2 ^ level` leaves, of which the missing ones are uncommitted. -/
def MerkleCrh.root (h : MerkleCrh) : Nat → List NoteCommitment → TreeNode
  | level, [] => h.empty_root level
  | 0, leaf :: _ => leaf
  | level + 1, leaf :: rest =>
    let leaves := leaf :: rest
    h.merkle_crh level (h.root level (leaves.take (2 ^ level))) (h.root level (leaves.drop (2 ^ level)))

def TRACKED_SUBTREE_HEIGHT : Nat := 16

inductive TreeError
  | FullTree
  deriving DecidableEq

@[ext]
structure NoteCommitmentTree (depth : Nat) where
  leaves : List NoteCommitment
  fits : leaves.length ≤ 2 ^ depth
  deriving DecidableEq

namespace NoteCommitmentTree

variable {depth : Nat} {tree tree' : NoteCommitmentTree depth} {cms : List NoteCommitment}

def default : NoteCommitmentTree depth := ⟨[], Nat.zero_le _⟩

def root (h : MerkleCrh) (tree : NoteCommitmentTree depth) : TreeNode := h.root depth tree.leaves

def append (tree : NoteCommitmentTree depth) (cm : NoteCommitment) :
    Except TreeError (NoteCommitmentTree depth) :=
  if h : (tree.leaves ++ [cm]).length ≤ 2 ^ depth then .ok ⟨tree.leaves ++ [cm], h⟩
  else .error .FullTree

def is_complete_subtree (tree : NoteCommitmentTree depth) : Bool :=
  tree.leaves ≠ [] ∧ tree.leaves.length % 2 ^ TRACKED_SUBTREE_HEIGHT = 0

def subtree_index (tree : NoteCommitmentTree depth) : Option Nat :=
  if tree.leaves = [] then none else some ((tree.leaves.length - 1) / 2 ^ TRACKED_SUBTREE_HEIGHT)

def completed_subtree_index_and_root (h : MerkleCrh) (tree : NoteCommitmentTree depth) :
    Option (Nat × TreeNode) :=
  if tree.is_complete_subtree then do
    let index ← tree.subtree_index
    some (index, h.root TRACKED_SUBTREE_HEIGHT
      (tree.leaves.drop (index * 2 ^ TRACKED_SUBTREE_HEIGHT)))
  else none

def append_all (tree : NoteCommitmentTree depth) :
    List NoteCommitment → Except TreeError (NoteCommitmentTree depth)
  | [] => .ok tree
  | cm :: rest => do
    let tree ← tree.append cm
    tree.append_all rest

def append_with_subtrees (h : MerkleCrh) (tree : NoteCommitmentTree depth)
    (subtree_root : Option (Nat × TreeNode)) :
    List NoteCommitment → Except TreeError (NoteCommitmentTree depth × Option (Nat × TreeNode))
  | [] => .ok (tree, subtree_root)
  | cm :: rest => do
    let tree ← tree.append cm
    tree.append_with_subtrees h ((tree.completed_subtree_index_and_root h).or subtree_root) rest

theorem append_eq_ok {cm : NoteCommitment} :
    tree.append cm = .ok tree' ↔ tree'.leaves = tree.leaves ++ [cm] := by
  unfold append
  constructor
  · intro h
    split at h
    · cases h
      rfl
    · cases h
  · intro h
    rw [dif_pos (by rw [← h]; exact tree'.fits)]
    exact congrArg _ (NoteCommitmentTree.ext h.symm)

theorem append_with_subtrees_leaves {h : MerkleCrh}
    {subtree_root subtree_root' : Option (Nat × TreeNode)}
    (heq : tree.append_with_subtrees h subtree_root cms = .ok (tree', subtree_root')) :
    tree'.leaves = tree.leaves ++ cms := by
  induction cms generalizing tree subtree_root with
  | nil =>
    cases heq
    rw [append_nil]
  | cons cm rest ih =>
    simp only [append_with_subtrees, except_bind_ok, append_eq_ok] at heq
    obtain ⟨mid, hmid, heq⟩ := heq
    rw [ih heq, hmid, append_assoc, singleton_append]

theorem exists_append_with_subtrees (heq : tree'.leaves = tree.leaves ++ cms) (h : MerkleCrh)
    (subtree_root : Option (Nat × TreeNode)) :
    ∃ subtree_root', tree.append_with_subtrees h subtree_root cms = .ok (tree', subtree_root') := by
  induction cms generalizing tree subtree_root with
  | nil =>
    rw [append_nil] at heq
    cases NoteCommitmentTree.ext heq
    exact ⟨subtree_root, rfl⟩
  | cons cm rest ih =>
    have hfits := tree'.fits
    rw [heq, length_append, length_cons] at hfits
    have hmid : (tree.leaves ++ [cm]).length ≤ 2 ^ depth := by
      rw [length_append, length_singleton]
      omega
    obtain ⟨subtree_root', hrest⟩ := @ih ⟨_, hmid⟩ (by simpa using heq) _
    refine ⟨subtree_root', ?_⟩
    rw [append_with_subtrees, except_bind_ok]
    exact ⟨⟨_, hmid⟩, append_eq_ok.mpr rfl, hrest⟩

end NoteCommitmentTree

open NoteCommitmentTree

/-! ## The trees of a block -/

structure NoteCommitmentSubtree where
  index : Nat
  root : TreeNode
  end_height : Nat
  deriving DecidableEq

structure TreeHashes where
  sprout : MerkleCrh
  sapling : MerkleCrh
  orchard : MerkleCrh

abbrev SproutTree : Type := NoteCommitmentTree 29
abbrev SaplingTree : Type := NoteCommitmentTree 32
abbrev OrchardTree : Type := NoteCommitmentTree 32

structure NoteCommitmentTrees where
  sprout : SproutTree
  sapling : SaplingTree
  sapling_subtree : Option NoteCommitmentSubtree
  orchard : OrchardTree
  orchard_subtree : Option NoteCommitmentSubtree
  deriving DecidableEq

inductive NoteCommitmentTreeError
  | Sprout (err : TreeError)
  | Sapling (err : TreeError)
  | Orchard (err : TreeError)
  deriving DecidableEq

def update_pool (h : MerkleCrh) (height : Nat) (tree : NoteCommitmentTree 32)
    (subtree : Option NoteCommitmentSubtree) (commitments : List NoteCommitment) :
    Except TreeError (NoteCommitmentTree 32 × Option NoteCommitmentSubtree) :=
  if commitments.isEmpty then .ok (tree, subtree)
  else do
    let (tree, subtree_root) ← tree.append_with_subtrees h none commitments
    pure (tree, subtree_root.map fun (index, root) => { index, root, end_height := height })

variable {commitments : List NoteCommitment} {tree tree' : NoteCommitmentTree 32} {height : Nat}
  {h : MerkleCrh} {subtree subtree' : Option NoteCommitmentSubtree}

theorem update_pool_subtree (hne : commitments ≠ [])
    (subtree subtree' : Option NoteCommitmentSubtree) :
    update_pool h height tree subtree commitments = update_pool h height tree subtree' commitments := by
  rw [update_pool, update_pool, if_neg (by simpa using hne), if_neg (by simpa using hne)]

theorem update_pool_leaves
    (heq : update_pool h height tree subtree commitments = .ok (tree', subtree')) :
    tree'.leaves = tree.leaves ++ commitments := by
  unfold update_pool at heq
  split at heq
  · rename_i hempty
    cases heq
    rw [isEmpty_iff.mp hempty, append_nil]
  · obtain ⟨⟨mid, subtree_root⟩, hmid, heq⟩ := except_bind_ok.mp heq
    cases heq
    exact append_with_subtrees_leaves hmid

theorem exists_update_pool
    (heq : tree'.leaves = tree.leaves ++ commitments) (h : MerkleCrh) (height : Nat)
    (subtree : Option NoteCommitmentSubtree) :
    ∃ subtree', update_pool h height tree subtree commitments = .ok (tree', subtree') := by
  unfold update_pool
  split
  · next hempty =>
    rw [isEmpty_iff.mp hempty, append_nil] at heq
    cases NoteCommitmentTree.ext heq
    exact ⟨subtree, rfl⟩
  · obtain ⟨subtree_root', hloop⟩ := exists_append_with_subtrees heq h none
    rw [hloop]
    exact ⟨_, rfl⟩

namespace NoteCommitmentTrees

def default : NoteCommitmentTrees where
  sprout := .default
  sapling := .default
  sapling_subtree := none
  orchard := .default
  orchard_subtree := none

/-- What the parallel threads compute, with the first error in the order of the pools. -/
def update_pools (hs : TreeHashes) (height : Nat) (trees : NoteCommitmentTrees) (block : Block) :
    Except NoteCommitmentTreeError NoteCommitmentTrees := do
  let sprout ← (trees.sprout.append_all block.sprout_note_commitments).mapError .Sprout
  let (sapling, sapling_subtree) ← (update_pool hs.sapling height trees.sapling
    trees.sapling_subtree block.sapling_note_commitments).mapError .Sapling
  let (orchard, orchard_subtree) ← (update_pool hs.orchard height trees.orchard
    trees.orchard_subtree block.orchard_note_commitments).mapError .Orchard
  pure { sprout, sapling, sapling_subtree, orchard, orchard_subtree }

def update_trees_parallel (hs : TreeHashes) (trees : NoteCommitmentTrees) (block : Block) :
    ExceptT NoteCommitmentTreeError (Except Abort) NoteCommitmentTrees :=
  match block.coinbase_height with
  | none => liftAbort (.error (.expect "height was already validated"))
  | some height => ExceptT.mk (.ok (trees.update_pools hs height block))

variable {hs : TreeHashes} {trees trees' : NoteCommitmentTrees} {block : Block}

theorem update_trees_parallel_ok : trees.update_trees_parallel hs block = .ok (.ok trees') ↔
    ∃ height, block.coinbase_height = some height ∧
      trees.sprout.append_all block.sprout_note_commitments = .ok trees'.sprout ∧
      update_pool hs.sapling height trees.sapling trees.sapling_subtree
        block.sapling_note_commitments = .ok (trees'.sapling, trees'.sapling_subtree) ∧
      update_pool hs.orchard height trees.orchard trees.orchard_subtree
        block.orchard_note_commitments = .ok (trees'.orchard, trees'.orchard_subtree) := by
  unfold update_trees_parallel
  cases block.coinbase_height with
  | none =>
    constructor
    · intro h
      cases h
    · rintro ⟨height, h, -⟩
      cases h
  | some height =>
    change Except.ok (trees.update_pools hs height block) = .ok (.ok trees') ↔ _
    simp only [update_pools, Except.ok.injEq, except_bind_ok, except_mapError_ok, Option.some.injEq,
      exists_eq_left']
    constructor
    · rintro ⟨sprout, hsprout, ⟨sapling, sapling_subtree⟩, hsapling, ⟨orchard, orchard_subtree⟩,
        horchard, h⟩
      cases h
      exact ⟨hsprout, hsapling, horchard⟩
    · rintro ⟨hsprout, hsapling, horchard⟩
      exact ⟨_, hsprout, _, hsapling, _, horchard, rfl⟩

structure Same (trees trees' : NoteCommitmentTrees) : Prop where
  sprout : trees.sprout = trees'.sprout
  sapling : trees.sapling = trees'.sapling
  orchard : trees.orchard = trees'.orchard

theorem Same.refl (trees : NoteCommitmentTrees) : trees.Same trees := ⟨rfl, rfl, rfl⟩

theorem Same.trans {trees'' : NoteCommitmentTrees} (h : trees.Same trees')
    (h' : trees'.Same trees'') : trees.Same trees'' :=
  ⟨h.sprout.trans h'.sprout, h.sapling.trans h'.sapling, h.orchard.trans h'.orchard⟩

theorem Same.symm (h : trees.Same trees') : trees'.Same trees :=
  ⟨h.sprout.symm, h.sapling.symm, h.orchard.symm⟩

end NoteCommitmentTrees

theorem update_pool_same
    (heq : update_pool h height tree subtree commitments = .ok (tree', subtree'))
    (other : Option NoteCommitmentSubtree) :
    ∃ other', update_pool h height tree other commitments = .ok (tree', other') ∧
      (commitments ≠ [] ∨ subtree = other → other' = subtree') := by
  by_cases hne : commitments = []
  · subst hne
    cases heq
    refine ⟨other, rfl, ?_⟩
    rintro (h | h)
    · exact absurd rfl h
    · exact h.symm
  · rw [update_pool_subtree hne subtree other] at heq
    exact ⟨subtree', heq, fun _ => rfl⟩

namespace NoteCommitmentTrees

variable {hs : TreeHashes} {trees trees' other : NoteCommitmentTrees} {block : Block}

theorem Same.update (h : trees.Same other)
    (hu : trees.update_trees_parallel hs block = .ok (.ok trees')) :
    ∃ other', other.update_trees_parallel hs block = .ok (.ok other') ∧ trees'.Same other' ∧
      ((block.sapling_note_commitments ≠ [] ∨ trees.sapling_subtree = other.sapling_subtree) →
        (block.orchard_note_commitments ≠ [] ∨ trees.orchard_subtree = other.orchard_subtree) →
        other' = trees') := by
  obtain ⟨height, hheight, hsprout, hsapling, horchard⟩ := update_trees_parallel_ok.mp hu
  obtain ⟨sapling_subtree, hsapling', hsame⟩ := update_pool_same hsapling other.sapling_subtree
  obtain ⟨orchard_subtree, horchard', hsame'⟩ := update_pool_same horchard other.orchard_subtree
  refine ⟨⟨trees'.sprout, trees'.sapling, sapling_subtree, trees'.orchard, orchard_subtree⟩, ?_,
    ⟨rfl, rfl, rfl⟩, ?_⟩
  · rw [update_trees_parallel_ok]
    exact ⟨height, hheight, h.sprout ▸ hsprout, h.sapling ▸ hsapling', h.orchard ▸ horchard'⟩
  · intro hs' ho'
    rw [hsame hs', hsame' ho']

theorem update_without_notes {height : Nat} (hheight : block.coinbase_height = some height)
    (hsprout : block.sprout_note_commitments = []) (hsapling : block.sapling_note_commitments = [])
    (horchard : block.orchard_note_commitments = []) :
    trees.update_trees_parallel hs block = .ok (.ok trees) := by
  rw [update_trees_parallel_ok, hsprout, hsapling, horchard]
  exact ⟨height, hheight, rfl, rfl, rfl⟩

end NoteCommitmentTrees

/-! ## The subtrees that notes complete -/

/-- The last subtree that the notes complete, after the leaves that are in the tree already. -/
def completedSubtree (h : MerkleCrh) (height : Nat) (leaves notes : List NoteCommitment) :
    Option NoteCommitmentSubtree :=
  let size := 2 ^ TRACKED_SUBTREE_HEIGHT
  let count := (leaves.length + notes.length) / size
  if leaves.length < count * size then
    some {
      index := count - 1
      root := h.root TRACKED_SUBTREE_HEIGHT (((leaves ++ notes).drop ((count - 1) * size)).take size)
      end_height := height }
  else none

def withHeight (height : Nat) (index_and_root : Nat × TreeNode) : NoteCommitmentSubtree :=
  { index := index_and_root.1, root := index_and_root.2, end_height := height }

theorem completedSubtree_nil (h : MerkleCrh) (height : Nat) (leaves : List NoteCommitment) :
    completedSubtree h height leaves [] = none := by
  rw [completedSubtree, if_neg]
  rw [length_nil, Nat.add_zero]
  exact Nat.not_lt.mpr (Nat.div_mul_le_self _ _)

variable {leaves notes : List NoteCommitment}

theorem completedSubtree_eq_none : completedSubtree h height leaves notes = none ↔
      (leaves.length + notes.length) / 2 ^ TRACKED_SUBTREE_HEIGHT * 2 ^ TRACKED_SUBTREE_HEIGHT ≤
        leaves.length := by
  simp [completedSubtree]

namespace NoteCommitmentTree

variable {depth : Nat} {h : MerkleCrh} {tree tree' : NoteCommitmentTree depth}

theorem completed_subtree_eq (h : MerkleCrh) (height : Nat) {cm : NoteCommitment}
    (htree : tree.leaves = leaves ++ [cm]) (rest : List NoteCommitment)
    (hrest : completedSubtree h height tree.leaves rest = none) :
    (tree.completed_subtree_index_and_root h).map (withHeight height) =
      completedSubtree h height leaves (cm :: rest) := by
  have hlength : tree.leaves.length = leaves.length + 1 := by
    rw [htree, length_append, length_singleton]
  have hne : tree.leaves ≠ [] := by
    rw [htree]
    simp
  have happend : leaves ++ cm :: rest = tree.leaves ++ rest := by
    rw [htree, append_assoc, singleton_append]
  rw [completedSubtree_eq_none, hlength] at hrest
  unfold completedSubtree completed_subtree_index_and_root is_complete_subtree subtree_index
  have hcount : leaves.length + (cm :: rest).length = leaves.length + 1 + rest.length := by
    rw [length_cons]
    omega
  rw [hcount, happend]
  simp only [hlength, hne, ne_eq, not_false_eq_true, true_and, decide_eq_true_eq, if_false,
    Nat.add_sub_cancel]
  generalize hcount' : (leaves.length + 1 + rest.length) / 2 ^ TRACKED_SUBTREE_HEIGHT = count at hrest ⊢
  have hsize : 0 < 2 ^ TRACKED_SUBTREE_HEIGHT := Nat.two_pow_pos _
  generalize 2 ^ TRACKED_SUBTREE_HEIGHT = size at hrest hcount' hsize ⊢
  have hle : (leaves.length + 1) / size ≤ count := by
    rw [← hcount']
    exact Nat.div_le_div_right (by omega)
  by_cases hcomplete : (leaves.length + 1) % size = 0
  · have hmul : (leaves.length + 1) / size * size = leaves.length + 1 :=
      Nat.div_mul_cancel (Nat.dvd_of_mod_eq_zero hcomplete)
    have heq : count * size = leaves.length + 1 :=
      le_antisymm hrest (hmul ▸ Nat.mul_le_mul_right size hle)
    obtain ⟨n, rfl⟩ : ∃ n, count = n + 1 :=
      Nat.exists_eq_succ_of_ne_zero (by rintro rfl; omega)
    rw [Nat.succ_mul] at heq
    have hindex : leaves.length / size = n := by
      rw [show leaves.length = size - 1 + n * size by omega, Nat.add_mul_div_right _ _ hsize,
        Nat.div_eq_of_lt (by omega), Nat.zero_add]
    have hroot : ((tree.leaves ++ rest).drop (n * size)).take size = tree.leaves.drop (n * size) := by
      rw [drop_append_of_le_length (by omega)]
      refine take_left' ?_
      rw [length_drop]
      omega
    rw [if_pos hcomplete, if_pos (by rw [Nat.succ_mul]; omega), hindex, Nat.add_sub_cancel, hroot]
    rfl
  · rw [if_neg hcomplete, if_neg]
    · rfl
    · intro hlt
      have heq : leaves.length + 1 = count * size := by omega
      rw [heq, Nat.mul_mod_left] at hcomplete
      exact hcomplete rfl

theorem append_with_subtrees_subtree {subtree subtree' : Option (Nat × TreeNode)} (height : Nat)
    (heq : tree.append_with_subtrees h subtree notes = .ok (tree', subtree')) :
    subtree'.map (withHeight height) =
      (completedSubtree h height tree.leaves notes).or (subtree.map (withHeight height)) := by
  induction notes generalizing tree subtree with
  | nil =>
    cases heq
    rw [completedSubtree_nil]
    rfl
  | cons cm rest ih =>
    simp only [append_with_subtrees, except_bind_ok, append_eq_ok] at heq
    obtain ⟨mid, hmid, heq⟩ := heq
    rw [ih heq]
    cases hrest : completedSubtree h height mid.leaves rest with
    | none =>
      rw [← completed_subtree_eq h height hmid rest hrest]
      cases mid.completed_subtree_index_and_root h <;> rfl
    | some s =>
      -- A later note completes a subtree, and the whole list completes the same one.
      have hsame : completedSubtree h height tree.leaves (cm :: rest) = some s := by
        rw [← hrest]
        unfold completedSubtree at hrest ⊢
        have hlength : mid.leaves.length + rest.length = tree.leaves.length + (cm :: rest).length := by
          rw [hmid, length_append, length_singleton, length_cons]
          omega
        rw [hlength] at hrest ⊢
        simp only [Option.ite_none_right_eq_some] at hrest
        rw [if_pos hrest.1, if_pos (by have := congrArg length hmid; simp at this; omega), hmid,
          append_assoc, singleton_append]
      rw [hsame]
      rfl

end NoteCommitmentTree

theorem update_pool_completed (hne : notes ≠ [])
    (heq : update_pool h height tree subtree notes = .ok (tree', subtree')) :
    subtree' = completedSubtree h height tree.leaves notes := by
  rw [update_pool, if_neg (by simpa using hne), except_bind_ok] at heq
  obtain ⟨⟨mid, subtree_root⟩, hmid, heq⟩ := heq
  cases heq
  have := append_with_subtrees_subtree height hmid
  rwa [Option.map_none, Option.or_none] at this

end ZebraCrosslink
