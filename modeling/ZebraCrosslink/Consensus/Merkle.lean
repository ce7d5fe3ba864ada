import ZebraCrosslink.Consensus.Fees
import ZebraCrosslink.Order.PairTree

/-!
# The merkle root binds the transactions

`Root::from_iter` duplicates the last hash of an odd level. The check for duplicate transaction ids
makes up for it.
-/

open Rust PairTree

namespace ZebraCrosslink

namespace merkle

def hash (sha256d : List UInt8 → Bytes 32) (h1 h2 : Bytes 32) : Bytes 32 := sha256d (h1.val ++ h2.val)

def node (sha256d : List UInt8 → Bytes 32) (p : Bytes 32 × Bytes 32) : Bytes 32 := hash sha256d p.1 p.2

/-- `Root::from_iter`. The index `hashes[0]` panics when there is no hash. -/
def Root.from_iter (sha256d : List UInt8 → Bytes 32) (hashes : List TransactionHash) :
    Except Abort (Bytes 32) :=
  orAbort (root (node sha256d) hashes) (.panic "index out of bounds")

def Hashed (sha256d : List UInt8 → Bytes 32) (ids : List TransactionHash) : Set (List UInt8) :=
  { x | ∃ p ∈ Joined (node sha256d) ids, x = p.1.val ++ p.2.val }

def InnerNode (sha256d : List UInt8 → Bytes 32) (ids : List TransactionHash) : Set (Bytes 32) :=
  Inner (node sha256d) ids

variable {sha256d : List UInt8 → Bytes 32} {ids ids' : List TransactionHash}

theorem node_injOn {s : Set (List UInt8)} (h : s.InjOn sha256d) :
    { p : Bytes 32 × Bytes 32 | p.1.val ++ p.2.val ∈ s }.InjOn (node sha256d) := by
  rintro ⟨h1, h2⟩ hp ⟨h1', h2'⟩ hp' heq
  obtain ⟨hleft, hright⟩ := List.append_inj (h hp hp' heq) (h1.2.trans h1'.2.symm)
  exact Prod.ext (Subtype.ext hleft) (Subtype.ext hright)

theorem from_iter_ok {root : Bytes 32} (h : Root.from_iter sha256d ids = .ok root) :
    ids ≠ [] ∧ PairTree.root (node sha256d) ids = some root := by
  have hroot := orAbort_ok.mp h
  refine ⟨?_, hroot⟩
  rintro rfl
  rw [PairTree.root, if_neg (by simp)] at hroot
  cases hroot

end merkle

structure check.Accepts (sha256d : List UInt8 → Bytes 32) (rules : HeaderRules) (block : Block)
    (ids : List TransactionHash) : Prop where
  returns : merkle.Root.from_iter sha256d ids = .ok (rules.merkle_root ids)
  ok : check.merkle_root_validity rules block ids = .ok ()

theorem check.merkle_root_validity_root {rules : HeaderRules} {block : Block}
    {ids : List TransactionHash} (h : check.merkle_root_validity rules block ids = .ok ()) :
    block.header.merkle_root = rules.merkle_root ids := by
  unfold check.merkle_root_validity at h
  by_contra hne
  simp only [hne, ne_eq, not_false_eq_true, if_true] at h
  split at h <;> cases h

/-- Two lists of ids that are accepted under one root are equal, unless two of the hashed strings
collide or an id is an inner node of the other list. -/
theorem merkle_root_binds {sha256d : List UInt8 → Bytes 32} {rules rules' : HeaderRules}
    {block block' : Block} {ids ids' : List TransactionHash}
    (hfree : (merkle.Hashed sha256d ids ∪ merkle.Hashed sha256d ids').InjOn sha256d)
    (h : check.Accepts sha256d rules block ids) (h' : check.Accepts sha256d rules' block' ids')
    (hheader : block.header.merkle_root = block'.header.merkle_root)
    (hinner : ∀ id ∈ ids, id ∉ merkle.InnerNode sha256d ids')
    (hinner' : ∀ id ∈ ids', id ∉ merkle.InnerNode sha256d ids) : ids = ids' := by
  obtain ⟨hne, hroot⟩ := merkle.from_iter_ok h.returns
  obtain ⟨hne', hroot'⟩ := merkle.from_iter_ok h'.returns
  have hsame : root (merkle.node sha256d) ids = root (merkle.node sha256d) ids' := by
    rw [hroot, hroot', ← check.merkle_root_validity_root h.ok, ← check.merkle_root_validity_root h'.ok,
      hheader]
  exact root_inj (merkle.node_injOn hfree) (fun p hp => .inl ⟨p, hp, rfl⟩)
    (fun p hp => .inr ⟨p, hp, rfl⟩) hne hne' (SemanticBlockVerifier.merkle_root_validity_ok h.ok)
    (SemanticBlockVerifier.merkle_root_validity_ok h'.ok) hsame hinner hinner'

namespace Sample

def idOf (n : UInt8) : TransactionHash := ⟨n :: List.replicate 31 0, by simp⟩

def mixHash (x : List UInt8) : Bytes 32 :=
  ⟨x.headD 0 :: (x.drop 32).headD 0 :: 9 :: List.replicate 29 0, by simp⟩

def threeIds : List TransactionHash := [idOf 1, idOf 2, idOf 3]

def threeJoins : List (Bytes 32 × Bytes 32) :=
  [(merkle.hash mixHash (idOf 1) (idOf 2), merkle.hash mixHash (idOf 3) (idOf 3)),
    (idOf 1, idOf 2), (idOf 3, idOf 3)]

theorem threeIds_joined {p : Bytes 32 × Bytes 32}
    (h : p ∈ Joined (merkle.node mixHash) threeIds) : p ∈ threeJoins := by
  rw [joined_eq (by decide), joined_eq (by decide), joined_of_le_one (by decide)] at h
  simpa [threeIds, threeJoins, level, joins, merkle.node, or_assoc] using h

theorem mixHash_injOn : (merkle.Hashed mixHash threeIds).InjOn mixHash := by
  rintro x ⟨p, hp, rfl⟩ y ⟨q, hq, rfl⟩
  have hall : ∀ p ∈ threeJoins, ∀ q ∈ threeJoins,
      mixHash (p.1.val ++ p.2.val) = mixHash (q.1.val ++ q.2.val) →
        p.1.val ++ p.2.val = q.1.val ++ q.2.val := by decide
  exact hall p (threeIds_joined hp) q (threeIds_joined hq)

theorem threeIds_not_inner : ∀ id ∈ threeIds, id ∉ merkle.InnerNode mixHash threeIds := by
  intro id hid hinner
  rw [merkle.InnerNode, inner_eq] at hinner
  obtain ⟨p, hp, rfl⟩ := hinner
  have hall : ∀ p ∈ threeJoins, merkle.node mixHash p ∉ threeIds := by decide
  exact hall p (threeIds_joined hp) hid

def threeRoot : Bytes 32 :=
  merkle.hash mixHash (merkle.hash mixHash (idOf 1) (idOf 2)) (merkle.hash mixHash (idOf 3) (idOf 3))

def threeBlock : Block := ⟨{ templateHeader with merkle_root := threeRoot }, []⟩

def threeRules : HeaderRules :=
  { lenientBlocks with
    merkle_root := fun ids => (merkle.Root.from_iter mixHash ids).toOption.getD (Bytes.zero 32) }

theorem threeIds_root : merkle.Root.from_iter mixHash threeIds = .ok threeRoot := by
  rw [merkle.Root.from_iter, root_of_one_lt (by decide), root_of_one_lt (by decide)]
  simp only [threeIds, level, joins, List.map_cons, List.map_nil, root_singleton]
  rfl

theorem three_accepts : check.Accepts mixHash threeRules threeBlock threeIds where
  returns := by simp [threeRules, threeIds_root, Except.toOption]
  ok := by
    simp only [check.merkle_root_validity, threeRules, threeIds_root]
    decide

end Sample

open Sample

theorem three_ids_bound : check.Accepts mixHash threeRules threeBlock threeIds ∧
      threeIds = [idOf 1, idOf 2, idOf 3] :=
  ⟨three_accepts, merkle_root_binds (by simpa [threeIds] using mixHash_injOn) three_accepts
      three_accepts rfl threeIds_not_inner threeIds_not_inner⟩

end ZebraCrosslink
