import ZebraCrosslink.State.View
import ZebraCrosslink.State.Worker

/-!
# Paths from genesis

A block hash names one block, so a list of linked blocks from genesis on is determined by its last
hash.
-/

open Rust List

namespace ZebraCrosslink

variable {name : BlockHash → Block}

/-! ## Named blocks -/

/-- A block as the verifier hands it over: the hash names it and the height is the one it claims. -/
structure Named (name : BlockHash → Block) (b : ContextuallyVerifiedBlock) : Prop where
  block : b.block = name b.hash
  height : b.block.coinbase_height = some b.height
  hash_ne : b.hash ≠ GENESIS_PREVIOUS_BLOCK_HASH
  short : b.height < MAX_HEIGHT

theorem Named.eq_of_hash {a b : ContextuallyVerifiedBlock} (ha : Named name a) (hb : Named name b)
    (h : a.hash = b.hash) : a = b := by
  have hblock : a.block = b.block := by rw [ha.block, hb.block, h]
  have hheight := ha.height
  rw [hblock, hb.height, Option.some.injEq] at hheight
  cases a
  cases b
  simp_all

/-! ## Paths -/

def tipHash (l : List ContextuallyVerifiedBlock) : BlockHash :=
  match l.getLast? with
  | some b => b.hash
  | none => GENESIS_PREVIOUS_BLOCK_HASH

@[simp] theorem tipHash_nil : tipHash [] = GENESIS_PREVIOUS_BLOCK_HASH := rfl

@[simp] theorem tipHash_append_singleton (l : List ContextuallyVerifiedBlock)
    (b : ContextuallyVerifiedBlock) : tipHash (l ++ [b]) = b.hash := by
  simp [tipHash]

theorem ZebraDb.finalized_tip_hash_eq (db : ZebraDb) :
    db.finalized_tip_hash = tipHash db.blocks := by
  unfold finalized_tip_hash tip tipHash
  cases db.blocks.getLast? <;> rfl

structure PowPath (name : BlockHash → Block) (l : List ContextuallyVerifiedBlock) : Prop where
  named : ∀ b ∈ l, Named name b
  heights : ∀ (i : Nat) (b : ContextuallyVerifiedBlock), l[i]? = some b → b.height = i
  linked : l.IsChain fun a b => b.block.header.previous_block_hash = a.hash
  root : ∀ b ∈ l.head?, b.block.header.previous_block_hash = GENESIS_PREVIOUS_BLOCK_HASH

namespace PowPath

variable {l l' below : List ContextuallyVerifiedBlock} {a b : ContextuallyVerifiedBlock} {db : ZebraDb}

theorem nil : PowPath name [] := ⟨by simp, by simp, by simp, by simp⟩

theorem left (h : PowPath name (l ++ l')) : PowPath name l where
  named b hb := h.named b (mem_append_left _ hb)
  heights i b hb := by
    obtain ⟨hi, -⟩ := List.getElem?_eq_some_iff.mp hb
    exact h.heights i b (by rw [getElem?_append_left hi, hb])
  linked := h.linked.left_of_append
  root b hb := h.root b (by rw [head?_append, Option.mem_def.mp hb]; rfl)

theorem append_singleton (h : PowPath name l) (hb : Named name b) (hheight : b.height = l.length)
    (hprev : b.block.header.previous_block_hash = tipHash l) : PowPath name (l ++ [b]) where
  named c hc := by
    rcases mem_append.mp hc with hc | hc
    · exact h.named c hc
    · rwa [mem_singleton.mp hc]
  heights i c hc := by
    rw [getElem?_append] at hc
    split at hc
    · exact h.heights i c hc
    · rw [getElem?_singleton] at hc
      split at hc
      · cases hc
        omega
      · cases hc
  linked := by
    refine isChain_append.mpr ⟨h.linked, by simp, ?_⟩
    intro a ha c hc
    obtain rfl : b = c := by simpa using hc
    rw [hprev, tipHash, Option.mem_def.mp ha]
  root c hc := by
    cases l with
    | nil =>
      obtain rfl : b = c := by simpa using hc
      exact hprev
    | cons a l => exact h.root c hc

theorem through (h : PowPath name (l ++ b :: l')) : PowPath name (l ++ [b]) := by
  refine left (?_ : PowPath name (l ++ [b] ++ l'))
  simpa using h

theorem through_split (h : PowPath name (l ++ (below ++ b :: l'))) :
    PowPath name (l ++ below ++ [b]) :=
  through (by rwa [append_assoc])

theorem height_last (h : PowPath name (l ++ [b])) : b.height = l.length :=
  h.heights l.length b (by simp)

theorem prev_last (h : PowPath name (l ++ [b])) :
    b.block.header.previous_block_hash = tipHash l := by
  cases hl : l.getLast? with
  | none =>
    obtain rfl := getLast?_eq_none_iff.mp hl
    exact h.root b (by simp)
  | some a =>
    rw [tipHash, hl]
    exact (isChain_append.mp h.linked).2.2 a hl b (by simp)

theorem height_split (h : PowPath name (l ++ (below ++ b :: l'))) :
    b.height = l.length + below.length := by
  rw [h.through_split.height_last, length_append]

theorem eq_of_tipHash (h : PowPath name l) (h' : PowPath name l') (htip : tipHash l = tipHash l') :
    l = l' := by
  induction l using reverseRecOn generalizing l' with
  | nil =>
    cases l' using reverseRecOn with
    | nil => rfl
    | append_singleton l' b =>
      simp only [tipHash_nil, tipHash_append_singleton] at htip
      exact absurd htip.symm (h'.named b (by simp)).hash_ne
  | append_singleton l a ih =>
    cases l' using reverseRecOn with
    | nil =>
      simp only [tipHash_nil, tipHash_append_singleton] at htip
      exact absurd htip (h.named a (by simp)).hash_ne
    | append_singleton l' b =>
      simp only [tipHash_append_singleton] at htip
      obtain rfl := (h.named a (by simp)).eq_of_hash (h'.named b (by simp)) htip
      rw [ih h.left h'.left (h.prev_last.symm.trans h'.prev_last)]

theorem getElem?_of_mem (h : PowPath name l) (hb : b ∈ l) : l[b.height]? = some b := by
  obtain ⟨i, hi⟩ := mem_iff_getElem?.mp hb
  rwa [h.heights i b hi]

theorem eq_of_hash (h : PowPath name l) (ha : a ∈ l) (hb : b ∈ l) (hhash : a.hash = b.hash) :
    a = b := (h.named a ha).eq_of_hash (h.named b hb) hhash

theorem nodup (h : PowPath name l) : (l.map (·.hash)).Nodup := by
  rw [nodup_iff_getElem?_ne_getElem?]
  intro i j hij hj heq
  simp only [length_map] at hj
  simp only [getElem?_map, getElem?_eq_getElem hj,
    getElem?_eq_getElem (hij.trans hj), Option.map_some, Option.some.injEq] at heq
  have hab := h.eq_of_hash (getElem_mem _) (getElem_mem _) heq
  have hi := h.heights i _ (getElem?_eq_getElem (hij.trans hj))
  have hj := h.heights j _ (getElem?_eq_getElem hj)
  rw [hab] at hi
  omega

def powChain (h : PowPath name l) : PowChain where
  blocks := l
  heights := h.heights
  linked := h.linked
  nodup := h.nodup
  genesis b hb hmem := by
    rw [h.root b hb] at hmem
    obtain ⟨a, ha, hzero⟩ := mem_map.mp hmem
    exact (h.named a ha).hash_ne hzero
  short := by
    cases hl : l.getLast? with
    | none =>
      obtain rfl := getLast?_eq_none_iff.mp hl
      exact Nat.zero_le _
    | some b =>
      have hshort := (h.named b (mem_of_getLast? hl)).short
      rw [getLast?_eq_getElem?] at hl
      have := h.heights _ b hl
      omega

/-! ## What the readers see of a path -/

theorem shown_db (h : PowPath name db.blocks) : Shown none db h.powChain :=
  ⟨prefix_refl _, fun _ => rfl, nofun⟩

theorem shown {c : Chain} {r : Nat} (h : PowPath name (db.blocks.take r ++ c.blocks))
    (hr : r ≤ db.blocks.length) (hne : c.blocks ≠ [])
    (hpart : db.blocks <+: db.blocks.take r ++ c.blocks) : Shown (some c) db h.powChain where
  db_part := hpart
  chain_none := nofun
  chain_some := by
    rintro _ ⟨⟩
    have hlen : (db.blocks.take r).length = r := by simpa using hr
    have hpos := length_pos_iff.mpr hne
    refine ⟨r, hr, ?_, ?_⟩
    · simp only [powChain, length_append, hlen]
      omega
    · simp only [powChain]
      rw [drop_append_of_le_length hlen.ge, drop_eq_nil_of_le hlen.le, nil_append]

theorem shown_attached {c : Chain} (h : PowPath name (db.blocks ++ c.blocks))
    (hne : c.blocks ≠ []) : Shown (some c) db h.powChain where
  db_part := prefix_append _ _
  chain_none := nofun
  chain_some := by
    rintro _ ⟨⟩
    have hpos := length_pos_iff.mpr hne
    exact ⟨db.blocks.length, le_rfl, by simpa [powChain] using hpos, by simp [powChain]⟩

/-! ## Parts of a path -/

theorem filter_height (h : PowPath name (l ++ l')) (k : Nat) :
    (l'.filter fun b => k ≤ b.height) = l'.drop (k - l.length) ∧
      (l'.filter fun b => b.height ≤ k) = l'.take (k + 1 - l.length) := by
  induction l' generalizing l with
  | nil => simp
  | cons b l' ih =>
    have hsplit : l ++ b :: l' = (l ++ [b]) ++ l' := by simp
    have hb : b.height = l.length := (hsplit ▸ h).left.height_last
    obtain ⟨hle, hge⟩ := ih (l := l ++ [b]) (hsplit ▸ h)
    rw [length_append, length_singleton] at hle hge
    simp only [filter_cons, hle, hge, hb, decide_eq_true_eq]
    rcases lt_trichotomy k l.length with hlt | rfl | hgt
    · simp [hlt.le, show ¬ l.length ≤ k by omega, show k - l.length = 0 by omega,
        show k - (l.length + 1) = 0 by omega, show k + 1 - l.length = 0 by omega]
    · simp
    · simp [show ¬ k ≤ l.length by omega, hgt.le, show k - l.length = k - (l.length + 1) + 1 by omega,
        show k + 1 - l.length = k + 1 - (l.length + 1) + 1 by omega]

theorem filter_le (h : PowPath name (l ++ l')) (k : Nat) :
    (l'.filter fun b => k ≤ b.height) = l'.drop (k - l.length) := (h.filter_height k).1

theorem filter_ge (h : PowPath name (l ++ l')) (k : Nat) :
    (l'.filter fun b => b.height ≤ k) = l'.take (k + 1 - l.length) := (h.filter_height k).2

end PowPath

/-! ## What the worker accepts -/

/-- A block that passed the checks for its place after `chain`, on top of `db`. -/
structure Accepted (db : ZebraDb) (chain : Chain) (b : ContextuallyVerifiedBlock) : Prop where
  height : b.height = (db.blocks ++ chain.blocks).length
  prev : b.block.header.previous_block_hash = tipHash (db.blocks ++ chain.blocks)
  nullifiers : check.no_duplicates_in_finalized_chain b db = .ok (.ok ())
  spends : check.transparent_spend b chain db = .ok (.ok ())
  updates : update_with_transactions chain.transactions b.block.transactions = .ok (.ok ())

/-- A property of paths that every accepted block keeps. `Verified` is what is known of the blocks
sent for a commit, `Trusted` of those that a checkpoint covers. -/
structure Lasting (name : BlockHash → Block) (Verified : ContextuallyVerifiedBlock → Prop)
    (Trusted : List ContextuallyVerifiedBlock → ContextuallyVerifiedBlock → Prop)
    (Good : List ContextuallyVerifiedBlock → Prop) : Prop where
  path : ∀ l, Good l → PowPath name l
  left : ∀ l l', Good (l ++ l') → Good l
  commit : ∀ (db : ZebraDb) (chain : Chain) (b : ContextuallyVerifiedBlock),
    Good (db.blocks ++ chain.blocks) → Verified b → Accepted db chain b →
      Good (db.blocks ++ chain.blocks ++ [b])
  checkpoint : ∀ l b, Good l → Trusted l b → b.height = l.length →
    b.block.header.previous_block_hash = tipHash l → Good (l ++ [b])

theorem lasting_powPath (name : BlockHash → Block) :
    Lasting name (Named name) (fun _ => Named name) (PowPath name) where
  path _ h := h
  left _ _ h := h.left
  commit _ _ _ h hb hacc := h.append_singleton hb hacc.height hacc.prev
  checkpoint _ _ h hb hheight hprev := h.append_singleton hb hheight hprev

end ZebraCrosslink
