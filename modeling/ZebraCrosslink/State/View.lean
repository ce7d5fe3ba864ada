import Mathlib
import ZebraCrosslink.State.Read

/-!
# The best chain behind the read service

When the snapshot and the database are parts of one PoW chain, the answers of the read service are
lookups in that chain.
-/

open Rust List
open Option (bind_none bind_some map_eq_some_iff map_or map_some none_or)

namespace ZebraCrosslink

theorem find?_eq_some_of_unique {α : Type} {l : List α} {p : α → Bool} {b : α}
    (h : ∀ a ∈ l, ∀ b ∈ l, p a → p b → a = b) : l.find? p = some b ↔ b ∈ l ∧ p b := by
  constructor
  · intro hb
    exact ⟨mem_of_find?_eq_some hb, find?_some hb⟩
  · rintro ⟨hb, hpb⟩
    obtain ⟨a, ha⟩ := Option.isSome_iff_exists.mp (find?_isSome.mpr ⟨b, hb, hpb⟩)
    rw [ha, h a (mem_of_find?_eq_some ha) b hb (find?_some ha) hpb]

/-! ## A chain of PoW blocks -/

structure PowChain where
  blocks : List ContextuallyVerifiedBlock
  heights : ∀ (i : Nat) (b : ContextuallyVerifiedBlock), blocks[i]? = some b → b.height = i
  linked : blocks.IsChain fun a b => b.block.header.previous_block_hash = a.hash
  nodup : (blocks.map (·.hash)).Nodup
  genesis : ∀ b ∈ blocks.head?, b.block.header.previous_block_hash ∉ blocks.map (·.hash)
  short : blocks.length ≤ MAX_HEIGHT

namespace PowChain

variable (c : PowChain)

def hashes : List BlockHash := c.blocks.map (·.hash)

def heightOf (hash : BlockHash) : Option Nat := c.blocks.findIdx? fun b => b.hash = hash

/-- The blocks at the heights from `start` up to, not including, `stop`. -/
def slice (start stop : Nat) : List ContextuallyVerifiedBlock := (c.blocks.take stop).drop start

def stopAt (stop : Option BlockHash) : Nat :=
  match stop.bind c.heightOf with
  | some height => height + 1
  | none => c.blocks.length

def startAt (known : BlockHash) : Nat :=
  match c.heightOf known with
  | some height => height + 1
  | none => 0

@[simp] theorem hashes_length : c.hashes.length = c.blocks.length := by simp [hashes]

variable {c} {x : BlockHash} {i j : Nat} {b : ContextuallyVerifiedBlock}

theorem hashes_getElem? (i : Nat) : c.hashes[i]? = c.blocks[i]?.map (·.hash) := by
  simp [hashes]

theorem hashes_inj (hi : c.hashes[i]? = some x) (hj : c.hashes[j]? = some x) : i = j := by
  obtain ⟨hlt, -⟩ := List.getElem?_eq_some_iff.mp hi
  exact (getElem?_inj hlt c.nodup).mp (hi.trans hj.symm)

theorem heightOf_eq_some_iff : c.heightOf x = some i ↔ c.hashes[i]? = some x := by
  rw [heightOf, findIdx?_eq_some_iff_getElem, getElem?_eq_some_iff]
  constructor
  · rintro ⟨hlt, hx, -⟩
    exact ⟨by simpa using hlt, by simpa [hashes] using hx⟩
  · rintro ⟨hlt, hx⟩
    have hlt' : i < c.blocks.length := by simpa using hlt
    refine ⟨hlt', by simpa [hashes] using hx, fun j hj hjx => ?_⟩
    have hjlt : j < c.hashes.length := by omega
    have hxj : c.hashes[j]? = some x := by
      rw [getElem?_eq_some_iff]
      exact ⟨hjlt, by simpa [hashes] using hjx⟩
    have hxi : c.hashes[i]? = some x := List.getElem?_eq_some_iff.mpr ⟨hlt, hx⟩
    have := hashes_inj hxj hxi
    omega

theorem heightOf_lt (h : c.heightOf x = some i) : i < c.blocks.length := by
  obtain ⟨hlt, -⟩ := List.getElem?_eq_some_iff.mp (heightOf_eq_some_iff.mp h)
  simpa using hlt

theorem heightOf_eq_none_iff : c.heightOf x = none ↔ x ∉ c.hashes := by
  simp [heightOf, hashes]

theorem heightOf_of_getElem? (h : c.blocks[i]? = some b) : c.heightOf b.hash = some i := by
  rw [heightOf_eq_some_iff, hashes_getElem?, h, map_some]

theorem height_inj {a : ContextuallyVerifiedBlock} (ha : c.blocks[i]? = some a)
    (hb : c.blocks[j]? = some b) (h : a.hash = b.hash) : i = j := by
  have hij := heightOf_of_getElem? ha
  rw [h, heightOf_of_getElem? hb] at hij
  exact (Option.some.inj hij).symm

theorem stopAt_le (stop : Option BlockHash) : c.stopAt stop ≤ c.blocks.length := by
  unfold stopAt
  split
  · rename_i height h
    obtain ⟨x, -, hx⟩ := Option.bind_eq_some_iff.mp h
    exact heightOf_lt hx
  · exact le_rfl

theorem heightOf_parent (h : c.blocks[i + 1]? = some b) :
    c.heightOf b.block.header.previous_block_hash = some i := by
  obtain ⟨hlt, hb⟩ := List.getElem?_eq_some_iff.mp h
  have hlink := isChain_iff_getElem.mp c.linked i hlt
  rw [hb] at hlink
  rw [hlink]
  exact heightOf_of_getElem? (getElem?_eq_getElem (by omega))

theorem heightOf_genesis_parent (h : c.blocks[0]? = some b) :
    c.heightOf b.block.header.previous_block_hash = none := by
  rw [heightOf_eq_none_iff]
  exact c.genesis b (by rw [head?_eq_getElem?, h]; rfl)

/-! ## Lookups in a part of the chain -/

theorem mem_drop_iff {r : Nat} :
    b ∈ c.blocks.drop r ↔ r ≤ b.height ∧ c.blocks[b.height]? = some b := by
  rw [mem_iff_getElem?]
  simp only [getElem?_drop]
  constructor
  · rintro ⟨i, hi⟩
    rw [c.heights _ _ hi]
    exact ⟨by omega, hi⟩
  · rintro ⟨hr, hb⟩
    exact ⟨b.height - r, by rwa [Nat.add_sub_cancel' hr]⟩

theorem find_height (r h : Nat) :
    ((c.blocks.drop r).find? fun b => b.height = h) = if r ≤ h then c.blocks[h]? else none := by
  ext b
  rw [find?_eq_some_of_unique, mem_drop_iff]
  · split
    · rename_i hr
      constructor
      · rintro ⟨⟨-, hb⟩, hh⟩
        rwa [of_decide_eq_true hh] at hb
      · intro hb
        have hh := c.heights _ _ hb
        exact ⟨⟨by omega, by rwa [hh]⟩, by simpa using hh⟩
    · simp only [decide_eq_true_eq, reduceCtorEq, iff_false]
      omega
  · intro a ha b hb hah hbh
    have hh : a.height = b.height := by simp_all
    have := (mem_drop_iff.mp ha).2
    rw [hh, (mem_drop_iff.mp hb).2] at this
    exact (Option.some.inj this).symm

theorem find_hash {r : Nat} : ((c.blocks.drop r).find? fun b => b.hash = x) = some b ↔
      r ≤ b.height ∧ c.blocks[b.height]? = some b ∧ b.hash = x := by
  rw [find?_eq_some_of_unique, mem_drop_iff, decide_eq_true_eq, and_assoc]
  intro a ha b hb hah hbh
  have ha' := (mem_drop_iff.mp ha).2
  have hb' := (mem_drop_iff.mp hb).2
  have hh : a.hash = b.hash := by simp_all
  have heq := heightOf_of_getElem? ha'
  rw [hh, heightOf_of_getElem? hb', Option.some.injEq] at heq
  rw [heq, ha', Option.some.injEq] at hb'
  exact hb'

theorem getElem?_of_part {l : List ContextuallyVerifiedBlock} (h : l <+: c.blocks)
    (hi : i < l.length) : l[i]? = c.blocks[i]? := by
  obtain ⟨rest, hrest⟩ := h
  rw [← hrest, getElem?_append_left hi]

def part (c : PowChain) (l : List ContextuallyVerifiedBlock) (h : l <+: c.blocks) : PowChain where
  blocks := l
  heights i b hb := by
    obtain ⟨hi, -⟩ := List.getElem?_eq_some_iff.mp hb
    exact c.heights i b (getElem?_of_part h hi ▸ hb)
  linked := by
    obtain ⟨rest, hrest⟩ := h
    exact (hrest ▸ c.linked).left_of_append
  nodup := c.nodup.sublist (h.sublist.map _)
  genesis b hb hmem := by
    refine c.genesis b ?_ ((h.sublist.map _).subset hmem)
    rw [head?_eq_getElem?] at hb ⊢
    obtain ⟨hi, -⟩ := List.getElem?_eq_some_iff.mp hb
    exact getElem?_of_part h hi ▸ hb
  short := h.length_le.trans c.short

end PowChain

open PowChain

/-! ## Services that show a chain -/

/-- The best non-finalized chain and the database are parts of `best`, and together all of it. -/
structure Shown (chain : Option Chain) (db : ZebraDb) (best : PowChain) : Prop where
  db_part : db.blocks <+: best.blocks
  chain_none : chain = none → db.blocks = best.blocks
  chain_some : ∀ c, chain = some c →
    ∃ r ≤ db.blocks.length, r < best.blocks.length ∧ c.blocks = best.blocks.drop r

def ReadStateService.Shows (s : ReadStateService) (best : PowChain) : Prop :=
  Shown s.non_finalized_state.best_chain s.db best

namespace Shown

variable {chain : Option Chain} {db : ZebraDb} {best : PowChain} {h : Nat} {x : BlockHash}

theorem db_getElem? (s : Shown chain db best) (hh : h < db.blocks.length) :
    db.blocks[h]? = best.blocks[h]? := getElem?_of_part s.db_part hh

theorem db_height_iff (s : Shown chain db best) :
    db.height x = some h ↔ h < db.blocks.length ∧ best.heightOf x = some h := by
  change (best.part db.blocks s.db_part).heightOf x = some h ↔ _
  rw [heightOf_eq_some_iff, heightOf_eq_some_iff, hashes_getElem?, hashes_getElem?]
  change db.blocks[h]?.map _ = _ ↔ _
  constructor
  · intro hx
    have hh : h < db.blocks.length := by
      by_contra hn
      rw [getElem?_eq_none (by omega)] at hx
      exact absurd hx nofun
    exact ⟨hh, s.db_getElem? hh ▸ hx⟩
  · rintro ⟨hh, hx⟩
    rwa [s.db_getElem? hh]

theorem chain_height_iff {r : Nat} {c : Chain} (hc : c.blocks = best.blocks.drop r) :
    c.height_by_hash x = some h ↔ r ≤ h ∧ best.heightOf x = some h := by
  rw [Chain.height_by_hash, hc, map_eq_some_iff]
  constructor
  · rintro ⟨b, hb, rfl⟩
    obtain ⟨hr, hget, rfl⟩ := find_hash.mp hb
    exact ⟨hr, heightOf_of_getElem? hget⟩
  · rintro ⟨hr, hx⟩
    rw [heightOf_eq_some_iff, hashes_getElem?, map_eq_some_iff] at hx
    obtain ⟨b, hb, hbx⟩ := hx
    have hh := best.heights _ _ hb
    exact ⟨b, find_hash.mpr ⟨by omega, by rwa [hh], hbx⟩, hh⟩

section

variable (s : Shown chain db best)
include s

theorem height_by_hash (x : BlockHash) : Read.height_by_hash chain db x = best.heightOf x := by
  unfold Read.height_by_hash
  ext h
  cases hc : chain with
  | none =>
    rw [bind_none, none_or, s.db_height_iff, s.chain_none hc]
    exact and_iff_right_of_imp heightOf_lt
  | some c =>
    obtain ⟨r, hr, -, hblocks⟩ := s.chain_some c hc
    rw [bind_some, Option.or_eq_some_iff, chain_height_iff hblocks, s.db_height_iff]
    constructor
    · rintro (⟨-, hx⟩ | ⟨-, -, hx⟩) <;> exact hx
    · intro hx
      by_cases hh : r ≤ h
      · exact .inl ⟨hh, hx⟩
      · refine .inr ⟨?_, by omega, hx⟩
        refine Option.eq_none_iff_forall_ne_some.mpr fun h' hx' => ?_
        have hx' := chain_height_iff hblocks |>.mp hx'
        rw [hx, Option.some.injEq] at hx'
        omega

theorem block_by_height (h : Nat) :
    (chain.bind fun c => c.block (.Height h)).or db.blocks[h]? = best.blocks[h]? := by
  cases hc : chain with
  | none => rw [bind_none, none_or, s.chain_none hc]
  | some c =>
    obtain ⟨r, hr, -, hblocks⟩ := s.chain_some c hc
    rw [bind_some, Chain.block, hblocks, find_height]
    split
    · cases hb : best.blocks[h]? with
      | some b => rfl
      | none =>
        have hlen := s.db_part.length_le
        rw [none_or, getElem?_eq_none]
        exact (getElem?_eq_none_iff.mp hb).trans' hlen
    · rw [none_or, s.db_getElem? (by omega)]

theorem hash_by_height (h : Nat) : Read.hash_by_height chain db h = best.hashes[h]? := by
  rw [hashes_getElem?, ← s.block_by_height h, map_or]
  cases chain <;> rfl

theorem block_header_by_height (h : Nat) :
    Read.block_header chain db (.Height h) = best.blocks[h]?.map (·.block.header) := by
  rw [← s.block_by_height h, map_or]
  cases chain <;> simp [Read.block_header, ZebraDb.block_header, ZebraDb.block, Function.comp_def]

theorem block_at_height (h : Nat) :
    Read.block chain db (.Height h) = best.blocks[h]?.map (·.block) := by
  rw [← s.block_by_height h, map_or]
  cases chain <;> simp [Read.block, ZebraDb.block]

theorem block_by_hash (x : BlockHash) : Read.block chain db (.Hash x) =
      (best.heightOf x).bind fun h => best.blocks[h]?.map (·.block) := by
  have hdb : db.block (.Hash x) = (db.height x).bind fun h => best.blocks[h]?.map (·.block) := by
    cases hx : db.height x with
    | none => simp [ZebraDb.block, hx]
    | some h => simp [ZebraDb.block, hx, s.db_getElem? (s.db_height_iff.mp hx).1]
  have hchain : ∀ c, chain = some c → (c.block (.Hash x)).map (·.block) =
      (c.height_by_hash x).bind fun h => best.blocks[h]?.map (·.block) := by
    intro c hc
    obtain ⟨r, -, -, hblocks⟩ := s.chain_some c hc
    cases hx : c.height_by_hash x with
    | none => simp [Chain.block, hx]
    | some h =>
      have hr := ((chain_height_iff hblocks).mp hx).1
      simp [Chain.block, hx, hblocks, find_height, hr]
  rw [← s.height_by_hash, Read.block, Read.height_by_hash, hdb]
  cases hc : chain with
  | none => rfl
  | some c =>
    rw [bind_some, hchain c hc, bind_some]
    cases hx : c.height_by_hash x with
    | none => rfl
    | some h =>
      obtain ⟨r, -, -, hblocks⟩ := s.chain_some c hc
      have hlt := heightOf_lt ((chain_height_iff hblocks).mp hx).2
      simp [getElem?_eq_getElem hlt]

theorem tip : Read.tip chain db = best.blocks.getLast?.map fun b => (b.height, b.hash) := by
  cases hc : chain with
  | none =>
    rw [Read.tip, ZebraDb.tip, s.chain_none hc]
    cases hlast : best.blocks.getLast? with
    | none => rfl
    | some b =>
      rw [getLast?_eq_getElem?] at hlast
      rw [map_some, map_some, best.heights _ _ hlast]
  | some c =>
    obtain ⟨r, -, hr, hblocks⟩ := s.chain_some c hc
    rw [Read.tip, Chain.non_finalized_tip, hblocks, getLast?_drop, if_neg (by omega)]

theorem tip_height {t : Nat} (h : Read.tip chain db = some (t, x)) :
    best.blocks.length = t + 1 := by
  rw [s.tip, map_eq_some_iff] at h
  obtain ⟨b, hb, heq⟩ := h
  rw [getLast?_eq_getElem?] at hb
  have hheight := best.heights _ _ hb
  obtain ⟨hlt, -⟩ := List.getElem?_eq_some_iff.mp hb
  obtain ⟨rfl, -⟩ := Prod.mk.inj heq
  omega

theorem contains_hash (x : BlockHash) :
    Read.chain_contains_hash chain db x = (best.heightOf x).isSome := by
  rw [← s.height_by_hash, Read.height_by_hash, Option.isSome_or]
  cases chain <;> rfl

end

end Shown

/-! ## Ranges -/

theorem mapWhile_range {α β : Type} (l : List α) (f : α → β) {g : Nat → Option β}
    (hg : ∀ i, g i = l[i]?.map f) (start len : Nat) (hle : start + len ≤ l.length) :
    Read.mapWhile g (range' start len) = ((l.take (start + len)).drop start).map f := by
  induction len generalizing start with
  | zero => simp [Read.mapWhile]
  | succ len ih =>
    have hlt : start < l.length := by omega
    have hlt' : start < (l.take (start + (len + 1))).length := by rw [length_take]; omega
    rw [range'_succ, Read.mapWhile, hg, getElem?_eq_getElem hlt, map_some]
    simp only
    rw [ih (start + 1) (by omega), drop_eq_getElem_cons hlt', map_cons, getElem_take,
      Nat.add_right_comm, Nat.add_assoc]

namespace PowChain

variable {c : PowChain} (start stop : Nat)

theorem startAt_le (x : BlockHash) : c.startAt x ≤ c.blocks.length := by
  unfold startAt
  split
  · exact heightOf_lt ‹_›
  · exact Nat.zero_le _

theorem slice_eq : c.slice start stop = (c.blocks.take (start + (stop - start))).drop start := by
  unfold slice
  by_cases h : start ≤ stop
  · rw [Nat.add_sub_cancel' h]
  · rw [drop_eq_nil_of_le, drop_eq_nil_of_le] <;> rw [length_take] <;> omega

theorem slice_getElem? (i : Nat) :
    (c.slice start stop)[i]? = if start + i < stop then c.blocks[start + i]? else none := by
  rw [slice, getElem?_drop, getElem?_take]

theorem slice_length {stop : Nat} (h : stop ≤ c.blocks.length) :
    (c.slice start stop).length = stop - start := by
  rw [slice, length_drop, length_take, min_eq_left h]

theorem stopAt_of_heightOf {x : BlockHash} {i : Nat} (h : c.heightOf x = some i) :
    c.stopAt (some x) = i + 1 := by
  rw [stopAt, bind_some, h]

theorem stopAt_none : c.stopAt none = c.blocks.length := rfl

theorem height_of_slice {start stop i : Nat} {x : BlockHash}
    (h : ((c.slice start stop).map (·.hash))[i]? = some x) :
    c.heightOf x = some (start + i) ∧ start + i < stop := by
  rw [getElem?_map, slice_getElem?, map_eq_some_iff] at h
  obtain ⟨b, hb, rfl⟩ := h
  split at hb
  · exact ⟨heightOf_of_getElem? hb, ‹_›⟩
  · exact absurd hb nofun

end PowChain

namespace Shown

variable {chain : Option Chain} {db : ZebraDb} {best : PowChain} (s : Shown chain db best)
  (x : BlockHash)

theorem heightRange_stop (best : PowChain) (start : Nat) {final : Nat}
    (hfinal : final < best.blocks.length) (stop : Option BlockHash) :
    (match stop.bind fun hash => best.heightOf hash with
      | some stop_height => Read.heightRange start (min final stop_height)
      | none => Read.heightRange start final) =
      range' start (min (final + 1) (best.stopAt stop) - start) := by
  unfold stopAt
  cases hstop : stop.bind best.heightOf with
  | none => simp [Read.heightRange, Nat.min_eq_left hfinal]
  | some h => simp [Read.heightRange, Nat.add_min_add_right]

theorem mapWhile_heights (x : BlockHash) (stop : Option BlockHash) (max_len : Nat) {β : Type}
    (f : ContextuallyVerifiedBlock → β) {g : Nat → Option β}
    (hg : ∀ i, g i = best.blocks[i]?.map f) : Read.mapWhile g (range' (best.startAt x)
        (min (best.startAt x + max_len) (best.stopAt stop) - best.startAt x)) =
      (best.slice (best.startAt x) (min (best.startAt x + max_len) (best.stopAt stop))).map f := by
  have hstart := best.startAt_le x
  have hstop := best.stopAt_le stop
  rw [mapWhile_range best.blocks f hg _ _ (by omega), slice_eq]

include s

theorem intersection :
    Read.find_chain_intersection chain db [x] = if (best.heightOf x).isSome then some x else none := by
  unfold Read.find_chain_intersection
  split
  · rename_i h
    have hempty : best.blocks = [] := by
      rw [← s.chain_none (Option.isNone_iff_eq_none.mp h.1)]
      exact isEmpty_iff.mp h.2
    rw [if_neg]
    simp [heightOf, hempty]
  · rw [find?_singleton, s.contains_hash]

variable (stop : Option BlockHash) {max_len : Nat} (hpos : 0 < max_len)
include hpos

theorem height_range :
    Read.find_chain_height_range chain db (Read.find_chain_intersection chain db [x]) stop max_len =
      range' (best.startAt x)
        (min (best.startAt x + max_len) (best.stopAt stop) - best.startAt x) := by
  unfold Read.find_chain_height_range
  simp only [s.height_by_hash, s.intersection]
  have hstop := best.stopAt_le stop
  cases htip : Read.tip chain db with
  | none =>
    have hlen : best.blocks.length = 0 := by
      rw [s.tip, Option.map_eq_none_iff, getLast?_eq_none_iff] at htip
      rw [htip, length_nil]
    have hzero : min (best.startAt x + max_len) (best.stopAt stop) - best.startAt x = 0 := by omega
    rw [hzero, range'_zero]
  | some tip =>
    have hlen := s.tip_height htip
    cases hx : best.heightOf x with
    | none =>
      have hstart : best.startAt x = 0 := by rw [startAt, hx]
      simp only [Option.isSome_none, Bool.false_eq_true, if_false]
      refine (heightRange_stop best 0 (by omega) stop).trans ?_
      rw [hstart]
      congr 1
      omega
    | some h =>
      have hstart : best.startAt x = h + 1 := by rw [startAt, hx]
      simp only [Option.isSome_some, if_true, hx]
      refine (heightRange_stop best (h + 1) (by omega) stop).trans ?_
      rw [hstart]
      congr 1
      omega

theorem find_chain_headers : Read.find_chain_headers chain db [x] stop max_len =
      (best.slice (best.startAt x) (min (best.startAt x + max_len) (best.stopAt stop))).map
        (·.block.header) := by
  rw [Read.find_chain_headers, Read.collect_chain_headers, s.height_range x stop hpos]
  exact mapWhile_heights x stop max_len _ s.block_header_by_height

theorem find_chain_hashes : Read.find_chain_hashes chain db [x] stop max_len =
      .ok ((best.slice (best.startAt x)
        (min (best.startAt x + max_len) (best.stopAt stop))).map (·.hash)) := by
  rw [Read.find_chain_hashes, Read.collect_chain_hashes, s.height_range x stop hpos]
  rw [mapWhile_heights x stop max_len (·.hash) fun i => by
    rw [s.hash_by_height, hashes_getElem?]]
  rw [if_neg, if_neg]
  · cases stop with
    | none => simp
    | some y =>
      intro h
      obtain ⟨i, hi⟩ := mem_iff_getElem?.mp (of_decide_eq_true h)
      rw [getElem?_dropLast] at hi
      split at hi
      · rename_i hlt
        obtain ⟨hy, -⟩ := height_of_slice hi
        rw [stopAt_of_heightOf hy, length_map,
          slice_length _ (by have := heightOf_lt hy; omega)] at hlt
        omega
      · exact absurd hi nofun
  · rw [s.intersection]
    cases hx : best.heightOf x with
    | none => simp
    | some h =>
      have hstart : best.startAt x = h + 1 := by rw [startAt, hx]
      intro hmem
      obtain ⟨i, hi⟩ := mem_iff_getElem?.mp (of_decide_eq_true hmem)
      obtain ⟨hi, -⟩ := height_of_slice hi
      rw [hx, Option.some.injEq] at hi
      omega

end Shown

/-! ## Hashes with the sums of the source

The functions in `U32` also have the assertions and the `u32` sums.
-/

namespace Read.U32

variable (p : Profile) (chain : Option Chain) (db : ZebraDb) (intersection : Option BlockHash)
  (stop : Option BlockHash) (max_len : Nat)

def find_chain_height_range : Except Abort (List Nat) := do
  assertThat (0 < max_len) "max_len must be at least 1"
  match tip chain db with
  | none => pure []
  | some (chain_tip_height, _) =>
    let range (start_height max_height : Nat) : Except Abort (List Nat) := do
      let final_height := min max_height chain_tip_height
      let final_height := ((stop.bind (height_by_hash chain db)).map (min final_height)).getD final_height
      let height_range := heightRange start_height final_height
      assertThat (height_range.length ≤ max_len)
        "a Find response must not exceed the maximum response length"
      pure height_range
    match intersection with
    | none => range 0 (max_len - 1)
    | some intersection_hash =>
      match height_by_hash chain db intersection_hash with
      | some intersection_height => do
        let start_height ← addU32 p intersection_height 1
        let max_height ← addU32 p intersection_height max_len
        range start_height max_height
      | none => pure []

def collect_chain_hashes : Except Abort (List BlockHash) := do
  let height_range ← find_chain_height_range p chain db intersection stop max_len
  let hashes := mapWhile (hash_by_height chain db) height_range
  assertThat (∀ hash ∈ intersection, hash ∉ hashes) "the list must not contain the intersection hash"
  assertThat (∀ hash ∈ stop, hash ∉ hashes.dropLast)
    "if the stop hash is in the list, it must be the final hash"
  pure hashes

def find_chain_hashes (known_blocks : List BlockHash) (stop : Option BlockHash) (max_len : Nat) :
    Except Abort (List BlockHash) :=
  collect_chain_hashes p chain db (find_chain_intersection chain db known_blocks) stop max_len

end Read.U32

section

variable {p : Profile} {chain : Option Chain} {db : ZebraDb} {best : PowChain}

def PowChain.startAfter (best : PowChain) (known : List BlockHash) : Nat :=
  (known.findSome? best.heightOf).elim 0 (· + 1)

theorem PowChain.startAt_eq (x : BlockHash) : best.startAt x = (best.heightOf x).elim 0 (· + 1) := by
  unfold startAt
  cases best.heightOf x <;> rfl

theorem PowChain.startAfter_singleton (x : BlockHash) : best.startAfter [x] = best.startAt x := by
  rw [startAfter, startAt_eq, findSome?_singleton]

theorem PowChain.startAfter_le (known : List BlockHash) : best.startAfter known ≤ best.blocks.length := by
  unfold startAfter
  cases hfound : known.findSome? best.heightOf with
  | none => exact Nat.zero_le _
  | some i =>
    obtain ⟨x, -, hx⟩ := exists_of_findSome?_eq_some hfound
    exact heightOf_lt hx

theorem Shown.blocks_empty (s : Shown chain db best) (hempty : chain.isNone ∧ db.is_empty) :
    best.blocks = [] := by
  rw [← s.chain_none (Option.isNone_iff_eq_none.mp hempty.1)]
  exact isEmpty_iff.mp hempty.2

theorem Shown.find_intersection (s : Shown chain db best) (known : List BlockHash) :
    ∃ x, Read.find_chain_intersection chain db known = Read.find_chain_intersection chain db [x] ∧
      best.startAt x = best.startAfter known := by
  have hsome : ∀ x, known.find? (Read.chain_contains_hash chain db) = some x →
      known.findSome? best.heightOf = best.heightOf x := by
    intro x hx
    induction known with
    | nil => cases hx
    | cons y rest ih =>
      rw [find?_cons, s.contains_hash] at hx
      rw [findSome?_cons]
      cases hy : best.heightOf y with
      | none =>
        rw [hy] at hx
        exact ih hx
      | some h =>
        rw [hy] at hx
        rw [← Option.some.inj hx, hy]
  obtain ⟨y, hy⟩ : ∃ y, best.heightOf y = none := by
    cases hfirst : best.blocks[0]? with
    | none =>
      refine ⟨Bytes.zero 32, PowChain.heightOf_eq_none_iff.mpr ?_⟩
      have hempty := length_eq_zero_iff.mp (Nat.le_zero.mp (getElem?_eq_none_iff.mp hfirst))
      simp [PowChain.hashes, hempty]
    | some b => exact ⟨_, PowChain.heightOf_genesis_parent hfirst⟩
  by_cases hempty : chain.isNone ∧ db.is_empty
  · refine ⟨y, by rw [Read.find_chain_intersection, if_pos hempty, Read.find_chain_intersection,
      if_pos hempty], ?_⟩
    have hnone : known.findSome? best.heightOf = none := by
      simp [findSome?_eq_none_iff, PowChain.heightOf, s.blocks_empty hempty]
    rw [PowChain.startAt_eq, PowChain.startAfter, hy, hnone]
  · have hunfold : Read.find_chain_intersection chain db known =
        known.find? (Read.chain_contains_hash chain db) := if_neg hempty
    rw [hunfold]
    cases hx : known.find? (Read.chain_contains_hash chain db) with
    | none =>
      refine ⟨y, by rw [s.intersection, hy]; rfl, ?_⟩
      have hnone : known.findSome? best.heightOf = none := by
        rw [findSome?_eq_none_iff]
        intro x hmem
        have := find?_eq_none.mp hx x hmem
        rw [s.contains_hash, Bool.not_eq_true, Option.isSome_eq_false_iff] at this
        exact Option.isNone_iff_eq_none.mp this
      rw [PowChain.startAt_eq, PowChain.startAfter, hy, hnone]
    | some x =>
      have hon := find?_some hx
      rw [s.contains_hash] at hon
      exact ⟨x, by rw [s.intersection, if_pos hon],
        by rw [PowChain.startAt_eq, PowChain.startAfter, hsome x hx]⟩

theorem u32_height_range (s : Shown chain db best) (x : BlockHash) (stop : Option BlockHash)
    {max_len : Nat} (hpos : 0 < max_len) (hfits : best.startAt x + max_len ≤ 2 ^ 32) :
    Read.U32.find_chain_height_range p chain db (Read.find_chain_intersection chain db [x]) stop
        max_len =
      .ok (Read.find_chain_height_range chain db (Read.find_chain_intersection chain db [x]) stop
        max_len) := by
  have hrange : ∀ start final : Nat, final < start + max_len →
      (do assertThat ((Read.heightRange start final).length ≤ max_len)
            "a Find response must not exceed the maximum response length"
          pure (Read.heightRange start final) : Except Abort (List Nat)) =
        .ok (Read.heightRange start final) := by
    intro start final hlt
    rw [assertThat_of]
    · rfl
    · rw [Read.heightRange, length_range']
      omega
  simp only [Read.U32.find_chain_height_range, Read.find_chain_height_range, assertThat_of _ hpos,
    s.intersection, s.height_by_hash]
  cases htip : Read.tip chain db with
  | none => rfl
  | some tip =>
    cases hx : best.heightOf x with
    | none =>
      cases hstop : stop.bind best.heightOf with
      | none => exact hrange 0 (min (max_len - 1) tip.1) (by omega)
      | some h => exact hrange 0 (min (min (max_len - 1) tip.1) h) (by omega)
    | some h =>
      rw [PowChain.startAt_eq, hx, Option.elim_some] at hfits
      simp only [Option.isSome_some, if_true, hx, addU32, if_pos (show h + 1 < 2 ^ 32 by omega),
        if_pos (show h + max_len < 2 ^ 32 by omega)]
      cases hstop : stop.bind best.heightOf with
      | none => exact hrange (h + 1) (min (h + max_len) tip.1) (by omega)
      | some h' => exact hrange (h + 1) (min (min (h + max_len) tip.1) h') (by omega)

theorem Shown.u32_find_chain_hashes (s : Shown chain db best) (known : List BlockHash)
    (stop : Option BlockHash) {max_len : Nat} (hpos : 0 < max_len)
    (hfits : best.startAfter known + max_len ≤ 2 ^ 32) :
    Read.U32.find_chain_hashes p chain db known stop max_len =
      Read.find_chain_hashes chain db known stop max_len := by
  obtain ⟨x, hx, hstart⟩ := s.find_intersection known
  have hlist := s.find_chain_hashes x stop hpos
  rw [← hstart] at hfits
  rw [Read.find_chain_hashes, ← hx] at hlist
  rw [Read.U32.find_chain_hashes, Read.U32.collect_chain_hashes, Read.find_chain_hashes, hlist, hx,
    u32_height_range s x stop hpos hfits, ← hx]
  unfold Read.collect_chain_hashes at hlist
  simp only at hlist
  split at hlist
  · cases hlist
  · next hintersection =>
    split at hlist
    · cases hlist
    · next hend =>
      simp only [Option.any_eq_true, not_exists, not_and, decide_eq_true_eq] at hintersection hend
      simp only [except_bind_ok, assertThat_ok]
      exact ⟨_, rfl, (), hintersection, (), hend, hlist⟩

end

/-! ## Known blocks -/

theorem ReadStateService.known_block {s : ReadStateService} {best : PowChain} (hs : s.Shows best)
    {x : BlockHash} {k : Read.KnownBlock}
    (h : s.call (.KnownBlock x) = .ok (.ok (.KnownBlock (some k)))) :
    best.heightOf x = some k.height ∨
      ∃ c ∈ s.non_finalized_state.chain_set.tail, c.height_by_hash x = some k.height := by
  rw [ReadStateService.call, Except.ok.injEq, Except.ok.injEq, StateResponse.KnownBlock.injEq,
    Option.or_eq_some_iff] at h
  obtain h | ⟨-, h⟩ := h
  · unfold Read.non_finalized_state_contains_block_hash at h
    split at h
    · cases h
    · rename_i best_chain side_chains hset
      have hbest : s.non_finalized_state.best_chain = some best_chain := by
        rw [NonFinalizedState.best_chain, hset, head?_cons]
      obtain ⟨r, -, -, hblocks⟩ := hs.chain_some best_chain hbest
      split at h
      · rename_i height hheight
        cases h
        exact .inl ((Shown.chain_height_iff hblocks).mp hheight).2
      · rw [map_eq_some_iff] at h
        obtain ⟨height, hheight, rfl⟩ := h
        obtain ⟨c, hc, hcx⟩ := exists_of_findSome?_eq_some hheight
        exact .inr ⟨c, by rw [hset]; exact hc, hcx⟩
  · rw [Read.finalized_state_contains_block_hash, map_eq_some_iff] at h
    obtain ⟨height, hheight, rfl⟩ := h
    exact .inl (hs.db_height_iff.mp hheight).2

end ZebraCrosslink
