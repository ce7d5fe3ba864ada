import ZebraCrosslink.State.Total

/-!
# Invalidating and reconsidering

Blocks that are invalidated are recorded under the height of the first one, and a record stays when
its blocks are reconsidered.
-/

open Rust List

namespace ZebraCrosslink

open NonFinalizedState

/-! ## Records -/

structure Records (records : InvalidatedBlocks) : Prop where
  keyed : ∀ entry ∈ records, ∃ b ∈ entry.2.head?, b.height = entry.1
  keys : (records.map (·.1)).Nodup
  count : records.length ≤ MAX_INVALIDATED_BLOCKS

section Records

variable {records : InvalidatedBlocks} {height : Nat} {blocks : List ContextuallyVerifiedBlock}

theorem Records.mem_recorded (h : Records records) :
    (height, blocks) ∈ recorded records height blocks := by
  have hcount := h.count
  unfold MAX_INVALIDATED_BLOCKS at hcount
  unfold recorded indexInsert
  dsimp only
  split
  · rename_i hany
    obtain ⟨e, he, hkey⟩ := any_eq_true.mp hany
    rw [length_map, Nat.sub_eq_zero_of_le (by unfold MAX_INVALIDATED_BLOCKS; omega), drop_zero]
    refine mem_map.mpr ⟨e, he, ?_⟩
    rw [if_pos (of_decide_eq_true hkey)]
  · rw [length_append, length_singleton, drop_append_of_le_length]
    · simp
    · unfold MAX_INVALIDATED_BLOCKS
      omega

theorem recorded_key {entry : Nat × List ContextuallyVerifiedBlock}
    (h : entry ∈ recorded records height blocks) (hkey : entry.1 = height) :
    entry = (height, blocks) := by
  have hmem := mem_of_mem_drop h
  unfold indexInsert at hmem
  split at hmem
  · obtain ⟨e, -, rfl⟩ := mem_map.mp hmem
    split at hkey
    · rename_i heq
      rw [if_pos heq]
    · rename_i hne
      exact absurd hkey hne
  · rename_i hnone
    rcases mem_append.mp hmem with hmem | hmem
    · exact absurd (any_eq_true.mpr ⟨entry, hmem, by simpa using hkey⟩) hnone
    · exact mem_singleton.mp hmem

theorem Records.recorded_same (h : Records records) (hmem : (height, blocks) ∈ records) :
    recorded records height blocks = records := by
  have hcount := h.count
  have hinsert : indexInsert records height blocks = records := by
    unfold indexInsert
    rw [if_pos (any_eq_true.mpr ⟨_, hmem, by simp⟩)]
    nth_rewrite 2 [← map_id records]
    apply map_congr_left
    intro e he
    split
    · rename_i hkey
      exact inj_on_of_nodup_map h.keys hmem he hkey.symm
    · rfl
  unfold recorded
  rw [hinsert]
  simp [Nat.sub_eq_zero_of_le hcount]

end Records

/-! ## There and back -/

section Restore

variable {name : BlockHash → Block} {db : ZebraDb} {nfs nfs' : NonFinalizedState}
  {b : ContextuallyVerifiedBlock} {c d : Chain} {x : BlockHash}
  {below above : List ContextuallyVerifiedBlock} {keep : Chain → Except Abort Bool}

theorem mem_insert_with (h : nfs.insert_with c keep = .ok nfs')
    (hcount : nfs.chain_set.length ≤ MAX_NON_FINALIZED_CHAIN_FORKS)
    (hroom : ∃ e ∈ nfs.chain_set, keep e = .ok false) :
    d ∈ nfs'.chain_set ↔ (d = c ∨ d ∈ nfs.chain_set) ∧ keep d = .ok true := by
  simp only [insert_with, except_bind_ok] at h
  obtain ⟨inserted, hins, kept, hkept, h⟩ := h
  cases h
  have hperm := insertSorted_perm hins
  have hfilter := retain_ok hkept
  have hlt : kept.length < inserted.length := by
    rw [hfilter, length_filter_lt_length_iff_exists]
    obtain ⟨e, he, hdrop⟩ := hroom
    exact ⟨e, hperm.mem_iff.mpr (mem_cons_of_mem _ he), by simp [hdrop]⟩
  have hlength := hperm.length_eq
  rw [length_cons] at hlength
  simp only [take_of_length_le (show kept.length ≤ MAX_NON_FINALIZED_CHAIN_FORKS by omega)]
  rw [hfilter, mem_filter, hperm.mem_iff, mem_cons]
  simp

theorem push_all_append (c : Chain) (l l' : List ContextuallyVerifiedBlock) :
    push_all c (l ++ l') = push_all c l >>= fun d => push_all d l' := by
  induction l generalizing c with
  | nil => rfl
  | cons b rest ih =>
    simp only [cons_append, push_all, bind_assoc]
    congr 1
    funext d
    exact ih d

theorem push_all_upper (h : push_all ⟨[]⟩ (below ++ above) = .ok (.ok ⟨below ++ above⟩)) :
    push_all ⟨below⟩ above = .ok (.ok ⟨below ++ above⟩) := by
  rw [push_all_append, exceptT_bind_ok] at h
  obtain ⟨d, hd, h⟩ := h
  have hblocks := push_all_ok hd
  obtain ⟨blocks⟩ := d
  obtain rfl : blocks = below := by simpa using hblocks
  exact h

theorem find_tip_eq {l : List Chain} (hne : ∀ d ∈ l, d.blocks ≠ []) (hc : c ∈ l)
    (hx : c.non_finalized_tip_hash = .ok x)
    (honly : ∀ d ∈ l, d.non_finalized_tip_hash = .ok x → d = c) : find_tip x l = .ok (some c) := by
  have hreturns : Returns (find_tip x l) := find_tip_returns hne
  obtain ⟨found, hfound⟩ := hreturns
  cases found with
  | some d =>
    obtain ⟨hd, hdx⟩ := find_tip_ok hfound
    rw [hfound, honly d hd hdx]
  | none =>
    exfalso
    induction l with
    | nil => cases hc
    | cons d rest ih =>
      rw [find_tip, except_bind_ok] at hfound
      obtain ⟨tip, htip, hfound⟩ := hfound
      split at hfound
      · cases hfound
      · rename_i hdiff
        rcases mem_cons.mp hc with rfl | hc
        · rw [hx] at htip
          exact hdiff (Except.ok.inj htip).symm
        · exact ih (fun e he => hne e (mem_cons_of_mem _ he)) hc
            (fun e he => honly e (mem_cons_of_mem _ he)) hfound

theorem insert_with_count (h : nfs.insert_with c keep = .ok nfs') :
    nfs'.chain_set.length ≤ MAX_NON_FINALIZED_CHAIN_FORKS := by
  simp only [insert_with, except_bind_ok] at h
  obtain ⟨inserted, -, kept, -, h⟩ := h
  cases h
  exact length_take_le _ _

theorem insert_with_nodup (h : nfs.insert_with c keep = .ok nfs') (hnodup : nfs.chain_set.Nodup)
    (hnew : c ∉ nfs.chain_set) : nfs'.chain_set.Nodup := by
  simp only [insert_with, except_bind_ok] at h
  obtain ⟨inserted, hins, kept, hkept, h⟩ := h
  cases h
  have hinserted : inserted.Nodup :=
    (insertSorted_perm hins).nodup_iff.mpr (nodup_cons.mpr ⟨hnew, hnodup⟩)
  exact hinserted.sublist ((take_sublist _ _).trans (retain_sublist hkept))

end Restore

/-- A state as the operations leave it: its chains were pushed block by block, and hashes name
blocks. -/
structure Settled (name : BlockHash → Block) (db : ZebraDb) (nfs : NonFinalizedState) : Prop where
  path : PowPath name db.blocks
  set : ChainSet db nfs
  sorted : Sorted nfs.chain_set
  named : ∀ c ∈ nfs.chain_set, ∀ b ∈ c.blocks, Named name b
  pushed : ∀ c ∈ nfs.chain_set, push_all ⟨[]⟩ c.blocks = .ok (.ok c)
  records : Records nfs.invalidated_blocks
  recorded : ∀ entry ∈ nfs.invalidated_blocks, ∀ b ∈ entry.2, Named name b

namespace Settled

variable {name : BlockHash → Block} {db : ZebraDb} {nfs nfs₁ : NonFinalizedState}
  {b : ContextuallyVerifiedBlock} {d : Chain} {below above : List ContextuallyVerifiedBlock}

section

variable (h : Settled name db nfs)
include h

theorem tracked : Tracked name db.blocks nfs.chain_set :=
  h.set.tracked h.path h.named h.sorted

theorem chain_nodup : nfs.chain_set.Nodup := by
  apply Pairwise.imp ?_ h.tracked.apart
  intro c d hapart heq
  rw [heq] at hapart
  exact hapart.1 (prefix_refl _)

theorem cut_not_mem (hc : ⟨below ++ b :: above⟩ ∈ nfs.chain_set) :
    (⟨below⟩ : Chain) ∉ nfs.chain_set := by
  intro hmem
  have hdiff : (⟨below⟩ : Chain) ≠ ⟨below ++ b :: above⟩ := by simp
  exact (h.tracked.apart.forall hmem hc hdiff).1 (prefix_append _ _)

theorem invalidate_eq
    (hfind : nfs.find_chain (fun c => c.contains_block_hash b.hash) = some ⟨below ++ b :: above⟩)
    (hbelow : below ≠ []) :
    ∃ left : NonFinalizedState, nfs.invalidate_block b.hash = .ok (.ok b.hash, left) ∧
      left.invalidated_blocks =
        ZebraCrosslink.recorded nfs.invalidated_blocks b.height (b :: above) ∧
      (∀ d, d ∈ left.chain_set ↔
        d = ⟨below⟩ ∨ d ∈ nfs.chain_set ∧ d.contains_block_hash b.hash = false) ∧
      Sorted left.chain_set ∧ left.chain_set.Nodup ∧
      left.chain_set.length ≤ MAX_NON_FINALIZED_CHAIN_FORKS := by
  have hc := mem_of_find?_eq_some hfind
  have hnew := h.cut_not_mem hc
  obtain ⟨left, hout, hins, -⟩ := h.tracked.take_out_returns hc hbelow
  obtain ⟨hinv, -, hsorted⟩ := insert_with_ok hins
  have hx := contains_block_hash_of_mem (c := ⟨below ++ b :: above⟩) (b := b) (by simp)
  have hcut : (Chain.mk below).contains_block_hash b.hash = false := by
    rw [← Bool.not_eq_true]
    intro hx
    obtain ⟨a, ha, heq⟩ := mem_of_contains_block_hash hx
    exact (hash_ne_of_split (h.tracked.path _ hc)).1 a ha heq
  have hnodup := insert_with_nodup hins h.chain_nodup hnew
  have hcount := insert_with_count hins
  refine ⟨{ left with invalidated_blocks :=
      ZebraCrosslink.recorded nfs.invalidated_blocks b.height (b :: above) }, ?_, rfl, ?_,
    hsorted h.sorted, hnodup, hcount⟩
  · unfold invalidate_block
    simp only [hfind, hout, bind, Except.bind, pure, Except.pure, hinv]
    rfl
  · intro d
    rw [mem_insert_with hins h.set.count ⟨_, hc, by simp [hx]⟩]
    constructor
    · rintro ⟨rfl | hd, hkeep⟩
      · exact .inl rfl
      · exact .inr ⟨hd, by simpa using hkeep⟩
    · rintro (rfl | ⟨hd, hkeep⟩)
      · exact ⟨.inl rfl, by simp [hcut]⟩
      · exact ⟨.inr hd, by simp [hkeep]⟩

theorem find_record (hb : Named name b) :
    (ZebraCrosslink.recorded nfs.invalidated_blocks b.height (b :: above)).find?
      (fun entry => entry.2.head?.any fun r => r.hash = b.hash) = some (b.height, b :: above) := by
  have hmem : (b.height, b :: above) ∈
      ZebraCrosslink.recorded nfs.invalidated_blocks b.height (b :: above) :=
    h.records.mem_recorded
  have hsome : ((ZebraCrosslink.recorded nfs.invalidated_blocks b.height (b :: above)).find?
      (fun entry => entry.2.head?.any fun r => r.hash = b.hash)).isSome := by
    rw [find?_isSome]
    exact ⟨_, hmem, by simp⟩
  obtain ⟨entry, hentry⟩ := Option.isSome_iff_exists.mp hsome
  have hx := find?_some hentry
  have hin := mem_of_find?_eq_some hentry
  rw [hentry]
  rcases of_mem_recorded hin with hold | rfl
  · obtain ⟨r, hr, hkey⟩ := h.records.keyed entry hold
    have hrb : r.hash = b.hash := by simpa [Option.mem_def.mp hr] using hx
    obtain rfl := (h.recorded entry hold r (mem_of_head? hr)).eq_of_hash hb hrb
    rw [recorded_key hin hkey.symm]
  · rfl

end

end Settled

/-! The part of a chain below a block: its tip is the parent of the block. -/

section Cut

variable {name : BlockHash → Block} {db : ZebraDb} {left nfs₂ : NonFinalizedState}
  {b : ContextuallyVerifiedBlock} {d : Chain} {below above : List ContextuallyVerifiedBlock}

variable (h : PowPath name (db.blocks ++ (below ++ b :: above)))
include h

theorem parent_is_tip : b.block.header.previous_block_hash = tipHash (db.blocks ++ below) := by
  exact h.through_split.prev_last

theorem cut_tip_hash (hbelow : below ≠ []) :
    (Chain.mk below).non_finalized_tip_hash = .ok b.block.header.previous_block_hash := by
  have hlast := getLast?_eq_some_getLast hbelow
  rw [non_finalized_tip_hash_eq hlast, parent_is_tip h, tipHash_getLast (c := ⟨below⟩) hlast]

theorem eq_cut_of_tip (hd : PowPath name (db.blocks ++ d.blocks))
    (htip : d.non_finalized_tip_hash = .ok b.block.header.previous_block_hash) : d = ⟨below⟩ := by
  have hcut : PowPath name (db.blocks ++ below ++ b :: above) := by simpa using h
  apply eq_of_tip hd hcut.left
  rw [tipHash_of_tip htip, parent_is_tip h]

theorem reconsider_parent_eq (hbelow : below ≠ [])
    (hpath : ∀ d ∈ left.chain_set, PowPath name (db.blocks ++ d.blocks))
    (hne : ∀ d ∈ left.chain_set, d.blocks ≠ []) (hmem : ⟨below⟩ ∈ left.chain_set) :
    left.reconsider_parent b.hash b.block.header.previous_block_hash db = .ok (.ok ⟨below⟩) := by
  have hcut : PowPath name (db.blocks ++ below ++ b :: above) := by simpa using h
  have hfinal : b.block.header.previous_block_hash ≠ db.finalized_tip_hash := by
    rw [parent_is_tip h, ZebraDb.finalized_tip_hash_eq]
    intro heq
    have hsame := hcut.left.eq_of_tipHash hcut.left.left heq
    simp [hbelow] at hsame
  have hfind : find_tip b.block.header.previous_block_hash left.chain_set = .ok (some ⟨below⟩) :=
    find_tip_eq hne hmem (cut_tip_hash h hbelow) fun d hd htip => eq_cut_of_tip h (hpath d hd) htip
  unfold reconsider_parent parent_chain
  rw [if_neg hfinal, hfind]
  rfl

theorem tipIsNot_cut (hbelow : below ≠ []) :
    tipIsNot b.block.header.previous_block_hash ⟨below⟩ = .ok false := by
  unfold tipIsNot
  simp [cut_tip_hash h hbelow, bind, Except.bind, pure, Except.pure]

theorem tipIsNot_other (hd : PowPath name (db.blocks ++ d.blocks)) (hne : d.blocks ≠ [])
    (hdiff : d ≠ ⟨below⟩) : tipIsNot b.block.header.previous_block_hash d = .ok true := by
  have htip := non_finalized_tip_hash_eq (getLast?_eq_some_getLast hne)
  unfold tipIsNot
  rw [htip]
  simp only [bind, Except.bind, pure, Except.pure, Except.ok.injEq, decide_eq_true_eq]
  intro heq
  exact hdiff (eq_cut_of_tip h hd (htip.trans (congrArg _ heq)))

end Cut

namespace Settled

variable {name : BlockHash → Block} {db : ZebraDb} {nfs left : NonFinalizedState}
  {b : ContextuallyVerifiedBlock} {below above : List ContextuallyVerifiedBlock}

theorem reconsider_eq (h : Settled name db nfs) (hc : ⟨below ++ b :: above⟩ ∈ nfs.chain_set)
    (hbelow : below ≠ []) (hrecords : left.invalidated_blocks =
      ZebraCrosslink.recorded nfs.invalidated_blocks b.height (b :: above))
    (hleft : ∀ d, d ∈ left.chain_set ↔
      d = ⟨below⟩ ∨ d ∈ nfs.chain_set ∧ d.contains_block_hash b.hash = false)
    (hsorted : Sorted left.chain_set) (hnodup : left.chain_set.Nodup)
    (hcount : left.chain_set.length ≤ MAX_NON_FINALIZED_CHAIN_FORKS) :
    ∃ nfs₂, left.reconsider_block b.hash db = .ok (.ok nfs₂) ∧
      (∀ d, d ∈ nfs₂.chain_set ↔ d = ⟨below ++ b :: above⟩ ∨
        d ∈ nfs.chain_set ∧ d.contains_block_hash b.hash = false) ∧
      nfs₂.invalidated_blocks = kept_records db left.invalidated_blocks := by
  have hwhole := h.tracked.path _ hc
  have hx := contains_block_hash_of_mem (c := ⟨below ++ b :: above⟩) (b := b) (by simp)
  have hcut : PowPath name (db.blocks ++ below ++ b :: above) := by simpa using hwhole
  have hpath : ∀ d ∈ left.chain_set, PowPath name (db.blocks ++ d.blocks) := by
    intro d hd
    rcases (hleft d).mp hd with rfl | ⟨hd, -⟩
    · exact hcut.left
    · exact h.tracked.path d hd
  have hne : ∀ d ∈ left.chain_set, d.blocks ≠ [] := by
    intro d hd
    rcases (hleft d).mp hd with rfl | ⟨hd, -⟩
    · exact hbelow
    · exact h.tracked.nonempty d hd
  have hmem : ⟨below⟩ ∈ left.chain_set := (hleft _).mpr (.inl rfl)
  have hnew : (⟨below ++ b :: above⟩ : Chain) ∉ left.chain_set := by
    intro hin
    rcases (hleft _).mp hin with heq | ⟨-, hno⟩
    · simp at heq
    · rw [hno] at hx
      cases hx
  have hinsert : Returns (insert_with
      { left with invalidated_blocks := kept_records db left.invalidated_blocks }
      ⟨below ++ b :: above⟩ (tipIsNot b.block.header.previous_block_hash)) := by
    apply insert_with_returns
    · exact hpath
    · exact hne
    · exact strict_of_nodup hpath hne hsorted hnodup
    · exact hwhole
    · simp
    · exact hnew
    · intro d hd
      exact tipIsNot_returns hd
  obtain ⟨nfs₂, hnfs₂⟩ := hinsert
  refine ⟨nfs₂, ?_, ?_, (insert_with_ok hnfs₂).1⟩
  · unfold reconsider_block
    rw [hrecords, h.find_record (h.named _ hc b (by simp))]
    dsimp only
    rw [exceptT_bind_of_ok (reconsider_parent_eq hwhole hbelow hpath hne hmem),
      push_all_upper (h.pushed _ hc)]
    rw [hrecords] at hnfs₂
    exact liftAbort_ok.mpr hnfs₂
  · intro d
    rw [mem_insert_with hnfs₂ hcount ⟨_, hmem, tipIsNot_cut hwhole hbelow⟩]
    constructor
    · rintro ⟨rfl | hd, hkeep⟩
      · exact .inl rfl
      · rcases (hleft d).mp hd with rfl | hd
        · rw [tipIsNot_cut hwhole hbelow] at hkeep
          cases hkeep
        · exact .inr hd
    · rintro (rfl | hd)
      · refine ⟨.inl rfl, tipIsNot_other hwhole hwhole (by simp) (by simp)⟩
      · refine ⟨.inr ((hleft d).mpr (.inr hd)), ?_⟩
        apply tipIsNot_other hwhole (h.tracked.path d hd.1) (h.tracked.nonempty d hd.1)
        rintro rfl
        exact h.cut_not_mem hc hd.1

end Settled

def Restores (db : ZebraDb) (nfs : NonFinalizedState) (x : BlockHash) : Prop :=
  ∃ nfs₁ nfs₂, nfs.invalidate_block x = .ok (.ok x, nfs₁) ∧
    nfs₁.reconsider_block x db = .ok (.ok nfs₂) ∧
    (∀ c, c ∈ nfs₂.chain_set ↔ c ∈ nfs.chain_set) ∧
    ∀ entry, entry ∈ nfs₂.invalidated_blocks ↔ entry ∈ nfs.invalidated_blocks

/-- The block is above the root of a single chain, and its record is there before. -/
structure Restorable (db : ZebraDb) (nfs : NonFinalizedState) (x : BlockHash) : Prop where
  not_root : ∀ c ∈ nfs.chain_set, ∀ b ∈ c.blocks.head?, b.hash ≠ x
  one_chain : ∀ c ∈ nfs.chain_set, ∀ d ∈ nfs.chain_set, c.contains_block_hash x = true →
    d.contains_block_hash x = true → c = d
  recorded : ∀ c ∈ nfs.chain_set, ∀ b ∈ c.blocks, b.hash = x →
    (b.height, c.child_blocks b.height) ∈ nfs.invalidated_blocks
  not_final : ∀ entry ∈ nfs.invalidated_blocks, ∀ tip ∈ db.finalized_tip_height, tip ≤ entry.1

theorem tip_height_eq {db : ZebraDb} {tip : Nat} (htip : tip ∈ db.finalized_tip_height) :
    tip + 1 = db.blocks.length := by
  unfold ZebraDb.finalized_tip_height ZebraDb.tip at htip
  cases hlast : db.blocks.getLast? with
  | none => simp [hlast] at htip
  | some b =>
    have hpos := length_pos_of_mem (mem_of_getLast? hlast)
    simp only [hlast, Option.map_some, Option.mem_def, Option.some.injEq] at htip
    omega

section Restores

variable {name : BlockHash → Block} {db : ZebraDb} {nfs : NonFinalizedState}
  {b : ContextuallyVerifiedBlock} {x : BlockHash} {below above : List ContextuallyVerifiedBlock}

theorem invalidate_root_panics
    (hfind : nfs.find_chain (fun c => c.contains_block_hash b.hash) = some ⟨b :: above⟩) :
    ∃ abort, nfs.invalidate_block b.hash = .error abort := by
  obtain ⟨abort, habort⟩ := Chain.cmp_self ⟨b :: above⟩
  refine ⟨abort, ?_⟩
  unfold invalidate_block
  simp [hfind, take_out, Chain.non_finalized_root_hash, habort, bind, Except.bind]

theorem Settled.there_and_back (h : Settled name db nfs)
    (hfind : nfs.find_chain (fun c => c.contains_block_hash b.hash) = some ⟨below ++ b :: above⟩)
    (hbelow : below ≠ []) : ∃ nfs₁ nfs₂, nfs.invalidate_block b.hash = .ok (.ok b.hash, nfs₁) ∧
      nfs₁.reconsider_block b.hash db = .ok (.ok nfs₂) ∧
      (∀ d, d ∈ nfs₂.chain_set ↔ d = ⟨below ++ b :: above⟩ ∨
        d ∈ nfs.chain_set ∧ d.contains_block_hash b.hash = false) ∧
      nfs₂.invalidated_blocks = kept_records db
        (ZebraCrosslink.recorded nfs.invalidated_blocks b.height (b :: above)) := by
  have hc := mem_of_find?_eq_some hfind
  obtain ⟨nfs₁, hinvalidate, hrecorded, hleft, hsorted, hnodup, hcount⟩ :=
    h.invalidate_eq hfind hbelow
  obtain ⟨nfs₂, hreconsider, hmem, hrecords⟩ :=
    h.reconsider_eq hc hbelow hrecorded hleft hsorted hnodup hcount
  rw [hrecorded] at hrecords
  exact ⟨nfs₁, nfs₂, hinvalidate, hreconsider, hmem, hrecords⟩

theorem Settled.restores_iff (h : Settled name db nfs)
    (hx : ∃ c ∈ nfs.chain_set, c.contains_block_hash x = true) :
    Restores db nfs x ↔ Restorable db nfs x := by
  have hfound : (nfs.find_chain fun c => c.contains_block_hash x).isSome := by
    rw [find_chain, find?_isSome]
    exact hx
  obtain ⟨⟨blocks⟩, hfind⟩ := Option.isSome_iff_exists.mp hfound
  have hc := mem_of_find?_eq_some hfind
  have hcx := find?_some hfind
  obtain ⟨b, hb, rfl⟩ := mem_of_contains_block_hash hcx
  obtain ⟨below, above, hsplit⟩ := append_of_mem hb
  simp only at hsplit
  subst hsplit
  have hpath := h.tracked.path _ hc
  have hbc := contains_block_hash_of_mem hb
  constructor
  · rintro ⟨nfs₁, nfs₂, hinvalidate, hreconsider, hset, hrecords⟩
    have hbelow : below ≠ [] := by
      rintro rfl
      obtain ⟨abort, habort⟩ := invalidate_root_panics hfind
      cases habort.symm.trans hinvalidate
    obtain ⟨nfs₁', nfs₂', hinvalidate', hreconsider', hset', hrecords'⟩ :=
      h.there_and_back hfind hbelow
    obtain ⟨-, rfl⟩ := Prod.mk.inj (Except.ok.inj (hinvalidate.symm.trans hinvalidate'))
    cases hreconsider.symm.trans hreconsider'
    have hone : ∀ d ∈ nfs.chain_set, d.contains_block_hash b.hash = true →
        d = ⟨below ++ b :: above⟩ := by
      intro d hd hdb
      rcases (hset' d).mp ((hset d).mpr hd) with heq | ⟨-, hno⟩
      · exact heq
      · rw [hno] at hdb
        cases hdb
    simp only [hrecords', mem_kept_records] at hrecords
    refine ⟨?_, ?_, ?_, ?_⟩
    · intro d hd r hr hrb
      have hdc := hone d hd (hrb ▸ contains_block_hash_of_mem (mem_of_head? hr))
      rw [hdc, head?_append_of_ne_nil _ hbelow] at hr
      exact (hash_ne_of_split hpath).1 r (mem_of_head? hr) hrb
    · intro d hd e he hdb heb
      rw [hone d hd hdb, hone e he heb]
    · intro d hd a ha hab
      obtain rfl := hone d hd (hab ▸ contains_block_hash_of_mem ha)
      obtain rfl := (h.named _ hd a ha).eq_of_hash (h.named _ hc b hb) hab
      rw [child_blocks_eq hpath]
      refine (hrecords _).mp ⟨h.records.mem_recorded, ?_⟩
      intro tip htip
      have hheight := hpath.height_split
      have hlength := tip_height_eq htip
      dsimp only
      omega
    · intro entry hentry
      exact ((hrecords entry).mpr hentry).2
  · intro hr
    have hbelow : below ≠ [] := by
      rintro rfl
      exact hr.not_root _ hc b rfl rfl
    obtain ⟨nfs₁, nfs₂, hinvalidate, hreconsider, hset, hrecords⟩ := h.there_and_back hfind hbelow
    have hrecorded := hr.recorded _ hc b hb rfl
    rw [child_blocks_eq hpath] at hrecorded
    refine ⟨nfs₁, nfs₂, hinvalidate, hreconsider, ?_, ?_⟩
    · intro d
      rw [hset d]
      constructor
      · rintro (rfl | ⟨hd, -⟩)
        · exact hc
        · exact hd
      · intro hd
        cases hdb : d.contains_block_hash b.hash with
        | true => exact .inl (hr.one_chain d hd _ hc hdb hbc)
        | false => exact .inr ⟨hd, rfl⟩
    · intro entry
      rw [hrecords, h.records.recorded_same hrecorded, mem_kept_records]
      exact ⟨fun hentry => hentry.1, fun hentry => ⟨hentry, hr.not_final entry hentry⟩⟩

end Restores

/-! ## Refusals -/

def Verdict.refusal {α : Type} (v : Verdict α) : Option BlockHash :=
  match v with
  | .ok (.error (.BlockPreviouslyInvalidated y)) => some y
  | _ => none

theorem Verdict.refusal_eq_some {α : Type} {v : Verdict α} {y : BlockHash} :
    v.refusal = some y ↔ v = .ok (.error (.BlockPreviouslyInvalidated y)) := by
  constructor
  · intro h
    unfold Verdict.refusal at h
    split at h
    · rw [Option.some.inj h]
    · cases h
  · rintro rfl
    rfl

def NotRefused {α : Type} (v : Verdict α) : Prop :=
  ∀ y, v ≠ .ok (.error (.BlockPreviouslyInvalidated y))

section Refused

variable {α β : Type} {rules : ContextRules} {db : ZebraDb} {nfs : NonFinalizedState}
  {b : SemanticallyVerifiedBlock} {c : Chain} {f : α → Verdict β}

theorem notRefused_of {v : Verdict α} (h : v.refusal = none) : NotRefused v := by
  intro y heq
  rw [Verdict.refusal_eq_some.mpr heq] at h
  cases h

theorem NotRefused.bind {v : Verdict α} (hv : NotRefused v)
    (hf : ∀ a, v = .ok (.ok a) → NotRefused (f a)) : NotRefused (v >>= f) := by
  intro y h
  rcases (exceptT_bind_error _ _ _).mp h with h | ⟨a, ha, h⟩
  · exact hv y h
  · exact hf a ha y h

theorem notRefused_liftAbort (x : Except Abort α) : NotRefused (liftAbort x : Verdict α) := by
  intro y h
  cases x <;> cases h

/-- The call returns, and with no refusal. -/
structure Mild (v : Verdict α) : Prop where
  returns : Returns v.run
  notRefused : NotRefused v

theorem mild_of {r : Except ValidateContextError α} (h : Verdict.refusal (.ok r) = none) :
    Mild (.ok r : Verdict α) :=
  ⟨.ok r, notRefused_of h⟩

theorem Mild.bind {v : Verdict α} (hv : Mild v) (hf : ∀ a, Mild (f a)) : Mild (v >>= f) :=
  ⟨hv.returns.exceptT_bind fun a _ => (hf a).returns, hv.notRefused.bind fun a _ => (hf a).notRefused⟩

theorem mild_rule (broken : Option String) : Mild (Verdict.rule broken) := by
  cases broken <;> exact mild_of rfl

namespace check

theorem mild_no_duplicates : Mild (no_duplicates_in_finalized_chain b db) := by
  unfold no_duplicates_in_finalized_chain
  dsimp only
  split
  · exact mild_of rfl
  split
  · exact mild_of rfl
  split <;> exact mild_of rfl

theorem notRefused_initial : NotRefused (initial_contextual_validity rules db nfs b) := by
  unfold initial_contextual_validity
  apply NotRefused.bind ?_ fun _ _ => mild_no_duplicates.notRefused
  unfold block_is_valid_for_recent_chain
  split
  · exact notRefused_of rfl
  split
  · exact notRefused_of rfl
  dsimp only
  split
  · exact notRefused_of rfl
  split
  · exact notRefused_of rfl
  split
  · exact notRefused_of rfl
  · exact (mild_rule _).notRefused

theorem mild_spend (b : SemanticallyVerifiedBlock) (c : Chain) (db : ZebraDb) :
    Mild (transparent_spend b c db) := by
  have horder (i : Nat) (o : OutPoint) :
      Mild (transparent_spend_chain_order b.block.transactions c db i o) := by
    unfold transparent_spend_chain_order
    split
    · split <;> exact mild_of rfl
    · split
      · exact mild_of rfl
      · split <;> exact mild_of rfl
  have hspends (i : Nat) (seen spends : List OutPoint) : Mild
      (transaction_spends (transparent_spend_chain_order b.block.transactions c db i) seen spends) := by
    induction spends generalizing seen with
    | nil => exact mild_of rfl
    | cons o rest ih =>
      unfold transaction_spends
      apply (horder i o).bind
      intro _
      split
      · exact mild_of rfl
      · exact ih _
  have hblock (i : Nat) (seen : List OutPoint) (txs : List Transaction) : Mild
      (block_spends (transparent_spend_chain_order b.block.transactions c db) i seen txs) := by
    induction txs generalizing i seen with
    | nil => exact mild_of rfl
    | cons tx rest ih =>
      unfold block_spends
      exact (hspends _ _ _).bind fun _ => ih _ _
  exact hblock _ _ _

end check

theorem notRefused_update (before txs : List Transaction) :
    NotRefused (update_with_transactions before txs) := by
  induction txs generalizing before with
  | nil => exact notRefused_of rfl
  | cons tx rest ih =>
    unfold update_with_transactions
    apply NotRefused.bind ?_ fun _ _ => ih _
    unfold update_with_transaction
    split
    · exact notRefused_of rfl
    · exact notRefused_of rfl
    · exact notRefused_of rfl
    split
    · exact notRefused_of rfl
    split
    · exact notRefused_of rfl
    split
    · exact notRefused_of rfl
    split
    · exact notRefused_of rfl
    split
    · exact notRefused_of rfl
    split <;> exact notRefused_of rfl

theorem notRefused_push : NotRefused (c.push b) := by
  unfold Chain.push
  split
  · exact notRefused_of rfl
  split
  · exact notRefused_of rfl
  split
  · exact notRefused_of rfl
  · exact NotRefused.bind (notRefused_update _ _) fun _ _ => notRefused_of rfl

theorem notRefused_parent_chain (x : BlockHash) : NotRefused (nfs.parent_chain x) := by
  unfold parent_chain
  apply NotRefused.bind (notRefused_liftAbort _)
  intro found _
  cases found with
  | some chain => exact notRefused_of rfl
  | none =>
    apply NotRefused.bind (notRefused_liftAbort _)
    intro forked _
    cases forked <;> exact notRefused_of rfl

theorem notRefused_commit (h : ∀ entry ∈ nfs.invalidated_blocks, entry.1 ≠ b.height) :
    NotRefused (validate_and_commit_non_finalized rules db nfs b) := by
  have hnone : (nfs.invalidated_blocks.any fun entry => entry.1 = b.height) = false := by
    rw [any_eq_false]
    intro entry hentry
    simpa using h entry hentry
  have hcommit (c : Chain) : NotRefused (nfs.validate_and_commit rules c b db) := by
    unfold validate_and_commit
    rw [hnone, if_neg Bool.false_ne_true]
    apply NotRefused.bind (check.mild_spend b c db).notRefused
    intro _ _
    apply NotRefused.bind (mild_rule _).notRefused
    intro _ _
    unfold validate_and_update_parallel
    apply NotRefused.bind (notRefused_liftAbort _)
    intro pushed hpushed
    have hpush : c.push b = .ok pushed := liftAbort_ok.mp hpushed
    apply NotRefused.bind (mild_rule _).notRefused
    intro _ _ y heq
    exact notRefused_push y (hpush.trans heq)
  unfold validate_and_commit_non_finalized
  apply NotRefused.bind check.notRefused_initial
  intro _ _
  split
  · unfold commit_new_chain
    split
    · exact notRefused_of rfl
    · exact NotRefused.bind (hcommit _) fun _ _ => notRefused_liftAbort _
  · unfold commit_block
    apply NotRefused.bind (notRefused_parent_chain _)
    intro parent _
    exact NotRefused.bind (hcommit _) fun _ _ => notRefused_liftAbort _

end Refused

end ZebraCrosslink
