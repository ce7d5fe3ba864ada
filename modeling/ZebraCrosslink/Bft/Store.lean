import Mathlib
import ZebraCrosslink.Bft.Steps

/-!
# The store of BFT blocks

The store is filled with placeholders up to a height that nothing has checked, and only then do the
assertions run.
-/

open Rust List Bytes

namespace ZebraCrosslink

variable {E : Type} {C : Crypto} {S : Set BftBlock} {s s' : TFLServiceInternal} (blocks : List BftBlock)
  (i : Nat)

/-! ## The hash assumption -/

/-- No two blocks of `S` share a hash, and none has the hash zero. -/
structure CollisionFree (C : Crypto) (S : Set BftBlock) : Prop where
  inj : ∀ a ∈ S, ∀ b ∈ S, ∀ h, a.blake3_hash C = .ok h → b.blake3_hash C = .ok h → a = b
  nonzero : ∀ a ∈ S, a.blake3_hash C ≠ .ok (zero 32)

def writtenBlocks (bs : List BftBlock) : Set BftBlock :=
  { b | b ∈ bs ∨ ∃ i, b = BftBlock.placeholder i }

theorem CollisionFree.mono {T : Set BftBlock} (h : CollisionFree C T) (hST : S ⊆ T) :
    CollisionFree C S :=
  ⟨fun a ha b hb => h.inj a (hST ha) b (hST hb), fun a ha => h.nonzero a (hST ha)⟩

theorem writtenBlocks_append (bs : List BftBlock) (b : BftBlock) :
    writtenBlocks bs ⊆ writtenBlocks (bs ++ [b]) := by
  rintro a (ha | ha)
  · exact .inl (mem_append_left _ ha)
  · exact .inr ha

/-! ## The invariant -/

def pointsBack (C : Crypto) (a b : BftBlock) : Prop :=
  a.blake3_hash C = .ok b.previous_block_fat_ptr.points_at_block_hash

/-- The fat pointer to the tip points at the last block, and is null when there is none. -/
def tipPointer (C : Crypto) (blocks : List BftBlock) (fp : FatPointerToBftBlock2) : Prop :=
  match blocks.getLast? with
  | none => fp = FatPointerToBftBlock.null
  | some b => b.blake3_hash C = .ok fp.points_at_block_hash

structure StoreInv (C : Crypto) (s : TFLServiceInternal) : Prop where
  height : ∀ i (h : i < s.bft_blocks.length), s.bft_blocks[i].height.toNat = i + 1
  headers : ∀ b ∈ s.bft_blocks, b.headers ≠ []
  linked : s.bft_blocks.IsChain (pointsBack C)
  tip : tipPointer C s.bft_blocks s.fat_pointer_to_tip

theorem StoreInv.congr (h : StoreInv C s) (hb : s'.bft_blocks = s.bft_blocks)
    (hf : s'.fat_pointer_to_tip = s.fat_pointer_to_tip) : StoreInv C s' := by
  obtain ⟨h₁, h₂, h₃, h₄⟩ := h
  rw [← hb] at h₂ h₃
  refine ⟨?_, h₂, h₃, by rwa [hb, hf]⟩
  intro i hi
  have hi' : i < s.bft_blocks.length := hb ▸ hi
  simpa [hb] using h₁ i hi'

theorem storeInv_spawn (C : Crypto) (is_regtest : Bool) (peers : List (MalPublicKey × String))
    (own : MalPublicKey × String) : StoreInv C (spawn_new_tfl_service is_regtest peers own) where
  height i h := absurd h (Nat.not_lt_zero i)
  headers _ hb := absurd hb not_mem_nil
  linked := IsChain.nil
  tip := rfl

/-! ## Writing a block -/

theorem index_ok {α : Type} (v : List α) (i : Nat) (a : α) : index v i = .ok a ↔ v[i]? = some a := by
  unfold index
  cases v[i]? with
  | none => simp
  | some b => simp

def padded (blocks : List BftBlock) (insert_i : Nat) : List BftBlock :=
  blocks ++ (range' blocks.length (insert_i + 1 - blocks.length)).map BftBlock.placeholder

theorem padded_of_lt (h : i < blocks.length) : padded blocks i = blocks := by
  have h0 : i + 1 - blocks.length = 0 := by omega
  simp [padded, h0]

theorem padded_length : padded blocks blocks.length =
    blocks ++ [BftBlock.placeholder blocks.length] := by
  simp [padded]

theorem padded_getElem? (j : Nat) (hj : blocks.length ≤ j) (hji : j ≤ i) :
    (padded blocks i)[j]? = some (BftBlock.placeholder j) := by
  rw [padded, getElem?_append_right hj, getElem?_map, getElem?_range' (by omega)]
  simp only [Option.map_some, Nat.one_mul]
  congr 2
  omega

theorem check_parent_ok (C : Crypto) (b : BftBlock) (blocks : List BftBlock) (i : Nat) (u : Unit) :
    insert_bft_block.check_parent C b blocks i = .ok u ↔
      (0 < i → ∃ parent, blocks[i - 1]? = some parent ∧ pointsBack C parent b) := by
  unfold insert_bft_block.check_parent pointsBack
  by_cases hi : 0 < i
  · rw [if_pos hi]
    simp only [except_bind_ok, index_ok]
    constructor
    · rintro ⟨parent, hp, h, hh, hc⟩ -
      split at hc
      · rename_i heq
        exact ⟨parent, hp, heq ▸ hh⟩
      · cases hc
    · intro h
      obtain ⟨parent, hp, hh⟩ := h hi
      exact ⟨parent, hp, _, hh, by rw [if_pos rfl]; rfl⟩
  · rw [if_neg hi]
    exact ⟨fun _ h => absurd h hi, fun _ => rfl⟩

theorem insert_bft_block_ok (C : Crypto) (p : Profile) (blocks blocks' : List BftBlock)
    (b : BftBlock) : insert_bft_block C p blocks b = .ok blocks' ↔
      ∃ i slot, subUsize p b.height.toNat 1 = .ok i ∧
        (0 < i → ∃ parent, (padded blocks i)[i - 1]? = some parent ∧ pointsBack C parent b) ∧
        (i = 0 ∨ b.previous_block_hash ≠ zero 32) ∧
        (padded blocks i)[i]? = some slot ∧ slot.headers = [] ∧ b.headers ≠ [] ∧
        blocks' = (padded blocks i).set i b := by
  unfold insert_bft_block
  have hpad (i : Nat) : blocks ++ (range' blocks.length (i + 1 - blocks.length)).map
      BftBlock.placeholder = padded blocks i := rfl
  simp only [except_bind_ok, check_parent_ok, hpad]
  constructor
  · rintro ⟨i, hi, _, hparent, h⟩
    split at h
    · cases h
    rename_i hzero
    obtain ⟨slot, hslot, h⟩ := except_bind_ok.mp h
    rw [index_ok] at hslot
    split at h
    · cases h
    split at h
    · cases h
    rename_i hempty hnew
    refine ⟨i, slot, hi, hparent, by tauto, hslot, by simpa using hempty, by simpa using hnew, ?_⟩
    exact (Except.ok.inj h).symm
  · rintro ⟨i, slot, hi, hparent, hzero, hslot, hempty, hnew, rfl⟩
    refine ⟨i, hi, (), hparent, ?_⟩
    rw [if_neg (by tauto), except_bind_ok]
    refine ⟨slot, (index_ok _ _ _).mpr hslot, ?_⟩
    rw [if_neg (by simp [hempty]), if_neg (by simpa using hnew)]
    rfl

theorem subUsize_one_ok (p : Profile) (n i : Nat) (h : subUsize p n 1 = .ok i) (hi : i + 1 < 2 ^ 64) :
    n = i + 1 := by
  unfold subUsize at h
  split at h
  · have := Except.ok.inj h
    omega
  · split at h
    · cases h
    · have := Except.ok.inj h
      omega

theorem StoreInv.length_lt (h : StoreInv C s) : s.bft_blocks.length < 2 ^ 32 := by
  by_contra hlen
  have hi : 2 ^ 32 - 1 < s.bft_blocks.length := by omega
  have := h.height _ hi
  have := s.bft_blocks[2 ^ 32 - 1].height.toNat_lt
  omega

theorem StoreInv.not_placeholder (hinv : StoreInv C s) (hcf : CollisionFree C S)
    (hph : ∀ i, BftBlock.placeholder i ∈ S) (hS : ∀ b ∈ s.bft_blocks, b ∈ S) (i : Nat) :
    (BftBlock.placeholder i).blake3_hash C ≠ .ok s.fat_pointer_to_tip.points_at_block_hash := by
  intro h
  have htip := hinv.tip
  unfold tipPointer at htip
  cases hlast : s.bft_blocks.getLast? with
  | none =>
    rw [hlast] at htip
    exact hcf.nonzero _ (hph i) (by rw [h, htip]; rfl)
  | some b =>
    rw [hlast] at htip
    have hb : b ∈ s.bft_blocks := mem_of_getLast? hlast
    obtain rfl := hcf.inj _ (hS b hb) _ (hph i) _ htip h
    exact hinv.headers _ hb rfl

theorem insert_bft_block_appends (C : Crypto) (p : Profile) (S : Set BftBlock)
    (hcf : CollisionFree C S) (hph : ∀ i, BftBlock.placeholder i ∈ S) (s : TFLServiceInternal)
    (hS : ∀ b ∈ s.bft_blocks, b ∈ S) (hinv : StoreInv C s) (b : BftBlock) (blocks' : List BftBlock)
    (hprev : b.previous_block_fat_ptr.points_at_block_hash =
      s.fat_pointer_to_tip.points_at_block_hash)
    (h : insert_bft_block C p s.bft_blocks b = .ok blocks') :
    b.height.toNat = s.bft_blocks.length + 1 ∧ b.headers ≠ [] ∧ blocks' = s.bft_blocks ++ [b] := by
  obtain ⟨i, slot, hi, hparent, hzero, hslot, hempty, hnew, rfl⟩ :=
    (insert_bft_block_ok ..).mp h
  rcases lt_trichotomy i s.bft_blocks.length with hlt | rfl | hgt
  · -- an occupied slot has headers
    rw [padded_of_lt _ _ hlt, getElem?_eq_getElem hlt, Option.some_inj] at hslot
    exact absurd (hslot ▸ hempty) (hinv.headers _ (getElem_mem hlt))
  · have hlen := hinv.length_lt
    refine ⟨subUsize_one_ok p _ _ hi (by omega), hnew, ?_⟩
    simp [padded_length]
  · -- the parent slot holds a placeholder, which nothing in the store hashes like
    obtain ⟨parent, hp, hback⟩ := hparent (by omega)
    rw [padded_getElem? _ _ _ (by omega) (by omega), Option.some_inj] at hp
    rw [pointsBack, hprev, ← hp] at hback
    exact absurd hback (hinv.not_placeholder hcf hph hS _)

theorem StoreInv.append (hinv : StoreInv C s) (b : BftBlock)
    (hblocks : s'.bft_blocks = s.bft_blocks ++ [b])
    (hheight : b.height.toNat = s.bft_blocks.length + 1) (hheaders : b.headers ≠ [])
    (hprev : b.previous_block_fat_ptr.points_at_block_hash =
      s.fat_pointer_to_tip.points_at_block_hash)
    (hhash : b.blake3_hash C = .ok s'.fat_pointer_to_tip.points_at_block_hash) : StoreInv C s' where
  height i hi := by
    simp only [hblocks, length_append, length_singleton] at hi ⊢
    rcases Nat.lt_succ_iff_lt_or_eq.mp hi with hlt | rfl
    · rw [getElem_append_left hlt]
      exact hinv.height i hlt
    · simpa using hheight
  headers a ha := by
    rw [hblocks] at ha
    rcases mem_append.mp ha with ha | ha
    · exact hinv.headers a ha
    · rwa [mem_singleton.mp ha]
  linked := by
    rw [hblocks, isChain_append]
    refine ⟨hinv.linked, isChain_singleton b, ?_⟩
    intro last hlast b' hb'
    obtain rfl : b = b' := by simpa using hb'
    have htip := hinv.tip
    rw [tipPointer, hlast] at htip
    rw [pointsBack, hprev]
    exact htip
  tip := by
    rw [tipPointer, hblocks, getLast?_concat]
    exact hhash

/-! ## Runs -/

theorem Reached.storeInv {node : Node E} {start : TFLServiceInternal} {bs : List BftBlock}
    (hstart : StoreInv node.crypto start) (hnil : start.bft_blocks = [])
    (hrun : Reached node start bs s) (hcf : CollisionFree node.crypto (writtenBlocks bs)) :
    StoreInv node.crypto s ∧ s.bft_blocks = bs := by
  induction hrun with
  | start => exact ⟨hstart, hnil⟩
  | @decided bs s s' fuel b fp e e' roster run step ih =>
    obtain ⟨hinv, hbs⟩ := ih (hcf.mono (writtenBlocks_append bs b))
    obtain ⟨⟨h, x⟩, e₁, hcheck, hins, hfp, -⟩ := new_decided_leaves _ _ _ _ _ _ _ _ _ step
    obtain ⟨hhash, -, -, e₂, hval, -⟩ := (check_decided_ok ..).mp hcheck
    have hprev := ((validate_pass ..).mp hval).1
    have hS : ∀ a ∈ s.bft_blocks, a ∈ writtenBlocks (bs ++ [b]) := by
      rw [hbs]
      exact fun a ha => .inl (mem_append_left _ ha)
    obtain ⟨hheight, hheaders, hblocks⟩ := insert_bft_block_appends _ _ _ hcf
      (fun i => .inr ⟨i, rfl⟩) s hS hinv b _ hprev hins
    rw [← hfp] at hhash
    exact ⟨hinv.append b hblocks hheight hheaders hprev hhash, by rw [hblocks, hbs]⟩
  | @setFinal bs s s' x r e e' run step ih =>
    obtain ⟨hinv, hbs⟩ := ih hcf
    rcases set_finality_ok _ _ _ _ _ _ _ step with ⟨rfl, -⟩ | ⟨height, -, -, rfl⟩
    · exact ⟨hinv, hbs⟩
    · exact ⟨hinv.congr rfl rfl, hbs⟩
  | activate run ih =>
    obtain ⟨hinv, hbs⟩ := ih hcf
    exact ⟨hinv.congr rfl rfl, hbs⟩

/-! ## Reading the history back -/

theorem fat_pointer_at_ok (C : Crypto) (s : TFLServiceInternal) (hinv : StoreInv C s) (h : Nat)
    (hpos : 1 ≤ h) (b : BftBlock) (hb : s.bft_blocks[h - 1]? = some b) :
    ∃ fp, fat_pointer_to_block_at_height s.bft_blocks s.fat_pointer_to_tip h = .ok (some fp) ∧
      b.blake3_hash C = .ok fp.points_at_block_hash := by
  obtain ⟨hlt, rfl⟩ := List.getElem?_eq_some_iff.mp hb
  unfold fat_pointer_to_block_at_height
  rw [if_neg (by omega)]
  by_cases htip : h = s.bft_blocks.length
  · -- the newest block: its pointer is kept beside the store
    refine ⟨s.fat_pointer_to_tip, by rw [if_pos htip], ?_⟩
    have := hinv.tip
    rwa [tipPointer, getLast?_eq_getElem?, ← htip, hb] at this
  · -- an older block: its pointer is in the block after it
    have hlt' : h < s.bft_blocks.length := by omega
    refine ⟨s.bft_blocks[h].previous_block_fat_ptr, ?_, ?_⟩
    · rw [if_neg htip, except_bind_ok]
      exact ⟨s.bft_blocks[h], (index_ok _ _ _).mpr (getElem?_eq_getElem hlt'), rfl⟩
    · have hback := isChain_iff_getElem.mp hinv.linked (h - 1) (by omega)
      simpa [pointsBack, Nat.sub_add_cancel hpos] using hback

theorem get_historical_of_storeInv (C : Crypto) (s : TFLServiceInternal) (hinv : StoreInv C s)
    (h : Nat) (hpos : 1 ≤ h) (hlen : h ≤ s.bft_blocks.length) :
    ∃ b fp, get_historical_bft_block_at_height s h = .ok (some (b, fp)) ∧
      s.bft_blocks[h - 1]? = some b ∧ b.blake3_hash C = .ok fp.points_at_block_hash := by
  have hget : s.bft_blocks[h - 1]? = some s.bft_blocks[h - 1] := getElem?_eq_getElem (by omega)
  obtain ⟨fp, hfp, hhash⟩ := fat_pointer_at_ok C s hinv h hpos _ hget
  refine ⟨_, fp, ?_, hget, hhash⟩
  unfold get_historical_bft_block_at_height
  rw [if_neg (by omega), except_bind_ok]
  refine ⟨_, (index_ok _ _ _).mpr hget, ?_⟩
  rw [hfp]
  rfl

theorem get_historical_none (s : TFLServiceInternal) (h : Nat)
    (hout : h = 0 ∨ s.bft_blocks.length < h) :
    get_historical_bft_block_at_height s h = .ok none := by
  unfold get_historical_bft_block_at_height
  rw [if_pos (by omega)]

/-- The store holds exactly what was committed, in height order, each block pointing back at the one
before; and the history reads it back. -/
theorem bft_store_of_reached (node : Node E) (is_regtest : Bool)
    (peers : List (MalPublicKey × String)) (own : MalPublicKey × String) (bs : List BftBlock)
    (s : TFLServiceInternal) (hrun : Reached node (spawn_new_tfl_service is_regtest peers own) bs s)
    (hcf : CollisionFree node.crypto (writtenBlocks bs)) :
    StoreInv node.crypto s ∧ s.bft_blocks = bs ∧ ∀ at_height : UInt64,
        if 1 ≤ at_height.toNat ∧ at_height.toNat ≤ s.bft_blocks.length then
          ∃ b fp, get_historical_bft_block_at_height s at_height.toNat = .ok (some (b, fp)) ∧
            s.bft_blocks[at_height.toNat - 1]? = some b ∧
            b.blake3_hash node.crypto = .ok fp.points_at_block_hash
        else get_historical_bft_block_at_height s at_height.toNat = .ok none := by
  obtain ⟨hinv, hbs⟩ := Reached.storeInv (storeInv_spawn _ is_regtest peers own) rfl hrun hcf
  refine ⟨hinv, hbs, fun at_height => ?_⟩
  split
  · rename_i h
    exact get_historical_of_storeInv _ s hinv _ h.1 h.2
  · exact get_historical_none s _ (by omega)

/-! ## A small instance

Hash functions that cut their input down to 32 bytes: enough to tell the sample blocks apart. -/

namespace Sample

def fit (l : List UInt8) : Bytes 32 := ⟨(l ++ replicate 32 0).take 32, by simp⟩

def verify (_ : MalPublicKey) (sig : Bytes 64) (msg : List UInt8) : Bool := sig.val == msg.take 64

def crypto : Crypto where
  sha256d bytes := fit (bytes.drop 36)
  blake3 bytes := fit (1 :: bytes)
  verify := verify
  batch_verify items := items.all fun item => verify item.1 item.2.1 item.2.2

def id (n : UInt8) : Bytes 32 := fit [n]

def header (parent self : UInt8) : Header := .blank (id parent) (id self) 0

def bftBlock (height : UInt32) (prev : FatPointerToBftBlock2) (headers : List Header) : BftBlock where
  version := 1
  height := height
  previous_block_fat_ptr := prev
  finalization_candidate_height := 0
  headers := headers

def pointer (b : BftBlock) : FatPointerToBftBlock2 where
  vote_for_block_without_finalizer_public_key :=
    (match b.blake3_hash crypto with
      | .ok h => h
      | .error _ => zero 32).append (zero 12)
  signatures := []

def byteOrder : PubKeyOrder where
  le a b := a.toNat ≤ b.toNat
  total a b := by simpa using Nat.le_total a.toNat b.toNat
  trans a b c hab hbc := by
    rw [decide_eq_true_eq] at *
    exact hab.trans hbc
  antisymm a b hab hba := by
    rw [decide_eq_true_eq] at *
    exact eq_of_toNat (hab.antisymm hba)

def node : Node Unit where
  crypto := crypto
  order := byteOrder
  profile := .dev
  call := { state := fun req => match req with
    | .KnownBlock x => pure (.ok (.KnownBlock (some {
        location := .BestChain, height := (x.val.headD 0).toNat })))
    | _ => pure (.error "not found") }

def start : TFLServiceInternal := spawn_new_tfl_service true [] (id 1, "own")

def first : BftBlock := bftBlock 1 FatPointerToBftBlock.null [header 6 7]

def afterFirst : TFLServiceInternal := { start with
  bft_blocks := [first]
  fat_pointer_to_tip := pointer first
  latest_final_block := some (7, id 7)
  current_bc_final := some (7, id 7) }

def second : BftBlock := bftBlock 2 (pointer first) [header 7 8]

def afterSecond : TFLServiceInternal := { afterFirst with
  bft_blocks := [first, second]
  fat_pointer_to_tip := pointer second
  latest_final_block := some (8, id 8)
  current_bc_final := some (8, id 8) }

def ownRoster : List SortedRosterMember := [{ pub_key := id 1, stake := 1, cumulative_stake := 1 }]

def heightBytes (h : Bytes 32) : List UInt8 := (h.val.drop 5).take 4

theorem placeholder_heightBytes (h : Bytes 32)
    (hh : (BftBlock.placeholder i).blake3_hash crypto = .ok h) :
    heightBytes h = leBytes 4 (UInt32.ofNat i).toNat := by
  cases hh
  rfl

theorem placeholder_version (h : Bytes 32)
    (hh : (BftBlock.placeholder i).blake3_hash crypto = .ok h) : h.val[1]? = some 0 := by
  cases hh
  rfl

theorem placeholder_inj (j : Nat) (h : Bytes 32)
    (hi : (BftBlock.placeholder i).blake3_hash crypto = .ok h)
    (hj : (BftBlock.placeholder j).blake3_hash crypto = .ok h) :
    BftBlock.placeholder i = BftBlock.placeholder j := by
  have heq := (placeholder_heightBytes i h hi).symm.trans (placeholder_heightBytes j h hj)
  have hnat := congrArg ofLE heq
  rw [ofLE_leBytes 4 _ (UInt32.ofNat i).toNat_lt, ofLE_leBytes 4 _ (UInt32.ofNat j).toNat_lt] at hnat
  rw [BftBlock.placeholder, BftBlock.placeholder, UInt32.toNat_inj.mp hnat]

theorem collisionFree_of {bs : List BftBlock}
    (hversion : ∀ b ∈ bs, ∀ h, b.blake3_hash crypto = .ok h → h.val[1]? = some 1)
    (hinj : ∀ a ∈ bs, ∀ b ∈ bs, a.blake3_hash crypto = b.blake3_hash crypto → a = b) :
    CollisionFree crypto (writtenBlocks bs) where
  inj := by
    rintro a (ha | ⟨i, rfl⟩) c (hc | ⟨j, rfl⟩) h hha hhc
    · exact hinj a ha c hc (hha.trans hhc.symm)
    · cases (hversion a ha h hha).symm.trans (placeholder_version j h hhc)
    · cases (hversion c hc h hhc).symm.trans (placeholder_version i h hha)
    · exact placeholder_inj i j h hha hhc
  nonzero := by
    rintro a (ha | ⟨i, rfl⟩) h
    · cases hversion a ha _ h
    · have := congrArg (fun b : Bytes 32 => b.val[0]?) (Except.ok.inj h)
      cases this

end Sample

open Sample

theorem bft_store_of_reached_second : StoreInv crypto afterSecond ∧
    afterSecond.bft_blocks = [first, second] ∧ ∀ at_height : UInt64,
        if 1 ≤ at_height.toNat ∧ at_height.toNat ≤ afterSecond.bft_blocks.length then
          ∃ b fp, get_historical_bft_block_at_height afterSecond at_height.toNat =
              .ok (some (b, fp)) ∧ afterSecond.bft_blocks[at_height.toNat - 1]? = some b ∧
            b.blake3_hash crypto = .ok fp.points_at_block_hash
        else get_historical_bft_block_at_height afterSecond at_height.toNat = .ok none := by
  have hrun : Reached node start [first] afterFirst :=
    .decided 1 first (pointer first) () () ownRoster .start rfl
  refine bft_store_of_reached node true [] (Sample.id 1, "own") [first, second] afterSecond
    (.decided 1 second (pointer second) () () ownRoster hrun rfl) (collisionFree_of ?_ ?_)
  · simp only [forall_mem_cons]
    exact ⟨fun _ hh => by cases hh; rfl, fun _ hh => by cases hh; rfl, nofun⟩
  · decide +kernel

end ZebraCrosslink
