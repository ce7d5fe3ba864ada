import ZebraCrosslink.Bft.Propose

/-!
# The sequence of newly final blocks

Over a chain that stands still, the chunks of `tfl_block_sequence` put together are one slice of it.
-/

open Rust List Exec

namespace ZebraCrosslink

variable {E : Type}

/-! ## Slices with their heights -/

namespace PowChain

variable (c : PowChain)

def heightHashes (start stop : Nat) : List (Nat × BlockHash) :=
  (c.slice start stop).map fun b => (b.height, b.hash)

variable {c} {start stop a b m : Nat} {blk : ContextuallyVerifiedBlock}

theorem slice_nil (h : stop ≤ start) : c.slice start stop = [] := by
  rw [slice, drop_eq_nil_of_le]
  rw [length_take]
  omega

theorem slice_append (ham : a ≤ m) (hmb : m ≤ b) (hb : b ≤ c.blocks.length) :
    c.slice a m ++ c.slice m b = c.slice a b := by
  have htake : c.blocks.take b = c.blocks.take m ++ c.slice m b := by
    conv_lhs => rw [← take_append_drop m (c.blocks.take b)]
    rw [take_take, Nat.min_eq_left hmb, slice]
  have hlen : a - (c.blocks.take m).length = 0 := by rw [length_take]; omega
  rw [slice, slice.eq_def c a b, htake, drop_append, hlen, drop_zero]

theorem slice_cons (hab : a < b)
    (hblk : c.blocks[a]? = some blk) : c.slice a b = blk :: c.slice (a + 1) b := by
  obtain ⟨hlt, rfl⟩ := List.getElem?_eq_some_iff.mp hblk
  rw [slice, drop_eq_getElem_cons (by rw [length_take]; omega), getElem_take, slice]

theorem slice_last (hab : a < b) (hb : b ≤ c.blocks.length) :
    ∃ x, ((c.slice a b).map (·.hash)).getLast? = some x ∧ c.startAt x = b := by
  obtain ⟨blk, hblk⟩ : ∃ blk, c.blocks[b - 1]? = some blk := ⟨_, getElem?_eq_getElem (by omega)⟩
  refine ⟨blk.hash, ?_, ?_⟩
  · rw [getLast?_map, getLast?_eq_getElem?, slice_length a hb, slice_getElem?,
      if_pos (by omega), (by omega : a + (b - a - 1) = b - 1), hblk, Option.map_some]
  · rw [startAt, heightOf_of_getElem? hblk]
    simp only
    omega

theorem heightHashes_nil (h : stop ≤ start) : c.heightHashes start stop = [] := by
  rw [heightHashes, slice_nil h, map_nil]

theorem heightHashes_cons (hab : a < b) (hblk : c.blocks[a]? = some blk) :
    c.heightHashes a b = (a, blk.hash) :: c.heightHashes (a + 1) b := by
  rw [heightHashes, slice_cons hab hblk, map_cons, c.heights _ _ hblk, heightHashes]

theorem heightHashes_append (ham : a ≤ m) (hmb : m ≤ b) (hb : b ≤ c.blocks.length) :
    c.heightHashes a m ++ c.heightHashes m b = c.heightHashes a b := by
  rw [heightHashes, heightHashes, ← map_append, slice_append ham hmb hb, heightHashes]

theorem heightHashes_length (a : Nat) (hb : b ≤ c.blocks.length) :
    (c.heightHashes a b).length = b - a := by
  rw [heightHashes, length_map, slice_length a hb]

theorem heightHashes_heights (a n : Nat) (h : a + n ≤ c.blocks.length) :
    (c.heightHashes a (a + n)).map Prod.fst = range' a n := by
  induction n generalizing a with
  | zero => rw [Nat.add_zero, heightHashes_nil le_rfl, range'_zero, map_nil]
  | succ n ih =>
    rw [heightHashes_cons (by omega) (getElem?_eq_getElem (by omega)), map_cons, range'_succ,
      show a + (n + 1) = a + 1 + n by omega, ih (a + 1) (by omega)]

end PowChain

open PowChain

/-! ## The chunks -/

section Chunks

variable {best : PowChain} {start limit i final_height : Nat} {node : Node E}
  {view : E → ReadStateService} {s : ReadStateService} {e : E} {start_hash : BlockHash}
  {include_start_hash : Bool}
  {b : ContextuallyVerifiedBlock} {final_height_hash : Option (Nat × BlockHash)}

theorem push_chunk_slice (p : Profile) (n m : Nat) (hstart : start ≤ m)
    (hlen : m + n ≤ best.blocks.length) :
    push_chunk p start ((best.slice m (m + n)).map (·.hash)) (best.heightHashes start m) =
      .ok (best.heightHashes start (m + n)) := by
  have hmax : best.blocks.length < 2 ^ 32 := best.short.trans_lt (by decide)
  induction n generalizing m with
  | zero => rw [Nat.add_zero, slice_nil le_rfl, map_nil, push_chunk]
  | succ n ih =>
    obtain ⟨b, hb⟩ : ∃ b, best.blocks[m]? = some b := ⟨_, getElem?_eq_getElem (by omega)⟩
    have hsize := heightHashes_length start (by omega : m ≤ best.blocks.length)
    have hpush : best.heightHashes start m ++ [(m, b.hash)] = best.heightHashes start (m + 1) := by
      rw [← heightHashes_append hstart (Nat.le_succ m) (by omega),
        heightHashes_cons (Nat.lt_succ_self m) hb, heightHashes_nil le_rfl]
    rw [slice_cons (by omega) hb, map_cons, push_chunk, if_neg (by omega), hsize,
      addU32_of_lt p start (m - start) (by omega), Nat.add_sub_cancel' hstart]
    have hn : m + (n + 1) = m + 1 + n := by omega
    rw [hn]
    change push_chunk p start _ (best.heightHashes start m ++ [(m, b.hash)]) = _
    rw [hpush]
    exact ih (m + 1) (by omega) (by omega)

theorem first_hash_assertion {m m' : Nat}
    (hfirst : include_start_hash = true → ∃ b, best.blocks[start]? = some b ∧ b.hash = start_hash)
    (hstart : start ≤ m) (hm : m < m') (hm' : m' ≤ best.blocks.length) :
    (!((best.heightHashes start m).isEmpty && include_start_hash &&
        !((best.slice m m').map (·.hash)).isEmpty) ||
      ((best.slice m m').map (·.hash)).head? == some start_hash) = true := by
  by_cases hsm : start = m
  · subst hsm
    cases include_start_hash with
    | false => simp
    | true =>
      obtain ⟨b, hb, hhash⟩ := hfirst rfl
      rw [slice_cons hm hb]
      simp [hhash]
  · have hne : (best.heightHashes start m).isEmpty = false := by
      rw [isEmpty_eq_false_iff_exists_mem, ← length_pos_iff_exists_mem,
        heightHashes_length start (by omega)]
      omega
    rw [hne]
    rfl

theorem fetch_chunks_slice (hcall : AnswersUpTo node.profile limit node.call s e) (hlimit : 0 < limit)
    (hs : s.Shows best)
    (hfirst : include_start_hash = true → ∃ b, best.blocks[start]? = some b ∧ b.hash = start_hash)
    (final_hash : Option BlockHash) (fuel : Nat) (chunk_start : BlockHash)
    (hstart : start ≤ best.startAt chunk_start)
    (hfits : max (best.startAt chunk_start) (best.stopAt final_hash) + limit ≤ 2 ^ 32) :
    fetch_chunks node start start_hash include_start_hash final_hash fuel chunk_start
        (best.heightHashes start (best.startAt chunk_start)) e =
        .ok (best.heightHashes start (max (best.startAt chunk_start) (best.stopAt final_hash)), e) ∨
      fuel ≤ best.stopAt final_hash - best.startAt chunk_start ∧
        fetch_chunks node start start_hash include_start_hash final_hash fuel chunk_start
          (best.heightHashes start (best.startAt chunk_start)) e = .error .outOfFuel := by
  induction fuel generalizing chunk_start with
  | zero => exact .inr ⟨Nat.zero_le _, rfl⟩
  | succ fuel ih =>
    have hstop := best.stopAt_le final_hash
    generalize hm : best.startAt chunk_start = m at hstart ⊢
    generalize hm' : min (m + limit) (best.stopAt final_hash) = m'
    have hreply := hcall.hashes hs hlimit chunk_start (by omega) final_hash
    rw [hm, hm'] at hreply
    rw [fetch_chunks, bind_of_ok hreply]
    by_cases hdone : m' ≤ m
    · -- nothing is left: the empty chunk ends the loop
      rw [slice_nil hdone, Nat.max_eq_left (by omega)]
      exact .inl (bind_of_ok (assert_of (by simp) _ e))
    · have hlen : m' ≤ best.blocks.length := by omega
      have hpush := push_chunk_slice node.profile (m' - m) m hstart
        (by omega : m + (m' - m) ≤ best.blocks.length)
      rw [Nat.add_sub_cancel' (by omega)] at hpush
      obtain ⟨last, hlast, hnext⟩ := slice_last (not_le.mp hdone) hlen
      simp only
      rw [bind_of_ok (assert_of (first_hash_assertion hfirst hstart (not_le.mp hdone) hlen) _ e), hlast]
      simp only
      rw [bind_of_ok (ofExcept_of hpush e), ← hnext]
      have hrec := ih last (by omega) (by omega)
      rw [hnext, Nat.max_eq_right (by omega)] at hrec
      rw [Nat.max_eq_right (by omega), hnext]
      refine hrec.imp_right fun h => ⟨by omega, h.2⟩

/-! ## The whole sequence -/

theorem read_infos_blocks (hcall : AnswersUpTo node.profile limit node.call s e) (hs : s.Shows best)
    (l : List ContextuallyVerifiedBlock) (hl : ∀ b ∈ l, b ∈ best.blocks) :
    read_infos node.call (l.map fun b => (b.height, b.hash)) e =
      .ok (l.map fun b => some b.block, e) := by
  induction l with
  | nil => rfl
  | cons b l ih =>
    obtain ⟨h, hb⟩ := mem_iff_getElem?.mp (hl b (mem_cons_self ..))
    rw [map_cons, read_infos, bind_of_ok (hcall.block hs hb),
      bind_of_ok (ih fun b hb => hl b (mem_cons_of_mem _ hb))]
    rfl

theorem startAt_parent (hb : best.blocks[i]? = some b) :
    best.startAt b.block.header.previous_block_hash = i := by
  cases i with
  | zero => rw [startAt, heightOf_genesis_parent hb]
  | succ i => rw [startAt, heightOf_parent hb]

theorem sequence_start_on_chain (hcall : AnswersUpTo node.profile limit node.call s e) (hs : s.Shows best)
    (hstart : best.heightOf start_hash = some i) (hb : best.blocks[i]? = some b) (include_start_hash : Bool) :
    tfl_block_sequence.sequence_start node start_hash include_start_hash e =
      .ok (some (if include_start_hash then (i, b.block.header.previous_block_hash)
        else (i + 1, start_hash)), e) := by
  have hlt := heightOf_lt hstart
  have hmax : best.blocks.length < 2 ^ 32 := best.short.trans_lt (by decide)
  rw [tfl_block_sequence.sequence_start, bind_of_ok (hcall.block_header_of_hash hs hstart hb)]
  cases include_start_hash with
  | true => rfl
  | false => exact bind_of_ok (ofExcept_of (addU32_of_lt node.profile i 1 (by omega)) e)

theorem block_sequence_any (hcall : AnswersUpTo node.profile limit node.call s e) (hlimit : 0 < limit)
    (hs : s.Shows best) {first : Nat}
    (hstart : best.heightOf start_hash = some i)
    (hincl : first = if include_start_hash then i else i + 1)
    {final_hash : Option BlockHash}
    (hend : tfl_block_sequence.sequence_final node final_height_hash e = .ok (some (final_height, final_hash), e))
    (hfinal : first ≤ final_height) (hfits : max first (best.stopAt final_hash) + limit ≤ 2 ^ 32)
    (read_extra_info : Bool) (fuel : Nat) :
    let stop := max first (best.stopAt final_hash)
    tfl_block_sequence node fuel start_hash final_height_hash include_start_hash read_extra_info e =
        .ok ((best.heightHashes first stop,
          if read_extra_info then (best.slice first stop).map fun b => some b.block else []), e) ∨
      fuel ≤ best.stopAt final_hash - first ∧
        tfl_block_sequence node fuel start_hash final_height_hash include_start_hash read_extra_info e =
          .error .outOfFuel := by
  obtain ⟨b, hb⟩ : ∃ b, best.blocks[i]? = some b :=
    ⟨_, getElem?_eq_getElem (heightOf_lt hstart)⟩
  have hhash : b.hash = start_hash := by
    have := heightOf_eq_some_iff.mp hstart
    rwa [hashes_getElem?, hb, Option.map_some, Option.some.injEq] at this
  -- the first request is for what comes after the parent of the start block, or after itself
  obtain ⟨init, hinit, hat⟩ : ∃ init, (if include_start_hash then (i, b.block.header.previous_block_hash)
      else (i + 1, start_hash)) = (first, init) ∧ best.startAt init = first := by
    cases include_start_hash with
    | true => exact ⟨_, by rw [hincl]; rfl, by rw [hincl]; exact startAt_parent hb⟩
    | false => exact ⟨start_hash, by rw [hincl]; rfl, by rw [hincl, startAt, hstart]; rfl⟩
  have hfirst : include_start_hash = true → ∃ b, best.blocks[first]? = some b ∧ b.hash = start_hash := by
    rintro rfl
    exact ⟨b, by rw [hincl]; exact hb, hhash⟩
  have hfetch := fetch_chunks_slice hcall hlimit hs hfirst final_hash fuel init hat.ge (by rwa [hat])
  rw [hat, heightHashes_nil le_rfl] at hfetch
  unfold tfl_block_sequence
  rw [bind_of_ok (sequence_start_on_chain hcall hs hstart hb include_start_hash), hinit, bind_of_ok hend]
  simp only
  rw [if_neg (by omega)]
  refine hfetch.imp (fun h => ?_) fun h => ⟨h.1, bind_of_error h.2⟩
  rw [bind_of_ok h]
  cases read_extra_info with
  | false => rfl
  | true =>
    simp only [if_true]
    rw [heightHashes, bind_of_ok (read_infos_blocks hcall hs _ fun b hb => ?_)]
    · rfl
    · exact mem_of_mem_take (mem_of_mem_drop hb)

theorem block_sequence_slice (hcall : AnswersReads node.call view) (hs : (view e).Shows best)
    (hstart : best.heightOf start_hash = some i)
    (hfinal : i ≤ final_height) (final_hash : BlockHash) (fuel : Nat) :
    let stop := max i (best.stopAt (some final_hash))
    tfl_block_sequence node fuel start_hash (some (final_height, final_hash)) true true e =
        .ok ((best.heightHashes i stop, (best.slice i stop).map fun b => some b.block), e) ∨
      fuel ≤ best.stopAt (some final_hash) - i ∧
        tfl_block_sequence node fuel start_hash (some (final_height, final_hash)) true true e =
          .error .outOfFuel := by
  have hmax := best.short
  have hmost : MAX_HEIGHT + MAX_FIND_BLOCK_HASHES_RESULTS ≤ 2 ^ 32 := by decide
  have hlt := heightOf_lt hstart
  have hstop := best.stopAt_le (some final_hash)
  exact block_sequence_any (hcall.upTo hs) (by decide) hs hstart (if_pos rfl).symm rfl hfinal (by omega) true
    fuel

theorem block_sequence_empty (hcall : AnswersReads node.call view) (hs : (view e).Shows best)
    (h : ∀ i, best.heightOf start_hash = some i → final_height < i) (final_hash : BlockHash)
    (fuel : Nat) :
    tfl_block_sequence node fuel start_hash (some (final_height, final_hash)) true true e =
      .ok (([], []), e) := by
  have hend : tfl_block_sequence.sequence_final node (some (final_height, final_hash)) e =
      .ok (some (final_height, some final_hash), e) := rfl
  unfold tfl_block_sequence
  cases hx : best.heightOf start_hash with
  | none =>
    have hseq : tfl_block_sequence.sequence_start node start_hash true e = .ok (none, e) := by
      rw [tfl_block_sequence.sequence_start, bind_of_ok ((hcall.upTo (p := node.profile) hs).no_block_header hs hx)]
      rfl
    rw [bind_of_ok hseq, bind_of_ok hend]
    rfl
  | some i =>
    obtain ⟨b, hb⟩ : ∃ b, best.blocks[i]? = some b :=
      ⟨_, getElem?_eq_getElem (heightOf_lt hx)⟩
    rw [bind_of_ok (sequence_start_on_chain (hcall.upTo hs) hs hx hb true), bind_of_ok hend]
    simp only [if_true]
    rw [if_pos (h i hx)]
    rfl

theorem block_sequence_result (hcall : AnswersReads node.call view) (hs : (view e).Shows best)
    {final_hash : BlockHash} {fuel : Nat} {e' : E}
    {hashes : List (Nat × BlockHash)} {infos : List (Option Block)}
    (h : tfl_block_sequence node fuel start_hash (some (final_height, final_hash)) true true e =
      .ok ((hashes, infos), e')) : e' = e ∧
      ((∃ i, best.heightOf start_hash = some i ∧ i ≤ final_height ∧
          hashes = best.heightHashes i (max i (best.stopAt (some final_hash))) ∧
          infos = (best.slice i (max i (best.stopAt (some final_hash)))).map fun b => some b.block) ∨
        (∀ i, best.heightOf start_hash = some i → final_height < i) ∧ hashes = [] ∧ infos = []) := by
  by_cases hon : ∃ i, best.heightOf start_hash = some i ∧ i ≤ final_height
  · obtain ⟨i, hi, hle⟩ := hon
    obtain hok | ⟨-, herr⟩ := block_sequence_slice hcall hs hi hle final_hash fuel
    · rw [hok] at h
      obtain ⟨⟨rfl, rfl⟩, rfl⟩ := (Prod.mk.inj (Except.ok.inj h)).imp_left Prod.mk.inj
      exact ⟨rfl, .inl ⟨i, hi, hle, rfl, rfl⟩⟩
    · rw [herr] at h
      cases h
  · have hoff : ∀ i, best.heightOf start_hash = some i → final_height < i := by
      intro i hi
      by_contra hle
      exact hon ⟨i, hi, not_lt.mp hle⟩
    rw [block_sequence_empty hcall hs hoff] at h
    obtain ⟨⟨rfl, rfl⟩, rfl⟩ := (Prod.mk.inj (Except.ok.inj h)).imp_left Prod.mk.inj
    exact ⟨rfl, .inr ⟨hoff, rfl, rfl⟩⟩

/-- The final block asked for is the one at height `f`: the tip if none is named. -/
def PowChain.EndsAt (best : PowChain) (f : Nat) : Option (Nat × BlockHash) → Prop
  | none => best.blocks.length = f + 1
  | some (height, hash) => height = f ∧ best.heightOf hash = some f

theorem sequence_final_endsAt (hcall : AnswersUpTo node.profile limit node.call s e) (hs : s.Shows best) {f : Nat}
    (hends : best.EndsAt f final_height_hash) :
    ∃ hash, tfl_block_sequence.sequence_final node final_height_hash e = .ok (some (f, some hash), e) ∧
      best.stopAt (some hash) = f + 1 := by
  cases final_height_hash with
  | some final =>
    obtain ⟨height, hash⟩ := final
    obtain ⟨rfl, hhash⟩ := hends
    exact ⟨hash, rfl, stopAt_of_heightOf hhash⟩
  | none =>
    have hlen : best.blocks.length = f + 1 := hends
    obtain ⟨b, hb⟩ : ∃ b, best.blocks[f]? = some b := ⟨_, getElem?_eq_getElem (by omega)⟩
    refine ⟨b.hash, ?_, stopAt_of_heightOf (heightOf_of_getElem? hb)⟩
    rw [tfl_block_sequence.sequence_final, bind_of_ok (hcall.tip hs), getLast?_eq_getElem?, hlen,
      Nat.add_sub_cancel, hb, Option.map_some, best.heights f b hb]
    rfl

/-- The request ends, with exactly these blocks. -/
theorem block_sequence_complete (hlimit : 0 < limit) (hcall : AnswersUpTo node.profile limit node.call s e)
    (hs : s.Shows best) {start_hash : BlockHash} {i f : Nat} (hstart : best.heightOf start_hash = some i)
    (hle : i ≤ f) {final_height_hash : Option (Nat × BlockHash)} (hends : best.EndsAt f final_height_hash)
    (hfits : f + limit < 2 ^ 32) (include_start_hash read_extra_info : Bool) {fuel : Nat}
    (hfuel : f + 1 - i < fuel) :
    let first := if include_start_hash then i else i + 1
    tfl_block_sequence node fuel start_hash final_height_hash include_start_hash read_extra_info e =
        .ok ((best.heightHashes first (f + 1),
          if read_extra_info then (best.slice first (f + 1)).map fun b => some b.block else []), e) ∧
      (best.heightHashes first (f + 1)).map Prod.fst = List.range' first (f + 1 - first) ∧
      ((best.heightHashes first (f + 1)).map Prod.snd).Nodup := by
  intro first
  obtain ⟨hash, hend, hstop⟩ := sequence_final_endsAt hcall hs hends
  have hfirst : i ≤ first ∧ first ≤ f + 1 := by
    simp only [first]
    split <;> omega
  have hlen : f + 1 ≤ best.blocks.length := hstop ▸ best.stopAt_le (some hash)
  refine ⟨?_, ?_, ?_⟩
  · by_cases hff : first ≤ f
    · have hany := block_sequence_any hcall hlimit hs hstart rfl hend hff (by omega) read_extra_info fuel
      simp only [hstop] at hany
      rw [Nat.max_eq_right (by exact hfirst.2)] at hany
      exact hany.resolve_right fun h => by omega
    · -- the start block is the final one and is left out
      obtain ⟨b, hb⟩ : ∃ b, best.blocks[i]? = some b :=
        ⟨_, getElem?_eq_getElem (heightOf_lt hstart)⟩
      have hexcluded : include_start_hash = false := by
        by_contra hincl
        simp only [first, Bool.not_eq_false] at hff hincl
        rw [if_pos hincl] at hff
        omega
      rw [heightHashes_nil (by omega), slice_nil (by omega), tfl_block_sequence,
        bind_of_ok (sequence_start_on_chain hcall hs hstart hb include_start_hash), bind_of_ok hend]
      simp only [first, hexcluded, Bool.false_eq_true, if_false] at hff ⊢
      rw [if_pos (by omega)]
      simp [pure_apply]
  · have hheights := heightHashes_heights (c := best) first (f + 1 - first) (by omega)
    rwa [Nat.add_sub_cancel' hfirst.2] at hheights
  · simp only [heightHashes, map_map, Function.comp_def]
    exact ((drop_sublist _ _).trans (take_sublist _ _)).map _ |>.nodup best.nodup

end Chunks

namespace Sample

/-- Answers with at most `limit` hashes at a time. -/
def limitedNode (p : Profile) (limit : Nat) : Node Unit where
  crypto := crypto
  order := byteOrder
  profile := p
  call := { state := fun req e => (reads.call_up_to p limit req).map fun reply => (reply, e) }

end Sample

open Sample

/-- The sample chain from above genesis to its tip, in chunks of three and one. -/
theorem block_sequence_complete_sample :
    tfl_block_sequence (limitedNode .dev 3) 6 (Sample.id 10) none false false () =
      .ok ((best.heightHashes 1 5, []), ()) :=
  (block_sequence_complete (i := 0) (f := 4) (s := reads) (by decide) (fun _ _ => rfl) reads_shows
    (by decide +kernel) (by decide) (show best.EndsAt 4 none from rfl) (by decide) false false
    (by decide)).1

/-- With the largest limit the sum with the height of the tip overflows after all blocks were fetched,
and a start above height 1 is answered with nothing if it wraps. -/
theorem largest_limit_overflows :
    tfl_block_sequence (limitedNode .dev (2 ^ 32 - 1)) 6 (Sample.id 10) none true false () =
        .error .overflow ∧
      tfl_block_sequence (limitedNode .release (2 ^ 32 - 1)) 6 (Sample.id 12) none true false () =
        .ok (([], []), ()) ∧ best.heightHashes 2 5 ≠ [] :=
  ⟨rfl, rfl, by decide +kernel⟩

end ZebraCrosslink
