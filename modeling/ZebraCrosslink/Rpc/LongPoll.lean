import ZebraCrosslink.Rust.Returns
import ZebraCrosslink.Rust.Str

/-!
# Long poll ids

A long poll id is five numbers in a string of a fixed length. `from_str` cuts the fields out at fixed
offsets.
-/

open Rust

namespace ZebraCrosslink

structure LongPollId where
  tip_height : UInt32
  tip_hash_checksum : UInt32
  max_timestamp : UInt32
  mempool_transaction_count : UInt32
  mempool_transaction_content_checksum : UInt32
  deriving DecidableEq, Repr

def LONG_POLL_ID_LENGTH : Nat := 46

inductive LongPollIdError
  | text (msg : String)
  | number (kind : IntErrorKind)
  deriving DecidableEq, Repr

namespace LongPollId

/-- `Display`. -/
def fmt (id : LongPollId) : List Char :=
  zeroPadded 10 10 id.tip_height.toNat ++ (zeroPadded 16 8 id.tip_hash_checksum.toNat ++
    (zeroPadded 10 10 id.max_timestamp.toNat ++
      (zeroPadded 10 10 id.mempool_transaction_count.toNat ++
        (zeroPadded 16 8 id.mempool_transaction_content_checksum.toNat ++ []))))

variable (long_poll_id : List Char)

def field (start stop radix : Nat) : ExceptT LongPollIdError (Except Abort) UInt32 := do
  let src ← liftAbort (strIndex long_poll_id start stop)
  let n ← (liftResult (from_str_radix radix src)).adapt .number
  pure (.ofNat n)

def from_str : ExceptT LongPollIdError (Except Abort) LongPollId :=
  if byteLen long_poll_id ≠ LONG_POLL_ID_LENGTH then
    throw (.text "incorrect long poll id length, must be 46 for Zebra")
  else do
    let tip_height ← field long_poll_id 0 10 10
    let tip_hash_checksum ← field long_poll_id 10 18 16
    let max_timestamp ← field long_poll_id 18 28 10
    let mempool_transaction_count ← field long_poll_id 28 38 10
    let mempool_transaction_content_checksum ← field long_poll_id 38 LONG_POLL_ID_LENGTH 16
    pure ⟨tip_height, tip_hash_checksum, max_timestamp, mempool_transaction_count,
      mempool_transaction_content_checksum⟩

/-- The bytes and the radix of each field. -/
def fields : List (Nat × Nat × Nat) :=
  [(0, 10, 10), (10, 18, 16), (18, 28, 10), (28, 38, 10), (38, LONG_POLL_ID_LENGTH, 16)]

/-- A field lies between two characters, if there is a number in every field before it. -/
def OnBoundaries (long_poll_id : List Char) : List (Nat × Nat × Nat) → Prop
  | [] => True
  | (start, stop, radix) :: rest => ∃ src, slice long_poll_id start stop = some src ∧
      ∀ n, from_str_radix radix src = .ok n → OnBoundaries long_poll_id rest

variable {s : List Char} {start stop radix : Nat} {x : UInt32}

theorem field_ok : field s start stop radix = .ok (.ok x) ↔
    ∃ src, slice s start stop = some src ∧ ∃ n, from_str_radix radix src = .ok n ∧ .ofNat n = x := by
  simp only [field, strIndex, exceptT_bind_ok, liftAbort_ok, orAbort_ok, exceptT_adapt_ok,
    liftResult_ok]
  refine exists_congr fun src => and_congr_right fun _ => exists_congr fun n => and_congr_right
    fun _ => ?_
  exact ⟨fun h => by cases h; rfl, fun h => by cases h; rfl⟩

theorem returns_field_bind {α : Type} {f : UInt32 → ExceptT LongPollIdError (Except Abort) α} :
    Returns (field s start stop radix >>= f).run ↔ ∃ src, slice s start stop = some src ∧
      ∀ n, from_str_radix radix src = .ok n → Returns (f (.ofNat n)).run := by
  simp only [returns_exceptT_bind, field_ok]
  constructor
  · rintro ⟨hfield, hf⟩
    obtain ⟨src, hsrc⟩ := returns_liftAbort.mp (returns_exceptT_bind.mp hfield).1
    have hsrc := orAbort_ok.mp hsrc
    exact ⟨src, hsrc, fun n hn => hf _ ⟨src, hsrc, n, hn, rfl⟩⟩
  · rintro ⟨src, hsrc, hf⟩
    constructor
    · have hindex : Returns (strIndex s start stop) := ⟨src, orAbort_ok.mpr hsrc⟩
      exact hindex.liftAbort.exceptT_bind fun src _ =>
        (Returns.adapt ⟨_, rfl⟩ _).exceptT_bind fun n _ => ⟨_, rfl⟩
    · rintro _ ⟨src', hsrc', n, hn, rfl⟩
      cases hsrc.symm.trans hsrc'
      exact hf n hn

variable {id : LongPollId}

theorem ascii_fmt {c : Char} (h : c ∈ id.fmt) : c.utf8Size = 1 := by
  simp only [fmt, List.mem_append, List.not_mem_nil, or_false] at h
  rcases h with h | h | h | h | h <;> exact (digit_of_mem (by decide) (by decide) h).1

theorem length_fmt (id : LongPollId) : id.fmt.length = LONG_POLL_ID_LENGTH := by
  simp [fmt, length_zeroPadded, LONG_POLL_ID_LENGTH]

theorem field_fmt (hlt : start < stop) (hstop : stop ≤ LONG_POLL_ID_LENGTH) (hradix : 0 < radix)
    (hle : radix < 17) (hmax : 2 ^ 32 ≤ radix ^ (stop - start))
    (hs : (id.fmt.drop start).take (stop - start) = zeroPadded radix (stop - start) x.toNat) :
    field id.fmt start stop radix = .ok (.ok x) := by
  have hslice := slice_ascii (fun _ => ascii_fmt) hlt.le (hstop.trans_eq id.length_fmt.symm)
  rw [hs] at hslice
  have hx := x.toNat_lt
  exact field_ok.mpr ⟨_, hslice, _,
    from_str_radix_zeroPadded hradix hle (by omega) (hx.trans_le hmax) hx, UInt32.ofNat_toNat⟩

theorem from_str_fmt (id : LongPollId) : from_str id.fmt = .ok (.ok id) := by
  have hlen : byteLen id.fmt = LONG_POLL_ID_LENGTH := by
    rw [byteLen, List.map_congr_left fun c h => ascii_fmt h, ← id.length_fmt]
    simp
  unfold from_str
  rw [if_neg (not_not.mpr hlen)]
  simp only [exceptT_bind_ok]
  refine ⟨id.tip_height, ?_, id.tip_hash_checksum, ?_, id.max_timestamp, ?_,
    id.mempool_transaction_count, ?_, id.mempool_transaction_content_checksum, ?_, rfl⟩ <;>
  refine field_fmt (by decide) (by decide) (by decide) (by decide) (by decide) ?_ <;>
  simp [fmt, List.drop_append, List.drop_eq_nil_of_le, length_zeroPadded, LONG_POLL_ID_LENGTH]

end LongPollId

/-- An id that was written is read back. A string is read without a panic exactly if it has another
length or every field that is reached lies between two characters. -/
theorem long_poll_id_from_str_iff (id : LongPollId) (s : List Char) :
    LongPollId.from_str id.fmt = .ok (.ok id) ∧ (Returns (LongPollId.from_str s).run ↔
        (byteLen s = LONG_POLL_ID_LENGTH → LongPollId.OnBoundaries s LongPollId.fields)) := by
  refine ⟨id.from_str_fmt, ?_⟩
  unfold LongPollId.from_str
  split
  · next hlen => exact ⟨fun _ h => absurd h hlen, fun _ => ⟨_, rfl⟩⟩
  · next hlen =>
    have hpure : ∀ id : LongPollId,
        Returns (pure id : ExceptT LongPollIdError (Except Abort) LongPollId).run := fun id => ⟨_, rfl⟩
    rw [imp_iff_right (not_not.mp hlen)]
    simp only [LongPollId.returns_field_bind, LongPollId.OnBoundaries, LongPollId.fields, hpure]

/-- A character of two bytes lies across the end of the first field. -/
theorem split_character_panics :
    (LongPollId.from_str (List.replicate 9 '0' ++ 'é' :: List.replicate 35 '0')).run.isOk = false := by
  decide

end ZebraCrosslink
