import ZebraCrosslink.Network.Codec

/-!
# Framing and packet boundaries

`decode` is called after each chunk until it returns `None`, which it also does after it has skipped
a frame with an unknown command.
-/

open Rust List Rounds

namespace ZebraCrosslink

namespace Codec

variable {Message : Type} {src src' : List UInt8} {codec codec' : Codec} {parsers : Parsers Message}
  {m : Message}

def measure (codec : Codec) (src : List UInt8) : Nat :=
  match codec.state with
  | .Head => src.length
  | .Body .. => src.length + 1

theorem decode_body_some {body_len : Nat} {command : Bytes 12} {checksum : Bytes 4}
    (h : decode_body parsers codec src body_len command checksum = (.ok (some m), codec', src')) :
    codec'.state = .Head ∧ src'.length ≤ src.length := by
  unfold decode_body at h
  split at h
  · cases h
  · dsimp only at h
    split at h
    · cases h
    · split at h
      · obtain ⟨-, rfl, rfl⟩ := Prod.ext_iff.mp h |>.imp_right Prod.ext_iff.mp
        exact ⟨rfl, by simp⟩
      · cases h

theorem decode_some (h : decode parsers codec src = (.ok (some m), codec', src')) :
    codec'.measure src' < codec.measure src := by
  unfold decode at h
  cases hstate : codec.state with
  | Head =>
    rw [hstate] at h
    by_cases hlength : src.length < HEADER_LEN
    · simp only [hlength, if_true] at h
      cases h
    · simp only [hlength, if_false] at h
      cases hread : MessageHeader.read (src.take HEADER_LEN) with
      | error err =>
        rw [hread] at h
        cases h
      | ok read =>
        rw [hread] at h
        dsimp only at h
        split at h
        · cases h
        · split at h
          · cases h
          · obtain ⟨hhead, hle⟩ := decode_body_some h
            rw [length_drop] at hle
            simp only [measure, hstate, hhead]
            unfold HEADER_LEN at hlength hle
            omega
  | Body body_len command checksum =>
    rw [hstate] at h
    obtain ⟨hhead, hle⟩ := decode_body_some h
    simp only [measure, hstate, hhead]
    omega

structure Progress (Message : Type) where
  messages : List Message
  error : Option ReadError
  codec : Codec
  src : List UInt8

/-- Calls `decode` until it returns `None` or an error. -/
def drain (parsers : Parsers Message) (codec : Codec) (src : List UInt8) : Progress Message :=
  match _h : decode parsers codec src with
  | (.ok (some m), codec', src') =>
    let later := drain parsers codec' src'
    { later with messages := m :: later.messages }
  | (.ok none, codec', src') => ⟨[], none, codec', src'⟩
  | (.error err, codec', src') => ⟨[], some err, codec', src'⟩
termination_by codec.measure src
decreasing_by exact decode_some _h

def feed (parsers : Parsers Message) (codec : Codec) (src : List UInt8) :
    List (List UInt8) → Progress Message
  | [] => ⟨[], none, codec, src⟩
  | chunk :: chunks =>
    let now := drain parsers codec (src ++ chunk)
    match now.error with
    | some _ => now
    | none =>
      let later := feed parsers now.codec now.src chunks
      { later with messages := now.messages ++ later.messages }

theorem drain_some (h : decode parsers codec src = (.ok (some m), codec', src')) :
    drain parsers codec src =
      { drain parsers codec' src' with messages := m :: (drain parsers codec' src').messages } := by
  rw [drain]
  split <;> simp_all

theorem drain_none (h : decode parsers codec src = (.ok none, codec', src')) :
    drain parsers codec src = ⟨[], none, codec', src'⟩ := by
  rw [drain]
  split <;> simp_all

end Codec

open Codec

/-! ## Frames -/

structure Frame where
  command : Bytes 12
  body : List UInt8
  fits : body.length < 2 ^ 32

namespace Frame

variable {Message : Type} {parsers : Parsers Message} {builder : CodecBuilder} {f : Frame}

def header (parsers : Parsers Message) (builder : CodecBuilder) (f : Frame) : List UInt8 :=
  builder.network.magic.val ++ (f.command.val ++ (leBytes 4 f.body.length ++ (parsers.checksum f.body).val))

def bytes (parsers : Parsers Message) (builder : CodecBuilder) (f : Frame) : List UInt8 :=
  f.header parsers builder ++ f.body

structure Accepted (parsers : Parsers Message) (builder : CodecBuilder) (f : Frame) : Prop where
  short : f.body.length ≤ builder.max_len
  decodes : ∀ c, Command.of_bytes f.command = some c →
    ∃ m, parsers.read c builder.version f.body = .ok m

def message (parsers : Parsers Message) (builder : CodecBuilder) (f : Frame) : Option Message :=
  match Command.of_bytes f.command with
  | some c => (parsers.read c builder.version f.body).toOption
  | none => none

def known (f : Frame) : Option Command := Command.of_bytes f.command

theorem length_header : (f.header parsers builder).length = HEADER_LEN := by
  simp only [header, length_append, builder.network.magic.2, f.command.2, length_leBytes,
    (parsers.checksum f.body).2]
  rfl

theorem Accepted.message_eq_none (h : f.Accepted parsers builder) :
    f.message parsers builder = none ↔ f.known = none := by
  unfold message known
  cases hc : Command.of_bytes f.command with
  | none => simp
  | some c =>
    obtain ⟨m, hm⟩ := h.decodes c hc
    simp [hm, Except.toOption]

theorem read_header : MessageHeader.read (f.header parsers builder) =
    .ok (⟨builder.network.magic, f.command, UInt32.ofNat f.body.length, parsers.checksum f.body⟩, []) := by
  simp only [MessageHeader.read, bind_ok, pure_ok, Reader.exact_ok, Reader.u32_ok]
  refine ⟨_, _, rfl, _, _, rfl, _, _, ?_, _, _, (append_nil _).symm, rfl, rfl⟩
  rw [UInt32.toNat_ofNat_of_lt' f.fits]

end Frame

def stream {Message : Type} (parsers : Parsers Message) (builder : CodecBuilder) (frames : List Frame) :
    List UInt8 :=
  frames.flatMap (Frame.bytes parsers builder)

namespace Codec

variable {Message : Type} {parsers : Parsers Message} {builder : CodecBuilder}
  {src rest tail : List UInt8} {frames : List Frame} {f : Frame} {codec : Codec}

/-- The buffer and the bytes to come are what is left of the stream. A header that has been read is
kept in the state. -/
inductive Awaits (parsers : Parsers Message) (builder : CodecBuilder) (rest : List UInt8) :
    Codec → List UInt8 → List Frame → Prop
  | head {src : List UInt8} {frames : List Frame} (h : src ++ rest = stream parsers builder frames) :
    Awaits parsers builder rest ⟨builder, .Head⟩ src frames
  | body {src : List UInt8} {f : Frame} {frames : List Frame}
    (h : src ++ rest = f.body ++ stream parsers builder frames) :
    Awaits parsers builder rest ⟨builder, .Body f.body.length f.command (parsers.checksum f.body)⟩ src
      (f :: frames)

theorem split_arrived {x : List UInt8} (h : src ++ rest = x ++ tail)
    (hle : rest.length ≤ tail.length) :
    src.take x.length = x ∧ src.drop x.length ++ rest = tail ∧ x.length ≤ src.length := by
  have hlength := congrArg length h
  rw [length_append, length_append] at hlength
  have hsrc : x.length ≤ src.length := by omega
  have htake := congrArg (take x.length) h
  have hdrop := congrArg (drop x.length) h
  rw [take_append_of_le_length hsrc, take_left] at htake
  rw [drop_append_of_le_length hsrc, drop_left] at hdrop
  exact ⟨htake, hdrop, hsrc⟩

theorem decode_body_arrived {state : DecodeState}
    (hf : f.Accepted parsers builder) (h : src ++ rest = f.body ++ stream parsers builder frames)
    (hle : rest.length ≤ (stream parsers builder frames).length) :
    ∃ src', decode_body parsers ⟨builder, state⟩ src f.body.length f.command (parsers.checksum f.body) =
        (.ok (f.message parsers builder), builder.finish, src') ∧
      src' ++ rest = stream parsers builder frames := by
  obtain ⟨htake, hdrop, hsrc⟩ := split_arrived h hle
  refine ⟨src.drop f.body.length, ?_, hdrop⟩
  unfold decode_body Frame.message
  rw [if_neg (by omega), htake]
  cases hc : Command.of_bytes f.command with
  | none => simp [CodecBuilder.finish]
  | some c =>
    obtain ⟨m, hm⟩ := hf.decodes c hc
    simp [hm, CodecBuilder.finish, Except.map, Except.toOption]

theorem decode_header (hf : f.Accepted parsers builder)
    (h : src.take HEADER_LEN = f.header parsers builder) (hle : HEADER_LEN ≤ src.length)
    (hdrop : src.drop HEADER_LEN = tail) : decode parsers builder.finish src =
      decode_body parsers ⟨builder, .Body f.body.length f.command (parsers.checksum f.body)⟩ tail
        f.body.length f.command (parsers.checksum f.body) := by
  have hlen : (UInt32.ofNat f.body.length).toNat = f.body.length := UInt32.toNat_ofNat_of_lt' f.fits
  have hshort := hf.short
  simp [decode, CodecBuilder.finish, if_neg (Nat.not_lt.mpr hle), h, Frame.read_header, hlen, hdrop,
    if_neg (Nat.not_lt.mpr hshort)]

theorem decode_arrived
    (hf : f.Accepted parsers builder) (h : Awaits parsers builder rest codec src (f :: frames))
    (hle : rest.length ≤ (stream parsers builder frames).length) :
    ∃ src', decode parsers codec src = (.ok (f.message parsers builder), builder.finish, src') ∧
      Awaits parsers builder rest builder.finish src' frames := by
  suffices hsuff : ∃ src',
      decode parsers codec src = (.ok (f.message parsers builder), builder.finish, src') ∧
        src' ++ rest = stream parsers builder frames by
    obtain ⟨src', hdecode, hsrc⟩ := hsuff
    exact ⟨src', hdecode, .head hsrc⟩
  cases h with
  | head h =>
    rw [stream, flatMap_cons, Frame.bytes, append_assoc] at h
    obtain ⟨htake, hdrop, hsrc⟩ := split_arrived h (by
      rw [length_append]
      exact hle.trans (Nat.le_add_left _ _))
    rw [Frame.length_header] at htake hdrop hsrc
    have hheader := decode_header hf htake hsrc rfl
    rw [CodecBuilder.finish] at hheader
    rw [hheader]
    exact decode_body_arrived hf hdrop hle
  | body h => exact decode_body_arrived hf h hle

theorem decode_missing
    (hf : f.Accepted parsers builder) (h : Awaits parsers builder rest codec src (f :: frames))
    (hlt : (stream parsers builder frames).length < rest.length) :
    ∃ codec' src', decode parsers codec src = (.ok none, codec', src') ∧
      Awaits parsers builder rest codec' src' (f :: frames) := by
  cases h with
  | head h =>
    by_cases hlength : src.length < HEADER_LEN
    · refine ⟨_, src, ?_, .head h⟩
      simp [decode, if_pos hlength]
    · have hlengths := congrArg length h
      rw [stream, flatMap_cons, Frame.bytes, append_assoc] at h
      simp only [stream, flatMap_cons, Frame.bytes, length_append, Frame.length_header] at hlengths
      simp only [stream] at hlt
      obtain ⟨htake, hdrop, hsrc⟩ := split_arrived h (by
        rw [length_append]
        omega)
      rw [Frame.length_header] at htake hdrop hsrc
      have hheader := decode_header hf htake hsrc rfl
      rw [CodecBuilder.finish] at hheader
      refine ⟨_, src.drop HEADER_LEN, ?_, .body hdrop⟩
      rw [hheader]
      rw [decode_body, if_pos (by rw [length_drop]; omega)]
  | body h =>
    refine ⟨_, src, ?_, .body h⟩
    have hlengths := congrArg length h
    simp only [length_append] at hlengths
    simp only [decode]
    rw [decode_body, if_pos (by omega)]

theorem decode_end (h : Awaits parsers builder rest codec src []) :
    decode parsers codec src = (.ok none, codec, src) := by
  cases h with
  | head h =>
    obtain ⟨rfl, -⟩ := append_eq_nil_iff.mp h
    rfl

theorem Awaits.append {chunk : List UInt8}
    (h : Awaits parsers builder (chunk ++ rest) codec src frames) :
    Awaits parsers builder rest codec (src ++ chunk) frames := by
  cases h with
  | head h => exact .head (by rw [append_assoc, h])
  | body h => exact .body (by rw [append_assoc, h])

/-! ## The rounds of a stream -/

def missingAfter : List (List UInt8) → List Nat
  | [] => []
  | _ :: chunks => chunks.flatten.length :: missingAfter chunks

theorem total_stream (frames : List Frame) :
    total (fun f : Frame => (f.bytes parsers builder).length) frames =
      (stream parsers builder frames).length := by
  rw [total, stream, length_flatMap]

theorem drain_round
    (hframes : ∀ f ∈ frames, f.Accepted parsers builder) (h : Awaits parsers builder rest codec src frames) :
    ∃ codec' src', drain parsers codec src =
        ⟨(round (fun f : Frame => (f.bytes parsers builder).length) (Frame.message parsers builder)
          rest.length frames).1, none, codec', src'⟩ ∧
      Awaits parsers builder rest codec' src' (round
        (fun f : Frame => (f.bytes parsers builder).length) (Frame.message parsers builder) rest.length
        frames).2 := by
  fun_induction round (fun f : Frame => (f.bytes parsers builder).length)
    (Frame.message parsers builder) rest.length frames generalizing codec src with
  | case1 => exact ⟨codec, src, drain_none (decode_end h), h⟩
  | case2 f frames hle m hm ih =>
    rw [total_stream] at hle
    obtain ⟨src₁, hdecode, hawaits⟩ := decode_arrived (hframes f mem_cons_self) h hle
    rw [hm] at hdecode
    obtain ⟨codec', src', hdrain, hnext⟩ := ih (fun g hg => hframes g (mem_cons_of_mem _ hg)) hawaits
    refine ⟨codec', src', ?_, hnext⟩
    rw [drain_some hdecode, hdrain]
  | case3 f frames hle hm =>
    rw [total_stream] at hle
    obtain ⟨src', hdecode, hawaits⟩ := decode_arrived (hframes f mem_cons_self) h hle
    rw [hm] at hdecode
    exact ⟨_, src', drain_none hdecode, hawaits⟩
  | case4 f frames hlt =>
    rw [total_stream, Nat.not_le] at hlt
    obtain ⟨codec', src', hdecode, hawaits⟩ := decode_missing (hframes f mem_cons_self) h hlt
    exact ⟨codec', src', drain_none hdecode, hawaits⟩

theorem feed_rounds {chunks : List (List UInt8)}
    (hframes : ∀ f ∈ frames, f.Accepted parsers builder)
    (h : Awaits parsers builder chunks.flatten codec src frames) :
    (feed parsers codec src chunks).error = none ∧
      (feed parsers codec src chunks).messages = (rounds
        (fun f : Frame => (f.bytes parsers builder).length) (Frame.message parsers builder)
        (missingAfter chunks) frames).1 := by
  induction chunks generalizing codec src frames with
  | nil => exact ⟨rfl, rfl⟩
  | cons chunk chunks ih =>
    rw [flatten_cons] at h
    obtain ⟨codec', src', hdrain, hawaits⟩ := drain_round hframes h.append
    have hleft := round_subset (fun f : Frame => (f.bytes parsers builder).length)
      (Frame.message parsers builder) chunks.flatten.length frames
    obtain ⟨herror, hmessages⟩ := ih (fun f hf => hframes f (hleft hf)) hawaits
    simp [feed, hdrain, missingAfter, rounds, herror, hmessages]

theorem arriving_missingAfter (chunks : List (List UInt8)) : Arriving (missingAfter chunks) := by
  have hle : ∀ chunks : List (List UInt8), ∀ n ∈ missingAfter chunks, n ≤ chunks.flatten.length := by
    intro chunks
    induction chunks with
    | nil => simp [missingAfter]
    | cons chunk chunks ih =>
      intro n hn
      rw [flatten_cons, length_append]
      rcases mem_cons.mp hn with rfl | hn
      · omega
      · have := ih n hn
        omega
  induction chunks with
  | nil => exact ⟨Pairwise.nil, by simp [missingAfter]⟩
  | cons chunk chunks ih =>
    refine ⟨pairwise_cons.mpr ⟨hle chunks, ih.sorted⟩, fun n hn => ?_⟩
    cases chunks with
    | nil =>
      cases hn
      rfl
    | cons next chunks =>
      rw [missingAfter, missingAfter, getLast?_cons_cons] at hn
      exact ih.complete n hn

/-- Each frame with an unknown command that has a known one behind it is in the buffer in more rounds
than there are such frames from it on. -/
def SkipsInTime (parsers : Parsers Message) (builder : CodecBuilder) (frames : List Frame)
    (chunks : List (List UInt8)) : Prop :=
  InTime (fun f : Frame => (f.bytes parsers builder).length) Frame.known (missingAfter chunks) frames

end Codec

/-- All messages of the known frames are decoded exactly if the chunks leave enough rounds behind
the unknown ones. -/
theorem messages_decoded_iff {Message : Type} {parsers : Parsers Message} {builder : CodecBuilder}
    {frames : List Frame} {chunks : List (List UInt8)}
    (hframes : ∀ f ∈ frames, f.Accepted parsers builder)
    (hchunks : chunks.flatten = stream parsers builder frames) :
    ((Codec.feed parsers builder.finish [] chunks).error = none ∧
      (Codec.feed parsers builder.finish [] chunks).messages =
        frames.filterMap (Frame.message parsers builder)) ↔
      Codec.SkipsInTime parsers builder frames chunks := by
  obtain ⟨herror, hmessages⟩ := feed_rounds hframes (.head (nil_append _ |>.trans hchunks))
  -- a frame has a header, so there is a chunk
  have hne : frames.filterMap (Frame.message parsers builder) ≠ [] → missingAfter chunks ≠ [] := by
    intro hknown
    cases chunks with
    | nil =>
      cases frames with
      | nil => exact absurd rfl hknown
      | cons f frames =>
        have hlength := congrArg length hchunks
        simp only [stream, flatten_nil, length_nil, flatMap_cons, Frame.bytes,
          length_append, Frame.length_header, HEADER_LEN] at hlength
        omega
    | cons chunk chunks => exact cons_ne_nil _ _
  unfold SkipsInTime
  rw [CodecBuilder.finish, hmessages, rounds_eq_iff (arriving_missingAfter chunks) hne,
    InTime.congr fun f hf => (hframes f hf).message_eq_none]
  exact and_iff_right herror

namespace Sample

def bodySum (body : List UInt8) : Bytes 4 :=
  ⟨leBytes 4 (body.foldl (fun sum b => 31 * sum + b.toNat) 1), length_leBytes ..⟩

def commandParsers : Parsers (Command × List UInt8) := ⟨bodySum, fun c _ body => .ok (c, body)⟩

def sendCmpct : Frame := ⟨⟨['s', 'e', 'n', 'd', 'c', 'm', 'p', 'c', 't'].map (fun ch => UInt8.ofNat ch.toNat) ++
  [0, 0, 0], rfl⟩, 1 :: leBytes 8 2, by decide⟩

def verackFrame : Frame := ⟨⟨Command.Verack.bytes, rfl⟩, [], by decide⟩

def pingFrame : Frame := ⟨⟨Command.Ping.bytes, rfl⟩, leBytes 8 77, by decide⟩

theorem frames_accepted : ∀ f ∈ [sendCmpct, verackFrame, pingFrame], f.Accepted commandParsers .new := by
  intro f hf
  refine ⟨?_, fun c _ => ⟨(c, f.body), rfl⟩⟩
  simp only [mem_cons, not_mem_nil, or_false] at hf
  rcases hf with rfl | rfl | rfl <;> decide

end Sample

open Sample

/-- Cut behind the unknown frame, the ones after it are decoded. -/
theorem verack_in_own_chunk : (Codec.feed commandParsers CodecBuilder.new.finish []
      [sendCmpct.bytes commandParsers .new,
        verackFrame.bytes commandParsers .new ++ pingFrame.bytes commandParsers .new]).messages =
      [(.Verack, []), (.Ping, leBytes 8 77)] := by
  refine ((messages_decoded_iff frames_accepted ?_).mpr ?_).2
  · rfl
  · unfold SkipsInTime
    simp only [inTime_cons]
    refine ⟨fun _ _ => by decide, fun hunknown => absurd hunknown (by decide), fun _ hnil => absurd rfl hnil, ?_⟩
    intro f rest hsuffix
    cases suffix_nil.mp hsuffix

/-- In one chunk, the message behind an unknown frame is not decoded. -/
theorem message_behind_unknown_waits : (Codec.feed commandParsers CodecBuilder.new.finish []
      [sendCmpct.bytes commandParsers .new ++
        verackFrame.bytes commandParsers .new]).messages = [] ∧
      [sendCmpct, verackFrame].filterMap (Frame.message commandParsers .new) = [(.Verack, [])] := by
  refine ⟨?_, by decide⟩
  rw [feed, drain_none rfl]
  rfl

end ZebraCrosslink
