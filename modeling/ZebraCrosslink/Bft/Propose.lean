import ZebraCrosslink.Bft.Store
import ZebraCrosslink.State.View

/-!
# Proposals over a fixed best chain

While the PoW state stands still, the proposal of a new BFT block is a function of the best chain.
-/

open Rust List

namespace ZebraCrosslink

variable {E : Type}

/-! ## Replies -/

def StateRequest.isRead : StateRequest → Bool
  | .CrosslinkFinalizeBlock _ => false
  | _ => true

/-- Read requests are answered from what `view` shows and change nothing. -/
def AnswersReads (call : TFLServiceCalls E) (view : E → ReadStateService) : Prop :=
  ∀ req e, req.isRead = true → call.state req e = ((view e).call req).map fun reply => (reply, e)

/-- With another limit than `MAX_FIND_BLOCK_HASHES_RESULTS`. -/
def ReadStateService.call_up_to (p : Profile) (s : ReadStateService) (limit : Nat) :
    StateRequest → StateReply
  | .FindBlockHashes known_blocks stop => do
    let hashes ← Read.U32.find_chain_hashes p s.non_finalized_state.best_chain s.db known_blocks stop limit
    pure (.ok (.BlockHashes hashes))
  | req => s.call req

def AnswersUpTo (p : Profile) (limit : Nat) (call : TFLServiceCalls E) (s : ReadStateService) (e : E) :
    Prop :=
  ∀ req, req.isRead = true → call.state req e = (s.call_up_to p limit req).map fun reply => (reply, e)

section Replies

variable {p : Profile} {call : TFLServiceCalls E} {view : E → ReadStateService} {s : ReadStateService}
  {limit : Nat} {e : E} {best : PowChain}

theorem AnswersReads.upTo (hcall : AnswersReads call view) (hs : (view e).Shows best) :
    AnswersUpTo p MAX_FIND_BLOCK_HASHES_RESULTS call (view e) e := by
  intro req hreq
  rw [hcall req e hreq]
  cases req with
  | FindBlockHashes known_blocks stop =>
    have hmax := best.short
    have hmost : MAX_HEIGHT + MAX_FIND_BLOCK_HASHES_RESULTS ≤ 2 ^ 32 := by decide
    have hstart := best.startAfter_le known_blocks
    rw [ReadStateService.call_up_to, Shown.u32_find_chain_hashes hs _ _ (by decide) (by omega)]
    rfl
  | _ => rfl

variable (hcall : AnswersUpTo p limit call s e)
include hcall

theorem AnswersUpTo.reply {req : StateRequest} {reply : Except String StateResponse}
    (hreq : req.isRead = true) (hsame : s.call_up_to p limit req = s.call req)
    (h : s.call req = .ok reply) : call.state req e = .ok (reply, e) := by
  rw [hcall req hreq, hsame, h]
  rfl

variable (hs : s.Shows best)
include hs

theorem AnswersUpTo.tip : call.state .Tip e =
      .ok (.ok (.Tip (best.blocks.getLast?.map fun b => (b.height, b.hash))), e) :=
  hcall.reply rfl rfl (by rw [ReadStateService.call, Shown.tip hs])

variable {b : ContextuallyVerifiedBlock} {h : Nat}

theorem AnswersUpTo.block_header (hb : best.blocks[h]? = some b) :
    call.state (.BlockHeader (.Height h)) e =
      .ok (.ok (.BlockHeader b.block.header b.hash h), e) := by
  refine hcall.reply rfl rfl ?_
  obtain ⟨hlt, -⟩ := List.getElem?_eq_some_iff.mp hb
  have hmax := best.short
  rw [ReadStateService.call, ReadStateService.block_header_reply]
  simp only [Shown.hash_by_height hs, PowChain.hashes_getElem?, hb, Option.map_some,
    Shown.block_header_by_height hs]
  rw [if_neg (by omega)]

theorem AnswersUpTo.block_header_of_hash {x : BlockHash} (hx : best.heightOf x = some h)
    (hb : best.blocks[h]? = some b) :
    call.state (.BlockHeader (.Hash x)) e = .ok (.ok (.BlockHeader b.block.header x h), e) := by
  refine hcall.reply rfl rfl ?_
  have hlt := PowChain.heightOf_lt hx
  have hmax := best.short
  rw [ReadStateService.call, ReadStateService.block_header_reply]
  simp only [Shown.height_by_hash hs, hx, hb, Option.map_some, Shown.block_header_by_height hs]
  rw [if_neg (by omega)]

theorem AnswersUpTo.no_block_header {x : BlockHash} (hx : best.heightOf x = none) :
    call.state (.BlockHeader (.Hash x)) e = .ok (.error "block hash or height not found", e) := by
  refine hcall.reply rfl rfl ?_
  rw [ReadStateService.call, ReadStateService.block_header_reply]
  simp only [Shown.height_by_hash hs, hx]

theorem AnswersUpTo.block (hb : best.blocks[h]? = some b) :
    call.state (.Block (.Hash b.hash)) e = .ok (.ok (.Block (some b.block)), e) := by
  refine hcall.reply rfl rfl ?_
  rw [ReadStateService.call, Shown.block_by_hash hs, PowChain.heightOf_of_getElem? hb,
    Option.bind_some, hb, Option.map_some]

theorem AnswersUpTo.hashes (hlimit : 0 < limit) (x : BlockHash) (hfits : best.startAt x + limit ≤ 2 ^ 32)
    (stop : Option BlockHash) :
    call.state (.FindBlockHashes [x] stop) e = .ok (.ok (.BlockHashes ((best.slice (best.startAt x)
        (min (best.startAt x + limit) (best.stopAt stop))).map (·.hash))), e) := by
  rw [hcall _ rfl, ReadStateService.call_up_to, Shown.u32_find_chain_hashes hs [x] stop hlimit
    (by rwa [best.startAfter_singleton]), Shown.find_chain_hashes hs x stop hlimit]
  rfl

theorem AnswersUpTo.headers (x : BlockHash) (stop : Option BlockHash) :
    call.state (.FindBlockHeaders [x] stop) e =
      .ok (.ok (.BlockHeaders ((best.slice (best.startAt x)
        (min (best.startAt x + MAX_FIND_BLOCK_HEADERS_RESULTS) (best.stopAt stop))).map
          (·.block.header))), e) := by
  refine hcall.reply rfl rfl ?_
  rw [ReadStateService.call, Shown.find_chain_headers hs x stop (by decide)]

end Replies

/-! ## Proposals -/

def PowChain.hashedBy (best : PowChain) (C : Crypto) : Prop :=
  ∀ b ∈ best.blocks, b.block.header.hash C.sha256d = .ok b.hash

section Propose

variable {node : Node E} {view : E → ReadStateService} {e e' : E} {best : PowChain} {b : BftBlock}
  {fp : FatPointerToBftBlock2} {s s' : TFLServiceInternal}

theorem try_from_headers {params : ZcashCrosslinkParameters} {height candidate : UInt32}
    {headers : List Header} (h : BftBlock.try_from params height fp candidate headers = .ok b) :
    b.headers = headers := by
  unfold BftBlock.try_from at h
  simp only at h
  split_ifs at h
  rw [← Except.ok.inj h]

theorem propose_headers (hcall : AnswersReads node.call view) (hs : (view e).Shows best)
    (h : propose_new_bft_block node s s' e = .ok (some b, e')) :
    ∃ t, best.blocks.length = t + 1 ∧ PROTOTYPE_PARAMETERS.bc_confirmation_depth_sigma ≤ t ∧
      b.headers = (best.blocks.drop
        (t - PROTOTYPE_PARAMETERS.bc_confirmation_depth_sigma + 1)).map (·.block.header) := by
  unfold propose_new_bft_block at h
  rw [bind_of_ok ((hcall.upTo (p := node.profile) hs).tip hs)] at h
  cases hlast : best.blocks.getLast? with
  | none =>
    rw [hlast] at h
    cases h
  | some last =>
    rw [List.getLast?_eq_getElem?] at hlast
    obtain ⟨hlt, -⟩ := List.getElem?_eq_some_iff.mp hlast
    have hheight := best.heights _ _ hlast
    rw [List.getLast?_eq_getElem?, hlast, Option.map_some] at h
    simp only at h
    split_ifs at h with hlow himp
    · cases h
    · obtain ⟨_, _, -, h⟩ := (bind_ok ..).mp h
      cases h
    rw [bind_ok] at h
    obtain ⟨_, _, hhash, h⟩ := h
    obtain ⟨-, rfl⟩ := (Exec.ofExcept_ok ..).mp hhash
    -- the candidate is on the chain, and the headers are the ones after it
    obtain ⟨c, hc⟩ : ∃ c, best.blocks[last.height -
        PROTOTYPE_PARAMETERS.bc_confirmation_depth_sigma]? = some c :=
      ⟨_, List.getElem?_eq_getElem (by omega)⟩
    rw [bind_of_ok ((hcall.upTo (p := node.profile) hs).block_header hs hc)] at h
    simp only at h
    rw [bind_of_ok ((hcall.upTo (p := node.profile) hs).headers hs c.hash none)] at h
    simp only [bind_ok, Exec.ofExcept_ok] at h
    obtain ⟨height, _, ⟨-, rfl⟩, h⟩ := h
    refine ⟨last.height, by omega, not_lt.mp hlow, ?_⟩
    have hsigma : PROTOTYPE_PARAMETERS.bc_confirmation_depth_sigma ≤
      MAX_FIND_BLOCK_HEADERS_RESULTS := by decide
    rw [PowChain.startAt, PowChain.heightOf_of_getElem? hc, PowChain.stopAt_none,
      Nat.min_eq_right (by simp only; omega), PowChain.slice, take_length] at h
    generalize hblock : BftBlock.try_from _ _ _ _ _ = block at h
    cases block with
    | error => cases h
    | ok block =>
      obtain ⟨hb, -⟩ := (pure_ok _ _ _ _).mp h
      rw [Option.some.inj hb]
      exact try_from_headers hblock

theorem finalized_hash {f : ContextuallyVerifiedBlock} (hhash : best.hashedBy node.crypto)
    (hf : f ∈ best.blocks) (hhead : b.headers.head? = some f.block.header) {fuel : Nat}
    {roster : List SortedRosterMember} {e e' : E}
    (h : new_decided_bft_block_from_malachite node fuel s b fp e = .ok ((s', roster), e')) :
    s'.latest_final_block.map (·.2) = some f.hash := by
  obtain ⟨⟨height, x⟩, e₁, hc, -, -, hl, -, -⟩ := new_decided_leaves _ _ _ _ _ _ _ _ _ h
  obtain ⟨-, -, hx, -⟩ := (check_decided_ok ..).mp hc
  rw [new_final_hash, hhead] at hx
  simp only at hx
  rw [hhash f hf, Except.ok.injEq] at hx
  rw [hl, Option.map_some, hx]

/-- What a commit of a proposal finalizes is neither the block at the candidate height nor the
header that `finalization_candidate` returns. -/
theorem proposal_finalizes_above_candidate (hcall : AnswersReads node.call view)
    (hs : (view e).Shows best) (hhash : best.hashedBy node.crypto) {s s' : TFLServiceInternal}
    {b : BftBlock} (h : propose_new_bft_block node s s' e = .ok (some b, e')) :
    ∃ t candidate finalized, best.blocks.length = t + 1 ∧
      best.blocks[t - PROTOTYPE_PARAMETERS.bc_confirmation_depth_sigma]? = some candidate ∧
      best.blocks[t - PROTOTYPE_PARAMETERS.bc_confirmation_depth_sigma + 1]? = some finalized ∧
      new_final_hash node.crypto b = .ok finalized.hash ∧ finalized.hash ≠ candidate.hash ∧
      b.finalization_candidate ≠ .ok finalized.block.header ∧
      ∀ fuel internal internal' fp roster e₁ e₂,
        new_decided_bft_block_from_malachite node fuel internal b fp e₁ =
          .ok ((internal', roster), e₂) →
        internal'.latest_final_block.map (·.2) = some finalized.hash := by
  obtain ⟨t, hlen, hsigma, hheaders⟩ := propose_headers hcall hs h
  have hdepth : PROTOTYPE_PARAMETERS.bc_confirmation_depth_sigma = 3 := rfl
  obtain ⟨c, hc⟩ : ∃ c, best.blocks[t - PROTOTYPE_PARAMETERS.bc_confirmation_depth_sigma]? = some c :=
    ⟨_, getElem?_eq_getElem (by omega)⟩
  obtain ⟨f, hf⟩ : ∃ f,
      best.blocks[t - PROTOTYPE_PARAMETERS.bc_confirmation_depth_sigma + 1]? = some f :=
    ⟨_, getElem?_eq_getElem (by omega)⟩
  obtain ⟨l, hl⟩ : ∃ l, best.blocks[t]? = some l := ⟨_, getElem?_eq_getElem (by omega)⟩
  have hhead : b.headers.head? = some f.block.header := by
    rw [hheaders, head?_map, head?_drop, hf, Option.map_some]
  have hlast : b.headers.getLast? = some l.block.header := by
    rw [hheaders, getLast?_map, getLast?_drop, if_neg (by omega),
      getLast?_eq_getElem?, hlen, Nat.add_sub_cancel, hl, Option.map_some]
  have hfh := hhash f (mem_of_getElem? hf)
  have hlh := hhash l (mem_of_getElem? hl)
  refine ⟨t, c, f, hlen, hc, hf, ?_, fun heq => ?_, fun heq => ?_, fun _ _ _ _ _ _ _ hstep => ?_⟩
  · rw [new_final_hash, hhead]
    exact hfh
  · have := PowChain.height_inj hf hc heq
    omega
  · rw [BftBlock.finalization_candidate, hlast] at heq
    have hhl : l.hash = f.hash := by
      rw [Except.ok.inj heq, hfh] at hlh
      exact (Except.ok.inj hlh).symm
    have := PowChain.height_inj hl hf hhl
    omega
  · exact finalized_hash hhash (mem_of_getElem? hf) hhead hstep

end Propose

/-! ## A sample chain -/

namespace Sample

def powBlock (height : Nat) (transactions : List Transaction) : ContextuallyVerifiedBlock where
  block := {
    header := header (UInt8.ofNat (9 + height)) (UInt8.ofNat (10 + height))
    transactions := transactions }
  hash := id (UInt8.ofNat (10 + height))
  height := height

def powBlocks (len : Nat) : List ContextuallyVerifiedBlock :=
  (range len).map fun height => powBlock height []

def best : PowChain where
  blocks := powBlocks 5
  heights i b hb := by
    obtain ⟨j, hj, rfl⟩ := Option.map_eq_some_iff.mp (List.getElem?_map .. ▸ hb)
    obtain ⟨hlt, rfl⟩ := List.getElem?_eq_some_iff.mp hj
    exact List.getElem_range hlt
  linked := by decide +kernel
  nodup := by decide +kernel
  genesis := by decide +kernel
  short := by decide +kernel

def reads : ReadStateService where
  non_finalized_state := { chain_set := [⟨best.blocks.drop 2⟩], invalidated_blocks := [] }
  db := ⟨best.blocks.take 2⟩

def readNode (s : ReadStateService) : Node Unit where
  crypto := crypto
  order := byteOrder
  profile := .dev
  call := { state := fun req e => (s.call req).map fun reply => (reply, e) }

theorem readNode_answers (s : ReadStateService) : AnswersReads (readNode s).call fun _ => s :=
  fun _ _ _ => rfl

theorem reads_shows : reads.Shows best where
  db_part := take_prefix _ _
  chain_none := nofun
  chain_some := by
    rintro _ ⟨⟩
    exact ⟨2, by decide +kernel, by decide +kernel, rfl⟩

theorem best_hashed : best.hashedBy crypto := by
  unfold PowChain.hashedBy
  decide +kernel

def proposal : BftBlock :=
  bftBlock 1 FatPointerToBftBlock.null [header 11 12, header 12 13, header 13 14]

theorem propose_sample :
    propose_new_bft_block (readNode reads) start start () = .ok (some proposal, ()) := by
  rfl

end Sample

open Sample

theorem proposal_finalizes_above_candidate_sample :
    ∃ t candidate finalized, best.blocks.length = t + 1 ∧
      best.blocks[t - PROTOTYPE_PARAMETERS.bc_confirmation_depth_sigma]? = some candidate ∧
      best.blocks[t - PROTOTYPE_PARAMETERS.bc_confirmation_depth_sigma + 1]? = some finalized ∧
      new_final_hash crypto proposal = .ok finalized.hash ∧ finalized.hash ≠ candidate.hash ∧
      proposal.finalization_candidate ≠ .ok finalized.block.header ∧
      ∀ fuel internal internal' fp roster e₁ e₂,
        new_decided_bft_block_from_malachite (readNode reads) fuel internal
          proposal fp e₁ = .ok ((internal', roster), e₂) →
        internal'.latest_final_block.map (·.2) = some finalized.hash :=
  proposal_finalizes_above_candidate (readNode_answers reads) reads_shows best_hashed propose_sample

/-- The candidate is at height 1, but the commit finalizes height 2 and `finalization_candidate` is
the tip. -/
theorem proposal_finalizes_height_two : propose_new_bft_block (readNode reads) start start () =
        .ok (some proposal, ()) ∧ (new_decided_bft_block_from_malachite (readNode reads) 3 start
        proposal (pointer proposal) ()).map (·.1.1.latest_final_block) =
          .ok (some (2, Sample.id 12)) ∧ best.blocks[1]?.map (·.hash) = some (Sample.id 11) ∧
      proposal.finalization_candidate = .ok (header 13 14) :=
  ⟨rfl, rfl, rfl, rfl⟩

end ZebraCrosslink
