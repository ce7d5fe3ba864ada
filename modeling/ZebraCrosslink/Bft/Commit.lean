import ZebraCrosslink.Bft.Applied
import ZebraCrosslink.Bft.StakeRun
import ZebraCrosslink.Rust.Returns

/-!
# Committing a block that validated

The commit of a valid block also needs its height to be the next one, and the stake of the newly
final blocks to fit.
-/

open Rust List

namespace ZebraCrosslink

variable {E : Type}

/-! ## The stake part of a commit -/

def notBoundary (s : TFLServiceInternal) (l : List ContextuallyVerifiedBlock) :
    List ContextuallyVerifiedBlock :=
  l.filter fun b => s.current_bc_final.map (·.2) ≠ some b.hash

theorem apply_final_blocks_stake (p : Profile) (l : List ContextuallyVerifiedBlock)
    (s : TFLServiceInternal) :
    apply_final_blocks p (l.map fun b => ((b.height, b.hash), some b.block)) s =
      (stake_blocks p ((notBoundary s l).map (·.block)) s.validators_at_current_height
        s.validators_keys_to_names).map fun r => { s with
          validators_at_current_height := r.1
          validators_keys_to_names := r.2
          final_change_tx := s.final_change_tx ++ (notBoundary s l).map fun b => (b.height, b.hash) } := by
  induction l generalizing s with
  | nil => simp [apply_final_blocks, notBoundary, stake_blocks, Except.map]
  | cons b rest ih =>
    rw [map_cons, apply_final_blocks, apply_final_block]
    by_cases hskip : s.current_bc_final.map (·.2) = some b.hash
    · have hrest : notBoundary s (b :: rest) = notBoundary s rest :=
        filter_cons_of_neg (by simp [hskip])
      rw [if_pos hskip, hrest, ← ih s]
      rfl
    · have hrest : notBoundary s (b :: rest) = b :: notBoundary s rest :=
        filter_cons_of_pos (by simpa using hskip)
      rw [if_neg hskip, hrest]
      simp only [map_cons, stake_blocks, stake_block]
      cases hreward : distribute_rewards p s.validators_at_current_height with
      | error err => rfl
      | ok roster =>
        cases hroster : update_roster_for_block p roster s.validators_keys_to_names b.block with
        | error err => simp [apply_final_block.stake, hroster, bind, Except.bind, Except.map]
        | ok r =>
          simp only [apply_final_block.stake, hroster, bind, Except.bind, pure, Except.pure]
          rw [ih]
          simp [notBoundary]

/-- The PoW blocks that a commit makes final, on the best chain `c`. -/
def newlyFinal (c : PowChain) (s : TFLServiceInternal) (nf : Nat × BlockHash) : List Block :=
  match c.heightOf (sequenceStart s nf) with
  | none => []
  | some i =>
    if nf.1 < i then []
    else (notBoundary s (c.slice i (max i (c.stopAt (some nf.2))))).map (·.block)

theorem newlyFinal_of_off {c : PowChain} {s : TFLServiceInternal} {nf : Nat × BlockHash}
    (h : ∀ i, c.heightOf (sequenceStart s nf) = some i → nf.1 < i) : newlyFinal c s nf = [] := by
  unfold newlyFinal
  split
  · rfl
  · rename_i i hi
    rw [if_pos (h i hi)]

theorem walk_entries (c : PowChain) (a b : Nat) :
    (c.heightHashes a b).zip ((c.slice a b).map fun b => some b.block) =
      (c.slice a b).map fun b => ((b.height, b.hash), some b.block) :=
  zip_map' ..

section Walk

variable {node : Node E} {view : E → ReadStateService} {e e' : E} {c : PowChain}
  {s s' : TFLServiceInternal} {nf : Nat × BlockHash} {fuel : Nat}

theorem apply_new_final_staked (hcall : AnswersReads node.call view) (hs : (view e).Shows c)
    (h : apply_new_final node fuel s nf e = .ok (s', e')) :
    ∃ names, stake_blocks node.profile (newlyFinal c s nf) s.validators_at_current_height
      s.validators_keys_to_names = .ok (s'.validators_at_current_height, names) := by
  obtain ⟨hashes, infos, s₁, hseq, happly, rfl⟩ := (apply_new_final_ok ..).mp h
  obtain ⟨-, ⟨i, hi, hle, rfl, rfl⟩ | ⟨hoff, rfl, rfl⟩⟩ := block_sequence_result hcall hs hseq
  · rw [walk_entries, apply_final_blocks_stake] at happly
    rw [newlyFinal, hi]
    simp only
    rw [if_neg (by omega)]
    generalize stake_blocks node.profile _ _ _ = staked at happly ⊢
    cases staked with
    | error err => cases happly
    | ok r =>
      cases happly
      exact ⟨r.2, rfl⟩
  · cases happly
    rw [newlyFinal_of_off hoff]
    exact ⟨_, rfl⟩

theorem apply_new_final_returns (hcall : AnswersReads node.call view) (hs : (view e).Shows c)
    (hfuel : c.blocks.length < fuel) {r : List MalValidator × KeysToNames}
    (hr : stake_blocks node.profile (newlyFinal c s nf) s.validators_at_current_height
      s.validators_keys_to_names = .ok r) : ∃ s', apply_new_final node fuel s nf e = .ok (s', e) ∧
      s'.validators_at_current_height = r.1 := by
  by_cases hon : ∃ i, c.heightOf (sequenceStart s nf) = some i ∧ i ≤ nf.1
  · obtain ⟨i, hi, hle⟩ := hon
    have hstop := c.stopAt_le (some nf.2)
    obtain hok | ⟨hlow, -⟩ := block_sequence_slice hcall hs hi hle nf.2 fuel
    · rw [newlyFinal, hi] at hr
      simp only at hr
      rw [if_neg (by omega)] at hr
      have happly := apply_final_blocks_stake node.profile
        (c.slice i (max i (c.stopAt (some nf.2)))) s
      rw [hr, ← walk_entries] at happly
      exact ⟨_, (apply_new_final_ok ..).mpr ⟨_, _, _, hok, happly, rfl⟩, rfl⟩
    · omega
  · have hoff : ∀ i, c.heightOf (sequenceStart s nf) = some i → nf.1 < i := by
      intro i hi
      by_contra hle
      exact hon ⟨i, hi, not_lt.mp hle⟩
    rw [newlyFinal_of_off hoff] at hr
    cases hr
    exact ⟨_, (apply_new_final_ok ..).mpr
      ⟨_, _, s, block_sequence_empty hcall hs hoff nf.2 fuel, rfl, rfl⟩, rfl⟩

end Walk

/-! ## Builds without overflow checks -/

def wrappedTotal (roster : List MalValidator) : UInt64 := (roster.map (·.voting_power)).sum

def wrappedShare (T v : UInt64) : UInt64 := .ofNat (v.toNat * pos_total_reward.toNat / T.toNat)

/-- The shares of all finalizers but the max staker `m`. -/
def wrappedShares (T : UInt64) (m : Nat) : Nat → List MalValidator → UInt64
  | _, [] => 0
  | i, f :: rest =>
    (if i = m then 0 else wrappedShare T f.voting_power) + wrappedShares T m (i + 1) rest

/-- The total does not wrap to zero, and the max staker is left with at least its share. -/
def PaysReward (roster : List MalValidator) : Prop :=
  let m := (ledger roster).maxStaker
  let T := wrappedTotal roster
  (ledger roster).total = 0 ∨ T ≠ 0 ∧
    wrappedShare T (powerAt roster m) ≤ pos_total_reward - wrappedShares T m 0 roster

theorem addU64_release (a b : UInt64) : addU64 .release a b = .ok (a + b) := if_neg (by simp)

theorem subU64_release (a b : UInt64) : subU64 .release a b = .ok (a - b) := if_neg (by simp)

section Release

variable {T : UInt64} {m : Nat}

theorem scan_power_release (rest seen : List MalValidator) (t : UInt64) :
    scan_power .release (seen ++ rest) rest seen.length t (ledger seen).firstMax =
      .ok (t + wrappedTotal rest, (ledger (seen ++ rest)).firstMax) := by
  induction rest generalizing seen t with
  | nil => simp [scan_power, wrappedTotal]
  | cons f rest ih =>
    have hsplit : seen ++ f :: rest = (seen ++ [f]) ++ rest := by simp
    have hlen : seen.length + 1 = (seen ++ [f]).length := by simp
    have hsum : wrappedTotal (f :: rest) = f.voting_power + wrappedTotal rest := by
      simp [wrappedTotal]
    simp only [scan_power]
    split
    · rename_i h0
      have hmax : (ledger seen).firstMax = (ledger (seen ++ [f])).firstMax := by
        rw [ledger_append, ledger_cons, (voting_power_eq_zero f).mp h0]
        exact (Ledger.firstMax_append_zero _ _).symm
      rw [hsplit, hlen, hmax, ih, hsum, h0, zero_add]
    · rename_i h0
      rw [next_max_eq seen (f :: rest) f h0, addU64_release, hsplit, hlen, hsum, ← add_assoc]
      exact ih (seen ++ [f]) _

theorem share_rewards_release (hT : T ≠ 0) (rest : List MalValidator) (i : Nat) (sum : UInt64) :
    ∃ r, share_rewards .release T (some m) rest i sum = .ok (r, sum + wrappedShares T m i rest) ∧
      (i ≤ m → powerAt r (m - i) = powerAt rest (m - i)) := by
  induction rest generalizing i sum with
  | nil => exact ⟨[], by simp [share_rewards, wrappedShares], fun _ => rfl⟩
  | cons f rest ih =>
    have hround : ∃ f', share_reward .release T (some m) i f sum =
        .ok (f', sum + if i = m then 0 else wrappedShare T f.voting_power) ∧ (i = m → f' = f) := by
      unfold share_reward
      by_cases h0 : f.voting_power = 0
      · exact ⟨f, by simp [h0, wrappedShare], fun _ => rfl⟩
      · rw [if_neg h0]
        by_cases him : i = m
        · exact ⟨f, by simp [him], fun _ => rfl⟩
        · refine ⟨{ f with voting_power := f.voting_power + wrappedShare T f.voting_power }, ?_,
            fun h => absurd h him⟩
          simp only [him, if_false, reward_share, if_neg hT]
          rfl
    obtain ⟨f', hf', hsame⟩ := hround
    obtain ⟨r, hr, hpower⟩ := ih (i + 1) (sum + if i = m then 0 else wrappedShare T f.voting_power)
    refine ⟨f' :: r, ?_, fun hle => ?_⟩
    · simp only [share_rewards, hf', bind, Except.bind, hr]
      rw [wrappedShares, add_assoc]
      rfl
    · rcases hle.eq_or_lt with rfl | hlt
      · simp [powerAt, hsame rfl]
      · have hstep : m - i = m - (i + 1) + 1 := by omega
        have := hpower hlt
        simpa [powerAt, hstep] using this

theorem distribute_rewards_release (roster : List MalValidator) :
    Returns (distribute_rewards .release roster) ↔ PaysReward roster := by
  have hscan : scan_power .release roster roster 0 0 none =
      .ok (wrappedTotal roster, (ledger roster).firstMax) := by
    have h := scan_power_release roster [] 0
    rwa [zero_add] at h
  unfold distribute_rewards PaysReward
  simp only [hscan, bind, Except.bind]
  by_cases h0 : (ledger roster).total = 0
  · have hzero : ∀ f ∈ roster, f.voting_power = 0 := fun f hf =>
      (voting_power_eq_zero f).mpr (Nat.eq_zero_of_le_zero (h0 ▸ power_le_total roster f hf))
    rw [Ledger.firstMax, if_pos h0, share_rewards_none _ _ _ _ _ hzero]
    exact iff_of_true (.ok _) (.inl h0)
  · rw [Ledger.firstMax, if_neg h0]
    simp only [h0, false_or]
    by_cases hT : wrappedTotal roster = 0
    · rw [hT]
      cases share_rewards .release 0 (some (ledger roster).maxStaker) roster 0 0 with
      | error err => exact iff_of_false not_returns_error fun h => h.1 rfl
      | ok r => exact iff_of_false not_returns_error fun h => h.1 rfl
    · obtain ⟨r, hr, hpower⟩ := share_rewards_release (m := (ledger roster).maxStaker) hT roster 0 0
      have hmax := hpower (Nat.zero_le _)
      rw [Nat.sub_zero] at hmax
      rw [hr, zero_add]
      simp only [pay_max_staker, reward_share, if_neg hT, subU64_release, hmax, bind, Except.bind]
      change Returns (if wrappedShare _ _ ≤ _ then _ else _) ↔ _
      split
      · next h => exact iff_of_true (.ok _) ⟨hT, h⟩
      · next h => exact iff_of_false not_returns_error fun h' => h h'.2

example : distribute_rewards .release [MalValidator.new (Sample.id 1) 9223372036854775808,
    MalValidator.new (Sample.id 2) 9223372036854775808] = .error .divByZero := by decide +kernel

example : (distribute_rewards .release [MalValidator.new (Sample.id 1) 18446744073709551615,
    MalValidator.new (Sample.id 2) 2]).isOk = true := by decide +kernel

theorem update_roster_for_cmd_release (roster : List MalValidator) (names : KeysToNames)
    (action : StakingAction) : Returns (update_roster_for_cmd .release roster names action) := by
  have hsub : Returns (subtract_stake .release roster action) := by
    unfold subtract_stake sub_amount
    repeat' split
    all_goals exact ⟨_, rfl⟩
  refine hsub.bind fun taken _ => ?_
  unfold add_stake
  repeat' split
  all_goals exact ⟨_, rfl⟩

theorem update_roster_for_transactions_release (txs : List Transaction) (roster : List MalValidator)
    (names : KeysToNames) (c : Nat) :
    Returns (update_roster_for_transactions .release txs roster names c) := by
  induction txs generalizing roster names c with
  | nil => exact .ok _
  | cons tx rest ih =>
    unfold update_roster_for_transactions
    split
    · exact ih roster names c
    · exact (update_roster_for_cmd_release roster names _).bind fun r _ => ih _ _ _

/-- Each block pays its reward to the roster that the blocks before it leave. -/
def BlocksPay : List Block → List MalValidator → KeysToNames → Prop
  | [], _, _ => True
  | b :: rest, roster, names =>
    PaysReward roster ∧ ∀ r, stake_block .release roster names b = .ok r → BlocksPay rest r.1 r.2

theorem stake_blocks_release (blocks : List Block) (roster : List MalValidator)
    (names : KeysToNames) :
    Returns (stake_blocks .release blocks roster names) ↔ BlocksPay blocks roster names := by
  induction blocks generalizing roster names with
  | nil => exact iff_of_true (.ok _) trivial
  | cons b rest ih =>
    simp only [stake_blocks, BlocksPay, Returns, except_bind_ok, ← distribute_rewards_release]
    constructor
    · rintro ⟨r, r₁, hblock, hrest⟩
      obtain ⟨paid, hpaid, -⟩ := except_bind_ok.mp hblock
      refine ⟨⟨paid, hpaid⟩, fun r' hr' => ?_⟩
      cases hblock.symm.trans hr'
      exact (ih r₁.1 r₁.2).mp ⟨r, hrest⟩
    · rintro ⟨⟨paid, hpaid⟩, hrest⟩
      obtain ⟨u, hu⟩ := update_roster_for_transactions_release b.transactions paid names 0
      have hblock : stake_block .release roster names b = .ok (u.1, u.2.1) := by
        rw [stake_block, hpaid]
        change update_roster_for_block .release paid names b >>= _ = _
        rw [update_roster_for_block, hu]
        rfl
      obtain ⟨r, hr⟩ := (ih u.1 u.2.1).mpr (hrest _ hblock)
      exact ⟨r, _, hblock, hr⟩

theorem cumulate_release (ms : List SortedRosterMember) (c : UInt64) :
    Returns (cumulate .release ms c) := by
  induction ms generalizing c with
  | nil => exact .ok _
  | cons m rest ih =>
    rw [cumulate, addU64_release]
    exact (ih (c + m.stake)).bind fun _ _ => .ok _

theorem stake_commit_release (order : PubKeyOrder) (blocks : List Block)
    (roster : List MalValidator) (names : KeysToNames) :
    Returns (stake_commit .release order roster names blocks) ↔ BlocksPay blocks roster names := by
  rw [← stake_blocks_release]
  constructor
  · rintro ⟨r, hr⟩
    exact ⟨r, ((stake_commit_ok ..).mp hr).1⟩
  · rintro ⟨r, hr⟩
    obtain ⟨members, hm⟩ := cumulate_release ((unsummed r.1).insertionSort fun a b => a.before order b) 0
    refine ⟨r, (stake_commit_ok ..).mpr ⟨hr, members, ?_⟩⟩
    rw [tenderlink_roster_eq]
    exact hm

theorem stake_commit_returns (p : Profile) (order : PubKeyOrder) (blocks : List Block)
    (roster : List MalValidator) (names : KeysToNames) :
    Returns (stake_commit p order roster names blocks) ↔
      match p with
      | .dev => (ledger roster).CommitFits blocks
      | .release => BlocksPay blocks roster names := by
  cases p with
  | dev => exact (stake_commit_checked .dev order roster names blocks).dev_returns_iff
  | release => exact stake_commit_release order blocks roster names

end Release

/-! ## The commit -/

/-- The PoW state behind a commit: `best` is the best chain its replies show, and a finalize request
is answered with the hash or with an error. -/
structure PowService (call : TFLServiceCalls E) (view : E → ReadStateService)
    (best : E → PowChain) : Prop where
  reads : AnswersReads call view
  shows : ∀ e, (view e).Shows (best e)
  finalizes : ∀ x e, ∃ reply e', call.state (.CrosslinkFinalizeBlock x) e = .ok (reply, e') ∧
    (reply = .ok (.CrosslinkFinalized x) ∨ ∃ err, reply = .error err)

def afterFinalize (call : TFLServiceCalls E) (x : BlockHash) (e : E) : E :=
  match call.state (.CrosslinkFinalizeBlock x) e with
  | .ok (_, e') => e'
  | .error _ => e

def Completes (node : Node E) (s : TFLServiceInternal) (b : BftBlock) (fp : FatPointerToBftBlock2)
    (e : E) : Prop :=
  ∃ fuel s' roster e',
    new_decided_bft_block_from_malachite node fuel s b fp e = .ok ((s', roster), e')

section Commit

variable {node : Node E} {view : E → ReadStateService} {best : E → PowChain}
  {s : TFLServiceInternal} {b : BftBlock} {fp : FatPointerToBftBlock2} {e : E} {h : Nat}
  {x : BlockHash}

theorem crosslink_finalize_returns (hpow : PowService node.call view best) (x : BlockHash) (e : E) :
    crosslink_finalize node.call x e = .ok ((), afterFinalize node.call x e) := by
  obtain ⟨reply, e', hreply, hok⟩ := hpow.finalizes x e
  rw [afterFinalize, hreply, crosslink_finalize, bind_of_ok hreply]
  obtain rfl | ⟨err, rfl⟩ := hok
  · exact Exec.assert_of (beq_self_eq_true x) _ e'
  · rfl

theorem insert_next_height {C : Crypto} (p : Profile) (hinv : StoreInv C s) {S : Set BftBlock}
    (hcf : CollisionFree C S) (hS : ∀ a ∈ s.bft_blocks, a ∈ S)
    (hprev : b.previous_block_fat_ptr.points_at_block_hash =
      s.fat_pointer_to_tip.points_at_block_hash)
    (hheaders : b.headers ≠ []) (hheight : b.height.toNat = s.bft_blocks.length + 1) :
    insert_bft_block C p s.bft_blocks b = .ok (s.bft_blocks ++ [b]) := by
  have htip : ∀ a, s.bft_blocks.getLast? = some a →
      a.blake3_hash C = .ok b.previous_block_fat_ptr.points_at_block_hash := by
    intro a ha
    have := hinv.tip
    rwa [tipPointer, ha, ← hprev] at this
  refine (insert_bft_block_ok ..).mpr ⟨s.bft_blocks.length, .placeholder s.bft_blocks.length, ?_, ?_,
    ?_, ?_, rfl, hheaders, ?_⟩
  · rw [hheight]
    exact subUsize_of_le p _ 1 (by omega)
  · intro hpos
    obtain ⟨a, ha⟩ : ∃ a, s.bft_blocks.getLast? = some a :=
      ⟨_, getLast?_eq_some_getLast (ne_nil_of_length_pos hpos)⟩
    refine ⟨a, ?_, htip a ha⟩
    rw [padded_length, getElem?_append_left (by omega), ← getLast?_eq_getElem?, ha]
  · cases ha : s.bft_blocks.getLast? with
    | none => exact .inl (by rw [getLast?_eq_none_iff.mp ha, length_nil])
    | some a =>
      refine .inr fun hzero => hcf.nonzero a (hS a (mem_of_getLast? ha)) ?_
      rw [htip a ha, ← hzero]
      rfl
  · rw [padded_length, getElem?_concat_length]
  · rw [padded_length, set_append_right _ _ le_rfl, Nat.sub_self]
    rfl

theorem headers_of_final {C : Crypto} (hx : new_final_hash C b = .ok x) : b.headers ≠ [] := by
  rintro hnil
  rw [new_final_hash, hnil] at hx
  cases hx

/-- A block that validates commits exactly at the next height and when the stake of the newly final
blocks fits; without overflow checks, when each of their rewards can be paid. -/
theorem commit_completes_iff_next_height (hpow : PowService node.call view best)
    (is_regtest : Bool) (peers : List (MalPublicKey × String)) (own : MalPublicKey × String)
    (bs : List BftBlock) (run : Reached node (spawn_new_tfl_service is_regtest peers own) bs s)
    (hcf : CollisionFree node.crypto (writtenBlocks (bs ++ [b])))
    (hval : validate_bft_block_from_malachite_already_locked node s b e = .ok (.Pass, e))
    (hhash : b.blake3_hash node.crypto = .ok fp.points_at_block_hash)
    (hsig : fp.validate_signatures node.crypto = true) (hx : new_final_hash node.crypto b = .ok x)
    (hh : block_height_from_hash node.call x e = .ok (some h, e)) :
    let newly := newlyFinal (best (afterFinalize node.call x e)) s (h, x)
    let roster := s.validators_at_current_height
    (Completes node s b fp e ↔ b.height.toNat = s.bft_blocks.length + 1 ∧
      match node.profile with
      | .dev => (ledger roster).CommitFits newly
      | .release => BlocksPay newly roster s.validators_keys_to_names) ∧
    ((ledger roster).CommitFits newly → BlocksPay newly roster s.validators_keys_to_names) := by
  intro newly roster
  obtain ⟨hinv, hbs⟩ := run.storeInv (storeInv_spawn ..) rfl (hcf.mono (writtenBlocks_append bs b))
  have hS : ∀ a ∈ s.bft_blocks, a ∈ writtenBlocks (bs ++ [b]) := by
    rw [hbs]
    exact fun a ha => .inl (mem_append_left _ ha)
  have hprev := ((validate_pass ..).mp hval).1
  have hcheck : check_decided node s b fp e = .ok ((h, x), e) :=
    (check_decided_ok ..).mpr ⟨hhash, hsig, hx, e, hval, hh⟩
  have hfinalize := crosslink_finalize_returns hpow x e
  have hshows := hpow.shows (afterFinalize node.call x e)
  refine ⟨?_, fun hfits => ?_⟩
  · rw [← stake_commit_returns]
    constructor
    · rintro ⟨fuel, s', members, e', hstep⟩
      obtain ⟨-, -, -, hins, -⟩ := new_decided_leaves _ _ _ _ _ _ _ _ _ hstep
      obtain ⟨nf, e₁, blocks, e₂, hc, -, hf, ha, hmembers⟩ := (new_decided_ok ..).mp hstep
      obtain ⟨rfl, rfl⟩ := Prod.mk.inj (Except.ok.inj (hcheck.symm.trans hc))
      obtain ⟨-, rfl⟩ := Prod.mk.inj (Except.ok.inj (hfinalize.symm.trans hf))
      obtain ⟨names, hblocks⟩ := apply_new_final_staked hpow.reads hshows ha
      exact ⟨(insert_bft_block_appends _ _ _ hcf (fun i => .inr ⟨i, rfl⟩) s hS hinv b _ hprev hins).1,
        _, (stake_commit_ok ..).mpr ⟨hblocks, members, hmembers⟩⟩
    · rintro ⟨hheight, r, hr⟩
      obtain ⟨hblocks, members, hmembers⟩ := (stake_commit_ok ..).mp hr
      have hins := insert_next_height node.profile hinv hcf hS hprev (headers_of_final hx) hheight
      obtain ⟨s', hs', hvals⟩ := apply_new_final_returns hpow.reads hshows (Nat.lt_succ_self _)
        (s := { s with
          bft_blocks := s.bft_blocks ++ [b]
          fat_pointer_to_tip := fp
          latest_final_block := some (h, x) }) hblocks
      rw [← hvals] at hmembers
      exact ⟨_, s', members, _, (new_decided_ok ..).mpr
        ⟨(h, x), e, _, _, hcheck, hins, hfinalize, hs', hmembers⟩⟩
  · obtain ⟨r, hr, -⟩ := (stake_commit_checked .release node.order roster _ newly).returns hfits
    exact (stake_commit_release ..).mp ⟨r, hr⟩

end Commit

namespace Sample

theorem powService : PowService node₅.call (fun _ => reads) fun _ => best where
  reads := readNode_answers reads
  shows _ := reads_shows
  finalizes _ _ := ⟨_, _, rfl, .inr ⟨_, rfl⟩⟩

theorem proposal_hash :
    proposal.blake3_hash node₅.crypto = .ok (pointer proposal).points_at_block_hash := rfl

theorem proposal_completes : Completes node₅ start proposal (pointer proposal) () := by
  obtain ⟨roster, hstep⟩ := commit_eq_after
    (by decide +kernel : (commit node₅ start proposal).isOk = true)
  exact ⟨3, _, roster, (), hstep⟩

def jumping : BftBlock := bftBlock 5 FatPointerToBftBlock.null [header 11 12]

end Sample

open Sample

theorem commit_completes_iff_next_height_sample :
    proposal.height.toNat = start.bft_blocks.length + 1 ∧
      (ledger start.validators_at_current_height).CommitFits
        (newlyFinal best start (2, Sample.id 12)) := by
  have hcf : CollisionFree crypto (writtenBlocks [proposal]) :=
    collisionFree_of (forall_mem_singleton.mpr fun _ hh => by cases hh; rfl) (by decide +kernel)
  exact (commit_completes_iff_next_height powService true [] (Sample.id 1, "own") [] .start hcf rfl
    proposal_hash rfl rfl rfl).1.mp proposal_completes

/-- A first block for height 5 validates, and its commit panics. -/
theorem validated_block_panics :
    validate_bft_block_from_malachite_already_locked node₅ start jumping () = .ok (.Pass, ()) ∧
      jumping.blake3_hash crypto = .ok (pointer jumping).points_at_block_hash ∧
      (pointer jumping).validate_signatures crypto = true ∧
      ∀ fuel, new_decided_bft_block_from_malachite node₅ fuel start jumping
        (pointer jumping) () = .error (.assert "parent hash") :=
  ⟨rfl, rfl, rfl, fun _ => rfl⟩

end ZebraCrosslink
