import ZebraCrosslink.Chain.Network

/-!
# Block subsidy and funding streams

The halving at a height, the subsidy of a block, and what of it goes to the funding streams.
-/

open Rust List

namespace ZebraCrosslink

def MAX_BLOCK_SUBSIDY : Nat := 1250000000

def BLOSSOM_POW_TARGET_SPACING_RATIO : Nat := 2

inductive SubsidyError
  | NoCoinbase
  | FundingStreamNotFound
  | OneTimeLockboxDisbursementNotFound
  | InvalidMinerFees
  | SumOverflow
  | UnsupportedHeight
  | InvalidAmount (err : AmountError)
  deriving DecidableEq

/-! ## Halvings -/

def checkedHalving (msg : String) (x : Int) : Except Abort Int :=
  orAbort (checkedI64 x) (.expect (msg ++ " overflow: consider reducing the halving interval"))

def height_for_halving (p : Profile) (halving : Nat) (network : Network) :
    Except Abort (Option Nat) :=
  if halving = 0 then .ok (some 0)
  else do
    let slow_start_shift : Int := network.slow_start_shift
    let blossom_height ← orAbort (network.activation_height .Blossom)
      (.expect "blossom activation height should be available")
    let unscaled_height ← checkedHalving "Multiplication"
      (halving * network.pre_blossom_halving_interval)
    let pre_blossom_height ← checkedHalving "Addition"
      (min unscaled_height blossom_height + slow_start_shift)
    let past_blossom ← i64 p (unscaled_height - blossom_height)
    let scaled ← checkedHalving "Multiplication"
      (max 0 past_blossom * BLOSSOM_POW_TARGET_SPACING_RATIO)
    let post_blossom_height ← checkedHalving "Addition" (scaled + slow_start_shift)
    let height ← checkedHalving "Addition" (pre_blossom_height + post_blossom_height)
    pure ((toU32 height).filter fun height => height ≤ Height.MAX)

def num_halvings (height : Nat) (network : Network) : Except Abort Nat := do
  let slow_start_shift := network.slow_start_shift
  let blossom_height ← orAbort (network.activation_height .Blossom)
    (.expect "blossom activation height should be available")
  let halving_index ←
    if height < slow_start_shift then .ok 0
    else if height < blossom_height then
      divI64 ((height : Int) - slow_start_shift) network.pre_blossom_halving_interval
    else
      let scaled_pre_blossom_height :=
        ((blossom_height : Int) - slow_start_shift) * BLOSSOM_POW_TARGET_SPACING_RATIO
      divI64 (scaled_pre_blossom_height + ((height : Int) - blossom_height))
        network.post_blossom_halving_interval
  orAbort (toU32 halving_index) (.expect "already checked for negatives")

def halving_divisor (height : Nat) (network : Network) : Except Abort (Option Nat) := do
  let halvings ← num_halvings height network
  pure (if halvings < 64 then some (2 ^ halvings) else none)

variable {network : Network} {height : Nat} {subsidy : Amount .NonNegative}
  (expected_block_subsidy : Amount .NonNegative)
  {m m' values : Map FundingStreamReceiver (Amount .NonNegative)}
  {l : List (FundingStreamReceiver × FundingStreamRecipient)}
  {recipients : Map FundingStreamReceiver FundingStreamRecipient}

theorem halving_divisor_of {halvings : Nat} (h : num_halvings height network = .ok halvings) :
    halving_divisor height network = .ok (if halvings < 64 then some (2 ^ halvings) else none) := by
  rw [halving_divisor, h]
  rfl

/-! ## The subsidy -/

theorem max_block_subsidy_holds {n : Nat} (h : n ≤ MAX_BLOCK_SUBSIDY) :
    Constraint.NonNegative.Holds n := by
  unfold MAX_BLOCK_SUBSIDY at h
  simp only [Constraint.Holds, Constraint.least, MAX_MONEY, COIN]
  omega

/-- An error, where the source uses `?`. -/
def failWith {ε α : Type} (err : ε) : ExceptT ε (Except Abort) α := ExceptT.mk (.ok (.error err))

theorem liftAbort_bind {ε α β : Type} (a : α) (f : α → ExceptT ε (Except Abort) β) :
    (liftAbort (.ok a) >>= f) = f a := rfl

def block_subsidy (height : Nat) (network : Network) :
    ExceptT SubsidyError (Except Abort) (Amount .NonNegative) := do
  let blossom_height ← liftAbort (orAbort (network.activation_height .Blossom)
    (.expect "blossom activation height should be available"))
  match ← liftAbort (halving_divisor height network) with
  | none => pure .zero
  | some halving_div =>
    if height < network.slow_start_interval then failWith .UnsupportedHeight
    else if height < blossom_height then
      pure ⟨(MAX_BLOCK_SUBSIDY / halving_div : Nat),
        max_block_subsidy_holds (Nat.div_le_self _ _)⟩
    else
      pure ⟨(MAX_BLOCK_SUBSIDY / BLOSSOM_POW_TARGET_SPACING_RATIO / halving_div : Nat),
        max_block_subsidy_holds ((Nat.div_le_self _ _).trans (Nat.div_le_self _ _))⟩

theorem num_halvings_of_block_subsidy (h : block_subsidy height network = .ok (.ok subsidy)) :
    ∃ halvings, num_halvings height network = .ok halvings := by
  simp only [block_subsidy, exceptT_bind_ok, liftAbort_ok, halving_divisor, except_bind_ok] at h
  obtain ⟨_, -, _, ⟨halvings, hhalvings, -⟩, -⟩ := h
  exact ⟨halvings, hhalvings⟩

theorem block_subsidy_le (h : block_subsidy height network = .ok (.ok subsidy)) :
    subsidy.zatoshis ≤ MAX_BLOCK_SUBSIDY := by
  simp only [block_subsidy, exceptT_bind_ok] at h
  obtain ⟨_, -, divisor, -, h⟩ := h
  split at h
  · cases h
    decide
  · split at h
    · cases h
    · split at h
      · cases h
        exact Int.ofNat_le.mpr (Nat.div_le_self _ _)
      · cases h
        exact Int.ofNat_le.mpr ((Nat.div_le_self _ _).trans (Nat.div_le_self _ _))

/-! ## Funding streams -/

def add_stream_value (results : Map FundingStreamReceiver (Amount .NonNegative))
    (entry : FundingStreamReceiver × FundingStreamRecipient) :
    Except AmountError (Map FundingStreamReceiver (Amount .NonNegative)) := do
  let product ← expected_block_subsidy.mul entry.2.numerator
  let amount_value ← product.div FUNDING_STREAM_RECEIVER_DENOMINATOR
  pure (results.insert entry.1 amount_value)

def share (recipient : FundingStreamRecipient) : Int :=
  (expected_block_subsidy.zatoshis * recipient.numerator.toNat).tdiv
    FUNDING_STREAM_RECEIVER_DENOMINATOR

def ShareFits (recipient : FundingStreamRecipient) : Prop :=
  expected_block_subsidy.zatoshis * recipient.numerator.toNat ≤ MAX_MONEY

theorem add_stream_value_ok {entry : FundingStreamReceiver × FundingStreamRecipient} :
    add_stream_value subsidy m entry = .ok m' ↔ ShareFits subsidy entry.2 ∧
        ∃ value : Amount .NonNegative, value.zatoshis = share subsidy entry.2 ∧
          m' = m.insert entry.1 value := by
  simp only [add_stream_value, except_bind_ok, Amount.mul_eq_ok, Amount.div,
    FUNDING_STREAM_RECEIVER_DENOMINATOR]
  constructor
  · rintro ⟨product, hproduct, value, hvalue, hm⟩
    cases hvalue
    cases hm
    exact ⟨by rw [ShareFits, ← hproduct]; exact product.valid.2, _,
      by simp only [share, hproduct, FUNDING_STREAM_RECEIVER_DENOMINATOR], rfl⟩
  · rintro ⟨hfits, value, hvalue, rfl⟩
    have hnonneg : 0 ≤ subsidy.zatoshis * entry.2.numerator.toNat :=
      Int.mul_nonneg subsidy.valid.1 (Int.natCast_nonneg _)
    refine ⟨⟨_, hnonneg, hfits⟩, rfl, value, ?_, rfl⟩
    simp only [OfNat.ofNat_ne_zero, if_false, Except.ok.injEq]
    ext
    exact hvalue.symm

theorem share_mul_le (subsidy : Amount .NonNegative) (recipient : FundingStreamRecipient) :
    share subsidy recipient * 100 ≤ subsidy.zatoshis * recipient.numerator.toNat := by
  have hnonneg : 0 ≤ subsidy.zatoshis * recipient.numerator.toNat :=
    Int.mul_nonneg subsidy.valid.1 (Int.natCast_nonneg _)
  unfold share FUNDING_STREAM_RECEIVER_DENOMINATOR
  rw [Int.tdiv_eq_ediv_of_nonneg hnonneg]
  exact Int.ediv_mul_le _ (by decide)

theorem sum_share_mul_le (subsidy : Amount .NonNegative) (l : List FundingStreamRecipient) :
    (l.map (share subsidy)).sum * 100 ≤
      subsidy.zatoshis * ((l.map fun recipient => recipient.numerator.toNat).sum : Nat) := by
  induction l with
  | nil => simp
  | cons recipient rest ih =>
    have hfirst := share_mul_le subsidy recipient
    simp only [map_cons, sum_cons, Nat.cast_add, Int.mul_add, Int.add_mul]
    omega

/-- What `funding_stream_values` gives: the share of every recipient. -/
def Shares (subsidy : Amount .NonNegative) (recipients : Map FundingStreamReceiver FundingStreamRecipient)
    (values : Map FundingStreamReceiver (Amount .NonNegative)) : Prop :=
  ∀ receiver, (values.lookup receiver).map (·.zatoshis) =
    (recipients.lookup receiver).map (share subsidy)

theorem fold_stream_values (hnodup : (l.map (·.1)).Nodup)
    (h : l.foldlM (add_stream_value subsidy) m = .ok m') : (∀ e ∈ l, ShareFits subsidy e.2 ∧
        (m'.lookup e.1).map (·.zatoshis) = some (share subsidy e.2)) ∧
      ∀ receiver ∉ l.map (·.1), m'.lookup receiver = m.lookup receiver := by
  induction l generalizing m with
  | nil =>
    cases h
    simp
  | cons e rest ih =>
    rw [foldlM_cons, except_bind_ok] at h
    obtain ⟨m₁, hadd, hrest⟩ := h
    obtain ⟨hfits, value, hvalue, rfl⟩ := add_stream_value_ok.mp hadd
    rw [map_cons, nodup_cons] at hnodup
    obtain ⟨hmem, hother⟩ := ih hnodup.2 hrest
    refine ⟨forall_mem_cons.mpr ⟨⟨hfits, ?_⟩, hmem⟩, ?_⟩
    · rw [hother _ hnodup.1, Finmap.lookup_insert, Option.map_some, hvalue]
    · intro receiver hnot
      rw [map_cons, mem_cons, not_or] at hnot
      rw [hother _ hnot.2, Finmap.lookup_insert_of_ne _ hnot.1]

theorem exists_fold_stream_values
    (m : Map FundingStreamReceiver (Amount .NonNegative)) (h : ∀ e ∈ l, ShareFits subsidy e.2) :
    ∃ m', l.foldlM (add_stream_value subsidy) m = .ok m' := by
  induction l generalizing m with
  | nil => exact ⟨m, rfl⟩
  | cons e rest ih =>
    rw [forall_mem_cons] at h
    have hnonneg : 0 ≤ subsidy.zatoshis * e.2.numerator.toNat :=
      Int.mul_nonneg subsidy.valid.1 (Int.natCast_nonneg _)
    let product : Amount .NonNegative := ⟨_, hnonneg, h.1⟩
    have hadd := add_stream_value_ok (m := m).mpr
      ⟨h.1, ⟨_, product.tdiv_holds FUNDING_STREAM_RECEIVER_DENOMINATOR⟩, rfl, rfl⟩
    obtain ⟨m', hm'⟩ := ih (m.insert e.1 _) h.2
    exact ⟨m', by rw [foldlM_cons, hadd]; exact hm'⟩

def funding_stream_values (fmt : Formats) (order : HashOrder) (height : Nat) (network : Network)
    (expected_block_subsidy : Amount .NonNegative) :
    ExceptT AmountError (Except Abort) (Map FundingStreamReceiver (Amount .NonNegative)) := do
  let canopy_height ← liftAbort (orAbort (network.activation_height .Canopy) (.expect "unwrap"))
  if canopy_height ≤ height then
    match ← liftAbort (network.funding_streams fmt height) with
    | some streams =>
      ExceptT.mk (.ok ((order.entries streams.recipients).foldlM
        (add_stream_value expected_block_subsidy) ∅))
    | none => pure ∅
  else pure ∅

def recipientsOf (streams : Option FundingStreams) :
    Map FundingStreamReceiver FundingStreamRecipient :=
  match streams with
  | some streams => streams.recipients
  | none => ∅

theorem Shares.unique {values' : Map FundingStreamReceiver (Amount .NonNegative)}
    (h : Shares subsidy recipients values) (h' : Shares subsidy recipients values') :
    values = values' := by
  have hinj : Function.Injective fun a : Amount .NonNegative => a.zatoshis :=
    fun a b hab => Amount.ext hab
  apply Finmap.ext_lookup
  intro receiver
  exact Option.map_injective hinj ((h receiver).trans (h' receiver).symm)

theorem shares_of_fold {order : HashOrder}
    (h : (order.entries recipients).foldlM (add_stream_value subsidy) ∅ = .ok values) :
    (∀ receiver recipient, recipients.lookup receiver = some recipient →
      ShareFits subsidy recipient) ∧ Shares subsidy recipients values := by
  obtain ⟨hmem, hother⟩ := fold_stream_values (order.entries_keys_nodup recipients) h
  refine ⟨fun receiver recipient hr => (hmem _ (HashOrder.mem_entries.mpr hr)).1, ?_⟩
  intro receiver
  cases hr : recipients.lookup receiver with
  | some recipient => exact (hmem _ (HashOrder.mem_entries.mpr hr)).2
  | none =>
    have hnot : receiver ∉ (order.entries recipients).map (·.1) := by
      intro hin
      obtain ⟨⟨_, recipient⟩, hentry, rfl⟩ := mem_map.mp hin
      rw [HashOrder.mem_entries.mp hentry] at hr
      cases hr
    rw [hother receiver hnot, Finmap.lookup_empty]
    rfl

section

variable {fmt : Formats} {network : Network} {height canopy : Nat} {streams : Option FundingStreams}
  {order : HashOrder} {subsidy : Amount .NonNegative}

theorem funding_stream_values_ok (hcanopy : network.activation_height .Canopy = some canopy)
    (hle : canopy ≤ height) (hstreams : network.funding_streams fmt height = .ok streams)
    (values : Map FundingStreamReceiver (Amount .NonNegative)) :
    funding_stream_values fmt order height network subsidy = .ok (.ok values) ↔
      (∀ receiver recipient, (recipientsOf streams).lookup receiver = some recipient →
        ShareFits subsidy recipient) ∧ Shares subsidy (recipientsOf streams) values := by
  have hrun : funding_stream_values fmt order height network subsidy =
      .ok ((order.entries (recipientsOf streams)).foldlM (add_stream_value subsidy) ∅) := by
    simp only [funding_stream_values, hcanopy, hstreams]
    cases streams with
    | some streams => exact if_pos hle
    | none =>
      have hempty : order.entries (recipientsOf none) = [] := by
        simp [HashOrder.entries, recipientsOf]
      rw [hempty]
      exact if_pos hle
  rw [hrun, Except.ok.injEq]
  constructor
  · exact shares_of_fold
  · rintro ⟨hfits, hshares⟩
    have hentries : ∀ e ∈ order.entries (recipientsOf streams), ShareFits subsidy e.2 :=
      fun e he => hfits e.1 e.2 (HashOrder.mem_entries.mp he)
    obtain ⟨values', hvalues'⟩ := exists_fold_stream_values ∅ hentries
    rw [hvalues', Shares.unique (shares_of_fold hvalues').2 hshares]

end

def miner_subsidy (fmt : Formats) (order order' : HashOrder) (height : Nat) (network : Network)
    (expected_block_subsidy : Amount .NonNegative) :
    ExceptT AmountError (Except Abort) (Amount .NonNegative) := do
  let values ← funding_stream_values fmt order height network expected_block_subsidy
  let total_funding_stream_amount ←
    ExceptT.mk (.ok (Amount.sum ((order'.entries values).map (·.2))))
  ExceptT.mk (.ok (expected_block_subsidy.sub total_funding_stream_amount))

def height_for_first_halving (p : Profile) (fmt : Formats) : Network → Except Abort Nat
  | .Mainnet => orAbort (Network.Mainnet.activation_height .Canopy)
      (.expect "canopy activation height should be available")
  | .Testnet params =>
    if params.is_regtest then .ok FIRST_HALVING_REGTEST
    else do
      if ← params.is_default_testnet fmt then pure FIRST_HALVING_TESTNET
      else
        let height ← height_for_halving p 1 (.Testnet params)
        orAbort height (.expect "first halving height should be available")

def funding_stream_address_change_interval (network : Network) : Int :=
  network.post_blossom_halving_interval.tdiv 48

def funding_stream_address_period (p : Profile) (fmt : Formats) (height : Nat) (network : Network) :
    Except Abort Nat := do
  let first_halving ← height_for_first_halving p fmt network
  let height_after_first_halving := (height : Int) - first_halving
  let since ← i64 p (height_after_first_halving + network.post_blossom_halving_interval)
  let address_period ← divI64 since (funding_stream_address_change_interval network)
  orAbort (toU32 address_period)
    (.expect "all values are positive and smaller than the input height")

def address_position (num_addresses period start_period : Nat) : Except Abort Nat :=
  if 2 ^ 32 ≤ 1 + period then .error (.expect "no overflow should happen in this sum")
  else if 1 + period < start_period then .error (.expect "no overflow should happen in this sub")
  else
    let index := 1 + period - start_period
    if 0 < index ∧ index ≤ num_addresses then .ok (index - 1)
    else .error (.assert "index > 0 && index <= num_addresses")

theorem address_position_ok {num_addresses period start_period index : Nat} :
    address_position num_addresses period start_period = .ok index ↔
      1 + period < 2 ^ 32 ∧ start_period ≤ period ∧ index = period - start_period ∧
        index < num_addresses := by
  unfold address_position
  simp only
  split
  · simp only [reduceCtorEq, false_iff]
    omega
  · split
    · simp only [reduceCtorEq, false_iff]
      omega
    · split
      · rw [Except.ok.injEq]
        omega
      · simp only [reduceCtorEq, false_iff]
        omega

def funding_stream_address_index (p : Profile) (fmt : Formats) (height : Nat) (network : Network)
    (receiver : FundingStreamReceiver) : Except Abort (Option Nat) :=
  if receiver = .Deferred then .ok none
  else do
    match ← network.funding_streams fmt height with
    | none => pure none
    | some streams =>
      match streams.recipients.lookup receiver with
      | none => pure none
      | some recipient =>
        let period ← funding_stream_address_period p fmt height network
        let start_period ← funding_stream_address_period p fmt streams.start network
        let index ← address_position recipient.addresses.length period start_period
        pure (some index)

def funding_stream_address (p : Profile) (fmt : Formats) (height : Nat) (network : Network)
    (receiver : FundingStreamReceiver) : Except Abort (Option TransparentAddress) := do
  match ← funding_stream_address_index p fmt height network receiver with
  | none => pure none
  | some index =>
    let streams ← network.funding_streams fmt height
    pure (do
      let recipient ← (← streams).recipients.lookup receiver
      recipient.addresses[index]?)

end ZebraCrosslink
