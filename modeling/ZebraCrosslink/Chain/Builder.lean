import ZebraCrosslink.Chain.Subsidy

/-!
# Building the parameters of a test network

A configured test network is what `to_network` gives after any calls of the setters, in any order.
-/

open Rust List

namespace ZebraCrosslink

structure ConfiguredFundingStreamRecipient where
  receiver : FundingStreamReceiver
  numerator : UInt64
  addresses : Option (List String)

/-- `height_range` is `start..stop`. -/
structure ConfiguredFundingStreams where
  height_range : Option (Nat × Nat)
  recipients : Option (List ConfiguredFundingStreamRecipient)

structure ConfiguredActivationHeights where
  before_overwinter : Option Nat
  overwinter : Option Nat
  sapling : Option Nat
  blossom : Option Nat
  heartwood : Option Nat
  canopy : Option Nat
  nu5 : Option Nat
  nu6 : Option Nat
  nu6_1 : Option Nat
  nu7 : Option Nat

def ConfiguredActivationHeights.chained (heights : ConfiguredActivationHeights) :
    List (Nat × NetworkUpgrade) :=
  [(heights.before_overwinter, .BeforeOverwinter), (heights.overwinter, .Overwinter),
    (heights.sapling, .Sapling), (heights.blossom, .Blossom), (heights.heartwood, .Heartwood),
    (heights.canopy, .Canopy), (heights.nu5, .Nu5), (heights.nu6, .Nu6), (heights.nu6_1, .Nu6_1),
    (heights.nu7, .Nu7)].filterMap fun (height, nu) => height.map fun h => (h, nu)

structure ParametersBuilder where
  network_name : String
  network_magic : Magic
  genesis_hash : BlockHash
  activation_heights : ActivationHeights
  slow_start_interval : Nat
  funding_streams : List FundingStreams
  should_lock_funding_stream_address_period : Bool
  target_difficulty_limit : Nat
  disable_pow : Bool
  should_allow_unshielded_coinbase_spends : Bool
  pre_blossom_halving_interval : Int
  post_blossom_halving_interval : Int
  lockbox_disbursements : List (String × Amount .NonNegative)

def RESERVED_NETWORK_NAMES : List String :=
  ["Mainnet", "Testnet", "Regtest", "MainnetKind", "TestnetKind", "RegtestKind"]

def MAX_NETWORK_NAME_LENGTH : Nat := 30

/-! ## Checks of funding streams -/

def previous (height : Nat) : Option Nat :=
  if 0 < height ∧ height - 1 ≤ Height.MAX then some (height - 1) else none

section

variable (p : Profile) (fmt : Formats)

def num_funding_stream_addresses_required_for_height_range (streams : FundingStreams)
    (network : Network) : Except Abort Nat := do
  let last ← orAbort (previous streams.stop)
    (.expect "end height must be above start height and genesis height")
  let last_period ← funding_stream_address_period p fmt last network
  let sum ← orAbort (if 1 + last_period < 2 ^ 32 then some (1 + last_period) else none)
    (.expect "no overflow should happen in this sum")
  let start_period ← funding_stream_address_period p fmt streams.start network
  orAbort (if start_period ≤ sum then some (sum - start_period) else none)
    (.expect "no overflow should happen in this sub")

/-- The `Deferred` receiver needs no addresses. -/
def check_recipient (expected_min_num_addresses : Nat)
    (entry : FundingStreamReceiver × FundingStreamRecipient) : Except Abort Unit :=
  if entry.1 = .Deferred then .ok ()
  else do
    assertThat (expected_min_num_addresses ≤ entry.2.addresses.length)
      "recipients must have a sufficient number of addresses for height range"
    assertThat (∀ address ∈ entry.2.addresses, address.network_kind = .Testnet)
      "configured funding stream addresses must be for Testnet"

def check_funding_stream_address_period (order : HashOrder) (streams : FundingStreams)
    (network : Network) : Except Abort Unit := do
  let expected_min_num_addresses ←
    num_funding_stream_addresses_required_for_height_range p fmt streams network
  (order.entries streams.recipients).forM (check_recipient expected_min_num_addresses)

/-- The sum of `u64` values, with the overflow checks of the profile. -/
def sumU64 : List UInt64 → Except Abort UInt64
  | [] => .ok 0
  | a :: rest => do addU64 p a (← sumU64 rest)

/-! ## The setters -/

namespace ParametersBuilder

def default : Except Abort ParametersBuilder := do
  let funding_streams ← FUNDING_STREAMS_TESTNET fmt
  pure {
    network_name := "UnknownTestnet"
    network_magic := magics.TESTNET
    genesis_hash := TESTNET_GENESIS_HASH
    activation_heights := .collect TESTNET_ACTIVATION_HEIGHTS
    slow_start_interval := SLOW_START_INTERVAL
    funding_streams
    should_lock_funding_stream_address_period := false
    target_difficulty_limit := 0x07ffff * 2 ^ 232
    disable_pow := false
    should_allow_unshielded_coinbase_spends := false
    pre_blossom_halving_interval := PRE_BLOSSOM_HALVING_INTERVAL
    post_blossom_halving_interval := POST_BLOSSOM_HALVING_INTERVAL
    lockbox_disbursements := NU6_1_LOCKBOX_DISBURSEMENTS_TESTNET }

variable (builder : ParametersBuilder)

def finish : Parameters where
  network_name := builder.network_name
  network_magic := builder.network_magic
  genesis_hash := builder.genesis_hash
  activation_heights := builder.activation_heights
  slow_start_interval := builder.slow_start_interval
  slow_start_shift := builder.slow_start_interval / 2
  funding_streams := builder.funding_streams
  target_difficulty_limit := builder.target_difficulty_limit
  disable_pow := builder.disable_pow
  should_allow_unshielded_coinbase_spends := builder.should_allow_unshielded_coinbase_spends
  pre_blossom_halving_interval := builder.pre_blossom_halving_interval
  post_blossom_halving_interval := builder.post_blossom_halving_interval
  lockbox_disbursements := builder.lockbox_disbursements

def to_network_unchecked : Network := .Testnet builder.finish

def with_network_name (network_name : String) : Except Abort ParametersBuilder := do
  assertThat (network_name ∉ RESERVED_NETWORK_NAMES)
    "cannot use reserved network name as configured Testnet name"
  assertThat (network_name.utf8ByteSize ≤ MAX_NETWORK_NAME_LENGTH) "network name is too long"
  assertThat (network_name.toList.all fun x => fmt.is_alphanumeric x || x == '_')
    "network name must include only alphanumeric characters or '_'"
  pure { builder with network_name }

def with_network_magic (network_magic : Magic) : Except Abort ParametersBuilder := do
  assertThat (network_magic ≠ magics.MAINNET ∧ network_magic ≠ magics.REGTEST)
    "network magic should be distinct from reserved network magics"
  pure { builder with network_magic }

def byHeight (heights : ActivationHeights) : List (Nat × NetworkUpgrade) :=
  (heights.keys.sort (· ≤ ·)).filterMap fun height => (heights.lookup height).map fun nu => (height, nu)

def check_order (network_upgrades : List NetworkUpgrade) :
    List NetworkUpgrade → List (Nat × NetworkUpgrade) → Except Abort Unit
  | [], _ => .ok ()
  | expected_network_upgrade :: rest, activation_heights_iter =>
    if expected_network_upgrade ∉ network_upgrades then
      check_order network_upgrades rest activation_heights_iter
    else match activation_heights_iter with
    | [] => check_order network_upgrades rest []
    | (height, network_upgrade) :: iter => do
      assertThat (height ≠ 0) "Height(0) is reserved for the Genesis upgrade"
      assertThat (network_upgrade = expected_network_upgrade)
        "network upgrades must be activated in order specified by the protocol"
      check_order network_upgrades rest iter

def with_activation_heights (heights : ConfiguredActivationHeights) :
    Except Abort ParametersBuilder := do
  if builder.should_lock_funding_stream_address_period then
    .error (.panic "activation heights on ParametersBuilder must not be set after setting funding streams")
  else
    let chained ← heights.chained.mapM fun (h, nu) => do
      let h ← orAbort (if h ≤ Height.MAX then some h else none)
        (.expect "activation height must be valid")
      pure (h, nu)
    let configured := byHeight (ActivationHeights.collect chained)
    check_order (configured.map (·.2)) NetworkUpgrade.iter configured
    -- Only the height of `Genesis` is kept from before.
    let kept := Map.filter builder.activation_heights fun height _ => height < 1
    pure { builder with
      activation_heights := configured.foldl (fun m e => m.insert e.1 e.2) kept }

def with_halving_interval (pre_blossom_halving_interval : Int) :
    Except Abort ParametersBuilder := do
  if builder.should_lock_funding_stream_address_period then
    .error (.panic "halving interval on ParametersBuilder must not be set after setting funding streams")
  else
    let post_blossom_halving_interval ←
      i64 p (pre_blossom_halving_interval * BLOSSOM_POW_TARGET_SPACING_RATIO)
    pure { builder with pre_blossom_halving_interval, post_blossom_halving_interval }

def into_recipient (configured : ConfiguredFundingStreamRecipient) :
    Except Abort (FundingStreamReceiver × FundingStreamRecipient) := do
  let recipient ← FundingStreamRecipient.new fmt configured.numerator (configured.addresses.getD [])
  pure (configured.receiver, recipient)

def recipients_with_default (configured : ConfiguredFundingStreams)
    (default_funding_streams : Option FundingStreams) :
    Except Abort (Map FundingStreamReceiver FundingStreamRecipient) :=
  match configured.recipients with
  | some recipients => do pure (HashOrder.collect (← recipients.mapM (into_recipient fmt)))
  | none => orAbort (default_funding_streams.map (·.recipients)) (.expect "default required")

def convert_with_default (order : HashOrder) (builder : ParametersBuilder)
    (configured : ConfiguredFundingStreams) (default_funding_streams : Option FundingStreams) :
    Except Abort FundingStreams := do
  let (start, stop) ← orAbort
    (configured.height_range.or (default_funding_streams.map fun streams => (streams.start, streams.stop)))
    (.expect "default required")
  let recipients ← recipients_with_default fmt configured default_funding_streams
  assertThat (start ≤ stop) "funding stream end height must be above start height"
  let funding_streams : FundingStreams := { start, stop, recipients }
  check_funding_stream_address_period p fmt order funding_streams builder.to_network_unchecked
  let sum_numerators ← sumU64 p ((order.entries recipients).map (·.2.numerator))
  assertThat (sum_numerators.toNat ≤ FUNDING_STREAM_RECEIVER_DENOMINATOR)
    "sum of funding stream numerators must not be greater than denominator"
  pure funding_streams

/-- The loop of `with_funding_streams`, with the defaults that are left. -/
def convert_all (order : HashOrder) (builder : ParametersBuilder) :
    List ConfiguredFundingStreams → List FundingStreams → Except Abort (List FundingStreams)
  | [], _ => .ok []
  | configured :: rest, defaults => do
    let streams ← convert_with_default p fmt order builder configured defaults.head?
    let others ← convert_all order builder rest defaults.tail
    pure (streams :: others)

def with_funding_streams (order : HashOrder) (builder : ParametersBuilder)
    (funding_streams : List ConfiguredFundingStreams) : Except Abort ParametersBuilder := do
  let defaults ← FUNDING_STREAMS_TESTNET fmt
  let funding_streams ← convert_all p fmt order builder funding_streams defaults
  pure { builder with funding_streams, should_lock_funding_stream_address_period := true }

end ParametersBuilder

open ParametersBuilder

/-! ## Building -/

inductive BuilderCall
  | with_network_name (network_name : String)
  | with_network_magic (network_magic : Magic)
  | with_genesis_hash (genesis_hash : BlockHash)
  | with_activation_heights (heights : ConfiguredActivationHeights)
  | with_slow_start_interval (slow_start_interval : Nat)
  | with_funding_streams (order : HashOrder) (funding_streams : List ConfiguredFundingStreams)
  | clear_funding_streams
  | with_target_difficulty_limit (target_difficulty_limit : Nat)
  | with_disable_pow (disable_pow : Bool)
  | with_unshielded_coinbase_spends (should_allow_unshielded_coinbase_spends : Bool)
  | with_halving_interval (pre_blossom_halving_interval : Int)
  | with_lockbox_disbursements (lockbox_disbursements : List (String × Amount .NonNegative))

namespace ParametersBuilder

def call (builder : ParametersBuilder) : BuilderCall → Except Abort ParametersBuilder
  | .with_network_name network_name => builder.with_network_name fmt network_name
  | .with_network_magic network_magic => builder.with_network_magic network_magic
  | .with_genesis_hash genesis_hash => .ok { builder with genesis_hash }
  | .with_activation_heights heights => builder.with_activation_heights heights
  | .with_slow_start_interval slow_start_interval => .ok { builder with slow_start_interval }
  | .with_funding_streams order streams => builder.with_funding_streams p fmt order streams
  | .clear_funding_streams => .ok { builder with funding_streams := [] }
  | .with_target_difficulty_limit target_difficulty_limit =>
    .ok { builder with target_difficulty_limit }
  | .with_disable_pow disable_pow => .ok { builder with disable_pow }
  | .with_unshielded_coinbase_spends allow =>
    .ok { builder with should_allow_unshielded_coinbase_spends := allow }
  | .with_halving_interval interval => builder.with_halving_interval p interval
  | .with_lockbox_disbursements lockbox_disbursements =>
    .ok { builder with lockbox_disbursements }

def to_network (order : HashOrder) (builder : ParametersBuilder) : Except Abort Network := do
  let network := builder.to_network_unchecked
  builder.funding_streams.forM fun streams =>
    check_funding_stream_address_period p fmt order streams network
  pure network

/-- The calls from `Parameters::build` to `to_network`. -/
def build (calls : List BuilderCall) (order : HashOrder) : Except Abort Network := do
  let builder ← ParametersBuilder.default fmt
  let builder ← calls.foldlM (call p fmt) builder
  builder.to_network p fmt order

end ParametersBuilder

end

/-! ## What a built network is known to be -/

def numerators (recipients : Map FundingStreamReceiver FundingStreamRecipient) : Nat :=
  ((HashOrder.declared.entries recipients).map fun e => e.2.numerator.toNat).sum

/-- The check of the numerators, as far as it goes: without overflow checks, the sum wraps. -/
def NumeratorsAccepted (p : Profile)
    (recipients : Map FundingStreamReceiver FundingStreamRecipient) : Prop :=
  numerators recipients % 2 ^ 64 ≤ FUNDING_STREAM_RECEIVER_DENOMINATOR ∧
    (p = .dev → numerators recipients ≤ FUNDING_STREAM_RECEIVER_DENOMINATOR)

section

variable {p : Profile} {fmt : Formats} {streams : FundingStreams} {start stop : Nat}
  {l : List (FundingStreamReceiver × UInt64 × List String)} {ε α : Type}

theorem sumU64_ok {l : List UInt64} {s : UInt64} (h : sumU64 p l = .ok s) :
    s.toNat = (l.map UInt64.toNat).sum % 2 ^ 64 ∧
      (p = .dev → s.toNat = (l.map UInt64.toNat).sum) := by
  induction l generalizing s with
  | nil =>
    cases h
    simp
  | cons a rest ih =>
    rw [sumU64, except_bind_ok] at h
    obtain ⟨t, hrest, hadd⟩ := h
    obtain ⟨hmod, hexact⟩ := ih hrest
    unfold addU64 at hadd
    split at hadd
    · cases hadd
    · next hfits =>
      cases hadd
      rw [map_cons, sum_cons, UInt64.toNat_add, hmod]
      refine ⟨by omega, fun hdev => ?_⟩
      have hlt : a.toNat + t.toNat < 2 ^ 64 := by
        by_contra hge
        exact hfits ⟨hdev, by omega⟩
      rw [hexact hdev] at hlt hmod
      omega

theorem numerators_eq (order : HashOrder)
    (recipients : Map FundingStreamReceiver FundingStreamRecipient) :
    (((order.entries recipients).map (·.2.numerator)).map UInt64.toNat).sum =
      numerators recipients := by
  rw [map_map]
  exact ((order.entries_perm HashOrder.declared recipients).map _).sum_eq

theorem hardCoded_recipients (h : FundingStreams.hardCoded fmt start stop l = .ok streams) :
    ∃ recipients : List (FundingStreamReceiver × FundingStreamRecipient),
      recipients.map (fun e => (e.1, e.2.numerator)) = l.map (fun e => (e.1, e.2.1)) ∧
        streams.recipients = HashOrder.collect recipients := by
  rw [FundingStreams.hardCoded, except_bind_ok] at h
  obtain ⟨recipients, hmap, h⟩ := h
  cases h
  refine ⟨recipients, ?_, rfl⟩
  clear * - hmap
  induction l generalizing recipients with
  | nil =>
    cases hmap
    rfl
  | cons e rest ih =>
    simp only [mapM_cons, except_bind_ok, FundingStreamRecipient.new] at hmap
    obtain ⟨entry, ⟨recipient, ⟨addresses, -, hrecipient⟩, hentry⟩, others, hothers, h⟩ := hmap
    cases hrecipient
    cases hentry
    cases h
    rw [map_cons, map_cons, ih _ hothers]

theorem numerators_collect {l : List (FundingStreamReceiver × FundingStreamRecipient)}
    (hnodup : (l.map (·.1)).Nodup) :
    numerators (HashOrder.collect l) = (l.map fun e => e.2.numerator.toNat).sum :=
  ((HashOrder.declared.entries_collect_perm hnodup).map _).sum_eq

theorem hardCoded_numerators (h : FundingStreams.hardCoded fmt start stop l = .ok streams)
    (hnodup : (l.map (·.1)).Nodup) :
    numerators streams.recipients = (l.map fun e => e.2.1.toNat).sum := by
  obtain ⟨recipients, hmap, hcollect⟩ := hardCoded_recipients h
  have hkeys : recipients.map (·.1) = l.map (·.1) := by
    have := congrArg (map Prod.fst) hmap
    simpa [map_map, Function.comp_def] using this
  have hnumerators : recipients.map (fun e => e.2.numerator.toNat) = l.map (fun e => e.2.1.toNat) := by
    have := congrArg (map fun e => e.2.toNat) hmap
    simpa [map_map, Function.comp_def] using this
  rw [hcollect, numerators_collect (hkeys ▸ hnodup), hnumerators]

theorem testnet_numerators {l : List FundingStreams} (h : FUNDING_STREAMS_TESTNET fmt = .ok l) :
    ∀ streams ∈ l, numerators streams.recipients = 20 := by
  simp only [FUNDING_STREAMS_TESTNET, except_bind_ok] at h
  obtain ⟨first, hfirst, second, hsecond, third, hthird, h⟩ := h
  cases h
  simp only [mem_cons, not_mem_nil, or_false, forall_eq_or_imp, forall_eq]
  exact ⟨hardCoded_numerators hfirst (by decide), hardCoded_numerators hsecond (by decide),
    hardCoded_numerators hthird (by decide)⟩

theorem foldlM_keeps {β : Type} {f : β → α → Except ε β} {I : β → Prop}
    (hstep : ∀ b a b', I b → f b a = .ok b' → I b') {l : List α} {b b' : β} (hb : I b)
    (h : l.foldlM f b = .ok b') : I b' := by
  induction l generalizing b with
  | nil =>
    cases h
    exact hb
  | cons a rest ih =>
    rw [foldlM_cons, except_bind_ok] at h
    obtain ⟨b₁, hfirst, hrest⟩ := h
    exact ih (hstep b a b₁ hb hfirst) hrest

namespace ParametersBuilder

/-- A builder can never become one of the two networks that have rules of their own. -/
structure Sound (p : Profile) (builder : ParametersBuilder) : Prop where
  magic : builder.network_magic ≠ magics.REGTEST
  name : builder.network_name ≠ "Testnet"
  numerators : ∀ streams ∈ builder.funding_streams, NumeratorsAccepted p streams.recipients

variable {builder builder' : ParametersBuilder} {order : HashOrder}

theorem Sound.default (h : ParametersBuilder.default fmt = .ok builder) : builder.Sound p := by
  rw [ParametersBuilder.default, except_bind_ok] at h
  obtain ⟨streams, hstreams, h⟩ := h
  cases h
  refine ⟨by simp only; decide, by simp only; decide, fun streams hmem => ?_⟩
  rw [NumeratorsAccepted, testnet_numerators hstreams streams hmem]
  exact ⟨by decide, fun _ => by decide⟩

theorem convert_with_default_ok {configured : ConfiguredFundingStreams}
    {defaults : Option FundingStreams} {streams : FundingStreams}
    (h : convert_with_default p fmt order builder configured defaults = .ok streams) :
    NumeratorsAccepted p streams.recipients := by
  simp only [convert_with_default, except_bind_ok, assertThat_ok] at h
  obtain ⟨_, _, _, _, _, _, _, _, s, hsum, _, hle, h⟩ := h
  cases h
  obtain ⟨hmod, hexact⟩ := sumU64_ok hsum
  rw [numerators_eq] at hmod hexact
  exact ⟨hmod ▸ hle, fun hdev => hexact hdev ▸ hle⟩

theorem convert_all_ok {configured : List ConfiguredFundingStreams}
    {defaults l : List FundingStreams}
    (h : convert_all p fmt order builder configured defaults = .ok l) :
    ∀ streams ∈ l, NumeratorsAccepted p streams.recipients := by
  induction configured generalizing defaults l with
  | nil =>
    cases h
    simp
  | cons c rest ih =>
    simp only [convert_all, except_bind_ok] at h
    obtain ⟨streams, hstreams, others, hothers, h⟩ := h
    cases h
    exact forall_mem_cons.mpr ⟨convert_with_default_ok hstreams, ih hothers⟩

theorem Sound.after_call {c : BuilderCall}
    (hsound : builder.Sound p) (h : builder.call p fmt c = .ok builder') : builder'.Sound p := by
  obtain ⟨hmagic, hname, hnumerators⟩ := hsound
  cases c <;> simp only [call] at h
  case with_network_name network_name =>
    simp only [with_network_name, except_bind_ok, assertThat_ok] at h
    obtain ⟨-, hreserved, -, -, -, -, h⟩ := h
    cases h
    refine ⟨hmagic, ?_, hnumerators⟩
    rintro rfl
    exact hreserved (by decide)
  case with_network_magic network_magic =>
    simp only [with_network_magic, except_bind_ok, assertThat_ok] at h
    obtain ⟨-, hreserved, h⟩ := h
    cases h
    exact ⟨hreserved.2, hname, hnumerators⟩
  case with_activation_heights heights =>
    unfold with_activation_heights at h
    split at h
    · cases h
    · simp only [except_bind_ok] at h
      obtain ⟨_, _, _, _, h⟩ := h
      cases h
      exact ⟨hmagic, hname, hnumerators⟩
  case with_funding_streams order streams =>
    simp only [with_funding_streams, except_bind_ok] at h
    obtain ⟨_, _, l, hl, h⟩ := h
    cases h
    exact ⟨hmagic, hname, convert_all_ok hl⟩
  case with_halving_interval interval =>
    unfold with_halving_interval at h
    split at h
    · cases h
    · simp only [except_bind_ok] at h
      obtain ⟨_, _, h⟩ := h
      cases h
      exact ⟨hmagic, hname, hnumerators⟩
  case clear_funding_streams =>
    cases h
    exact ⟨hmagic, hname, by simp⟩
  all_goals
    cases h
    exact ⟨hmagic, hname, hnumerators⟩

theorem Sound.after_calls {calls : List BuilderCall}
    (hsound : builder.Sound p) (h : calls.foldlM (call p fmt) builder = .ok builder') :
    builder'.Sound p :=
  foldlM_keeps (fun _ _ _ hsound hcall => hsound.after_call hcall) hsound h

end ParametersBuilder

structure AcceptedByBuilder (p : Profile) (fmt : Formats) (order : HashOrder) (params : Parameters) : Prop where
  magic : params.network_magic ≠ magics.REGTEST
  name : params.network_name ≠ "Testnet"
  numerators : ∀ streams ∈ params.funding_streams, NumeratorsAccepted p streams.recipients
  shift : params.slow_start_shift = params.slow_start_interval / 2
  periods : ∀ streams ∈ params.funding_streams,
    check_funding_stream_address_period p fmt order streams (.Testnet params) = .ok ()
  /-- The hard-coded addresses deserialize. -/
  table : ∃ l, FUNDING_STREAMS_TESTNET fmt = .ok l

variable {order : HashOrder} {params : Parameters}

theorem accepted_of_build {calls : List BuilderCall} {network : Network}
    (h : ParametersBuilder.build p fmt calls order = .ok network) :
    ∃ params, network = .Testnet params ∧ AcceptedByBuilder p fmt order params := by
  simp only [ParametersBuilder.build, ParametersBuilder.to_network, except_bind_ok] at h
  obtain ⟨start, hstart, builder, hcalls, _, hchecks, h⟩ := h
  cases h
  have hsound := (ParametersBuilder.Sound.default hstart).after_calls hcalls
  rw [ParametersBuilder.default, except_bind_ok] at hstart
  obtain ⟨table, htable, -⟩ := hstart
  exact ⟨_, rfl, hsound.magic, hsound.name, hsound.numerators, rfl, forM_ok.mp hchecks, table, htable⟩

theorem AcceptedByBuilder.not_default_testnet
    (h : AcceptedByBuilder p fmt order params) : params.is_default_testnet fmt = .ok false := by
  obtain ⟨table, htable⟩ := h.table
  simp only [Parameters.is_default_testnet, Parameters.default, except_bind_ok, htable]
  refine ⟨_, ⟨table, rfl, rfl⟩, congrArg Except.ok (decide_eq_false ?_)⟩
  intro heq
  exact h.name (congrArg Parameters.network_name heq)

def due_disbursements (params : Parameters) (height : Nat) : List (String × Amount .NonNegative) :=
  if some height = (Network.Testnet params).activation_height .Nu6_1 then
    params.lockbox_disbursements
  else []

theorem AcceptedByBuilder.lockbox_disbursements
    (h : AcceptedByBuilder p fmt order params) (height : Nat) :
    (Network.Testnet params).lockbox_disbursements fmt height =
      Network.parse_disbursements fmt (due_disbursements params height) := by
  unfold Network.lockbox_disbursements due_disbursements
  by_cases hdue : some height = (Network.Testnet params).activation_height .Nu6_1
  · rw [if_neg (not_not_intro hdue), if_pos hdue]
    simp only [h.not_default_testnet]
    rfl
  · rw [if_pos hdue, if_neg hdue]
    rfl

end

end ZebraCrosslink
