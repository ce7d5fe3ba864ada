import ZebraCrosslink.Consensus.Fees
import ZebraCrosslink.Rust.Returns

/-!
# The unreachable branches of the subsidy checks

The checks expect that blocks before Canopy are behind a checkpoint. A configured network need not
have one there.
-/

open Rust

namespace ZebraCrosslink

/-! ## Halvings -/

def intervalAt (network : Network) (blossom height : Nat) : Int :=
  if height < blossom then network.pre_blossom_halving_interval
  else network.post_blossom_halving_interval

def halvingIndex (network : Network) (blossom height : Nat) : Int :=
  if height < network.slow_start_shift then 0
  else
    (if height < blossom then (height : Int) - network.slow_start_shift
      else ((blossom : Int) - network.slow_start_shift) * 2 + ((height : Int) - blossom)).tdiv
      (intervalAt network blossom height)

/-- A later upgrade stands for Blossom if there is none. -/
def Halvings (network : Network) (height halvings : Nat) : Prop :=
  ∃ blossom, network.activation_height .Blossom = some blossom ∧
    (network.slow_start_shift ≤ height → intervalAt network blossom height ≠ 0) ∧
    halvingIndex network blossom height = halvings ∧ halvings < 2 ^ 32

theorem halving_index_ok {a b : Int} {err : Abort} {n : Nat} :
    (do let index ← divI64 a b; orAbort (toU32 index) err) = .ok n ↔
      b ≠ 0 ∧ a.tdiv b = n ∧ n < 2 ^ 32 := by
  simp only [except_bind_ok, orAbort_ok, toU32_eq_some, divI64_eq_ok]
  constructor
  · rintro ⟨index, ⟨hne, -, rfl⟩, heq, hlt⟩
    exact ⟨hne, heq, hlt⟩
  · rintro ⟨hne, heq, hlt⟩
    refine ⟨_, ⟨hne, ?_, rfl⟩, heq, hlt⟩
    unfold InI64
    omega

theorem num_halvings_ok {network : Network} {height halvings : Nat} :
    num_halvings height network = .ok halvings ↔ Halvings network height halvings := by
  simp only [num_halvings, except_bind_ok, orAbort_ok, Halvings, halvingIndex, intervalAt]
  refine exists_congr fun blossom => and_congr_right fun _ => ?_
  by_cases hshift : height < network.slow_start_shift
  · simp only [if_pos hshift, except_bind_ok, orAbort_ok, toU32_eq_some]
    constructor
    · rintro ⟨_, hindex, heq, hlt⟩
      cases hindex
      exact ⟨fun h => absurd hshift (by omega), heq, hlt⟩
    · rintro ⟨-, heq, hlt⟩
      exact ⟨0, rfl, heq, hlt⟩
  · have hle : network.slow_start_shift ≤ height := by omega
    by_cases hblossom : height < blossom
    · simp [if_neg hshift, if_pos hblossom, halving_index_ok, hle]
    · simp [if_neg hshift, if_neg hblossom, halving_index_ok, hle, BLOSSOM_POW_TARGET_SPACING_RATIO]

/-! ## The two loops -/

section

variable {p : Profile} {fmt : Formats} {height : Nat} {network : Network} {outputs : Multiset Output}
  {change : Amount .NegativeAllowed} {l : List (FundingStreamReceiver × Amount .NonNegative)}

/-- Each disbursement that is reached has the address of a script and, if it is paid, room in the
pool. It is reached if those before are paid, and `next` if all are. -/
def Disburses (next : Multiset Output → Prop) (outputs : Multiset Output) (change : Int) :
    List (TransparentAddress × Amount .NonNegative) → Prop
  | [] => next outputs
  | e :: rest => e.1.is_script_hash = true ∧ (paid e ∈ outputs → -MAX_MONEY ≤ change - e.2.zatoshis ∧
      Disburses next (outputs.erase (paid e)) (change - e.2.zatoshis) rest)

/-- Each funding stream that is reached has an address, which is that of a script. -/
def StreamsPaid (p : Profile) (fmt : Formats) (height : Nat) (network : Network)
    (outputs : Multiset Output) : List (FundingStreamReceiver × Amount .NonNegative) → Prop
  | [] => True
  | e :: rest => ∃ address, funding_stream_address p fmt height network e.1 = .ok address ∧
      ∀ a, address = some a → a.is_script_hash = true ∧ (paid (a, e.2) ∈ outputs →
        StreamsPaid p fmt height network (outputs.erase (paid (a, e.2))) rest)

theorem returns_new_coinbase_script {address : TransparentAddress} :
    Returns (new_coinbase_script address) ↔ address.is_script_hash = true := by
  simp [Returns, new_coinbase_script_ok]

theorem returns_checked_sub {amount : Amount .NonNegative} {err : Abort} :
    Returns (orAbort (change.checked_sub amount) err) ↔
      -MAX_MONEY ≤ change.zatoshis - amount.zatoshis := by
  simp only [Returns, orAbort_ok, Amount.checked_sub_eq_some]
  constructor
  · rintro ⟨c, hc⟩
    rw [← hc]
    exact c.valid.1
  · intro hle
    have hhigh := change.valid.2
    have hamount : 0 ≤ amount.zatoshis := amount.valid.1
    exact ⟨⟨_, hle, by omega⟩, rfl⟩

theorem check_streams_returns :
    Returns (check_streams p fmt height network outputs l).run ↔
      StreamsPaid p fmt height network outputs l := by
  induction l generalizing outputs with
  | nil => exact iff_of_true ⟨_, rfl⟩ trivial
  | cons e rest ih =>
    obtain ⟨receiver, amount⟩ := e
    simp only [check_streams, returns_exceptT_bind, returns_liftAbort, liftAbort_ok, StreamsPaid]
    cases haddress : funding_stream_address p fmt height network receiver with
    | error abort => simp [Returns]
    | ok address =>
      simp only [Returns.ok, Except.ok.injEq, forall_eq', exists_eq_left', true_and]
      cases address with
      | none => exact iff_of_true ⟨_, rfl⟩ fun a ha => by cases ha
      | some a =>
        simp only [Option.some.injEq, forall_eq', returns_exceptT_bind, returns_liftAbort,
          liftAbort_ok, returns_new_coinbase_script, new_coinbase_script_ok]
        refine and_congr_right fun hscript => ?_
        simp only [hscript, true_and, forall_eq, removeOutput]
        by_cases hmem : Output.new_coinbase amount a.script ∈ outputs
        · rw [if_pos hmem, imp_iff_right (show paid (a, amount) ∈ outputs from hmem), ← ih]
          rfl
        · exact iff_of_true (by rw [if_neg hmem]; exact ⟨_, rfl⟩) fun h => absurd h hmem

theorem payments_return {disbursements : List (TransparentAddress × Amount .NonNegative)} :
    Returns (do
      let r ← check_disbursements outputs change disbursements
      let _ ← check_streams p fmt height network r.1 l
      pure r.2 : CoinbaseCheck (Amount .NegativeAllowed)).run ↔
      Disburses (fun rest => StreamsPaid p fmt height network rest l) outputs change.zatoshis
        disbursements := by
  induction disbursements generalizing outputs change with
  | nil =>
    change Returns (check_streams p fmt height network outputs l >>= fun _ => pure change).run ↔ _
    rw [returns_exceptT_bind, check_streams_returns]
    exact and_iff_left fun _ _ => ⟨_, rfl⟩
  | cons e rest ih =>
    obtain ⟨address, amount⟩ := e
    simp only [check_disbursements, bind_assoc]
    rw [returns_exceptT_bind, returns_liftAbort]
    simp only [liftAbort_ok, returns_new_coinbase_script, new_coinbase_script_ok, Disburses]
    refine and_congr_right fun hscript => ?_
    simp only [hscript, true_and, forall_eq, removeOutput]
    by_cases hmem : Output.new_coinbase amount address.script ∈ outputs
    · rw [if_pos hmem, imp_iff_right (show paid (address, amount) ∈ outputs from hmem)]
      simp only [bind_assoc]
      rw [returns_exceptT_bind, returns_liftAbort, returns_checked_sub]
      simp only [liftAbort_ok, orAbort_ok, Amount.checked_sub_eq_some, ih]
      refine and_congr_right fun hroom => ⟨fun h => ?_, fun h c hc => hc ▸ h⟩
      have hhigh := change.valid.2
      have hamount : 0 ≤ amount.zatoshis := amount.valid.1
      exact h ⟨_, hroom, by omega⟩ rfl
    · exact iff_of_true (by rw [if_neg hmem]; exact ⟨_, rfl⟩) fun h => absurd h hmem

end

/-! ## The subsidy of a block -/

/-- The payments of a coinbase, as far as the checks look at them. -/
def Payable (p : Profile) (fmt : Formats) (order order' : HashOrder) (params : Parameters)
    (height : Nat) (outputs : Multiset Output) (subsidy : Amount .NonNegative) : Prop :=
  ∀ values, funding_stream_values fmt order height (.Testnet params) subsidy = .ok (.ok values) →
    ∃ disbursements, (Network.Testnet params).lockbox_disbursements fmt height = .ok disbursements ∧
      Disburses (fun rest => StreamsPaid p fmt height (.Testnet params) rest
          (order'.entries (values.erase .Deferred)))
        outputs ((values.lookup .Deferred).getD .zero).zatoshis disbursements

structure SubsidyDefined (p : Profile) (fmt : Formats) (order order' : HashOrder)
    (params : Parameters) (height halvings : Nat) (coinbase : Transaction) : Prop where
  defined : Halvings (.Testnet params) height halvings
  canopy : halvings < 64 → params.slow_start_interval ≤ height →
    ∃ canopy, (Network.Testnet params).activation_height .Canopy = some canopy ∧ canopy ≤ height
  payable : halvings < 3 → params.slow_start_interval ≤ height → ∀ subsidy,
    block_subsidy height (.Testnet params) = .ok (.ok subsidy) →
      Payable p fmt order order' params height (coinbase.outputs : Multiset Output) subsidy

section

variable {p : Profile} {fmt : Formats} {order order' : HashOrder} {params : Parameters}
  {height halvings canopy : Nat} {coinbase : Transaction} {subsidy : Amount .NonNegative}

theorem funding_stream_values_returns
    (hcanopy : (Network.Testnet params).activation_height .Canopy = some canopy) :
    Returns (funding_stream_values fmt order height (.Testnet params) subsidy).run := by
  refine (Returns.liftAbort ⟨canopy, by rw [hcanopy]; rfl⟩).exceptT_bind fun _ _ => ?_
  split
  · refine (Returns.liftAbort ⟨_, rfl⟩).exceptT_bind fun streams _ => ?_
    cases streams <;> exact ⟨_, rfl⟩
  · exact ⟨_, rfl⟩

theorem subsidy_at_returns (hhalvings : num_halvings height (.Testnet params) = .ok halvings)
    (hslow : halvings < 64 → params.slow_start_interval ≤ height) :
    Returns (subsidy_at p fmt order order' height coinbase (.Testnet params) subsidy).run ↔
      (halvings < 64 → ∃ canopy,
        (Network.Testnet params).activation_height .Canopy = some canopy ∧ canopy ≤ height) ∧
      (halvings < 3 → Payable p fmt order order' params height (coinbase.outputs : Multiset Output)
        subsidy) := by
  simp only [subsidy_at, halving_divisor_of hhalvings, liftAbort_bind]
  by_cases hfar : halvings < 64
  · simp only [hfar, if_true, forall_const]
    cases hcanopy : (Network.Testnet params).activation_height .Canopy with
    | none =>
      refine iff_of_false not_returns_error ?_
      rintro ⟨⟨_, h, -⟩, -⟩
      cases h
    | some canopy =>
      have hslow' : ¬ height < (Network.Testnet params).slow_start_interval := not_lt.mpr (hslow hfar)
      simp only [orAbort, liftAbort_bind, Option.some.injEq, exists_eq_left']
      rw [if_neg hslow', if_neg (by simp [count_ones_two_pow hfar])]
      by_cases hle : canopy ≤ height
      · rw [if_neg (by omega)]
        by_cases hearly : halvings < 3
        · rw [if_pos (Nat.pow_lt_pow_right (n := 3) (by decide) hearly)]
          simp only [hle, hearly, true_and, forall_const]
          rw [returns_exceptT_bind, returns_adapt]
          simp only [exceptT_adapt_ok, funding_stream_values_returns hcanopy, true_and, Payable]
          refine forall_congr' fun values => imp_congr_right fun _ => ?_
          rw [returns_exceptT_bind, returns_liftAbort]
          simp only [liftAbort_ok, payments_return, Amount.to_negative_allowed_zatoshis]
          constructor
          · rintro ⟨⟨disbursements, hdue⟩, h⟩
            exact ⟨disbursements, hdue, h _ hdue⟩
          · rintro ⟨disbursements, hdue, h⟩
            exact ⟨⟨_, hdue⟩, fun _ hdue' => Except.ok.inj (hdue.symm.trans hdue') ▸ h⟩
        · have hbig := Nat.pow_le_pow_right (n := 2) (by decide) (not_lt.mp hearly)
          rw [if_neg (by omega)]
          exact iff_of_true ⟨_, rfl⟩ ⟨hle, fun h => absurd h hearly⟩
      · rw [if_pos (by omega)]
        exact iff_of_false not_returns_error fun h => hle h.1
  · simp only [if_neg hfar]
    exact iff_of_true ⟨_, rfl⟩ ⟨fun h => absurd h hfar, fun h => absurd h (by omega)⟩

theorem block_subsidy_cases {network : Network}
    (hhalvings : num_halvings height network = .ok halvings) :
    (halvings < 64 ∧ height < network.slow_start_interval ∧
      block_subsidy height network = .ok (.error .UnsupportedHeight)) ∨
    ((halvings < 64 → network.slow_start_interval ≤ height) ∧
      ∃ subsidy, block_subsidy height network = .ok (.ok subsidy)) := by
  obtain ⟨blossom, hblossom, -⟩ := num_halvings_ok.mp hhalvings
  simp only [block_subsidy, hblossom, orAbort, liftAbort_bind, halving_divisor_of hhalvings]
  by_cases hfar : halvings < 64
  · simp only [hfar, if_true, forall_const]
    by_cases hslow : height < network.slow_start_interval
    · exact .inl ⟨trivial, hslow, if_pos hslow⟩
    · rw [if_neg hslow]
      exact .inr ⟨by omega, by split <;> exact ⟨_, rfl⟩⟩
  · simp only [hfar, if_false]
    exact .inr ⟨fun h => h.elim, _, rfl⟩

theorem block_subsidy_returns {network : Network} (h : Returns (block_subsidy height network).run) :
    ∃ halvings, num_halvings height network = .ok halvings := by
  simp only [block_subsidy, returns_exceptT_bind, returns_liftAbort, liftAbort_ok] at h
  obtain ⟨⟨blossom, hblossom⟩, h⟩ := h
  obtain ⟨⟨divisor, hdivisor⟩, -⟩ := h blossom hblossom
  obtain ⟨halvings, hhalvings, -⟩ := except_bind_ok.mp hdivisor
  exact ⟨halvings, hhalvings⟩

end

namespace SemanticBlockVerifier

/-- What `call` does about the subsidy, with the errors for the height. -/
def subsidy_checks (p : Profile) (fmt : Formats) (order order' : HashOrder) (network : Network)
    (hash : BlockHash) (block : Block) : BlockCheck (Amount .NegativeAllowed) :=
  match block.coinbase_height with
  | none => failWith (.Block (.MissingHeight hash))
  | some height =>
    if MAX_HEIGHT < height then failWith (.Block (.MaxHeight height hash MAX_HEIGHT))
    else do
      let subsidy ← (block_subsidy height network).adapt .Subsidy
      (subsidy_is_valid p fmt order order' block network subsidy).adapt .Coinbase

theorem subsidy_checks_return_iff (p : Profile) (fmt : Formats) (order order' : HashOrder)
    (params : Parameters) (hash : BlockHash) (block : Block) :
    Returns (subsidy_checks p fmt order order' (.Testnet params) hash block).run ↔
      ∀ height coinbase, block.coinbase_height = some height →
        block.transactions.head? = some coinbase → height ≤ MAX_HEIGHT →
          ∃ halvings, SubsidyDefined p fmt order order' params height halvings coinbase := by
  unfold subsidy_checks
  cases hheight : block.coinbase_height with
  | none => exact iff_of_true ⟨_, rfl⟩ fun _ _ h => by cases h
  | some height =>
    cases hhead : block.transactions.head? with
    | none => simp [Block.coinbase_height, hhead] at hheight
    | some coinbase =>
      simp only [Option.some.injEq]
      by_cases hmax : MAX_HEIGHT < height
      · rw [if_pos hmax]
        exact iff_of_true ⟨_, rfl⟩ fun _ _ h _ hle => absurd (h ▸ hle) (not_le.mpr hmax)
      · rw [if_neg hmax]
        trans ∃ halvings, SubsidyDefined p fmt order order' params height halvings coinbase
        swap
        · exact ⟨fun h _ _ hh hc _ => hh ▸ hc ▸ h, fun h => h _ _ rfl rfl (not_lt.mp hmax)⟩
        simp only [subsidy_is_valid, hheight, hhead, returns_exceptT_bind, returns_adapt,
          exceptT_adapt_ok]
        constructor
        · rintro ⟨hsubsidy, hvalid⟩
          obtain ⟨halvings, hhalvings⟩ := block_subsidy_returns hsubsidy
          have hdefined := num_halvings_ok.mp hhalvings
          obtain ⟨hfar, hbelow, -⟩ | ⟨hslow, subsidy, hok⟩ := block_subsidy_cases hhalvings
          · exact ⟨halvings, hdefined, fun _ h => absurd h (not_le.mpr hbelow),
              fun _ h => absurd h (not_le.mpr hbelow)⟩
          · obtain ⟨hcanopy, hpayable⟩ := (subsidy_at_returns hhalvings hslow).mp (hvalid subsidy hok)
            refine ⟨halvings, hdefined, fun hfar _ => hcanopy hfar, fun hearly _ subsidy' hok' => ?_⟩
            exact ((subsidy_at_returns hhalvings hslow).mp (hvalid subsidy' hok')).2 hearly
        · rintro ⟨halvings, hdefined, hcanopy, hpayable⟩
          have hhalvings := num_halvings_ok.mpr hdefined
          obtain ⟨hfar, hbelow, herr⟩ | ⟨hslow, subsidy, hok⟩ := block_subsidy_cases hhalvings
          · exact ⟨⟨_, herr⟩, fun subsidy h => by rw [herr] at h; cases h⟩
          · refine ⟨⟨_, hok⟩, fun subsidy' hok' => (subsidy_at_returns hhalvings hslow).mpr ?_⟩
            exact ⟨fun hfar => hcanopy hfar (hslow hfar),
              fun hearly => hpayable hearly (hslow (by omega)) subsidy' hok'⟩

end SemanticBlockVerifier

namespace Sample

/-- Canopy, and with it Blossom, only activates after the slow start. -/
def lateCanopy : List BuilderCall :=
  [.clear_funding_streams,
    .with_activation_heights ⟨none, none, none, none, none, some 30000, none, none, none, none⟩]

def lateCanopyBlock : Block :=
  ⟨templateHeader, [templateCoinbase true (Bytes.zero 32) 20000 []]⟩

end Sample

open Sample in
/-- A block after the slow start and before Canopy. -/
theorem before_canopy_panics :
    (ParametersBuilder.build .release templateFormats lateCanopy .declared).isOk = true ∧
      (ParametersBuilder.build .release templateFormats lateCanopy .declared >>= fun network =>
        (SemanticBlockVerifier.subsidy_checks .release templateFormats .declared .declared network
          (Bytes.zero 32) lateCanopyBlock).run).isOk = false :=
  ⟨by decide +kernel, by decide +kernel⟩

end ZebraCrosslink
