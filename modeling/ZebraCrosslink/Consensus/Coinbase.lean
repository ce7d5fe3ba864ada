import ZebraCrosslink.Chain.Builder

/-!
# The coinbase of a block

What a coinbase has to pay, and the coinbase outputs of a block template.
-/

open Rust List

namespace ZebraCrosslink

/-- The `BlockError` variants of the checks of a coinbase. `Amount` is the `Other` that has the text
of `err`. -/
inductive CoinbaseError
  | Subsidy (err : SubsidyError)
  | Amount (err : AmountError)
  | Other (reason : String)
  deriving DecidableEq

abbrev CoinbaseCheck (α : Type) : Type := ExceptT CoinbaseError (Except Abort) α

def Output.new_coinbase (amount : Amount .NonNegative) (lock_script : Script) : Output :=
  ⟨amount, lock_script⟩

def new_coinbase_script (address : TransparentAddress) : Except Abort Script := do
  assertThat address.is_script_hash
    "Funding streams and lockbox disbursements only support transparent 'pay to script hash' (P2SH) addresses"
  pure address.script

def removeOutput (coinbase_outputs : Multiset Output) (output : Output) : Option (Multiset Output) :=
  if output ∈ coinbase_outputs then some (coinbase_outputs.erase output) else none

def paid (payment : TransparentAddress × Amount .NonNegative) : Output :=
  .new_coinbase payment.2 payment.1.script

def check_disbursements (coinbase_outputs : Multiset Output)
    (deferred_pool_balance_change : Amount .NegativeAllowed) :
    List (TransparentAddress × Amount .NonNegative) →
      CoinbaseCheck (Multiset Output × Amount .NegativeAllowed)
  | [] => pure (coinbase_outputs, deferred_pool_balance_change)
  | (address, expected_amount) :: rest => do
    let script ← liftAbort (new_coinbase_script address)
    match removeOutput coinbase_outputs (.new_coinbase expected_amount script) with
    | none => failWith (.Subsidy .OneTimeLockboxDisbursementNotFound)
    | some coinbase_outputs =>
      let change ← liftAbort (orAbort (deferred_pool_balance_change.checked_sub expected_amount)
        (.expect "should be a valid Amount"))
      check_disbursements coinbase_outputs change rest

variable {outputs outputs' : Multiset Output} {address : TransparentAddress}

theorem removeOutput_eq_some {output : Output} :
    removeOutput outputs output = some outputs' ↔ outputs = output ::ₘ outputs' := by
  unfold removeOutput
  split
  · next hmem =>
    rw [Option.some.injEq]
    constructor
    · rintro rfl
      exact (Multiset.cons_erase hmem).symm
    · rintro rfl
      exact Multiset.erase_cons_head output outputs'
  · next hmem =>
    constructor
    · intro h
      cases h
    · rintro rfl
      exact absurd (Multiset.mem_cons_self _ _) hmem

theorem new_coinbase_script_ok {script : Script} : new_coinbase_script address = .ok script ↔
      address.is_script_hash = true ∧ script = address.script := by
  simp only [new_coinbase_script, except_bind_ok, assertThat_ok]
  constructor
  · rintro ⟨_, hp2sh, h⟩
    exact ⟨hp2sh, (Except.ok.inj h).symm⟩
  · rintro ⟨hp2sh, rfl⟩
    exact ⟨(), hp2sh, rfl⟩

theorem failWith_ne_ok {ε α : Type} {err : ε} {a : α} : failWith err ≠ .ok (.ok a) := by
  intro h
  cases h

theorem check_disbursements_ok {l : List (TransparentAddress × Amount .NonNegative)}
    {change change' : Amount .NegativeAllowed} :
    check_disbursements outputs change l = .ok (.ok (outputs', change')) ↔
      (∀ e ∈ l, e.1.is_script_hash = true) ∧ outputs = (l.map paid : Multiset Output) + outputs' ∧
        change'.zatoshis = change.zatoshis - Amount.total (l.map (·.2)) := by
  induction l generalizing outputs change with
  | nil =>
    constructor
    · intro h
      cases h
      simp
    · rintro ⟨-, rfl, h⟩
      have heq : change' = change := Amount.ext (by simpa using h)
      rw [heq]
      simp [check_disbursements]
      rfl
  | cons e rest ih =>
    obtain ⟨address, amount⟩ := e
    have hrest := Amount.total_nonneg (rest.map (·.2))
    simp only [check_disbursements, exceptT_bind_ok, liftAbort_ok, new_coinbase_script_ok]
    constructor
    · rintro ⟨script, ⟨hp2sh, rfl⟩, h⟩
      split at h
      · exact absurd h failWith_ne_ok
      · next outputs₁ hremove =>
        simp only [exceptT_bind_ok, liftAbort_ok, orAbort_ok, Amount.checked_sub_eq_some] at h
        obtain ⟨change₁, hsub, h⟩ := h
        obtain ⟨hall, hout, hchange⟩ := ih.mp h
        refine ⟨forall_mem_cons.mpr ⟨hp2sh, hall⟩, ?_, ?_⟩
        · rw [removeOutput_eq_some.mp hremove, hout, map_cons, ← Multiset.cons_coe,
            Multiset.cons_add]
          rfl
        · simp only [hchange, hsub, map_cons, Amount.total_cons]
          omega
    · rintro ⟨hall, hout, hchange⟩
      rw [forall_mem_cons] at hall
      simp only [map_cons, Amount.total_cons] at hchange
      simp only [map_cons, ← Multiset.cons_coe, Multiset.cons_add, paid] at hout
      have hrange : Constraint.NegativeAllowed.Holds (change.zatoshis - amount.zatoshis) := by
        have hlow := change'.valid.1
        have hhigh := change.valid.2
        have hamount := amount.valid.1
        simp only [Constraint.Holds, Constraint.least] at hlow hhigh hamount ⊢
        omega
      refine ⟨_, ⟨hall.1, rfl⟩, ?_⟩
      rw [removeOutput_eq_some.mpr hout]
      simp only [exceptT_bind_ok, liftAbort_ok, orAbort_ok, Amount.checked_sub_eq_some]
      exact ⟨⟨_, hrange⟩, rfl, ih.mpr ⟨hall.2, rfl, by rw [hchange]; simp only; omega⟩⟩

section

variable (p : Profile) (fmt : Formats) {network : Network} {height : Nat}

def check_streams (height : Nat) (network : Network) (coinbase_outputs : Multiset Output) :
    List (FundingStreamReceiver × Amount .NonNegative) → CoinbaseCheck (Multiset Output)
  | [] => pure coinbase_outputs
  | (receiver, expected_amount) :: rest => do
    match ← liftAbort (funding_stream_address p fmt height network receiver) with
    | none => failWith (.Other "missing funding stream address at height")
    | some address =>
      let script ← liftAbort (new_coinbase_script address)
      match removeOutput coinbase_outputs (.new_coinbase expected_amount script) with
      | none => failWith (.Subsidy .FundingStreamNotFound)
      | some coinbase_outputs => check_streams height network coinbase_outputs rest

def payment (height : Nat) (network : Network)
    (entry : FundingStreamReceiver × Amount .NonNegative) :
    Option (TransparentAddress × Amount .NonNegative) :=
  match funding_stream_address p fmt height network entry.1 with
  | .ok (some address) => some (address, entry.2)
  | _ => none

theorem payment_of_address {receiver : FundingStreamReceiver} {amount : Amount .NonNegative}
    (h : funding_stream_address p fmt height network receiver = .ok (some address)) :
    payment p fmt height network (receiver, amount) = some (address, amount) := by
  simp [payment, h]

theorem check_streams_ok {l : List (FundingStreamReceiver × Amount .NonNegative)} :
    check_streams p fmt height network outputs l = .ok (.ok outputs') ↔
      (∀ e ∈ l, ∃ address, funding_stream_address p fmt height network e.1 = .ok (some address) ∧
        address.is_script_hash = true) ∧
      outputs = ((l.filterMap (payment p fmt height network)).map paid : Multiset Output) + outputs' := by
  induction l generalizing outputs with
  | nil =>
    constructor
    · intro h
      cases h
      simp
    · rintro ⟨-, rfl⟩
      simp [check_streams]
      rfl
  | cons e rest ih =>
    obtain ⟨receiver, amount⟩ := e
    simp only [check_streams, exceptT_bind_ok, liftAbort_ok]
    constructor
    · rintro ⟨address, haddress, h⟩
      split at h
      · exact absurd h failWith_ne_ok
      · next address =>
        simp only [exceptT_bind_ok, liftAbort_ok, new_coinbase_script_ok] at h
        obtain ⟨script, ⟨hp2sh, rfl⟩, h⟩ := h
        split at h
        · exact absurd h failWith_ne_ok
        · next outputs₁ hremove =>
          obtain ⟨hall, hout⟩ := ih.mp h
          refine ⟨forall_mem_cons.mpr ⟨⟨address, haddress, hp2sh⟩, hall⟩, ?_⟩
          rw [removeOutput_eq_some.mp hremove, hout,
            filterMap_cons_some (payment_of_address p fmt haddress), map_cons,
            ← Multiset.cons_coe, Multiset.cons_add]
          rfl
    · rintro ⟨hall, hout⟩
      obtain ⟨⟨address, haddress, hp2sh⟩, hall⟩ := forall_mem_cons.mp hall
      rw [filterMap_cons_some (payment_of_address p fmt haddress)] at hout
      simp only [map_cons, ← Multiset.cons_coe, Multiset.cons_add, paid] at hout
      refine ⟨_, haddress, ?_⟩
      simp only [exceptT_bind_ok, liftAbort_ok, new_coinbase_script_ok]
      refine ⟨_, ⟨hp2sh, rfl⟩, ?_⟩
      rw [removeOutput_eq_some.mpr hout]
      exact ih.mpr ⟨hall, rfl⟩

def count_ones (n : Nat) : Nat := ((range 64).filter fun i => n.testBit i).length

/-- The iteration orders are those of the two maps: the recipients of the streams, and their values. -/
def subsidy_at (order order' : HashOrder) (height : Nat) (coinbase : Transaction)
    (network : Network) (expected_block_subsidy : Amount .NonNegative) :
    CoinbaseCheck (Amount .NegativeAllowed) := do
  match ← liftAbort (halving_divisor height network) with
  | none => pure .zero
  | some halving_div =>
    let canopy_activation_height ← liftAbort (orAbort (network.activation_height .Canopy)
      (.expect "Canopy activation height is known"))
    if height < network.slow_start_interval then
      liftAbort (.error (.panic "unsupported block height"))
    else if count_ones halving_div ≠ 1 then
      liftAbort (.error (.panic "invalid halving divisor"))
    else if height < canopy_activation_height then
      liftAbort (.error (.panic "we cannot verify consensus rules before Canopy activation"))
    else if halving_div < 8 then do
      let funding_streams ← (funding_stream_values fmt order height network
        expected_block_subsidy).adapt .Amount
      let deferred := ((funding_streams.lookup .Deferred).getD .zero).to_negative_allowed
      let disbursements ← liftAbort (network.lockbox_disbursements fmt height)
      let (coinbase_outputs, change) ←
        check_disbursements (coinbase.outputs : Multiset Output) deferred disbursements
      let _ ← check_streams p fmt height network coinbase_outputs
        (order'.entries (funding_streams.erase .Deferred))
      pure change
    else pure .zero

def subsidy_is_valid (order order' : HashOrder) (block : Block) (network : Network)
    (expected_block_subsidy : Amount .NonNegative) : CoinbaseCheck (Amount .NegativeAllowed) :=
  match block.coinbase_height, block.transactions.head? with
  | some height, some coinbase =>
    subsidy_at p fmt order order' height coinbase network expected_block_subsidy
  | _, _ => failWith (.Subsidy .NoCoinbase)

end

/-! ## Miner fees -/

namespace Transaction

def sapling_value_balance (tx : Transaction) : Amount .NegativeAllowed :=
  match tx.sapling_shielded_data with
  | some data => data.value_balance
  | none => .zero

def orchard_value_balance (tx : Transaction) : Amount .NegativeAllowed :=
  match tx.orchard_shielded_data with
  | some data => data.value_balance
  | none => .zero

end Transaction

def sumOverflow {α : Type} (x : Except AmountError α) : CoinbaseCheck α :=
  ExceptT.mk (.ok (x.mapError fun _ => .Subsidy .SumOverflow))

def miner_fees_are_valid (coinbase_tx : Transaction) (height : Nat)
    (block_miner_fees expected_block_subsidy : Amount .NonNegative)
    (expected_deferred_pool_balance_change : Amount .NegativeAllowed) (network : Network) :
    CoinbaseCheck Unit := do
  let transparent ← sumOverflow (Amount.sum (coinbase_tx.outputs.map (·.value)))
  let total_output_value ← sumOverflow (do
    let unshielded ← transparent.to_negative_allowed.sub coinbase_tx.sapling_value_balance
    let unshielded ← unshielded.sub coinbase_tx.orchard_value_balance
    unshielded.add expected_deferred_pool_balance_change)
  let total_input_value ← sumOverflow (expected_block_subsidy.add block_miner_fees)
  let nu ← liftAbort (network.current height)
  if (if nu < .Nu6 then total_input_value.zatoshis < total_output_value.zatoshis
      else total_output_value.zatoshis ≠ total_input_value.zatoshis) then
    failWith (.Subsidy .InvalidMinerFees)
  else pure ()

theorem sumOverflow_ok {α : Type} {x : Except AmountError α} {a : α} :
    sumOverflow x = .ok (.ok a) ↔ x = .ok a := by
  cases x with
  | error err =>
    constructor
    · intro h
      cases h
    · intro h
      cases h
  | ok b =>
    constructor
    · intro h
      cases h
      rfl
    · rintro h
      cases h
      rfl

def total_output_value (coinbase_tx : Transaction) (change : Amount .NegativeAllowed) : Int :=
  Amount.total (coinbase_tx.outputs.map (·.value)) - coinbase_tx.sapling_value_balance.zatoshis -
    coinbase_tx.orchard_value_balance.zatoshis + change.zatoshis

/-- Before NU6, the miner may leave some of the input value. -/
def Balanced (nu : NetworkUpgrade) (output input : Int) : Prop :=
  if nu < .Nu6 then output ≤ input else output = input

section

variable {coinbase_tx : Transaction} {height : Nat} {fees subsidy : Amount .NonNegative}
  {change : Amount .NegativeAllowed} {network : Network}

structure SumsFit (coinbase_tx : Transaction) (fees subsidy : Amount .NonNegative)
    (change : Amount .NegativeAllowed) : Prop where
  transparent : Amount.total (coinbase_tx.outputs.map (·.value)) ≤ MAX_MONEY
  sapling : Constraint.NegativeAllowed.Holds (Amount.total (coinbase_tx.outputs.map (·.value)) -
    coinbase_tx.sapling_value_balance.zatoshis)
  orchard : Constraint.NegativeAllowed.Holds (Amount.total (coinbase_tx.outputs.map (·.value)) -
    coinbase_tx.sapling_value_balance.zatoshis - coinbase_tx.orchard_value_balance.zatoshis)
  output : Constraint.NegativeAllowed.Holds (total_output_value coinbase_tx change)
  input : subsidy.zatoshis + fees.zatoshis ≤ MAX_MONEY

theorem rejectUnless_ok {c : Prop} [Decidable c] {err : CoinbaseError} :
    (if c then failWith err else pure () : CoinbaseCheck Unit) = .ok (.ok ()) ↔ ¬ c := by
  split
  · next h => exact ⟨fun heq => absurd heq failWith_ne_ok, fun hn => absurd h hn⟩
  · next h => exact ⟨fun _ => h, fun _ => rfl⟩

theorem not_unbalanced {nu : NetworkUpgrade} {output input : Int} :
    ¬ (if nu < .Nu6 then input < output else output ≠ input) ↔ Balanced nu output input := by
  unfold Balanced
  split <;> omega

theorem miner_fees_are_valid_ok :
    miner_fees_are_valid coinbase_tx height fees subsidy change network = .ok (.ok ()) ↔
      SumsFit coinbase_tx fees subsidy change ∧ ∃ nu, network.current height = .ok nu ∧
        Balanced nu (total_output_value coinbase_tx change) (subsidy.zatoshis + fees.zatoshis) := by
  simp only [miner_fees_are_valid, exceptT_bind_ok, sumOverflow_ok, except_bind_ok, liftAbort_ok,
    Amount.sum_eq_ok, Amount.sub_eq_ok, Amount.add_eq_ok, rejectUnless_ok, not_unbalanced]
  constructor
  · rintro ⟨t, ht, out, ⟨u, hu, v, hv, hout⟩, input, hinput, nu, hnu, hbalanced⟩
    simp only [Amount.to_negative_allowed_zatoshis, ht] at hu
    rw [hu] at hv
    rw [hv] at hout
    refine ⟨⟨ht ▸ t.valid.2, hu ▸ u.valid, hv ▸ v.valid, ?_, hinput ▸ input.valid.2⟩, nu, hnu, ?_⟩
    · rw [total_output_value, ← hout]
      exact out.valid
    · rw [total_output_value, ← hout, ← hinput]
      exact hbalanced
  · rintro ⟨⟨ht, hu, hv, hout, hinput⟩, nu, hnu, hbalanced⟩
    refine ⟨⟨_, Amount.total_nonneg _, ht⟩, rfl, ⟨_, hout⟩, ⟨⟨_, hu⟩, rfl, ⟨_, hv⟩, rfl, rfl⟩,
      ⟨_, Int.add_nonneg subsidy.valid.1 fees.valid.1, hinput⟩, rfl, nu, hnu, hbalanced⟩

end

/-! ## The subsidy check -/

/-- The disbursements and the funding streams that a coinbase has to pay before the third halving. -/
structure Pays (p : Profile) (fmt : Formats) (height : Nat) (network : Network)
    (outputs : Multiset Output) (values : Map FundingStreamReceiver (Amount .NonNegative))
    (order : HashOrder) (disbursements : List (TransparentAddress × Amount .NonNegative)) : Prop where
  disbursement_scripts : ∀ e ∈ disbursements, e.1.is_script_hash = true
  stream_scripts : ∀ e ∈ order.entries (values.erase .Deferred), ∃ address,
    funding_stream_address p fmt height network e.1 = .ok (some address) ∧
      address.is_script_hash = true
  contained : ((disbursements.map paid : Multiset Output) +
    (((order.entries (values.erase .Deferred)).filterMap (payment p fmt height network)).map paid :
      Multiset Output)) ≤ outputs

theorem count_ones_two_pow {n : Nat} (h : n < 64) : count_ones (2 ^ n) = 1 := by
  have hall : ∀ i : Fin 64, count_ones (2 ^ i.val) = 1 := by decide
  exact hall ⟨n, h⟩

section

variable {p : Profile} {fmt : Formats} {order order' : HashOrder} {network : Network}
  {coinbase : Transaction} {height canopy halvings : Nat} {subsidy : Amount .NonNegative}
  {change : Amount .NegativeAllowed}

theorem subsidy_at_late (hhalvings : num_halvings height network = .ok halvings)
    (hlate : 3 ≤ halvings) (hcanopy : network.activation_height .Canopy = some canopy)
    (hle : canopy ≤ height) (hslow : network.slow_start_interval ≤ height) :
    subsidy_at p fmt order order' height coinbase network subsidy = .ok (.ok .zero) := by
  simp only [subsidy_at, halving_divisor_of hhalvings, liftAbort_bind, hcanopy]
  by_cases hfar : halvings < 64
  · have hbig : ¬ 2 ^ halvings < 8 := by
      have := Nat.pow_le_pow_right (n := 2) (by decide) hlate
      omega
    rw [if_pos hfar]
    simp only [orAbort, liftAbort_bind]
    rw [if_neg (by omega), if_neg (by simp [count_ones_two_pow hfar]), if_neg (by omega), if_neg hbig]
    rfl
  · rw [if_neg hfar]
    rfl

theorem subsidy_at_early (hhalvings : num_halvings height network = .ok halvings)
    (hearly : halvings < 3) (hcanopy : network.activation_height .Canopy = some canopy)
    (hle : canopy ≤ height) (hslow : network.slow_start_interval ≤ height) :
    subsidy_at p fmt order order' height coinbase network subsidy = .ok (.ok change) ↔
      ∃ values disbursements,
        funding_stream_values fmt order height network subsidy = .ok (.ok values) ∧
        network.lockbox_disbursements fmt height = .ok disbursements ∧
        Pays p fmt height network (coinbase.outputs : Multiset Output) values order' disbursements ∧
        change.zatoshis = ((values.lookup .Deferred).getD .zero).zatoshis -
          Amount.total (disbursements.map (·.2)) := by
  have hfar : halvings < 64 := by omega
  have hsmall : 2 ^ halvings < 8 := Nat.pow_lt_pow_right (n := 3) (by decide) hearly
  simp only [subsidy_at, halving_divisor_of hhalvings, if_pos hfar, liftAbort_bind, hcanopy, orAbort]
  rw [if_neg (by omega), if_neg (by simp [count_ones_two_pow hfar]), if_neg (by omega),
    if_pos hsmall]
  simp only [exceptT_bind_ok, exceptT_adapt_ok, liftAbort_ok]
  constructor
  · rintro ⟨values, hvalues, disbursements, hdisbursements, ⟨outputs₁, change₁⟩, hdisburse, outputs₂,
      hstreams, h⟩
    cases h
    obtain ⟨hp2sh, hout, hchange⟩ := check_disbursements_ok.mp hdisburse
    obtain ⟨hp2sh', hout'⟩ := (check_streams_ok p fmt).mp hstreams
    simp only at hout'
    refine ⟨values, disbursements, hvalues, hdisbursements, ⟨hp2sh, hp2sh', ?_⟩, hchange⟩
    rw [hout, hout', ← add_assoc]
    exact Multiset.le_add_right _ _
  · rintro ⟨values, disbursements, hvalues, hdisbursements, ⟨hp2sh, hp2sh', hcontained⟩, hchange⟩
    obtain ⟨outputs₂, hout⟩ := Multiset.le_iff_exists_add.mp hcontained
    rw [add_assoc] at hout
    exact ⟨values, hvalues, disbursements, hdisbursements, (_, change),
      check_disbursements_ok.mpr ⟨hp2sh, hout, hchange⟩, outputs₂,
      (check_streams_ok p fmt).mpr ⟨hp2sh', rfl⟩, rfl⟩

end

end ZebraCrosslink
