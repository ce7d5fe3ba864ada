import ZebraCrosslink.Consensus.Coinbase

/-!
# The coinbase of a block template

The outputs that a template pays, against the checks that the coinbase of a block has to pass.
-/

open Rust List Bytes

namespace ZebraCrosslink

/-! ## The outputs -/

def expectOk {ε α : Type} (x : ExceptT ε (Except Abort) α) (msg : String) : Except Abort α :=
  match x.run with
  | .ok (.ok a) => .ok a
  | .ok (.error _) => .error (.expect msg)
  | .error err => .error err

theorem expectOk_ok {ε α : Type} {x : ExceptT ε (Except Abort) α} {msg : String} {a : α} :
    expectOk x msg = .ok a ↔ x = .ok (.ok a) := by
  constructor
  · intro h
    rcases x with err | err | b
    · cases h
    · cases h
    · cases h
      rfl
  · rintro rfl
    rfl

/-- The iteration orders of the maps in `standard_coinbase_outputs`. -/
structure TemplateOrders where
  recipients : HashOrder
  values : HashOrder
  addresses : HashOrder
  rewards : HashOrder

section

variable (p : Profile) (fmt : Formats)

def with_addresses (height : Nat) (network : Network) :
    List (FundingStreamReceiver × Amount .NonNegative) →
      Except Abort (List (FundingStreamReceiver × TransparentAddress × Amount .NonNegative))
  | [] => .ok []
  | (receiver, amount) :: rest => do
    let address ← funding_stream_address p fmt height network receiver
    let others ← with_addresses height network rest
    pure (match address with
      | some address => (receiver, address, amount) :: others
      | none => others)

/-- `miner_script` is the script of the transparent component of the miner address. -/
def standard_coinbase_outputs (orders : TemplateOrders) (network : Network) (height : Nat)
    (miner_script : Script) (miner_fee : Amount .NonNegative) :
    Except Abort (List (Amount .NonNegative × Script)) := do
  let expected_block_subsidy ← expectOk (block_subsidy height network) "valid block subsidy"
  let funding_streams ← expectOk
    (funding_stream_values fmt orders.recipients height network expected_block_subsidy)
    "funding stream value calculations are valid for reasonable chain heights"
  let funding_streams ← with_addresses p fmt height network (orders.values.entries funding_streams)
  let miner_reward ← expectOk
    (miner_subsidy fmt orders.recipients orders.rewards height network expected_block_subsidy)
    "reward calculations are valid for reasonable chain heights"
  let miner_reward ← orAbort (miner_reward.add miner_fee).toOption
    (.expect "reward calculations are valid for reasonable chain heights")
  let one_time_lockbox_disbursements ← network.lockbox_disbursements fmt height
  let funding_streams_outputs :=
    (orders.addresses.entries (HashOrder.collect funding_streams)).map (·.2)
  let coinbase_outputs := (funding_streams_outputs ++ one_time_lockbox_disbursements).map
    fun (address, amount) => (amount, address.script)
  pure ((miner_reward, miner_script) ::
    coinbase_outputs.mergeSort fun a b => decide (a.2 ≤ b.2))

end

def new_v4_coinbase (height : Nat) (outputs : List (Amount .NonNegative × Script)) :
    TransactionData :=
  .V4 [.Coinbase height] (outputs.map fun (amount, script) => .new_coinbase amount script) height []
    none

def new_v5_coinbase (height : Nat) (outputs : List (Amount .NonNegative × Script)) :
    TransactionData :=
  .V5 height [.Coinbase height] (outputs.map fun (amount, script) => .new_coinbase amount script) none
    none

/-! ## What the outputs are -/

section

variable {p : Profile} {fmt : Formats} {height : Nat} {network : Network} {α : Type}
  {subsidy reward fee : Amount .NonNegative} {orders : TemplateOrders} {script : Script}
  {values : Map FundingStreamReceiver (Amount .NonNegative)}

theorem with_addresses_ok {l : List (FundingStreamReceiver × Amount .NonNegative)}
    {l' : List (FundingStreamReceiver × TransparentAddress × Amount .NonNegative)} :
    with_addresses p fmt height network l = .ok l' ↔
      (∀ e ∈ l, ∃ address, funding_stream_address p fmt height network e.1 = .ok address) ∧
        l' = l.filterMap fun e => (payment p fmt height network e).map fun pay => (e.1, pay) := by
  induction l generalizing l' with
  | nil => simp [with_addresses, eq_comm]
  | cons e rest ih =>
    obtain ⟨receiver, amount⟩ := e
    simp only [with_addresses, except_bind_ok, ih, forall_mem_cons]
    constructor
    · rintro ⟨address, haddress, others, ⟨hall, rfl⟩, h⟩
      refine ⟨⟨⟨address, haddress⟩, hall⟩, ?_⟩
      cases h
      cases address with
      | none => simp [payment, haddress]
      | some address => simp [payment, haddress]
    · rintro ⟨⟨⟨address, haddress⟩, hall⟩, rfl⟩
      refine ⟨address, haddress, _, ⟨hall, rfl⟩, ?_⟩
      cases address with
      | none => simp [payment, haddress, pure, Except.pure]
      | some address => simp [payment, haddress, pure, Except.pure]

theorem funding_stream_address_deferred :
    funding_stream_address p fmt height network .Deferred = .ok none := rfl

theorem funding_stream_address_some {streams : FundingStreams} {receiver : FundingStreamReceiver}
    {recipient : FundingStreamRecipient} {address : Option TransparentAddress}
    (hstreams : network.funding_streams fmt height = .ok (some streams))
    (hrecipient : streams.recipients.lookup receiver = some recipient)
    (hdeferred : receiver ≠ .Deferred)
    (h : funding_stream_address p fmt height network receiver = .ok address) :
    ∃ a, address = some a := by
  simp only [funding_stream_address, funding_stream_address_index, if_neg hdeferred, hstreams,
    except_bind_ok] at h
  obtain ⟨index, ⟨streams', hstreams', hindex⟩, h⟩ := h
  cases hstreams'
  simp only [hrecipient, except_bind_ok] at hindex
  obtain ⟨period, -, start_period, -, position, hposition, hindex⟩ := hindex
  cases hindex
  obtain ⟨streams', hstreams', h⟩ := except_bind_ok.mp h
  cases hstreams'
  cases h
  obtain ⟨-, -, -, hlt⟩ := address_position_ok.mp hposition
  exact ⟨recipient.addresses[position], by simp [hrecipient, hlt]⟩

theorem entries_declared (m : Map FundingStreamReceiver α) :
    HashOrder.declared.entries m = HashOrder.declared.entries (m.erase .Deferred) ++
      (m.lookup .Deferred).toList.map fun a => (.Deferred, a) := by
  have hne : ∀ receiver, receiver ≠ .Deferred → (m.erase .Deferred).lookup receiver =
      m.lookup receiver := fun receiver h => Finmap.lookup_erase_ne h
  have hsplit : HashOrder.declared.receivers =
      [.Ecc, .ZcashFoundation, .MajorGrants] ++ [.Deferred] := rfl
  simp only [HashOrder.entries, hsplit, filterMap_append, filterMap_cons,
    filterMap_nil, hne _ (show FundingStreamReceiver.Ecc ≠ .Deferred by decide),
    hne _ (show FundingStreamReceiver.ZcashFoundation ≠ .Deferred by decide),
    hne _ (show FundingStreamReceiver.MajorGrants ≠ .Deferred by decide), Finmap.lookup_erase]
  cases m.lookup .Deferred <;> simp

def streamPayments (p : Profile) (fmt : Formats) (height : Nat) (network : Network)
    (values : Map FundingStreamReceiver (Amount .NonNegative)) :
    List (TransparentAddress × Amount .NonNegative) :=
  (HashOrder.declared.entries (values.erase .Deferred)).filterMap (payment p fmt height network)

theorem filterMap_payment_perm (order : HashOrder)
    (values : Map FundingStreamReceiver (Amount .NonNegative)) :
    ((order.entries values).filterMap (payment p fmt height network)).Perm
      (streamPayments p fmt height network values) := by
  refine ((order.entries_perm HashOrder.declared values).filterMap _).trans ?_
  rw [entries_declared, filterMap_append]
  have hnone : ∀ a, payment p fmt height network (.Deferred, a) = none := by
    intro a
    simp [payment, funding_stream_address_deferred]
  cases values.lookup .Deferred <;> simp [streamPayments, hnone]

def totalOf (values : Map FundingStreamReceiver (Amount .NonNegative)) : Int :=
  Amount.total ((HashOrder.declared.entries values).map (·.2))

theorem totalOf_eq (order : HashOrder) (values : Map FundingStreamReceiver (Amount .NonNegative)) :
    Amount.total ((order.entries values).map (·.2)) = totalOf values :=
  Amount.total_perm ((order.entries_perm HashOrder.declared values).map _)

theorem miner_subsidy_ok {order order' : HashOrder} :
    miner_subsidy fmt order order' height network subsidy = .ok (.ok reward) ↔
      ∃ values, funding_stream_values fmt order height network subsidy = .ok (.ok values) ∧
        totalOf values ≤ MAX_MONEY ∧ reward.zatoshis = subsidy.zatoshis - totalOf values := by
  have hmk : ∀ {α : Type} {x : Except AmountError α} {a : α},
      (ExceptT.mk (.ok x) : ExceptT AmountError (Except Abort) α) = .ok (.ok a) ↔ x = .ok a := by
    intro α x a
    exact ⟨fun h => Except.ok.inj h, fun h => congrArg Except.ok h⟩
  simp only [miner_subsidy, exceptT_bind_ok, hmk, Amount.sum_eq_ok, Amount.sub_eq_ok]
  constructor
  · rintro ⟨values, hvalues, total, htotal, hreward⟩
    rw [totalOf_eq] at htotal
    exact ⟨values, hvalues, htotal ▸ total.valid.2, htotal ▸ hreward⟩
  · rintro ⟨values, hvalues, hmoney, hreward⟩
    refine ⟨values, hvalues, ⟨totalOf values, Amount.total_nonneg _, hmoney⟩, ?_, hreward⟩
    exact (totalOf_eq order' values).symm

/-- What a template pays: the reward of the miner, the funding streams and the disbursements. -/
structure TemplateOf (p : Profile) (fmt : Formats) (order : HashOrder) (height : Nat)
    (network : Network) (fee subsidy reward : Amount .NonNegative)
    (values : Map FundingStreamReceiver (Amount .NonNegative))
    (disbursements : List (TransparentAddress × Amount .NonNegative)) : Prop where
  block_subsidy : block_subsidy height network = .ok (.ok subsidy)
  stream_values : funding_stream_values fmt order height network subsidy = .ok (.ok values)
  addresses : ∀ receiver amount, values.lookup receiver = some amount →
    ∃ address, funding_stream_address p fmt height network receiver = .ok address
  lockbox : network.lockbox_disbursements fmt height = .ok disbursements
  shared : totalOf values ≤ subsidy.zatoshis
  miner_reward : reward.zatoshis = subsidy.zatoshis - totalOf values + fee.zatoshis

theorem keys_filterMap_sublist {β γ : Type} (f : α × β → Option γ) (l : List (α × β)) :
    ((l.filterMap fun e => (f e).map fun c => (e.1, c)).map (·.1)).Sublist (l.map (·.1)) := by
  induction l with
  | nil => exact Sublist.slnil
  | cons e rest ih =>
    rw [filterMap_cons, map_cons]
    cases f e with
    | none => exact ih.cons _
    | some c => exact ih.cons_cons _

def payOutput (pay : TransparentAddress × Amount .NonNegative) : Amount .NonNegative × Script :=
  (pay.2, pay.1.script)

theorem template_of_outputs {outputs : List (Amount .NonNegative × Script)}
    (h : standard_coinbase_outputs p fmt orders network height script fee = .ok outputs) :
    ∃ subsidy reward values disbursements,
      TemplateOf p fmt orders.recipients height network fee subsidy reward values disbursements ∧
      ∃ rest, outputs = (reward, script) :: rest ∧
        rest.Perm ((streamPayments p fmt height network values ++ disbursements).map payOutput) := by
  simp only [standard_coinbase_outputs, except_bind_ok, expectOk_ok, with_addresses_ok,
    miner_subsidy_ok, orAbort_ok, toOption_eq_some, Amount.add_eq_ok] at h
  obtain ⟨subsidy, hsubsidy, values, hvalues, streams, ⟨haddresses, rfl⟩, reward,
    ⟨values', hvalues', -, hreward⟩, reward', hreward', disbursements, hdisbursements, h⟩ := h
  obtain rfl : values = values' := Except.ok.inj (Except.ok.inj (hvalues.symm.trans hvalues'))
  refine ⟨subsidy, reward', values, disbursements, ⟨hsubsidy, hvalues, fun receiver amount hlookup =>
    haddresses _ (HashOrder.mem_entries.mpr hlookup), hdisbursements, ?_, by omega⟩, _,
    (Except.ok.inj h).symm, ?_⟩
  · have := reward.valid.1
    simp only [Constraint.least] at this
    omega
  · refine (mergeSort_perm _ _).trans ?_
    refine Perm.map payOutput (Perm.append_right _ ?_)
    have hnodup := (orders.values.entries_keys_nodup values).sublist
      (keys_filterMap_sublist (payment p fmt height network) _)
    refine ((orders.addresses.entries_collect_perm hnodup).map _).trans ?_
    rw [map_filterMap]
    simp only [Option.map_map, Function.comp_def, Option.map_id']
    exact filterMap_payment_perm orders.values values

theorem TemplateOf.exists_outputs {disbursements : List (TransparentAddress × Amount .NonNegative)}
    (h : TemplateOf p fmt orders.recipients height network fee subsidy reward values disbursements)
    (script : Script) :
    ∃ outputs, standard_coinbase_outputs p fmt orders network height script fee = .ok outputs := by
  have hmoney : totalOf values ≤ MAX_MONEY := h.shared.trans subsidy.valid.2
  have hrange : Constraint.NonNegative.Holds (subsidy.zatoshis - totalOf values) := by
    have hshared := h.shared
    have hnonneg : 0 ≤ totalOf values := Amount.total_nonneg _
    have hsubsidy := subsidy.valid.2
    simp only [Constraint.Holds, Constraint.least]
    omega
  simp only [standard_coinbase_outputs, except_bind_ok, expectOk_ok, with_addresses_ok,
    miner_subsidy_ok, orAbort_ok, toOption_eq_some, Amount.add_eq_ok]
  exact ⟨_, subsidy, h.block_subsidy, values, h.stream_values, _, ⟨fun e he =>
    h.addresses _ _ (HashOrder.mem_entries.mp he), rfl⟩, ⟨_, hrange⟩,
    ⟨values, h.stream_values, hmoney, rfl⟩, reward, h.miner_reward, disbursements, h.lockbox, rfl⟩

theorem total_streamPayments
    (h : ∀ receiver amount, (values.erase .Deferred).lookup receiver = some amount →
      ∃ address, funding_stream_address p fmt height network receiver = .ok (some address)) :
    Amount.total ((streamPayments p fmt height network values).map (·.2)) =
      totalOf values - ((values.lookup .Deferred).getD .zero).zatoshis := by
  have hpaid : ∀ l : List (FundingStreamReceiver × Amount .NonNegative),
      (∀ e ∈ l, ∃ address, funding_stream_address p fmt height network e.1 = .ok (some address)) →
      (l.filterMap (payment p fmt height network)).map (·.2) = l.map (·.2) := by
    intro l hl
    induction l with
    | nil => rfl
    | cons e rest ih =>
      obtain ⟨⟨address, haddress⟩, hrest⟩ := forall_mem_cons.mp hl
      rw [filterMap_cons_some (payment_of_address p fmt haddress), map_cons, map_cons, ih hrest]
  rw [streamPayments, hpaid _ fun e he => h _ _ (HashOrder.mem_entries.mp he), totalOf,
    entries_declared values, map_append, Amount.total_append]
  cases values.lookup .Deferred <;> simp [Amount.total]

end

/-! ## Which templates pass -/

variable {l : List (String × Amount .NonNegative)} {fmt : Formats}
  {parsed : List (TransparentAddress × Amount .NonNegative)}

theorem parse_disbursements_ok : Network.parse_disbursements fmt l = .ok parsed ↔
      Forall₂ (fun e e' => fmt.parse e.1 = some e'.1 ∧ e'.2 = e.2) l parsed := by
  unfold Network.parse_disbursements
  induction l generalizing parsed with
  | nil =>
    rw [mapM_nil, forall₂_nil_left_iff]
    exact ⟨fun h => (Except.ok.inj h).symm, fun h => congrArg Except.ok h.symm⟩
  | cons e rest ih =>
    simp only [mapM_cons, except_bind_ok, orAbort_ok, forall₂_cons_left_iff, ih]
    constructor
    · rintro ⟨e', ⟨address, haddress, he'⟩, others, hothers, h⟩
      cases he'
      cases h
      exact ⟨_, _, ⟨haddress, rfl⟩, hothers, rfl⟩
    · rintro ⟨⟨address, amount⟩, others, ⟨haddress, hamount⟩, hothers, rfl⟩
      cases hamount
      exact ⟨_, ⟨address, haddress, rfl⟩, others, hothers, rfl⟩

theorem parsed_amounts
    (h : Network.parse_disbursements fmt l = .ok parsed) : parsed.map (·.2) = l.map (·.2) := by
  rw [parse_disbursements_ok] at h
  induction h with
  | nil => rfl
  | cons hhead _ ih => rw [map_cons, map_cons, hhead.2, ih]

theorem exists_parsed (h : ∀ e ∈ l, ∃ address, fmt.parse e.1 = some address) :
    ∃ parsed, Network.parse_disbursements fmt l = .ok parsed := by
  simp only [parse_disbursements_ok]
  induction l with
  | nil => exact ⟨[], .nil⟩
  | cons e rest ih =>
    obtain ⟨⟨address, haddress⟩, hrest⟩ := forall_mem_cons.mp h
    obtain ⟨parsed, hparsed⟩ := ih hrest
    exact ⟨(address, e.2) :: parsed, .cons ⟨haddress, rfl⟩ hparsed⟩

theorem forall_parsed {P : TransparentAddress → Prop}
    (h : Network.parse_disbursements fmt l = .ok parsed) :
    (∀ e ∈ parsed, P e.1) ↔ ∀ e ∈ l, ∃ address, fmt.parse e.1 = some address ∧ P address := by
  rw [parse_disbursements_ok] at h
  induction h with
  | nil => simp
  | cons hhead _ ih =>
    rw [forall_mem_cons, forall_mem_cons, ih, hhead.1]
    simp

section

variable {p : Profile} {fmt : Formats} {subsidy : Amount .NonNegative}
  {recipients : Map FundingStreamReceiver FundingStreamRecipient}
  {values : Map FundingStreamReceiver (Amount .NonNegative)}

theorem numerator_le {receiver : FundingStreamReceiver} {recipient : FundingStreamRecipient}
    (hlookup : recipients.lookup receiver = some recipient) :
    recipient.numerator.toNat ≤ numerators recipients :=
  le_sum_of_mem (mem_map.mpr ⟨(receiver, recipient), HashOrder.mem_entries.mpr hlookup, rfl⟩)

theorem shareFits_iff (haccepted : NumeratorsAccepted p recipients)
    (hsubsidy : subsidy.zatoshis ≤ MAX_BLOCK_SUBSIDY) :
    (∀ receiver recipient, recipients.lookup receiver = some recipient →
      ShareFits subsidy recipient) ↔
      numerators recipients ≤ FUNDING_STREAM_RECEIVER_DENOMINATOR ∨ subsidy.zatoshis = 0 := by
  have hnonneg := subsidy.valid.1
  simp only [Constraint.least] at hnonneg
  constructor
  · intro hfits
    by_contra hnot
    rw [not_or] at hnot
    have hle : ∀ e ∈ HashOrder.declared.entries recipients,
        e.2.numerator.toNat ≤ MAX_MONEY.toNat := by
      intro e he
      have hproduct := hfits e.1 e.2 (HashOrder.mem_entries.mp he)
      have hone : (1 : Int) ≤ subsidy.zatoshis := by omega
      have hscale := Int.mul_le_mul_of_nonneg_right hone (Int.natCast_nonneg e.2.numerator.toNat)
      unfold ShareFits at hproduct
      omega
    have hsum : numerators recipients ≤
        ((HashOrder.declared.entries recipients).map fun e => e.2.numerator.toNat).length •
          MAX_MONEY.toNat := by
      refine sum_le_card_nsmul _ _ ?_
      intro n hn
      obtain ⟨e, he, rfl⟩ := mem_map.mp hn
      exact hle e he
    have hlength : (HashOrder.declared.entries recipients).length ≤ 4 :=
      length_filterMap_le _ _
    have hsmall : numerators recipients < 2 ^ 64 := by
      rw [length_map] at hsum
      rw [nsmul_eq_mul, Nat.cast_id] at hsum
      have := Nat.mul_le_mul_right MAX_MONEY.toNat hlength
      have hmoney : 4 * MAX_MONEY.toNat < 2 ^ 64 := by decide
      omega
    have hmod := haccepted.1
    rw [Nat.mod_eq_of_lt hsmall] at hmod
    exact hnot.1 hmod
  · intro h receiver recipient hlookup
    unfold ShareFits
    rcases h with hnumerators | hzero
    · have hn := (numerator_le hlookup).trans hnumerators
      have hproduct : subsidy.zatoshis * recipient.numerator.toNat ≤
          MAX_BLOCK_SUBSIDY * FUNDING_STREAM_RECEIVER_DENOMINATOR :=
        Int.mul_le_mul hsubsidy (by omega) (Int.natCast_nonneg _) (by decide)
      have hmoney : ((MAX_BLOCK_SUBSIDY * FUNDING_STREAM_RECEIVER_DENOMINATOR : Nat) : Int) ≤
          MAX_MONEY := by decide
      push_cast at hmoney
      omega
    · rw [hzero, Int.zero_mul]
      decide

theorem Shares.totalOf_eq (h : Shares subsidy recipients values) :
    totalOf values = ((HashOrder.declared.entries recipients).map fun e => share subsidy e.2).sum := by
  rw [totalOf, Amount.total, map_map]
  exact congrArg sum (HashOrder.declared.map_entries h)

theorem Shares.le_subsidy (h : Shares subsidy recipients values)
    (hnumerators : numerators recipients ≤ FUNDING_STREAM_RECEIVER_DENOMINATOR ∨
      subsidy.zatoshis = 0) : totalOf values ≤ subsidy.zatoshis := by
  have hle := sum_share_mul_le subsidy ((HashOrder.declared.entries recipients).map (·.2))
  simp only [map_map, Function.comp_def] at hle
  rw [← h.totalOf_eq] at hle
  change _ ≤ _ * ((numerators recipients : Nat) : Int) at hle
  rcases hnumerators with hn | hzero
  · have hscale := Int.mul_le_mul_of_nonneg_left (Int.ofNat_le.mpr hn) subsidy.valid.1
    unfold FUNDING_STREAM_RECEIVER_DENOMINATOR at hscale
    push_cast at hscale
    omega
  · rw [hzero, Int.zero_mul] at hle
    omega

def deferredShare (subsidy : Amount .NonNegative)
    (recipients : Map FundingStreamReceiver FundingStreamRecipient) : Int :=
  ((recipients.lookup .Deferred).map (share subsidy)).getD 0

theorem Shares.deferred (h : Shares subsidy recipients values) :
    ((values.lookup .Deferred).getD .zero).zatoshis = deferredShare subsidy recipients := by
  rw [deferredShare, ← h .Deferred]
  cases values.lookup .Deferred <;> rfl

end

def activeRecipients (params : Parameters) (height : Nat) :
    Map FundingStreamReceiver FundingStreamRecipient :=
  recipientsOf (params.funding_streams.find? fun streams =>
    streams.start ≤ height ∧ height < streams.stop)

def lockboxTotal (params : Parameters) (height : Nat) : Int :=
  Amount.total ((due_disbursements params height).map (·.2))

structure TemplateFits (p : Profile) (fmt : Formats) (params : Parameters) (height halvings : Nat)
    (subsidy fee : Amount .NonNegative) : Prop where
  numerators : numerators (activeRecipients params height) ≤ FUNDING_STREAM_RECEIVER_DENOMINATOR ∨
    subsidy.zatoshis = 0
  streams : ∀ receiver ≠ .Deferred, receiver ∈ activeRecipients params height → ∃ address,
    funding_stream_address p fmt height (.Testnet params) receiver = .ok (some address) ∧
      (halvings < 3 → address.is_script_hash = true)
  disbursements : ∀ e ∈ due_disbursements params height, ∃ address,
    fmt.parse e.1 = some address ∧ (halvings < 3 → address.is_script_hash = true)
  money : subsidy.zatoshis - deferredShare subsidy (activeRecipients params height) +
    fee.zatoshis + lockboxTotal params height ≤ MAX_MONEY
  /-- From the third halving on, the checks know of no deferred pool. -/
  late : 3 ≤ halvings → ∃ nu, (Network.Testnet params).current height = .ok nu ∧
    Balanced nu (lockboxTotal params height) (deferredShare subsidy (activeRecipients params height))

def templateCoinbase (is_v5 : Bool) (hash : TransactionHash) (height : Nat)
    (outputs : List (Amount .NonNegative × Script)) : Transaction where
  hash := hash
  data := if is_v5 then new_v5_coinbase height outputs else new_v4_coinbase height outputs

def TemplatePasses (p : Profile) (fmt : Formats) (orders : TemplateOrders) (order order' : HashOrder)
    (network : Network) (script : Script) (fee : Amount .NonNegative) (height : Nat)
    (is_v5 : Bool) (hash : TransactionHash) (header : Header) (others : List Transaction) : Prop :=
  ∃ outputs subsidy change,
    standard_coinbase_outputs p fmt orders network height script fee = .ok outputs ∧
    block_subsidy height network = .ok (.ok subsidy) ∧
    subsidy_is_valid p fmt order order'
      ⟨header, templateCoinbase is_v5 hash height outputs :: others⟩ network subsidy =
        .ok (.ok change) ∧
    miner_fees_are_valid (templateCoinbase is_v5 hash height outputs) height fee subsidy change
      network = .ok (.ok ())

section

variable {is_v5 : Bool} {hash : TransactionHash} {height : Nat}
  {outputs : List (Amount .NonNegative × Script)} {change : Amount .NegativeAllowed}
  {subsidy : Amount .NonNegative}

theorem templateCoinbase_outputs : (templateCoinbase is_v5 hash height outputs).outputs =
    outputs.map fun output => Output.new_coinbase output.1 output.2 := by
  cases is_v5 <;> rfl

theorem templateCoinbase_inputs :
    (templateCoinbase is_v5 hash height outputs).inputs = [.Coinbase height] := by
  cases is_v5 <;> rfl

theorem templateCoinbase_total :
    total_output_value (templateCoinbase is_v5 hash height outputs) change =
      Amount.total (outputs.map (·.1)) + change.zatoshis := by
  have hsapling : (templateCoinbase is_v5 hash height outputs).sapling_value_balance = .zero := by
    cases is_v5 <;> rfl
  have horchard : (templateCoinbase is_v5 hash height outputs).orchard_value_balance = .zero := by
    cases is_v5 <;> rfl
  rw [total_output_value, hsapling, horchard, templateCoinbase_outputs, map_map]
  simp only [Amount.zero_zatoshis, Int.sub_zero]
  rfl

theorem subsidy_is_valid_template {p : Profile} {fmt : Formats} {order order' : HashOrder}
    {header : Header} {others : List Transaction} {network : Network} :
    subsidy_is_valid p fmt order order'
        ⟨header, templateCoinbase is_v5 hash height outputs :: others⟩ network subsidy =
      subsidy_at p fmt order order' height (templateCoinbase is_v5 hash height outputs) network
        subsidy := by
  have hheight : Block.coinbase_height
      ⟨header, templateCoinbase is_v5 hash height outputs :: others⟩ = some height := by
    simp [Block.coinbase_height, templateCoinbase_inputs]
  simp [subsidy_is_valid, hheight]

theorem sumsFit_template {fee : Amount .NonNegative}
    (hmoney : Amount.total (outputs.map (·.1)) ≤ MAX_MONEY)
    (hinput : subsidy.zatoshis + fee.zatoshis ≤ MAX_MONEY)
    (houtput : Constraint.NegativeAllowed.Holds
      (Amount.total (outputs.map (·.1)) + change.zatoshis)) :
    SumsFit (templateCoinbase is_v5 hash height outputs) fee subsidy change := by
  have hsapling : (templateCoinbase is_v5 hash height outputs).sapling_value_balance = .zero := by
    cases is_v5 <;> rfl
  have horchard : (templateCoinbase is_v5 hash height outputs).orchard_value_balance = .zero := by
    cases is_v5 <;> rfl
  have htotal : Amount.total ((templateCoinbase is_v5 hash height outputs).outputs.map (·.value)) =
      Amount.total (outputs.map (·.1)) := by
    rw [templateCoinbase_outputs, map_map]
    rfl
  have hrange : Constraint.NegativeAllowed.Holds (Amount.total (outputs.map (·.1))) := by
    have := Amount.total_nonneg (outputs.map (·.1))
    have hmax : (0 : Int) ≤ MAX_MONEY := by decide
    simp only [Constraint.Holds, Constraint.least]
    omega
  refine ⟨htotal ▸ hmoney, ?_, ?_, ?_, hinput⟩
  · rw [htotal, hsapling, Amount.zero_zatoshis, Int.sub_zero]
    exact hrange
  · rw [htotal, hsapling, horchard, Amount.zero_zatoshis, Int.sub_zero, Int.sub_zero]
    exact hrange
  · rw [templateCoinbase_total]
    exact houtput

end

section

variable {p : Profile} {fmt : Formats} {built order order' : HashOrder} {params : Parameters}
  {height canopy halvings : Nat} {subsidy fee reward : Amount .NonNegative} {script : Script}
  {orders : TemplateOrders} {values : Map FundingStreamReceiver (Amount .NonNegative)}
  {disbursements : List (TransparentAddress × Amount .NonNegative)}
  {outputs rest : List (Amount .NonNegative × Script)} {is_v5 : Bool} {hash : TransactionHash}

theorem AcceptedByBuilder.numerators_at (h : AcceptedByBuilder p fmt built params) (height : Nat) :
    NumeratorsAccepted p (activeRecipients params height) := by
  unfold activeRecipients
  cases hfind : params.funding_streams.find? _ with
  | none => exact ⟨by decide, fun _ => by decide⟩
  | some streams => exact h.numerators streams (mem_of_find?_eq_some hfind)

theorem mem_recipients_iff {recipients : Map FundingStreamReceiver FundingStreamRecipient}
    {values : Map FundingStreamReceiver (Amount .NonNegative)}
    (h : Shares subsidy recipients values) (receiver : FundingStreamReceiver) :
    (∃ amount, values.lookup receiver = some amount) ↔ receiver ∈ recipients := by
  have heq := h receiver
  rw [Finmap.mem_iff]
  cases hv : values.lookup receiver <;> cases hr : recipients.lookup receiver <;>
    simp [hv, hr] at heq ⊢

theorem address_of_ok {receiver : FundingStreamReceiver} {address : Option TransparentAddress}
    (hmem : receiver ∈ activeRecipients params height) (hdeferred : receiver ≠ .Deferred)
    (h : funding_stream_address p fmt height (.Testnet params) receiver = .ok address) :
    ∃ a, address = some a := by
  unfold activeRecipients at hmem
  cases hfind : params.funding_streams.find? _ with
  | none =>
    rw [hfind] at hmem
    exact absurd hmem Finmap.notMem_empty
  | some streams =>
    rw [hfind] at hmem
    obtain ⟨recipient, hrecipient⟩ := Finmap.mem_iff.mp hmem
    refine funding_stream_address_some ?_ hrecipient hdeferred h
    exact congrArg Except.ok hfind

def PassesWith (p : Profile) (fmt : Formats) (order order' : HashOrder) (params : Parameters)
    (height : Nat) (subsidy fee : Amount .NonNegative) (coinbase : Transaction) (total : Int)
    (change : Amount .NegativeAllowed) : Prop :=
  subsidy_at p fmt order order' height coinbase (.Testnet params) subsidy = .ok (.ok change) ∧
    Constraint.NegativeAllowed.Holds (total + change.zatoshis) ∧
    ∃ nu, (Network.Testnet params).current height = .ok nu ∧
      Balanced nu (total + change.zatoshis) (subsidy.zatoshis + fee.zatoshis)

variable (hcanopy : (Network.Testnet params).activation_height .Canopy = some canopy)
  (hle : canopy ≤ height)

include hcanopy hle

theorem stream_values_ok {order : HashOrder}
    (values : Map FundingStreamReceiver (Amount .NonNegative)) :
    funding_stream_values fmt order height (.Testnet params) subsidy = .ok (.ok values) ↔
      (∀ receiver recipient, (activeRecipients params height).lookup receiver = some recipient →
        ShareFits subsidy recipient) ∧ Shares subsidy (activeRecipients params height) values :=
  funding_stream_values_ok hcanopy hle rfl values

theorem exists_stream_values (hfits : ∀ receiver recipient,
      (activeRecipients params height).lookup receiver = some recipient →
        ShareFits subsidy recipient) :
    ∃ values, ∀ order, funding_stream_values fmt order height (.Testnet params) subsidy =
      .ok (.ok values) := by
  have hentries : ∀ e ∈ HashOrder.declared.entries (activeRecipients params height),
      ShareFits subsidy e.2 := fun e he => hfits e.1 e.2 (HashOrder.mem_entries.mp he)
  obtain ⟨values, hvalues⟩ := exists_fold_stream_values ∅ hentries
  exact ⟨values, fun order => (stream_values_ok hcanopy hle values).mpr (shares_of_fold hvalues)⟩

theorem TemplateOf.addresses_due
    (h : TemplateOf p fmt orders.recipients height (.Testnet params) fee subsidy reward values
      disbursements) (receiver : FundingStreamReceiver) (hdeferred : receiver ≠ .Deferred)
    (hmem : receiver ∈ activeRecipients params height) :
    ∃ address, funding_stream_address p fmt height (.Testnet params) receiver =
      .ok (some address) := by
  obtain ⟨-, hshares⟩ := (stream_values_ok hcanopy hle values).mp h.stream_values
  obtain ⟨amount, hamount⟩ := (mem_recipients_iff hshares receiver).mpr hmem
  obtain ⟨address, haddress⟩ := h.addresses receiver amount hamount
  obtain ⟨a, rfl⟩ := address_of_ok hmem hdeferred haddress
  exact ⟨a, haddress⟩

variable (haccepted : AcceptedByBuilder p fmt built params)

section

variable
  (htemplate : TemplateOf p fmt orders.recipients height (.Testnet params) fee subsidy reward values
      disbursements)
  (hperm : rest.Perm
      ((streamPayments p fmt height (.Testnet params) values ++ disbursements).map payOutput))

include htemplate hperm

theorem TemplateOf.pays
    (hstreams : ∀ receiver ≠ .Deferred, receiver ∈ activeRecipients params height → ∃ address,
      funding_stream_address p fmt height (.Testnet params) receiver = .ok (some address) ∧
        address.is_script_hash = true)
    (hdisbursements : ∀ e ∈ disbursements, e.1.is_script_hash = true) :
    Pays p fmt height (.Testnet params)
      ((templateCoinbase is_v5 hash height ((reward, script) :: rest)).outputs : Multiset Output)
      values order disbursements where
  disbursement_scripts := hdisbursements
  stream_scripts := by
    rintro ⟨receiver, amount⟩ he
    have hlookup := HashOrder.mem_entries.mp he
    have hne : receiver ≠ .Deferred := by
      rintro rfl
      rw [Finmap.lookup_erase] at hlookup
      cases hlookup
    rw [Finmap.lookup_erase_ne hne] at hlookup
    obtain ⟨-, hshares⟩ := (stream_values_ok hcanopy hle values).mp htemplate.stream_values
    exact hstreams receiver hne ((mem_recipients_iff hshares receiver).mp ⟨amount, hlookup⟩)
  contained := by
    have hpaid : (((order.entries (values.erase .Deferred)).filterMap
        (payment p fmt height (.Testnet params))).map paid : Multiset Output) =
        ((streamPayments p fmt height (.Testnet params) values).map paid : Multiset Output) :=
      Multiset.coe_eq_coe.mpr (((order.entries_perm HashOrder.declared _).filterMap _).map _)
    have hrest : ((rest.map fun output => Output.new_coinbase output.1 output.2 : List Output) :
        Multiset Output) =
        ((streamPayments p fmt height (.Testnet params) values).map paid : Multiset Output) +
          (disbursements.map paid : Multiset Output) := by
      rw [Multiset.coe_add, Multiset.coe_eq_coe, ← map_append]
      have hmap := hperm.map fun output => Output.new_coinbase output.1 output.2
      rw [map_map] at hmap
      exact hmap
    rw [hpaid, templateCoinbase_outputs, map_cons, ← Multiset.cons_coe, hrest, add_comm]
    exact Multiset.le_cons_self _ _

include haccepted

theorem TemplateOf.total (script : Script) : Amount.total (((reward, script) :: rest).map (·.1)) =
      subsidy.zatoshis - deferredShare subsidy (activeRecipients params height) + fee.zatoshis +
        lockboxTotal params height := by
  obtain ⟨-, hshares⟩ := (stream_values_ok hcanopy hle values).mp htemplate.stream_values
  have hlockbox := htemplate.lockbox
  rw [haccepted.lockbox_disbursements] at hlockbox
  have hdue : ∀ receiver amount, (values.erase .Deferred).lookup receiver = some amount →
      ∃ address, funding_stream_address p fmt height (.Testnet params) receiver =
        .ok (some address) := by
    intro receiver amount hlookup
    have hne : receiver ≠ .Deferred := by
      rintro rfl
      rw [Finmap.lookup_erase] at hlookup
      cases hlookup
    rw [Finmap.lookup_erase_ne hne] at hlookup
    exact htemplate.addresses_due hcanopy hle receiver hne
      ((mem_recipients_iff hshares receiver).mp ⟨amount, hlookup⟩)
  have hstreams := total_streamPayments hdue
  have hrest : Amount.total (rest.map (·.1)) =
      Amount.total ((streamPayments p fmt height (.Testnet params) values).map (·.2)) +
        Amount.total (disbursements.map (·.2)) := by
    rw [Amount.total_perm (hperm.map _), map_map, map_append, Amount.total_append]
    rfl
  rw [map_cons, Amount.total_cons, hrest, hstreams, hshares.deferred, parsed_amounts hlockbox,
    htemplate.miner_reward, lockboxTotal]
  omega

variable (hslow : params.slow_start_interval ≤ height)

include hslow

theorem TemplateFits.passes_early
    (hhalvings : num_halvings height (.Testnet params) = .ok halvings) (hearly : halvings < 3)
    (hinput : subsidy.zatoshis + fee.zatoshis ≤ MAX_MONEY)
    (h : TemplateFits p fmt params height halvings subsidy fee) :
    ∃ change, PassesWith p fmt order order' params height subsidy fee
      (templateCoinbase is_v5 hash height ((reward, script) :: rest))
      (Amount.total (((reward, script) :: rest).map (·.1))) change := by
  have htotal := htemplate.total hcanopy hle haccepted hperm script
  obtain ⟨hfits, hshares⟩ := (stream_values_ok hcanopy hle values).mp htemplate.stream_values
  have hparsed := htemplate.lockbox
  rw [haccepted.lockbox_disbursements] at hparsed
  have hscripts := (forall_parsed (P := fun address => address.is_script_hash = true) hparsed).mpr
    fun e he => (h.disbursements e he).imp fun _ ha => ⟨ha.1, ha.2 hearly⟩
  have hpays : Pays p fmt height (.Testnet params)
      ((templateCoinbase is_v5 hash height ((reward, script) :: rest)).outputs : Multiset Output)
      values order' disbursements :=
    htemplate.pays hcanopy hle hperm (fun receiver hdeferred hmem =>
      (h.streams receiver hdeferred hmem).imp fun _ ha => ⟨ha.1, ha.2 hearly⟩) hscripts
  have hamounts : Amount.total (disbursements.map (·.2)) = lockboxTotal params height := by
    rw [parsed_amounts hparsed, lockboxTotal]
  have hdeferred := hshares.deferred
  have hbounds := ((values.lookup .Deferred).getD .zero).valid
  have hlock : 0 ≤ lockboxTotal params height := Amount.total_nonneg _
  have hmoney := h.money
  have hsubsidy0 := subsidy.valid.1
  have hfee0 := fee.valid.1
  have hsum : Amount.total (((reward, script) :: rest).map (·.1)) +
      (deferredShare subsidy (activeRecipients params height) - lockboxTotal params height) =
      subsidy.zatoshis + fee.zatoshis := by
    omega
  rw [hdeferred] at hbounds
  simp only [Constraint.Holds, Constraint.least] at hbounds hsubsidy0 hfee0
  have hchange : Constraint.NegativeAllowed.Holds
      (deferredShare subsidy (activeRecipients params height) - lockboxTotal params height) := by
    simp only [Constraint.Holds, Constraint.least]
    omega
  obtain ⟨nu, hnu⟩ := ActivationHeights.exists_current hcanopy hle
  refine ⟨⟨_, hchange⟩, ?_, ?_, nu, hnu, ?_⟩
  · refine (subsidy_at_early hhalvings hearly hcanopy hle hslow).mpr
      ⟨values, disbursements, ?_, htemplate.lockbox, hpays, ?_⟩
    · exact (stream_values_ok hcanopy hle values).mpr ⟨hfits, hshares⟩
    · rw [hdeferred, hamounts]
  · simp only [hsum, Constraint.Holds, Constraint.least]
    omega
  · simp only [Balanced, hsum, le_refl, ite_self]

theorem TemplateFits.passes_late
    (hhalvings : num_halvings height (.Testnet params) = .ok halvings) (hlate : 3 ≤ halvings)
    (h : TemplateFits p fmt params height halvings subsidy fee) :
    ∃ change, PassesWith p fmt order order' params height subsidy fee
      (templateCoinbase is_v5 hash height ((reward, script) :: rest))
      (Amount.total (((reward, script) :: rest).map (·.1))) change := by
  have htotal := htemplate.total hcanopy hle haccepted hperm script
  have hnonneg := Amount.total_nonneg (((reward, script) :: rest).map (·.1))
  have hmoney := h.money
  obtain ⟨nu, hnu, hbalanced⟩ := h.late hlate
  refine ⟨.zero, subsidy_at_late hhalvings hlate hcanopy hle hslow, ?_, nu, hnu, ?_⟩
  · rw [Amount.zero_zatoshis]
    simp only [Constraint.Holds, Constraint.least]
    omega
  · rw [Amount.zero_zatoshis, htotal]
    unfold Balanced at hbalanced ⊢
    split at hbalanced <;> rename_i hnu6
    · rw [if_pos hnu6]
      omega
    · rw [if_neg hnu6]
      omega

end

variable (hslow : params.slow_start_interval ≤ height)

include haccepted

theorem TemplateFits.exists_template
    (hsubsidy : block_subsidy height (.Testnet params) = .ok (.ok subsidy))
    (hinput : subsidy.zatoshis + fee.zatoshis ≤ MAX_MONEY)
    (h : TemplateFits p fmt params height halvings subsidy fee) (order : HashOrder) :
    ∃ reward values disbursements,
      TemplateOf p fmt order height (.Testnet params) fee subsidy reward values disbursements := by
  have hfits := (shareFits_iff (haccepted.numerators_at height) (block_subsidy_le hsubsidy)).mpr
    h.numerators
  obtain ⟨values, hvalues⟩ := exists_stream_values hcanopy hle hfits
  have hshares := ((stream_values_ok hcanopy hle values).mp (hvalues HashOrder.declared)).2
  have hshared := hshares.le_subsidy h.numerators
  obtain ⟨disbursements, hparsed⟩ := exists_parsed fun e he =>
    (h.disbursements e he).imp fun _ ha => ha.1
  have hreward : Constraint.NonNegative.Holds
      (subsidy.zatoshis - totalOf values + fee.zatoshis) := by
    have htotal : 0 ≤ totalOf values := Amount.total_nonneg _
    have hfee := fee.valid.1
    simp only [Constraint.Holds, Constraint.least] at hfee ⊢
    omega
  refine ⟨⟨_, hreward⟩, values, disbursements, hsubsidy, hvalues _, fun receiver amount hamount => ?_,
    (haccepted.lockbox_disbursements height).trans hparsed, hshared, rfl⟩
  by_cases hdeferred : receiver = .Deferred
  · subst hdeferred
    exact ⟨none, funding_stream_address_deferred⟩
  · obtain ⟨address, haddress, -⟩ := h.streams receiver hdeferred
      ((mem_recipients_iff hshares receiver).mp ⟨amount, hamount⟩)
    exact ⟨some address, haddress⟩

include hslow

variable {others : List Transaction} {header : Header}

theorem fits_of_passes
    (h : TemplatePasses p fmt orders order order' (.Testnet params) script fee height is_v5 hash
      header others) : ∃ halvings subsidy, num_halvings height (.Testnet params) = .ok halvings ∧
      block_subsidy height (.Testnet params) = .ok (.ok subsidy) ∧
      TemplateFits p fmt params height halvings subsidy fee := by
  obtain ⟨outputs, subsidy, change, houtputs, hsubsidy, hvalid, hfees⟩ := h
  obtain ⟨halvings, hhalvings⟩ := num_halvings_of_block_subsidy hsubsidy
  obtain ⟨subsidy', reward, values, disbursements, htemplate, rest, rfl, hperm⟩ :=
    template_of_outputs houtputs
  obtain rfl : subsidy = subsidy' :=
    Except.ok.inj (Except.ok.inj (hsubsidy.symm.trans htemplate.block_subsidy))
  have htotal := htemplate.total hcanopy hle haccepted hperm script
  obtain ⟨hfits, hshares⟩ := (stream_values_ok hcanopy hle values).mp htemplate.stream_values
  have hlockbox := htemplate.lockbox
  rw [haccepted.lockbox_disbursements] at hlockbox
  rw [subsidy_is_valid_template] at hvalid
  obtain ⟨hsums, nu, hnu, hbalanced⟩ := miner_fees_are_valid_ok.mp hfees
  -- Before the third halving, the checks give the scripts of the addresses.
  have hearly : halvings < 3 → Pays p fmt height (.Testnet params)
      ((templateCoinbase is_v5 hash height ((reward, script) :: rest)).outputs : Multiset Output)
      values order' disbursements := by
    intro hlt
    obtain ⟨values', disbursements', hvalues', hdisbursements', hpays, -⟩ :=
      (subsidy_at_early hhalvings hlt hcanopy hle hslow).mp hvalid
    obtain ⟨-, hshares'⟩ := (stream_values_ok hcanopy hle values').mp hvalues'
    obtain rfl := hshares.unique hshares'
    obtain rfl : disbursements = disbursements' :=
      Except.ok.inj (htemplate.lockbox.symm.trans hdisbursements')
    exact hpays
  refine ⟨halvings, subsidy, hhalvings, hsubsidy, ?_, ?_, ?_, ?_, ?_⟩
  · exact (shareFits_iff (haccepted.numerators_at height) (block_subsidy_le hsubsidy)).mp hfits
  · intro receiver hdeferred hmem
    obtain ⟨address, haddress⟩ := htemplate.addresses_due hcanopy hle receiver hdeferred hmem
    refine ⟨address, haddress, fun hlt => ?_⟩
    obtain ⟨amount, hamount⟩ := (mem_recipients_iff hshares receiver).mpr hmem
    obtain ⟨address', haddress', hscript⟩ := (hearly hlt).stream_scripts (receiver, amount)
      (HashOrder.mem_entries.mpr (by rw [Finmap.lookup_erase_ne hdeferred]; exact hamount))
    rw [haddress] at haddress'
    cases haddress'
    exact hscript
  · exact (forall_parsed (P := fun address => halvings < 3 → address.is_script_hash = true)
      hlockbox).mp fun e he hlt => (hearly hlt).disbursement_scripts e he
  · have hmoney := hsums.transparent
    rw [templateCoinbase_outputs, map_map] at hmoney
    exact htotal ▸ hmoney
  · intro hlate
    rw [subsidy_at_late hhalvings hlate hcanopy hle hslow] at hvalid
    cases hvalid
    refine ⟨nu, hnu, ?_⟩
    rw [templateCoinbase_total, htotal, Amount.zero_zatoshis] at hbalanced
    unfold Balanced at hbalanced ⊢
    split at hbalanced <;> rename_i hnu6
    · rw [if_pos hnu6]
      omega
    · rw [if_neg hnu6]
      omega

theorem passes_of_fits (hhalvings : num_halvings height (.Testnet params) = .ok halvings)
    (hsubsidy : block_subsidy height (.Testnet params) = .ok (.ok subsidy))
    (hinput : subsidy.zatoshis + fee.zatoshis ≤ MAX_MONEY)
    (h : TemplateFits p fmt params height halvings subsidy fee) :
    TemplatePasses p fmt orders order order' (.Testnet params) script fee height is_v5 hash
      header others := by
  obtain ⟨_, _, _, hbuilt⟩ := h.exists_template hcanopy hle haccepted hsubsidy hinput orders.recipients
  obtain ⟨outputs, houtputs⟩ := hbuilt.exists_outputs script
  obtain ⟨subsidy', reward, values, disbursements, htemplate, rest, rfl, hperm⟩ :=
    template_of_outputs houtputs
  obtain rfl : subsidy = subsidy' :=
    Except.ok.inj (Except.ok.inj (hsubsidy.symm.trans htemplate.block_subsidy))
  have hmoney : Amount.total (((reward, script) :: rest).map (·.1)) ≤ MAX_MONEY := by
    rw [htemplate.total hcanopy hle haccepted hperm script]
    exact h.money
  obtain ⟨change, hvalid, hrange, nu, hnu, hbalanced⟩ :
      ∃ change, PassesWith p fmt order order' params height subsidy fee
        (templateCoinbase is_v5 hash height ((reward, script) :: rest))
        (Amount.total (((reward, script) :: rest).map (·.1))) change := by
    rcases Nat.lt_or_ge halvings 3 with hearly | hlate
    · exact h.passes_early hcanopy hle haccepted htemplate hperm hslow hhalvings hearly hinput
    · exact h.passes_late hcanopy hle haccepted htemplate hperm hslow hhalvings hlate
  refine ⟨_, subsidy, change, houtputs, hsubsidy, ?_, ?_⟩
  · rw [subsidy_is_valid_template]
    exact hvalid
  · refine miner_fees_are_valid_ok.mpr ⟨sumsFit_template hmoney hinput hrange, nu, hnu, ?_⟩
    rw [templateCoinbase_total]
    exact hbalanced

end

theorem standard_coinbase_outputs_pass_iff {p : Profile} {fmt : Formats} {calls : List BuilderCall}
    {built : HashOrder} {params : Parameters} {height canopy : Nat} {fee : Amount .NonNegative}
    (hbuild : ParametersBuilder.build p fmt calls built = .ok (.Testnet params))
    (hcanopy : (Network.Testnet params).activation_height .Canopy = some canopy)
    (hle : canopy ≤ height) (hslow : params.slow_start_interval ≤ height)
    (hfee : ∀ subsidy, block_subsidy height (.Testnet params) = .ok (.ok subsidy) →
      subsidy.zatoshis + fee.zatoshis ≤ MAX_MONEY)
    (orders : TemplateOrders) (order order' : HashOrder) (script : Script) (is_v5 : Bool)
    (hash : TransactionHash) (header : Header) (others : List Transaction) :
    TemplatePasses p fmt orders order order' (.Testnet params) script fee height is_v5 hash header
        others ↔ ∃ halvings subsidy, num_halvings height (.Testnet params) = .ok halvings ∧
        block_subsidy height (.Testnet params) = .ok (.ok subsidy) ∧
        TemplateFits p fmt params height halvings subsidy fee := by
  obtain ⟨params', hparams, haccepted⟩ := accepted_of_build hbuild
  cases hparams
  constructor
  · exact fits_of_passes hcanopy hle haccepted hslow
  · rintro ⟨halvings, subsidy, hhalvings, hsubsidy, hfits⟩
    exact passes_of_fits hcanopy hle haccepted hslow hhalvings hsubsidy (hfee subsidy hsubsidy) hfits

namespace Sample

def templateFormats : Formats where
  parse _ := some (.PayToScriptHash .Testnet (zero 20))
  is_alphanumeric _ := true

def shortHalvings : List BuilderCall :=
  [.with_slow_start_interval 0, .with_halving_interval 48,
    .with_funding_streams .declared [⟨some (10, 301), some [⟨.Deferred, 12, none⟩]⟩],
    .with_lockbox_disbursements []]

def shortParams : Parameters where
  network_name := "UnknownTestnet"
  network_magic := magics.TESTNET
  genesis_hash := TESTNET_GENESIS_HASH
  activation_heights := .collect TESTNET_ACTIVATION_HEIGHTS
  slow_start_interval := 0
  slow_start_shift := 0
  funding_streams := [⟨10, 301, HashOrder.collect [(.Deferred, ⟨12, []⟩)]⟩]
  target_difficulty_limit := 0x07ffff * 2 ^ 232
  disable_pow := false
  should_allow_unshielded_coinbase_spends := false
  pre_blossom_halving_interval := 48
  post_blossom_halving_interval := 96
  lockbox_disbursements := []

theorem shortParams_built :
    ParametersBuilder.build .release templateFormats shortHalvings .declared = .ok (.Testnet shortParams) := by
  rfl

theorem shortParams_streams (height : Nat) :
    ∀ receiver ≠ .Deferred, receiver ∉ activeRecipients shortParams height := by
  intro receiver hdeferred hmem
  unfold activeRecipients at hmem
  by_cases hactive : 10 ≤ height ∧ height < 301
  · simp [shortParams, hactive, recipientsOf, HashOrder.collect, hdeferred,
      Finmap.notMem_empty] at hmem
  · simp [shortParams, hactive, recipientsOf, Finmap.notMem_empty] at hmem

def templateOrders : TemplateOrders := ⟨.declared, .declared, .declared, .declared⟩

def templateHeader : Header := .blank (zero 32) (zero 32) 0

def ShortTemplatePasses (height : Nat) : Prop :=
  TemplatePasses .release templateFormats templateOrders .declared .declared (.Testnet shortParams) []
    .zero height true (zero 32) templateHeader []

end Sample

open Sample

theorem short_template_passes : ShortTemplatePasses 10 :=
  (standard_coinbase_outputs_pass_iff shortParams_built rfl (by decide) (by decide) (by
      intro subsidy hsubsidy
      have hle := block_subsidy_le hsubsidy
      have hmax : (MAX_BLOCK_SUBSIDY : Int) + (Amount.zero : Amount .NonNegative).zatoshis ≤
        MAX_MONEY := by decide
      omega)
    templateOrders .declared .declared [] true (Bytes.zero 32) templateHeader []).mpr
    ⟨0, ⟨625000000, by decide⟩, rfl, rfl,
      { numerators := .inl (by decide)
        streams := fun receiver hdeferred hmem =>
          absurd hmem (shortParams_streams 10 receiver hdeferred)
        disbursements := by decide
        money := by decide
        late := fun h => absurd h (by decide) }⟩

/-- At the third halving, the template still defers a part of the subsidy, but the checks do not. -/
theorem third_halving_template_fails :
    ParametersBuilder.build .release templateFormats shortHalvings .declared =
        .ok (.Testnet shortParams) ∧
      (Network.Testnet shortParams).activation_height .Canopy = some 1 ∧
      num_halvings 300 (.Testnet shortParams) = .ok 3 ∧ ¬ ShortTemplatePasses 300 := by
  refine ⟨shortParams_built, rfl, rfl, fun hpasses => ?_⟩
  obtain ⟨params, hparams, haccepted⟩ := accepted_of_build shortParams_built
  cases hparams
  have hcanopy : (Network.Testnet shortParams).activation_height .Canopy = some 1 := rfl
  have hthird : num_halvings 300 (.Testnet shortParams) = .ok 3 := rfl
  have heighth : block_subsidy 300 (.Testnet shortParams) = .ok (.ok ⟨78125000, by decide⟩) :=
    rfl
  have hcurrent : (Network.Testnet shortParams).current 300 = .ok .Nu6 := rfl
  obtain ⟨halvings, subsidy, hhalvings, hsubsidy, hfits⟩ :=
    fits_of_passes hcanopy (by decide) haccepted (by decide) hpasses
  obtain rfl : halvings = 3 := Except.ok.inj (hhalvings.symm.trans hthird)
  obtain rfl := Except.ok.inj (Except.ok.inj (hsubsidy.symm.trans heighth))
  obtain ⟨nu, hnu, hbalanced⟩ := hfits.late (by decide)
  obtain rfl : nu = .Nu6 := Except.ok.inj (hnu.symm.trans hcurrent)
  revert hbalanced
  unfold Balanced
  decide

end ZebraCrosslink
