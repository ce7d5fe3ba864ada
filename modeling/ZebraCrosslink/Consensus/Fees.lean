import ZebraCrosslink.Consensus.Template
import ZebraCrosslink.Consensus.Transaction

/-!
# The value of a block's coinbase

The block verifier compares the sum of the fees with the coinbase. `VCrosslink` transactions are
always charged the same fee.
-/

open Rust List Bytes

namespace ZebraCrosslink

variable {A : Type} (transactions : List Transaction)

structure FullBlock (A : Type) where
  header : Header
  transactions : List (FullTransaction A)

def FullBlock.toBlock (block : FullBlock A) : Block :=
  ⟨block.header, block.transactions.map (·.toTransaction)⟩

def new_transaction_ordered_outputs (tx : Transaction) (tx_index_in_block height : Nat) :
    List (OutPoint × Utxo) :=
  tx.outputs.zipIdx.map fun output =>
    (⟨tx.hash, .ofNat output.2⟩, ⟨output.1, height, tx_index_in_block = 0⟩)

/-- The entries of `new_ordered_outputs`, in the order in which they are inserted. -/
def created_outputs (height : Nat) : List (OutPoint × Utxo) :=
  transactions.zipIdx.flatMap fun tx => new_transaction_ordered_outputs tx.1 tx.2 height

def new_ordered_outputs (height : Nat) : Map OutPoint Utxo :=
  (created_outputs transactions height).foldl (fun outputs entry => outputs.insert entry.1 entry.2) ∅

def known_outpoint_hashes (height : Nat) : List TransactionHash :=
  (created_outputs transactions height).map (·.1.hash)

def MAX_BLOCK_SIGOPS : Nat := 20000

inductive VerifyBlockError
  | Block (err : BlockError)
  | Coinbase (err : CoinbaseError)
  | Subsidy (err : SubsidyError)
  | Transaction (err : TransactionError)
  | TooManyTransparentSignatureOperations (height : Nat) (hash : BlockHash) (sigops : Nat)
  | SummingMinerFees (height : Nat) (hash : BlockHash) (source : AmountError)

abbrev BlockCheck (α : Type) : Type := ExceptT VerifyBlockError (Except Abort) α

/-! ## Block totals -/

structure BlockTotals where
  sigops : Nat
  block_miner_fees : Except AmountError (Amount .NonNegative)

/-- `+=` on a result, which keeps the first error. -/
def addFee (fees : Except AmountError (Amount .NonNegative)) (fee : Option (Amount .NonNegative)) :
    Except AmountError (Amount .NonNegative) :=
  match fees, fee with
  | .ok fees, some fee => fees.add fee
  | fees, _ => fees

def BlockTotals.add (p : Profile) (totals : BlockTotals) : Response A → Except Abort BlockTotals
  | .Block miner_fee count => do
    let sigops ← addU32 p totals.sigops count
    pure ⟨sigops, addFee totals.block_miner_fees miner_fee⟩
  | .Mempool _ _ => .error (.assert "unexpected response from transaction verifier")

namespace SemanticBlockVerifier

/-- The answers in the order in which they arrive, each with what the services say meanwhile. -/
def sum_responses (p : Profile) (rules : Rules A) (network : Network)
    (request : FullTransaction A → Request A) :
    BlockTotals → List (FullTransaction A × Answers A) → BlockCheck BlockTotals
  | totals, [] => pure totals
  | totals, (tx, answers) :: rest => do
    let response ← (TransactionVerifier.call rules network answers (request tx)).adapt .Transaction
    let totals ← liftAbort (totals.add p response)
    sum_responses p rules network request totals rest

def header_checks (block_rules : HeaderRules) (hash : BlockHash) (block : Block) (height : Nat) :
    Except BlockError Unit := do
  rule (block_rules.difficulty_is_valid block.header height hash)
  check.merkle_root_validity block_rules block (block.transactions.map (·.hash))
  rule (block_rules.time_is_valid_at block.header)

def check_totals (network : Network) (hash : BlockHash) (height : Nat) (coinbase_tx : Transaction)
    (subsidy : Amount .NonNegative) (change : Amount .NegativeAllowed) (totals : BlockTotals) :
    BlockCheck Unit := do
  if MAX_BLOCK_SIGOPS < totals.sigops then
    failWith (.TooManyTransparentSignatureOperations height hash totals.sigops)
  else
    let block_miner_fees ← liftResult (totals.block_miner_fees.mapError (.SummingMinerFees height hash))
    (miner_fees_are_valid coinbase_tx height block_miner_fees subsidy change network).adapt .Coinbase

def block_request (block : FullBlock A) (height : Nat) (tx : FullTransaction A) : Request A :=
  .Block tx (known_outpoint_hashes block.toBlock.transactions height)
    (new_ordered_outputs block.toBlock.transactions height) height block.header.time

def verify (p : Profile) (fmt : Formats) (order order' : HashOrder) (block_rules : HeaderRules)
    (rules : Rules A) (network : Network) (hash : BlockHash) (block : FullBlock A)
    (arrival : List (FullTransaction A × Answers A)) (height : Nat) :
    BlockCheck (Amount .NegativeAllowed) := do
  liftResult ((header_checks block_rules hash block.toBlock height).mapError .Block)
  let coinbase_tx ← liftResult ((check.coinbase_is_first block.toBlock).mapError .Block)
  let subsidy ← (block_subsidy height network).adapt .Subsidy
  let change ← (subsidy_is_valid p fmt order order' block.toBlock network subsidy).adapt .Coinbase
  liftResult (match block.transactions.head? with
    | some tx => (rules.coinbase_outputs_are_decryptable tx height).mapError .Transaction
    | none => .ok ())
  let totals ← sum_responses p rules network (block_request block height) ⟨0, .ok .zero⟩ arrival
  check_totals network hash height coinbase_tx subsidy change totals
  pure change

/-- A request for a block. `known` is the answer of the state about the hash. -/
def full_call (p : Profile) (fmt : Formats) (order order' : HashOrder) (block_rules : HeaderRules)
    (rules : Rules A) (network : Network) (known : Option Read.KnownBlock) (hash : BlockHash)
    (block : FullBlock A) (arrival : List (FullTransaction A × Answers A)) :
    BlockCheck (Nat × Amount .NegativeAllowed) :=
  match known, block.toBlock.coinbase_height with
  | some location, _ => failWith (.Block (.AlreadyInChain hash location))
  | none, none => failWith (.Block (.MissingHeight hash))
  | none, some height =>
    if MAX_HEIGHT < height then failWith (.Block (.MaxHeight height hash MAX_HEIGHT))
    else do
      let change ← verify p fmt order order' block_rules rules network hash block arrival height
      pure (height, change)

end SemanticBlockVerifier

open SemanticBlockVerifier

/-! ## Fees and values -/

section

variable {rules : Rules A} {network : Network} {output : OutPoint → Option Output}
  {fee : Option (Amount .NonNegative)}

def CreatesTrue (output : OutPoint → Option Output) (transactions : List Transaction) : Prop :=
  ∀ tx ∈ transactions, ∀ index created, tx.outputs[index]? = some created →
    output ⟨tx.hash, .ofNat index⟩ = some created

theorem agrees_foldl_insert {l : List (OutPoint × Utxo)} {utxos : Map OutPoint Utxo}
    (hutxos : UtxosAgree utxos output) (hl : ∀ entry ∈ l, output entry.1 = some entry.2.output) :
    UtxosAgree (l.foldl (fun outputs entry => outputs.insert entry.1 entry.2) utxos) output := by
  induction l generalizing utxos with
  | nil => exact hutxos
  | cons entry rest ih =>
    rw [foldl_cons]
    exact ih (hutxos.insert (hl entry (mem_cons_self ..))) fun e he =>
      hl e (mem_cons_of_mem _ he)

theorem new_ordered_outputs_agrees {transactions : List Transaction} {height : Nat}
    (h : CreatesTrue output transactions) : UtxosAgree (new_ordered_outputs transactions height) output := by
  apply agrees_foldl_insert UtxosAgree.empty
  intro entry hentry
  simp only [created_outputs, new_transaction_ordered_outputs, mem_flatMap, mem_map] at hentry
  obtain ⟨tx, htx, created, hcreated, rfl⟩ := hentry
  exact h tx.1 (fst_mem_of_mem_zipIdx htx) created.2 created.1 (mem_zipIdx_iff_getElem?.mp hcreated)

/-- What the mempool has under the id of a transaction was verified, and does the same. -/
def CachesTrue (rules : Rules A) (network : Network) (output : OutPoint → Option Output)
    (answers : Answers A) (tx : FullTransaction A) : Prop :=
  ∀ mempool ∈ answers.mempool, ∀ entry dependencies,
    mempool.transaction_with_deps tx.hash = some (entry, dependencies) →
      entry.transaction.toTransaction = tx.toTransaction ∧
        TransactionVerifier.Verified rules network output entry

def remaining (output : OutPoint → Option Output) (tx : Transaction) : Int :=
  match tx.remaining_value output with
  | .ok (some value) => value.zatoshis
  | _ => 0

def feeOf (output : OutPoint → Option Output) (tx : Transaction) : Int :=
  if tx.is_coinbase then 0
  else if TransactionVerifier.is_crosslink tx then TransactionVerifier.crosslink_fee.zatoshis
  else remaining output tx

theorem addFee_ok {fees : Except AmountError (Amount .NonNegative)} {total : Amount .NonNegative}
    (h : addFee fees fee = .ok total) :
    ∃ before, fees = .ok before ∧ total.zatoshis = before.zatoshis + (fee.map (·.zatoshis)).getD 0 := by
  cases fees with
  | error err => cases h
  | ok before =>
    refine ⟨before, rfl, ?_⟩
    cases fee with
    | none =>
      cases h
      simp
    | some fee => exact Amount.add_eq_ok.mp h

/-- The answer about a transaction has the fee that the block is charged for it. -/
structure Charged (output : OutPoint → Option Output) (tx : Transaction)
    (fee : Option (Amount .NonNegative)) : Prop where
  amount : (fee.map (·.zatoshis)).getD 0 = feeOf output tx
  value : tx.is_coinbase = false → ∃ value, tx.remaining_value output = .ok (some value)

theorem Charged.of_value {tx : Transaction} {value : Amount .NonNegative}
    (hcoinbase : tx.is_coinbase = false) (h : tx.remaining_value output = .ok (some value)) :
    Charged output tx (some (TransactionVerifier.charged tx value)) where
  amount := by
    simp only [Option.map_some, Option.getD_some, feeOf, hcoinbase, TransactionVerifier.charged,
      remaining, h]
    split <;> rfl
  value := fun _ => ⟨value, h⟩

namespace TransactionVerifier

variable {answers : Answers A} {tx : FullTransaction A} {hashes : List TransactionHash}
  {known : Map OutPoint Utxo} {height : Nat} {time : UInt32} {response : Response A}

theorem find_verified_unmined_tx_ok {entry : VerifiedUnminedTx A}
    (h : find_verified_unmined_tx answers (.Block tx hashes known height time) = some (.ok entry)) :
    tx.is_coinbase = false ∧ ∃ mempool ∈ answers.mempool, ∃ dependencies,
      mempool.transaction_with_deps tx.hash = some (entry, dependencies) := by
  simp only [find_verified_unmined_tx, Request.transaction, Request.is_mempool, Bool.false_or] at h
  split at h
  · cases h
  · next hcoinbase =>
    simp only [Option.bind_eq_bind, Option.bind_eq_some_iff] at h
    obtain ⟨mempool, hmempool, ⟨verified_tx, dependencies⟩, hentry, h⟩ := h
    refine ⟨Bool.not_eq_true _ ▸ hcoinbase, mempool, hmempool, dependencies, ?_⟩
    cases hawait : await_outpoints answers _ with
    | error err => rw [hawait] at h; cases h
    | ok u =>
      rw [hawait] at h
      cases h
      exact hentry

theorem respond_block_ok {count : Nat} {outpoints : List OutPoint}
    (h : respond rules (.Block tx hashes known height time) fee count outpoints = .ok (.ok response)) :
    response = .Block fee count := by
  cases h
  rfl

theorem full_checks_charged (hanswers : answers.Agree output) (hknown : UtxosAgree known output)
    (h : full_checks rules network answers (.Block tx hashes known height time) = .ok (.ok response)) :
    ∃ fee count, response = .Block fee count ∧ Charged output tx.toTransaction fee := by
  obtain ⟨-, spent, hspent, -, nu, -, -, -, -, fee, hfee, count, -, hrespond⟩ := full_checks_ok.mp h
  refine ⟨fee, count, respond_block_ok hrespond, ?_⟩
  cases hcoinbase : tx.is_coinbase with
  | true =>
    rw [miner_fee_of_coinbase hcoinbase hfee]
    refine ⟨?_, fun hno => ?_⟩
    · simp [feeOf, hcoinbase]
    · rw [hcoinbase] at hno
      cases hno
  | false =>
    have hknown' : UtxosAgree (Request.Block tx hashes known height time).known_utxos output := hknown
    obtain ⟨value, hvalue, rfl⟩ := charged_of_full_checks hanswers hknown' hcoinbase hspent hfee
    exact .of_value hcoinbase hvalue

theorem call_charged (hanswers : answers.Agree output) (hknown : UtxosAgree known output)
    (hcaches : CachesTrue rules network output answers tx)
    (h : call rules network answers (.Block tx hashes known height time) = .ok (.ok response)) :
    ∃ fee count, response = .Block fee count ∧ Charged output tx.toTransaction fee := by
  unfold call at h
  split at h
  · next entry hfind =>
    cases h
    obtain ⟨hcoinbase, mempool, hmempool, dependencies, hentry⟩ := find_verified_unmined_tx_ok hfind
    obtain ⟨hsame, hverified⟩ := hcaches mempool hmempool entry dependencies hentry
    obtain ⟨value, hvalue, hfee⟩ := hverified.charged
    rw [hsame] at hvalue hfee
    rw [hfee]
    exact ⟨_, _, rfl, .of_value hcoinbase hvalue⟩
  · cases h
  · exact full_checks_charged hanswers hknown h

end TransactionVerifier

open TransactionVerifier

namespace SemanticBlockVerifier

variable {p : Profile} {block : FullBlock A} {height : Nat}
  {arrival : List (FullTransaction A × Answers A)}

def AnswersTrue (rules : Rules A) (network : Network) (output : OutPoint → Option Output)
    (arrival : List (FullTransaction A × Answers A)) : Prop :=
  ∀ e ∈ arrival, e.2.Agree output ∧ CachesTrue rules network output e.2 e.1

theorem sum_responses_ok (hblock : CreatesTrue output block.toBlock.transactions)
    (htrue : AnswersTrue rules network output arrival) {totals totals' : BlockTotals}
    (h : sum_responses p rules network (block_request block height) totals arrival = .ok (.ok totals'))
    {fees' : Amount .NonNegative} (hfees' : totals'.block_miner_fees = .ok fees') :
    (∃ fees, totals.block_miner_fees = .ok fees ∧
      fees'.zatoshis = fees.zatoshis + (arrival.map fun e => feeOf output e.1.toTransaction).sum) ∧
    ∀ e ∈ arrival, e.1.is_coinbase = false →
      ∃ value, e.1.remaining_value output = .ok (some value) := by
  induction arrival generalizing totals with
  | nil =>
    cases h
    exact ⟨⟨fees', hfees', by simp⟩, fun _ he => nomatch he⟩
  | cons e rest ih =>
    obtain ⟨tx, answers⟩ := e
    simp only [sum_responses, exceptT_bind_ok, exceptT_adapt_ok, liftAbort_ok] at h
    obtain ⟨response, hresponse, next, hnext, hrest⟩ := h
    obtain ⟨hanswers, hcaches⟩ := htrue (tx, answers) (mem_cons_self ..)
    obtain ⟨fee, count, rfl, hcharged⟩ := call_charged hanswers
      (new_ordered_outputs_agrees hblock) hcaches hresponse
    obtain ⟨⟨before, hbefore, hsum⟩, hvalues⟩ :=
      ih (fun e he => htrue e (mem_cons_of_mem _ he)) hrest
    simp only [BlockTotals.add, except_bind_ok] at hnext
    obtain ⟨sigops, -, hnext⟩ := hnext
    cases hnext
    obtain ⟨fees, hfees, hadd⟩ := addFee_ok hbefore
    refine ⟨⟨fees, hfees, ?_⟩, ?_⟩
    · rw [hsum, hadd, hcharged.amount, map_cons, sum_cons]
      omega
    · rintro e he
      rcases mem_cons.mp he with rfl | he
      · exact hcharged.value
      · exact hvalues e he

end SemanticBlockVerifier

theorem sum_feeOf {l : List Transaction} (hl : ∀ tx ∈ l, tx.is_coinbase = false) :
    (l.map (feeOf output)).sum + ((l.filter is_crosslink).map (remaining output)).sum =
      (l.map (remaining output)).sum + crosslink_fee.zatoshis * (l.filter is_crosslink).length := by
  induction l with
  | nil => simp
  | cons tx rest ih =>
    have hrest := ih fun t ht => hl t (mem_cons_of_mem _ ht)
    have hfirst := hl tx (mem_cons_self ..)
    by_cases hcrosslink : is_crosslink tx = true
    · have hfee : feeOf output tx = crosslink_fee.zatoshis := by
        simp [feeOf, hfirst, hcrosslink]
      simp only [map_cons, sum_cons, filter_cons_of_pos hcrosslink, length_cons,
        hfee, Nat.cast_add, Nat.cast_one, Int.mul_add, Int.mul_one]
      omega
    · have hfee : feeOf output tx = remaining output tx := by
        simp [feeOf, hfirst, hcrosslink]
      simp only [map_cons, sum_cons, filter_cons_of_neg hcrosslink, hfee]
      omega

theorem not_coinbase_of_valid {tx : Transaction} (h : tx.is_valid_non_coinbase = true) :
    tx.is_coinbase = false := by
  by_contra hcoinbase
  simp only [Transaction.is_coinbase, Bool.not_eq_false] at hcoinbase
  split at hcoinbase
  · next height hinputs =>
    simp [Transaction.is_valid_non_coinbase, hinputs, Input.outpoint] at h
  · cases hcoinbase

namespace SemanticBlockVerifier

variable {p : Profile} {fmt : Formats} {order order' : HashOrder} {block_rules : HeaderRules}
  {hash : BlockHash} {block : FullBlock A} {arrival : List (FullTransaction A × Answers A)}
  {known : Option Read.KnownBlock} {height : Nat} {change : Amount .NegativeAllowed}

theorem full_call_ok (h : full_call p fmt order order' block_rules rules network known hash block
    arrival = .ok (.ok (height, change))) : block.toBlock.coinbase_height = some height ∧
      verify p fmt order order' block_rules rules network hash block arrival height =
        .ok (.ok change) := by
  unfold full_call at h
  split at h
  · cases h
  · cases h
  · next found hheight =>
    split at h
    · cases h
    · obtain ⟨found_change, hverify, h⟩ := exceptT_bind_ok.mp h
      cases h
      exact ⟨hheight, hverify⟩

theorem check_totals_ok {coinbase_tx : Transaction} {subsidy : Amount .NonNegative}
    {totals : BlockTotals}
    (h : check_totals network hash height coinbase_tx subsidy change totals = .ok (.ok ())) :
    ∃ fees, totals.block_miner_fees = .ok fees ∧
      miner_fees_are_valid coinbase_tx height fees subsidy change network = .ok (.ok ()) := by
  unfold check_totals at h
  split at h
  · cases h
  · simpa only [exceptT_bind_ok, liftResult_ok, except_mapError_ok, exceptT_adapt_ok] using h

/-- The coinbase is worth the subsidy and what the other transactions leave, exactly if the
`VCrosslink` transactions leave what they are charged. -/
theorem accepted_coinbase_value_iff
    (haccepted : full_call p fmt order order' block_rules rules network known hash block arrival =
      .ok (.ok (height, change))) (harrival : (arrival.map (·.1)).Perm block.transactions)
    (hblock : CreatesTrue output block.toBlock.transactions)
    (htrue : AnswersTrue rules network output arrival) {nu : NetworkUpgrade}
    (hnu : network.current height = .ok nu) (hnu6 : ¬ nu < .Nu6) :
    ∃ coinbase_tx others subsidy, block.toBlock.transactions = coinbase_tx :: others ∧
      block_subsidy height network = .ok (.ok subsidy) ∧
      subsidy_is_valid p fmt order order' block.toBlock network subsidy = .ok (.ok change) ∧
      (∀ tx ∈ others, ∃ value, tx.remaining_value output = .ok (some value)) ∧
      (total_output_value coinbase_tx change =
          subsidy.zatoshis + (others.map (remaining output)).sum ↔
        ((others.filter TransactionVerifier.is_crosslink).map (remaining output)).sum =
          TransactionVerifier.crosslink_fee.zatoshis *
            (others.filter TransactionVerifier.is_crosslink).length) := by
  obtain ⟨-, hverify⟩ := full_call_ok haccepted
  simp only [verify, exceptT_bind_ok, liftResult_ok, except_mapError_ok, exceptT_adapt_ok] at hverify
  obtain ⟨-, -, coinbase_tx, hfirst, subsidy, hsubsidy, found, hchange, -, -, totals, htotals, _,
    hcheck, hpure⟩ := hverify
  cases hpure
  obtain ⟨others, htransactions, hcoinbase, hvalid_others⟩ := coinbase_is_first_ok hfirst
  have hothers : ∀ tx ∈ others, tx.is_coinbase = false := fun tx htx =>
    not_coinbase_of_valid (hvalid_others tx htx)
  obtain ⟨fees, hfees, hvalid⟩ := check_totals_ok hcheck
  obtain ⟨-, found_nu, hfound, hbalanced⟩ := miner_fees_are_valid_ok.mp hvalid
  cases hfound.symm.trans hnu
  rw [Balanced, if_neg hnu6] at hbalanced
  obtain ⟨⟨zero, hzero, hsum⟩, hvalues⟩ := sum_responses_ok hblock htrue htotals hfees
  have hperm : (arrival.map fun e => e.1.toTransaction).Perm (coinbase_tx :: others) := by
    rw [← htransactions]
    simpa only [map_map, Function.comp_def, FullBlock.toBlock] using harrival.map (·.toTransaction)
  have hcharged : fees.zatoshis = (others.map (feeOf output)).sum := by
    have hfee : feeOf output coinbase_tx = 0 := by simp [feeOf, hcoinbase]
    have htotal := ((hperm.map (feeOf output)).sum_eq)
    rw [map_map, map_cons, sum_cons, hfee, zero_add] at htotal
    rw [hsum, ← htotal, ← Except.ok.inj hzero]
    simp [Function.comp_def]
  refine ⟨coinbase_tx, others, subsidy, htransactions, hsubsidy, hchange, fun tx htx => ?_, ?_⟩
  · obtain ⟨e, he, rfl⟩ := mem_map.mp (hperm.mem_iff.mpr (mem_cons_of_mem _ htx))
    exact hvalues e he (hothers _ htx)
  · have hfees_values : (others.map (feeOf output)).sum + _ = _ := sum_feeOf hothers
    rw [hbalanced, hcharged]
    omega

end SemanticBlockVerifier

end

namespace Sample

def lenientRules : Rules A where
  legacy_sigop_count_script := fun _ => some 0
  converts := fun _ _ => true
  script := fun _ _ _ _ => .ok ()
  sprout := fun _ _ _ => .ok ()
  sapling := fun _ _ _ => .ok ()
  orchard := fun _ _ _ => .ok ()
  maturity := fun _ _ _ => .ok ()
  zip317 := fun _ _ => .ok ()
  coinbase_outputs_are_decryptable := fun _ _ => .ok ()

def lenientBlocks : HeaderRules where
  merkle_root := fun _ => zero 32
  check_transaction_network_upgrade_consistency := fun _ => true
  difficulty_is_valid := fun _ _ _ => none
  time_is_valid_at := fun _ => none

def silent : Answers A where
  await_utxo := fun _ => none
  unspent_best_chain_utxo := fun _ => .error ()
  next_median_time_past := .error ()
  nullifiers_and_anchors := fun _ => .ok ()
  mempool := none

def fullTx (authorization : A) (n : UInt8) (data : TransactionData) : FullTransaction A where
  hash := ⟨replicate 32 n, length_replicate⟩
  data := data
  branch := .Nu6
  lock_time_field := .unlocked
  sequences := []
  unlock_scripts := []
  authorization := authorization

variable (value : Amount .NonNegative) (tx : FullTransaction Unit)

def coinbaseOf : FullTransaction Unit :=
  fullTx () 1 (.V5 5 [.Coinbase 5] [⟨value, []⟩] none none)

def shieldedData : OrchardShieldedData :=
  ⟨⟨true, true⟩, [⟨zero 32, zero 32⟩], ⟨5000, by decide⟩⟩

def shieldedTx : FullTransaction Unit :=
  fullTx () 2 (.V5 0 [] [] none (some shieldedData))

def stakingOnlyTx : FullTransaction Unit :=
  fullTx () 3 (.VCrosslink 0 [] [] none none
    (some ⟨.Add, 1, zero 32, zero 32, "", ""⟩))

def feeBlock : FullBlock Unit :=
  ⟨templateHeader, [coinbaseOf value, tx]⟩

def feeArrival : List (FullTransaction Unit × Answers Unit) :=
  [(tx, silent), (coinbaseOf value, silent)]

def feeCall : BlockCheck (Nat × Amount .NegativeAllowed) :=
  full_call .release templateFormats .declared .declared lenientBlocks lenientRules
    (.Testnet shortParams) none (zero 32) (feeBlock value tx) (feeArrival value tx)

def feeOutput (outpoint : OutPoint) : Option Output :=
  if outpoint = ⟨(coinbaseOf value).hash, 0⟩ then some ⟨value, []⟩ else none

theorem feeBlock_creates {value : Amount .NonNegative} {tx : FullTransaction Unit}
    (h : tx.outputs = []) : CreatesTrue (feeOutput value) (feeBlock value tx).toBlock.transactions := by
  intro t ht index created hcreated
  simp only [feeBlock, FullBlock.toBlock, map_cons, map_nil, mem_cons, not_mem_nil, or_false] at ht
  rcases ht with rfl | rfl
  · match index with
    | 0 =>
      cases hcreated
      rfl
    | index + 1 => cases hcreated
  · rw [h] at hcreated
    cases hcreated

theorem silent_true {arrival : List (FullTransaction Unit × Answers Unit)}
    (h : ∀ e ∈ arrival, e.2 = silent) {output : OutPoint → Option Output} :
    AnswersTrue lenientRules (.Testnet shortParams) output arrival := by
  intro e he
  rw [h e he]
  exact ⟨⟨nofun, nofun, nofun⟩, nofun⟩

end Sample

open Sample

theorem shielded_coinbase_value :
    total_output_value (coinbaseOf ⟨625005000, by decide⟩).toTransaction .zero =
      625000000 + remaining (feeOutput ⟨625005000, by decide⟩) shieldedTx.toTransaction := by
  have haccepted : feeCall ⟨625005000, by decide⟩ shieldedTx = .ok (.ok (5, .zero)) := rfl
  have hnu : (Network.Testnet shortParams).current 5 = .ok .Nu6 := rfl
  obtain ⟨coinbase_tx, others, subsidy, htransactions, hsubsidy, -, -, hvalue⟩ :=
    accepted_coinbase_value_iff haccepted (Perm.swap ..)
      (feeBlock_creates rfl) (silent_true (by simp [feeArrival])) hnu (by decide)
  have hfixed : block_subsidy 5 (.Testnet shortParams) = .ok (.ok ⟨625000000, by decide⟩) := rfl
  cases hsubsidy.symm.trans hfixed
  cases htransactions
  simpa using hvalue.mpr (by decide)

/-- A staking action leaves nothing, but the coinbase of its block takes 100 ZEC for it. -/
theorem staking_coinbase_value :
    feeCall ⟨10625000000, by decide⟩ stakingOnlyTx = .ok (.ok (5, .zero)) ∧
      (Network.Testnet shortParams).current 5 = .ok .Nu6 ∧
      block_subsidy 5 (.Testnet shortParams) = .ok (.ok ⟨625000000, by decide⟩) ∧
      stakingOnlyTx.remaining_value (feeOutput ⟨10625000000, by decide⟩) = .ok (some .zero) ∧
      total_output_value (coinbaseOf ⟨10625000000, by decide⟩).toTransaction .zero ≠ 625000000 :=
  ⟨rfl, rfl, rfl, rfl, by decide⟩

end ZebraCrosslink
