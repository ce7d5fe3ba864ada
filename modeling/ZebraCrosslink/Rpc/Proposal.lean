import ZebraCrosslink.Consensus.Template
import ZebraCrosslink.Rpc.Selection

/-!
# Blocks from templates

The transactions of a template are chosen beside a fake coinbase transaction, which pays a fee of
one zatoshi. The real one is built after that.
-/

open Rust List Bytes

namespace ZebraCrosslink.get_block_template

/-! ## The coinbase transaction -/

def MAX_COINBASE_DATA_LEN : Nat := 100

def GENESIS_COINBASE_DATA : List UInt8 :=
  [4, 255, 255, 7, 31, 1, 4, 69, 90, 99, 97, 115, 104, 48, 98, 57, 99, 52, 101, 101, 102, 56, 98,
    55, 99, 99, 52, 49, 55, 101, 101, 53, 48, 48, 49, 101, 51, 53, 48, 48, 57, 56, 52, 98, 54, 102,
    101, 97, 51, 53, 54, 56, 51, 97, 55, 99, 97, 99, 49, 52, 49, 97, 48, 52, 51, 99, 52, 50, 48,
    54, 52, 56, 51, 53, 100, 51, 52]

def write_coinbase_height (height : Nat) (coinbase_data : List UInt8) : Except Abort (Except String (List UInt8)) :=
  if height = 0 then
    if coinbase_data = GENESIS_COINBASE_DATA then .ok (.ok []) else .ok (.error "invalid genesis coinbase data")
  else if height ≤ 16 then .ok (.ok (leBytes 1 (0x50 + height)))
  else if height ≤ 127 then .ok (.ok (0x01 :: leBytes 1 height))
  else if height ≤ 32767 then .ok (.ok (0x02 :: leBytes 2 height))
  else if height ≤ 8388607 then .ok (.ok (0x03 :: leBytes 3 height))
  else if height ≤ Height.MAX then .ok (.ok (0x04 :: leBytes 4 height))
  else .error (.panic "Invalid coinbase height")

theorem write_of_large {height : Nat} {data : List UInt8} (h : ¬ height ≤ Height.MAX) :
    write_coinbase_height height data = .error (.panic "Invalid coinbase height") := by
  unfold Height.MAX at h
  rw [write_coinbase_height, if_neg (by omega), if_neg (by omega), if_neg (by omega), if_neg (by omega),
    if_neg (by omega), if_neg (by unfold Height.MAX; omega)]

/-- `expect` on what was written. -/
def expectWritten (x : Except Abort (Except String (List UInt8))) (msg : String) : Except Abort (List UInt8) := do
  match ← x with
  | .ok bytes => .ok bytes
  | .error _ => .error (.expect msg)

def coinbase_zcash_serialized_size (height : Nat) : Except Abort Nat := do
  let bytes ← expectWritten (write_coinbase_height height []) "writer should never fail"
  return bytes.length

structure CoinbaseInput where
  height : Nat
  data : List UInt8
  sequence : Nat

def new_coinbase (height : Nat) (data : List UInt8) (sequence : Option Nat) : Except Abort CoinbaseInput := do
  let data := if data = [] then [0] else data
  let size ← coinbase_zcash_serialized_size height
  let data_limit := MAX_COINBASE_DATA_LEN - size
  let len := data.length
  if len ≤ data_limit then .ok ⟨height, data, sequence.getD 0⟩
  else .error (.assert s!"miner data has {len} bytes, which exceeds the limit of {data_limit} bytes")

def bytes_zcash_serialize (bytes : List UInt8) : Except Abort (List UInt8) :=
  if bytes.length ≤ MAX_PROTOCOL_MESSAGE_LEN then .ok (CompactSize64.zcash_serialize bytes.length ++ bytes)
  else .error (.expect "len fits in MAX_PROTOCOL_MESSAGE_LEN")

/-- The one input, behind its count. The script of a coinbase input is short, so its length fits. -/
def CoinbaseInput.zcash_serialize (input : CoinbaseInput) : Except Abort (List UInt8) := do
  let height ← expectWritten (write_coinbase_height input.height input.data) "Writing to a `Vec` should never fail"
  let script ← bytes_zcash_serialize (height ++ input.data)
  return CompactSize64.zcash_serialize 1 ++ replicate 32 0 ++ leBytes 4 0xffffffff ++ script ++
    leBytes 4 input.sequence

abbrev CoinbaseOutputs : Type := List (Amount .NonNegative × Script)

def output_zcash_serialize (output : Amount .NonNegative × Script) : Except Abort (List UInt8) := do
  let script ← bytes_zcash_serialize output.2
  return leBytes 8 output.1.zatoshis.toNat ++ script

def outputs_zcash_serialize (outputs : CoinbaseOutputs) : Except Abort (List UInt8) := do
  if outputs.length ≤ MAX_PROTOCOL_MESSAGE_LEN then
    let items ← outputs.mapM output_zcash_serialize
    return CompactSize64.zcash_serialize outputs.length ++ items.flatten
  else .error (.expect "len fits in MAX_PROTOCOL_MESSAGE_LEN")

/-- Without the feature for tests, `Nu7` has no branch id yet. -/
def branch_id : NetworkUpgrade → Option Nat
  | .Overwinter => some 0x5ba81b19
  | .Sapling => some 0x76b809bb
  | .Blossom => some 0x2bb40e60
  | .Heartwood => some 0xf5b9230b
  | .Canopy => some 0xe9ff75a6
  | .Nu5 => some 0xc2d6d0b4
  | .Nu6 => some 0xc8e71055
  | .Nu6_1 => some 0x4dec4df0
  | .Genesis | .BeforeOverwinter | .Nu7 => none

inductive CoinbaseTransaction
  | V4 (expiry_height : Nat) (input : CoinbaseInput) (outputs : CoinbaseOutputs)
  | V5 (network_upgrade : NetworkUpgrade) (expiry_height : Nat) (input : CoinbaseInput)
      (outputs : CoinbaseOutputs)

namespace CoinbaseTransaction

def outputs : CoinbaseTransaction → CoinbaseOutputs
  | V4 _ _ outputs => outputs
  | V5 _ _ _ outputs => outputs

/-- The shielded parts are absent: an empty value balance and three empty lists in version 4, three empty
lists in version 5. -/
def zcash_serialize : CoinbaseTransaction → Except Abort (List UInt8)
  | V4 expiry_height input outputs => do
    let inputs ← input.zcash_serialize
    let outputs ← outputs_zcash_serialize outputs
    return leBytes 4 (2 ^ 31 + 4) ++ leBytes 4 0x892f2085 ++ inputs ++ outputs ++ leBytes 4 0 ++
      leBytes 4 expiry_height ++ leBytes 8 0 ++ [0, 0, 0]
  | V5 network_upgrade expiry_height input outputs => do
    let branch ← orAbort (branch_id network_upgrade)
      (.expect "valid transactions must have a network upgrade with a branch id")
    let inputs ← input.zcash_serialize
    let outputs ← outputs_zcash_serialize outputs
    return leBytes 4 (2 ^ 31 + 5) ++ leBytes 4 0x26a7270a ++ leBytes 4 branch ++ leBytes 4 0 ++
      leBytes 4 expiry_height ++ inputs ++ outputs ++ [0, 0, 0]

end CoinbaseTransaction

def new_v4_coinbase (height : Nat) (outputs : CoinbaseOutputs) (miner_data : List UInt8) :
    Except Abort CoinbaseTransaction := do
  let input ← new_coinbase height miner_data (some (2 ^ 32 - 1))
  if outputs = [] then .error (.assert "invalid coinbase transaction: must have at least one output")
  else .ok (.V4 height input outputs)

def new_v5_coinbase (network : Network) (height : Nat) (outputs : CoinbaseOutputs) (miner_data : List UInt8) :
    Except Abort CoinbaseTransaction := do
  let input ← new_coinbase height miner_data none
  if outputs = [] then .error (.assert "invalid coinbase transaction: must have at least one output")
  else
    let network_upgrade ← network.current height
    .ok (.V5 network_upgrade height input outputs)

/-! ## Templates -/

/-- Where a template is made. `sigop_count` is `legacy_sigop_count_script`. -/
structure Site where
  profile : Profile
  formats : Formats
  sigop_count : Script → Option Nat
  network : Network
  height : Nat
  miner_script : Script
  extra_coinbase_data : List UInt8

structure CoinbaseTemplate where
  transaction : CoinbaseTransaction
  data : List UInt8
  sigops : Nat

def script_sigops (count : Script → Option Nat) : List Script → Except Abort Nat
  | [] => .ok 0
  | script :: scripts => do
    let n ← orAbort (count script) (.expect "sigops count should be valid")
    let rest ← script_sigops count scripts
    return n + rest

namespace Site

variable (site : Site) (orders : TemplateOrders) (miner_fee : Amount .NonNegative)

def from_coinbase (transaction : CoinbaseTransaction) : Except Abort CoinbaseTemplate := do
  let data ← transaction.zcash_serialize
  let sigops ← script_sigops site.sigop_count (transaction.outputs.map (·.2))
  return ⟨transaction, data, sigops⟩

def coinbase_outputs : Except Abort CoinbaseOutputs :=
  standard_coinbase_outputs site.profile site.formats orders site.network site.height site.miner_script miner_fee

def fake_coinbase_transaction : Except Abort CoinbaseTemplate := do
  let outputs ← site.coinbase_outputs orders ⟨1, Constraint.holds_one⟩
  let coinbase ← new_v5_coinbase site.network site.height outputs site.extra_coinbase_data
  site.from_coinbase coinbase

/-- The version of the coinbase transaction. The caller does not expect an error. -/
def new_coinbase_transaction (outputs : CoinbaseOutputs) : NetworkUpgrade → Except Abort CoinbaseTransaction
  | .Canopy => new_v4_coinbase site.height outputs site.extra_coinbase_data
  | .Nu5 | .Nu6 | .Nu6_1 | .Nu7 => new_v5_coinbase site.network site.height outputs site.extra_coinbase_data
  | _ => .error (.expect "coinbase should be valid under the given parameters")

/-- The coinbase transaction of `generate_coinbase_and_roots`. -/
def generate_coinbase : Except Abort CoinbaseTemplate := do
  let outputs ← site.coinbase_outputs orders miner_fee
  let network_upgrade ← site.network.current site.height
  let tx ← site.new_coinbase_transaction outputs network_upgrade
  site.from_coinbase tx

end Site

def calculate_miner_fee (mempool_txs : List SelectedMempoolTx) : Except Abort (Amount .NonNegative) :=
  orAbort (Amount.sum (mempool_txs.map (·.miner_fee))).toOption
    (.expect "invalid selected transactions: fees in a valid block can not be more than MAX_MONEY")

structure DefaultRoots where
  merkle_root : Bytes 32
  chain_history_root : Bytes 32
  block_commitments_hash : Bytes 32

structure ChainInfo where
  tip_hash : BlockHash
  expected_difficulty : UInt32
  fat_pointer_to_bft_block : FatPointerToBftBlock

/-- The data of a transaction stands for the transaction, which is read back from it. -/
structure BlockTemplateResponse where
  version : UInt32
  previous_block_hash : BlockHash
  default_roots : DefaultRoots
  transactions : List SelectedMempoolTx
  coinbase_txn : CoinbaseTemplate
  height : Nat
  bits : UInt32
  fat_pointer_to_bft_block : FatPointerToBftBlock

/-- The version is `ZCASH_BLOCK_VERSION + 2`, and the roots are computed from the transactions. -/
def response (site : Site) (info : ChainInfo) (default_roots : DefaultRoots) (mempool_txs : List SelectedMempoolTx)
    (coinbase_txn : CoinbaseTemplate) : BlockTemplateResponse where
  version := 4 + 2
  previous_block_hash := info.tip_hash
  default_roots := default_roots
  transactions := mempool_txs
  coinbase_txn := coinbase_txn
  height := site.height
  bits := info.expected_difficulty
  fat_pointer_to_bft_block := info.fat_pointer_to_bft_block

def new_internal (site : Site) (orders : TemplateOrders) (info : ChainInfo) (default_roots : DefaultRoots)
    (mempool_txs : List SelectedMempoolTx) : Except Abort BlockTemplateResponse := do
  if mempool_txs.any (·.transaction.transaction.is_coinbase) then
    .error (.assert "unexpected coinbase transaction in mempool")
  else
    let miner_fee ← calculate_miner_fee mempool_txs
    let coinbase_txn ← site.generate_coinbase orders miner_fee
    return response site info default_roots mempool_txs coinbase_txn

structure TemplateFormat (T : Type) extends TransactionFormat T where
  unmined : mempool.UnminedTx → T
  coinbase : CoinbaseTransaction → T
  coinbase_length : ∀ tx bytes, tx.zcash_serialize = .ok bytes → (zcash_serialize (coinbase tx)).length = bytes.length

def proposal_commitment (template : BlockTemplateResponse) : NetworkUpgrade → Except String (Bytes 32)
  | .Canopy => .ok template.default_roots.chain_history_root
  | .Nu5 | .Nu6 | .Nu6_1 | .Nu7 => .ok template.default_roots.block_commitments_hash
  | _ => .error "Zebra does not support generating pre-Canopy block templates"

/-- The block of a proposal. `time` is what the time source gives. -/
def proposal_block {T : Type} (format : TemplateFormat T) (template : BlockTemplateResponse) (time : UInt32)
    (commitment_bytes : Bytes 32) : WireBlock T where
  header := {
    version := template.version, previous_block_hash := template.previous_block_hash
    merkle_root := template.default_roots.merkle_root, commitment_bytes, time
    difficulty_threshold := template.bits, nonce := zero 32, solution := .Common (zero 1344)
    fat_pointer_to_bft_block := template.fat_pointer_to_bft_block }
  transactions := format.coinbase template.coinbase_txn.transaction ::
    template.transactions.map fun tx => format.unmined tx.transaction

def proposal_block_from_template {T : Type} (format : TemplateFormat T) (template : BlockTemplateResponse)
    (time : UInt32) (net : Network) : Except Abort (Except String (WireBlock T)) := do
  if Height.MAX < template.height then
    .ok (.error "height of coinbase transaction is \x7bheight\x7d, which exceeds the maximum of \x7bHeight::MAX\x7d")
  else
    let network_upgrade ← net.current template.height
    return (proposal_commitment template network_upgrade).map (proposal_block format template time)

/-- The choices that are made on the way from the mempool to a block: the iteration orders and the draws. -/
structure Choices where
  fake_orders : TemplateOrders
  order : IterationOrder
  draws : Draws
  orders : TemplateOrders

/-- The template of a mempool: the selection beside the fake coinbase transaction, and the real one. -/
def block_template (site : Site) (choices : Choices) (info : ChainInfo) (default_roots : DefaultRoots)
    (mempool_txs : List SelectedMempoolTx) (mempool_tx_deps : mempool.TransactionDependencies) :
    Except Abort BlockTemplateResponse := do
  let fake_coinbase_tx ← site.fake_coinbase_transaction choices.fake_orders
  let mempool_txs ← select_mempool_transactions site.profile choices.order choices.draws
    fake_coinbase_tx.data.length fake_coinbase_tx.sigops mempool_txs mempool_tx_deps
  new_internal site choices.orders info default_roots mempool_txs

/-! ## The coinbase transactions agree -/

variable {network : Network} {height : Nat} {fmt : Formats}

theorem funding_stream_values_unique {order order' : HashOrder}
    {subsidy : Amount .NonNegative} {values values' : Map FundingStreamReceiver (Amount .NonNegative)}
    (h : funding_stream_values fmt order height network subsidy = .ok (.ok values))
    (h' : funding_stream_values fmt order' height network subsidy = .ok (.ok values')) : values = values' := by
  have hparts := h
  have hparts' := h'
  simp only [funding_stream_values, exceptT_bind_ok, liftAbort_ok, orAbort_ok] at hparts hparts'
  obtain ⟨canopy, hcanopy, hparts⟩ := hparts
  obtain ⟨canopy', hcanopy', hparts'⟩ := hparts'
  cases hcanopy.symm.trans hcanopy'
  by_cases hle : canopy ≤ height
  · rw [if_pos hle, exceptT_bind_ok] at hparts
    obtain ⟨streams, hstreams, -⟩ := hparts
    rw [liftAbort_ok] at hstreams
    exact ((funding_stream_values_ok hcanopy hle hstreams values).mp h).2.unique
      ((funding_stream_values_ok hcanopy hle hstreams values').mp h').2
  · rw [if_neg hle] at hparts hparts'
    cases hparts
    cases hparts'
    rfl

theorem scripts_perm {p : Profile} {orders orders' : TemplateOrders}
    {script : Script} {fee fee' : Amount .NonNegative} {outputs outputs' : CoinbaseOutputs}
    (h : standard_coinbase_outputs p fmt orders network height script fee = .ok outputs)
    (h' : standard_coinbase_outputs p fmt orders' network height script fee' = .ok outputs') :
    (outputs.map (·.2)).Perm (outputs'.map (·.2)) := by
  obtain ⟨subsidy, reward, values, disbursements, htemplate, rest, rfl, hrest⟩ := template_of_outputs h
  obtain ⟨subsidy', reward', values', disbursements', htemplate', rest', rfl, hrest'⟩ := template_of_outputs h'
  cases htemplate.block_subsidy.symm.trans htemplate'.block_subsidy
  obtain rfl := funding_stream_values_unique htemplate.stream_values htemplate'.stream_values
  cases htemplate.lockbox.symm.trans htemplate'.lockbox
  exact ((hrest.trans hrest'.symm).map _).cons _

theorem script_sigops_ok {count : Script → Option Nat} {scripts : List Script} {n : Nat} :
    script_sigops count scripts = .ok n ↔
      (∀ script ∈ scripts, (count script).isSome) ∧ n = (scripts.map fun script => (count script).getD 0).sum := by
  induction scripts generalizing n with
  | nil =>
    constructor
    · intro h
      cases h
      exact ⟨by simp, rfl⟩
    · rintro ⟨-, rfl⟩
      rfl
  | cons script scripts ih =>
    simp only [script_sigops, except_bind_ok, orAbort_ok, ih, forall_mem_cons, map_cons, sum_cons]
    constructor
    · rintro ⟨m, hm, _, ⟨hall, rfl⟩, hn⟩
      cases hn
      exact ⟨⟨by rw [hm]; rfl, hall⟩, by rw [hm]; rfl⟩
    · rintro ⟨⟨hsome, hall⟩, rfl⟩
      obtain ⟨m, hm⟩ := Option.isSome_iff_exists.mp hsome
      exact ⟨m, hm, _, ⟨hall, rfl⟩, by rw [hm]; rfl⟩

namespace Site

variable {site : Site} {orders orders' : TemplateOrders} {fee : Amount .NonNegative}
  {fake coinbase : CoinbaseTemplate} {tx : CoinbaseTransaction} {data : List UInt8} {height : Nat}
  {outputs : CoinbaseOutputs}

theorem from_coinbase_ok :
    site.from_coinbase tx = .ok coinbase ↔ tx = coinbase.transaction ∧ tx.zcash_serialize = .ok coinbase.data ∧
      script_sigops site.sigop_count (tx.outputs.map (·.2)) = .ok coinbase.sigops := by
  simp only [from_coinbase, except_bind_ok]
  constructor
  · rintro ⟨data, hdata, sigops, hsigops, hcoinbase⟩
    cases hcoinbase
    exact ⟨rfl, hdata, hsigops⟩
  · rintro ⟨rfl, hdata, hsigops⟩
    exact ⟨_, hdata, _, hsigops, rfl⟩

theorem height_le_of_new_coinbase {sequence : Option Nat} {input : CoinbaseInput}
    (h : new_coinbase height data sequence = .ok input) : height ≤ Height.MAX := by
  by_contra hlt
  have hsize : coinbase_zcash_serialized_size height = .error (.panic "Invalid coinbase height") := by
    rw [coinbase_zcash_serialized_size, expectWritten, write_of_large hlt]
    rfl
  obtain ⟨size, hok, -⟩ := except_bind_ok.mp h
  rw [hsize] at hok
  cases hok

theorem new_v4_coinbase_ok (h : new_v4_coinbase height outputs data = .ok tx) :
    tx.outputs = outputs ∧ height ≤ Height.MAX := by
  obtain ⟨input, hinput, h⟩ := except_bind_ok.mp h
  split at h
  · cases h
  · cases h
    exact ⟨rfl, height_le_of_new_coinbase hinput⟩

theorem new_v5_coinbase_ok {network : Network}
    (h : new_v5_coinbase network height outputs data = .ok tx) :
    tx.outputs = outputs ∧ height ≤ Height.MAX := by
  obtain ⟨input, hinput, h⟩ := except_bind_ok.mp h
  split at h
  · cases h
  · obtain ⟨upgrade, -, h⟩ := except_bind_ok.mp h
    cases h
    exact ⟨rfl, height_le_of_new_coinbase hinput⟩

theorem fake_coinbase_ok (h : site.fake_coinbase_transaction orders = .ok fake) :
    ∃ outputs fee, site.coinbase_outputs orders fee = .ok outputs ∧
      script_sigops site.sigop_count (outputs.map (·.2)) = .ok fake.sigops := by
  obtain ⟨outputs, houtputs, h⟩ := except_bind_ok.mp h
  obtain ⟨tx, htx, h⟩ := except_bind_ok.mp h
  obtain ⟨rfl, -, hsigops⟩ := from_coinbase_ok.mp h
  rw [(new_v5_coinbase_ok htx).1] at hsigops
  exact ⟨outputs, _, houtputs, hsigops⟩

theorem generate_coinbase_ok (h : site.generate_coinbase orders fee = .ok coinbase) :
    (∃ outputs, site.coinbase_outputs orders fee = .ok outputs ∧
      script_sigops site.sigop_count (outputs.map (·.2)) = .ok coinbase.sigops) ∧
    coinbase.transaction.zcash_serialize = .ok coinbase.data ∧ site.height ≤ Height.MAX ∧
    ∃ nu, site.network.current site.height = .ok nu ∧
      ∀ template, ∃ commitment, proposal_commitment template nu = .ok commitment := by
  obtain ⟨outputs, houtputs, h⟩ := except_bind_ok.mp h
  obtain ⟨nu, hnu, h⟩ := except_bind_ok.mp h
  obtain ⟨tx, htx, h⟩ := except_bind_ok.mp h
  obtain ⟨rfl, hdata, hsigops⟩ := from_coinbase_ok.mp h
  unfold new_coinbase_transaction at htx
  have hbuilt : coinbase.transaction.outputs = outputs ∧ site.height ≤ Height.MAX := by
    split at htx
    · exact new_v4_coinbase_ok htx
    · exact new_v5_coinbase_ok htx
    · exact new_v5_coinbase_ok htx
    · exact new_v5_coinbase_ok htx
    · exact new_v5_coinbase_ok htx
    · cases htx
  rw [hbuilt.1] at hsigops
  refine ⟨⟨outputs, houtputs, hsigops⟩, hdata, hbuilt.2, nu, hnu, fun template => ?_⟩
  split at htx
  · exact ⟨_, rfl⟩
  · exact ⟨_, rfl⟩
  · exact ⟨_, rfl⟩
  · exact ⟨_, rfl⟩
  · exact ⟨_, rfl⟩
  · cases htx

theorem sigops_eq (hfake : site.fake_coinbase_transaction orders = .ok fake)
    (hreal : site.generate_coinbase orders' fee = .ok coinbase) : fake.sigops = coinbase.sigops := by
  obtain ⟨outputs, fee, houtputs, hsigops⟩ := fake_coinbase_ok hfake
  obtain ⟨⟨outputs', houtputs', hsigops'⟩, -⟩ := generate_coinbase_ok hreal
  rw [(script_sigops_ok.mp hsigops).2, (script_sigops_ok.mp hsigops').2]
  exact ((scripts_perm houtputs houtputs').map _).sum_eq

end Site

/-! ## The size of the block -/

def Sized {T : Type} (format : TemplateFormat T) (txs : List SelectedMempoolTx) : Prop :=
  ∀ tx ∈ txs, tx.transaction.size = (format.zcash_serialize (format.unmined tx.transaction)).length

/-- The bytes of a proposed block: a header with a solution of 1344 bytes and a fat pointer, the transaction
count, the coinbase transaction and the others. -/
def blockLength (signatures coinbase : Nat) (txs : List SelectedMempoolTx) : Nat :=
  1533 + 96 * signatures + (CompactSize64.zcash_serialize (txs.length + 1)).length + coinbase +
    (txs.map (·.transaction.size)).sum

variable {txs : List SelectedMempoolTx}

theorem blockLength_perm {signatures coinbase : Nat} {txs' : List SelectedMempoolTx} (h : txs.Perm txs') :
    blockLength signatures coinbase txs = blockLength signatures coinbase txs' := by
  rw [blockLength, blockLength, h.length_eq, (h.map _).sum_eq]

theorem length_fat_pointer (fp : FatPointerToBftBlock) :
    fp.zcash_serialize.length = 46 + 96 * fp.signatures.length := by
  have hsignatures : ∀ l : List FatPointerSignature, (l.flatMap fun s => s.to_bytes.val).length = 96 * l.length := by
    intro l
    induction l with
    | nil => rfl
    | cons s l ih =>
      rw [flatMap_cons, length_append, ih, s.to_bytes.2, length_cons]
      omega
  simp only [FatPointerToBftBlock.zcash_serialize, length_append, length_leBytes, hsignatures,
    fp.vote_for_block_without_finalizer_public_key.2]

theorem length_header {header : Header} {solution : Bytes 1344} (hversion : 5 ≤ Header.logical_version header.version)
    (hsolution : header.solution = .Common solution) :
    header.bytes.length = 1533 + 96 * header.fat_pointer_to_bft_block.signatures.length := by
  have hcount : (CompactSize64.zcash_serialize 1344).length = 3 := by decide
  simp only [Header.bytes, length_append, length_leBytes, header.previous_block_hash.2, header.merkle_root.2,
    header.commitment_bytes.2, header.nonce.2, if_pos hversion, length_fat_pointer, hsolution,
    Solution.zcash_serialize, Solution.value, solution.2, hcount]
  omega

theorem length_flatMap_unmined {T : Type} {format : TemplateFormat T} (h : Sized format txs) :
    ((txs.map fun tx => format.unmined tx.transaction).flatMap format.zcash_serialize).length =
      (txs.map (·.transaction.size)).sum := by
  induction txs with
  | nil => rfl
  | cons tx txs ih =>
    obtain ⟨htx, htxs⟩ := forall_mem_cons.mp h
    rw [map_cons, flatMap_cons, length_append, ih htxs, map_cons, sum_cons, htx]

section

variable {T : Type} {format : TemplateFormat T} {site : Site} {info : ChainInfo} {roots : DefaultRoots}
  {template : BlockTemplateResponse} {time : UInt32} {fee : Amount .NonNegative} {orders : TemplateOrders}
  {txs : List SelectedMempoolTx}

theorem new_internal_ok : new_internal site orders info roots txs = .ok template ↔
    (∀ tx ∈ txs, tx.transaction.transaction.is_coinbase = false) ∧ ∃ fee coinbase,
      calculate_miner_fee txs = .ok fee ∧ site.generate_coinbase orders fee = .ok coinbase ∧
      template = response site info roots txs coinbase := by
  unfold new_internal
  split
  · next hany =>
    obtain ⟨tx, htx, hcoinbase⟩ := any_eq_true.mp hany
    constructor
    · intro h
      cases h
    · rintro ⟨hall, -⟩
      rw [hall tx htx] at hcoinbase
      cases hcoinbase
  · next hany =>
    simp only [except_bind_ok]
    have hall : ∀ tx ∈ txs, tx.transaction.transaction.is_coinbase = false := by simpa using hany
    constructor
    · rintro ⟨fee, hfee, coinbase, hcoinbase, h⟩
      cases h
      exact ⟨hall, fee, coinbase, hfee, hcoinbase, rfl⟩
    · rintro ⟨-, fee, coinbase, hfee, hcoinbase, rfl⟩
      exact ⟨fee, hfee, coinbase, hcoinbase, rfl⟩

theorem exists_proposal (format : TemplateFormat T) (time : UInt32)
    (htemplate : new_internal site orders info roots txs = .ok template) : ∃ commitment,
      proposal_block_from_template format template time site.network =
        .ok (.ok (proposal_block format template time commitment)) := by
  obtain ⟨-, fee, coinbase, hfee, hcoinbase, rfl⟩ := new_internal_ok.mp htemplate
  obtain ⟨-, -, hheight, nu, hnu, hcommitment⟩ := Site.generate_coinbase_ok hcoinbase
  obtain ⟨commitment, hcommitment⟩ := hcommitment (response site info roots txs coinbase)
  refine ⟨commitment, ?_⟩
  have hbelow : ¬ Height.MAX < (response site info roots txs coinbase).height := Nat.not_lt.mpr hheight
  rw [proposal_block_from_template, if_neg hbelow]
  refine except_bind_ok.mpr ⟨nu, hnu, ?_⟩
  rw [hcommitment]
  rfl

theorem proposal_logical_version (hversion : template.version = 6) (commitment : Bytes 32) :
    5 ≤ Header.logical_version (proposal_block format template time commitment).header.version := by
  change 5 ≤ Header.logical_version template.version
  rw [hversion]
  decide

theorem length_proposal_block (template : BlockTemplateResponse) (time : UInt32) (hversion : template.version = 6)
    (hdata : template.coinbase_txn.transaction.zcash_serialize = .ok template.coinbase_txn.data)
    (hsized : Sized format template.transactions) (commitment : Bytes 32) :
    ((proposal_block format template time commitment).bytes format.toTransactionFormat).length =
      blockLength template.fat_pointer_to_bft_block.signatures.length template.coinbase_txn.data.length
        template.transactions := by
  have hcoinbase := format.coinbase_length _ _ hdata
  rw [WireBlock.bytes, length_append, length_append,
    length_header (proposal_logical_version hversion commitment) rfl]
  simp only [proposal_block, length_cons, length_map, flatMap_cons, length_append,
    length_flatMap_unmined hsized, hcoinbase, blockLength]
  omega

theorem accepted_iff (hversion : template.version = 6)
    (hdata : template.coinbase_txn.transaction.zcash_serialize = .ok template.coinbase_txn.data)
    (hsized : Sized format template.transactions) (commitment : Bytes 32) :
    (∃ bytes, (proposal_block format template time commitment).zcash_serialize format.toTransactionFormat =
        .ok (.ok bytes) ∧ bytes.length ≤ MAX_BLOCK_BYTES ∧
      WireBlock.zcash_deserialize format.toTransactionFormat bytes =
        .ok (proposal_block format template time commitment)) ↔
    blockLength template.fat_pointer_to_bft_block.signatures.length template.coinbase_txn.data.length
        template.transactions ≤ MAX_BLOCK_BYTES := by
  have hlength := length_proposal_block template time hversion hdata hsized commitment
  have hcheck : check_version (proposal_block format template time commitment).header.version = .ok () := by
    change check_version template.version = .ok ()
    rw [hversion]
    decide
  constructor
  · rintro ⟨bytes, hbytes, hle, -⟩
    obtain ⟨-, -, rfl⟩ := WireBlock.zcash_serialize_ok.mp hbytes
    rwa [hlength] at hle
  · intro hle
    -- so many signatures do not fit in a block
    have hsignatures : template.fat_pointer_to_bft_block.CountFits := by
      unfold blockLength MAX_BLOCK_BYTES at hle
      unfold FatPointerToBftBlock.CountFits
      omega
    have hpointer : (proposal_block format template time commitment).header.PointerFits := by
      rw [Header.PointerFits, if_pos (proposal_logical_version hversion commitment)]
      exact hsignatures
    rw [← hlength] at hle
    have hcount : (proposal_block format template time commitment).transactions.length ≤ MAX_PROTOCOL_MESSAGE_LEN := by
      have hleast := WireBlock.length_flatMap_ge format.toTransactionFormat
        (proposal_block format template time commitment).transactions
      simp only [WireBlock.bytes, length_append, MAX_BLOCK_BYTES] at hle
      simp only [MIN_TRANSPARENT_TX_SIZE, MIN_TRANSPARENT_INPUT_SIZE, MIN_TRANSPARENT_OUTPUT_SIZE] at hleast
      unfold MAX_PROTOCOL_MESSAGE_LEN
      omega
    exact ⟨_, WireBlock.zcash_serialize_ok.mpr ⟨hcheck, hcount, rfl⟩, hle,
      WireBlock.zcash_deserialize_bytes hcheck hpointer hle⟩

end

/-! ## Minable blocks -/

structure Minable {T : Type} (format : TemplateFormat T) (deps : mempool.TransactionDependencies)
    (template : BlockTemplateResponse) (block : WireBlock T) : Prop where
  once : (template.transactions.map (·.mined_id)).Nodup
  one_coinbase : ∀ tx ∈ template.transactions, tx.transaction.transaction.is_coinbase = false
  parents_first : ParentsFirst deps template.transactions
  sigops : template.coinbase_txn.sigops + (template.transactions.map (·.sigops)).sum ≤ MAX_BLOCK_SIGOPS
  unpaid_actions : (template.transactions.map (·.unpaid_actions)).sum ≤ BLOCK_UNPAID_ACTION_LIMIT
  accepted : ∃ bytes, block.zcash_serialize format.toTransactionFormat = .ok (.ok bytes) ∧
    bytes.length ≤ MAX_BLOCK_BYTES ∧ WireBlock.zcash_deserialize format.toTransactionFormat bytes = .ok block

/-- Different transactions of the pool that fit into the limits leave room for the rest of the block. -/
def LeavesRoom (site : Site) (fat_pointer : FatPointerToBftBlock) (mempool_txs : List SelectedMempoolTx) : Prop :=
  ∀ fake_orders fake limits txs fee orders coinbase,
    site.fake_coinbase_transaction fake_orders = .ok fake →
    starting_limits site.profile fake.data.length fake.sigops = .ok limits →
    (∀ tx ∈ txs, tx ∈ collect mempool_txs ∧ tx.transaction.transaction.is_coinbase = false) →
    (txs.map (·.mined_id)).Nodup → limits.Fits txs →
    calculate_miner_fee txs = .ok fee → site.generate_coinbase orders fee = .ok coinbase →
    coinbase.sigops ≤ MAX_BLOCK_SIGOPS ∧
      blockLength fat_pointer.signatures.length coinbase.data.length txs ≤ MAX_BLOCK_BYTES

section

variable {T : Type} {format : TemplateFormat T} {site : Site} {info : ChainInfo} {roots : DefaultRoots}
  {template : BlockTemplateResponse} {mempool_txs txs txs' : List SelectedMempoolTx}
  {deps : mempool.TransactionDependencies} {choices : Choices} {fee : Amount .NonNegative}

theorem Sized.collected (h : Sized format mempool_txs) (hmem : ∀ tx ∈ txs, tx ∈ collect mempool_txs) :
    Sized format txs := fun tx htx => h tx (mem_of_mem_collect (hmem tx htx))

theorem calculate_miner_fee_perm (h : txs.Perm txs') (hfee : calculate_miner_fee txs = .ok fee) :
    calculate_miner_fee txs' = .ok fee := by
  rw [calculate_miner_fee, orAbort_ok, toOption_eq_some, Amount.sum_eq_ok] at hfee ⊢
  rw [hfee]
  exact Amount.total_perm (h.map _)

theorem block_template_ok : block_template site choices info roots mempool_txs deps = .ok template ↔
      ∃ fake limits s, site.fake_coinbase_transaction choices.fake_orders = .ok fake ∧
        starting_limits site.profile fake.data.length fake.sigops = .ok limits ∧
        select_within site.profile choices.order choices.draws limits mempool_txs deps = .ok s ∧
        new_internal site choices.orders info roots s.selected_txs = .ok template := by
  simp only [block_template, select_mempool_transactions, except_bind_ok]
  constructor
  · rintro ⟨fake, hfake, _, ⟨limits, hlimits, s, hselect, hs⟩, htemplate⟩
    cases hs
    exact ⟨fake, limits, s, hfake, hlimits, hselect, htemplate⟩
  · rintro ⟨fake, limits, s, hfake, hlimits, hselect, htemplate⟩
    exact ⟨fake, hfake, _, ⟨limits, hlimits, s, hselect, rfl⟩, htemplate⟩

theorem starting_limits_ok {p : Profile} {size sigops : Nat} {limits : Limits}
    (h : starting_limits p size sigops = .ok limits) :
    limits.remaining_block_unpaid_actions = BLOCK_UNPAID_ACTION_LIMIT ∧
      (sigops ≤ MAX_BLOCK_SIGOPS → limits.remaining_block_sigops = MAX_BLOCK_SIGOPS - sigops) := by
  obtain ⟨bytes, -, h⟩ := except_bind_ok.mp h
  obtain ⟨left, hleft, h⟩ := except_bind_ok.mp h
  cases h
  refine ⟨rfl, fun hle => ?_⟩
  rw [subU32, if_pos hle] at hleft
  exact (Except.ok.inj hleft).symm

theorem minable_of_room (time : UInt32) (hsized : Sized format mempool_txs)
    (hroom : LeavesRoom site info.fat_pointer_to_bft_block mempool_txs)
    (htemplate : block_template site choices info roots mempool_txs deps = .ok template) :
    ∃ block, proposal_block_from_template format template time site.network = .ok (.ok block) ∧
      Minable format deps template block := by
  obtain ⟨fake, limits, s, hfake, hlimits, hselect, hnew⟩ := block_template_ok.mp htemplate
  obtain ⟨s', hselect', hsound⟩ := select_within_sound site.profile choices.order choices.draws limits mempool_txs deps
  cases hselect.symm.trans hselect'
  obtain ⟨commitment, hproposal⟩ := exists_proposal format time hnew
  obtain ⟨hcoinbase, fee, coinbase, hfee, hgenerated, rfl⟩ := new_internal_ok.mp hnew
  have hnodup := hsound.selected_nodup (collect_nodup mempool_txs)
  have hmem : ∀ tx ∈ s.selected_txs, tx ∈ collect mempool_txs :=
    fun tx htx => hsound.within.subset (mem_append_left _ htx)
  have hfits := hsound.spent.fits
  obtain ⟨hsigops, hlength⟩ := hroom _ fake limits s.selected_txs fee _ coinbase hfake hlimits
    (fun tx htx => ⟨hmem tx htx, hcoinbase tx htx⟩) hnodup hfits hfee hgenerated
  obtain ⟨-, hdata, -⟩ := Site.generate_coinbase_ok hgenerated
  have hsame := Site.sigops_eq hfake hgenerated
  obtain ⟨hunpaid, hleft⟩ := starting_limits_ok hlimits
  have hleft := hleft (hsame ▸ hsigops)
  refine ⟨_, hproposal, hnodup, hcoinbase, hsound.parents, ?_, hunpaid ▸ hfits.unpaid_actions,
    (accepted_iff rfl hdata (hsized.collected hmem) commitment).mpr hlength⟩
  have hbudget := hfits.sigops
  change coinbase.sigops + (s.selected_txs.map (·.sigops)).sum ≤ MAX_BLOCK_SIGOPS
  omega

end

/-- The pool has to leave room for the header, the transaction count and the coinbase transaction.
-/
theorem templates_minable_iff {T : Type} {format : TemplateFormat T} {site : Site}
    {mempool_txs : List SelectedMempoolTx} (hsized : Sized format mempool_txs) (info : ChainInfo)
    (roots : DefaultRoots) (time : UInt32) :
    (∀ choices deps template, block_template site choices info roots mempool_txs deps = .ok template →
      ∃ block, proposal_block_from_template format template time site.network = .ok (.ok block) ∧
        Minable format deps template block) ↔
    LeavesRoom site info.fat_pointer_to_bft_block mempool_txs := by
  constructor
  · intro h fake_orders fake limits txs fee orders coinbase hfake hlimits hmem hnodup hfits hfee hcoinbase
    -- the transactions are the selection for some dependencies
    obtain ⟨s, hselect, hperm⟩ := select_within_takes site.profile .listed ⟨fun _ => 0, fun _ => 0⟩
      (fun tx htx => (hmem tx htx).1) hnodup hfits
    have hnew : new_internal site orders info roots s.selected_txs =
        .ok (response site info roots s.selected_txs coinbase) :=
      new_internal_ok.mpr ⟨fun tx htx => (hmem tx (hperm.mem_iff.mp htx)).2, fee, coinbase,
        calculate_miner_fee_perm hperm.symm hfee, hcoinbase, rfl⟩
    obtain ⟨block, hblock, hminable⟩ := h ⟨fake_orders, .listed, ⟨fun _ => 0, fun _ => 0⟩, orders⟩ _ _
      (block_template_ok.mpr ⟨fake, limits, s, hfake, hlimits, hselect, hnew⟩)
    obtain ⟨commitment, hproposal⟩ := exists_proposal format time hnew
    cases hblock.symm.trans hproposal
    obtain ⟨-, hdata, -⟩ := Site.generate_coinbase_ok hcoinbase
    have hselected : Sized format s.selected_txs := hsized.collected fun tx htx => (hmem tx (hperm.mem_iff.mp htx)).1
    have hlength := (accepted_iff rfl hdata hselected commitment).mp hminable.accepted
    rw [← blockLength_perm hperm]
    exact ⟨(Nat.le_add_right _ _).trans hminable.sigops, hlength⟩
  · exact fun hroom choices deps template htemplate => minable_of_room time hsized hroom htemplate

namespace Sample

structure Padded where
  ones : Nat
  id : Bytes 32
  smallest : 21 ≤ ones

def Padded.write (tx : Padded) : List UInt8 := replicate tx.ones 1 ++ 0 :: tx.id.val

def Padded.read : Reader Padded := fun s =>
  let ones := (s.takeWhile (· = 1)).length
  if h : 21 ≤ ones then (Reader.exact 32 (s.drop (ones + 1))).map fun r => (⟨ones, r.1, h⟩, r.2)
  else .error (.parse "too short")

def Padded.ofLength (n : Nat) (id : Bytes 32) : Padded := ⟨max 21 (n - 33), id, le_max_left _ _⟩

theorem Padded.length_write (tx : Padded) : tx.write.length = tx.ones + 33 := by
  simp [write, tx.id.2]

theorem Padded.length_ofLength {n : Nat} {id : Bytes 32} (h : 54 ≤ n) : (ofLength n id).write.length = n := by
  rw [length_write]
  change max 21 (n - 33) + 33 = n
  omega

theorem Padded.read_write (tx : Padded) (s : List UInt8) : read (tx.write ++ s) = .ok (tx, s) := by
  have hones : ((tx.write ++ s).takeWhile (· = 1)).length = tx.ones := by
    simp [write, takeWhile_append_of_pos]
  have hrest : (tx.write ++ s).drop (tx.ones + 1) = tx.id.val ++ s := by
    simp [write, drop_append]
  unfold read
  dsimp only
  simp only [hones, hrest, tx.smallest, dif_pos, Reader.exact_ok.mpr rfl]
  rfl

variable {bytes : List UInt8}

theorem length_inputs {input : CoinbaseInput} (h : input.zcash_serialize = .ok bytes) :
    41 ≤ bytes.length := by
  obtain ⟨height, -, h⟩ := except_bind_ok.mp h
  obtain ⟨script, -, h⟩ := except_bind_ok.mp h
  cases h
  simp only [length_append, length_replicate, length_leBytes]
  have hcount : (CompactSize64.zcash_serialize 1).length = 1 := rfl
  omega

theorem length_coinbase {tx : CoinbaseTransaction} (h : tx.zcash_serialize = .ok bytes) :
    54 ≤ bytes.length := by
  cases tx with
  | V4 expiry_height input outputs =>
    obtain ⟨inputs, hinputs, h⟩ := except_bind_ok.mp h
    obtain ⟨written, -, h⟩ := except_bind_ok.mp h
    cases h
    have := length_inputs hinputs
    simp only [length_append, length_leBytes]
    omega
  | V5 network_upgrade expiry_height input outputs =>
    obtain ⟨branch, -, h⟩ := except_bind_ok.mp h
    obtain ⟨inputs, hinputs, h⟩ := except_bind_ok.mp h
    obtain ⟨written, -, h⟩ := except_bind_ok.mp h
    cases h
    have := length_inputs hinputs
    simp only [length_append, length_leBytes]
    omega

def lengthOf (tx : CoinbaseTransaction) : Nat :=
  match tx.zcash_serialize with
  | .ok bytes => bytes.length
  | .error _ => 0

def format : TemplateFormat Padded where
  zcash_serialize := Padded.write
  zcash_deserialize := Padded.read
  round_trip := Padded.read_write
  smallest tx := by
    rw [Padded.length_write]
    exact Nat.add_le_add_right tx.smallest 33
  unmined tx := .ofLength tx.size tx.id.mined_id
  coinbase tx := .ofLength (lengthOf tx) (zero 32)
  coinbase_length tx bytes h := by
    rw [lengthOf, h]
    exact Padded.length_ofLength (length_coinbase h)

/-- Pays to the hash of a public key, and counts as one signature operation. -/
def minerScript : Script := [118, 169, 20] ++ (zero 20).val ++ [136, 172]

/-- The extra data is the text of `EXTRA_ZEBRA_COINBASE_DATA`. -/
def site : Site where
  profile := .release
  formats := ZebraCrosslink.Sample.templateFormats
  sigop_count script := some (script.count 172)
  network := .Testnet ZebraCrosslink.Sample.shortParams
  height := 10
  miner_script := minerScript
  extra_coinbase_data := [122, 240, 159, 166, 147]

def info : ChainInfo := ⟨zero 32, 0, FatPointerToBftBlock.null⟩

def roots : DefaultRoots := ⟨zero 32, zero 32, zero 32⟩

def choices : Choices := ⟨ZebraCrosslink.Sample.templateOrders, .listed, ⟨fun _ => 0, fun _ => 0⟩,
  ZebraCrosslink.Sample.templateOrders⟩

def sized (size : Nat) : SelectedMempoolTx where
  transaction := {
    transaction := ⟨zero 32, .V5 0 [] [] none none⟩, id := .Legacy (zero 32), size
    conventional_fee := .zero, id_eq := rfl, outputs_fit := by decide }
  miner_fee := .zero
  sigops := 0
  conventional_actions := 0
  unpaid_actions := 0
  unpaid_eq := rfl

theorem is_sized {size : Nat} (h : 54 ≤ size) : Sized format [sized size] := by
  intro tx htx
  cases mem_singleton.mp htx
  exact (Padded.length_ofLength h).symm

theorem site_coinbase {orders : TemplateOrders} {fee : Amount .NonNegative} {coinbase : CoinbaseTemplate}
    (h : site.generate_coinbase orders fee = .ok coinbase) : coinbase.data.length = 106 ∧ coinbase.sigops = 1 := by
  obtain ⟨outputs, houtputs, h⟩ := except_bind_ok.mp h
  obtain ⟨nu, hnu, h⟩ := except_bind_ok.mp h
  obtain ⟨tx, htx, h⟩ := except_bind_ok.mp h
  obtain ⟨rfl, hdata, hsigops⟩ := Site.from_coinbase_ok.mp h
  have hscripts : (site.coinbase_outputs choices.orders .zero).toOption.map (fun outputs => outputs.map (·.2)) =
      some [minerScript] := by decide +kernel
  obtain ⟨outputs', houtputs', heq⟩ := exists_of_toOption_map hscripts
  have hone : outputs.map (·.2) = [minerScript] := by
    have hperm := scripts_perm houtputs houtputs'
    rw [heq] at hperm
    exact perm_singleton.mp hperm
  obtain ⟨⟨reward, script⟩, rfl, hscript⟩ := map_eq_singleton_iff.mp hone
  obtain rfl : script = minerScript := hscript
  have hcurrent : site.network.current site.height = .ok .Nu6 := rfl
  cases hnu.symm.trans hcurrent
  have hbuilt : site.new_coinbase_transaction [(reward, minerScript)] .Nu6 =
      .ok (.V5 .Nu6 10 ⟨10, site.extra_coinbase_data, 0⟩ [(reward, minerScript)]) := rfl
  have htransaction := Except.ok.inj (htx.symm.trans hbuilt)
  rw [htransaction] at hdata hsigops
  refine ⟨?_, (Except.ok.inj hsigops).symm⟩
  rw [← Except.ok.inj hdata]
  rfl

theorem leaves_room : LeavesRoom site info.fat_pointer_to_bft_block [sized 300] := by
  intro fake_orders fake limits txs fee orders coinbase _ _ hmem hnodup _ _ hcoinbase
  obtain ⟨hdata, hsigops⟩ := site_coinbase hcoinbase
  have hall : ∀ tx ∈ txs, tx = sized 300 := fun tx htx => mem_singleton.mp (hmem tx htx).1
  have htxs := eq_replicate_of_mem hall
  have hlength : txs.length ≤ 1 := by
    rw [htxs, map_replicate, nodup_replicate] at hnodup
    exact hnodup
  rw [htxs, hdata, hsigops]
  refine ⟨by decide, ?_⟩
  rcases Nat.le_one_iff_eq_zero_or_eq_one.mp hlength with hnone | hone
  · rw [hnone]
    decide
  · rw [hone]
    decide

end Sample

open get_block_template.Sample

/-- The block of a small transaction is minable. -/
theorem small_transaction_minable : ∃ template block,
    block_template site choices info roots [sized 300] ⟨∅, ∅⟩ = .ok template ∧
      proposal_block_from_template format template 0 site.network = .ok (.ok block) ∧
      Minable format ⟨∅, ∅⟩ template block := by
  have hrun : (block_template site choices info roots [sized 300] ⟨∅, ∅⟩).toOption.map
      (·.transactions.length) = some 1 := by decide +kernel
  obtain ⟨template, htemplate, -⟩ := exists_of_toOption_map hrun
  obtain ⟨block, hblock, hminable⟩ := (templates_minable_iff (is_sized (by decide)) info roots
    0).mpr leaves_room choices ⟨∅, ∅⟩ template htemplate
  exact ⟨template, block, htemplate, hblock, hminable⟩

/-- The transaction just fits beside the fake coinbase transaction. -/
theorem full_template_too_long : ∃ template block bytes,
    block_template site choices info roots [sized 1999894] ⟨∅, ∅⟩ = .ok template ∧
      proposal_block_from_template format template 0 site.network = .ok (.ok block) ∧
      block.zcash_serialize format.toTransactionFormat = .ok (.ok bytes) ∧ MAX_BLOCK_BYTES < bytes.length := by
  have hrun : (block_template site choices info roots [sized 1999894]
      ⟨∅, ∅⟩).toOption.map (·.transactions) = some [sized 1999894] := by decide +kernel
  obtain ⟨template, htemplate, htxs⟩ := exists_of_toOption_map hrun
  obtain ⟨fake, limits, s, -, -, -, hnew⟩ := block_template_ok.mp htemplate
  obtain ⟨commitment, hblock⟩ := exists_proposal format 0 hnew
  obtain ⟨-, fee, coinbase, -, hcoinbase, rfl⟩ := new_internal_ok.mp hnew
  obtain ⟨-, hdata, -⟩ := Site.generate_coinbase_ok hcoinbase
  have hselected : s.selected_txs = [sized 1999894] := htxs
  have hsized : Sized format s.selected_txs := hselected ▸ is_sized (by decide)
  have hlength := length_proposal_block (response site info roots s.selected_txs coinbase) 0 rfl hdata hsized commitment
  refine ⟨_, _, _, htemplate, hblock, WireBlock.zcash_serialize_ok.mpr ⟨?_, ?_, rfl⟩, ?_⟩
  · change check_version (4 + 2) = .ok ()
    decide
  · simp only [proposal_block, response, hselected, length_cons, map_cons, map_nil, length_nil]
    decide
  · rw [hlength]
    simp only [response, hselected, (site_coinbase hcoinbase).1]
    decide

end ZebraCrosslink.get_block_template
