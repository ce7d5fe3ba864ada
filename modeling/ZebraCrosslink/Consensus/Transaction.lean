import ZebraCrosslink.Consensus.Value
import ZebraCrosslink.Consensus.Verify

/-!
# The transaction verifier

One request to the verifier, with everything it reads. Scripts, proofs and signatures are checked by
other libraries, and the answers of the state and the mempool are parameters.
-/

open Rust List

namespace ZebraCrosslink

/-! ## Transactions in full -/

inductive LockTime
  | Height (height : Nat)
  | Time (time : UInt32)
  deriving DecidableEq

def LockTime.unlocked : LockTime := .Height 0

/-- A transaction with the fields that only its verification reads. `A` has its proofs and
signatures. -/
structure FullTransaction (A : Type) extends Transaction where
  /-- The branch id, which the versions before V5 do not have. -/
  branch : NetworkUpgrade
  lock_time_field : LockTime
  sequences : List UInt32
  unlock_scripts : List Script
  authorization : A
  deriving DecidableEq

namespace FullTransaction

variable {A : Type} (tx : FullTransaction A)

def lock_time : Option LockTime :=
  if tx.lock_time_field = .unlocked then none
  else if tx.sequences.any fun sequence_number => sequence_number ≠ 2 ^ 32 - 1 then
    some tx.lock_time_field
  else none

def lock_time_is_time : Bool :=
  match tx.lock_time with
  | some (.Time _) => true
  | _ => false

def network_upgrade : Option NetworkUpgrade :=
  match tx.data with
  | .V5 _ _ _ _ _ | .VCrosslink _ _ _ _ _ _ => some tx.branch
  | .V1 _ _ | .V2 _ _ _ | .V3 _ _ _ _ | .V4 _ _ _ _ _ => none

def scripts : List Script :=
  tx.unlock_scripts ++ tx.outputs.map (·.lock_script)

end FullTransaction

structure Utxo where
  output : Output
  height : Nat
  from_coinbase : Bool
  deriving DecidableEq

/-! ## Requests and answers -/

inductive Request (A : Type)
  | Block (transaction : FullTransaction A) (known_outpoint_hashes : List TransactionHash)
      (known_utxos : Map OutPoint Utxo) (height : Nat) (time : UInt32)
  | Mempool (transaction : FullTransaction A) (height : Nat)

namespace Request

variable {A : Type}

def transaction : Request A → FullTransaction A
  | Block transaction _ _ _ _ => transaction
  | Mempool transaction _ => transaction

def known_utxos : Request A → Map OutPoint Utxo
  | Block _ _ known_utxos _ _ => known_utxos
  | Mempool _ _ => ∅

def known_outpoint_hashes : Request A → List TransactionHash
  | Block _ known_outpoint_hashes _ _ _ => known_outpoint_hashes
  | Mempool _ _ => []

def height : Request A → Nat
  | Block _ _ _ height _ => height
  | Mempool _ height => height

def block_time : Request A → Option UInt32
  | Block _ _ _ _ time => some time
  | Mempool _ _ => none

def is_mempool : Request A → Bool
  | Block _ _ _ _ _ => false
  | Mempool _ _ => true

end Request

structure VerifiedUnminedTx (A : Type) where
  transaction : FullTransaction A
  miner_fee : Amount .NonNegative
  sigops : Nat
  deriving DecidableEq

inductive Response (A : Type)
  | Block (miner_fee : Option (Amount .NonNegative)) (sigops : Nat)
  | Mempool (transaction : VerifiedUnminedTx A) (spent_mempool_outpoints : List OutPoint)
  deriving DecidableEq

structure MempoolAnswers (A : Type) where
  transaction_with_deps : TransactionHash → Option (VerifiedUnminedTx A × List TransactionHash)
  /-- `AwaitOutput`. `none` after a timeout. -/
  await_output : OutPoint → Option Output

structure Answers (A : Type) where
  /-- `AwaitUtxo`. `none` after a timeout. -/
  await_utxo : OutPoint → Option Utxo
  unspent_best_chain_utxo : OutPoint → Except Unit (Option Utxo)
  next_median_time_past : Except Unit UInt32
  nullifiers_and_anchors : FullTransaction A → Except TransactionError Unit
  mempool : Option (MempoolAnswers A)

/-- What other libraries decide about a transaction. The outputs are those that it spends. -/
structure Rules (A : Type) where
  legacy_sigop_count_script : Script → Option Nat
  /-- The conversion of `to_librustzcash`, after its checks of the network upgrade. -/
  converts : FullTransaction A → NetworkUpgrade → Bool
  script : FullTransaction A → List Output → NetworkUpgrade → Nat → Except TransactionError Unit
  sprout : FullTransaction A → List Output → NetworkUpgrade → Except TransactionError Unit
  sapling : FullTransaction A → List Output → NetworkUpgrade → Except TransactionError Unit
  orchard : FullTransaction A → List Output → NetworkUpgrade → Except TransactionError Unit
  /-- `check_maturity_height`, for the mempool only. -/
  maturity : FullTransaction A → Nat → Map OutPoint Utxo → Except TransactionError Unit
  /-- The checks of `VerifiedUnminedTx::new`. -/
  zip317 : FullTransaction A → Amount .NonNegative → Except TransactionError Unit
  coinbase_outputs_are_decryptable : FullTransaction A → Nat → Except TransactionError Unit

abbrev Verify (α : Type) : Type := ExceptT TransactionError (Except Abort) α

/-! ## The quick checks -/

namespace check

variable {A : Type} (tx : FullTransaction A)

def consensus_branch_id (height : Nat) (network : Network) : Verify Unit := do
  let current_nu ← liftAbort (network.current height)
  if current_nu < .Nu5 ∨ tx.version < 5 then pure ()
  else match tx.network_upgrade with
  | none => failWith .MissingConsensusBranchId
  | some tx_nu => if tx_nu ≠ current_nu then failWith .WrongConsensusBranchId else pure ()

def joinsplit_has_vpub_zero (tx : Transaction) : Except TransactionError Unit :=
  if tx.joinsplits.any fun joinsplit => joinsplit.vpub_old ≠ .zero ∧ joinsplit.vpub_new ≠ .zero then
    .error .BothVPubsNonZero
  else .ok ()

def disabled_add_to_sprout_pool (tx : Transaction) (height : Nat) (network : Network) :
    Verify Unit := do
  let canopy_activation_height ← liftAbort (orAbort (network.activation_height .Canopy)
    (.expect "Canopy activation height must be present for both networks"))
  if canopy_activation_height ≤ height ∧ tx.joinsplits.any fun joinsplit => joinsplit.vpub_old ≠ .zero then
    failWith .DisabledAddToSproutPool
  else pure ()

def lock_time_has_passed (block_height : Nat) (block_time : Option UInt32) : Verify Unit :=
  match tx.lock_time with
  | some (.Height unlock_height) =>
    if unlock_height < block_height then pure () else failWith (.LockedUntilAfterBlockHeight unlock_height)
  | some (.Time unlock_time) => do
    let block_time ← liftAbort (orAbort block_time
      (.expect "time must be provided if LockTime is a time"))
    if unlock_time < block_time then pure () else failWith (.LockedUntilAfterBlockTime unlock_time)
  | none => pure ()

end check

namespace TransactionVerifier

variable {A : Type} (answers : Answers A) (rules : Rules A)

def coinbase_rules (network : Network) (req : Request A) : Except TransactionError Unit := do
  let tx := req.transaction
  if req.is_mempool && tx.is_coinbase then .error .CoinbaseInMempool
  else if tx.is_coinbase then do
    check.coinbase_tx_no_prevout_joinsplit_spend tx.toTransaction
    check.coinbase_expiry_height (network.activation_height .Nu5) req.height tx.toTransaction
  else if !tx.is_valid_non_coinbase then .error .NonCoinbaseHasCoinbaseInput
  else check.non_coinbase_expiry_height req.height tx.toTransaction

/-- The time of the block, or for the mempool the next median time past, where it is needed. -/
def lock_time_block_time (req : Request A) : Verify (Option UInt32) :=
  match req.block_time with
  | some block_time => pure (some block_time)
  | none =>
    if req.transaction.lock_time_is_time then
      match answers.next_median_time_past with
      | .ok time => pure (some time)
      | .error _ => failWith .ValidateMempoolLockTimeError
    else pure none

def quick_checks (network : Network) (answers : Answers A) (req : Request A) : Verify Unit := do
  let tx := req.transaction
  liftResult (check.has_inputs_and_outputs tx.toTransaction)
  liftResult (check.has_enough_orchard_flags tx.toTransaction)
  check.consensus_branch_id tx req.height network
  liftResult (coinbase_rules network req)
  liftResult (check.joinsplit_has_vpub_zero tx.toTransaction)
  check.disabled_add_to_sprout_pool tx.toTransaction req.height network
  liftResult (check.spend_conflicts tx.toTransaction)
  let block_time ← lock_time_block_time answers req
  check.lock_time_has_passed tx req.height block_time

/-! ## Spent outputs -/

structure Spent where
  spent_utxos : Map OutPoint Utxo
  spent_outputs : List Output
  spent_mempool_outpoints : List OutPoint

def Spent.push (spent : Spent) (outpoint : OutPoint) (utxo : Utxo) : Spent :=
  { spent with
    spent_utxos := spent.spent_utxos.insert outpoint utxo
    spent_outputs := spent.spent_outputs ++ [utxo.output] }

def Spent.record (spent : Spent) (outpoint : OutPoint) : Option Utxo → Spent
  | some utxo => spent.push outpoint utxo
  | none => { spent with spent_mempool_outpoints := spent.spent_mempool_outpoints ++ [outpoint] }

/-- The answer about one outpoint. `none` leaves it to the mempool. -/
def lookup_utxo (req : Request A) (outpoint : OutPoint) : Except TransactionError (Option Utxo) :=
  match req.known_utxos.lookup outpoint with
  | some utxo => .ok (some utxo)
  | none =>
    if req.is_mempool then
      (answers.unspent_best_chain_utxo outpoint).mapError fun _ => .TransparentInputNotFound
    else match answers.await_utxo outpoint with
    | some utxo => .ok (some utxo)
    | none => .error (.Other "downcast to known transaction error type failed")

def chain_utxos (answers : Answers A) (req : Request A) : Spent → List Input →
    Except TransactionError Spent
  | spent, [] => .ok spent
  | spent, .Coinbase _ :: rest => chain_utxos answers req spent rest
  | spent, .PrevOut outpoint :: rest => do
    let utxo ← lookup_utxo answers req outpoint
    chain_utxos answers req (spent.record outpoint utxo) rest

/-- The outputs of the mempool come after those of the chain, whatever the order of the inputs. -/
def mempool_utxos (mempool : MempoolAnswers A) (height : Nat) : Spent → List OutPoint →
    Except TransactionError Spent
  | spent, [] => .ok spent
  | spent, outpoint :: rest =>
    match mempool.await_output outpoint with
    | some output => mempool_utxos mempool height (spent.push outpoint ⟨output, height, false⟩) rest
    | none => .error .TransparentInputNotFound

def spent_utxos (req : Request A) : Except TransactionError Spent := do
  let spent ← chain_utxos answers req ⟨∅, [], []⟩ req.transaction.inputs
  match answers.mempool with
  | some mempool => mempool_utxos mempool req.height spent spent.spent_mempool_outpoints
  | none =>
    if spent.spent_mempool_outpoints.isEmpty then .ok spent else .error .TransparentInputNotFound

/-! ## Scripts, proofs and signatures -/

/-- `CachedFfiTransaction::new`. Genesis and `BeforeOverwinter` have no branch id, and `Nu7` has one
in test builds only. -/
def cached_ffi_transaction (tx : FullTransaction A) (nu : NetworkUpgrade) :
    Except TransactionError Unit :=
  if (tx.network_upgrade.any fun tx_nu => tx_nu ≠ nu) ∨
      nu ∈ [.Genesis, .BeforeOverwinter, .Nu7] ∨ rules.converts tx nu = false then
    .error (.UnsupportedByNetworkUpgrade tx.version nu)
  else .ok ()

def verify_v4_transaction_network_upgrade (tx : FullTransaction A) (nu : NetworkUpgrade) :
    Except TransactionError Unit :=
  match nu with
  | .Sapling | .Blossom | .Heartwood | .Canopy | .Nu5 | .Nu6 | .Nu6_1 => .ok ()
  | .Genesis | .BeforeOverwinter | .Overwinter | .Nu7 =>
    .error (.UnsupportedByNetworkUpgrade tx.version nu)

def verify_v5_transaction_network_upgrade (tx : FullTransaction A) (nu : NetworkUpgrade) :
    Except TransactionError Unit :=
  match nu with
  | .Nu5 | .Nu6 | .Nu6_1 | .Nu7 => .ok ()
  | .Genesis | .BeforeOverwinter | .Overwinter | .Sapling | .Blossom | .Heartwood | .Canopy =>
    .error (.UnsupportedByNetworkUpgrade tx.version nu)

def verify_transparent_inputs_and_outputs (tx : FullTransaction A) (spent_outputs : List Output)
    (nu : NetworkUpgrade) : Except TransactionError Unit :=
  if tx.is_coinbase then .ok ()
  else (range tx.inputs.length).forM (rules.script tx spent_outputs nu)

/-- The checks run concurrently, so a transaction with several faults can get the error of any. -/
def async_checks (tx : FullTransaction A) (spent_outputs : List Output) (nu : NetworkUpgrade) :
    Except TransactionError Unit :=
  match tx.data with
  | .V1 _ _ | .V2 _ _ _ | .V3 _ _ _ _ => .error .WrongVersion
  | .V4 _ _ _ _ _ => do
    verify_v4_transaction_network_upgrade tx nu
    verify_transparent_inputs_and_outputs rules tx spent_outputs nu
    rules.sprout tx spent_outputs nu
    rules.sapling tx spent_outputs nu
  | .V5 _ _ _ _ _ | .VCrosslink _ _ _ _ _ _ => do
    verify_v5_transaction_network_upgrade tx nu
    verify_transparent_inputs_and_outputs rules tx spent_outputs nu
    rules.sapling tx spent_outputs nu
    rules.orchard tx spent_outputs nu

/-! ## Fees and signature operations -/

def MIN_MEMPOOL_TX_FEE_RATE : Nat := 100

/-- The fee of every `VCrosslink` transaction, whatever its value balance: 100 ZEC. -/
def crosslink_fee : Amount .NonNegative := ⟨MIN_MEMPOOL_TX_FEE_RATE * 1 * COIN, by decide⟩

def is_crosslink (tx : Transaction) : Bool :=
  match tx.data with
  | .VCrosslink _ _ _ _ _ _ => true
  | _ => false

def miner_fee (tx : Transaction) (outputs : OutPoint → Option Output) :
    Verify (Option (Amount .NonNegative)) := do
  let remaining ← liftAbort (tx.remaining_value outputs)
  if tx.is_coinbase then pure none
  else match remaining with
  | some tx_rtv => pure (some (if is_crosslink tx then crosslink_fee else tx_rtv))
  | none => failWith .IncorrectFee

def sigops (tx : FullTransaction A) : Except TransactionError Nat :=
  match tx.scripts.foldlM (fun acc s => (rules.legacy_sigop_count_script s).map (acc + ·)) 0 with
  | some count => .ok count
  | none => .error (.Other "script verification failed")

def respond (req : Request A) (fee : Option (Amount .NonNegative)) (sigops : Nat)
    (spent_mempool_outpoints : List OutPoint) : Verify (Response A) :=
  match req with
  | .Block _ _ _ _ _ => pure (.Block fee sigops)
  | .Mempool tx _ => do
    let fee ← liftAbort (orAbort fee (.expect "fee should have been checked earlier"))
    liftResult (rules.zip317 tx fee)
    pure (.Mempool ⟨tx, fee, sigops⟩ spent_mempool_outpoints)

/-! ## The call -/

/-- What the verifier does for a transaction that it does not find in the mempool. -/
def full_checks (network : Network) (answers : Answers A) (req : Request A) :
    Verify (Response A) := do
  let tx := req.transaction
  quick_checks network answers req
  let spent ← liftResult (spent_utxos answers req)
  liftResult (if req.is_mempool then rules.maturity tx req.height spent.spent_utxos else .ok ())
  let nu ← liftAbort (network.current req.height)
  liftResult (cached_ffi_transaction rules tx nu)
  liftResult (async_checks rules tx spent.spent_outputs nu)
  liftResult (if req.is_mempool then answers.nullifiers_and_anchors tx else .ok ())
  let fee ← miner_fee tx.toTransaction fun outpoint => (spent.spent_utxos.lookup outpoint).map (·.output)
  let count ← liftResult (sigops rules tx)
  respond rules req fee count spent.spent_mempool_outpoints

/-- The outpoints of the transaction that were found missing, and are asked for. -/
def missing_outpoints (tx : Transaction) (missing_deps : List TransactionHash) : List OutPoint :=
  tx.spent_outpoints.filter fun outpoint => outpoint.hash ∈ missing_deps

def await_outpoints (answers : Answers A) : List OutPoint → Except TransactionError Unit
  | [] => .ok ()
  | outpoint :: rest =>
    match answers.await_utxo outpoint with
    | some _ => await_outpoints answers rest
    | none => .error .TransparentInputNotFound

def find_verified_unmined_tx (req : Request A) :
    Option (Except TransactionError (VerifiedUnminedTx A)) := do
  let tx := req.transaction
  if req.is_mempool || tx.is_coinbase then none
  else
    let mempool ← answers.mempool
    let (verified_tx, dependencies) ← mempool.transaction_with_deps tx.hash
    let missing_deps := dependencies.filter fun id => id ∉ req.known_outpoint_hashes
    some ((await_outpoints answers (missing_outpoints tx.toTransaction missing_deps)).map
      fun _ => verified_tx)

def call (network : Network) (answers : Answers A) (req : Request A) : Verify (Response A) :=
  match find_verified_unmined_tx answers req with
  | some (.ok verified_tx) => pure (.Block (some verified_tx.miner_fee) verified_tx.sigops)
  | some (.error err) => failWith err
  | none => full_checks rules network answers req

end TransactionVerifier

/-! ## True outputs

An outpoint names one output, since an id commits to the outputs of its transaction. `output` is
that map. The services may time out, but what they answer is true. -/

section

variable {A : Type} {rules : Rules A} {network : Network} {answers : Answers A} {req : Request A}
  {output : OutPoint → Option Output}

structure Answers.Agree (answers : Answers A) (output : OutPoint → Option Output) : Prop where
  await_utxo : ∀ outpoint utxo, answers.await_utxo outpoint = some utxo →
    output outpoint = some utxo.output
  unspent_best_chain_utxo : ∀ outpoint utxo,
    answers.unspent_best_chain_utxo outpoint = .ok (some utxo) → output outpoint = some utxo.output
  await_output : ∀ mempool ∈ answers.mempool, ∀ outpoint created,
    mempool.await_output outpoint = some created → output outpoint = some created

def UtxosAgree (utxos : Map OutPoint Utxo) (output : OutPoint → Option Output) : Prop :=
  ∀ outpoint utxo, utxos.lookup outpoint = some utxo → output outpoint = some utxo.output

theorem UtxosAgree.empty : UtxosAgree ∅ output := by
  intro outpoint utxo h
  rw [Finmap.lookup_empty] at h
  cases h

theorem UtxosAgree.insert {utxos : Map OutPoint Utxo} {outpoint : OutPoint} {utxo : Utxo}
    (h : UtxosAgree utxos output) (hnew : output outpoint = some utxo.output) :
    UtxosAgree (utxos.insert outpoint utxo) output := by
  intro o u hu
  rw [Map.lookup_insert'] at hu
  split at hu
  · next heq =>
    cases hu
    rw [heq, hnew]
  · exact h o u hu

namespace TransactionVerifier

variable {utxo : Utxo} {outpoint : OutPoint} {spent spent' : Spent} {l : List OutPoint}
  {response : Response A} {fee : Option (Amount .NonNegative)} {outputs : OutPoint → Option Output}
  {tx : Transaction} {height : Nat}

theorem lookup_utxo_agrees (hanswers : answers.Agree output) (hknown : UtxosAgree req.known_utxos output)
    (h : lookup_utxo answers req outpoint = .ok (some utxo)) : output outpoint = some utxo.output := by
  unfold lookup_utxo at h
  split at h
  · next known hlookup =>
    cases h
    exact hknown _ _ hlookup
  · split at h
    · rw [except_mapError_ok] at h
      exact hanswers.unspent_best_chain_utxo _ _ h
    · split at h
      · next found hfound =>
        cases h
        exact hanswers.await_utxo _ _ hfound
      · cases h

def onChain (answers : Answers A) (req : Request A) (outpoint : OutPoint) : Option Utxo :=
  match lookup_utxo answers req outpoint with
  | .ok utxo => utxo
  | .error _ => none

def inMempool (answers : Answers A) (req : Request A) (outpoint : OutPoint) : Option Utxo :=
  (answers.mempool.bind (·.await_output outpoint)).map (⟨·, req.height, false⟩)

def utxoOf (answers : Answers A) (req : Request A) (outpoint : OutPoint) : Option Utxo :=
  (onChain answers req outpoint).or (inMempool answers req outpoint)

def outputsOf (answers : Answers A) (req : Request A) (l : List OutPoint) : List Output :=
  (l.filterMap (utxoOf answers req)).map (·.output)

/-- The outpoints that only the mempool has, behind the others. -/
def mempoolLast (answers : Answers A) (req : Request A) : List OutPoint :=
  (req.transaction.spent_outpoints.filter fun o => (onChain answers req o).isSome) ++
    req.transaction.spent_outpoints.filter fun o => (onChain answers req o).isNone

/-- What a pass over the outpoints in `l` adds, where `found` has the UTXOs that it finds. -/
structure Spent.Adds (spent spent' : Spent) (found : OutPoint → Option Utxo) (l : List OutPoint) :
    Prop where
  outputs : spent'.spent_outputs = spent.spent_outputs ++ (l.filterMap found).map (·.output)
  utxos : ∀ o, spent'.spent_utxos.lookup o =
    (if o ∈ l then found o else none).or (spent.spent_utxos.lookup o)

theorem Spent.Adds.nil (spent : Spent) (found : OutPoint → Option Utxo) : spent.Adds spent found [] where
  outputs := by simp
  utxos o := by simp

theorem Spent.Adds.push {found : OutPoint → Option Utxo} (hfound : found outpoint = some utxo)
    (h : (spent.push outpoint utxo).Adds spent' found l) : spent.Adds spent' found (outpoint :: l) where
  outputs := by rw [h.outputs]; simp [Spent.push, hfound]
  utxos o := by
    rw [h.utxos, Spent.push, Map.lookup_insert']
    by_cases heq : o = outpoint
    · by_cases hmem : outpoint ∈ l
      · simp [heq, hfound, hmem]
      · simp [heq, hfound, hmem]
    · simp [heq]

theorem chain_utxos_adds {inputs : List Input}
    (h : chain_utxos answers req spent inputs = .ok spent') :
    spent.Adds spent' (onChain answers req) (inputs.filterMap Input.outpoint) ∧
      spent'.spent_mempool_outpoints = spent.spent_mempool_outpoints ++
        (inputs.filterMap Input.outpoint).filter fun o => (onChain answers req o).isNone := by
  induction inputs generalizing spent with
  | nil =>
    cases h
    exact ⟨.nil _ _, by simp⟩
  | cons input rest ih =>
    cases input with
    | Coinbase height => exact ih h
    | PrevOut outpoint =>
      rw [chain_utxos, except_bind_ok] at h
      obtain ⟨utxo, hutxo, hrest⟩ := h
      have hfound : onChain answers req outpoint = utxo := by rw [onChain, hutxo]
      obtain ⟨hadds, hmempool⟩ := ih hrest
      rw [hmempool]
      cases utxo with
      | some u => exact ⟨hadds.push hfound, by simp [Input.outpoint, Spent.record, Spent.push, hfound]⟩
      | none =>
        refine ⟨⟨?_, fun o => ?_⟩, by simp [Input.outpoint, Spent.record, hfound]⟩
        · rw [hadds.outputs]
          simp [Input.outpoint, Spent.record, hfound]
        · rw [hadds.utxos]
          by_cases heq : o = outpoint
          · simp [Input.outpoint, Spent.record, heq, hfound]
          · simp [Input.outpoint, Spent.record, heq]

theorem mempool_utxos_adds {mempool : MempoolAnswers A} (hmempool : answers.mempool = some mempool)
    (h : mempool_utxos mempool req.height spent l = .ok spent') :
    spent.Adds spent' (inMempool answers req) l ∧ ∀ o ∈ l, (inMempool answers req o).isSome := by
  induction l generalizing spent with
  | nil =>
    cases h
    exact ⟨.nil _ _, by simp⟩
  | cons outpoint rest ih =>
    unfold mempool_utxos at h
    split at h
    · next output houtput =>
      have hfound : inMempool answers req outpoint = some ⟨output, req.height, false⟩ := by
        rw [inMempool, hmempool, Option.bind_some, houtput, Option.map_some]
      obtain ⟨hadds, hall⟩ := ih h
      exact ⟨hadds.push hfound, forall_mem_cons.mpr ⟨by rw [hfound]; rfl, hall⟩⟩
    · cases h

/-- The two passes: every outpoint has a UTXO, the map has those, and the outputs of the mempool come
last. -/
theorem spent_utxos_spec (h : spent_utxos answers req = .ok spent) :
    (∀ o ∈ req.transaction.spent_outpoints, (utxoOf answers req o).isSome) ∧
      (∀ o, spent.spent_utxos.lookup o =
        if o ∈ req.transaction.spent_outpoints then utxoOf answers req o else none) ∧
      spent.spent_outputs = outputsOf answers req (mempoolLast answers req) := by
  rw [spent_utxos, except_bind_ok] at h
  obtain ⟨looked, hlooked, hrest⟩ := h
  obtain ⟨hchain, hleft⟩ := chain_utxos_adds hlooked
  have hboth : looked.Adds spent (inMempool answers req) looked.spent_mempool_outpoints ∧
      ∀ o ∈ looked.spent_mempool_outpoints, (inMempool answers req o).isSome := by
    split at hrest
    · next mempool hmempool => exact mempool_utxos_adds hmempool hrest
    · split at hrest
      · next hempty =>
        cases hrest
        rw [isEmpty_iff.mp hempty]
        exact ⟨.nil _ _, by simp⟩
      · cases hrest
  obtain ⟨hadds, hall⟩ := hboth
  rw [← Transaction.spent_outpoints] at hchain hleft
  rw [nil_append] at hleft
  rw [hleft] at hadds hall
  refine ⟨fun o ho => ?_, fun o => ?_, ?_⟩
  · rw [utxoOf, Option.isSome_or, Bool.or_eq_true]
    by_cases hfound : (onChain answers req o).isSome
    · exact .inl hfound
    · exact .inr (hall o (mem_filter.mpr ⟨ho, by simpa using hfound⟩))
  · rw [hadds.utxos, hchain.utxos, Finmap.lookup_empty, utxoOf]
    by_cases ho : o ∈ req.transaction.spent_outpoints
    · cases hfound : onChain answers req o <;> simp [ho, hfound]
    · simp [ho]
  · rw [hadds.outputs, hchain.outputs, nil_append, outputsOf, mempoolLast, filterMap_append,
      map_append, filterMap_filter, filterMap_filter, filterMap_filter]
    congr 2
    · refine filterMap_congr fun o _ => ?_
      cases hfound : onChain answers req o <;> simp [utxoOf, hfound]
    · refine filterMap_congr fun o _ => ?_
      cases hfound : onChain answers req o <;> simp [utxoOf, hfound]

theorem utxoOf_agrees (hanswers : answers.Agree output) (hknown : UtxosAgree req.known_utxos output)
    (h : utxoOf answers req outpoint = some utxo) : output outpoint = some utxo.output := by
  rcases Option.or_eq_some_iff.mp h with hchain | ⟨-, hmempool⟩
  · unfold onChain at hchain
    split at hchain
    · next utxo' hlookup => exact lookup_utxo_agrees hanswers hknown (hchain ▸ hlookup)
    · cases hchain
  · simp only [inMempool, Option.map_eq_some_iff, Option.bind_eq_some_iff] at hmempool
    obtain ⟨created, ⟨mempool, hmem, hcreated⟩, rfl⟩ := hmempool
    exact hanswers.await_output mempool hmem _ _ hcreated

theorem spent_utxos_agree (hanswers : answers.Agree output) (hknown : UtxosAgree req.known_utxos output)
    (h : spent_utxos answers req = .ok spent) : ∀ outpoint ∈ req.transaction.spent_outpoints,
      (spent.spent_utxos.lookup outpoint).map (·.output) = output outpoint := by
  obtain ⟨hall, hlookup, -⟩ := spent_utxos_spec h
  intro outpoint houtpoint
  obtain ⟨utxo, hutxo⟩ := Option.isSome_iff_exists.mp (hall outpoint houtpoint)
  rw [hlookup, if_pos houtpoint, hutxo, utxoOf_agrees hanswers hknown hutxo]
  rfl

/-! ## The call, inverted -/

theorem quick_checks_ok : quick_checks network answers req = .ok (.ok ()) ↔
      check.has_inputs_and_outputs req.transaction.toTransaction = .ok () ∧
      check.has_enough_orchard_flags req.transaction.toTransaction = .ok () ∧
      check.consensus_branch_id req.transaction req.height network = .ok (.ok ()) ∧
      coinbase_rules network req = .ok () ∧
      check.joinsplit_has_vpub_zero req.transaction.toTransaction = .ok () ∧
      check.disabled_add_to_sprout_pool req.transaction.toTransaction req.height network =
        .ok (.ok ()) ∧ check.spend_conflicts req.transaction.toTransaction = .ok () ∧
      ∃ block_time, lock_time_block_time answers req = .ok (.ok block_time) ∧
      check.lock_time_has_passed req.transaction req.height block_time = .ok (.ok ()) := by
  simp [quick_checks, exceptT_bind_ok, liftResult_ok, Unique.exists_iff]

theorem full_checks_ok : full_checks rules network answers req = .ok (.ok response) ↔
      quick_checks network answers req = .ok (.ok ()) ∧
      ∃ spent, spent_utxos answers req = .ok spent ∧
      (if req.is_mempool then rules.maturity req.transaction req.height spent.spent_utxos
        else .ok ()) = .ok () ∧ ∃ nu, network.current req.height = .ok nu ∧
      cached_ffi_transaction rules req.transaction nu = .ok () ∧
      async_checks rules req.transaction spent.spent_outputs nu = .ok () ∧
      (if req.is_mempool then answers.nullifiers_and_anchors req.transaction else .ok ()) = .ok () ∧
      ∃ fee, miner_fee req.transaction.toTransaction (fun outpoint =>
        (spent.spent_utxos.lookup outpoint).map (·.output)) = .ok (.ok fee) ∧
      ∃ count, sigops rules req.transaction = .ok count ∧
      respond rules req fee count spent.spent_mempool_outpoints = .ok (.ok response) := by
  simp [full_checks, exceptT_bind_ok, liftResult_ok, liftAbort_ok, Unique.exists_iff]

def charged (tx : Transaction) (tx_rtv : Amount .NonNegative) : Amount .NonNegative :=
  if is_crosslink tx then crosslink_fee else tx_rtv

theorem miner_fee_ok (hcoinbase : tx.is_coinbase = false) : miner_fee tx outputs = .ok (.ok fee) ↔
      ∃ tx_rtv, tx.remaining_value outputs = .ok (some tx_rtv) ∧ fee = some (charged tx tx_rtv) := by
  simp only [miner_fee, exceptT_bind_ok, liftAbort_ok, hcoinbase]
  constructor
  · rintro ⟨remaining, hremaining, h⟩
    cases remaining with
    | none => cases h
    | some tx_rtv =>
      cases h
      exact ⟨tx_rtv, hremaining, rfl⟩
  · rintro ⟨tx_rtv, hremaining, rfl⟩
    exact ⟨_, hremaining, rfl⟩

theorem miner_fee_of_coinbase (hcoinbase : tx.is_coinbase = true)
    (h : miner_fee tx outputs = .ok (.ok fee)) : fee = none := by
  simp only [miner_fee, exceptT_bind_ok, liftAbort_ok, hcoinbase] at h
  obtain ⟨remaining, -, h⟩ := h
  cases h
  rfl

def Verified (rules : Rules A) (network : Network) (output : OutPoint → Option Output)
    (entry : VerifiedUnminedTx A) : Prop :=
  ∃ answers height outpoints, answers.Agree output ∧
    full_checks rules network answers (.Mempool entry.transaction height) =
      .ok (.ok (.Mempool entry outpoints))

theorem charged_of_full_checks (hanswers : answers.Agree output)
    (hknown : UtxosAgree req.known_utxos output) (hcoinbase : req.transaction.is_coinbase = false)
    (hspent : spent_utxos answers req = .ok spent)
    (hfee : miner_fee req.transaction.toTransaction (fun outpoint =>
      (spent.spent_utxos.lookup outpoint).map (·.output)) = .ok (.ok fee)) :
    ∃ tx_rtv, req.transaction.remaining_value output = .ok (some tx_rtv) ∧
      fee = some (charged req.transaction.toTransaction tx_rtv) := by
  obtain ⟨tx_rtv, hremaining, hcharged⟩ := (miner_fee_ok hcoinbase).mp hfee
  rw [Transaction.remaining_value_congr (spent_utxos_agree hanswers hknown hspent)] at hremaining
  exact ⟨tx_rtv, hremaining, hcharged⟩

theorem not_coinbase_of_mempool {tx : FullTransaction A}
    (h : quick_checks network answers (.Mempool tx height) = .ok (.ok ())) :
    tx.is_coinbase = false := by
  obtain ⟨-, -, -, hrules, -⟩ := quick_checks_ok.mp h
  by_contra hcoinbase
  simp only [Bool.not_eq_false] at hcoinbase
  simp [coinbase_rules, Request.transaction, Request.is_mempool, hcoinbase] at hrules

theorem respond_mempool_ok {tx : FullTransaction A} {count : Nat} {outpoints : List OutPoint}
    (h : respond rules (.Mempool tx height) fee count outpoints = .ok (.ok response)) :
    ∃ paid, fee = some paid ∧ response = .Mempool ⟨tx, paid, count⟩ outpoints := by
  simp only [respond, exceptT_bind_ok, liftAbort_ok, orAbort_ok] at h
  obtain ⟨paid, hpaid, -, -, h⟩ := h
  cases h
  exact ⟨paid, hpaid, rfl⟩

theorem Verified.charged {entry : VerifiedUnminedTx A} (h : Verified rules network output entry) :
    ∃ tx_rtv, entry.transaction.remaining_value output = .ok (some tx_rtv) ∧
      entry.miner_fee = charged entry.transaction.toTransaction tx_rtv := by
  obtain ⟨answers, height, outpoints, hanswers, hchecks⟩ := h
  obtain ⟨hquick, spent, hspent, -, nu, -, -, -, -, fee, hfee, count, -, hrespond⟩ :=
    full_checks_ok.mp hchecks
  have hknown : UtxosAgree (Request.Mempool entry.transaction height).known_utxos output := UtxosAgree.empty
  obtain ⟨tx_rtv, hremaining, hcharged⟩ :=
    charged_of_full_checks hanswers hknown (not_coinbase_of_mempool hquick) hspent hfee
  obtain ⟨paid, hpaid, hresponse⟩ := respond_mempool_ok hrespond
  obtain ⟨hentry, -⟩ := Response.Mempool.inj hresponse
  have hfee : entry.miner_fee = paid := congrArg VerifiedUnminedTx.miner_fee hentry
  exact ⟨tx_rtv, hremaining, hfee.trans (Option.some.inj (hpaid.symm.trans hcharged))⟩

end TransactionVerifier

end

end ZebraCrosslink
