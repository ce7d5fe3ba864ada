import ZebraCrosslink.Consensus.Fees

/-!
# Mined transactions from the mempool

The verifier answers for a mined transaction with the mempool entry of its id. Checked on its own,
the transaction gets the same answer exactly under `StillValid`.
-/

open Rust List

namespace ZebraCrosslink

namespace TransactionVerifier

variable {A : Type} {rules : Rules A} {network : Network} {answers : Answers A} {tx : FullTransaction A}
  {hashes : List TransactionHash} {known : Map OutPoint Utxo} {height : Nat} {time : UInt32}
  {output : OutPoint → Option Output} {outpoint : OutPoint} {nu : NetworkUpgrade} {outs : List Output}

/-! ## The checks, inverted -/

theorem passIf_ok {ε : Type} {c : Prop} [Decidable c] {err : ε} :
    (if c then pure () else failWith err : ExceptT ε (Except Abort) Unit) = .ok (.ok ()) ↔ c := by
  split
  · next h => exact ⟨fun _ => h, fun _ => rfl⟩
  · next h => exact ⟨nofun, fun h' => absurd h' h⟩

theorem consensus_branch_id_ok : check.consensus_branch_id tx height network = .ok (.ok ()) ↔
      ∃ nu, network.current height = .ok nu ∧
        (nu < .Nu5 ∨ tx.version < 5 ∨ tx.network_upgrade = some nu) := by
  simp only [check.consensus_branch_id, exceptT_bind_ok, liftAbort_ok]
  refine exists_congr fun nu => and_congr_right fun _ => ?_
  by_cases hold : nu < .Nu5 ∨ tx.version < 5
  · rw [if_pos hold]
    exact ⟨fun _ => by tauto, fun _ => rfl⟩
  · rw [if_neg hold]
    have hnew : ¬ nu < .Nu5 ∧ ¬ tx.version < 5 := not_or.mp hold
    simp only [hnew, false_or]
    cases tx.network_upgrade with
    | none => exact ⟨nofun, nofun⟩
    | some tx_nu =>
      by_cases heq : tx_nu = nu
      · simp only [heq, ne_eq, not_true, if_false]
        exact ⟨fun _ => trivial, fun _ => rfl⟩
      · simp only [ne_eq, heq, not_false_iff, if_true, Option.some.injEq]
        exact ⟨nofun, nofun⟩

theorem disabled_add_to_sprout_pool_ok :
    check.disabled_add_to_sprout_pool tx.toTransaction height network = .ok (.ok ()) ↔
      ∃ canopy, network.activation_height .Canopy = some canopy ∧
        (canopy ≤ height → ∀ joinsplit ∈ tx.joinsplits, joinsplit.vpub_old = .zero) := by
  simp only [check.disabled_add_to_sprout_pool, exceptT_bind_ok, liftAbort_ok, orAbort_ok]
  refine exists_congr fun canopy => and_congr_right fun _ => ?_
  split
  · next hadds =>
    obtain ⟨hle, hadds⟩ := hadds
    obtain ⟨joinsplit, hmem, hne⟩ := any_eq_true.mp hadds
    exact ⟨nofun, fun h => absurd (h hle joinsplit hmem) (of_decide_eq_true hne)⟩
  · next hadds =>
    refine ⟨fun _ hle joinsplit hmem => ?_, fun _ => rfl⟩
    by_contra hne
    exact hadds ⟨hle, any_eq_true.mpr ⟨joinsplit, hmem, decide_eq_true hne⟩⟩

def Unlocked (tx : FullTransaction A) (height : Nat) (time : UInt32) : Prop :=
  match tx.lock_time with
  | some (.Height unlock_height) => unlock_height < height
  | some (.Time unlock_time) => unlock_time < time
  | none => True

theorem lock_time_has_passed_ok :
    check.lock_time_has_passed tx height (some time) = .ok (.ok ()) ↔ Unlocked tx height time := by
  unfold check.lock_time_has_passed Unlocked
  cases tx.lock_time with
  | none => exact ⟨fun _ => trivial, fun _ => rfl⟩
  | some lock_time =>
    cases lock_time with
    | Height unlock_height => exact passIf_ok
    | Time unlock_time =>
      simp [exceptT_bind_ok, liftAbort_ok, orAbort_ok, passIf_ok]

def NotExpired (tx : Transaction) (height : Nat) : Prop := ∀ expiry ∈ tx.expiry_height, height ≤ expiry

theorem validate_expiry_height_mined_ok {tx : Transaction} :
    check.validate_expiry_height_mined tx.expiry_height height tx = .ok () ↔ NotExpired tx height := by
  unfold check.validate_expiry_height_mined NotExpired
  cases tx.expiry_height with
  | none => exact ⟨fun _ => nofun, fun _ => rfl⟩
  | some expiry =>
    simp only [Option.mem_def, Option.some.injEq, forall_eq']
    split
    · next h => exact ⟨nofun, fun h' => absurd h' (not_le.mpr h)⟩
    · next h => exact ⟨fun _ => not_lt.mp h, fun _ => rfl⟩

theorem non_coinbase_expiry_height_ok {tx : Transaction} (h : tx.is_overwintered = true) :
    check.non_coinbase_expiry_height height tx = .ok () ↔
      check.validate_expiry_height_max tx.expiry_height false height tx = .ok () ∧
        NotExpired tx height := by
  simp [check.non_coinbase_expiry_height, h, except_bind_ok, Unique.exists_iff,
    validate_expiry_height_mined_ok]

theorem validate_expiry_height_max_ok {tx : Transaction} :
    check.validate_expiry_height_max tx.expiry_height false height tx = .ok () ↔
      ∀ expiry ∈ tx.expiry_height, expiry ≤ MAX_EXPIRY_HEIGHT := by
  unfold check.validate_expiry_height_max
  cases tx.expiry_height with
  | none => exact ⟨fun _ => nofun, fun _ => rfl⟩
  | some expiry =>
    simp only [Option.mem_def, Option.some.injEq, forall_eq']
    split
    · next h => exact ⟨nofun, fun h' => absurd h' (not_le.mpr h)⟩
    · next h => exact ⟨fun _ => not_lt.mp h, fun _ => rfl⟩

theorem coinbase_rules_of_non_coinbase (req : Request A)
    (hcoinbase : req.transaction.is_coinbase = false) :
    coinbase_rules network req = .ok () ↔ req.transaction.is_valid_non_coinbase = true ∧
      check.non_coinbase_expiry_height req.height req.transaction.toTransaction = .ok () := by
  simp only [coinbase_rules, hcoinbase, Bool.and_false, Bool.false_eq_true, if_false]
  by_cases hvalid : req.transaction.is_valid_non_coinbase = true
  · simp [hvalid]
  · simp [hvalid]

/-! ## Spent outputs of a mined transaction -/

def Available (answers : Answers A) (known : Map OutPoint Utxo) (outpoint : OutPoint) : Prop :=
  outpoint ∈ known ∨ (answers.await_utxo outpoint).isSome = true

theorem lookup_utxo_block :
    (∃ utxo, lookup_utxo answers (.Block tx hashes known height time) outpoint = .ok utxo) ↔
      Available answers known outpoint := by
  simp only [lookup_utxo, Request.known_utxos, Request.is_mempool, Available, Finmap.mem_iff]
  cases known.lookup outpoint with
  | some utxo => simp
  | none => cases answers.await_utxo outpoint <;> simp

theorem lookup_utxo_block_some {utxo : Option Utxo}
    (h : lookup_utxo answers (.Block tx hashes known height time) outpoint = .ok utxo) :
    ∃ found, utxo = some found := by
  simp only [lookup_utxo, Request.known_utxos, Request.is_mempool, Bool.false_eq_true, if_false] at h
  split at h
  · next found _ => exact ⟨found, (Except.ok.inj h).symm⟩
  · split at h
    · next found _ => exact ⟨found, (Except.ok.inj h).symm⟩
    · cases h

theorem onChain_block (h : Available answers known outpoint) :
    (onChain answers (.Block tx hashes known height time) outpoint).isSome = true := by
  obtain ⟨utxo, hutxo⟩ := lookup_utxo_block.mpr h
  obtain ⟨found, rfl⟩ := lookup_utxo_block_some hutxo
  rw [onChain, hutxo]
  rfl

theorem allOnChain {l : List OutPoint} (h : ∀ outpoint ∈ l, Available answers known outpoint) :
    (l.filter fun o => (onChain answers (.Block tx hashes known height time) o).isNone) = [] := by
  refine filter_eq_nil_iff.mpr fun o ho => ?_
  rw [Option.isNone_iff_eq_none, ← Option.not_isSome_iff_eq_none, not_not]
  exact onChain_block (h o ho)

theorem chain_utxos_ok {inputs : List Input} {req : Request A} {spent : Spent} :
    (∃ spent', chain_utxos answers req spent inputs = .ok spent') ↔
      ∀ outpoint ∈ inputs.filterMap Input.outpoint,
        ∃ utxo, lookup_utxo answers req outpoint = .ok utxo := by
  induction inputs generalizing spent with
  | nil => simp [chain_utxos]
  | cons input rest ih =>
    cases input with
    | Coinbase height => exact ih
    | PrevOut outpoint =>
      simp only [chain_utxos, except_bind_ok, filterMap_cons, Input.outpoint, forall_mem_cons]
      constructor
      · rintro ⟨spent', utxo, hutxo, hrest⟩
        exact ⟨⟨utxo, hutxo⟩, ih.mp ⟨spent', hrest⟩⟩
      · rintro ⟨⟨utxo, hutxo⟩, hrest⟩
        obtain ⟨spent', hspent'⟩ := ih.mpr hrest
        exact ⟨spent', utxo, hutxo, hspent'⟩

def spentOutputs (output : OutPoint → Option Output) (tx : Transaction) : List Output :=
  tx.spent_outpoints.filterMap output

theorem spent_utxos_block (hanswers : answers.Agree output) (hknown : UtxosAgree known output)
    {spent : Spent} (h : spent_utxos answers (.Block tx hashes known height time) = .ok spent) :
    (∀ outpoint ∈ tx.spent_outpoints, Available answers known outpoint) ∧
      spent.spent_outputs = spentOutputs output tx.toTransaction := by
  have havailable : ∀ outpoint ∈ tx.spent_outpoints, Available answers known outpoint := by
    rw [spent_utxos, except_bind_ok] at h
    obtain ⟨looked, hlooked, -⟩ := h
    exact fun o ho => lookup_utxo_block.mp (chain_utxos_ok.mp ⟨looked, hlooked⟩ o ho)
  refine ⟨havailable, ?_⟩
  obtain ⟨hall, -, houtputs⟩ := spent_utxos_spec h
  have hlast : mempoolLast answers (.Block tx hashes known height time) = tx.spent_outpoints := by
    unfold mempoolLast
    simp only [Request.transaction]
    rw [allOnChain havailable, append_nil]
    exact filter_eq_self.mpr fun o ho => onChain_block (havailable o ho)
  rw [houtputs, hlast, outputsOf, map_filterMap]
  refine filterMap_congr fun o ho => ?_
  obtain ⟨utxo, hutxo⟩ := Option.isSome_iff_exists.mp (hall o ho)
  have hknown' : UtxosAgree (Request.Block tx hashes known height time).known_utxos output := hknown
  rw [hutxo, utxoOf_agrees hanswers hknown' hutxo]
  rfl

theorem exists_spent_utxos (h : ∀ outpoint ∈ tx.spent_outpoints, Available answers known outpoint) :
    ∃ spent, spent_utxos answers (.Block tx hashes known height time) = .ok spent := by
  obtain ⟨looked, hlooked⟩ : ∃ looked, chain_utxos answers (.Block tx hashes known height time)
      ⟨∅, [], []⟩ tx.inputs = .ok looked := chain_utxos_ok.mpr fun o ho => lookup_utxo_block.mpr (h o ho)
  have hmempool := (chain_utxos_adds hlooked).2
  rw [allOnChain (by exact h)] at hmempool
  refine ⟨looked, ?_⟩
  rw [spent_utxos, except_bind_ok]
  refine ⟨looked, hlooked, ?_⟩
  rw [hmempool]
  cases answers.mempool <;> rfl

/-! ## Versions, scripts and proofs -/

def Supported (tx : FullTransaction A) (nu : NetworkUpgrade) : Prop :=
  match tx.data with
  | .V1 _ _ | .V2 _ _ _ | .V3 _ _ _ _ => False
  | .V4 _ _ _ _ _ => ¬ nu < .Sapling ∧ nu < .Nu7
  | .V5 _ _ _ _ _ | .VCrosslink _ _ _ _ _ _ => nu = tx.branch

structure Authorized (rules : Rules A) (tx : FullTransaction A) (spent_outputs : List Output)
    (nu : NetworkUpgrade) : Prop where
  scripts : ∀ index < tx.inputs.length, rules.script tx spent_outputs nu index = .ok ()
  sapling : rules.sapling tx spent_outputs nu = .ok ()
  sprout : tx.version = 4 → rules.sprout tx spent_outputs nu = .ok ()
  orchard : tx.version ≠ 4 → rules.orchard tx spent_outputs nu = .ok ()

def KnownBranch (tx : FullTransaction A) : Prop :=
  match tx.data with
  | .V1 _ _ | .V2 _ _ _ | .V3 _ _ _ _ => False
  | .V4 _ _ _ _ _ => True
  | .V5 _ _ _ _ _ | .VCrosslink _ _ _ _ _ _ => tx.branch = .Nu5 ∨ tx.branch = .Nu6 ∨ tx.branch = .Nu6_1

theorem forM_range_ok {f : Nat → Except TransactionError Unit} {n : Nat} :
    (range n).forM f = .ok () ↔ ∀ index < n, f index = .ok () := by
  rw [forM_ok]
  simp

theorem cached_ffi_transaction_ok :
    cached_ffi_transaction rules tx nu = .ok () ↔ (∀ tx_nu ∈ tx.network_upgrade, tx_nu = nu) ∧
      nu ∉ [.Genesis, .BeforeOverwinter, .Nu7] ∧ rules.converts tx nu = true := by
  have hany : (tx.network_upgrade.any fun tx_nu => tx_nu ≠ nu) = true ↔
      ¬ ∀ tx_nu ∈ tx.network_upgrade, tx_nu = nu := by
    cases tx.network_upgrade <;> simp
  unfold cached_ffi_transaction
  split
  · next h =>
    refine ⟨nofun, fun ⟨hnu, hlist, hconverts⟩ => ?_⟩
    rcases h with h | h | h
    · exact absurd hnu (hany.mp h)
    · exact absurd h hlist
    · rw [hconverts] at h
      cases h
  · next h =>
    simp only [not_or, hany, not_not, Bool.not_eq_false] at h
    exact ⟨fun _ => h, fun _ => rfl⟩

theorem verify_v4_transaction_network_upgrade_ok :
    verify_v4_transaction_network_upgrade tx nu = .ok () ↔ ¬ nu < .Sapling ∧ nu < .Nu7 := by
  cases nu <;> simp [verify_v4_transaction_network_upgrade] <;> decide

theorem async_checks_v4_ok {inputs outputs expiry_height joinsplit_data sapling_shielded_data}
    (hdata : tx.data = .V4 inputs outputs expiry_height joinsplit_data sapling_shielded_data)
    (hcoinbase : tx.is_coinbase = false) : async_checks rules tx outs nu = .ok () ↔
      verify_v4_transaction_network_upgrade tx nu = .ok () ∧ Authorized rules tx outs nu := by
  have hversion : tx.version = 4 := by simp [Transaction.version, hdata]
  simp only [async_checks, hdata, except_bind_ok, Unique.exists_iff, PUnit.default_eq_unit,
    verify_transparent_inputs_and_outputs, hcoinbase, Bool.false_eq_true, if_false, forM_range_ok]
  refine and_congr_right fun _ => ⟨fun ⟨hscripts, hsprout, hsapling⟩ => ?_, fun h => ?_⟩
  · exact ⟨hscripts, hsapling, fun _ => hsprout, fun h => absurd hversion h⟩
  · exact ⟨h.scripts, h.sprout hversion, h.sapling⟩

theorem async_checks_v5_ok
    (hdata : tx.network_upgrade = some tx.branch) (hcoinbase : tx.is_coinbase = false) :
    async_checks rules tx outs nu = .ok () ↔
      verify_v5_transaction_network_upgrade tx nu = .ok () ∧ Authorized rules tx outs nu := by
  have hversion : tx.version ≠ 4 := by
    unfold FullTransaction.network_upgrade at hdata
    unfold Transaction.version
    split at hdata <;> simp_all
  have hasync : async_checks rules tx outs nu = (do
      verify_v5_transaction_network_upgrade tx nu
      verify_transparent_inputs_and_outputs rules tx outs nu
      rules.sapling tx outs nu
      rules.orchard tx outs nu) := by
    unfold FullTransaction.network_upgrade at hdata
    unfold async_checks
    split at hdata <;> simp_all
  simp only [hasync, except_bind_ok, Unique.exists_iff, PUnit.default_eq_unit,
    verify_transparent_inputs_and_outputs, hcoinbase, Bool.false_eq_true, if_false, forM_range_ok]
  refine and_congr_right fun _ => ⟨fun ⟨hscripts, hsapling, horchard⟩ => ?_, fun h => ?_⟩
  · exact ⟨hscripts, hsapling, fun h => absurd h hversion, fun _ => horchard⟩
  · exact ⟨h.scripts, h.sapling, h.orchard hversion⟩

theorem version_of_network_upgrade (h : tx.network_upgrade = some tx.branch) : ¬ tx.version < 5 := by
  unfold FullTransaction.network_upgrade at h
  unfold Transaction.version
  split at h <;> simp_all

theorem version_checks_ok (hbranch : KnownBranch tx) (hcoinbase : tx.is_coinbase = false) :
    ((nu < .Nu5 ∨ tx.version < 5 ∨ tx.network_upgrade = some nu) ∧
        cached_ffi_transaction rules tx nu = .ok () ∧ async_checks rules tx outs nu = .ok ()) ↔
      Supported tx nu ∧ rules.converts tx nu = true ∧ Authorized rules tx outs nu := by
  rw [cached_ffi_transaction_ok]
  cases hdata : tx.data with
  | V1 | V2 | V3 => simp [KnownBranch, hdata] at hbranch
  | V4 =>
    have hversion : tx.version < 5 := by simp [Transaction.version, hdata]
    have hupgrade : tx.network_upgrade = none := by simp [FullTransaction.network_upgrade, hdata]
    have hlist : ¬ nu < .Sapling ∧ nu < .Nu7 → nu ∉ [.Genesis, .BeforeOverwinter, .Nu7] := by
      cases nu <;> decide
    rw [async_checks_v4_ok hdata hcoinbase, verify_v4_transaction_network_upgrade_ok]
    simp only [hversion, hupgrade, Supported, hdata, Option.mem_def, reduceCtorEq, false_implies,
      implies_true]
    tauto
  | V5 | VCrosslink =>
    have hupgrade : tx.network_upgrade = some tx.branch := by
      simp [FullTransaction.network_upgrade, hdata]
    simp only [KnownBranch, hdata] at hbranch
    rw [async_checks_v5_ok hupgrade hcoinbase]
    simp only [version_of_network_upgrade hupgrade, hupgrade, Supported, hdata, Option.mem_def,
      Option.some.injEq, forall_eq']
    rcases hbranch with h | h | h <;> rw [h] <;> cases nu <;>
      simp [verify_v5_transaction_network_upgrade]

/-! ## The mempool entry and the mined transaction -/

/-- Two transactions with one id. Their scripts, proofs and signatures may differ. -/
structure SameEffects (a b : FullTransaction A) : Prop where
  transaction : a.toTransaction = b.toTransaction
  branch : a.branch = b.branch
  lock_time_field : a.lock_time_field = b.lock_time_field
  sequences : a.sequences = b.sequences

/-- What the check of the mempool entry does not say about the mined transaction. -/
structure StillValid (rules : Rules A) (network : Network) (answers : Answers A)
    (output : OutPoint → Option Output) (known : Map OutPoint Utxo) (height : Nat) (time : UInt32)
    (tx : FullTransaction A) (count : Nat) (nu : NetworkUpgrade) : Prop where
  supported : Supported tx nu
  converts : rules.converts tx nu = true
  authorized : Authorized rules tx (spentOutputs output tx.toTransaction) nu
  expiry : NotExpired tx.toTransaction height
  lock_time : Unlocked tx height time
  sprout : ∀ canopy, network.activation_height .Canopy = some canopy → canopy ≤ height →
    ∀ joinsplit ∈ tx.joinsplits, joinsplit.vpub_old = .zero
  utxos : ∀ outpoint ∈ tx.spent_outpoints, Available answers known outpoint
  sigops : sigops rules tx = .ok count

/-- What the check of the mempool entry says about every transaction with its id. -/
structure CheckedBefore (network : Network) (output : OutPoint → Option Output)
    (tx : FullTransaction A) : Prop where
  has_inputs_and_outputs : check.has_inputs_and_outputs tx.toTransaction = .ok ()
  has_enough_orchard_flags : check.has_enough_orchard_flags tx.toTransaction = .ok ()
  is_valid_non_coinbase : tx.is_valid_non_coinbase = true
  expiry : ∀ expiry ∈ tx.expiry_height, expiry ≤ MAX_EXPIRY_HEIGHT
  joinsplit_has_vpub_zero : check.joinsplit_has_vpub_zero tx.toTransaction = .ok ()
  canopy : ∃ canopy, network.activation_height .Canopy = some canopy
  spend_conflicts : check.spend_conflicts tx.toTransaction = .ok ()
  branch : KnownBranch tx
  value : ∃ tx_rtv, tx.remaining_value output = .ok (some tx_rtv)

theorem KnownBranch.is_overwintered (h : KnownBranch tx) : tx.is_overwintered = true := by
  unfold KnownBranch at h
  unfold Transaction.is_overwintered
  split at h <;> simp_all

theorem knownBranch_of_checks (hffi : cached_ffi_transaction rules tx nu = .ok ())
    (hasync : async_checks rules tx outs nu = .ok ()) : KnownBranch tx := by
  obtain ⟨hnu, hlist, -⟩ := cached_ffi_transaction_ok.mp hffi
  unfold async_checks at hasync
  unfold KnownBranch
  unfold FullTransaction.network_upgrade at hnu
  cases hdata : tx.data with
  | V1 | V2 | V3 =>
    rw [hdata] at hasync
    cases hasync
  | V4 => trivial
  | V5 | VCrosslink =>
    simp only [hdata, except_bind_ok] at hasync
    simp only [hdata, Option.mem_def, Option.some.injEq, forall_eq'] at hnu
    obtain ⟨_, hversion, -⟩ := hasync
    rw [hnu]
    cases nu <;> simp_all [verify_v5_transaction_network_upgrade]

theorem Verified.checkedBefore {entry : VerifiedUnminedTx A} (h : Verified rules network output entry) :
    CheckedBefore network output entry.transaction := by
  obtain ⟨value, hvalue, -⟩ := h.charged
  obtain ⟨answers, height, outpoints, -, hchecks⟩ := h
  obtain ⟨hquick, spent, -, -, nu, -, hffi, hasync, -⟩ := full_checks_ok.mp hchecks
  have hcoinbase := not_coinbase_of_mempool hquick
  have hbranch := knownBranch_of_checks hffi hasync
  obtain ⟨hinputs, hflags, -, hrules, hvpub, hsprout, hconflicts, -⟩ := quick_checks_ok.mp hquick
  obtain ⟨hvalid, hexpiry⟩ := (coinbase_rules_of_non_coinbase (.Mempool _ _) hcoinbase).mp hrules
  obtain ⟨hmax, -⟩ := (non_coinbase_expiry_height_ok hbranch.is_overwintered).mp hexpiry
  obtain ⟨canopy, hcanopy, -⟩ := disabled_add_to_sprout_pool_ok.mp hsprout
  exact ⟨hinputs, hflags, hvalid, validate_expiry_height_max_ok.mp hmax, hvpub, ⟨canopy, hcanopy⟩,
    hconflicts, hbranch, value, hvalue⟩

theorem SameEffects.checkedBefore {entry : FullTransaction A} (h : SameEffects entry tx)
    (hchecked : CheckedBefore network output entry) : CheckedBefore network output tx := by
  obtain ⟨htx, hbranch, -, -⟩ := h
  obtain ⟨hinputs, hflags, hvalid, hexpiry, hvpub, hcanopy, hconflicts, hknown, hvalue⟩ := hchecked
  unfold KnownBranch at hknown
  rw [hbranch] at hknown
  rw [htx] at hinputs hflags hvalid hexpiry hvpub hconflicts hknown hvalue
  exact ⟨hinputs, hflags, hvalid, hexpiry, hvpub, hcanopy, hconflicts, hknown, hvalue⟩

theorem CheckedBefore.quick_checks (h : CheckedBefore network output tx) :
    quick_checks network answers (.Block tx hashes known height time) = .ok (.ok ()) ↔
      (∃ nu, network.current height = .ok nu ∧
        (nu < .Nu5 ∨ tx.version < 5 ∨ tx.network_upgrade = some nu)) ∧
      NotExpired tx.toTransaction height ∧
      (∀ canopy, network.activation_height .Canopy = some canopy → canopy ≤ height →
        ∀ joinsplit ∈ tx.joinsplits, joinsplit.vpub_old = .zero) ∧ Unlocked tx height time := by
  have hcoinbase : tx.is_coinbase = false := not_coinbase_of_valid h.is_valid_non_coinbase
  have hrules : coinbase_rules network (.Block tx hashes known height time) = .ok () ↔
      NotExpired tx.toTransaction height := by
    rw [coinbase_rules_of_non_coinbase (.Block tx hashes known height time) hcoinbase]
    simp only [Request.transaction, Request.height, h.is_valid_non_coinbase, true_and,
      non_coinbase_expiry_height_ok h.branch.is_overwintered, validate_expiry_height_max_ok,
      and_iff_right h.expiry]
  have hsprout : (∃ canopy, network.activation_height .Canopy = some canopy ∧
      (canopy ≤ height → ∀ joinsplit ∈ tx.joinsplits, joinsplit.vpub_old = .zero)) ↔
      ∀ canopy, network.activation_height .Canopy = some canopy → canopy ≤ height →
        ∀ joinsplit ∈ tx.joinsplits, joinsplit.vpub_old = .zero := by
    obtain ⟨canopy, hcanopy⟩ := h.canopy
    simp only [hcanopy, Option.some.injEq, exists_eq_left', forall_eq']
  have hlock : (∃ block_time, lock_time_block_time answers (.Block tx hashes known height time) =
      .ok (.ok block_time) ∧ check.lock_time_has_passed tx height block_time = .ok (.ok ())) ↔
      Unlocked tx height time := by
    rw [← lock_time_has_passed_ok]
    constructor
    · rintro ⟨block_time, htime, h⟩
      cases htime
      exact h
    · exact fun h => ⟨some time, rfl, h⟩
  rw [quick_checks_ok, hrules]
  simp only [Request.transaction, Request.height, h.has_inputs_and_outputs,
    h.has_enough_orchard_flags, consensus_branch_id_ok, h.joinsplit_has_vpub_zero,
    disabled_add_to_sprout_pool_ok, hsprout, h.spend_conflicts, hlock, true_and]

theorem find_verified_unmined_tx_agrees_iff {entry : VerifiedUnminedTx A}
    (hfind : find_verified_unmined_tx answers (.Block tx hashes known height time) =
      some (.ok entry)) (hanswers : answers.Agree output) (hknown : UtxosAgree known output)
    (hverified : Verified rules network output entry) (hsame : SameEffects entry.transaction tx) :
    full_checks rules network answers (.Block tx hashes known height time) =
        .ok (.ok (.Block (some entry.miner_fee) entry.sigops)) ↔
      ∃ nu, network.current height = .ok nu ∧
        StillValid rules network answers output known height time tx entry.sigops nu := by
  have hchecked := hsame.checkedBefore hverified.checkedBefore
  obtain ⟨hcoinbase, -⟩ := find_verified_unmined_tx_ok hfind
  obtain ⟨value, hvalue, hfee⟩ := hverified.charged
  rw [hsame.transaction] at hvalue hfee
  rw [full_checks_ok, hchecked.quick_checks]
  simp only [Request.transaction, Request.height, Request.is_mempool, Bool.false_eq_true, if_false]
  constructor
  · rintro ⟨⟨⟨nu', hnu', hbranch⟩, hexpiry, hsprout, hlock⟩, spent, hspent, -, nu, hnu, hffi, hasync, -,
      fee, -, count, hcount, hrespond⟩
    cases hnu'.symm.trans hnu
    obtain ⟨havailable, houtputs⟩ := spent_utxos_block hanswers hknown hspent
    rw [houtputs] at hasync
    obtain ⟨hsupported, hconverts, hauthorized⟩ :=
      (version_checks_ok hchecked.branch hcoinbase).mp ⟨hbranch, hffi, hasync⟩
    obtain ⟨-, rfl⟩ := Response.Block.inj (respond_block_ok hrespond)
    exact ⟨nu', hnu, hsupported, hconverts, hauthorized, hexpiry, hlock, hsprout, havailable, hcount⟩
  · rintro ⟨nu, hnu, h⟩
    obtain ⟨spent, hspent⟩ := exists_spent_utxos h.utxos
    obtain ⟨-, houtputs⟩ := spent_utxos_block hanswers hknown hspent
    obtain ⟨hbranch, hffi, hasync⟩ := (version_checks_ok hchecked.branch hcoinbase).mpr
      ⟨h.supported, h.converts, h.authorized⟩
    have hknown' : UtxosAgree (Request.Block tx hashes known height time).known_utxos output := hknown
    refine ⟨⟨⟨nu, hnu, hbranch⟩, h.expiry, h.sprout, h.lock_time⟩, spent, hspent, trivial, nu, hnu,
      hffi, houtputs ▸ hasync, trivial, some entry.miner_fee, ?_, entry.sigops, h.sigops, rfl⟩
    rw [miner_fee_ok hcoinbase]
    refine ⟨value, ?_, congrArg some hfee⟩
    exact (Transaction.remaining_value_congr (spent_utxos_agree hanswers hknown' hspent)).trans hvalue

end TransactionVerifier

namespace Sample

def strict : Rules Bool :=
  { lenientRules with orchard := fun tx _ _ => if tx.authorization then .ok () else .error (.Other "signature") }

def signedTx (valid : Bool) : FullTransaction Bool :=
  fullTx valid 2 (.V5 20 [] [] none (some shieldedData))

def cachedTx : VerifiedUnminedTx Bool := ⟨signedTx true, ⟨5000, by decide⟩, 0⟩

def caching : Answers Bool :=
  { silent with
    mempool := some
      { transaction_with_deps := fun id => if id = cachedTx.transaction.hash then some (cachedTx, []) else none
        await_output := fun _ => none } }

theorem caching_agrees : caching.Agree fun _ => none where
  await_utxo := nofun
  unspent_best_chain_utxo := nofun
  await_output := by
    intro mempool hmempool outpoint created h
    cases hmempool
    cases h

theorem cachedTx_verified :
    TransactionVerifier.Verified strict (.Testnet shortParams) (fun _ => none) cachedTx :=
  ⟨caching, 5, [], caching_agrees, rfl⟩

end Sample

open Sample

open TransactionVerifier Sample in
theorem signed_tx_agrees :
    full_checks strict (.Testnet shortParams) caching (.Block (signedTx true) [] ∅ 6 0) =
      .ok (.ok (.Block (some cachedTx.miner_fee) cachedTx.sigops)) :=
  (find_verified_unmined_tx_agrees_iff rfl caching_agrees UtxosAgree.empty cachedTx_verified
    ⟨rfl, rfl, rfl, rfl⟩).mpr
    ⟨.Nu6, rfl,
      { supported := rfl
        converts := rfl
        authorized := ⟨nofun, rfl, nofun, fun _ => rfl⟩
        expiry := by
          intro expiry h
          cases h
          decide
        lock_time := trivial
        sprout := nofun
        utxos := nofun
        sigops := rfl }⟩

/-- The mempool answers for a transaction with invalid signatures, and for one that has expired. -/
theorem cached_tx_disagrees :
    TransactionVerifier.Verified strict (.Testnet shortParams) (fun _ => none) cachedTx ∧
      TransactionVerifier.SameEffects cachedTx.transaction (signedTx false) ∧
      TransactionVerifier.find_verified_unmined_tx caching
        (.Block (signedTx false) [] ∅ 6 0) = some (.ok cachedTx) ∧
      TransactionVerifier.full_checks strict (.Testnet shortParams) caching
        (.Block (signedTx false) [] ∅ 6 0) = .ok (.error (.Other "signature")) ∧
      TransactionVerifier.find_verified_unmined_tx caching
        (.Block (signedTx true) [] ∅ 21 0) = some (.ok cachedTx) ∧
      TransactionVerifier.full_checks strict (.Testnet shortParams) caching
        (.Block (signedTx true) [] ∅ 21 0) =
          .ok (.error (.ExpiredTransaction 20 21 (signedTx true).hash)) :=
  ⟨cachedTx_verified, ⟨rfl, rfl, rfl, rfl⟩, rfl, rfl, rfl, rfl⟩

end ZebraCrosslink
