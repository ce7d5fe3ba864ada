import ZebraCrosslink.State.Indexed.Block

/-!
# What a block adds to the transaction indexes

`Entries` lists the keys, values and transfers that a block brings. The entries that were added
first can be taken out from under all later ones.
-/

open Rust List Map
open Option (bind_eq_some_iff map_some mem_some_iff toList_some)

namespace ZebraCrosslink

/-- The keys and values that are inserted, and the transfers of each address. -/
@[ext]
structure Entries where
  locations : List (TransactionHash × TransactionLocation)
  created : List (OutPoint × OrderedUtxo)
  spent : List (OutPoint × SpendingTransactionId)
  sprout : List (Nullifier × SpendingTransactionId)
  sapling : List (Nullifier × SpendingTransactionId)
  orchard : List (Nullifier × SpendingTransactionId)
  transfers : List (Address × Transfer)

namespace Entries

def nil : Entries := ⟨[], [], [], [], [], [], []⟩

def append (e e' : Entries) : Entries where
  locations := e.locations ++ e'.locations
  created := e.created ++ e'.created
  spent := e.spent ++ e'.spent
  sprout := e.sprout ++ e'.sprout
  sapling := e.sapling ++ e'.sapling
  orchard := e.orchard ++ e'.orchard
  transfers := e.transfers ++ e'.transfers

theorem append_nil (e : Entries) : e.append nil = e := by
  simp [append, nil]

end Entries

namespace TransactionIndexes

/-- The entries are moved into each map or out of it, and the transfers into the index of the addresses. -/
@[mk_iff]
structure Moves (move : ∀ {κ α : Type} [DecidableEq κ], Map κ α → List (κ × α) → Option (Map κ α))
    (transfer : AddressTransfers → List (Address × Transfer) → AddressTransfers → Prop)
    (ix : TransactionIndexes) (e : Entries) (ix' : TransactionIndexes) : Prop where
  locations : move ix.tx_loc_by_hash e.locations = some ix'.tx_loc_by_hash
  created : move ix.created_utxos e.created = some ix'.created_utxos
  spent : move ix.spent_utxos e.spent = some ix'.spent_utxos
  sprout : move ix.sprout_nullifiers e.sprout = some ix'.sprout_nullifiers
  sapling : move ix.sapling_nullifiers e.sapling = some ix'.sapling_nullifiers
  orchard : move ix.orchard_nullifiers e.orchard = some ix'.orchard_nullifiers
  transfers : transfer ix.partial_transparent_transfers e.transfers ix'.partial_transparent_transfers

/-- All the moves go through and give `ix'`. -/
abbrev MovesBy (move : IndexMove) : TransactionIndexes → Entries → TransactionIndexes → Prop :=
  Moves (foldlM fun m e => move.entry m e.1 e.2)
    fun m l m' => l.foldlM (fun m e => move.transfer m e.1 e.2) m = .ok m'

abbrev Adds : TransactionIndexes → Entries → TransactionIndexes → Prop := MovesBy .update

abbrev Removes : TransactionIndexes → Entries → TransactionIndexes → Prop := MovesBy .revert

/-- The indexes `ix'` are `ix` with the entries, whatever balances there were on the way. -/
abbrev Holds : TransactionIndexes → Entries → TransactionIndexes → Prop :=
  Moves insertAll AddressTransfers.Applied

def Tidy (ix : TransactionIndexes) : Prop := ix.partial_transparent_transfers.Tidy

variable {ix ix' ix'' : TransactionIndexes} {e e' : Entries}

theorem adds_iff (htidy : ix.Tidy) : ix.Adds e ix' ↔
      ix.Holds e ix' ∧ ix.partial_transparent_transfers.PrefixesInRange e.transfers := by
  constructor
  · intro h
    obtain ⟨happlied, hprefixes⟩ := (AddressTransfers.update_all_ok htidy).mp h.transfers
    exact ⟨{ h with transfers := happlied }, hprefixes⟩
  · rintro ⟨h, hprefixes⟩
    exact { h with transfers := (AddressTransfers.update_all_ok htidy).mpr ⟨h.transfers, hprefixes⟩ }

theorem Holds.nil (htidy : ix.Tidy) : ix.Holds .nil ix :=
  ⟨rfl, rfl, rfl, rfl, rfl, rfl, (AddressTransfers.applied_nil htidy).mpr rfl⟩

theorem removes_iff (h : ix.Holds (e.append e') ix') : ix'.Removes e ix'' ↔ ix.Holds e' ix'' ∧
        ix.partial_transparent_transfers.SuffixesInRange e.transfers e'.transfers := by
  have htransfers : AddressTransfers.revert_all _ _ = .ok ix''.partial_transparent_transfers ↔ _ :=
    AddressTransfers.revert_all_ok h.transfers
  unfold AddressTransfers.revert_all at htransfers
  simp only [moves_iff, IndexMove.revert, ← removeAll_map, removeAll_iff h.locations, removeAll_iff h.created,
    removeAll_iff h.spent, removeAll_iff h.sprout, removeAll_iff h.sapling,
    removeAll_iff h.orchard, htransfers, and_assoc]

end TransactionIndexes

/-! ## Entries in sequence -/

namespace TransactionIndexes

variable {ix ix' ix'' : TransactionIndexes} {e e' : Entries}

section

variable {move : IndexMove}

theorem MovesBy.unique (h : MovesBy move ix e ix') (h' : MovesBy move ix e ix'') : ix' = ix'' :=
  TransactionIndexes.ext (Option.some.inj (h.locations.symm.trans h'.locations))
    (Option.some.inj (h.created.symm.trans h'.created))
    (Option.some.inj (h.spent.symm.trans h'.spent))
    (Option.some.inj (h.sprout.symm.trans h'.sprout))
    (Option.some.inj (h.sapling.symm.trans h'.sapling))
    (Option.some.inj (h.orchard.symm.trans h'.orchard))
    (Except.ok.inj (h.transfers.symm.trans h'.transfers))

theorem moves_nil : MovesBy move ix .nil ix' ↔ ix' = ix := by
  have h : MovesBy move ix .nil ix := ⟨rfl, rfl, rfl, rfl, rfl, rfl, rfl⟩
  exact ⟨fun h' => MovesBy.unique h' h, fun heq => heq ▸ h⟩

theorem moves_append :
    MovesBy move ix (e.append e') ix'' ↔ ∃ ix', MovesBy move ix e ix' ∧ MovesBy move ix' e' ix'' := by
  simp only [moves_iff, Entries.append, foldlM_append, Option.bind_eq_bind, bind_eq_some_iff, except_bind_ok]
  constructor
  · rintro ⟨⟨m₁, h₁, h₁'⟩, ⟨m₂, h₂, h₂'⟩, ⟨m₃, h₃, h₃'⟩, ⟨m₄, h₄, h₄'⟩, ⟨m₅, h₅, h₅'⟩, ⟨m₆, h₆, h₆'⟩, m₇, h₇, h₇'⟩
    exact ⟨⟨m₁, m₂, m₃, m₄, m₅, m₆, m₇⟩, ⟨h₁, h₂, h₃, h₄, h₅, h₆, h₇⟩, h₁', h₂', h₃', h₄', h₅', h₆', h₇'⟩
  · rintro ⟨ix', ⟨h₁, h₂, h₃, h₄, h₅, h₆, h₇⟩, h₁', h₂', h₃', h₄', h₅', h₆', h₇'⟩
    exact ⟨⟨_, h₁, h₁'⟩, ⟨_, h₂, h₂'⟩, ⟨_, h₃, h₃'⟩, ⟨_, h₄, h₄'⟩, ⟨_, h₅, h₅'⟩, ⟨_, h₆, h₆'⟩, _, h₇, h₇'⟩

end

theorem Removes.tidy (h : ix.Removes e ix') (htidy : ix.Tidy) : ix'.Tidy :=
  AddressTransfers.Tidy.revert_all htidy h.transfers

end TransactionIndexes

def Entries.concat (l : List Entries) : Entries := l.foldr Entries.append .nil

open TransactionIndexes in
theorem foldlM_entries {α : Type} {move : IndexMove}
    {body : TransactionIndexes → α → Except Abort TransactionIndexes} {ok : α → Prop}
    {entries : α → Entries}
    (hbody : ∀ ix a ix', body ix a = .ok ix' ↔ ok a ∧ MovesBy move ix (entries a) ix')
    (l : List α) (ix ix'' : TransactionIndexes) :
    l.foldlM body ix = .ok ix'' ↔ (∀ a ∈ l, ok a) ∧ MovesBy move ix (.concat (l.map entries)) ix'' := by
  induction l generalizing ix with
  | nil =>
    have hpure : ([] : List α).foldlM body ix = .ok ix := rfl
    rw [hpure, Except.ok.injEq, map_nil, Entries.concat, foldr_nil, moves_nil, eq_comm]
    simp
  | cons a rest ih =>
    simp only [foldlM_cons, except_bind_ok, hbody, ih, map_cons, Entries.concat,
      foldr_cons, moves_append, forall_mem_cons]
    constructor
    · rintro ⟨ix', ⟨ha, h⟩, hrest, h'⟩
      exact ⟨⟨ha, hrest⟩, ix', h, h'⟩
    · rintro ⟨⟨ha, hrest⟩, ix', h, h'⟩
      exact ⟨ix', ⟨ha, h⟩, hrest, h'⟩

/-! ## The entries of a block -/

namespace IndexedBlock

def outputsAt (outputs : Map OutPoint OrderedUtxo) (l : List OutPoint) :
    List (OutPoint × OrderedUtxo) :=
  l.filterMap fun o => (outputs.lookup o).map (o, ·)

section

variable {H : Type} (rules : IndexRules H) (b : IndexedBlock)

def createdTransfers (l : List (OutPoint × OrderedUtxo)) : List (Address × Transfer) :=
  l.filterMap fun (o, utxo) => (rules.address utxo.output).map (·, .Created o utxo)

def spentTransfers (hash : TransactionHash) (l : List (OutPoint × OrderedUtxo)) :
    List (Address × Transfer) :=
  l.filterMap fun (o, utxo) => (rules.address utxo.output).map (·, .Spent o hash utxo)

def transfersOf (tx : Transaction) (hash : TransactionHash) : List (Address × Transfer) :=
  createdTransfers rules (outputsAt b.new_outputs (outpoints hash tx.outputs)) ++
    spentTransfers rules hash (outputsAt b.spent_outputs tx.spent_outpoints)

def entriesOf (index : Nat) (tx : Transaction) (hash : TransactionHash) : Entries where
  locations := [(hash, ⟨b.height, index⟩)]
  created := outputsAt b.new_outputs (outpoints hash tx.outputs)
  spent := tx.spent_outpoints.map (·, hash)
  sprout := tx.sprout_nullifiers.map (·, hash)
  sapling := tx.sapling_nullifiers.map (·, hash)
  orchard := tx.orchard_nullifiers.map (·, hash)
  transfers := b.transfersOf rules tx hash

def entriesFrom (b : IndexedBlock) (index : Nat) : List (Transaction × TransactionHash) → Entries
  | [] => .nil
  | (tx, hash) :: rest => (entriesOf rules b index tx hash).append (entriesFrom b (index + 1) rest)

def transactions (b : IndexedBlock) : List (Transaction × TransactionHash) :=
  b.block.transactions.zip b.transaction_hashes

def entries : Entries := entriesFrom rules b 0 b.transactions

def outputEntries (outputs : Map OutPoint OrderedUtxo) (o : OutPoint) : Entries :=
  { Entries.nil with
    created := outputsAt outputs [o]
    transfers := createdTransfers rules (outputsAt outputs [o]) }

def inputEntries (hash : TransactionHash) (outputs : Map OutPoint OrderedUtxo) (input : Input) :
    Entries :=
  { Entries.nil with
    spent := input.outpoint.toList.map (·, hash)
    transfers := spentTransfers rules hash (outputsAt outputs input.outpoint.toList) }

def locationEntries (index : Nat) (hash : TransactionHash) : Entries :=
  { Entries.nil with locations := [(hash, ⟨b.height, index⟩)] }

def nullifierEntries (tx : Transaction) (hash : TransactionHash) : Entries :=
  { Entries.nil with
    sprout := tx.sprout_nullifiers.map (·, hash)
    sapling := tx.sapling_nullifiers.map (·, hash)
    orchard := tx.orchard_nullifiers.map (·, hash) }

theorem concat_outputEntries (outputs : Map OutPoint OrderedUtxo) (l : List OutPoint) :
    Entries.concat (l.map (outputEntries rules outputs)) =
      { Entries.nil with
        created := outputsAt outputs l
        transfers := createdTransfers rules (outputsAt outputs l) } := by
  induction l with
  | nil => rfl
  | cons o rest ih =>
    have hat : outputsAt outputs (o :: rest) = outputsAt outputs [o] ++ outputsAt outputs rest :=
      filterMap_append (l := [o])
    rw [map_cons, Entries.concat, foldr_cons, ← Entries.concat, ih, hat]
    simp [Entries.append, Entries.nil, outputEntries, createdTransfers]

theorem concat_inputEntries (hash : TransactionHash) (outputs : Map OutPoint OrderedUtxo)
    (l : List Input) :
    Entries.concat (l.map (inputEntries rules hash outputs)) =
      { Entries.nil with
        spent := (l.filterMap Input.outpoint).map (·, hash)
        transfers := spentTransfers rules hash (outputsAt outputs (l.filterMap Input.outpoint)) } := by
  induction l with
  | nil => rfl
  | cons input rest ih =>
    have hsplit : (input :: rest).filterMap Input.outpoint =
        input.outpoint.toList ++ rest.filterMap Input.outpoint := by
      rw [filterMap_cons]
      cases input.outpoint <;> rfl
    rw [map_cons, Entries.concat, foldr_cons, ← Entries.concat, ih, hsplit]
    simp [Entries.append, Entries.nil, inputEntries, spentTransfers, outputsAt]

end

structure Complete (b : IndexedBlock) (p : Transaction × TransactionHash) : Prop where
  version : p.1.recent = true
  created : ∀ o ∈ outpoints p.2 p.1.outputs, o ∈ b.new_outputs
  spent : ∀ o ∈ p.1.spent_outpoints, o ∈ b.spent_outputs

end IndexedBlock

/-! ## Rounds of the loops -/

namespace TransactionIndexes

open IndexedBlock

variable {H : Type} {rules : IndexRules H} {ix ix' : TransactionIndexes} {move : IndexMove}
  {duplicate missing : Abort}
  {outputs : Map OutPoint OrderedUtxo} {o : OutPoint} {hash : TransactionHash} {input : Input}
  (utxo : OrderedUtxo)

theorem outputsAt_single {utxo : OrderedUtxo} (h : outputs.lookup o = some utxo) :
    outputsAt outputs [o] = [(o, utxo)] := by
  simp [outputsAt, h]

theorem createdTransfers_single : createdTransfers rules [(o, utxo)] =
      ((rules.address utxo.output).map (·, Transfer.Created o utxo)).toList := by
  cases h : rules.address utxo.output <;> simp [createdTransfers, h]

theorem spentTransfers_single : spentTransfers rules hash [(o, utxo)] =
      ((rules.address utxo.output).map (·, Transfer.Spent o hash utxo)).toList := by
  cases h : rules.address utxo.output <;> simp [spentTransfers, h]

-- Both sides say the same of each field once the new indexes are compared field by field.
theorem move_address_eq (m : AddressTransfers) (address : Option Address) (transfer : Transfer) :
    (address.map (·, transfer)).toList.foldlM (fun m e => move.transfer m e.1 e.2) m =
      move.move_address m address transfer := by
  cases address with
  | none => rfl
  | some address => exact bind_pure _

theorem move_output_ok : move_output rules outputs move duplicate ix o = .ok ix' ↔
    o ∈ outputs ∧ MovesBy move ix (outputEntries rules outputs o) ix' := by
  rw [← Finmap.lookup_isSome, move_output]
  cases hutxo : outputs.lookup o with
  | none => simp [orAbort, bind, Except.bind]
  | some utxo =>
    simp only [except_bind_ok, orAbort_ok, pure, Except.pure, Except.ok.injEq, TransactionIndexes.ext_iff, moves_iff,
      outputEntries, Entries.nil, outputsAt_single hutxo, createdTransfers_single, foldlM_cons, foldlM_nil,
      move_address_eq, Option.bind_eq_bind, bind_eq_some_iff, Option.some.injEq]
    grind

theorem move_input_ok : move_input rules hash outputs move duplicate missing ix input = .ok ix' ↔
    (∀ o ∈ input.outpoint, o ∈ outputs) ∧ MovesBy move ix (inputEntries rules hash outputs input) ix' := by
  unfold move_input
  cases hinput : input.outpoint with
  | none =>
    have hnil : inputEntries rules hash outputs input = .nil := by
      simp [inputEntries, hinput, Entries.nil, spentTransfers, outputsAt]
    rw [hnil, moves_nil]
    simp [eq_comm]
  | some o =>
    simp only [mem_some_iff, forall_eq', ← Finmap.lookup_isSome]
    cases hutxo : outputs.lookup o with
    | none => simp [except_bind_ok, orAbort_ok]
    | some utxo =>
      simp only [except_bind_ok, orAbort_ok, pure, Except.pure, Except.ok.injEq, TransactionIndexes.ext_iff,
        moves_iff, inputEntries, hinput, toList_some, map_cons, map_nil, Entries.nil, outputsAt_single hutxo,
        spentTransfers_single, foldlM_cons, foldlM_nil, move_address_eq, Option.bind_eq_bind, bind_eq_some_iff,
        Option.some.injEq]
      grind

end TransactionIndexes

/-! ## Transactions and blocks -/

variable {l : List Nullifier} {m m' : Map Nullifier SpendingTransactionId}

theorem add_to_non_finalized_chain_unique_ok {err : Nullifier → ValidateContextError}
    {id : SpendingTransactionId} :
    add_to_non_finalized_chain_unique err id m l = .ok (.ok m') ↔
      m.insertAll (l.map (·, id)) = some m' := by
  induction l generalizing m with
  | nil =>
    constructor
    · intro h
      cases h
      rfl
    · intro h
      cases h
      rfl
  | cons nullifier rest ih =>
    rw [add_to_non_finalized_chain_unique]
    change _ ↔ (m.insertNew nullifier id).bind (insertAll · (rest.map (·, id))) = some m'
    cases m.insertNew nullifier id with
    | none =>
      constructor
      · intro h
        cases h
      · intro h
        cases h
    | some m₁ => exact ih

theorem remove_from_non_finalized_chain_ok :
    remove_from_non_finalized_chain m l = .ok m' ↔ m.removeAll l = some m' := by
  induction l generalizing m with
  | nil => simp [remove_from_non_finalized_chain, Map.removeAll]
  | cons nullifier rest ih =>
    simp [remove_from_non_finalized_chain, except_bind_ok, orAbort_ok, ih, Map.removeAll,
      bind_eq_some_iff]

namespace TransactionIndexes

open IndexedBlock

variable {H : Type} {rules : IndexRules H} {b : IndexedBlock} {ix ix' : TransactionIndexes} {index : Nat}
  {move : IndexMove} {duplicate missing : Abort}
  {tx : Transaction} {hash : TransactionHash} {outs : List Output}
  {l : List (Transaction × TransactionHash)}

theorem check_version_ok {u : Unit} : check_version tx = .ok u ↔ tx.recent = true := by
  unfold check_version
  split <;> simp [*]

theorem move_outputs_ok : (outpoints hash outs).foldlM (move_output rules b.new_outputs move duplicate) ix = .ok ix' ↔
      (∀ o ∈ outpoints hash outs, o ∈ b.new_outputs) ∧
        MovesBy move ix (.concat ((outpoints hash outs).map (outputEntries rules b.new_outputs))) ix' := by
  refine foldlM_entries ?_ _ ix ix'
  exact fun _ _ _ => move_output_ok

theorem forall_inputs_iff {inputs : List Input} {outputs : Map OutPoint OrderedUtxo} :
    (∀ input ∈ inputs, ∀ o ∈ input.outpoint, o ∈ outputs) ↔
      ∀ o ∈ inputs.filterMap Input.outpoint, o ∈ outputs := by
  simp only [mem_filterMap]
  exact ⟨fun h o ⟨input, hinput, ho⟩ => h input hinput o ho, fun h input hinput o ho =>
    h o ⟨input, hinput, ho⟩⟩

theorem move_inputs_ok :
    tx.inputs.foldlM (move_input rules hash b.spent_outputs move duplicate missing) ix = .ok ix' ↔
      (∀ o ∈ tx.spent_outpoints, o ∈ b.spent_outputs) ∧
        MovesBy move ix (.concat (tx.inputs.map (inputEntries rules hash b.spent_outputs))) ix' := by
  rw [Transaction.spent_outpoints, ← forall_inputs_iff]
  refine foldlM_entries ?_ _ ix ix'
  exact fun _ _ _ => move_input_ok

/-- The location of a transaction is added before its outputs, and taken out after its inputs. -/
theorem entriesOf_eq :
    let created := Entries.concat ((outpoints hash tx.outputs).map (outputEntries rules b.new_outputs))
    let spent := Entries.concat (tx.inputs.map (inputEntries rules hash b.spent_outputs))
    let location := locationEntries b index hash
    entriesOf rules b index tx hash =
        location.append (created.append (spent.append (nullifierEntries tx hash))) ∧
      entriesOf rules b index tx hash =
        created.append (spent.append (location.append (nullifierEntries tx hash))) := by
  simp only [concat_outputEntries, concat_inputEntries]
  simp [entriesOf, transfersOf, Entries.append, Entries.nil, locationEntries, nullifierEntries,
    Transaction.spent_outpoints]

theorem adds_location : ix.Adds (locationEntries b index hash) ix' ↔
      ∃ m, ix.tx_loc_by_hash.insertNew hash ⟨b.height, index⟩ = some m ∧
        { ix with tx_loc_by_hash := m } = ix' := by
  simp only [moves_iff, locationEntries, Entries.nil, IndexMove.update, foldlM_cons, foldlM_nil, pure, Except.pure,
    Option.bind_eq_bind, bind_eq_some_iff, Option.some.injEq, Except.ok.injEq, TransactionIndexes.ext_iff]
  grind

theorem adds_nullifiers : ix.Adds (nullifierEntries tx hash) ix' ↔
      ∃ sprout, ix.sprout_nullifiers.insertAll (tx.sprout_nullifiers.map (·, hash)) = some sprout ∧
      ∃ sapling, ix.sapling_nullifiers.insertAll (tx.sapling_nullifiers.map (·, hash)) = some sapling ∧
      ∃ orchard, ix.orchard_nullifiers.insertAll (tx.orchard_nullifiers.map (·, hash)) = some orchard ∧
        { ix with sprout_nullifiers := sprout, sapling_nullifiers := sapling, orchard_nullifiers := orchard } =
          ix' := by
  simp only [moves_iff, nullifierEntries, Entries.nil, IndexMove.update, insertAll, foldlM_nil, pure, Except.pure,
    Option.some.injEq, Except.ok.injEq, TransactionIndexes.ext_iff]
  grind

theorem update_with_transaction_ok :
    update_with_transaction rules b ix index tx hash = .ok (.ok ix') ↔
      b.Complete (tx, hash) ∧ ix.Adds (entriesOf rules b index tx hash) ix' := by
  rw [entriesOf_eq.1]
  simp only [update_with_transaction, exceptT_bind_ok, liftAbort_ok, check_version_ok, orAbort_ok,
    update_with_outputs, update_with_output, move_outputs_ok, update_with_inputs, update_with_input, move_inputs_ok, add_to_non_finalized_chain_unique_ok, moves_append,
    adds_location, adds_nullifiers]
  constructor
  · rintro ⟨-, hversion, m, hm, ix₁, ⟨hcreated, h₁⟩, ix₂, ⟨hspent, h₂⟩, sprout, hsprout, sapling,
      hsapling, orchard, horchard, h⟩
    cases h
    exact ⟨⟨hversion, hcreated, hspent⟩, _, ⟨m, hm, rfl⟩, ix₁, h₁, ix₂, h₂, sprout, hsprout, sapling, hsapling,
      orchard, horchard, rfl⟩
  · rintro ⟨⟨hversion, hcreated, hspent⟩, _, ⟨m, hm, rfl⟩, ix₁, h₁, ix₂, h₂, sprout, hsprout, sapling, hsapling,
      orchard, horchard, rfl⟩
    exact ⟨(), hversion, m, hm, ix₁, ⟨hcreated, h₁⟩, ix₂, ⟨hspent, h₂⟩, sprout, hsprout, sapling, hsapling,
      orchard, horchard, rfl⟩

theorem update_with_transactions_ok : update_with_transactions rules b ix index l = .ok (.ok ix') ↔
      (∀ p ∈ l, b.Complete p) ∧ ix.Adds (entriesFrom rules b index l) ix' := by
  induction l generalizing ix index with
  | nil =>
    rw [entriesFrom, Adds, moves_nil]
    constructor
    · intro h
      cases h
      simp
    · rintro ⟨-, rfl⟩
      rfl
  | cons p rest ih =>
    obtain ⟨tx, hash⟩ := p
    simp only [update_with_transactions, exceptT_bind_ok, update_with_transaction_ok, ih, entriesFrom,
      moves_append, forall_mem_cons]
    constructor
    · rintro ⟨ix₁, ⟨hp, h₁⟩, hrest, h⟩
      exact ⟨⟨hp, hrest⟩, ix₁, h₁, h⟩
    · rintro ⟨⟨hp, hrest⟩, ix₁, h₁, h⟩
      exact ⟨ix₁, ⟨hp, h₁⟩, hrest, h⟩

theorem removes_rest :
    ix.Removes ((locationEntries b index hash).append (nullifierEntries tx hash)) ix' ↔
      ∃ locations, ix.tx_loc_by_hash.removeOld hash = some locations ∧
      ∃ sprout, ix.sprout_nullifiers.removeAll tx.sprout_nullifiers = some sprout ∧
      ∃ sapling, ix.sapling_nullifiers.removeAll tx.sapling_nullifiers = some sapling ∧
      ∃ orchard, ix.orchard_nullifiers.removeAll tx.orchard_nullifiers = some orchard ∧
        { ix with tx_loc_by_hash := locations, sprout_nullifiers := sprout, sapling_nullifiers := sapling,
                  orchard_nullifiers := orchard } = ix' := by
  simp only [moves_iff, Entries.append, locationEntries, nullifierEntries, Entries.nil, append_nil, nil_append,
    IndexMove.revert, Map.removeAll, foldlM_map, foldlM_cons, foldlM_nil, pure, Except.pure, Option.bind_eq_bind,
    bind_eq_some_iff, Option.some.injEq, Except.ok.injEq, TransactionIndexes.ext_iff]
  grind

theorem revert_transaction_ok (index : Nat) : revert_transaction rules b ix tx hash = .ok ix' ↔
      b.Complete (tx, hash) ∧ ix.Removes (entriesOf rules b index tx hash) ix' := by
  rw [entriesOf_eq.2]
  simp only [revert_transaction, except_bind_ok, check_version_ok, orAbort_ok, revert_outputs, revert_output,
    move_outputs_ok, revert_inputs, revert_input, move_inputs_ok, remove_from_non_finalized_chain_ok]
  rw [Removes, moves_append]
  simp only [moves_append (e := Entries.concat _), removes_rest]
  constructor
  · rintro ⟨-, hversion, ix₁, ⟨hcreated, h₁⟩, ix₂, ⟨hspent, h₂⟩, hrest⟩
    simp only [pure, Except.pure, Except.ok.injEq] at hrest
    exact ⟨⟨hversion, hcreated, hspent⟩, ix₁, h₁, ix₂, h₂, hrest⟩
  · rintro ⟨⟨hversion, hcreated, hspent⟩, ix₁, h₁, ix₂, h₂, hrest⟩
    simp only [pure, Except.pure, Except.ok.injEq]
    exact ⟨(), hversion, ix₁, ⟨hcreated, h₁⟩, ix₂, ⟨hspent, h₂⟩, hrest⟩

theorem revert_transactions_ok (index : Nat) : revert_transactions rules b ix l = .ok ix' ↔
      (∀ p ∈ l, b.Complete p) ∧ ix.Removes (entriesFrom rules b index l) ix' := by
  induction l generalizing ix index with
  | nil =>
    rw [entriesFrom, Removes, moves_nil, revert_transactions]
    simp [eq_comm]
  | cons p rest ih =>
    obtain ⟨tx, hash⟩ := p
    simp only [revert_transactions, except_bind_ok, revert_transaction_ok index,
      ih (index + 1), entriesFrom, moves_append, forall_mem_cons]
    constructor
    · rintro ⟨ix₁, ⟨hp, h₁⟩, hrest, h⟩
      exact ⟨⟨hp, hrest⟩, ix₁, h₁, h⟩
    · rintro ⟨⟨hp, hrest⟩, ix₁, h₁, h⟩
      exact ⟨ix₁, ⟨hp, h₁⟩, hrest, h⟩

end TransactionIndexes

end ZebraCrosslink
