import Mathlib
import ZebraCrosslink.Chain.Transaction
import ZebraCrosslink.Rust.Map

/-!
# Transparent address indexes

`Applied` says what an index holds after some transfers, without the order in which the balance
moved.
-/

open Rust Map List

namespace ZebraCrosslink

inductive Address
  | PayToScriptHash (script_hash : Bytes 20)
  | PayToPublicKeyHash (pub_key_hash : Bytes 20)
  deriving DecidableEq

structure OrderedUtxo where
  output : Output
  height : Nat
  from_coinbase : Bool
  tx_index_in_block : Nat
  deriving DecidableEq

structure TransactionLocation where
  height : Nat
  index : Nat
  deriving DecidableEq

structure OutputLocation where
  transaction_location : TransactionLocation
  output_index : UInt32
  deriving DecidableEq

def transaction_location (ordered_utxo : OrderedUtxo) : TransactionLocation :=
  ⟨ordered_utxo.height, ordered_utxo.tx_index_in_block⟩

def OutputLocation.from_outpoint (transaction_location : TransactionLocation)
    (outpoint : OutPoint) : OutputLocation :=
  ⟨transaction_location, outpoint.index⟩

inductive Transfer
  | Created (outpoint : OutPoint) (created_utxo : OrderedUtxo)
  | Spent (spent_outpoint : OutPoint) (spending_tx_hash : TransactionHash)
      (spent_output : OrderedUtxo)
  deriving DecidableEq

structure TransparentTransfers where
  balance : Amount .NegativeAllowed
  tx_ids : Multiset TransactionHash
  created_utxos : Map OutputLocation Output
  spent_utxos : Map OutputLocation Unit
  deriving DecidableEq

namespace TransparentTransfers

def default : TransparentTransfers := ⟨.zero, 0, ∅, ∅⟩

variable (t : TransparentTransfers)

def is_empty : Bool :=
  t.balance = .zero ∧ t.tx_ids = 0 ∧ t.created_utxos = ∅ ∧ t.spent_utxos = ∅

def update_chain_tip_with : Transfer → Except Abort TransparentTransfers
  | .Created outpoint created_utxo => do
    let balance ← orAbort (t.balance.add created_utxo.output.value.to_negative_allowed).toOption
      (.expect "total UTXO value has already been checked")
    let output_location := OutputLocation.from_outpoint (transaction_location created_utxo) outpoint
    let created_utxos ← orAbort (t.created_utxos.insertNew output_location created_utxo.output)
      (.assert "unexpected created output: duplicate update or duplicate UTXO")
    pure { t with balance, created_utxos, tx_ids := outpoint.hash ::ₘ t.tx_ids }
  | .Spent spent_outpoint spending_tx_hash spent_output => do
    let balance ← orAbort (t.balance.sub spent_output.output.value.to_negative_allowed).toOption
      (.expect "total UTXO value has already been checked")
    let output_location :=
      OutputLocation.from_outpoint (transaction_location spent_output) spent_outpoint
    let spent_utxos ← orAbort (t.spent_utxos.insertNew output_location ())
      (.assert "unexpected spent output: duplicate update or duplicate spend")
    pure { t with balance, spent_utxos, tx_ids := spending_tx_hash ::ₘ t.tx_ids }

def removeTxId (tx_id : TransactionHash) : Option TransparentTransfers :=
  if tx_id ∈ t.tx_ids then some { t with tx_ids := t.tx_ids.erase tx_id } else none

def revert_chain_with : Transfer → Except Abort TransparentTransfers
  | .Created outpoint created_utxo => do
    let balance ← orAbort (t.balance.sub created_utxo.output.value.to_negative_allowed).toOption
      (.expect "reversing previous balance changes is always valid")
    let output_location := OutputLocation.from_outpoint (transaction_location created_utxo) outpoint
    let created_utxos ← orAbort (t.created_utxos.removeOld output_location)
      (.assert "unexpected revert of created output: duplicate update or duplicate UTXO")
    orAbort (removeTxId { t with balance, created_utxos } outpoint.hash)
      (.assert "unexpected revert of created output transaction: duplicate revert, or revert of an output that was never updated")
  | .Spent spent_outpoint spending_tx_hash spent_output => do
    let balance ← orAbort (t.balance.add spent_output.output.value.to_negative_allowed).toOption
      (.expect "reversing previous balance changes is always valid")
    let output_location :=
      OutputLocation.from_outpoint (transaction_location spent_output) spent_outpoint
    let spent_utxos ← orAbort (t.spent_utxos.removeOld output_location)
      (.assert "unexpected revert of spent output: duplicate revert, or revert of a spent output that was never updated")
    orAbort (removeTxId { t with balance, spent_utxos } spending_tx_hash)
      (.assert "unexpected revert of spending input transaction: duplicate revert, or revert of an input that was never updated")

end TransparentTransfers

open TransparentTransfers

/-! ## What an index holds after some transfers -/

namespace Transfer

def delta : Transfer → Int
  | Created _ created_utxo => created_utxo.output.value.zatoshis
  | Spent _ _ spent_output => -spent_output.output.value.zatoshis

@[simp] theorem delta_created (outpoint : OutPoint) (utxo : OrderedUtxo) :
    (Created outpoint utxo).delta = utxo.output.value.zatoshis := rfl

@[simp] theorem delta_spent (outpoint : OutPoint) (tx_hash : TransactionHash) (utxo : OrderedUtxo) :
    (Spent outpoint tx_hash utxo).delta = -utxo.output.value.zatoshis := rfl

def tx_id : Transfer → TransactionHash
  | Created outpoint _ => outpoint.hash
  | Spent _ spending_tx_hash _ => spending_tx_hash

def created? : Transfer → Option (OutputLocation × Output)
  | Created outpoint utxo =>
    some (.from_outpoint (transaction_location utxo) outpoint, utxo.output)
  | Spent _ _ _ => none

def spent? : Transfer → Option (OutputLocation × Unit)
  | Created _ _ => none
  | Spent outpoint _ utxo => some (.from_outpoint (transaction_location utxo) outpoint, ())

end Transfer

open Transfer

namespace TransparentTransfers

variable {t t' t'' : TransparentTransfers} {tr : Transfer} {l l' : List Transfer}

theorem is_empty_iff : t.is_empty = true ↔ t = default := by
  obtain ⟨balance, tx_ids, created_utxos, spent_utxos⟩ := t
  simp [is_empty, default]

/-- The index `t'` is `t` with the transfers `l`. -/
structure Applied (t : TransparentTransfers) (l : List Transfer) (t' : TransparentTransfers) :
    Prop where
  balance : t'.balance.zatoshis = t.balance.zatoshis + (l.map (·.delta)).sum
  tx_ids : t'.tx_ids = (l.map (·.tx_id) : List TransactionHash) + t.tx_ids
  created : t.created_utxos.insertAll (l.filterMap (·.created?)) = some t'.created_utxos
  spent : t.spent_utxos.insertAll (l.filterMap (·.spent?)) = some t'.spent_utxos

theorem Applied.append_iff (h : t.Applied l t') : t.Applied (l ++ l') t'' ↔ t'.Applied l' t'' := by
  have hb : t.balance.zatoshis + ((l ++ l').map (·.delta)).sum =
      t'.balance.zatoshis + (l'.map (·.delta)).sum := by
    rw [h.balance, map_append, sum_append, add_assoc]
  have ht : ((l ++ l').map (·.tx_id) : List TransactionHash) + t.tx_ids =
      (l'.map (·.tx_id) : List TransactionHash) + t'.tx_ids := by
    rw [h.tx_ids, map_append, ← Multiset.coe_add, add_comm (Multiset.ofList _), add_assoc]
  have hc : t.created_utxos.insertAll ((l ++ l').filterMap (·.created?)) =
      t'.created_utxos.insertAll (l'.filterMap (·.created?)) := by
    rw [filterMap_append, insertAll_append, h.created]
    rfl
  have hs : t.spent_utxos.insertAll ((l ++ l').filterMap (·.spent?)) =
      t'.spent_utxos.insertAll (l'.filterMap (·.spent?)) := by
    rw [filterMap_append, insertAll_append, h.spent]
    rfl
  constructor
  · intro h'
    exact ⟨h'.balance.trans hb, h'.tx_ids.trans ht, hc.symm.trans h'.created, hs.symm.trans h'.spent⟩
  · intro h'
    exact ⟨h'.balance.trans hb.symm, h'.tx_ids.trans ht.symm, hc.trans h'.created, hs.trans h'.spent⟩

theorem applied_nil : t.Applied [] t' ↔ t' = t := by
  constructor
  · rintro ⟨hb, ht, hc, hs⟩
    obtain ⟨balance, tx_ids, created_utxos, spent_utxos⟩ := t
    obtain ⟨balance', tx_ids', created_utxos', spent_utxos'⟩ := t'
    cases hc
    cases hs
    simp only [map_nil, sum_nil, add_zero, Multiset.coe_nil, zero_add] at hb ht
    rw [ht, Amount.ext hb]
  · rintro rfl
    exact ⟨by simp, by simp, rfl, rfl⟩

theorem Applied.unique (h : t.Applied l t') (h' : t.Applied l t'') : t' = t'' := by
  obtain ⟨balance, tx_ids, created_utxos, spent_utxos⟩ := t'
  obtain ⟨balance', tx_ids', created_utxos', spent_utxos'⟩ := t''
  have hb : balance = balance' := Amount.ext (h.balance.trans h'.balance.symm)
  have ht : tx_ids = tx_ids' := h.tx_ids.trans h'.tx_ids.symm
  have hc : created_utxos = created_utxos' := Option.some.inj (h.created.symm.trans h'.created)
  have hs : spent_utxos = spent_utxos' := Option.some.inj (h.spent.symm.trans h'.spent)
  rw [hb, ht, hc, hs]

theorem applied_of_update (h : t.update_chain_tip_with tr = .ok t') : t.Applied [tr] t' := by
  cases tr with
  | Created outpoint utxo =>
    simp only [update_chain_tip_with, except_bind_ok, orAbort_ok, toOption_eq_some, Amount.add_eq_ok,
      insertNew_eq_some] at h
    obtain ⟨balance, hb, created_utxos, ⟨hnew, rfl⟩, h⟩ := h
    cases h
    exact ⟨by simpa using hb, rfl, insertAll_cons.mpr ⟨hnew, rfl⟩, rfl⟩
  | Spent outpoint tx_hash utxo =>
    simp only [update_chain_tip_with, except_bind_ok, orAbort_ok, toOption_eq_some, Amount.sub_eq_ok,
      insertNew_eq_some] at h
    obtain ⟨balance, hb, spent_utxos, ⟨hnew, rfl⟩, h⟩ := h
    cases h
    exact ⟨by simpa [sub_eq_add_neg] using hb, rfl, rfl, insertAll_cons.mpr ⟨hnew, rfl⟩⟩

theorem update_of_applied (h : t.Applied [tr] t') : t.update_chain_tip_with tr = .ok t' := by
  obtain ⟨t₁, h₁⟩ : ∃ t₁, t.update_chain_tip_with tr = .ok t₁ := by
    cases tr with
    | Created outpoint utxo =>
      simp only [update_chain_tip_with, except_bind_ok, orAbort_ok, toOption_eq_some,
        Amount.add_eq_ok, insertNew_eq_some]
      exact ⟨_, t'.balance, by simpa using h.balance, _,
        ⟨(insertAll_cons.mp h.created).1, rfl⟩, rfl⟩
    | Spent outpoint tx_hash utxo =>
      simp only [update_chain_tip_with, except_bind_ok, orAbort_ok, toOption_eq_some,
        Amount.sub_eq_ok, insertNew_eq_some]
      exact ⟨_, t'.balance, by simpa [sub_eq_add_neg] using h.balance, _,
        ⟨(insertAll_cons.mp h.spent).1, rfl⟩, rfl⟩
  rw [h₁, (applied_of_update h₁).unique h]

theorem applied_of_revert (h : t.Applied (tr :: l) t') (hr : t'.revert_chain_with tr = .ok t'') :
    t.Applied l t'' := by
  cases tr with
  | Created outpoint utxo =>
    simp only [revert_chain_with, removeTxId, except_bind_ok, orAbort_ok, toOption_eq_some,
      Amount.sub_eq_ok, removeOld_eq_some, Option.ite_none_right_eq_some, Option.some.injEq] at hr
    obtain ⟨balance, hb, created_utxos, ⟨-, rfl⟩, -, rfl⟩ := hr
    obtain ⟨hnew, hc⟩ := insertAll_cons.mp h.created
    refine ⟨?_, ?_, insertAll_erase hnew hc, h.spent⟩
    · have := h.balance
      simp only [map_cons, sum_cons, delta_created,
        Amount.to_negative_allowed_zatoshis] at this hb ⊢
      omega
    · simp [h.tx_ids, ← Multiset.cons_coe, tx_id]
  | Spent outpoint tx_hash utxo =>
    simp only [revert_chain_with, removeTxId, except_bind_ok, orAbort_ok, toOption_eq_some,
      Amount.add_eq_ok, removeOld_eq_some, Option.ite_none_right_eq_some, Option.some.injEq] at hr
    obtain ⟨balance, hb, spent_utxos, ⟨-, rfl⟩, -, rfl⟩ := hr
    obtain ⟨hnew, hs⟩ := insertAll_cons.mp h.spent
    refine ⟨?_, ?_, h.created, insertAll_erase hnew hs⟩
    · have := h.balance
      simp only [map_cons, sum_cons, delta_spent, Amount.to_negative_allowed_zatoshis] at this hb ⊢
      omega
    · simp [h.tx_ids, ← Multiset.cons_coe, tx_id]

theorem revert_of_applied (h : t.Applied (tr :: l) t') (h' : t.Applied l t'') :
    t'.revert_chain_with tr = .ok t'' := by
  obtain ⟨t₁, h₁⟩ : ∃ t₁, t'.revert_chain_with tr = .ok t₁ := by
    have hb := h.balance
    have hb' := h'.balance
    have ht : tr.tx_id ∈ t'.tx_ids := by simp [h.tx_ids]
    simp only [map_cons, sum_cons] at hb
    cases tr with
    | Created outpoint utxo =>
      obtain ⟨hnew, hc⟩ := insertAll_cons.mp h.created
      simp only [revert_chain_with, removeTxId, except_bind_ok, orAbort_ok, toOption_eq_some,
        Amount.sub_eq_ok, removeOld_eq_some, Option.ite_none_right_eq_some]
      refine ⟨_, t''.balance, ?_, _, ⟨mem_of_insertAll hc ?_, rfl⟩, ht, rfl⟩
      · simp only [delta_created, Amount.to_negative_allowed_zatoshis] at hb ⊢
        omega
      · exact Finmap.mem_insert.mpr (.inl rfl)
    | Spent outpoint tx_hash utxo =>
      obtain ⟨hnew, hs⟩ := insertAll_cons.mp h.spent
      simp only [revert_chain_with, removeTxId, except_bind_ok, orAbort_ok, toOption_eq_some,
        Amount.add_eq_ok, removeOld_eq_some, Option.ite_none_right_eq_some]
      refine ⟨_, t''.balance, ?_, _, ⟨mem_of_insertAll hs ?_, rfl⟩, ht, rfl⟩
      · simp only [delta_spent, Amount.to_negative_allowed_zatoshis] at hb ⊢
        omega
      · exact Finmap.mem_insert.mpr (.inl rfl)
  rw [h₁, (applied_of_revert h h₁).unique h']

theorem Applied.take (h : t.Applied (l ++ l') t')
    (hrange : Constraint.NegativeAllowed.Holds (t.balance.zatoshis + (l.map (·.delta)).sum)) :
    ∃ t₁, t.Applied l t₁ := by
  have hc := h.created
  have hs := h.spent
  rw [filterMap_append, insertAll_append, Option.bind_eq_some_iff] at hc hs
  obtain ⟨created_utxos, hc, -⟩ := hc
  obtain ⟨spent_utxos, hs, -⟩ := hs
  exact ⟨⟨⟨_, hrange⟩, _, created_utxos, spent_utxos⟩, rfl, rfl, hc, hs⟩

theorem Applied.tail (h : t.Applied (tr :: l) t')
    (hrange : Constraint.NegativeAllowed.Holds (t.balance.zatoshis + (l.map (·.delta)).sum)) :
    ∃ t₁, t.Applied l t₁ := by
  have hsplit : tr :: l = [tr] ++ l := rfl
  have hc := h.created
  have hs := h.spent
  rw [hsplit, filterMap_append] at hc hs
  obtain ⟨created_utxos, -, hc⟩ := removeAll_insertAll hc
  obtain ⟨spent_utxos, -, hs⟩ := removeAll_insertAll hs
  exact ⟨⟨⟨_, hrange⟩, _, created_utxos, spent_utxos⟩, rfl, rfl, hc, hs⟩

theorem Applied.is_empty_eq_false (h : t.Applied (tr :: l) t') : t'.is_empty = false := by
  rw [Bool.eq_false_iff, Ne, is_empty_iff]
  rintro rfl
  have ht := h.tx_ids
  rw [map_cons, ← Multiset.cons_coe, Multiset.cons_add] at ht
  exact Multiset.cons_ne_zero ht.symm

end TransparentTransfers

/-! ## The indexes of all addresses -/

abbrev AddressTransfers : Type := Map Address TransparentTransfers

namespace AddressTransfers

def update (m : AddressTransfers) (address : Address) (transfer : Transfer) :
    Except Abort AddressTransfers := do
  let address_transfers := (m.lookup address).getD .default
  let address_transfers ← address_transfers.update_chain_tip_with transfer
  pure (m.insert address address_transfers)

def revert (m : AddressTransfers) (address : Address) (transfer : Transfer) :
    Except Abort AddressTransfers := do
  let address_transfers ← orAbort (m.lookup address)
    (.expect "block has previously been applied to the chain")
  let address_transfers ← address_transfers.revert_chain_with transfer
  pure (if address_transfers.is_empty then m.erase address else m.insert address address_transfers)

def of (m : AddressTransfers) (address : Address) : TransparentTransfers :=
  (m.lookup address).getD .default

def Tidy (m : AddressTransfers) : Prop := ∀ a t, m.lookup a = some t → t.is_empty = false

variable {m m' m'' : AddressTransfers} {a : Address} {tr : Transfer} {l l' : List (Address × Transfer)}
  {e : Address × Transfer}

theorem tidy_empty : Tidy ∅ := by
  intro a t h
  cases h

theorem Tidy.lookup (h : Tidy m) (a : Address) :
    m.lookup a = if (of m a).is_empty then none else some (of m a) := by
  unfold of
  cases hm : Finmap.lookup a m with
  | none => rfl
  | some t => simp [h a t hm]

theorem Tidy.ext (h : Tidy m) (h' : Tidy m') (heq : ∀ a, of m a = of m' a) : m = m' := by
  refine Finmap.ext_lookup fun a => ?_
  rw [h.lookup, h'.lookup, heq]

def put (m : AddressTransfers) (a : Address) (t : TransparentTransfers) : AddressTransfers :=
  if t.is_empty then m.erase a else m.insert a t

theorem lookup_put (m : AddressTransfers) (a b : Address) (t : TransparentTransfers) :
    (put m a t).lookup b = if b = a then (if t.is_empty then none else some t) else m.lookup b := by
  unfold put
  split <;> simp [lookup_erase', lookup_insert', *]

theorem of_put (m : AddressTransfers) (a b : Address) (t : TransparentTransfers) :
    of (put m a t) b = if b = a then t else of m b := by
  rw [of, lookup_put]
  by_cases hb : b = a
  · simp only [if_pos hb]
    split
    · next h => exact (is_empty_iff.mp h).symm
    · rfl
  · simp only [if_neg hb]
    rfl

theorem Tidy.put (h : Tidy m) (a : Address) (t : TransparentTransfers) : Tidy (put m a t) := by
  intro b t' hb
  rw [lookup_put] at hb
  split at hb
  · split at hb
    · cases hb
    · next hempty =>
      cases hb
      exact Bool.eq_false_iff.mpr hempty
  · exact h b t' hb

theorem update_ok : update m a tr = .ok m' ↔ ∃ t, (of m a).Applied [tr] t ∧ m' = put m a t := by
  simp only [update, except_bind_ok]
  constructor
  · rintro ⟨t, ht, h⟩
    have happlied := applied_of_update ht
    cases h
    exact ⟨t, happlied, by rw [put, happlied.is_empty_eq_false]; rfl⟩
  · rintro ⟨t, ht, rfl⟩
    exact ⟨t, update_of_applied ht, by rw [put, ht.is_empty_eq_false]; rfl⟩

theorem revert_ok (htidy : Tidy m') {l : List Transfer} (h : (of m a).Applied (tr :: l) (of m' a)) :
    revert m' a tr = .ok m'' ↔ ∃ t, (of m a).Applied l t ∧ m'' = put m' a t := by
  have hlookup : m'.lookup a = some (of m' a) := by
    rw [htidy.lookup, h.is_empty_eq_false]
    rfl
  simp only [revert, except_bind_ok, orAbort_ok, hlookup, Option.some.injEq, exists_eq_left']
  constructor
  · rintro ⟨t, ht, hput⟩
    exact ⟨t, applied_of_revert h ht, (Except.ok.inj hput).symm⟩
  · rintro ⟨t, ht, rfl⟩
    exact ⟨t, revert_of_applied h ht, rfl⟩

/-! ### Sequences of transfers -/

def update_all : AddressTransfers → List (Address × Transfer) → Except Abort AddressTransfers :=
  foldlM fun m e => update m e.1 e.2

def revert_all : AddressTransfers → List (Address × Transfer) → Except Abort AddressTransfers :=
  foldlM fun m e => revert m e.1 e.2

theorem update_all_nil (m : AddressTransfers) : update_all m [] = .ok m := rfl

theorem revert_all_nil (m : AddressTransfers) : revert_all m [] = .ok m := rfl

theorem Tidy.revert_all (h : Tidy m) {l : List (Address × Transfer)}
    (hr : AddressTransfers.revert_all m l = .ok m') : Tidy m' := by
  induction l generalizing m with
  | nil =>
    cases hr
    exact h
  | cons e rest ih =>
    simp only [AddressTransfers.revert_all, foldlM_cons, revert, except_bind_ok] at hr
    obtain ⟨_, ⟨_, -, t, -, hput⟩, hr⟩ := hr
    cases hput
    exact ih (h.put e.1 t) hr

def transfersOf (l : List (Address × Transfer)) (a : Address) : List Transfer :=
  l.filterMap fun e => if e.1 = a then some e.2 else none

def balanceAfter (m : AddressTransfers) (l : List (Address × Transfer)) (a : Address) : Int :=
  (of m a).balance.zatoshis + ((transfersOf l a).map (·.delta)).sum

def InRange (m : AddressTransfers) (l : List (Address × Transfer)) : Prop :=
  ∀ a, Constraint.NegativeAllowed.Holds (balanceAfter m l a)

/-- The indexes `m'` are `m` with the transfers `l`. -/
structure Applied (m : AddressTransfers) (l : List (Address × Transfer)) (m' : AddressTransfers) :
    Prop where
  tidy : Tidy m'
  of : ∀ a, (of m a).Applied (transfersOf l a) (of m' a)

theorem transfersOf_append (l l' : List (Address × Transfer)) (a : Address) :
    transfersOf (l ++ l') a = transfersOf l a ++ transfersOf l' a :=
  filterMap_append

theorem Applied.unique (h : Applied m l m') (h' : Applied m l m'') : m' = m'' :=
  h.tidy.ext h'.tidy fun a => (h.of a).unique (h'.of a)

theorem Applied.append_iff (h : Applied m l m') : Applied m (l ++ l') m'' ↔ Applied m' l' m'' := by
  constructor
  · rintro ⟨htidy, h'⟩
    exact ⟨htidy, fun a => (h.of a).append_iff.mp (transfersOf_append l l' a ▸ h' a)⟩
  · rintro ⟨htidy, h'⟩
    exact ⟨htidy, fun a => transfersOf_append l l' a ▸ (h.of a).append_iff.mpr (h' a)⟩

theorem Applied.inRange (h : Applied m l m') : InRange m l := by
  intro a
  have := (h.of a).balance
  rw [balanceAfter, ← this]
  exact (AddressTransfers.of m' a).balance.valid

theorem Applied.balanceAfter (h : Applied m l m') (a : Address) :
    balanceAfter m' l' a = balanceAfter m (l ++ l') a := by
  unfold AddressTransfers.balanceAfter
  rw [(h.of a).balance, transfersOf_append, map_append, sum_append, add_assoc]

theorem applied_nil (htidy : Tidy m) : Applied m [] m' ↔ m' = m := by
  constructor
  · intro h
    exact h.tidy.ext htidy fun a => TransparentTransfers.applied_nil.mp (h.of a)
  · rintro rfl
    exact ⟨htidy, fun a => applied_nil.mpr rfl⟩

theorem applied_single (htidy : Tidy m) :
    Applied m [(a, tr)] m' ↔ ∃ t, (of m a).Applied [tr] t ∧ m' = put m a t := by
  have hother : ∀ b, b ≠ a → transfersOf [(a, tr)] b = [] := fun b hb => by
    simp [transfersOf, Ne.symm hb]
  have hself : transfersOf [(a, tr)] a = [tr] := by simp [transfersOf]
  constructor
  · intro h
    have ha := h.of a
    rw [hself] at ha
    refine ⟨_, ha, h.tidy.ext (htidy.put a _) fun b => ?_⟩
    rw [of_put]
    split
    · next hb => rw [hb]
    · next hb =>
      have := h.of b
      rwa [hother b hb, TransparentTransfers.applied_nil] at this
  · rintro ⟨t, ht, rfl⟩
    refine ⟨htidy.put a t, fun b => ?_⟩
    rw [of_put]
    split
    · next hb => rwa [hb, hself]
    · next hb => exact hother b hb ▸ TransparentTransfers.applied_nil.mpr rfl

/-- Every balance is in range after each part of the list that ends with `l'`. -/
def SuffixesInRange (m : AddressTransfers) (l l' : List (Address × Transfer)) : Prop :=
  ∀ l₁ l₂, l = l₁ ++ l₂ → InRange m (l₂ ++ l')

def PrefixesInRange (m : AddressTransfers) (l : List (Address × Transfer)) : Prop :=
  ∀ l₁ l₂, l = l₁ ++ l₂ → InRange m l₁

theorem inRange_nil (m : AddressTransfers) : InRange m [] := by
  intro a
  simpa [balanceAfter, transfersOf] using (of m a).balance.valid

theorem Applied.inRange_iff (h : Applied m l m') : InRange m' l' ↔ InRange m (l ++ l') := by
  simp [InRange, h.balanceAfter]

theorem prefixesInRange_cons (h : Applied m [e] m') :
    PrefixesInRange m (e :: l) ↔ PrefixesInRange m' l := by
  constructor
  · rintro hprefixes l₁ l₂ rfl
    exact h.inRange_iff.mpr (hprefixes (e :: l₁) l₂ rfl)
  · intro hprefixes l₁ l₂ heq
    cases l₁ with
    | nil => exact inRange_nil m
    | cons e' l₁ =>
      obtain ⟨rfl, rfl⟩ := cons.inj heq
      exact h.inRange_iff.mp (hprefixes l₁ l₂ rfl)

theorem suffixesInRange_cons :
    SuffixesInRange m (e :: l) l' ↔ InRange m (e :: l ++ l') ∧ SuffixesInRange m l l' := by
  constructor
  · intro h
    refine ⟨h [] (e :: l) rfl, ?_⟩
    rintro l₁ l₂ rfl
    exact h (e :: l₁) l₂ rfl
  · rintro ⟨hall, h⟩ l₁ l₂ heq
    cases l₁ with
    | nil =>
      obtain rfl : e :: l = l₂ := heq
      exact hall
    | cons e' l₁ =>
      obtain ⟨rfl, rfl⟩ := cons.inj heq
      exact h l₁ l₂ rfl

theorem SuffixesInRange.inRange (h : SuffixesInRange m l l') : InRange m (l ++ l') := h [] l rfl

theorem Applied.first (h : Applied m ((a, tr) :: l') m')
    (hprefixes : PrefixesInRange m ((a, tr) :: l)) :
    ∃ t, (AddressTransfers.of m a).Applied [tr] t := by
  have hsplit : transfersOf ((a, tr) :: l') a = [tr] ++ transfersOf l' a := by
    simp [transfersOf]
  refine Applied.take (hsplit ▸ h.of a) ?_
  have := hprefixes [(a, tr)] l rfl a
  simpa [AddressTransfers.balanceAfter, transfersOf] using this

theorem update_all_ok (htidy : Tidy m) :
    update_all m l = .ok m' ↔ Applied m l m' ∧ PrefixesInRange m l := by
  induction l generalizing m with
  | nil =>
    rw [applied_nil htidy, update_all_nil, Except.ok.injEq, eq_comm]
    refine ⟨fun h => ⟨h, fun l₁ l₂ heq => ?_⟩, And.left⟩
    rw [(append_eq_nil_iff.mp heq.symm).1]
    exact inRange_nil m
  | cons e rest ih =>
    obtain ⟨a, tr⟩ := e
    simp only [update_all, foldlM_cons, except_bind_ok, update_ok, ← applied_single htidy]
    constructor
    · rintro ⟨m₁, h₁, hrest⟩
      have hrest := (ih h₁.tidy).mp hrest
      exact ⟨h₁.append_iff.mpr hrest.1, (prefixesInRange_cons h₁).mpr hrest.2⟩
    · rintro ⟨h, hprefixes⟩
      obtain ⟨t, ht⟩ := h.first hprefixes
      have h₁ : Applied m [(a, tr)] (put m a t) := (applied_single htidy).mpr ⟨t, ht, rfl⟩
      refine ⟨_, h₁, (ih h₁.tidy).mpr ?_⟩
      exact ⟨h₁.append_iff.mp h, (prefixesInRange_cons h₁).mp hprefixes⟩

theorem transfersOf_cons_self (a : Address) (tr : Transfer) (l : List (Address × Transfer)) :
    transfersOf ((a, tr) :: l) a = tr :: transfersOf l a := by simp [transfersOf]

theorem Applied.put_tail (h : Applied m ((a, tr) :: l) m') {t : TransparentTransfers}
    (ht : (AddressTransfers.of m a).Applied (transfersOf l a) t) : Applied m l (put m' a t) := by
  refine ⟨h.tidy.put a t, fun b => ?_⟩
  rw [of_put]
  split
  · next hb => rwa [hb]
  · next hb =>
    have hother : transfersOf ((a, tr) :: l) b = transfersOf l b := by simp [transfersOf, Ne.symm hb]
    exact hother ▸ h.of b

theorem Applied.tail (h : Applied m ((a, tr) :: l) m') (hrange : InRange m l) :
    ∃ t, (AddressTransfers.of m a).Applied (transfersOf l a) t :=
  TransparentTransfers.Applied.tail (transfersOf_cons_self a tr l ▸ h.of a) (hrange a)

theorem revert_all_ok (h : Applied m (l ++ l') m') :
    revert_all m' l = .ok m'' ↔ Applied m l' m'' ∧ SuffixesInRange m l l' := by
  induction l generalizing m' with
  | nil =>
    rw [revert_all_nil, Except.ok.injEq]
    constructor
    · rintro rfl
      refine ⟨h, fun l₁ l₂ heq => ?_⟩
      rw [(append_eq_nil_iff.mp heq.symm).2]
      exact h.inRange
    · rintro ⟨h', -⟩
      exact h.unique h'
  | cons e rest ih =>
    obtain ⟨a, tr⟩ := e
    have ha := h.of a
    rw [cons_append, transfersOf_cons_self] at ha
    simp only [revert_all, foldlM_cons, except_bind_ok, revert_ok h.tidy ha, suffixesInRange_cons]
    constructor
    · rintro ⟨m₁, ⟨t, ht, rfl⟩, hrest⟩
      obtain ⟨h', hsuffixes⟩ := (ih (Applied.put_tail h ht)).mp hrest
      exact ⟨h', h.inRange, hsuffixes⟩
    · rintro ⟨h', -, hsuffixes⟩
      obtain ⟨t, ht⟩ := Applied.tail h hsuffixes.inRange
      exact ⟨_, ⟨t, ht, rfl⟩, (ih (Applied.put_tail h ht)).mpr ⟨h', hsuffixes⟩⟩

end AddressTransfers

end ZebraCrosslink
