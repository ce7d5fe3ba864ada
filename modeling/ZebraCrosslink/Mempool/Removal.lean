import ZebraCrosslink.Mempool.VerifiedSet
import ZebraCrosslink.Order.Sweep

/-!
# Removing transactions with their dependents

`remove_all` follows the tracked dependents of a transaction, level by level, and panics if one is
not stored any more or is met twice.
-/

open Rust Relation List Hashed

namespace ZebraCrosslink.mempool

/-! ## The sweep over the dependents -/

namespace TransactionDependencies

variable {deps deps' : TransactionDependencies} {a b : TransactionHash} {level all : List TransactionHash}

def Tracks (deps : TransactionDependencies) (a b : TransactionHash) : Prop := b ∈ deps.direct_dependents a

structure Without (deps deps' : TransactionDependencies) (gone : TransactionHash → Prop) : Prop where
  dependents_kept : ∀ a, ¬ gone a → deps'.dependents.lookup a = deps.dependents.lookup a
  dependents_gone : ∀ a, gone a → deps'.dependents.lookup a = none
  dependencies_kept : ∀ a, ¬ gone a → deps'.dependencies.lookup a = deps.dependencies.lookup a
  dependencies_gone : ∀ a, gone a → deps'.dependencies.lookup a = none

namespace Without

variable {gone gone' : TransactionHash → Prop}

theorem refl (deps : TransactionDependencies) : Without deps deps fun _ => False :=
  ⟨fun _ _ => rfl, fun _ h => h.elim, fun _ _ => rfl, fun _ h => h.elim⟩

section

variable (h : Without deps deps' gone)
include h

theorem trans {deps'' : TransactionDependencies} (h' : Without deps' deps'' gone') :
    Without deps deps'' fun a => gone a ∨ gone' a where
  dependents_kept a ha := by
    rw [not_or] at ha
    rw [h'.dependents_kept a ha.2, h.dependents_kept a ha.1]
  dependents_gone a ha := by
    by_cases hgone : gone' a
    · exact h'.dependents_gone a hgone
    · rw [h'.dependents_kept a hgone, h.dependents_gone a (ha.resolve_right hgone)]
  dependencies_kept a ha := by
    rw [not_or] at ha
    rw [h'.dependencies_kept a ha.2, h.dependencies_kept a ha.1]
  dependencies_gone a ha := by
    by_cases hgone : gone' a
    · exact h'.dependencies_gone a hgone
    · rw [h'.dependencies_kept a hgone, h.dependencies_gone a (ha.resolve_right hgone)]

theorem congr (hiff : ∀ a, gone a ↔ gone' a) : Without deps deps' gone' := by
  have hgone : gone = gone' := funext fun a => propext (hiff a)
  exact hgone ▸ h

theorem tracks : deps'.Tracks a b ↔ deps.Tracks a b ∧ ¬ gone a := by
  unfold Tracks direct_dependents
  by_cases ha : gone a
  · simp [h.dependents_gone a ha, ha]
  · simp [h.dependents_kept a ha, ha]

theorem tracks_le : deps'.Tracks ≤ deps.Tracks :=
  fun _ _ hstep => (h.tracks.mp hstep).1

end

end Without

theorem erase_without (deps : TransactionDependencies) (dep : TransactionHash) :
    Without deps (deps.erase dep) fun a => a = dep where
  dependents_kept a ha := by rw [erase, Map.lookup_erase', if_neg ha]
  dependents_gone a ha := by rw [erase, Map.lookup_erase', if_pos ha]
  dependencies_kept a ha := by rw [erase, Map.lookup_erase', if_neg ha]
  dependencies_gone a ha := by rw [erase, Map.lookup_erase', if_pos ha]

theorem remove_level_without (deps : TransactionDependencies) (level : List TransactionHash) :
    Without deps (deps.remove_level level).2 (· ∈ level) := by
  induction level generalizing deps with
  | nil => exact (Without.refl deps).congr fun a => by simp
  | cons dep level ih => exact ((deps.erase_without dep).trans (ih _)).congr fun a => by simp

theorem mem_remove_level (deps : TransactionDependencies) (level : List TransactionHash) :
    b ∈ (deps.remove_level level).1 ↔ ∃ a ∈ level, deps.Tracks a b := by
  induction level generalizing deps with
  | nil => simp [remove_level]
  | cons dep level ih =>
    simp only [remove_level, mem_union_iff, ih, (deps.erase_without dep).tracks, mem_cons,
      exists_eq_or_imp]
    constructor
    · rintro (h | ⟨a, ha, h, -⟩)
      · exact .inl h
      · exact .inr ⟨a, ha, h⟩
    · rintro (h | ⟨a, ha, h⟩)
      · exact .inl h
      · by_cases heq : a = dep
        · exact .inl (heq ▸ h)
        · exact .inr ⟨a, ha, h, heq⟩

theorem remove_level_nodup (deps : TransactionDependencies) (level : List TransactionHash) :
    (deps.remove_level level).1.Nodup := by
  induction level generalizing deps with
  | nil => exact nodup_nil
  | cons dep level ih => exact (ih _).union _

theorem card_remove_level (h : (deps.remove_level level).1 ≠ []) :
    (deps.remove_level level).2.dependents.keys.card < deps.dependents.keys.card := by
  obtain ⟨b, hb⟩ := exists_mem_of_ne_nil _ h
  obtain ⟨a, ha, htracks⟩ := (mem_remove_level deps level).mp hb
  have hwithout := deps.remove_level_without level
  have hkey : a ∈ deps.dependents.keys := by
    rw [Finmap.mem_keys, ← Finmap.lookup_isSome]
    unfold Tracks direct_dependents at htracks
    cases hlookup : deps.dependents.lookup a with
    | none => simp [hlookup] at htracks
    | some l => rfl
  refine Finset.card_lt_card ⟨fun k hk => ?_, fun hsub => ?_⟩
  · rw [Finmap.mem_keys, ← Finmap.lookup_isSome] at hk ⊢
    by_cases hlevel : k ∈ level
    · rw [hwithout.dependents_gone k hlevel] at hk
      cases hk
    · rwa [hwithout.dependents_kept k hlevel] at hk
  · have hgone := hsub hkey
    rw [Finmap.mem_keys, ← Finmap.lookup_isSome, hwithout.dependents_gone a ha] at hgone
    cases hgone

theorem remove_levels_ok {start : TransactionHash} {current : TransactionDependencies}
    {visited : TransactionHash → Prop} (hwithout : Without deps current visited)
    (hsweep : Sweep deps.Tracks start {a | visited a} {a | a ∈ level} {a | a ∈ all})
    (hall : all.Nodup) {fuel : Nat}
    (hfuel : if level = [] then 1 ≤ fuel else current.dependents.keys.card + 2 ≤ fuel) :
    ∃ found deps', current.remove_levels level all fuel = .ok (found, deps') ∧ found.Nodup ∧
      (∀ b, b ∈ found ↔ TransGen deps.Tracks start b) ∧
      Without deps deps' (ReflTransGen deps.Tracks start) := by
  induction fuel generalizing level all current visited with
  | zero => split at hfuel <;> omega
  | succ fuel ih =>
    by_cases hlevel : level = []
    · subst hlevel
      have hsweep : Sweep deps.Tracks start {a | visited a} ∅ {a | a ∈ all} := by simpa using hsweep
      exact ⟨all, current, by simp [remove_levels], hall, fun b => hsweep.mem_found,
        hwithout.congr fun a => hsweep.mem_visited⟩
    · rw [if_neg hlevel] at hfuel
      have hround := hsweep.round {a | a ∈ (current.remove_level level).1} fun b => by
        simp only [Set.mem_ofPred_eq, mem_remove_level, hwithout.tracks]
        grind
      have hsets : ({a | visited a ∨ a ∈ level} : Set TransactionHash) = {a | visited a} ∪ {a | a ∈ level} ∧
          {a | a ∈ all ∪ (current.remove_level level).1} =
            {a | a ∈ all} ∪ {a | a ∈ (current.remove_level level).1} := by
        constructor <;> ext a <;> simp
      rw [remove_levels, if_neg hlevel]
      refine ih (hwithout.trans (current.remove_level_without level)) ?_
        ((current.remove_level_nodup level).union _) ?_
      · rw [hsets.1, hsets.2]
        exact hround
      · split
        · omega
        · next hnext =>
          have := card_remove_level hnext
          omega

theorem remove_all_ok (deps : TransactionDependencies) (tx_hash : TransactionHash) :
    ∃ found deps', deps.remove_all tx_hash = .ok (found, deps') ∧ found.Nodup ∧
      (∀ b, b ∈ found ↔ TransGen deps.Tracks tx_hash b) ∧
      Without deps deps' (ReflTransGen deps.Tracks tx_hash) := by
  refine remove_levels_ok (Without.refl deps) ?_ nodup_nil (by simp)
  have hinit : Sweep deps.Tracks tx_hash ∅ {tx_hash} ∅ := .init
  simpa using hinit

end TransactionDependencies

/-! ## The indexes beside the transactions -/

theorem mem_created_outputs {tx : Transaction} {o : OutPoint} {out : Output}
    (hfit : tx.outputs.length ≤ 2 ^ 32) :
    (o, out) ∈ tx.created_outputs ↔ o.hash = tx.hash ∧ tx.outputs[o.index.toNat]? = some out := by
  have hindex : ∀ i < tx.outputs.length, (UInt32.ofNat i).toNat = i := fun i hi =>
    UInt32.toNat_ofNat_of_lt' (by simp only [UInt32.size]; omega)
  simp only [Transaction.created_outputs, mem_map, Prod.mk.injEq, Prod.exists, mem_zipIdx_iff_getElem?]
  constructor
  · rintro ⟨out', i, hout, rfl, rfl⟩
    exact ⟨rfl, by rw [hindex i (List.getElem?_eq_some_iff.mp hout).1, hout]⟩
  · rintro ⟨hhash, hout⟩
    exact ⟨out, o.index.toNat, hout, by rw [← hhash, UInt32.ofNat_toNat], rfl⟩

namespace VerifiedUnminedTx

def spent_outpoints (tx : VerifiedUnminedTx) : List OutPoint := tx.transaction.transaction.spent_outpoints

def sprout_nullifiers (tx : VerifiedUnminedTx) : List Nullifier := tx.transaction.transaction.sprout_nullifiers

def sapling_nullifiers (tx : VerifiedUnminedTx) : List Nullifier := tx.transaction.transaction.sapling_nullifiers

def orchard_nullifiers (tx : VerifiedUnminedTx) : List Nullifier := tx.transaction.transaction.orchard_nullifiers

def created_outputs (tx : VerifiedUnminedTx) : List (OutPoint × Output) :=
  tx.transaction.transaction.created_outputs

theorem mem_created {tx : VerifiedUnminedTx} {o : OutPoint} {out : Output} :
    (o, out) ∈ tx.created_outputs ↔
      o.hash = tx.mined_id ∧ tx.transaction.transaction.outputs[o.index.toNat]? = some out := by
  rw [created_outputs, mem_created_outputs tx.transaction.outputs_fit, mined_id,
    tx.transaction.id_eq]

end VerifiedUnminedTx

open VerifiedUnminedTx

namespace VerifiedSet

/-- The indexes that hold what is computed from the stored transactions, whatever was tracked. -/
structure Kept (set : VerifiedSet) : Prop where
  keys : (set.transactions.map (·.mined_id)).Nodup
  size : set.transactions_serialized_size = (set.transactions.map (·.transaction.size)).sum
  cost : set.total_cost = (set.transactions.map (·.cost)).sum
  created : Mapped (·.created_outputs) set.transactions set.created_outputs
  spent : Indexed (·.spent_outpoints) set.transactions set.spent_outpoints
  sprout : Indexed (·.sprout_nullifiers) set.transactions set.sprout_nullifiers
  sapling : Indexed (·.sapling_nullifiers) set.transactions set.sapling_nullifiers
  orchard : Indexed (·.orchard_nullifiers) set.transactions set.orchard_nullifiers
  spent_apart : Apart (·.spent_outpoints) set.transactions
  sprout_apart : Apart (·.sprout_nullifiers) set.transactions
  sapling_apart : Apart (·.sapling_nullifiers) set.transactions
  orchard_apart : Apart (·.orchard_nullifiers) set.transactions

variable {p : Profile} {set set' : VerifiedSet} {key : TransactionHash} {tx : VerifiedUnminedTx}
  {keys : List TransactionHash} {removed : List VerifiedUnminedTx} {ids : TransactionHash → Prop}
  {predicate : VerifiedUnminedTx → Bool} {order : IterationOrder}

theorem kept_empty : empty.Kept := by
  constructor <;> simp [empty, Mapped, Indexed, Apart]

theorem contains_iff : set.contains key = true ↔ ∃ tx ∈ set.transactions, tx.mined_id = key :=
  get?_isSome

theorem get_eq_some (h : set.Kept) : set.get key = some tx ↔ tx ∈ set.transactions ∧ tx.mined_id = key := by
  refine ⟨OrderedMap.get?_eq_some, ?_⟩
  rintro ⟨hmem, rfl⟩
  exact get?_of_mem h.keys hmem

theorem created_apart (h : set.Kept) :
    Apart (fun tx => (VerifiedUnminedTx.created_outputs tx).map (·.1)) set.transactions := by
  intro tx htx tx' htx' o ho ho'
  obtain ⟨⟨o, out⟩, hout, rfl⟩ := mem_map.mp ho
  obtain ⟨⟨o', out'⟩, hout', heq⟩ := mem_map.mp ho'
  cases heq
  refine inj_on_of_nodup_map h.keys htx htx' ?_
  rw [← (mem_created.mp hout).1, ← (mem_created.mp hout').1]

theorem update_metrics_ok (p : Profile) (set : VerifiedSet) : set.update_metrics p = .ok () := by
  have hentry : ∀ entry : VerifiedUnminedTx,
      (do let _ ← subUsize p entry.conventional_actions entry.unpaid_actions : Except Abort Unit) = .ok () := by
    intro entry
    have hfee := entry.miner_fee.valid.1
    have hle : entry.unpaid_actions ≤ entry.conventional_actions := by
      rw [entry.unpaid_eq]
      simp only [zip317.unpaid_actions, zip317.MARGINAL_FEE, Constraint.least] at hfee ⊢
      omega
    rw [subUsize_of_le p _ _ hle]
    rfl
  unfold update_metrics
  induction set.transactions with
  | nil => rfl
  | cons entry rest ih => exact except_bind_ok.mpr ⟨(), hentry entry, ih⟩

/-! ## Taking transactions out -/

theorem remove_one_ok (h : set.Kept) (htx : tx ∈ set.transactions) :
    ∃ set', set.remove_one p tx.mined_id = .ok (tx, set') ∧ set'.Kept ∧
      set'.transactions = OrderedMap.remove (·.mined_id) set.transactions tx.mined_id ∧
      set'.transaction_dependencies = set.transaction_dependencies := by
  have hsize := sum_remove (·.transaction.size) h.keys htx
  have hcost := sum_remove (·.cost) h.keys htx
  rw [← h.size] at hsize
  rw [← h.cost] at hcost
  refine ⟨{ set with
    transactions := OrderedMap.remove (·.mined_id) set.transactions tx.mined_id
    transactions_serialized_size := set.transactions_serialized_size - tx.transaction.size
    total_cost := set.total_cost - tx.cost }.remove_outputs tx.transaction, ?_, ?_, rfl, rfl⟩
  · simp only [remove_one, (get_eq_some h).mpr ⟨htx, rfl⟩, orAbort, bind, Except.bind,
      subUsize_of_le p set.transactions_serialized_size tx.transaction.size (by omega),
      subUsize_of_le p set.total_cost tx.cost (by omega)]
    rfl
  · exact {
      keys := h.keys.sublist (filter_sublist.map _)
      size := by
        change set.transactions_serialized_size - tx.transaction.size = _
        rw [hsize, Nat.add_sub_cancel_left]
        rfl
      cost := by
        change set.total_cost - tx.cost = _
        rw [hcost, Nat.add_sub_cancel_left]
        rfl
      created := h.created.remove (created_apart h) h.keys htx
      spent := h.spent.remove h.spent_apart h.keys htx
      sprout := h.sprout.remove h.sprout_apart h.keys htx
      sapling := h.sapling.remove h.sapling_apart h.keys htx
      orchard := h.orchard.remove h.orchard_apart h.keys htx
      spent_apart := h.spent_apart.remove
      sprout_apart := h.sprout_apart.remove
      sapling_apart := h.sapling_apart.remove
      orchard_apart := h.orchard_apart.remove }

/-- `set'` holds the transactions of `set` without some ids. -/
def Leaves (set set' : VerifiedSet) (gone : TransactionHash → Prop) : Prop :=
  ∀ tx, tx ∈ set'.transactions ↔ tx ∈ set.transactions ∧ ¬ gone tx.mined_id

theorem remove_each_ok (h : set.Kept) (hnodup : keys.Nodup)
    (hstored : ∀ key ∈ keys, set.contains key) :
    ∃ removed set', set.remove_each p keys = .ok (removed, set') ∧ set'.Kept ∧
      removed.map (·.mined_id) = keys ∧ (∀ tx ∈ removed, tx ∈ set.transactions) ∧
      Leaves set set' (· ∈ keys) ∧ set'.transaction_dependencies = set.transaction_dependencies := by
  induction keys generalizing set with
  | nil => exact ⟨[], set, rfl, h, rfl, by simp, fun tx => by simp, rfl⟩
  | cons key keys ih =>
    obtain ⟨hkey, hkeys⟩ := nodup_cons.mp hnodup
    obtain ⟨hfirst, hothers⟩ := forall_mem_cons.mp hstored
    obtain ⟨tx, htx, rfl⟩ := contains_iff.mp hfirst
    obtain ⟨set₁, hone, hkept, htxs, hdeps⟩ := remove_one_ok (p := p) h htx
    have hmem : ∀ tx', tx' ∈ set₁.transactions ↔ tx' ∈ set.transactions ∧ tx'.mined_id ≠ tx.mined_id :=
      fun tx' => by rw [htxs, OrderedMap.mem_remove]
    obtain ⟨removed, set', hrest, hkept', hids, hsub, hleaves, hdeps'⟩ := ih hkept hkeys fun k hk => by
      obtain ⟨tx', htx', heq⟩ := contains_iff.mp (hothers k hk)
      exact contains_iff.mpr ⟨tx', (hmem tx').mpr ⟨htx', fun hsame => hkey (hsame ▸ heq ▸ hk)⟩, heq⟩
    refine ⟨tx :: removed, set', ?_, hkept', by simp [hids], ?_, fun tx' => ?_, hdeps'.trans hdeps⟩
    · simp only [remove_each, hone, hrest, bind, Except.bind]
      rfl
    · exact forall_mem_cons.mpr ⟨htx, fun tx' htx' => ((hmem tx').mp (hsub tx' htx')).1⟩
    · simp [hleaves tx', hmem tx', and_assoc]

theorem remove_each_stored (h : set.Kept) (hok : set.remove_each p keys = .ok (removed, set')) :
    keys.Nodup ∧ ∀ key ∈ keys, set.contains key := by
  induction keys generalizing set removed with
  | nil => simp
  | cons key keys ih =>
    obtain ⟨⟨tx, set₁⟩, hone, hok⟩ := except_bind_ok.mp hok
    obtain ⟨⟨txs, set₂⟩, hrest, hok⟩ := except_bind_ok.mp hok
    cases hok
    have hget : set.get key = some tx := by
      obtain ⟨tx', htx', hok⟩ := except_bind_ok.mp hone
      obtain ⟨size, -, hok⟩ := except_bind_ok.mp hok
      obtain ⟨cost, -, hok⟩ := except_bind_ok.mp hok
      cases hok
      exact orAbort_ok.mp htx'
    obtain ⟨htx, rfl⟩ := (get_eq_some h).mp hget
    obtain ⟨set₁', hone', hkept, htxs, -⟩ := remove_one_ok (p := p) h htx
    cases hone.symm.trans hone'
    obtain ⟨hnodup, hstored⟩ := ih hkept hrest
    have hleft : ∀ k ∈ keys, set.contains k ∧ k ≠ tx.mined_id := by
      intro k hk
      obtain ⟨tx', htx', rfl⟩ := contains_iff.mp (hstored k hk)
      rw [htxs, OrderedMap.mem_remove] at htx'
      exact ⟨contains_iff.mpr ⟨tx', htx'.1, rfl⟩, htx'.2⟩
    refine ⟨nodup_cons.mpr ⟨fun hmem => (hleft _ hmem).2 rfl, hnodup⟩, ?_⟩
    exact forall_mem_cons.mpr ⟨contains_iff.mpr ⟨tx, htx, rfl⟩, fun k hk => (hleft k hk).1⟩

abbrev Family (set : VerifiedSet) (key : TransactionHash) : TransactionHash → Prop :=
  ReflTransGen set.transaction_dependencies.Tracks key

/-- What is tracked as depending on the transactions `ids` is stored, and none of it is met twice. -/
structure Removable (set : VerifiedSet) (ids : TransactionHash → Prop) : Prop where
  stored : ∀ key, ids key → ∀ id, TransGen set.transaction_dependencies.Tracks key id → set.contains id
  apart : ∀ key, ids key → ∀ id, TransGen set.transaction_dependencies.Tracks key id → ¬ ids id
  once : ∀ key key', ids key → ids key' → ∀ id, TransGen set.transaction_dependencies.Tracks key id →
    TransGen set.transaction_dependencies.Tracks key' id → key = key'

theorem Removable.mono {ids' : TransactionHash → Prop} (h : set.Removable ids)
    (hsub : ∀ key, ids' key → ids key) : set.Removable ids' where
  stored key hkey := h.stored key (hsub key hkey)
  apart key hkey id hid hids := h.apart key (hsub key hkey) id hid (hsub id hids)
  once key key' hkey hkey' := h.once key key' (hsub key hkey) (hsub key' hkey')

structure Removed (set set' : VerifiedSet) (key : TransactionHash) (removed : List VerifiedUnminedTx) :
    Prop where
  kept : set'.Kept
  leaves : Leaves set set' (set.Family key)
  without : set.transaction_dependencies.Without set'.transaction_dependencies (set.Family key)
  last : ∃ tx ∈ set.transactions, removed.getLast? = some tx ∧ tx.mined_id = key

theorem remove_returns (h : set.Kept) (hkey : set.contains key) (hremovable : set.Removable (· = key)) :
    ∃ removed set', set.remove p key = .ok (removed, set') := by
  obtain ⟨found, deps, hall, hnodup, hfound, -⟩ := set.transaction_dependencies.remove_all_ok key
  have hkept : { set with transaction_dependencies := deps }.Kept := { h with }
  have hkeys : (found ++ [key]).Nodup := by
    refine hnodup.append (nodup_singleton key) fun id hid hid' => ?_
    exact hremovable.apart key rfl id ((hfound id).mp hid) (mem_singleton.mp hid')
  have hstored : ∀ id ∈ found ++ [key], set.contains id := by
    intro id hid
    rcases mem_append.mp hid with hid | hid
    · exact hremovable.stored key rfl id ((hfound id).mp hid)
    · exact mem_singleton.mp hid ▸ hkey
  obtain ⟨removed, set', heach, -⟩ := remove_each_ok (p := p) hkept hkeys hstored
  refine ⟨removed, set', ?_⟩
  simp only [remove, hall, heach, update_metrics_ok, bind, Except.bind]
  rfl

theorem remove_spec (h : set.Kept) (hok : set.remove p key = .ok (removed, set')) :
    set.contains key ∧ set.Removable (· = key) ∧ Removed set set' key removed := by
  obtain ⟨found, deps, hall, hnodup, hfound, hwithout⟩ := set.transaction_dependencies.remove_all_ok key
  have hkept : { set with transaction_dependencies := deps }.Kept := { h with }
  have heach : { set with transaction_dependencies := deps }.remove_each p (found ++ [key]) =
      .ok (removed, set') := by
    simp only [remove, hall, update_metrics_ok, bind, Except.bind] at hok
    split at hok
    · cases hok
    · next r hr =>
      cases hok
      exact hr
  obtain ⟨hkeys, hstored⟩ := remove_each_stored hkept heach
  obtain ⟨removed', set'', hok', hkept', hids, hsub, hleaves, hdeps⟩ := remove_each_ok (p := p) hkept hkeys hstored
  cases heach.symm.trans hok'
  refine ⟨hstored key (by simp), ⟨?_, ?_, ?_⟩, hkept', fun tx => ?_, hdeps ▸ hwithout, ?_⟩
  · rintro _ rfl id hid
    exact hstored id (mem_append_left _ ((hfound id).mpr hid))
  · rintro _ rfl _ hid rfl
    have := disjoint_of_nodup_append hkeys ((hfound _).mpr hid)
    simp at this
  · rintro _ _ rfl rfl _ _ _
    rfl
  · simp [hleaves tx, hfound, Family, reflTransGen_iff_eq_or_transGen, or_comm]
  · have hlast : removed.getLast?.map (·.mined_id) = some key := by
      rw [← getLast?_map, hids, getLast?_append]
      rfl
    obtain ⟨tx, htx, hid⟩ := Option.map_eq_some_iff.mp hlast
    exact ⟨tx, hsub tx (mem_of_getLast? htx), htx, hid⟩

/-! ## Removing several transactions -/

theorem Removable.after (h : set.Removable ids) (hkey : ids key)
    (hremoved : Removed set set' key removed) : set'.Removable fun id => ids id ∧ id ≠ key := by
  have hsub : ∀ {a b}, TransGen set'.transaction_dependencies.Tracks a b →
      TransGen set.transaction_dependencies.Tracks a b := fun hab =>
    TransGen.mono hremoved.without.tracks_le _ _ hab
  constructor
  · rintro k ⟨hk, hne⟩ id hid
    obtain ⟨tx, htx, rfl⟩ := contains_iff.mp (h.stored k hk id (hsub hid))
    refine contains_iff.mpr ⟨tx, (hremoved.leaves tx).mpr ⟨htx, fun hfamily => ?_⟩, rfl⟩
    rcases reflTransGen_iff_eq_or_transGen.mp hfamily with heq | hfamily
    · exact h.apart k hk _ (hsub hid) (heq ▸ hkey)
    · exact hne (h.once k key hk hkey _ (hsub hid) hfamily)
  · rintro k ⟨hk, -⟩ id hid ⟨hid', -⟩
    exact h.apart k hk id (hsub hid) hid'
  · rintro k k' ⟨hk, -⟩ ⟨hk', -⟩ id hid hid'
    exact h.once k k' hk hk' id (hsub hid) (hsub hid')

theorem remove_keys_returns (h : set.Kept) (hnodup : keys.Nodup)
    (hstored : ∀ key ∈ keys, set.contains key) (hremovable : set.Removable (· ∈ keys)) :
    ∃ ids set', set.remove_keys p keys = .ok (ids, set') := by
  induction keys generalizing set with
  | nil => exact ⟨[], set, rfl⟩
  | cons key keys ih =>
    obtain ⟨hkey, hkeys⟩ := nodup_cons.mp hnodup
    obtain ⟨removed, set₁, hremove⟩ := remove_returns (p := p) h (hstored key mem_cons_self)
      (hremovable.mono fun k hk => by simp [hk])
    obtain ⟨-, -, hremoved⟩ := remove_spec h hremove
    have hrest : ∀ k ∈ keys, set₁.contains k := by
      intro k hk
      obtain ⟨tx, htx, rfl⟩ := contains_iff.mp (hstored k (mem_cons_of_mem _ hk))
      refine contains_iff.mpr ⟨tx, (hremoved.leaves tx).mpr ⟨htx, fun hfamily => ?_⟩, rfl⟩
      rcases reflTransGen_iff_eq_or_transGen.mp hfamily with heq | hfamily
      · exact hkey (heq ▸ hk)
      · exact hremovable.apart key mem_cons_self _ hfamily (mem_cons_of_mem _ hk)
    obtain ⟨ids, set', hok⟩ := ih hremoved.kept hkeys hrest
      ((hremovable.after mem_cons_self hremoved).mono fun k hk =>
        ⟨mem_cons_of_mem _ hk, fun heq => hkey (heq ▸ hk)⟩)
    exact ⟨removed.map (·.transaction.id) ∪ ids, set', by
      simp only [remove_keys, hremove, hok, bind, Except.bind]; rfl⟩

def Families (set : VerifiedSet) (ids : TransactionHash → Prop) (id : TransactionHash) : Prop :=
  ∃ key, ids key ∧ set.Family key id

structure RemovedAll (set set' : VerifiedSet) (ids : TransactionHash → Prop) : Prop where
  kept : set'.Kept
  leaves : Leaves set set' (set.Families ids)
  without : set.transaction_dependencies.Without set'.transaction_dependencies (set.Families ids)
  stored : ∀ id, set.Families ids id → set.contains id

theorem Removed.family {k id : TransactionHash}
    (h : Removed set set' key removed) (hstored : ∀ id, set'.Family k id → set'.contains id) :
    set'.Family k id ↔ set.Family k id := by
  constructor
  · exact ReflTransGen.mono h.without.tracks_le _ _
  · intro hfamily
    induction hfamily with
    | refl => exact .refl
    | @tail a b _ hstep ih =>
      obtain ⟨tx, htx, rfl⟩ := contains_iff.mp (hstored a ih)
      exact ih.tail (h.without.tracks.mpr ⟨hstep, ((h.leaves tx).mp htx).2⟩)

theorem remove_keys_spec {ids : List UnminedTxId} (h : set.Kept)
    (hok : set.remove_keys p keys = .ok (ids, set')) : RemovedAll set set' (· ∈ keys) := by
  induction keys generalizing set ids with
  | nil =>
    cases hok
    have hnone : ∀ id, ¬ set'.Families (· ∈ []) id := by simp [Families]
    exact ⟨h, fun tx => ⟨fun htx => ⟨htx, hnone _⟩, And.left⟩,
      (TransactionDependencies.Without.refl _).congr fun id => ⟨False.elim, hnone id⟩,
      fun id hid => absurd hid (hnone id)⟩
  | cons key keys ih =>
    obtain ⟨⟨removed, set₁⟩, hremove, hok⟩ := except_bind_ok.mp hok
    obtain ⟨⟨ids', set₂⟩, hrest, hok⟩ := except_bind_ok.mp hok
    cases hok
    obtain ⟨hkey, hremovable, hremoved⟩ := remove_spec h hremove
    have hall := ih hremoved.kept hrest
    have hfamilies : ∀ id, set₁.Families (· ∈ keys) id ↔ set.Families (· ∈ keys) id := fun id =>
      exists_congr fun k => and_congr_right fun hk => hremoved.family fun id hid => hall.stored id ⟨k, hk, hid⟩
    have hgone : ∀ id, set.Families (· ∈ key :: keys) id ↔
        set.Family key id ∨ set₁.Families (· ∈ keys) id := by
      intro id
      rw [hfamilies]
      simp [Families]
    refine ⟨hall.kept, fun tx => ?_, (hremoved.without.trans hall.without).congr fun id => (hgone id).symm, ?_⟩
    · rw [hall.leaves tx, hremoved.leaves tx, hgone, not_or, and_assoc]
    · intro id hid
      rcases (hgone id).mp hid with hid | hid
      · rcases reflTransGen_iff_eq_or_transGen.mp hid with rfl | hid
        · exact hkey
        · exact hremovable.stored key rfl id hid
      · obtain ⟨tx, htx, rfl⟩ := contains_iff.mp (hall.stored id hid)
        exact contains_iff.mpr ⟨tx, ((hremoved.leaves tx).mp htx).1, rfl⟩

theorem mem_matching : key ∈ ((order.arrange set.transactions).filter predicate).map (·.mined_id) ↔
      ∃ tx ∈ set.transactions, predicate tx ∧ tx.mined_id = key := by
  simp [and_assoc]

def Matching (set : VerifiedSet) (predicate : VerifiedUnminedTx → Bool) (key : TransactionHash) : Prop :=
  ∃ tx ∈ set.transactions, predicate tx ∧ tx.mined_id = key

theorem remove_all_that_returns (order : IterationOrder) (h : set.Kept)
    (hremovable : set.Removable (set.Matching predicate)) :
    ∃ ids set', set.remove_all_that p order predicate = .ok (ids, set') := by
  refine remove_keys_returns h ?_ (fun key hkey => ?_) (hremovable.mono fun key hkey => mem_matching.mp hkey)
  · refine Nodup.sublist (filter_sublist.map _) ?_
    exact ((order.perm set.transactions).map _).nodup_iff.mpr h.keys
  · obtain ⟨tx, htx, -, hid⟩ := mem_matching.mp hkey
    exact contains_iff.mpr ⟨tx, htx, hid⟩

theorem remove_all_that_spec {ids : List UnminedTxId} (h : set.Kept)
    (hok : set.remove_all_that p order predicate = .ok (ids, set')) :
    RemovedAll set set' (set.Matching predicate) := by
  have hall := remove_keys_spec h hok
  have hids : (· ∈ ((order.arrange set.transactions).filter predicate).map (·.mined_id)) =
      set.Matching predicate := funext fun key => propext mem_matching
  exact hids ▸ hall

end VerifiedSet

end ZebraCrosslink.mempool
