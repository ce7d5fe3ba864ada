import Mathlib
import ZebraCrosslink.Rust.Returns
import ZebraCrosslink.State.Chains

/-!
# What a push asks of a block

The indexes of a chain take a transaction if its id, outputs, spends and nullifiers are new to them.
-/

open Rust List

namespace ZebraCrosslink

/-! ## New entries -/

section New

variable {α : Type} {f : Transaction → List α} {before txs other : List Transaction} {tx : Transaction}

theorem insertUnique_eq_none [DecidableEq α] {seen l : List α} :
    insertUnique seen l = none ↔ l.Nodup ∧ Disjoint seen l := by
  induction l generalizing seen with
  | nil => simp [insertUnique]
  | cons a rest ih =>
    unfold insertUnique
    split
    · rename_i hseen
      simp [hseen]
    · rename_i hseen
      rw [ih, nodup_cons, disjoint_append_left, singleton_disjoint, disjoint_cons_right]
      tauto

def AllNew (f : Transaction → List α) (before txs : List Transaction) : Prop :=
  (txs.flatMap f).Nodup ∧ Disjoint (before.flatMap f) (txs.flatMap f)

theorem AllNew.nil (f : Transaction → List α) (before : List Transaction) : AllNew f before [] := by
  simp [AllNew]

theorem allNew_cons :
    AllNew f before (tx :: txs) ↔ AllNew f before [tx] ∧ AllNew f (before ++ [tx]) txs := by
  simp only [AllNew, flatMap_cons, flatMap_nil, append_nil, flatMap_append,
    nodup_append', disjoint_append_left, disjoint_append_right]
  tauto

theorem AllNew.of_append (h : AllNew f (other ++ before) txs) : AllNew f before txs := by
  unfold AllNew at h ⊢
  rw [flatMap_append, disjoint_append_left] at h
  exact ⟨h.1, h.2.2⟩

theorem AllNew.append_left (h : AllNew f before txs)
    (hother : Disjoint (other.flatMap f) (txs.flatMap f)) : AllNew f (other ++ before) txs := by
  unfold AllNew at h ⊢
  rw [flatMap_append, disjoint_append_left]
  exact ⟨h.1, hother, h.2⟩

theorem AllNew.nodup (h : AllNew f before txs) (hbefore : (before.flatMap f).Nodup) :
    ((before ++ txs).flatMap f).Nodup := by
  rw [flatMap_append]
  exact hbefore.append h.1 h.2

theorem allNew_singleton [DecidableEq α] :
    AllNew f before [tx] ↔ insertUnique (before.flatMap f) (f tx) = none := by
  simp [AllNew, insertUnique_eq_none]

theorem ids_new_singleton :
    AllNew (fun tx => [tx.hash]) before [tx] ↔ ∀ t ∈ before, t.hash ≠ tx.hash := by
  simp only [AllNew, flatMap_cons, flatMap_nil, append_nil, nodup_singleton,
    true_and, disjoint_singleton, mem_flatMap, mem_singleton]
  constructor
  · intro h t ht heq
    exact h ⟨t, ht, heq.symm⟩
  · rintro h ⟨t, ht, heq⟩
    exact h t ht heq.symm

theorem AllNew.hash_ne (h : AllNew (fun tx => [tx.hash]) before txs) {t : Transaction}
    (ht : t ∈ before) (htx : tx ∈ txs) : t.hash ≠ tx.hash := by
  intro heq
  have hbefore : t.hash ∈ before.flatMap fun tx => [tx.hash] :=
    mem_flatMap.mpr ⟨t, ht, mem_singleton_self _⟩
  apply h.2 hbefore
  rw [heq]
  exact mem_flatMap.mpr ⟨tx, htx, mem_singleton_self _⟩

end New

/-! ## The indexes of a chain -/

/-- What makes `update_with_transactions` panic if it does not hold. -/
structure Indexable (before txs : List Transaction) : Prop where
  recent : ∀ tx ∈ txs, tx.recent = true
  ids : AllNew (fun tx => [tx.hash]) before txs
  created : AllNew (·.created_outpoints) before txs
  spent : AllNew (·.spent_outpoints) before txs

/-- What makes `update_with_transactions` reject the block if it does not hold. -/
structure NewNullifiers (before txs : List Transaction) : Prop where
  sprout : AllNew (·.sprout_nullifiers) before txs
  sapling : AllNew (·.sapling_nullifiers) before txs
  orchard : AllNew (·.orchard_nullifiers) before txs

section Indexes

variable {before txs : List Transaction} {tx : Transaction} {r : Except ValidateContextError Unit}

theorem indexable_cons : Indexable before (tx :: txs) ↔
    Indexable before [tx] ∧ Indexable (before ++ [tx]) txs := by
  constructor
  · rintro ⟨hrecent, hids, hcreated, hspent⟩
    rw [allNew_cons] at hids hcreated hspent
    rw [forall_mem_cons] at hrecent
    exact ⟨⟨by simpa using hrecent.1, hids.1, hcreated.1, hspent.1⟩,
      ⟨hrecent.2, hids.2, hcreated.2, hspent.2⟩⟩
  · rintro ⟨h, hrest⟩
    refine ⟨?_, allNew_cons.mpr ⟨h.ids, hrest.ids⟩, allNew_cons.mpr ⟨h.created, hrest.created⟩,
      allNew_cons.mpr ⟨h.spent, hrest.spent⟩⟩
    exact forall_mem_cons.mpr ⟨h.recent tx (by simp), hrest.recent⟩

theorem newNullifiers_cons : NewNullifiers before (tx :: txs) ↔
    NewNullifiers before [tx] ∧ NewNullifiers (before ++ [tx]) txs := by
  constructor
  · rintro ⟨hsprout, hsapling, horchard⟩
    rw [allNew_cons] at hsprout hsapling horchard
    exact ⟨⟨hsprout.1, hsapling.1, horchard.1⟩, ⟨hsprout.2, hsapling.2, horchard.2⟩⟩
  · rintro ⟨h, hrest⟩
    exact ⟨allNew_cons.mpr ⟨h.sprout, hrest.sprout⟩, allNew_cons.mpr ⟨h.sapling, hrest.sapling⟩,
      allNew_cons.mpr ⟨h.orchard, hrest.orchard⟩⟩

theorem recent_of_update (h : update_with_transaction before tx = .ok r) : tx.recent = true := by
  unfold update_with_transaction at h
  unfold Transaction.recent
  cases hdata : tx.data <;> simp only [hdata] at h ⊢ <;> cases h

theorem newNullifiers_singleton : NewNullifiers before [tx] ↔
    insertUnique (before.flatMap (·.sprout_nullifiers)) tx.sprout_nullifiers = none ∧
    insertUnique (before.flatMap (·.sapling_nullifiers)) tx.sapling_nullifiers = none ∧
    insertUnique (before.flatMap (·.orchard_nullifiers)) tx.orchard_nullifiers = none := by
  rw [← allNew_singleton, ← allNew_singleton, ← allNew_singleton]
  exact ⟨fun h => ⟨h.sprout, h.sapling, h.orchard⟩, fun h => ⟨h.1, h.2.1, h.2.2⟩⟩

theorem update_with_transaction_eq (h : Indexable before [tx]) :
    ∃ r, update_with_transaction before tx = .ok r ∧ (r = .ok () ↔ NewNullifiers before [tx]) := by
  have hrecent := h.recent tx (by simp)
  have hids : ¬ (before.any fun t => t.hash = tx.hash) = true := by
    simpa using ids_new_singleton.mp h.ids
  rw [newNullifiers_singleton]
  unfold Transaction.recent at hrecent
  unfold update_with_transaction
  cases hdata : tx.data <;> simp only [hdata, Bool.false_eq_true] at hrecent ⊢
  all_goals
    rw [if_neg hids, allNew_singleton.mp h.created, allNew_singleton.mp h.spent]
    simp only [Option.isSome_none, Bool.false_eq_true, if_false]
    split
    · exact ⟨_, rfl, by simp [*]⟩
    split
    · exact ⟨_, rfl, by simp [*]⟩
    split
    · exact ⟨_, rfl, by simp [*]⟩
    · exact ⟨.ok (), rfl, by simp [*]⟩

theorem indexable_of_update (h : update_with_transaction before tx = .ok r) :
    Indexable before [tx] := by
  have hrecent := recent_of_update h
  have hfirst : ∀ t ∈ [tx], t.recent = true := by simpa using hrecent
  unfold Transaction.recent at hrecent
  unfold update_with_transaction at h
  have hnew : (¬ (before.any fun t => t.hash = tx.hash) = true) ∧
      AllNew (·.created_outpoints) before [tx] ∧ AllNew (·.spent_outpoints) before [tx] := by
    rw [allNew_singleton, allNew_singleton]
    cases hdata : tx.data <;> simp only [hdata, Bool.false_eq_true] at hrecent h
    all_goals
      split at h
      · cases h
      split at h
      · cases h
      split at h
      · cases h
      rename_i hids hcreated hspent
      exact ⟨hids, by simpa using hcreated, by simpa using hspent⟩
  exact ⟨hfirst, ids_new_singleton.mpr (by simpa using hnew.1), hnew.2.1, hnew.2.2⟩

theorem update_with_transactions_eq (h : Indexable before txs) :
    ∃ r, update_with_transactions before txs = .ok r ∧ (r = .ok () ↔ NewNullifiers before txs) := by
  induction txs generalizing before with
  | nil => exact ⟨.ok (), rfl, by simp only [true_iff]; exact ⟨.nil _ _, .nil _ _, .nil _ _⟩⟩
  | cons tx rest ih =>
    obtain ⟨hfirst, hrest⟩ := indexable_cons.mp h
    obtain ⟨r, hr, hr'⟩ := update_with_transaction_eq hfirst
    obtain ⟨s, hs, hs'⟩ := ih hrest
    rw [newNullifiers_cons, ← hr', ← hs']
    cases r with
    | error err =>
      refine ⟨.error err, ?_, by simp⟩
      rw [update_with_transactions, exceptT_bind_of_error hr]
    | ok =>
      refine ⟨s, ?_, by simp⟩
      rw [update_with_transactions, exceptT_bind_of_ok hr, hs]

theorem update_with_transactions_ok_iff : update_with_transactions before txs = .ok (.ok ()) ↔
    Indexable before txs ∧ NewNullifiers before txs := by
  constructor
  · intro h
    induction txs generalizing before with
    | nil => exact ⟨⟨by simp, .nil _ _, .nil _ _, .nil _ _⟩, ⟨.nil _ _, .nil _ _, .nil _ _⟩⟩
    | cons tx rest ih =>
      rw [update_with_transactions, exceptT_bind_ok] at h
      obtain ⟨_, htx, h⟩ := h
      obtain ⟨hindex, hnew⟩ := ih h
      have hfirst := indexable_of_update htx
      obtain ⟨r, hr, hr'⟩ := update_with_transaction_eq hfirst
      rw [indexable_cons, newNullifiers_cons]
      refine ⟨⟨hfirst, hindex⟩, hr'.mp ?_, hnew⟩
      exact Except.ok.inj (hr.symm.trans htx)
  · rintro ⟨h, hnew⟩
    obtain ⟨r, hr, hr'⟩ := update_with_transactions_eq h
    rw [hr, hr'.mpr hnew]

theorem push_eq {c : Chain} {b : ContextuallyVerifiedBlock} {work : Nat}
    (hnew : c.contains_block_hash b.hash = false)
    (hwork : CompactDifficulty.to_work b.block.header.difficulty_threshold = some work)
    (hsum : c.partial_cumulative_work + work < 2 ^ 128)
    (h : Indexable c.transactions b.block.transactions) : ∃ r, c.push b = .ok r ∧
      (NewNullifiers c.transactions b.block.transactions → r = .ok ⟨c.blocks ++ [b]⟩) := by
  obtain ⟨r, hr, hr'⟩ := update_with_transactions_eq h
  unfold Chain.push
  simp only [hnew, Bool.false_eq_true, if_false, hwork, if_neg (Nat.not_le.mpr hsum)]
  cases r with
  | error err =>
    rw [exceptT_bind_of_error hr]
    refine ⟨_, rfl, fun hnullifiers => ?_⟩
    cases hr'.mpr hnullifiers
  | ok =>
    rw [exceptT_bind_of_ok hr]
    exact ⟨_, rfl, fun _ => rfl⟩

end Indexes

end ZebraCrosslink
