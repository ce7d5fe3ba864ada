import ZebraCrosslink.Mempool.Panics

/-!
# The indexes of the mempool

The outputs, the spends and the totals are always exact, the dependency maps as long as no
transaction is taken out while a parent or a child of it stays.
-/

open Rust Relation List

namespace ZebraCrosslink.mempool

namespace TransactionDependencies

variable {deps : TransactionDependencies} {a b dependent : TransactionHash}

section

variable (spent_mempool_outpoints : List OutPoint)

theorem add_tracks : (deps.add dependent spent_mempool_outpoints).Tracks a b ↔
      deps.Tracks a b ∨ b = dependent ∧ ∃ o ∈ spent_mempool_outpoints, o.hash = a := by
  unfold Tracks direct_dependents add
  simp only
  generalize deps.dependents = dependents
  induction spent_mempool_outpoints generalizing dependents with
  | nil => simp
  | cons o rest ih =>
    rw [foldl_cons, ih, Map.lookup_insert']
    by_cases heq : a = o.hash
    · subst heq
      simp only [if_true, Option.getD_some, mem_insert_iff, mem_cons, exists_eq_or_imp, true_or,
        and_true]
      tauto
    · simp [heq, Ne.symm heq]

theorem add_dependents_keys : a ∈ (deps.add dependent spent_mempool_outpoints).dependents ↔
      a ∈ deps.dependents ∨ ∃ o ∈ spent_mempool_outpoints, o.hash = a := by
  unfold add
  simp only
  generalize deps.dependents = dependents
  induction spent_mempool_outpoints generalizing dependents with
  | nil => simp
  | cons o rest ih =>
    rw [foldl_cons, ih, Finmap.mem_insert]
    simp only [mem_cons, exists_eq_or_imp, eq_comm (a := a)]
    tauto

theorem mem_add_dependencies (hnone : dependent ∉ deps.dependencies) :
    a ∈ (deps.add dependent spent_mempool_outpoints).direct_dependencies b ↔
      a ∈ deps.direct_dependencies b ∨ b = dependent ∧ ∃ o ∈ spent_mempool_outpoints, o.hash = a := by
  have hlookup := Finmap.lookup_eq_none.mpr hnone
  unfold direct_dependencies add
  simp only
  cases spent_mempool_outpoints with
  | nil => simp
  | cons o rest =>
    rw [if_pos (by simp), Map.lookup_insert']
    by_cases heq : b = dependent
    · subst heq
      simp [hlookup, eq_comm (a := a)]
    · simp [heq]

theorem add_dependencies_keys (h : b ∈ (deps.add dependent spent_mempool_outpoints).dependencies) :
    b ∈ deps.dependencies ∨ b = dependent := by
  unfold add at h
  simp only at h
  split at h
  · exact (Finmap.mem_insert.mp h).symm
  · exact .inl h

end

/-! ## Clearing mined ids -/

section

variable (hself : ∀ d, d ∉ deps.direct_dependencies d)
include hself

theorem clear_dependent_eq : deps.clear_dependent dependent = deps := by
  unfold clear_dependent
  split
  · rfl
  · next dependencies hlookup =>
    have hnot : dependent ∉ dependencies := by simpa [direct_dependencies, hlookup] using hself dependent
    rw [erase_of_not_mem hnot, Map.insert_of_lookup hlookup]

theorem clear_mined_eq :
    deps.clear_mined a = { deps with dependents := deps.dependents.erase a } := by
  unfold clear_mined
  have hcleared : ∀ d, d ∉ ({ deps with dependents := deps.dependents.erase a } :
      TransactionDependencies).direct_dependencies d := hself
  generalize ({ deps with dependents := deps.dependents.erase a } : TransactionDependencies) = cleared at hcleared
  induction deps.direct_dependents a with
  | nil => rfl
  | cons d rest ih => rw [foldl_cons, clear_dependent_eq hcleared, ih]

theorem clear_mined_dependencies_eq (mined_ids : List TransactionHash) :
    (deps.clear_mined_dependencies mined_ids).dependencies = deps.dependencies ∧
      ∀ a, (deps.clear_mined_dependencies mined_ids).dependents.lookup a =
        if a ∈ mined_ids then none else deps.dependents.lookup a := by
  unfold clear_mined_dependencies
  induction mined_ids generalizing deps with
  | nil => simp
  | cons mined_tx_id rest ih =>
    rw [foldl_cons, clear_mined_eq hself]
    obtain ⟨hdependencies, hdependents⟩ :=
      @ih { deps with dependents := deps.dependents.erase mined_tx_id } hself
    refine ⟨hdependencies, fun a => ?_⟩
    rw [hdependents a, Map.lookup_erase']
    simp only [mem_cons]
    grind

end

end TransactionDependencies

open TransactionDependencies

namespace VerifiedSet

variable {p : Profile} {order : IterationOrder} {set set' : VerifiedSet} {tx : VerifiedUnminedTx}
  {a b : TransactionHash} {gone : TransactionHash → Prop} {o : OutPoint}
  {spent_mempool_outpoints : List OutPoint}

def Edge (set : VerifiedSet) (a b : TransactionHash) : Prop :=
  a ≠ b ∧ ∃ tx ∈ set.transactions, ∃ tx' ∈ set.transactions, tx.mined_id = a ∧ tx'.mined_id = b ∧
    ∃ o ∈ tx'.spent_outpoints, o ∈ tx.created_outputs.map (·.1)

structure Exact (set : VerifiedSet) : Prop extends Kept set where
  dependents : ∀ a b, b ∈ set.transaction_dependencies.direct_dependents a ↔ set.Edge a b
  dependencies : ∀ a b, a ∈ set.transaction_dependencies.direct_dependencies b ↔ set.Edge a b
  dependents_stored : ∀ a ∈ set.transaction_dependencies.dependents, set.contains a
  dependencies_stored : ∀ b ∈ set.transaction_dependencies.dependencies, set.contains b

theorem exact_empty : empty.Exact := by
  refine ⟨kept_empty, ?_, ?_, ?_, ?_⟩
  · simp [Edge, empty, direct_dependents]
  · simp [Edge, empty, direct_dependencies]
  · exact fun a ha => absurd ha Finmap.notMem_empty
  · exact fun b hb => absurd hb Finmap.notMem_empty

/-! ## Taking transactions out -/

def Whole (set : VerifiedSet) (gone : TransactionHash → Prop) : Prop := ∀ a b, set.Edge a b → (gone a ↔ gone b)

structure TakenOut (set set' : VerifiedSet) (gone : TransactionHash → Prop) : Prop where
  kept : set'.Kept
  leaves : Leaves set set' gone
  without : set.transaction_dependencies.Without set'.transaction_dependencies gone

theorem Leaves.edge (h : Leaves set set' gone) : set'.Edge a b ↔ set.Edge a b ∧ ¬ gone a ∧ ¬ gone b := by
  constructor
  · rintro ⟨hne, tx, htx, tx', htx', rfl, rfl, hspend⟩
    obtain ⟨htx, hgone⟩ := (h tx).mp htx
    obtain ⟨htx', hgone'⟩ := (h tx').mp htx'
    exact ⟨⟨hne, tx, htx, tx', htx', rfl, rfl, hspend⟩, hgone, hgone'⟩
  · rintro ⟨⟨hne, tx, htx, tx', htx', rfl, rfl, hspend⟩, hgone, hgone'⟩
    exact ⟨hne, tx, (h tx).mpr ⟨htx, hgone⟩, tx', (h tx').mpr ⟨htx', hgone'⟩, rfl, rfl, hspend⟩

theorem Leaves.contains (h : Leaves set set' gone) : set'.contains a ↔ set.contains a ∧ ¬ gone a := by
  simp only [contains_iff]
  constructor
  · rintro ⟨tx, htx, rfl⟩
    obtain ⟨htx, hgone⟩ := (h tx).mp htx
    exact ⟨⟨tx, htx, rfl⟩, hgone⟩
  · rintro ⟨⟨tx, htx, rfl⟩, hgone⟩
    exact ⟨tx, (h tx).mpr ⟨htx, hgone⟩, rfl⟩

theorem TakenOut.exact_iff (h : TakenOut set set' gone) (hexact : set.Exact) : set'.Exact ↔ set.Whole gone := by
  have hdependents : ∀ a b, b ∈ set'.transaction_dependencies.direct_dependents a ↔ set.Edge a b ∧ ¬ gone a := by
    intro a b
    rw [← hexact.dependents]
    exact h.without.tracks
  have hdependencies : ∀ a b, a ∈ set'.transaction_dependencies.direct_dependencies b ↔
      set.Edge a b ∧ ¬ gone b := by
    intro a b
    rw [← hexact.dependencies]
    unfold direct_dependencies
    by_cases hb : gone b
    · simp [h.without.dependencies_gone b hb, hb]
    · simp [h.without.dependencies_kept b hb, hb]
  constructor
  · intro hexact' a b hedge
    by_cases ha : gone a <;> by_cases hb : gone b
    · simp [ha, hb]
    · have hedge' := (hexact'.dependencies a b).mp ((hdependencies a b).mpr ⟨hedge, hb⟩)
      exact absurd ha (h.leaves.edge.mp hedge').2.1
    · have hedge' := (hexact'.dependents a b).mp ((hdependents a b).mpr ⟨hedge, ha⟩)
      exact absurd hb (h.leaves.edge.mp hedge').2.2
    · simp [ha, hb]
  · intro hwhole
    refine ⟨h.kept, fun a b => ?_, fun a b => ?_, fun a ha => ?_, fun b hb => ?_⟩
    · rw [hdependents, h.leaves.edge]
      exact and_congr_right fun hedge => ⟨fun ha => ⟨ha, fun hb => ha ((hwhole a b hedge).mpr hb)⟩, And.left⟩
    · rw [hdependencies, h.leaves.edge]
      exact and_congr_right fun hedge => ⟨fun hb => ⟨fun ha => hb ((hwhole a b hedge).mp ha), hb⟩, And.right⟩
    · rw [h.leaves.contains]
      rw [← Finmap.lookup_isSome] at ha
      have hgone : ¬ gone a := fun hgone => by simp [h.without.dependents_gone a hgone] at ha
      rw [h.without.dependents_kept a hgone, Finmap.lookup_isSome] at ha
      exact ⟨hexact.dependents_stored a ha, hgone⟩
    · rw [h.leaves.contains]
      rw [← Finmap.lookup_isSome] at hb
      have hgone : ¬ gone b := fun hgone => by simp [h.without.dependencies_gone b hgone] at hb
      rw [h.without.dependencies_kept b hgone, Finmap.lookup_isSome] at hb
      exact ⟨hexact.dependencies_stored b hb, hgone⟩

theorem Exact.tracks_eq (h : set.Exact) : set.transaction_dependencies.Tracks = set.Edge :=
  funext fun a => funext fun b => propext (h.dependents a b)

def Descendants (set : VerifiedSet) (ids : TransactionHash → Prop) (id : TransactionHash) : Prop :=
  ∃ key, ids key ∧ ReflTransGen set.Edge key id

theorem Exact.removed {key : TransactionHash} {removed : List VerifiedUnminedTx} (h : set.Exact)
    (hremoved : Removed set set' key removed) : TakenOut set set' (set.Descendants (· = key)) := by
  have hfamily : set.Family key = set.Descendants (· = key) := by
    funext id
    simp [Family, Descendants, h.tracks_eq]
  exact ⟨hremoved.kept, hfamily ▸ hremoved.leaves, hfamily ▸ hremoved.without⟩

theorem Exact.removedAll {ids : TransactionHash → Prop} (h : set.Exact) (hall : RemovedAll set set' ids) :
    TakenOut set set' (set.Descendants ids) := by
  have hfamilies : set.Families ids = set.Descendants ids := by
    funext id
    simp [Families, Family, Descendants, h.tracks_eq]
  exact ⟨hall.kept, hfamilies ▸ hall.leaves, hfamilies ▸ hall.without⟩

/-! ## Storing a transaction -/

def NamesSpends (set : VerifiedSet) (tx : VerifiedUnminedTx) (spent_mempool_outpoints : List OutPoint) : Prop :=
  ∀ o, o ∈ spent_mempool_outpoints ↔ o ∈ tx.spent_outpoints ∧ o ∈ set.created_outputs

def NoChildOf (set : VerifiedSet) (tx : VerifiedUnminedTx) : Prop :=
  ∀ tx' ∈ set.transactions, ∀ o ∈ tx'.spent_outpoints, o ∉ tx.created_outputs.map (·.1)

theorem Kept.mem_created (h : set.Kept) :
    o ∈ set.created_outputs ↔ ∃ tx ∈ set.transactions, o ∈ tx.created_outputs.map (·.1) := by
  rw [Finmap.mem_iff]
  simp only [h.created o, mem_map, Prod.exists, exists_and_right, exists_eq_right]
  exact ⟨fun ⟨out, tx, htx, hout⟩ => ⟨tx, htx, out, hout⟩, fun ⟨tx, htx, out, hout⟩ => ⟨out, tx, htx, hout⟩⟩

theorem hash_of_created (h : o ∈ tx.created_outputs.map (·.1)) : o.hash = tx.mined_id := by
  obtain ⟨⟨o, out⟩, hmem, rfl⟩ := mem_map.mp h
  exact (VerifiedUnminedTx.mem_created.mp hmem).1

theorem store_edge (h : set.Kept)
    (hnew : set.contains tx.mined_id = false) (hnames : set.NamesSpends tx spent_mempool_outpoints)
    (hchild : set.NoChildOf tx) : (set.store tx spent_mempool_outpoints).Edge a b ↔
      set.Edge a b ∨ b = tx.mined_id ∧ ∃ o ∈ spent_mempool_outpoints, o.hash = a := by
  have hother : ∀ tx' ∈ set.transactions, tx'.mined_id ≠ tx.mined_id := by
    intro tx' htx' heq
    rw [contains_iff.mpr ⟨tx', htx', heq⟩] at hnew
    cases hnew
  unfold Edge
  rw [store_transactions _ hnew]
  constructor
  · rintro ⟨hne, tx₁, htx₁, tx₂, htx₂, rfl, rfl, o, hspent, hcreated⟩
    rw [mem_append, mem_singleton] at htx₁ htx₂
    rcases htx₁ with htx₁ | rfl <;> rcases htx₂ with htx₂ | rfl
    · exact .inl ⟨hne, tx₁, htx₁, tx₂, htx₂, rfl, rfl, o, hspent, hcreated⟩
    · refine .inr ⟨rfl, o, (hnames o).mpr ⟨hspent, h.mem_created.mpr ⟨tx₁, htx₁, hcreated⟩⟩, ?_⟩
      exact hash_of_created hcreated
    · exact absurd hcreated (hchild tx₂ htx₂ o hspent)
    · exact absurd rfl hne
  · rintro (⟨hne, tx₁, htx₁, tx₂, htx₂, hedge⟩ | ⟨rfl, o, ho, rfl⟩)
    · exact ⟨hne, tx₁, mem_append_left _ htx₁, tx₂, mem_append_left _ htx₂, hedge⟩
    · obtain ⟨hspent, hcreated⟩ := (hnames o).mp ho
      obtain ⟨tx₁, htx₁, hcreated⟩ := h.mem_created.mp hcreated
      have hhash := hash_of_created hcreated
      refine ⟨hhash ▸ hother tx₁ htx₁, tx₁, mem_append_left _ htx₁, tx, by simp, hhash.symm, rfl, o, hspent,
        hcreated⟩

theorem store_exact (h : set.Exact)
    (hfree : set.has_spend_conflicts tx.transaction.transaction = false)
    (hnew : set.contains tx.mined_id = false) (hnames : set.NamesSpends tx spent_mempool_outpoints)
    (hchild : set.NoChildOf tx) : (set.store tx spent_mempool_outpoints).Exact := by
  have hcontains : ∀ id, (set.store tx spent_mempool_outpoints).contains id ↔
      set.contains id ∨ id = tx.mined_id := by
    intro id
    simp only [contains_iff, store_transactions _ hnew, mem_append, mem_singleton]
    grind
  have hnone : tx.mined_id ∉ set.transaction_dependencies.dependencies := fun hmem => by
    rw [h.dependencies_stored _ hmem] at hnew
    cases hnew
  refine ⟨store_kept _ h.toKept hfree hnew, fun a b => ?_, fun a b => ?_, fun a ha => ?_, fun b hb => ?_⟩
  · rw [store_edge h.toKept hnew hnames hchild, ← h.dependents]
    exact add_tracks _
  · rw [store_edge h.toKept hnew hnames hchild, ← h.dependencies]
    exact mem_add_dependencies _ hnone
  · rw [hcontains]
    rcases (add_dependents_keys _).mp ha with ha | ⟨o, ho, rfl⟩
    · exact .inl (h.dependents_stored a ha)
    · obtain ⟨tx₁, htx₁, hcreated⟩ := h.mem_created.mp ((hnames o).mp ho).2
      exact .inl (contains_iff.mpr ⟨tx₁, htx₁, (hash_of_created hcreated).symm⟩)
  · rw [hcontains]
    rcases add_dependencies_keys _ hb with hb | rfl
    · exact .inl (h.dependencies_stored b hb)
    · exact .inr rfl

/-! ## A block that takes transactions out -/

/-- What a block takes out: its own transactions, and those that conflict with it, with their descendants.
The dependents of the mined transactions were cleared before. -/
def TakenByBlock (set : VerifiedSet) (mined_ids : List TransactionHash) (transactions : List Transaction)
    (id : TransactionHash) : Prop :=
  id ∈ mined_ids ∨ ∃ tx ∈ set.transactions, tx.mined_id ∉ mined_ids ∧
    Storage.has_duplicate_spend transactions tx = true ∧
    ReflTransGen (fun a b => set.Edge a b ∧ a ∉ mined_ids) tx.mined_id id

theorem Exact.taken_by_block {mined_ids : List TransactionHash} {transactions : List Transaction}
    {set₁ set₂ : VerifiedSet} (h : set.Exact)
    (hmined : RemovedAll (set.clear_mined_dependencies mined_ids) set₁
      ((set.clear_mined_dependencies mined_ids).Matching (Storage.has_mined_id mined_ids)))
    (hspends : RemovedAll set₁ set₂ (set₁.Matching (Storage.has_duplicate_spend transactions))) :
    TakenOut set set₂ (set.TakenByBlock mined_ids transactions) := by
  have hself : ∀ d, d ∉ set.transaction_dependencies.direct_dependencies d := fun d hd =>
    ((h.dependencies d d).mp hd).1 rfl
  obtain ⟨hdependencies, hdependents⟩ :=
    clear_mined_dependencies_eq hself mined_ids
  have hcleared : ∀ a b, (set.clear_mined_dependencies mined_ids).transaction_dependencies.Tracks a b ↔
      set.Edge a b ∧ a ∉ mined_ids := by
    intro a b
    rw [← h.dependents]
    unfold Tracks direct_dependents
    simp only [clear_mined_dependencies, hdependents a]
    by_cases ha : a ∈ mined_ids <;> simp [ha]
  -- a mined transaction has no tracked dependents any more
  have hgone : ∀ id, (set.clear_mined_dependencies mined_ids).Families
      ((set.clear_mined_dependencies mined_ids).Matching (Storage.has_mined_id mined_ids)) id ↔
        set.contains id ∧ id ∈ mined_ids := by
    intro id
    constructor
    · rintro ⟨key, ⟨tx, htx, hmatch, rfl⟩, hfamily⟩
      have hmem := Storage.has_mined_id_iff.mp hmatch
      cases ReflTransGen.cases_head hfamily with
      | inl heq => exact heq ▸ ⟨contains_iff.mpr ⟨tx, htx, rfl⟩, hmem⟩
      | inr hstep =>
        obtain ⟨b, htracks, -⟩ := hstep
        exact absurd hmem ((hcleared _ _).mp htracks).2
    · rintro ⟨hstored, hmem⟩
      obtain ⟨tx, htx, rfl⟩ := contains_iff.mp hstored
      exact ⟨_, ⟨tx, htx, Storage.has_mined_id_iff.mpr hmem, rfl⟩, .refl⟩
  have hleft : ∀ tx, tx ∈ set₁.transactions ↔ tx ∈ set.transactions ∧ tx.mined_id ∉ mined_ids := by
    intro tx
    rw [hmined.leaves tx, hgone, contains_iff]
    exact and_congr_right fun htx => ⟨fun hnot hmem => hnot ⟨⟨tx, htx, rfl⟩, hmem⟩, fun hnot hmem => hnot hmem.2⟩
  have htracks : set₁.transaction_dependencies.Tracks = fun a b => set.Edge a b ∧ a ∉ mined_ids := by
    funext a b
    rw [hmined.without.tracks, hcleared, hgone]
    exact propext ⟨And.left, fun hedge => ⟨hedge, fun hmem => hedge.2 hmem.2⟩⟩
  have hfamilies : ∀ id, set.TakenByBlock mined_ids transactions id ↔
      id ∈ mined_ids ∨ set₁.Families (set₁.Matching (Storage.has_duplicate_spend transactions)) id := by
    intro id
    unfold TakenByBlock Families Matching Family
    rw [htracks]
    simp only [hleft]
    grind
  have hwithout := hmined.without.trans hspends.without
  refine ⟨hspends.kept, fun tx => ?_, fun a ha => ?_, fun a ha => ?_, fun a ha => ?_, fun a ha => ?_⟩
  · rw [hspends.leaves tx, hleft tx, hfamilies, not_or, and_assoc]
  · rw [hfamilies, not_or] at ha
    rw [hwithout.dependents_kept a (by rw [hgone]; tauto)]
    exact (hdependents a).trans (if_neg ha.1)
  · by_cases hremoved : (set.contains a ∧ a ∈ mined_ids) ∨
        set₁.Families (set₁.Matching (Storage.has_duplicate_spend transactions)) a
    · exact hwithout.dependents_gone a (by rw [hgone]; exact hremoved)
    · rw [hwithout.dependents_kept a (by rw [hgone]; exact hremoved)]
      rw [hfamilies] at ha
      exact (hdependents a).trans (if_pos (by tauto))
  · rw [hfamilies, not_or] at ha
    rw [hwithout.dependencies_kept a (by rw [hgone]; tauto)]
    exact congrArg (·.lookup a) hdependencies
  · by_cases hremoved : (set.contains a ∧ a ∈ mined_ids) ∨
        set₁.Families (set₁.Matching (Storage.has_duplicate_spend transactions)) a
    · exact hwithout.dependencies_gone a (by rw [hgone]; exact hremoved)
    -- a mined id that is not stored has no entry
    · rw [hwithout.dependencies_kept a (by rw [hgone]; exact hremoved)]
      refine (congrArg (·.lookup a) hdependencies).trans (Finmap.lookup_eq_none.mpr fun hmem => hremoved ?_)
      rw [hfamilies] at ha
      exact ha.imp_left fun ha => ⟨h.dependencies_stored a hmem, ha⟩

/-- Every eviction of the loop takes out all that is linked to the evicted transaction. -/
def EvictsWhole (p : Profile) (order : IterationOrder) (tx_cost_limit : Nat) :
    Nat → (Nat → Nat) → VerifiedSet → Prop
  | 0, _, _ => True
  | rounds + 1, draws, set => tx_cost_limit < set.total_cost →
    ∀ key, set.choose_key order (draws 0) = .ok key → set.Whole (set.Descendants (· = key)) ∧
      ∀ removed set', set.remove p key = .ok (removed, set') →
        EvictsWhole p order tx_cost_limit rounds (fun i => draws (i + 1)) set'

end VerifiedSet

open VerifiedSet

/-! ## The verified set of the storage -/

namespace Storage

variable {p : Profile} {now : Nat} {order : IterationOrder} {s s' : Storage} {ids : List UnminedTxId}
  {r : Except MempoolError UnminedTxId} {draws : Nat → Nat}

structure InOrder (s : Storage) : Prop where
  exact : s.verified.Exact
  cost : s.verified.total_cost ≤ s.tx_cost_limit

theorem InOrder.same (h : s.InOrder) (hsame : s'.verified = s.verified ∧ s'.tx_cost_limit = s.tx_cost_limit) :
    s'.InOrder := by
  refine ⟨hsame.1 ▸ h.exact, ?_⟩
  rw [hsame.1, hsame.2]
  exact h.cost

theorem update_rejected_metrics_verified (h : s.update_rejected_metrics now = .ok s') :
    s'.verified = s.verified ∧ s'.tx_cost_limit = s.tx_cost_limit := by
  unfold update_rejected_metrics at h
  generalize chainReasons = reasons at h
  induction reasons generalizing s with
  | nil =>
    cases h
    exact ⟨rfl, rfl⟩
  | cons reason reasons ih =>
    obtain ⟨s₁, hcount, hrest⟩ := except_bind_ok.mp h
    obtain ⟨hverified, hlimit⟩ := ih hrest
    have hsame : s₁.verified = s.verified ∧ s₁.tx_cost_limit = s.tx_cost_limit := by
      unfold count_list at hcount
      split at hcount
      · cases hcount
        exact ⟨rfl, rfl⟩
      · obtain ⟨r, -, hcount⟩ := except_bind_ok.mp hcount
        cases hcount
        exact ⟨rfl, rfl⟩
    exact ⟨hverified.trans hsame.1, hlimit.trans hsame.2⟩

theorem limit_rejection_list_memory_verified (h : s.limit_rejection_list_memory now = .ok s') :
    s'.verified = s.verified ∧ s'.tx_cost_limit = s.tx_cost_limit := by
  have hmetrics := update_rejected_metrics_verified (s := { s with
    tip_rejected_exact :=
      if MAX_EVICTION_MEMORY_ENTRIES < s.tip_rejected_exact.keys.card then ∅ else s.tip_rejected_exact
    tip_rejected_same_effects :=
      if MAX_EVICTION_MEMORY_ENTRIES < s.tip_rejected_same_effects.keys.card then ∅
      else s.tip_rejected_same_effects }) h
  exact hmetrics

theorem reject_verified {tx_id : UnminedTxId} {reason : RejectionError} (h : s.reject now tx_id reason = .ok s') :
    s'.verified = s.verified ∧ s'.tx_cost_limit = s.tx_cost_limit := by
  cases reason with
  | ExactTip e =>
    exact limit_rejection_list_memory_verified
      (s := { s with tip_rejected_exact := s.tip_rejected_exact.insert tx_id e }) h
  | SameEffectsTip e =>
    exact limit_rejection_list_memory_verified
      (s := { s with tip_rejected_same_effects := s.tip_rejected_same_effects.insert tx_id.mined_id e }) h
  | SameEffectsChain e =>
    obtain ⟨list, -, h⟩ := except_bind_ok.mp h
    exact limit_rejection_list_memory_verified
      (s := { s with chain_rejected_same_effects := s.chain_rejected_same_effects.insert e list }) h

theorem reject_each_verified {reason : SameEffectsChainRejectionError}
    (h : s.reject_each now reason ids = .ok s') :
    s'.verified = s.verified ∧ s'.tx_cost_limit = s.tx_cost_limit := by
  induction ids generalizing s with
  | nil =>
    cases h
    exact ⟨rfl, rfl⟩
  | cons id ids ih =>
    obtain ⟨s₁, hreject, hrest⟩ := except_bind_ok.mp h
    obtain ⟨hverified, hlimit⟩ := reject_verified hreject
    exact ⟨(ih hrest).1.trans hverified, (ih hrest).2.trans hlimit⟩

theorem evict_loop_exact {unmined_tx_id : UnminedTxId} {fuel : Nat}
    {result : Except MempoolError UnminedTxId} (h : s.verified.Exact)
    (hwhole : s.verified.EvictsWhole p order s.tx_cost_limit fuel draws)
    (hok : s.evict_loop p now order unmined_tx_id fuel draws result = .ok (r, s')) :
    s'.InOrder := by
  induction fuel generalizing s draws result with
  | zero => cases hok
  | succ fuel ih =>
    by_cases hcost : s.tx_cost_limit < s.verified.total_cost
    · rw [evict_loop, if_pos hcost] at hok
      obtain ⟨⟨victim, verified⟩, hevict, hrejects⟩ := except_bind_ok.mp hok
      obtain ⟨victim_tx, -, hrejects⟩ := except_bind_ok.mp hrejects
      obtain ⟨s₁, hreject, hloop⟩ := except_bind_ok.mp hrejects
      obtain ⟨key, hchoose, hevict⟩ := except_bind_ok.mp hevict
      obtain ⟨⟨removed, left⟩, hremove, hevict⟩ := except_bind_ok.mp hevict
      cases hevict
      obtain ⟨hverified, hlimit⟩ := reject_verified hreject
      obtain ⟨hkey, hrest⟩ := hwhole hcost key hchoose
      obtain ⟨-, -, hremoved⟩ := remove_spec h.toKept hremove
      refine ih (s := s₁) ?_ ?_ hloop
      · rw [hverified]
        exact ((h.removed hremoved).exact_iff h).mpr hkey
      · rw [hverified, hlimit]
        exact hrest removed verified hremove
    · rw [evict_loop, if_neg hcost] at hok
      cases hok
      exact ⟨h, Nat.le_of_not_lt hcost⟩

/-- The condition of an insertion: the new transaction has no child in the pool yet, and what is evicted
is not linked to what stays. -/
def InsertsWhole (p : Profile) (order : IterationOrder) (s : Storage) (tx : VerifiedUnminedTx)
    (spent_mempool_outpoints : List OutPoint) (draws : Nat → Nat) : Prop :=
  ∀ set, s.verified.insert p tx spent_mempool_outpoints = .ok (.ok set) → s.verified.NoChildOf tx ∧
    set.EvictsWhole p order s.tx_cost_limit (set.transactions.length + 1) draws

theorem insert_exact {tx : VerifiedUnminedTx} {spent_mempool_outpoints : List OutPoint}
    (h : s.InOrder) (hnames : s.verified.NamesSpends tx spent_mempool_outpoints)
    (hwhole : s.rejection_error now order tx.transaction.id = none → s.verified.contains tx.mined_id = false →
      s.InsertsWhole p order tx spent_mempool_outpoints draws)
    (hok : s.insert p now order draws tx spent_mempool_outpoints = .ok (r, s')) : s'.InOrder := by
  unfold insert at hok
  split at hok
  · cases hok
    exact h
  · next herror =>
    split at hok
    · cases hok
      exact h
    · next hnew =>
      obtain ⟨⟨r₁, s₁⟩, hinsert, hloop⟩ := except_bind_ok.mp hok
      obtain ⟨outcome, hverified, hinsert⟩ := except_bind_ok.mp hinsert
      cases outcome with
      | ok set =>
        cases hinsert
        obtain ⟨hchild, hevicts⟩ := hwhole herror (Bool.eq_false_of_not_eq_true hnew) set hverified
        refine evict_loop_exact ?_ hevicts hloop
        rw [insert_eq] at hverified
        split at hverified
        · cases hverified
        · next hfree =>
          split at hverified
          · cases hverified
          · cases hverified
            exact store_exact h.exact (Bool.eq_false_of_not_eq_true hfree)
              (Bool.eq_false_of_not_eq_true hnew) hnames hchild
      | error err =>
        obtain ⟨s₂, hreject, hinsert⟩ := except_bind_ok.mp hinsert
        cases hinsert
        obtain ⟨hsame, hlimit⟩ := reject_verified hreject
        have hevicts : s₁.verified.EvictsWhole p order s₁.tx_cost_limit
            (s₁.verified.transactions.length + 1) draws := by
          intro hover
          rw [hsame, hlimit] at hover
          exact absurd h.cost (Nat.not_le.mpr hover)
        exact evict_loop_exact (hsame ▸ h.exact) hevicts hloop

theorem remove_matching_exact {predicate : VerifiedUnminedTx → Bool} {set : VerifiedSet}
    (h : s.InOrder) (hwhole : s.verified.Whole (s.verified.Descendants (s.verified.Matching predicate)))
    (hok : s.verified.remove_all_that p order predicate = .ok (ids, set)) : { s with verified := set }.InOrder := by
  have hall := remove_all_that_spec h.exact.toKept hok
  exact ⟨((h.exact.removedAll hall).exact_iff h.exact).mpr hwhole, (hall.cost_le h.exact.toKept).trans h.cost⟩

theorem remove_exact_exact {exact_wtxids : List UnminedTxId} {n : Nat} (h : s.InOrder)
    (hwhole : s.verified.Whole (s.verified.Descendants (s.verified.Matching (has_exact_id exact_wtxids))))
    (hok : s.remove_exact p order exact_wtxids = .ok (n, s')) : s'.InOrder := by
  obtain ⟨⟨removed, set⟩, hremove, hok⟩ := except_bind_ok.mp hok
  cases hok
  exact remove_matching_exact h hwhole hremove

theorem remove_expired_exact {tip_height : Nat} (h : s.InOrder)
    (hwhole : s.verified.Whole (s.verified.Descendants (s.verified.Matching (has_expired_at tip_height))))
    (hok : s.remove_expired_transactions p now order tip_height = .ok (ids, s')) : s'.InOrder := by
  obtain ⟨⟨removed, set⟩, hremove, hok⟩ := except_bind_ok.mp hok
  obtain ⟨s₁, hreject, hok⟩ := except_bind_ok.mp hok
  cases hok
  rw [← Matching.congr (has_mined_id_listed h.exact.toKept (has_expired_at tip_height))] at hwhole
  exact (remove_matching_exact h hwhole hremove).same (reject_each_verified hreject)

theorem reject_and_remove_exact {mined_ids : List TransactionHash} {transactions : List Transaction}
    {removed : RemovedTransactionIds} (h : s.InOrder)
    (hwhole : s.verified.Whole (s.verified.TakenByBlock mined_ids transactions))
    (hok : (s.clear_mined_dependencies mined_ids).reject_and_remove_same_effects p now order mined_ids transactions =
      .ok (removed, s')) : s'.InOrder := by
  obtain ⟨⟨removed₁, set₁⟩, hremove₁, hok⟩ := except_bind_ok.mp hok
  obtain ⟨⟨removed₂, set₂⟩, hremove₂, hok⟩ := except_bind_ok.mp hok
  obtain ⟨s₃, hreject₃, hok⟩ := except_bind_ok.mp hok
  obtain ⟨s₄, hreject₄, hok⟩ := except_bind_ok.mp hok
  cases hok
  have hcleared : (s.verified.clear_mined_dependencies mined_ids).Kept := { h.exact.toKept with }
  have hmined := remove_all_that_spec hcleared hremove₁
  have hspends := remove_all_that_spec hmined.kept hremove₂
  rw [Matching.congr (has_exact_id_listed hmined.kept (has_duplicate_spend transactions))] at hspends
  have hcost := (hspends.cost_le hmined.kept).trans (hmined.cost_le hcleared)
  have hexact := ((h.exact.taken_by_block hmined hspends).exact_iff h.exact).mpr hwhole
  have hset : { s with verified := set₂ }.InOrder := ⟨hexact, hcost.trans h.cost⟩
  have hset₃ : s₃.InOrder := hset.same (reject_each_verified hreject₃)
  exact hset₃.same (reject_each_verified hreject₄)

end Storage

open Storage

/-! ## Runs -/

namespace Mempool

variable {p : Profile} {m m' : Mempool} {update : Poll}

def Names (m : Mempool) (update : Poll) : Prop :=
  match update.event with
  | .insert tx spent _ => m.storage.verified.NamesSpends tx spent
  | _ => True

/-- No transaction is taken out while a parent or a child of it stays, and none is stored after a child. -/
def TakesWhole (p : Profile) (m : Mempool) (update : Poll) : Prop :=
  match update.event with
  | .insert tx spent draws =>
    m.storage.rejection_error (m.now + update.elapsed) update.order tx.transaction.id = none →
      m.storage.verified.contains tx.mined_id = false → m.storage.InsertsWhole p update.order tx spent draws
  | .grow transaction_hashes transactions =>
    m.storage.verified.Whole (m.storage.verified.TakenByBlock transaction_hashes.dedup transactions)
  | .remove_exact exact_wtxids => m.storage.verified.Whole
    (m.storage.verified.Descendants (m.storage.verified.Matching (Storage.has_exact_id exact_wtxids)))
  | .remove_expired_transactions tip_height => m.storage.verified.Whole
    (m.storage.verified.Descendants (m.storage.verified.Matching (Storage.has_expired_at tip_height)))
  | .reject_if_needed _ _ | .clear => True

theorem poll_inOrder (h : m.storage.InOrder) (hnames : m.Names update) (hwhole : TakesWhole p m update)
    (hok : poll p m update = .ok m') : m'.storage.InOrder := by
  obtain ⟨s, hevents, hm'⟩ := except_bind_ok.mp hok
  cases hm'
  unfold Names at hnames
  unfold TakesWhole at hwhole
  cases hevent : update.event with
  | insert tx spent draws =>
    simp only [hevent, run_event, run_operation, Runs.map_ok] at hevents hnames hwhole
    obtain ⟨⟨r, s₁⟩, hinsert, rfl⟩ := hevents
    exact insert_exact h hnames hwhole hinsert
  | grow transaction_hashes transactions =>
    simp only [hevent] at hevents hwhole
    obtain ⟨s₁, hclear, hevents⟩ := except_bind_ok.mp hevents
    cases hclear
    obtain ⟨s₂, hoperation, hevents⟩ := except_bind_ok.mp hevents
    obtain ⟨⟨removed, s₃⟩, hremove, rfl⟩ := Runs.map_ok.mp hoperation
    have hremoved := reject_and_remove_exact h hwhole hremove
    exact hremoved.same (update_rejected_metrics_verified
      (s := { s₃ with tip_rejected_exact := ∅, tip_rejected_same_effects := ∅ }) hevents)
  | remove_exact exact_wtxids =>
    simp only [hevent, run_event, run_operation, Runs.map_ok] at hevents hwhole
    obtain ⟨⟨r, s₁⟩, hremove, rfl⟩ := hevents
    exact remove_exact_exact h hwhole hremove
  | remove_expired_transactions tip_height =>
    simp only [hevent, run_event, run_operation, Runs.map_ok] at hevents hwhole
    obtain ⟨⟨r, s₁⟩, hremove, rfl⟩ := hevents
    exact remove_expired_exact h hwhole hremove
  | reject_if_needed tx_id e =>
    simp only [hevent] at hevents
    cases e with
    | Invalid error =>
      have hreject : m.storage.reject (m.now + update.elapsed) tx_id (.ExactTip (.FailedVerification error)) =
        .ok s := hevents
      exact h.same (reject_verified hreject)
    | _ =>
      cases hevents
      exact h
  | clear =>
    simp only [hevent] at hevents
    have hsame := update_rejected_metrics_verified (s := { m.storage with
      verified := .empty, tip_rejected_exact := ∅, tip_rejected_same_effects := ∅,
      chain_rejected_same_effects := ∅ }) hevents
    exact InOrder.same ⟨exact_empty, Nat.zero_le _⟩ hsame

end Mempool

open Mempool

/-- The indexes are what is computed from the stored transactions, and what follows for the two maps. -/
structure VerifiedSet.IndexesExact (set : VerifiedSet) : Prop extends Exact set where
  inverse : ∀ a b, b ∈ set.transaction_dependencies.direct_dependents a ↔
    a ∈ set.transaction_dependencies.direct_dependencies b
  ids_stored : ∀ a b, b ∈ set.transaction_dependencies.direct_dependents a → set.contains a ∧ set.contains b
  none_left : ∀ b, (∀ a, set.contains a → ¬ set.Edge a b) →
    set.transaction_dependencies.direct_dependencies b = []

theorem VerifiedSet.Exact.indexesExact {set : VerifiedSet} (h : set.Exact) : set.IndexesExact where
  toExact := h
  inverse a b := by rw [h.dependents, h.dependencies]
  ids_stored a b hb := by
    obtain ⟨-, tx, htx, tx', htx', rfl, rfl, -⟩ := (h.dependents a b).mp hb
    exact ⟨contains_iff.mpr ⟨tx, htx, rfl⟩, contains_iff.mpr ⟨tx', htx', rfl⟩⟩
  none_left b hnone := by
    refine eq_nil_iff_forall_not_mem.mpr fun a ha => ?_
    refine hnone a ?_ ((h.dependencies a b).mp ha)
    obtain ⟨-, tx, htx, -, -, rfl, -⟩ := (h.dependencies a b).mp ha
    exact contains_iff.mpr ⟨tx, htx, rfl⟩

/-- The indexes are exact in every state of such a run. -/
theorem mempool_indexes_exact {p : Profile} {tx_cost_limit eviction_memory_time : Nat}
    {updates done : List Mempool.Poll} {m : Mempool}
    (hmeets : Runs.Meets (Mempool.poll p) (fun m update => m.Names update ∧ Mempool.TakesWhole p m update)
      (Mempool.new tx_cost_limit eviction_memory_time) updates) (hdone : done <+: updates)
    (hrun : Runs.run (Mempool.poll p) (Mempool.new tx_cost_limit eviction_memory_time) done = .ok m) :
    m.storage.verified.IndexesExact := by
  have hstart : (Mempool.new tx_cost_limit eviction_memory_time).storage.InOrder :=
    ⟨VerifiedSet.exact_empty, Nat.zero_le _⟩
  have hinv : m.storage.InOrder := by
    refine Runs.run_preserves (fun m => m.storage.InOrder) ?_ hstart hmeets hdone hrun
    exact fun m update m' h hupdate hok => poll_inOrder h hupdate.1 hupdate.2 hok
  exact hinv.exact.indexesExact

namespace Sample

def update (event : Event) : Poll := ⟨1, .listed, event⟩

def linked (expiry_height : Nat) : List Poll :=
  [update (.insert (pooled 1 0 10) [] fun _ => 0),
    update (.insert (pooled 2 1 expiry_height) [⟨poolId 1, 0⟩] fun _ => 0)]

end Sample

open mempool.Sample

/-- Two linked transactions, of which one expires, are removed together. -/
theorem linked_expire_together : ∃ m, Runs.run (Mempool.poll .dev) (Mempool.new 80000000 3600)
    (linked 100 ++ [update (.remove_expired_transactions 10)]) = .ok m ∧
      m.storage.verified.IndexesExact := by
  have hevicts : ∀ {set : VerifiedSet} {rounds draws}, set.total_cost ≤ 80000000 →
      set.EvictsWhole .dev .listed 80000000 rounds draws := by
    intro set rounds draws hcost
    cases rounds with
    | zero => trivial
    | succ rounds => exact fun hover => absurd hover (Nat.not_lt.mpr hcost)
  have hmeets : Runs.Meets (poll .dev) (fun m update => m.Names update ∧ TakesWhole .dev m update)
      (new 80000000 3600) (linked 100 ++ [update (.remove_expired_transactions 10)]) := by
    refine ⟨⟨fun o => ?_, fun _ _ set hset => ?_⟩, fun m hm => ?_⟩
    · simp [Mempool.new, Storage.new, VerifiedSet.empty, Finmap.notMem_empty]
    · cases hset
      exact ⟨fun tx' htx' => absurd htx' not_mem_nil, hevicts (by decide)⟩
    cases hm
    refine ⟨⟨fun o => ?_, fun _ _ set hset => ?_⟩, fun m hm => ?_⟩
    · constructor
      · intro ho
        cases mem_singleton.mp ho
        exact ⟨mem_singleton.mpr rfl, by decide⟩
      · exact And.left
    · cases hset
      refine ⟨fun tx' htx' => ?_, hevicts (by decide)⟩
      cases mem_singleton.mp htx'
      decide
    cases hm
    refine ⟨⟨trivial, ?_⟩, fun _ _ => trivial⟩
    -- the only link is from the first transaction to the second, and both go
    rintro a b ⟨hne, tx, htx, hspend⟩
    have hgone : Storage.has_expired_at 10 tx = true := by
      rcases mem_cons.mp htx with rfl | htx
      · rfl
      cases mem_singleton.mp htx
      obtain ⟨tx', htx', -, -, hcreated⟩ := hspend
      rcases mem_cons.mp htx' with rfl | htx'
      · revert hcreated
        decide
      cases mem_singleton.mp htx'
      revert hcreated
      decide
    have ha : tx.mined_id = a := hspend.choose_spec.2.1
    have hedge := Relation.ReflTransGen.single (r := VerifiedSet.Edge _) ⟨hne, tx, htx, hspend⟩
    exact ⟨fun _ => ⟨a, ⟨tx, htx, hgone, ha⟩, hedge⟩, fun _ => ⟨a, ⟨tx, htx, hgone, ha⟩, .refl⟩⟩
  exact ⟨_, rfl, mempool_indexes_exact hmeets (prefix_refl _) rfl⟩

/-- A mined transaction stays among the dependencies of its child, and a removed one among the
dependents of its parent. -/
theorem stale_dependencies : (∃ m, Runs.run (Mempool.poll .release) (Mempool.new 80000000 3600)
        (linked 100 ++ [update (.grow [poolId 1] [(pooled 1 0 10).transaction.transaction])]) =
          .ok m ∧ m.storage.verified.transactions = [pooled 2 1 100] ∧
      m.storage.verified.transaction_dependencies.direct_dependencies (poolId 2) = [poolId 1]) ∧
    ∃ m, Runs.run (Mempool.poll .release) (Mempool.new 80000000 3600)
        (linked 5 ++ [update (.remove_expired_transactions 5)]) = .ok m ∧
      m.storage.verified.transactions = [pooled 1 0 10] ∧
      m.storage.verified.transaction_dependencies.direct_dependents (poolId 1) = [poolId 2] :=
  ⟨⟨_, rfl, rfl, rfl⟩, _, rfl, rfl, rfl⟩

end ZebraCrosslink.mempool
