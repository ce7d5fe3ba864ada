import ZebraCrosslink.Mempool.Rejections
import ZebraCrosslink.Mempool.Removal
import ZebraCrosslink.Rust.Runs

/-!
# When the mempool panics

A removal panics if a tracked dependent of what it removes is not stored. The other panics are about
ids that are rejected again while they are remembered.
-/

open Rust List

namespace ZebraCrosslink.mempool

namespace VerifiedSet

variable {p : Profile} {order : IterationOrder} {set set' : VerifiedSet} {tx : VerifiedUnminedTx}
  (spent_mempool_outpoints : List OutPoint) {ids : TransactionHash → Prop}

/-! ## Storing a transaction -/

theorem has_conflicts_eq_false {α : Type} [DecidableEq α] {s : Finset α} {l : List α} :
    has_conflicts s l = false ↔ ∀ a ∈ l, a ∉ s := by
  simp [has_conflicts]

theorem store_transactions (hnew : set.contains tx.mined_id = false) :
    (set.store tx spent_mempool_outpoints).transactions = set.transactions ++ [tx] := by
  have hother : ∀ tx' ∈ set.transactions, tx'.mined_id ≠ tx.mined_id := by
    intro tx' htx' heq
    rw [contains_iff.mpr ⟨tx', htx', heq⟩] at hnew
    cases hnew
  rw [store, OrderedMap.remove, filter_eq_self.mpr]
  simpa using hother

theorem store_kept (h : set.Kept)
    (hfree : set.has_spend_conflicts tx.transaction.transaction = false)
    (hnew : set.contains tx.mined_id = false) : (set.store tx spent_mempool_outpoints).Kept := by
  have htxs := store_transactions spent_mempool_outpoints hnew
  have hother : ∀ tx' ∈ set.transactions, tx'.mined_id ≠ tx.mined_id := by
    intro tx' htx' heq
    rw [contains_iff.mpr ⟨tx', htx', heq⟩] at hnew
    cases hnew
  simp only [has_spend_conflicts, Bool.or_eq_false_iff, has_conflicts_eq_false] at hfree
  obtain ⟨⟨⟨hspent, hsprout⟩, hsapling⟩, horchard⟩ := hfree
  constructor
  all_goals rw [htxs]
  · rw [map_append, map_singleton]
    refine h.keys.append (nodup_singleton _) fun id hid hid' => ?_
    obtain ⟨tx', htx', rfl⟩ := mem_map.mp hid
    exact hother tx' htx' (mem_singleton.mp hid')
  · simp [store, h.size]
  · simp [store, h.cost]
  · refine h.created.append (fun e he e' he' heq => ?_) fun e he tx' htx' e' he' heq => ?_
    · have hout := (VerifiedUnminedTx.mem_created.mp he).2
      rw [heq, (VerifiedUnminedTx.mem_created.mp he').2] at hout
      exact (Option.some.inj hout).symm
    · have hid := (VerifiedUnminedTx.mem_created.mp he').1
      rw [heq, (VerifiedUnminedTx.mem_created.mp he).1] at hid
      exact hother tx' htx' hid.symm
  · exact h.spent.append
  · exact h.sprout.append
  · exact h.sapling.append
  · exact h.orchard.append
  · exact h.spent_apart.append fun o ho tx' htx' ho' => hspent o ho ((h.spent o).mpr ⟨tx', htx', ho'⟩)
  · exact h.sprout_apart.append fun o ho tx' htx' ho' => hsprout o ho ((h.sprout o).mpr ⟨tx', htx', ho'⟩)
  · exact h.sapling_apart.append fun o ho tx' htx' ho' => hsapling o ho ((h.sapling o).mpr ⟨tx', htx', ho'⟩)
  · exact h.orchard_apart.append fun o ho tx' htx' ho' => horchard o ho ((h.orchard o).mpr ⟨tx', htx', ho'⟩)

theorem insert_eq (p : Profile) (set : VerifiedSet) (tx : VerifiedUnminedTx)
    (spent_mempool_outpoints : List OutPoint) : set.insert p tx spent_mempool_outpoints = .ok
      (if set.has_spend_conflicts tx.transaction.transaction then .error .SpendConflict
      else if spent_mempool_outpoints.any fun outpoint => outpoint ∉ set.created_outputs then
        .error .MissingOutput else .ok (set.store tx spent_mempool_outpoints)) := by
  unfold insert
  split
  · rfl
  · split
    · rfl
    · simp only [update_metrics_ok, bind, Except.bind]
      rfl

/-! ## Choosing a transaction to evict -/

theorem sample_lt {weights : List Nat} {draw : Nat} (h : draw < weights.sum) :
    sample weights draw < weights.length := by
  induction weights generalizing draw with
  | nil => simp at h
  | cons weight weights ih =>
    rw [sample, length_cons]
    rw [sum_cons] at h
    split
    · omega
    · next hge =>
      have hrest : draw - weight < weights.sum := by omega
      have := ih hrest
      omega

theorem eviction_weight_pos (tx : VerifiedUnminedTx) : 0 < tx.eviction_weight := by
  unfold VerifiedUnminedTx.eviction_weight VerifiedUnminedTx.cost MEMPOOL_TRANSACTION_COST_THRESHOLD
  split <;> omega

theorem choose_key_ok (order : IterationOrder) (draw : Nat) (h : set.transactions ≠ []) :
    ∃ tx ∈ set.transactions, set.choose_key order draw = .ok tx.mined_id := by
  obtain ⟨tx, htx⟩ := exists_mem_of_ne_nil _ h
  have hweight : 0 < ((order.arrange set.transactions).map (·.eviction_weight)).sum := by
    refine Nat.lt_of_lt_of_le (eviction_weight_pos tx) (le_sum_of_mem ?_)
    exact mem_map_of_mem ((order.mem_arrange).mpr htx)
  have hlt := sample_lt (Nat.mod_lt draw hweight)
  rw [length_map] at hlt
  refine ⟨_, (order.mem_arrange).mp (getElem_mem hlt), ?_⟩
  simp [choose_key, if_neg (Nat.pos_iff_ne_zero.mp hweight), orAbort, bind, Except.bind,
    getElem?_eq_getElem hlt]

theorem Removed.length_lt {key : TransactionHash} {removed : List VerifiedUnminedTx}
    (hremoved : Removed set set' key removed) : set'.transactions.length < set.transactions.length := by
  obtain ⟨tx, htx, -, hid⟩ := hremoved.last
  have hgone : tx ∉ set'.transactions := fun hmem =>
    ((hremoved.leaves tx).mp hmem).2 (hid ▸ Relation.ReflTransGen.refl)
  have hnodup : (tx :: set'.transactions).Nodup :=
    nodup_cons.mpr ⟨hgone, hremoved.kept.keys.of_map⟩
  refine (subperm_of_subset hnodup fun tx' htx' => ?_).length_le
  rcases mem_cons.mp htx' with rfl | htx'
  · exact htx
  · exact ((hremoved.leaves tx').mp htx').1

theorem Matching.congr {predicate predicate' : VerifiedUnminedTx → Bool}
    (h : ∀ tx ∈ set.transactions, predicate tx = predicate' tx) :
    set.Matching predicate = set.Matching predicate' := by
  funext key
  refine propext (exists_congr fun tx => and_congr_right fun htx => and_congr_left fun _ => ?_)
  rw [h tx htx]

theorem mem_ids_iff (h : set.Kept) (predicate : VerifiedUnminedTx → Bool) (htx : tx ∈ set.transactions) :
    tx.mined_id ∈ (set.transactions.filter predicate).map (·.mined_id) ↔ predicate tx = true := by
  simp only [mem_map, mem_filter]
  constructor
  · rintro ⟨tx', ⟨htx', hmatch⟩, heq⟩
    exact inj_on_of_nodup_map h.keys htx' htx heq ▸ hmatch
  · exact fun hmatch => ⟨tx, ⟨htx, hmatch⟩, rfl⟩

theorem removable_pair (parent child : TransactionHash)
    (htracks : ∀ a b, set.transaction_dependencies.Tracks a b → a = parent ∧ b = child)
    (hne : parent ≠ child) (hstored : set.contains child) (hids : ∀ key, ids key → key = parent) :
    set.Removable ids := by
  have hchild : ∀ {a b}, Relation.TransGen set.transaction_dependencies.Tracks a b → b = child := by
    intro a b hab
    obtain ⟨c, -, hcb⟩ := Relation.TransGen.tail'_iff.mp hab
    exact (htracks c b hcb).2
  refine ⟨fun key _ id hid => hchild hid ▸ hstored, fun key _ id hid hid' => ?_, fun key key' hkey hkey' _ _ _ => ?_⟩
  · exact hne ((hids id hid').symm.trans (hchild hid))
  · rw [hids key hkey, hids key' hkey']

theorem RemovedAll.cost_le (h : set.Kept) (hall : RemovedAll set set' ids) :
    set'.total_cost ≤ set.total_cost := by
  have hsub : set'.transactions ⊆ set.transactions := fun tx htx => ((hall.leaves tx).mp htx).1
  obtain ⟨l, hperm, hsublist⟩ := subperm_of_subset hall.kept.keys.of_map hsub
  rw [h.cost, hall.kept.cost, ← (hperm.map (·.cost)).sum_eq]
  exact (hsublist.map _).sum_le_sum fun _ _ => Nat.zero_le _

/-- Every eviction of the loop meets the condition of a removal in the state in which it happens. -/
def EvictsSafely (p : Profile) (order : IterationOrder) (tx_cost_limit : Nat) :
    Nat → (Nat → Nat) → VerifiedSet → Prop
  | 0, _, _ => True
  | rounds + 1, draws, set => tx_cost_limit < set.total_cost →
    ∀ key, set.choose_key order (draws 0) = .ok key → set.Removable (· = key) ∧
      ∀ removed set', set.remove p key = .ok (removed, set') →
        EvictsSafely p order tx_cost_limit rounds (fun i => draws (i + 1)) set'

end VerifiedSet

open VerifiedSet

namespace Storage

variable {p : Profile} {now next : Nat} {order : IterationOrder} {s s' : Storage} {set : VerifiedSet}
  {draws : Nat → Nat} {tx : VerifiedUnminedTx} {spent_mempool_outpoints : List OutPoint}
  {mined_ids : List TransactionHash}

/-- The indexes and lists are in order, and what is stored is not remembered as rejected for a lasting
reason. -/
structure Sound (now : Nat) (s : Storage) : Prop where
  kept : s.verified.Kept
  lists : s.ListsConsistent now
  apart : ∀ tx ∈ s.verified.transactions, ∀ reason, ¬ s.Remembers now reason tx.mined_id

theorem Sound.later (h : s.Sound now) (hle : now ≤ next) : s.Sound next where
  kept := h.kept
  lists reason list hlist := (h.lists reason list hlist).later hle
  apart tx htx reason hremembers := h.apart tx htx reason (hremembers.earlier hle)

theorem Rejected.sound {added : SameEffectsChainRejectionError → TransactionHash → Prop}
    (h : Rejected now s s' added) (hsound : s.Sound now)
    (hgone : ∀ reason id, added reason id → ∀ tx ∈ s.verified.transactions, tx.mined_id ≠ id) :
    s'.Sound now where
  kept := h.verified ▸ hsound.kept
  lists := h.lists
  apart tx htx reason hremembers := by
    rw [h.verified] at htx
    rcases h.remembers reason _ hremembers with hadded | hold
    · exact hgone reason _ hadded tx htx rfl
    · exact hsound.apart tx htx reason hold

theorem Sound.shrink (h : s.Sound now) (hkept : set.Kept)
    (hsub : ∀ tx ∈ set.transactions, tx ∈ s.verified.transactions) : { s with verified := set }.Sound now where
  kept := hkept
  lists := h.lists
  apart tx htx := h.apart tx (hsub tx htx)

theorem evict_loop_ok {unmined_tx_id : UnminedTxId} {fuel : Nat}
    {result : Except MempoolError UnminedTxId} (h : s.Sound now)
    (hfuel : s.verified.transactions.length < fuel)
    (hsafe : s.verified.EvictsSafely p order s.tx_cost_limit fuel draws) :
    ∃ r s', s.evict_loop p now order unmined_tx_id fuel draws result = .ok (r, s') ∧ s'.Sound now ∧
      s'.verified.total_cost ≤ s'.tx_cost_limit := by
  induction fuel generalizing s draws result with
  | zero => omega
  | succ fuel ih =>
    by_cases hcost : s.tx_cost_limit < s.verified.total_cost
    · have hne : s.verified.transactions ≠ [] := by
        intro hnil
        rw [h.kept.cost, hnil] at hcost
        simp at hcost
      obtain ⟨tx, htx, hchoose⟩ := choose_key_ok order (draws 0) hne
      obtain ⟨hremovable, hrest⟩ := hsafe hcost _ hchoose
      obtain ⟨removed, set, hremove⟩ := remove_returns (p := p) h.kept
        (contains_iff.mpr ⟨tx, htx, rfl⟩) hremovable
      obtain ⟨-, -, hremoved⟩ := remove_spec h.kept hremove
      obtain ⟨victim, hvictim, hlast, hid⟩ := hremoved.last
      have hshrunk := h.shrink hremoved.kept fun tx htx => ((hremoved.leaves tx).mp htx).1
      obtain ⟨s₁, hreject, hrejected⟩ := reject_ok victim.transaction.id (.SameEffectsChain .RandomlyEvicted)
        hshrunk.lists fun r _ => h.apart victim hvictim r
      have hsound := hrejected.sound hshrunk fun reason id hadded tx htx heq => by
        refine ((hremoved.leaves tx).mp htx).2 ?_
        have : tx.mined_id = victim.mined_id := heq.trans hadded.2
        rw [this, hid]
      have hlength := hremoved.length_lt
      have hset : s₁.verified = set := hrejected.verified
      have hlimit : s₁.tx_cost_limit = s.tx_cost_limit := hrejected.limit
      obtain ⟨r, s', hok, hs'⟩ := ih (s := s₁) hsound (by rw [hset]; omega)
        (by rw [hset, hlimit]; exact hrest removed set hremove)
      refine ⟨r, s', ?_, hs'⟩
      simp only [evict_loop, if_pos hcost, evict_one, hchoose, hremove, hlast, orAbort, hreject,
        bind, Except.bind, pure, Except.pure]
      exact hok
    · exact ⟨result, s, by rw [evict_loop, if_neg hcost], h, Nat.le_of_not_lt hcost⟩

def AcceptsSafely (p : Profile) (order : IterationOrder) (s : Storage) (tx : VerifiedUnminedTx)
    (spent_mempool_outpoints : List OutPoint) (draws : Nat → Nat) : Prop :=
  ∀ set, s.verified.insert p tx spent_mempool_outpoints = .ok (.ok set) →
    set.EvictsSafely p order s.tx_cost_limit (set.transactions.length + 1) draws

theorem rejection_error_none {txid : UnminedTxId} (h : s.rejection_error now order txid = none)
    (reason : SameEffectsChainRejectionError) : ¬ s.Remembers now reason txid.mined_id := by
  rintro ⟨list, hlist, hcontains⟩
  unfold rejection_error at h
  split at h
  · cases h
  · split at h
    · cases h
    · rw [Option.map_eq_none_iff, find?_eq_none] at h
      refine h reason ((order.mem_arrange).mpr ?_) ?_
      · cases reason <;> decide
      · rw [hlist]
        exact hcontains

/-! ## Removing what was mined, has expired or conflicts -/

theorem has_mined_id_iff : has_mined_id mined_ids tx = true ↔ tx.mined_id ∈ mined_ids := by
  simp [has_mined_id]

theorem has_mined_id_listed (h : set.Kept) (predicate : VerifiedUnminedTx → Bool)
    (tx : VerifiedUnminedTx) (htx : tx ∈ set.transactions) :
    has_mined_id ((set.transactions.filter predicate).map (·.mined_id)) tx = predicate tx := by
  rw [Bool.eq_iff_iff, has_mined_id_iff, mem_ids_iff h predicate htx]

theorem has_exact_id_listed (h : set.Kept) (predicate : VerifiedUnminedTx → Bool)
    (tx : VerifiedUnminedTx) (htx : tx ∈ set.transactions) :
    has_exact_id ((set.transactions.filter predicate).map (·.transaction.id)) tx = predicate tx := by
  rw [Bool.eq_iff_iff, has_exact_id, decide_eq_true_eq]
  constructor
  · intro hid
    obtain ⟨tx', htx', heq⟩ := mem_map.mp hid
    exact (mem_ids_iff h predicate htx).mp
      (mem_map.mpr ⟨tx', htx', congrArg UnminedTxId.mined_id heq⟩)
  · exact fun hmatch => mem_map_of_mem (mem_filter.mpr ⟨htx, hmatch⟩)

theorem remove_matching_ok (order : IterationOrder) {predicate : VerifiedUnminedTx → Bool} (h : s.Sound now)
    (hsafe : s.verified.Removable (s.verified.Matching predicate)) :
    ∃ ids set, s.verified.remove_all_that p order predicate = .ok (ids, set) ∧
      { s with verified := set }.Sound now ∧ set.total_cost ≤ s.verified.total_cost ∧
      ∀ tx ∈ set.transactions, tx ∈ s.verified.transactions ∧ predicate tx = false := by
  obtain ⟨ids, set, hremove⟩ := remove_all_that_returns (p := p) order h.kept hsafe
  have hall := remove_all_that_spec h.kept hremove
  have hleft : ∀ tx ∈ set.transactions, tx ∈ s.verified.transactions ∧ predicate tx = false := by
    intro tx htx
    obtain ⟨hstored, hkept⟩ := (hall.leaves tx).mp htx
    refine ⟨hstored, Bool.eq_false_of_not_eq_true fun hmatch => hkept ?_⟩
    exact ⟨tx.mined_id, ⟨tx, hstored, hmatch, rfl⟩, .refl⟩
  exact ⟨ids, set, hremove, h.shrink hall.kept fun tx htx => (hleft tx htx).1, hall.cost_le h.kept, hleft⟩

theorem reject_removed_ok (set : VerifiedSet) (reason : SameEffectsChainRejectionError)
    {ids : List UnminedTxId} (h : { s with verified := set }.Sound now) (hnodup : (ids.map (·.mined_id)).Nodup)
    (hnew : ∀ id ∈ ids, ¬ s.Remembers now reason id.mined_id)
    (hgone : ∀ tx ∈ set.transactions, tx.mined_id ∉ ids.map (·.mined_id)) :
    ∃ s', { s with verified := set }.reject_each now reason ids = .ok s' ∧ s'.Sound now ∧
      Rejected now { s with verified := set } s' fun r id => r = reason ∧ id ∈ ids.map (·.mined_id) := by
  obtain ⟨s', hok, hrejected⟩ := reject_each_ok h.lists hnodup hnew
  refine ⟨s', hok, hrejected.sound h fun r id hadded tx htx heq => ?_, hrejected⟩
  exact hgone tx htx (heq ▸ hadded.2)

variable (h : s.Sound now) (hcost : s.verified.total_cost ≤ s.tx_cost_limit)
include h hcost

theorem insert_verified_ok (hnew : s.verified.contains tx.mined_id = false)
    (hfresh : ∀ reason, ¬ s.Remembers now reason tx.mined_id)
    (hsafe : s.AcceptsSafely p order tx spent_mempool_outpoints draws) :
    ∃ r s', s.insert_verified p now tx spent_mempool_outpoints = .ok (r, s') ∧ s'.Sound now ∧
      s'.verified.EvictsSafely p order s'.tx_cost_limit (s'.verified.transactions.length + 1) draws := by
  have hinsert := insert_eq p s.verified tx spent_mempool_outpoints
  have hfailed : ∀ err, s.verified.insert p tx spent_mempool_outpoints = .ok (.error err) →
      ∃ r s', s.insert_verified p now tx spent_mempool_outpoints = .ok (r, s') ∧ s'.Sound now ∧
        s'.verified.EvictsSafely p order s'.tx_cost_limit (s'.verified.transactions.length + 1) draws := by
    intro err herr
    obtain ⟨s', hreject, hrejected⟩ := reject_ok tx.transaction.id (.SameEffectsTip err) h.lists
      fun r heq => by cases heq
    refine ⟨.error (.StorageEffectsTip err), s', ?_, hrejected.sound h fun r id hadded => ?_, fun hover => ?_⟩
    · simp only [insert_verified, herr, hreject, bind, Except.bind]
      rfl
    · cases hadded.1
    · rw [hrejected.limit, hrejected.verified] at hover
      omega
  split at hinsert
  · exact hfailed _ hinsert
  · next hfree =>
    split at hinsert
    · exact hfailed _ hinsert
    · have hkept := store_kept spent_mempool_outpoints h.kept
        (Bool.eq_false_of_not_eq_true hfree) hnew
      refine ⟨.ok tx.transaction.id, { s with verified := s.verified.store tx spent_mempool_outpoints }, ?_,
        ⟨hkept, h.lists, fun tx' htx' => ?_⟩, hsafe _ hinsert⟩
      · simp only [insert_verified, hinsert, bind, Except.bind]
        rfl
      · change tx' ∈ (s.verified.store tx spent_mempool_outpoints).transactions at htx'
        rw [store_transactions _ hnew, mem_append, mem_singleton] at htx'
        rcases htx' with htx' | rfl
        · exact h.apart tx' htx'
        · exact hfresh

theorem insert_ok
    (hsafe : s.rejection_error now order tx.transaction.id = none → s.verified.contains tx.mined_id = false →
      s.AcceptsSafely p order tx spent_mempool_outpoints draws) :
    ∃ r s', s.insert p now order draws tx spent_mempool_outpoints = .ok (r, s') ∧ s'.Sound now ∧
      s'.verified.total_cost ≤ s'.tx_cost_limit := by
  cases herror : s.rejection_error now order tx.transaction.id with
  | some error => exact ⟨.error error, s, by simp [insert, herror], h, hcost⟩
  | none =>
    cases hnew : s.verified.contains tx.mined_id with
    | true => exact ⟨.error .InMempool, s, by simp [insert, herror, hnew], h, hcost⟩
    | false =>
      obtain ⟨r, s₁, hverified, hsound, hevicts⟩ := insert_verified_ok (p := p) h hcost hnew
        (rejection_error_none herror) (hsafe herror hnew)
      obtain ⟨r', s', hloop, hs'⟩ := evict_loop_ok hsound (Nat.lt_succ_self _) hevicts
      exact ⟨r', s', by simp only [insert, herror, hnew, hverified, bind, Except.bind]; exact hloop, hs'⟩

theorem remove_exact_ok {exact_wtxids : List UnminedTxId}
    (hsafe : s.verified.Removable (s.verified.Matching (has_exact_id exact_wtxids))) :
    ∃ r s', s.remove_exact p order exact_wtxids = .ok (r, s') ∧ s'.Sound now ∧
      s'.verified.total_cost ≤ s'.tx_cost_limit := by
  obtain ⟨ids, set, hremove, hsound, hle, -⟩ := remove_matching_ok (p := p) order h hsafe
  exact ⟨ids.length, { s with verified := set }, by simp only [remove_exact, hremove, bind, Except.bind]; rfl,
    hsound, hle.trans hcost⟩

theorem remove_expired_transactions_ok {tip_height : Nat}
    (hsafe : s.verified.Removable (s.verified.Matching (has_expired_at tip_height))) :
    ∃ r s', s.remove_expired_transactions p now order tip_height = .ok (r, s') ∧ s'.Sound now ∧
      s'.verified.total_cost ≤ s'.tx_cost_limit := by
  have hlisted := has_mined_id_listed h.kept (has_expired_at tip_height)
  rw [← Matching.congr hlisted] at hsafe
  obtain ⟨ids, set, hremove, hsound, hle, hleft⟩ := remove_matching_ok (p := p) order h hsafe
  have hids : ((order.arrange ((s.verified.transactions.filter (has_expired_at tip_height)).map
      (·.mined_id))).map UnminedTxId.Legacy).map (·.mined_id) =
        order.arrange ((s.verified.transactions.filter (has_expired_at tip_height)).map (·.mined_id)) := by
    rw [map_map]
    exact map_id _
  obtain ⟨s', hok, hs', hrejected⟩ := reject_removed_ok set .Expired hsound (by
      rw [hids, (order.perm _).nodup_iff]
      exact h.kept.keys.sublist (filter_sublist.map _))
    (by
      intro id hid
      obtain ⟨_, hmem, rfl⟩ := mem_map.mp hid
      obtain ⟨tx, htx, rfl⟩ := mem_map.mp (order.mem_arrange.mp hmem)
      exact h.apart tx (mem_filter.mp htx).1 _)
    (by
      intro tx htx hmem
      rw [hids, order.mem_arrange] at hmem
      rw [← has_mined_id_iff, (hleft tx htx).2] at hmem
      cases hmem)
  refine ⟨_, s', except_bind_ok.mpr ⟨_, hremove, except_bind_ok.mpr ⟨s', hok, rfl⟩⟩, hs', ?_⟩
  rw [hrejected.verified, hrejected.limit]
  exact hle.trans hcost

theorem reject_and_remove_same_effects_ok {transactions : List Transaction}
    (hnodup : mined_ids.Nodup)
    (hmined : s.verified.Removable (s.verified.Matching (has_mined_id mined_ids)))
    (hspends : ∀ ids set, s.verified.remove_all_that p order (has_mined_id mined_ids) = .ok (ids, set) →
      set.Removable (set.Matching (has_duplicate_spend transactions)))
    (hfresh : ∀ id ∈ mined_ids, ¬ s.Remembers now .Mined id) :
    ∃ r s', s.reject_and_remove_same_effects p now order mined_ids transactions = .ok (r, s') ∧ s'.Sound now ∧
      s'.verified.total_cost ≤ s'.tx_cost_limit := by
  obtain ⟨ids₁, set₁, hremove₁, hsound₁, hle₁, hleft₁⟩ := remove_matching_ok (p := p) order h hmined
  have hlisted := has_exact_id_listed hsound₁.kept (has_duplicate_spend transactions)
  have hsafe := hspends ids₁ set₁ hremove₁
  rw [← Matching.congr hlisted] at hsafe
  obtain ⟨ids₂, set₂, hremove₂, hsound₂, hle₂, hleft₂⟩ :=
    remove_matching_ok (s := { s with verified := set₁ }) (p := p) order hsound₁ hsafe
  have hlegacy : (mined_ids.map UnminedTxId.Legacy).map (·.mined_id) = mined_ids := by
    rw [map_map]
    exact map_id _
  obtain ⟨s₃, hok₃, hsound₃, hrejected₃⟩ := reject_removed_ok set₂ .Mined hsound₂ (hlegacy.symm ▸ hnodup)
    (by
      intro id hid
      obtain ⟨_, hmem, rfl⟩ := mem_map.mp hid
      exact hfresh _ hmem)
    (by
      intro tx htx hmem
      rw [hlegacy, ← has_mined_id_iff, (hleft₁ tx (hleft₂ tx htx).1).2] at hmem
      cases hmem)
  -- the conflicting transactions were stored, so they are not remembered for any reason
  have hset₃ : s₃.verified = set₂ := hrejected₃.verified
  have hlimit₃ : s₃.tx_cost_limit = s.tx_cost_limit := hrejected₃.limit
  have hdup : ∀ id ∈ order.arrange ((set₁.transactions.filter (has_duplicate_spend transactions)).map
      (·.transaction.id)), ∃ tx ∈ set₁.transactions, has_duplicate_spend transactions tx = true ∧
        tx.transaction.id = id := by
    intro id hid
    obtain ⟨tx, htx, rfl⟩ := mem_map.mp (order.mem_arrange.mp hid)
    exact ⟨tx, (mem_filter.mp htx).1, (mem_filter.mp htx).2, rfl⟩
  obtain ⟨s₄, hok₄, hsound₄, hrejected₄⟩ := reject_removed_ok (s := s₃) s₃.verified .DuplicateSpend hsound₃
    (by
      have hkeys := hsound₁.kept.keys.sublist
        ((filter_sublist (p := has_duplicate_spend transactions)).map (·.mined_id))
      refine ((order.perm ((set₁.transactions.filter (has_duplicate_spend transactions)).map
        (·.transaction.id))).map _).nodup_iff.mpr ?_
      rw [map_map]
      exact hkeys)
    (by
      intro id hid hremembers
      obtain ⟨tx, htx, -, rfl⟩ := hdup id hid
      rcases hrejected₃.remembers _ _ hremembers with ⟨heq, -⟩ | hold
      · cases heq
      · exact h.apart tx (hleft₁ tx htx).1 _ hold)
    (by
      intro tx htx hmem
      obtain ⟨id, hid, heq⟩ := mem_map.mp hmem
      obtain ⟨tx', htx', hspend, rfl⟩ := hdup id hid
      rw [hset₃] at htx
      obtain ⟨htx₁, hnot⟩ := hleft₂ tx htx
      have hsame := inj_on_of_nodup_map hsound₁.kept.keys htx' htx₁ heq
      rw [hlisted tx htx₁, ← hsame, hspend] at hnot
      cases hnot)
  refine ⟨_, s₄, except_bind_ok.mpr ⟨_, hremove₁, except_bind_ok.mpr ⟨_, hremove₂,
    except_bind_ok.mpr ⟨s₃, hok₃, except_bind_ok.mpr ⟨s₄, hok₄, rfl⟩⟩⟩⟩, hsound₄, ?_⟩
  rw [hrejected₄.verified, hrejected₄.limit]
  change s₃.verified.total_cost ≤ s₃.tx_cost_limit
  rw [hset₃, hlimit₃]
  exact hle₂.trans (hle₁.trans hcost)

end Storage

open Storage

/-! ## Runs -/

namespace Mempool

variable {p : Profile} {m : Mempool} {call : Call}

/-- The condition under which an operation does not panic, now or later: what it removes can be removed,
and it does not reject an id for a lasting reason that is still remembered or stored. -/
def Safe (p : Profile) (m : Mempool) (call : Call) : Prop :=
  match call.operation with
  | .insert tx spent draws =>
    m.storage.rejection_error (m.now + call.elapsed) call.order tx.transaction.id = none →
      m.storage.verified.contains tx.mined_id = false → m.storage.AcceptsSafely p call.order tx spent draws
  | .reject_and_remove_same_effects mined_ids transactions =>
    m.storage.verified.Removable (m.storage.verified.Matching (has_mined_id mined_ids.dedup)) ∧
      (∀ ids set, m.storage.verified.remove_all_that p call.order (has_mined_id mined_ids.dedup) =
        .ok (ids, set) → set.Removable (set.Matching (has_duplicate_spend transactions))) ∧
      ∀ id ∈ mined_ids, ¬ m.storage.Remembers (m.now + call.elapsed) .Mined id
  | .remove_exact exact_wtxids =>
    m.storage.verified.Removable (m.storage.verified.Matching (has_exact_id exact_wtxids))
  | .remove_expired_transactions tip_height =>
    m.storage.verified.Removable (m.storage.verified.Matching (has_expired_at tip_height))
  | .reject tx_id (.SameEffectsChain reason) =>
    ¬ m.storage.Remembers (m.now + call.elapsed) reason tx_id.mined_id ∧
      m.storage.verified.contains tx_id.mined_id = false
  | _ => True

structure Settled (m : Mempool) : Prop where
  sound : m.storage.Sound m.now
  cost : m.storage.verified.total_cost ≤ m.storage.tx_cost_limit

theorem settled_new (tx_cost_limit eviction_memory_time : Nat) :
    (new tx_cost_limit eviction_memory_time).Settled where
  sound := {
    kept := VerifiedSet.kept_empty
    lists := fun reason list hlist => by simp [new, Storage.new] at hlist
    apart := fun tx htx => by simp [new, Storage.new, VerifiedSet.empty] at htx }
  cost := Nat.zero_le _

theorem step_ok (h : m.Settled) (hsafe : Safe p m call) : ∃ m', step p m call = .ok m' ∧ m'.Settled := by
  obtain ⟨hsound, hcost⟩ := h
  have hsound := hsound.later (Nat.le_add_right m.now call.elapsed)
  suffices hop : ∃ s, run_operation p (m.now + call.elapsed) call.order m.storage call.operation = .ok s ∧
      s.Sound (m.now + call.elapsed) ∧ s.verified.total_cost ≤ s.tx_cost_limit by
    obtain ⟨s, hok, hs, hlimit⟩ := hop
    exact ⟨_, except_bind_ok.mpr ⟨s, hok, rfl⟩, hs, hlimit⟩
  -- an operation that returns a value beside the storage
  have hmap : ∀ {α : Type} {x : Except Abort (α × Storage)},
      (∃ r s, x = .ok (r, s) ∧ s.Sound (m.now + call.elapsed) ∧ s.verified.total_cost ≤ s.tx_cost_limit) →
      ∃ s, x.map (·.2) = .ok s ∧ s.Sound (m.now + call.elapsed) ∧ s.verified.total_cost ≤ s.tx_cost_limit := by
    rintro α x ⟨r, s, rfl, hs⟩
    exact ⟨s, rfl, hs⟩
  -- an operation that only changes the rejections
  have hreject : ∀ {x : Except Abort Storage} {added}, (∃ s, x = .ok s ∧
      Rejected (m.now + call.elapsed) m.storage s added) →
      (∀ reason id, added reason id → ∀ tx ∈ m.storage.verified.transactions, tx.mined_id ≠ id) →
      ∃ s, x = .ok s ∧ s.Sound (m.now + call.elapsed) ∧ s.verified.total_cost ≤ s.tx_cost_limit := by
    rintro x added ⟨s, rfl, hrejected⟩ hgone
    exact ⟨s, rfl, hrejected.sound hsound hgone, by rw [hrejected.verified, hrejected.limit]; exact hcost⟩
  unfold Safe at hsafe
  cases hoperation : call.operation with
  | insert tx spent draws =>
    simp only [hoperation] at hsafe
    exact hmap (insert_ok hsound hcost hsafe)
  | reject_and_remove_same_effects mined_ids transactions =>
    simp only [hoperation] at hsafe
    obtain ⟨hmined, hspends, hfresh⟩ := hsafe
    exact hmap (reject_and_remove_same_effects_ok hsound hcost (nodup_dedup _) hmined hspends
      fun id hid => hfresh id (mem_dedup.mp hid))
  | clear_mined_dependencies mined_ids =>
    exact ⟨_, rfl, ⟨{ hsound.kept with }, hsound.lists, hsound.apart⟩, hcost⟩
  | remove_exact exact_wtxids =>
    simp only [hoperation] at hsafe
    exact hmap (remove_exact_ok hsound hcost hsafe)
  | remove_expired_transactions tip_height =>
    simp only [hoperation] at hsafe
    exact hmap (remove_expired_transactions_ok hsound hcost hsafe)
  | reject tx_id reason =>
    have hreason : ∀ r, reason = .SameEffectsChain r →
        ¬ m.storage.Remembers (m.now + call.elapsed) r tx_id.mined_id ∧
          m.storage.verified.contains tx_id.mined_id = false := by
      rintro r rfl
      simpa only [hoperation] using hsafe
    refine hreject (reject_ok tx_id reason hsound.lists fun r hr => (hreason r hr).1) ?_
    rintro r _ ⟨hr, rfl⟩ tx htx heq
    have := (hreason r hr).2
    rw [contains_iff.mpr ⟨tx, htx, heq⟩] at this
    cases this
  | reject_if_needed tx_id e =>
    cases e with
    | Invalid error =>
      refine hreject (reject_ok tx_id (.ExactTip (.FailedVerification error)) hsound.lists ?_) ?_
      · exact fun r hr => by cases hr
      · exact fun r id hadded => by cases hadded.1
    | _ => exact ⟨_, rfl, hsound, hcost⟩
  | clear_tip_rejections => exact hreject (clear_tip_rejections_ok hsound.lists) fun _ _ hadded => hadded.elim
  | clear =>
    have hempty : { m.storage with
        verified := .empty, tip_rejected_exact := ∅, tip_rejected_same_effects := ∅,
        chain_rejected_same_effects := ∅ }.Sound (m.now + call.elapsed) :=
      ⟨kept_empty, fun reason list hlist => by simp at hlist, fun tx htx => by simp [empty] at htx⟩
    obtain ⟨s, hok, hrejected⟩ := update_rejected_metrics_ok hempty.lists
    refine ⟨s, hok, hrejected.sound hempty fun _ _ hadded => hadded.elim, ?_⟩
    rw [hrejected.verified]
    exact Nat.zero_le _

end Mempool

open Mempool

/-- In a run of safe operations nothing panics. -/
theorem mempool_never_panics {p : Profile} {tx_cost_limit eviction_memory_time : Nat}
    {calls done : List Mempool.Call}
    (hsafe : Runs.Meets (Mempool.step p) (Mempool.Safe p) (Mempool.new tx_cost_limit eviction_memory_time) calls)
    (hdone : done <+: calls) :
    ∃ m, Runs.run (Mempool.step p) (Mempool.new tx_cost_limit eviction_memory_time) done = .ok m := by
  obtain ⟨m, hrun, -⟩ := Runs.run_keeps (fun m call h hcall => step_ok h hcall)
    (settled_new tx_cost_limit eviction_memory_time) hsafe hdone
  exact ⟨m, hrun⟩

namespace Sample

def poolId (n : UInt8) : TransactionHash := ⟨n :: replicate 31 2, rfl⟩

def pooled (n parent : UInt8) (expiry_height : Nat) : VerifiedUnminedTx where
  transaction := {
    transaction := ⟨poolId n, .V4 [.PrevOut ⟨poolId parent, 0⟩] [⟨.zero, []⟩] expiry_height [] none⟩
    id := .Legacy (poolId n)
    size := 300
    conventional_fee := .zero
    id_eq := rfl
    outputs_fit := Nat.one_le_two_pow }
  miner_fee := .zero
  sigops := 0
  conventional_actions := 0
  unpaid_actions := 0
  unpaid_eq := by decide

def call (operation : Operation) : Call := ⟨1, .listed, operation⟩

def pair (expiry_height : Nat) : List Call :=
  [call (.insert (pooled 1 0 10) [] fun _ => 0),
    call (.insert (pooled 2 1 expiry_height) [⟨poolId 1, 0⟩] fun _ => 0)]

theorem evicts_none {set : VerifiedSet} {rounds : Nat} {draws : Nat → Nat} (hcost : set.total_cost ≤ 80000000) :
    set.EvictsSafely .dev .listed 80000000 rounds draws := by
  cases rounds with
  | zero => trivial
  | succ rounds => exact fun hover => absurd hover (Nat.not_lt.mpr hcost)

theorem parent_removable {set : VerifiedSet} {ids : TransactionHash → Prop} (hstored : set.contains (poolId 2))
    (hdeps : set.transaction_dependencies.dependents =
      (∅ : Map TransactionHash (List TransactionHash)).insert (poolId 1) [poolId 2])
    (hids : ∀ key, ids key → key = poolId 1) : set.Removable ids := by
  refine VerifiedSet.removable_pair (poolId 1) (poolId 2) ?_ (by decide) hstored hids
  intro a b hab
  rw [TransactionDependencies.Tracks, TransactionDependencies.direct_dependents, hdeps, Map.lookup_insert'] at hab
  split at hab
  · next heq => exact ⟨heq, mem_singleton.mp hab⟩
  · simp at hab

end Sample

open mempool.Sample

/-- A transaction that expires is removed together with the one that spends its output. -/
theorem expired_parent_removed : ∃ m, Runs.run (Mempool.step .dev) (Mempool.new 80000000 3600)
    (pair 100 ++ [call (.remove_expired_transactions 10)]) = .ok m := by
  refine mempool_never_panics ?_ (prefix_refl _)
  refine ⟨fun _ _ set hset => ?_, fun m hm => ?_⟩
  · cases hset
    exact evicts_none (by decide)
  cases hm
  refine ⟨fun _ _ set hset => ?_, fun m hm => ?_⟩
  · cases hset
    exact evicts_none (by decide)
  cases hm
  refine ⟨parent_removable rfl rfl ?_, fun _ _ => trivial⟩
  rintro key ⟨tx, htx, hexpired, rfl⟩
  rcases mem_cons.mp htx with rfl | htx
  · rfl
  · cases mem_singleton.mp htx
    cases hexpired

/-- Two transactions expire together, one of which spends an output of the other. Or one is removed
after a dependent one was, or an id is mined again. -/
theorem expired_pair_panics :
    Runs.run (Mempool.step .release) (Mempool.new 80000000 3600)
        (pair 10 ++ [call (.remove_expired_transactions 10)]) =
      .error (.expect "invalid transaction key") ∧
    Runs.run (Mempool.step .release) (Mempool.new 80000000 3600)
        (pair 5 ++ [call (.remove_expired_transactions 5),
          call (.remove_expired_transactions 10)]) =
      .error (.expect "invalid transaction key") ∧
    Runs.run (Mempool.step .release) (Mempool.new 80000000 3600)
        [call (.reject_and_remove_same_effects [poolId 1] []),
          call (.reject_and_remove_same_effects [poolId 1] [])] =
      .error (.assert "an already-evicted transaction should not be evicted again") :=
  ⟨rfl, rfl, rfl⟩

namespace Sample

def mixed : List Call :=
  pair 100 ++ [call (.insert (pooled 4 9 100) [] fun _ => 0),
    call (.reject (.Legacy (poolId 3)) (.SameEffectsChain .Mined)), call (.remove_expired_transactions 10),
    call .clear_tip_rejections]

theorem mixed_safe : Runs.Meets (Mempool.step .dev) (Mempool.Safe .dev) (Mempool.new 80000000 3600) mixed := by
  refine ⟨fun _ _ set hset => ?_, fun m hm => ?_⟩
  · cases hset
    exact evicts_none (by decide)
  cases hm
  refine ⟨fun _ _ set hset => ?_, fun m hm => ?_⟩
  · cases hset
    exact evicts_none (by decide)
  cases hm
  refine ⟨fun _ _ set hset => ?_, fun m hm => ?_⟩
  · cases hset
    exact evicts_none (by decide)
  cases hm
  refine ⟨⟨?_, rfl⟩, fun m hm => ?_⟩
  · rintro ⟨list, hlist, -⟩
    cases hlist
  cases hm
  refine ⟨parent_removable rfl rfl ?_, fun m _ => ⟨trivial, fun _ _ => trivial⟩⟩
  rintro key ⟨tx, htx, hexpired, rfl⟩
  rcases mem_cons.mp htx with rfl | htx
  · rfl
  rcases mem_cons.mp htx with rfl | htx
  · cases hexpired
  · cases mem_singleton.mp htx
    cases hexpired

end Sample

end ZebraCrosslink.mempool
