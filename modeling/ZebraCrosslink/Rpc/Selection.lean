import Mathlib
import ZebraCrosslink.Chain.BlockWire
import ZebraCrosslink.Mempool.VerifiedSet
import ZebraCrosslink.Rust.IndexMap

/-!
# Choosing transactions for a block template

Candidates without parents in the mempool are drawn at random, then those that depend on them. All
weights are positive, so a draw is any number, taken modulo the number of candidates.
-/

open Rust List

namespace ZebraCrosslink.get_block_template

abbrev SelectedMempoolTx : Type := mempool.VerifiedUnminedTx

def MAX_BLOCK_SIGOPS : Nat := 20000

def BLOCK_UNPAID_ACTION_LIMIT : Nat := 0

/-! ## The algorithm -/

structure Limits where
  remaining_block_bytes : Nat
  remaining_block_sigops : Nat
  remaining_block_unpaid_actions : Nat

def try_update_block_template_limits (tx : SelectedMempoolTx) (limits : Limits) : Option Limits :=
  if tx.transaction.size ≤ limits.remaining_block_bytes ∧ tx.sigops ≤ limits.remaining_block_sigops ∧
      tx.unpaid_actions ≤ limits.remaining_block_unpaid_actions then
    some
      { remaining_block_bytes := limits.remaining_block_bytes - tx.transaction.size
        remaining_block_sigops := limits.remaining_block_sigops - tx.sigops
        remaining_block_unpaid_actions := limits.remaining_block_unpaid_actions - tx.unpaid_actions }
  else none

def reaches_all (deps : List TransactionHash) (num_available_deps : Nat) : List SelectedMempoolTx → Bool
  | [] => false
  | tx :: selected_txs =>
    if tx.mined_id ∈ deps then
      if num_available_deps + 1 = deps.length then true else reaches_all deps (num_available_deps + 1) selected_txs
    else reaches_all deps num_available_deps selected_txs

def has_direct_dependencies (candidate_tx_deps : Option (List TransactionHash))
    (selected_txs : List SelectedMempoolTx) : Bool :=
  match candidate_tx_deps with
  | none => true
  | some deps => if selected_txs.length < deps.length then false else reaches_all deps 0 selected_txs

structure Selection where
  dependent_txs : List SelectedMempoolTx
  selected_txs : List SelectedMempoolTx
  limits : Limits

def Selection.push (s : Selection) (tx : SelectedMempoolTx) (limits : Limits) : Selection :=
  { s with selected_txs := s.selected_txs ++ [tx], limits }

section

variable (p : Profile) (order : IterationOrder) (mempool_tx_deps : mempool.TransactionDependencies)

/-- Tries one dependent transaction, and gives those that depend on it if it was added. -/
def add_dependent (s : Selection) (dependent_tx_id : TransactionHash) : Selection × List TransactionHash :=
  if has_direct_dependencies (mempool_tx_deps.dependencies.lookup dependent_tx_id) s.selected_txs then
    match OrderedMap.get? (·.mined_id) s.dependent_txs dependent_tx_id with
    | none => (s, [])
    | some candidate_tx =>
      let s := { s with dependent_txs := OrderedMap.remove (·.mined_id) s.dependent_txs dependent_tx_id }
      if !candidate_tx.pays_conventional_fee then (s, [])
      else
        match try_update_block_template_limits candidate_tx s.limits with
        | none => (s, [])
        | some limits => (s.push candidate_tx limits, mempool_tx_deps.direct_dependents dependent_tx_id)
  else (s, [])

def add_level : List TransactionHash → Selection → Selection × List TransactionHash
  | [], s => (s, [])
  | dependent_tx_id :: rest, s =>
    let (s, found) := add_dependent mempool_tx_deps s dependent_tx_id
    let (s, next_level_dependents) := add_level rest s
    (s, found ∪ next_level_dependents)

def add_levels (current_level_dependents : List TransactionHash) (s : Selection) : Nat → Except Abort Selection
  | 0 => .error .outOfFuel
  | fuel + 1 =>
    if current_level_dependents = [] then .ok s
    else
      let (s, next_level_dependents) := add_level mempool_tx_deps (order.arrange current_level_dependents) s
      add_levels next_level_dependents s fuel

/-- Only a level that takes a dependent transaction out has a next one. -/
def add_dependents (s : Selection) (selected_tx_id : TransactionHash) : Except Abort Selection :=
  add_levels order mempool_tx_deps (mempool_tx_deps.direct_dependents selected_tx_id).dedup s
    (s.dependent_txs.length + 2)

def checked_add (candidate_tx : SelectedMempoolTx) (s : Selection) : Except Abort Selection :=
  match try_update_block_template_limits candidate_tx s.limits with
  | none => .ok s
  | some limits =>
    if p = .dev ∧ candidate_tx.mined_id ∈ mempool_tx_deps.dependencies then
      .error (.assert "all candidate transactions should be independent")
    else add_dependents order mempool_tx_deps (s.push candidate_tx limits) candidate_tx.mined_id

def draw_all (draws : Nat → Nat) (candidate_txs : List SelectedMempoolTx) (s : Selection) :
    Nat → Except Abort Selection
  | 0 => .error .outOfFuel
  | fuel + 1 =>
    if candidate_txs = [] then .ok s
    else do
      let candidate_position := draws 0 % candidate_txs.length
      let candidate_tx ← index candidate_txs candidate_position
      let s ← checked_add p order mempool_tx_deps candidate_tx s
      draw_all (fun i => draws (i + 1)) (swapRemove candidate_txs candidate_position) s fuel

end

/-- Collecting into a `HashMap`: of the transactions with one id the last one stays. -/
def collect (txs : List SelectedMempoolTx) : List SelectedMempoolTx :=
  txs.foldl (fun map tx => OrderedMap.remove (·.mined_id) map tx.mined_id ++ [tx]) []

def starting_limits (p : Profile) (size sigops : Nat) : Except Abort Limits := do
  let remaining_block_bytes ← subUsize p MAX_BLOCK_BYTES size
  let remaining_block_sigops ← subU32 p MAX_BLOCK_SIGOPS sigops
  return ⟨remaining_block_bytes, remaining_block_sigops, BLOCK_UNPAID_ACTION_LIMIT⟩

def is_independent (mempool_tx_deps : mempool.TransactionDependencies) (tx : SelectedMempoolTx) : Bool :=
  tx.mined_id ∉ mempool_tx_deps.dependencies

structure Draws where
  conventional_fee : Nat → Nat
  low_fee : Nat → Nat

def select_within (p : Profile) (order : IterationOrder) (draws : Draws) (limits : Limits)
    (mempool_txs : List SelectedMempoolTx) (mempool_tx_deps : mempool.TransactionDependencies) :
    Except Abort Selection := do
  let independent := order.arrange (collect (mempool_txs.filter (is_independent mempool_tx_deps)))
  let dependent := collect (mempool_txs.filter fun tx => !is_independent mempool_tx_deps tx)
  let (conventional_fee_txs, low_fee_txs) := independent.partition (·.pays_conventional_fee)
  let s ← draw_all p order mempool_tx_deps draws.conventional_fee conventional_fee_txs ⟨dependent, [], limits⟩
    (conventional_fee_txs.length + 1)
  draw_all p order mempool_tx_deps draws.low_fee low_fee_txs s (low_fee_txs.length + 1)

/-- `fake_size` and `fake_sigops` are those of the fake coinbase transaction. -/
def select_mempool_transactions (p : Profile) (order : IterationOrder) (draws : Draws)
    (fake_size fake_sigops : Nat) (mempool_txs : List SelectedMempoolTx)
    (mempool_tx_deps : mempool.TransactionDependencies) : Except Abort (List SelectedMempoolTx) := do
  let limits ← starting_limits p fake_size fake_sigops
  let s ← select_within p order draws limits mempool_txs mempool_tx_deps
  return s.selected_txs

/-! ## The limits -/

structure Limits.Fits (limits : Limits) (txs : List SelectedMempoolTx) : Prop where
  bytes : (txs.map (·.transaction.size)).sum ≤ limits.remaining_block_bytes
  sigops : (txs.map (·.sigops)).sum ≤ limits.remaining_block_sigops
  unpaid_actions : (txs.map (·.unpaid_actions)).sum ≤ limits.remaining_block_unpaid_actions

structure Limits.Spent (start : Limits) (txs : List SelectedMempoolTx) (left : Limits) : Prop where
  bytes : left.remaining_block_bytes + (txs.map (·.transaction.size)).sum = start.remaining_block_bytes
  sigops : left.remaining_block_sigops + (txs.map (·.sigops)).sum = start.remaining_block_sigops
  unpaid_actions : left.remaining_block_unpaid_actions + (txs.map (·.unpaid_actions)).sum =
    start.remaining_block_unpaid_actions

section

variable {start left left' limits : Limits} {txs txs' : List SelectedMempoolTx} {tx : SelectedMempoolTx}

theorem Limits.Spent.fits (h : start.Spent txs left) : start.Fits txs :=
  ⟨by have := h.bytes; omega, by have := h.sigops; omega, by have := h.unpaid_actions; omega⟩

theorem Limits.Fits.perm (h : limits.Fits txs) (hperm : txs.Perm txs') : limits.Fits txs' where
  bytes := (hperm.symm.map (·.transaction.size)).sum_eq.trans_le h.bytes
  sigops := (hperm.symm.map (·.sigops)).sum_eq.trans_le h.sigops
  unpaid_actions := (hperm.symm.map (·.unpaid_actions)).sum_eq.trans_le h.unpaid_actions

theorem Limits.Spent.push (h : start.Spent txs left)
    (hadd : try_update_block_template_limits tx left = some left') : start.Spent (txs ++ [tx]) left' := by
  unfold try_update_block_template_limits at hadd
  split at hadd
  · next hfits =>
    cases hadd
    obtain ⟨hbytes, hsigops, hunpaid⟩ := hfits
    constructor
    · have := h.bytes
      simp only [map_append, sum_append, map_cons, map_nil, sum_singleton]
      omega
    · have := h.sigops
      simp only [map_append, sum_append, map_cons, map_nil, sum_singleton]
      omega
    · have := h.unpaid_actions
      simp only [map_append, sum_append, map_cons, map_nil, sum_singleton]
      omega
  · cases hadd

theorem Limits.Fits.cons (h : limits.Fits (tx :: txs)) :
    ∃ left, try_update_block_template_limits tx limits = some left ∧ left.Fits txs := by
  obtain ⟨hbytes, hsigops, hunpaid⟩ := h
  simp only [map_cons, sum_cons] at hbytes hsigops hunpaid
  refine ⟨_, if_pos ⟨by omega, by omega, by omega⟩, ?_⟩
  constructor <;> dsimp only <;> omega

end

/-! ## Parents -/

section

variable {deps : mempool.TransactionDependencies} {txs : List SelectedMempoolTx} {tx : SelectedMempoolTx}

def ParentsFirst (deps : mempool.TransactionDependencies) (txs : List SelectedMempoolTx) : Prop :=
  ∀ before tx after, txs = before ++ tx :: after →
    ∀ parent ∈ deps.direct_dependencies tx.mined_id, parent ∈ before.map (·.mined_id)

theorem ParentsFirst.push (h : ParentsFirst deps txs)
    (htx : ∀ parent ∈ deps.direct_dependencies tx.mined_id, parent ∈ txs.map (·.mined_id)) :
    ParentsFirst deps (txs ++ [tx]) := by
  intro before tx' after heq
  rcases eq_nil_or_concat after with rfl | ⟨after, last, rfl⟩
  · obtain ⟨rfl, hlast⟩ := append_inj' heq rfl
    cases hlast
    exact htx
  · rw [concat_eq_append, ← cons_append, ← append_assoc] at heq
    exact h before tx' after (append_inj' heq rfl).1

theorem reaches_all_count {ids : List TransactionHash} {n : Nat} (h : reaches_all ids n txs = true) :
    ids.length ≤ n + (txs.filter fun tx => tx.mined_id ∈ ids).length := by
  induction txs generalizing n with
  | nil => cases h
  | cons tx txs ih =>
    unfold reaches_all at h
    split at h
    · next hmem =>
      rw [filter_cons_of_pos (by simpa using hmem), length_cons]
      split at h
      · omega
      · have := ih h
        omega
    · next hmem =>
      rw [filter_cons_of_neg (by simpa using hmem)]
      exact ih h

theorem has_direct_dependencies_sound (hnodup : (txs.map (·.mined_id)).Nodup) {id : TransactionHash}
    (h : has_direct_dependencies (deps.dependencies.lookup id) txs = true) :
    ∀ parent ∈ deps.direct_dependencies id, parent ∈ txs.map (·.mined_id) := by
  intro parent hparent
  unfold mempool.TransactionDependencies.direct_dependencies at hparent
  cases hlookup : deps.dependencies.lookup id with
  | none =>
    rw [hlookup] at hparent
    cases hparent
  | some ids =>
    rw [hlookup] at h hparent
    unfold has_direct_dependencies at h
    dsimp only at h
    split at h
    · cases h
    have hcount := reaches_all_count h
    have hsub : (txs.filter fun tx => tx.mined_id ∈ ids).map (·.mined_id) ⊆ ids := by
      intro id hid
      obtain ⟨tx, htx, rfl⟩ := mem_map.mp hid
      simpa using (mem_filter.mp htx).2
    have hfound : ((txs.filter fun tx => tx.mined_id ∈ ids).map (·.mined_id)).Nodup :=
      hnodup.sublist (filter_sublist.map _)
    have hperm := (subperm_of_subset hfound hsub).perm_of_length_le (by rw [length_map]; omega)
    obtain ⟨tx, htx, rfl⟩ := mem_map.mp (hperm.mem_iff.mpr hparent)
    exact mem_map_of_mem (mem_filter.mp htx).1

end

/-! ## The loops -/

section

variable {p : Profile} {order : IterationOrder} {deps : mempool.TransactionDependencies} {start : Limits}
  {pool waiting dependent_txs : List SelectedMempoolTx} {s : Selection} {tx : SelectedMempoolTx}
  {fuel : Nat}

/-- The selected transactions, the waiting ones and the dependent ones are different transactions of the
pool. -/
structure Sound (deps : mempool.TransactionDependencies) (start : Limits) (pool waiting : List SelectedMempoolTx)
    (s : Selection) : Prop where
  within : (s.selected_txs ++ (waiting ++ s.dependent_txs)).Subperm pool
  parents : ParentsFirst deps s.selected_txs
  spent : start.Spent s.selected_txs s.limits

theorem Sound.selected_nodup (h : Sound deps start pool waiting s) (hpool : (pool.map (·.mined_id)).Nodup) :
    (s.selected_txs.map (·.mined_id)).Nodup := by
  have hsub : s.selected_txs.Subperm pool := (sublist_append_left _ _).subperm.trans h.within
  obtain ⟨l, hperm, hl⟩ := hsub
  exact ((hperm.map _).nodup_iff.mp (hpool.sublist (hl.map _)))

theorem Sound.push {waiting' : List SelectedMempoolTx} {limits : Limits}
    (h : Sound deps start pool waiting s)
    (hout : (tx :: (waiting' ++ dependent_txs)).Subperm (waiting ++ s.dependent_txs))
    (hparents : ∀ parent ∈ deps.direct_dependencies tx.mined_id, parent ∈ s.selected_txs.map (·.mined_id))
    (hlimits : try_update_block_template_limits tx s.limits = some limits) :
    Sound deps start pool waiting' ({ s with dependent_txs }.push tx limits) where
  within := by
    refine Subperm.trans ?_ h.within
    simp only [Selection.push, append_assoc, singleton_append]
    exact (subperm_append_left s.selected_txs).mpr hout
  parents := h.parents.push hparents
  spent := h.spent.push hlimits

theorem Sound.drop (waiting' : List SelectedMempoolTx) (h : Sound deps start pool waiting s)
    (hout : (waiting' ++ dependent_txs).Subperm (waiting ++ s.dependent_txs)) :
    Sound deps start pool waiting' { s with dependent_txs } where
  within := ((subperm_append_left s.selected_txs).mpr hout).trans h.within
  parents := h.parents
  spent := h.spent

structure Shrinks (s s' : Selection) (found : List TransactionHash) : Prop where
  length_le : s'.dependent_txs.length ≤ s.dependent_txs.length
  length_lt : found ≠ [] → s'.dependent_txs.length < s.dependent_txs.length

theorem add_dependent_sound (h : Sound deps start pool waiting s) (hpool : (pool.map (·.mined_id)).Nodup)
    (id : TransactionHash) : Sound deps start pool waiting (add_dependent deps s id).1 ∧
      Shrinks s (add_dependent deps s id).1 (add_dependent deps s id).2 := by
  unfold add_dependent
  split
  · next hdeps =>
    cases hget : OrderedMap.get? (·.mined_id) s.dependent_txs id with
    | none => exact ⟨h, le_rfl, fun hne => absurd rfl hne⟩
    | some tx =>
      obtain ⟨htx, rfl⟩ := OrderedMap.get?_eq_some hget
      have hout : (tx :: OrderedMap.remove (·.mined_id) s.dependent_txs tx.mined_id).Subperm s.dependent_txs :=
        Hashed.cons_remove_subperm htx
      have hlength := hout.length_le
      simp only [length_cons] at hlength
      have hdrop := h.drop waiting ((subperm_append_left waiting).mpr
        ((sublist_cons_self _ _).subperm.trans hout))
      dsimp only
      split
      · exact ⟨hdrop, by dsimp only; omega, fun hne => absurd rfl hne⟩
      · cases hlimits : try_update_block_template_limits tx s.limits with
        | none => exact ⟨hdrop, by dsimp only; omega, fun hne => absurd rfl hne⟩
        | some limits =>
          refine ⟨h.push ?_ (has_direct_dependencies_sound (h.selected_nodup hpool) hdeps) hlimits, ?_, ?_⟩
          · refine Subperm.trans ?_ ((subperm_append_left waiting).mpr hout)
            exact perm_middle.symm.subperm
          · dsimp only [Selection.push]; omega
          · intro _
            dsimp only [Selection.push]
            omega
  · exact ⟨h, le_rfl, fun hne => absurd rfl hne⟩

theorem add_level_sound (h : Sound deps start pool waiting s) (hpool : (pool.map (·.mined_id)).Nodup)
    (level : List TransactionHash) : Sound deps start pool waiting (add_level deps level s).1 ∧
      Shrinks s (add_level deps level s).1 (add_level deps level s).2 := by
  induction level generalizing s with
  | nil => exact ⟨h, le_rfl, fun hne => absurd rfl hne⟩
  | cons id level ih =>
    obtain ⟨hfirst, hshrinks⟩ := add_dependent_sound h hpool id
    obtain ⟨hrest, hshrinks'⟩ := ih hfirst
    refine ⟨hrest, hshrinks'.length_le.trans hshrinks.length_le, fun hne => ?_⟩
    change (add_level deps level (add_dependent deps s id).1).1.dependent_txs.length < s.dependent_txs.length
    by_cases hfound : (add_dependent deps s id).2 = []
    · refine (hshrinks'.length_lt fun hnext => hne ?_).trans_le hshrinks.length_le
      change (add_dependent deps s id).2 ∪ (add_level deps level (add_dependent deps s id).1).2 = []
      rw [hfound, hnext]
      rfl
    · exact hshrinks'.length_le.trans_lt (hshrinks.length_lt hfound)

theorem add_levels_sound (h : Sound deps start pool waiting s) (hpool : (pool.map (·.mined_id)).Nodup)
    {level : List TransactionHash}
    (hfuel : s.dependent_txs.length + 2 ≤ fuel ∨ level = [] ∧ 1 ≤ fuel) :
    ∃ s', add_levels order deps level s fuel = .ok s' ∧ Sound deps start pool waiting s' := by
  induction fuel generalizing s level with
  | zero => omega
  | succ fuel ih =>
    unfold add_levels
    split
    · exact ⟨s, rfl, h⟩
    · next hlevel =>
      obtain ⟨hsound, hshrinks⟩ := add_level_sound h hpool (order.arrange level)
      have hfuel := hfuel.resolve_right fun hdone => hlevel hdone.1
      refine ih hsound ?_
      by_cases hnext : (add_level deps (order.arrange level) s).2 = []
      · exact .inr ⟨hnext, by omega⟩
      · have hlt := hshrinks.length_lt hnext
        exact .inl (by omega)

variable (p order) {candidates : List SelectedMempoolTx} (draws : Nat → Nat)

theorem checked_add_sound (h : Sound deps start pool (tx :: waiting) s)
    (hpool : (pool.map (·.mined_id)).Nodup) (hindependent : is_independent deps tx = true) :
    ∃ s', checked_add p order deps tx s = .ok s' ∧ Sound deps start pool waiting s' := by
  have hkey : tx.mined_id ∉ deps.dependencies := by simpa [is_independent] using hindependent
  unfold checked_add
  cases hlimits : try_update_block_template_limits tx s.limits with
  | none => exact ⟨s, rfl, h.drop waiting (sublist_cons_self _ _).subperm⟩
  | some limits =>
    dsimp only
    rw [if_neg fun hdev => hkey hdev.2]
    refine add_levels_sound (h.push (Subperm.refl _) ?_ hlimits) hpool (.inl le_rfl)
    intro parent hparent
    rw [mempool.TransactionDependencies.direct_dependencies, Finmap.lookup_eq_none.mpr hkey] at hparent
    cases hparent

theorem draw_all_succ (deps : mempool.TransactionDependencies) (draws : Nat → Nat)
    (hne : candidates ≠ []) :
    ∃ tx rest, candidates.Perm (tx :: rest) ∧ ∀ s fuel, draw_all p order deps draws candidates s (fuel + 1) =
      checked_add p order deps tx s >>= fun s => draw_all p order deps (fun i => draws (i + 1)) rest s fuel := by
  have hposition : draws 0 % candidates.length < candidates.length := Nat.mod_lt _ (length_pos_iff.mpr hne)
  have hget := getElem?_eq_getElem hposition
  refine ⟨_, _, swapRemove_perm hget, fun s fuel => ?_⟩
  have hindex : index candidates (draws 0 % candidates.length) = .ok candidates[draws 0 % candidates.length] := by
    rw [index, hget]
  rw [draw_all, if_neg hne]
  dsimp only
  rw [hindex]
  rfl

theorem draw_all_sound {others : List SelectedMempoolTx}
    (h : Sound deps start pool (candidates ++ others) s) (hpool : (pool.map (·.mined_id)).Nodup)
    (hindependent : ∀ tx ∈ candidates, is_independent deps tx = true)
    (hfuel : candidates.length + 1 ≤ fuel) :
    ∃ s', draw_all p order deps draws candidates s fuel = .ok s' ∧ Sound deps start pool others s' := by
  induction fuel generalizing s draws candidates with
  | zero => omega
  | succ fuel ih =>
    by_cases hne : candidates = []
    · rw [hne] at h
      exact ⟨s, by rw [draw_all, if_pos hne], h⟩
    obtain ⟨tx, rest, hperm, hround⟩ := draw_all_succ p order deps draws hne
    have hlength := hperm.length_eq
    rw [length_cons] at hlength
    simp only [hperm.mem_iff, forall_mem_cons] at hindependent
    have hdrawn : Sound deps start pool (tx :: (rest ++ others)) s :=
      h.drop _ ((hperm.append_right others).symm.append_right s.dependent_txs).subperm
    obtain ⟨s', hadd, hsound⟩ := checked_add_sound p order hdrawn hpool hindependent.1
    obtain ⟨s'', hrest, hdone⟩ := ih (fun i => draws (i + 1)) hsound hindependent.2 (by omega)
    exact ⟨s'', by rw [hround]; exact except_bind_ok.mpr ⟨s', hadd, hrest⟩, hdone⟩

theorem draw_all_takes (others : List SelectedMempoolTx)
    (hdependents : ∀ id, deps.direct_dependents id = [])
    (hfits : s.limits.Fits (candidates ++ others))
    (hindependent : ∀ tx ∈ candidates, is_independent deps tx = true)
    (hfuel : candidates.length + 1 ≤ fuel) :
    ∃ s', draw_all p order deps draws candidates s fuel = .ok s' ∧
      s'.selected_txs.Perm (s.selected_txs ++ candidates) ∧ s'.limits.Fits others := by
  induction fuel generalizing s draws candidates with
  | zero => omega
  | succ fuel ih =>
    by_cases hne : candidates = []
    · rw [hne] at hfits
      exact ⟨s, by rw [draw_all, if_pos hne], by simp [hne], hfits⟩
    obtain ⟨tx, rest, hperm, hround⟩ := draw_all_succ p order deps draws hne
    have hlength := hperm.length_eq
    rw [length_cons] at hlength
    simp only [hperm.mem_iff, forall_mem_cons] at hindependent
    obtain ⟨left, hlimits, hleft⟩ := (hfits.perm (hperm.append_right others)).cons
    have hkey : tx.mined_id ∉ deps.dependencies := by simpa [is_independent] using hindependent.1
    have hadd : checked_add p order deps tx s = .ok (s.push tx left) := by
      rw [checked_add, hlimits]
      dsimp only
      rw [if_neg fun hdev => hkey hdev.2, add_dependents, hdependents]
      rfl
    obtain ⟨s', hrest, hselected, hothers⟩ :=
      ih (s := s.push tx left) (fun i => draws (i + 1)) hleft hindependent.2 (by omega)
    refine ⟨s', by rw [hround]; exact except_bind_ok.mpr ⟨_, hadd, hrest⟩, hselected.trans ?_, hothers⟩
    rw [Selection.push, append_assoc]
    exact hperm.symm.append_left _

end

/-! ## The selection -/

variable (keep : TransactionHash → Bool)

theorem foldl_filter (txs map : List SelectedMempoolTx) :
    (txs.filter fun tx => keep tx.mined_id).foldl
        (fun map tx => OrderedMap.remove (·.mined_id) map tx.mined_id ++ [tx])
        (map.filter fun tx => keep tx.mined_id) =
      (txs.foldl (fun map tx => OrderedMap.remove (·.mined_id) map tx.mined_id ++ [tx]) map).filter
        fun tx => keep tx.mined_id := by
  induction txs generalizing map with
  | nil => rfl
  | cons tx txs ih =>
    rw [foldl_cons, ← ih, filter_append]
    by_cases hkeep : keep tx.mined_id = true
    · rw [filter_cons_of_pos (by exact hkeep), foldl_cons, filter_cons_of_pos (by exact hkeep),
        filter_nil, OrderedMap.remove, OrderedMap.remove, filter_comm]
    · rw [filter_cons_of_neg (by exact hkeep), filter_cons_of_neg (by exact hkeep), filter_nil,
        append_nil, OrderedMap.remove, filter_filter]
      congr 1
      apply filter_congr
      intro tx' _
      by_cases hid : tx'.mined_id = tx.mined_id
      · simp [hid, hkeep]
      · simp [hid]

theorem collect_filter (txs : List SelectedMempoolTx) :
    collect (txs.filter fun tx => keep tx.mined_id) = (collect txs).filter fun tx => keep tx.mined_id :=
  foldl_filter keep txs []

theorem collect_nodup (txs : List SelectedMempoolTx) : ((collect txs).map (·.mined_id)).Nodup := by
  unfold collect
  suffices h : ∀ map : List SelectedMempoolTx, (map.map (·.mined_id)).Nodup → ((txs.foldl (fun map tx =>
      OrderedMap.remove (·.mined_id) map tx.mined_id ++ [tx]) map).map (·.mined_id)).Nodup from h [] nodup_nil
  induction txs with
  | nil => exact fun map h => h
  | cons tx txs ih =>
    intro map h
    refine ih _ ?_
    rw [map_append, map_singleton, nodup_append']
    refine ⟨h.sublist (filter_sublist.map _), nodup_singleton _, ?_⟩
    rw [disjoint_singleton]
    intro hmem
    obtain ⟨tx', htx', hid⟩ := mem_map.mp hmem
    exact (OrderedMap.mem_remove.mp htx').2 hid

theorem mem_of_mem_collect {txs : List SelectedMempoolTx} {tx : SelectedMempoolTx} (h : tx ∈ collect txs) :
    tx ∈ txs := by
  unfold collect at h
  suffices hmap : ∀ map : List SelectedMempoolTx, tx ∈ txs.foldl (fun map tx =>
      OrderedMap.remove (·.mined_id) map tx.mined_id ++ [tx]) map → tx ∈ map ∨ tx ∈ txs from
    (hmap [] h).resolve_left not_mem_nil
  clear h
  induction txs with
  | nil => exact fun map h => .inl h
  | cons first txs ih =>
    intro map h
    rcases ih _ h with hmem | hmem
    · rcases mem_append.mp hmem with hmem | hmem
      · exact .inl (OrderedMap.mem_remove.mp hmem).1
      · exact .inr (mem_singleton.mp hmem ▸ mem_cons_self)
    · exact .inr (mem_cons_of_mem _ hmem)

section

variable (p : Profile) (order : IterationOrder) (draws : Draws) {limits : Limits}
  {mempool_txs txs : List SelectedMempoolTx} {tx : SelectedMempoolTx} {deps : mempool.TransactionDependencies}

theorem select_within_ok {s : Selection} :
    select_within p order draws limits mempool_txs deps = .ok s ↔
      ∃ s₁, draw_all p order deps draws.conventional_fee
          ((order.arrange ((collect mempool_txs).filter (is_independent deps))).filter (·.pays_conventional_fee))
          ⟨(collect mempool_txs).filter fun tx => !is_independent deps tx, [], limits⟩
          (((order.arrange ((collect mempool_txs).filter (is_independent deps))).filter
            (·.pays_conventional_fee)).length + 1) = .ok s₁ ∧ draw_all p order deps draws.low_fee
          ((order.arrange ((collect mempool_txs).filter (is_independent deps))).filter
            fun tx => !tx.pays_conventional_fee) s₁
          (((order.arrange ((collect mempool_txs).filter (is_independent deps))).filter
            fun tx => !tx.pays_conventional_fee).length + 1) = .ok s := by
  have hindependent : collect (mempool_txs.filter (is_independent deps)) =
      (collect mempool_txs).filter (is_independent deps) :=
    collect_filter (fun id => decide (id ∉ deps.dependencies)) mempool_txs
  have hdependent : collect (mempool_txs.filter fun tx => !is_independent deps tx) =
      (collect mempool_txs).filter fun tx => !is_independent deps tx :=
    collect_filter (fun id => !decide (id ∉ deps.dependencies)) mempool_txs
  simp only [select_within, hindependent, hdependent, partition_eq_filter_filter, except_bind_ok]
  rfl

theorem select_within_sound (limits : Limits) (mempool_txs : List SelectedMempoolTx)
    (deps : mempool.TransactionDependencies) :
    ∃ s, select_within p order draws limits mempool_txs deps = .ok s ∧
      Sound deps limits (collect mempool_txs) [] s := by
  have hpool := collect_nodup mempool_txs
  have hindependent : ∀ tx ∈ order.arrange ((collect mempool_txs).filter (is_independent deps)),
      is_independent deps tx = true := fun tx htx => (mem_filter.mp (order.mem_arrange.mp htx)).2
  have hstart : Sound deps limits (collect mempool_txs)
      ((order.arrange ((collect mempool_txs).filter (is_independent deps))).filter (·.pays_conventional_fee) ++
        ((order.arrange ((collect mempool_txs).filter (is_independent deps))).filter
          (fun tx => !tx.pays_conventional_fee) ++ []))
      ⟨(collect mempool_txs).filter fun tx => !is_independent deps tx, [], limits⟩ := by
    refine ⟨?_, fun before tx after h => by simp at h, ⟨rfl, rfl, rfl⟩⟩
    simp only [nil_append, append_nil]
    refine Perm.subperm (Perm.trans ?_ (filter_append_perm (is_independent deps) _))
    exact ((filter_append_perm _ _).trans (order.perm _)).append_right _
  obtain ⟨s₁, hfirst, hsound⟩ := draw_all_sound p order draws.conventional_fee hstart hpool
    (fun tx htx => hindependent tx (mem_filter.mp htx).1) le_rfl
  obtain ⟨s, hsecond, hdone⟩ := draw_all_sound p order draws.low_fee hsound hpool
    (fun tx htx => hindependent tx (mem_filter.mp htx).1) le_rfl
  exact ⟨s, (select_within_ok p order draws).mpr ⟨s₁, hfirst, hsecond⟩, hdone⟩

/-! Any transactions of the pool that fit together can be what is selected: nothing depends on them, and all
others wait for a transaction that never comes. -/

/-- The dependencies that leave only `txs` to be drawn. -/
def only (mempool_txs txs : List SelectedMempoolTx) : mempool.TransactionDependencies where
  dependents := ∅
  dependencies := ((mempool_txs.map (·.mined_id)).filter fun id => id ∉ txs.map (·.mined_id)).foldl
    (fun map id => map.insert id []) ∅

theorem mem_foldl_insert {ids : List TransactionHash} {map : Map TransactionHash (List TransactionHash)}
    {id : TransactionHash} : id ∈ ids.foldl (fun map id => map.insert id []) map ↔ id ∈ map ∨ id ∈ ids := by
  induction ids generalizing map with
  | nil => simp
  | cons first ids ih => simp [ih, or_assoc, or_comm (a := id = first)]

theorem is_independent_only (htx : tx ∈ mempool_txs) :
    is_independent (only mempool_txs txs) tx = true ↔ tx.mined_id ∈ txs.map (·.mined_id) := by
  have hpool : tx.mined_id ∈ mempool_txs.map (·.mined_id) := mem_map_of_mem htx
  rw [is_independent, decide_eq_true_eq, only, mem_foldl_insert, mem_filter]
  simp [hpool, Finmap.notMem_empty]

theorem select_within_takes (hmem : ∀ tx ∈ txs, tx ∈ collect mempool_txs) (hnodup : (txs.map (·.mined_id)).Nodup)
    (hfits : limits.Fits txs) :
    ∃ s, select_within p order draws limits mempool_txs (only mempool_txs txs) = .ok s ∧ s.selected_txs.Perm txs := by
  have hpool := collect_nodup mempool_txs
  have hdependents : ∀ id, (only mempool_txs txs).direct_dependents id = [] := fun id => by
    simp [only, mempool.TransactionDependencies.direct_dependents]
  -- what is left to be drawn are the given transactions
  have hdrawn : ((collect mempool_txs).filter (is_independent (only mempool_txs txs))).Perm txs := by
    refine (perm_ext_iff_of_nodup (hpool.of_map.filter _) hnodup.of_map).mpr fun tx => ?_
    rw [mem_filter]
    constructor
    · rintro ⟨htx, hindependent⟩
      rw [is_independent_only (mem_of_mem_collect htx)] at hindependent
      obtain ⟨tx', htx', hid⟩ := mem_map.mp hindependent
      rwa [← inj_on_of_nodup_map hpool (hmem tx' htx') htx hid]
    · intro htx
      exact ⟨hmem tx htx, (is_independent_only (mem_of_mem_collect (hmem tx htx))).mpr (mem_map_of_mem htx)⟩
  have hsplit := (filter_append_perm (·.pays_conventional_fee) _).trans ((order.perm _).trans hdrawn)
  have hindependent : ∀ tx ∈ order.arrange ((collect mempool_txs).filter (is_independent (only mempool_txs txs))),
      is_independent (only mempool_txs txs) tx = true :=
    fun tx htx => (mem_filter.mp (order.mem_arrange.mp htx)).2
  obtain ⟨s₁, hfirst, hselected, hleft⟩ := draw_all_takes p order draws.conventional_fee _ hdependents
    (s := ⟨(collect mempool_txs).filter fun tx => !is_independent (only mempool_txs txs) tx, [], limits⟩)
    (hfits.perm hsplit.symm) (fun tx htx => hindependent tx (mem_filter.mp htx).1) le_rfl
  obtain ⟨s, hsecond, hselected', -⟩ := draw_all_takes p order draws.low_fee [] hdependents
    (s := s₁) (by rwa [append_nil])
    (fun tx htx => hindependent tx (mem_filter.mp htx).1) le_rfl
  exact ⟨s, (select_within_ok p order draws).mpr ⟨s₁, hfirst, hsecond⟩,
    hselected'.trans ((hselected.append_right _).trans hsplit)⟩

end

end ZebraCrosslink.get_block_template
