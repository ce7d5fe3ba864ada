import Mathlib
import ZebraCrosslink.Checkpoint.Verifier

/-!
# Ranges of the checkpoint verifier

A walk back from a checkpoint finds the blocks of the chain, down to the previous checkpoint or to a
height at which the queue has none of them.
-/

open Rust List Map

namespace ZebraCrosslink.checkpoint

open CheckpointVerifier

/-! ## Heights of the queue -/

variable {v : CheckpointVerifier} {h : Nat} {range : Nat → Bool} {lo n : Nat} {env : Env}
  {chain : Nat → Header} {qblocks : List QueuedBlock} {height : Nat} {expected_hash : BlockHash}
  {top : Nat}

theorem mem_queued_range : h ∈ v.queued_range range ↔ h ∈ v.queued ∧ range h = true := by
  simp [queued_range, Finmap.mem_keys]

theorem queued_range_sorted (v : CheckpointVerifier) (range : Nat → Bool) :
    (v.queued_range range).Pairwise (· < ·) :=
  (Finset.sortedLT_sort _).pairwise

theorem queued_range_eq (h : ∀ k, k ∈ v.queued ∧ range k = true ↔ lo ≤ k ∧ k < lo + n) :
    v.queued_range range = range' lo n := by
  have hsorted := queued_range_sorted v range
  have hperm : (v.queued_range range).Perm (range' lo n) := by
    refine (perm_ext_iff_of_nodup hsorted.nodup nodup_range').mpr fun k => ?_
    rw [mem_queued_range, h, mem_range'_1]
  exact hperm.eq_of_pairwise (fun _ _ _ _ h h' => absurd h (lt_asymm h')) hsorted pairwise_lt_range'

theorem continuous_end_spec {p : Nat} {l : List Nat} (hsorted : l.Pairwise (· < ·)) (hgt : ∀ x ∈ l, p < x) :
    p ≤ continuous_end p l ∧ (∀ h, p < h → h ≤ continuous_end p l → h ∈ l) ∧
      continuous_end p l + 1 ∉ l := by
  induction l generalizing p with
  | nil => exact ⟨le_rfl, fun h hp hh => absurd hp (not_lt.mpr hh), not_mem_nil⟩
  | cons x rest ih =>
    obtain ⟨hx, hrest⟩ := pairwise_cons.mp hsorted
    have hpx := hgt x mem_cons_self
    unfold continuous_end
    split
    · next heq =>
      obtain ⟨hle, hall, hnext⟩ := ih hrest hx
      refine ⟨by omega, fun h hp hh => ?_, ?_⟩
      · by_cases hhx : h = x
        · exact hhx ▸ mem_cons_self
        · exact mem_cons_of_mem _ (hall h (by omega) hh)
      · rw [mem_cons, not_or]
        exact ⟨by omega, hnext⟩
    · next hne =>
      refine ⟨le_rfl, fun h hp hh => absurd hp (not_lt.mpr hh), fun hmem => ?_⟩
      rcases mem_cons.mp hmem with heq | hmem
      · exact hne heq.symm
      · have := hx _ hmem
        omega

/-! ## Targets -/

def Progress.first : Progress Nat → Nat
  | BeforeGenesis | FinalCheckpoint => 0
  | InitialTip height | PreviousCheckpoint height => height + 1

structure Reaches (env : Env) (v : CheckpointVerifier) (target : Nat) : Prop where
  listed : target ∈ env.checkpoint_list.checkpoints
  first : v.verifier_progress.first ≤ target
  queued : ∀ h, v.verifier_progress.first ≤ h → h ≤ target → h ∈ v.queued

theorem max_height_in_range_eq (list : CheckpointList) (range : Nat → Bool) :
    (∃ target, list.max_height_in_range range = some target ∧ target ∈ list.checkpoints ∧
        range target = true ∧ ∀ h ∈ list.checkpoints, range h = true → h ≤ target) ∨
      list.max_height_in_range range = none ∧ ∀ h ∈ list.checkpoints, range h = false := by
  have hmem : ∀ h, h ∈ list.checkpoints.filter (fun height _ => range height) ↔
      h ∈ list.checkpoints ∧ range h = true := by
    intro h
    rw [Map.mem_filter, Finmap.mem_iff]
    exact ⟨fun ⟨a, ha, hr⟩ => ⟨⟨a, ha⟩, hr⟩, fun ⟨⟨a, ha⟩, hr⟩ => ⟨a, ha, hr⟩⟩
  cases hkey : list.max_height_in_range range with
  | some target =>
    obtain ⟨htarget, hmax⟩ := lastKey_eq_some.mp hkey
    refine .inl ⟨target, rfl, ((hmem target).mp htarget).1, ((hmem target).mp htarget).2, ?_⟩
    exact fun h hh hr => hmax h ((hmem h).mpr ⟨hh, hr⟩)
  | none =>
    refine .inr ⟨rfl, fun h hh => ?_⟩
    by_contra hr
    rw [Bool.not_eq_false] at hr
    unfold CheckpointList.max_height_in_range lastKey at hkey
    rw [dif_pos ⟨h, Finmap.mem_keys.mpr ((hmem h).mpr ⟨hh, hr⟩)⟩] at hkey
    cases hkey

def FindsTarget (env : Env) (v : CheckpointVerifier) : Prop :=
  (∃ target, v.target_checkpoint_height env = .ok (.Checkpoint target) ∧ Reaches env v target ∧
      ∀ other, Reaches env v other → other ≤ target) ∨
    v.target_checkpoint_height env = .ok .WaitingForBlocks ∧ ∀ other, ¬ Reaches env v other

theorem findsTarget_of_start (start : Nat) (bound : Bound) (hstart : v.start_height = .inr start)
    (hbound : v.current_start_bound = some bound)
    (hallows : ∀ h, bound.allows h = true ↔ v.verifier_progress.first ≤ h)
    (hbefore : ∀ h, v.verifier_progress.first ≤ h → h ≤ start → h ∈ v.queued)
    (hfirst : v.verifier_progress.first ≤ start + 1) : FindsTarget env v := by
  have hend := continuous_end_spec (queued_range_sorted v fun height => start < height)
    (fun x hx => of_decide_eq_true (mem_queued_range.mp hx).2)
  generalize hpending : continuous_end start (v.queued_range fun height => start < height) = pending at hend
  simp only [mem_queued_range, decide_eq_true_eq] at hend
  obtain ⟨hle, hall, hnext⟩ := hend
  have hreaches : ∀ target, Reaches env v target ↔ target ∈ env.checkpoint_list.checkpoints ∧
      (bound.allows target && decide (target ≤ pending)) = true := by
    intro target
    rw [Bool.and_eq_true, hallows, decide_eq_true_eq]
    constructor
    · intro h
      refine ⟨h.listed, h.first, ?_⟩
      by_contra hgt
      exact hnext ⟨h.queued _ (by omega) (by omega), by omega⟩
    · rintro ⟨hlisted, hlow, hhigh⟩
      refine ⟨hlisted, hlow, fun h hh ht => ?_⟩
      by_cases hs : h ≤ start
      · exact hbefore h hh hs
      · exact (hall h (by omega) (by omega)).1
  have htarget : ∀ found, (env.checkpoint_list.max_height_in_range fun height =>
      bound.allows height && decide (height ≤ pending)) = found →
      v.target_checkpoint_height env = .ok (found.elim .WaitingForBlocks .Checkpoint) := by
    intro found hfound
    unfold target_checkpoint_height
    rw [hstart, hbound]
    refine except_bind_ok.mpr ⟨bound, rfl, ?_⟩
    rw [hpending, hfound]
    cases found <;> rfl
  unfold FindsTarget
  rcases max_height_in_range_eq env.checkpoint_list fun height =>
      bound.allows height && decide (height ≤ pending) with ⟨target, hmax, hmem, hrange, hleast⟩ | ⟨hnone, hrange⟩
  · rw [htarget _ hmax]
    refine .inl ⟨target, rfl, (hreaches target).mpr ⟨hmem, hrange⟩, fun other hother => ?_⟩
    exact hleast other hother.listed ((hreaches other).mp hother).2
  · rw [htarget _ hnone]
    refine .inr ⟨rfl, fun other hother => ?_⟩
    have htrue := ((hreaches other).mp hother).2
    rw [hrange other hother.listed] at htrue
    cases htrue

theorem findsTarget (env : Env) (hprogress : v.verifier_progress ≠ .FinalCheckpoint) : FindsTarget env v := by
  cases hv : v.verifier_progress with
  | FinalCheckpoint => exact absurd hv hprogress
  | BeforeGenesis =>
    by_cases hgenesis : 0 ∈ v.queued
    · refine findsTarget_of_start 0 .Unbounded ?_ ?_ ?_ ?_ ?_
      · simp [start_height, hv, hgenesis]
      · simp [current_start_bound, hv]
      · simp [Bound.allows, hv, Progress.first]
      · intro h _ hh
        exact (Nat.le_zero.mp hh) ▸ hgenesis
      · simp [hv, Progress.first]
    · refine .inr ⟨?_, fun other hother => hgenesis (hother.queued 0 ?_ (Nat.zero_le _))⟩
      · simp [target_checkpoint_height, start_height, hv, hgenesis]
      · simp [hv, Progress.first]
  | InitialTip height =>
    refine findsTarget_of_start height (.Excluded height) ?_ ?_ ?_ ?_ ?_ <;>
      simp [start_height, current_start_bound, hv, Progress.first, Bound.allows]
    intro h hlt hle
    omega
  | PreviousCheckpoint height =>
    refine findsTarget_of_start height (.Excluded height) ?_ ?_ ?_ ?_ ?_ <;>
      simp [start_height, current_start_bound, hv, Progress.first, Bound.allows]
    intro h hlt hle
    omega

/-! ## The chain of the checkpoints -/

/-- The checkpoints lie on one chain, which starts at a genesis block with the null parent. -/
structure OnOneChain (env : Env) (chain : Nat → Header) : Prop where
  genesis : (chain 0).previous_block_hash = GENESIS_PREVIOUS_BLOCK_HASH
  linked : ∀ h < env.checkpoint_list.max_height, (chain (h + 1)).previous_block_hash = env.hash (chain h)
  listed : ∀ h x, env.checkpoint_list.hash h = some x → x = env.hash (chain h)

def parent_hash (env : Env) (chain : Nat → Header) : Nat → BlockHash
  | 0 => GENESIS_PREVIOUS_BLOCK_HASH
  | h + 1 => env.hash (chain h)

theorem OnOneChain.parent (hchain : OnOneChain env chain) (hh : h ≤ env.checkpoint_list.max_height) :
    (chain h).previous_block_hash = parent_hash env chain h := by
  cases h with
  | zero => exact hchain.genesis
  | succ h => exact hchain.linked h hh

/-- A queued block at its height. No other header has the hash of the one on the chain. -/
structure Genuine (env : Env) (chain : Nat → Header) (h : Nat) (q : QueuedBlock) : Prop where
  height : q.block.height = h
  header : h ≤ env.checkpoint_list.max_height → q.block.hash = env.hash (chain h) →
    q.block.block.header = chain h

structure GenuineList (env : Env) (chain : Nat → Header) (h : Nat) (qblocks : List QueuedBlock) : Prop where
  nonempty : qblocks ≠ []
  distinct : (qblocks.map (·.block.hash)).Nodup
  genuine : ∀ q ∈ qblocks, Genuine env chain h q

/-! ## One height -/

def side_chain (expected_hash : BlockHash) (q : QueuedBlock) : Nat × Except VerifyCheckpointError BlockHash :=
  (q.tx, .error (.UnexpectedSideChain expected_hash q.block.hash))

theorem drain_of_forall_ne (valid : Option QueuedBlock)
    (h : ∀ q ∈ qblocks, q.block.hash ≠ expected_hash) :
    drain height expected_hash valid qblocks = .ok (valid, qblocks.map (side_chain expected_hash)) := by
  induction qblocks with
  | nil => rfl
  | cons q rest ih =>
    obtain ⟨hq, hrest⟩ := forall_mem_cons.mp h
    unfold drain
    rw [if_neg hq, ih hrest]
    rfl

/-- Blocks with different hashes split into the expected one and those of the side chains. -/
theorem drain_spec (height : Nat) (expected_hash : BlockHash)
    (hdistinct : (qblocks.map (·.block.hash)).Nodup) :
    let found := qblocks.find? (·.block.hash = expected_hash)
    let failed := (qblocks.filter (·.block.hash ≠ expected_hash)).map (side_chain expected_hash)
    drain height expected_hash none qblocks = .ok (found, failed) ∧
      (qblocks.map (·.tx)).Perm (found.toList.map (·.tx) ++ failed.map Prod.fst) := by
  intro found failed
  induction qblocks with
  | nil => exact ⟨rfl, .nil⟩
  | cons q rest ih =>
    rw [map_cons, nodup_cons] at hdistinct
    obtain ⟨hq, hrest⟩ := hdistinct
    by_cases heq : q.block.hash = expected_hash
    · have hother : ∀ q' ∈ rest, q'.block.hash ≠ expected_hash := fun q' hq' heq' =>
        hq (mem_map.mpr ⟨q', hq', heq'.trans heq.symm⟩)
      have hfound : found = some q := by simp [found, heq]
      have hfailed : failed = rest.map (side_chain expected_hash) := by
        simp only [failed, filter_cons, heq, ne_eq, not_true, decide_false, Bool.false_eq_true, if_false]
        rw [filter_eq_self.mpr fun q' hq' => decide_eq_true (hother q' hq')]
      rw [drain, if_pos heq, drain_of_forall_ne _ hother, hfound, hfailed, map_map]
      exact ⟨rfl, .refl _⟩
    · obtain ⟨hdrain, hperm⟩ := ih hrest
      rw [drain, if_neg heq, hdrain]
      simp only [found, failed, find?_cons, filter_cons, heq, decide_false, ne_eq, not_false_iff,
        decide_true, if_true, map_cons]
      exact ⟨rfl, (hperm.cons _).trans perm_middle.symm⟩

theorem process_height_eq (hchain : OnOneChain env chain)
    (hlookup : v.queued.lookup h = some qblocks) (hlist : GenuineList env chain h qblocks) :
    v.process_height env h (env.hash (chain h)) =
      .ok (qblocks.find? (·.block.hash = env.hash (chain h)), { v with queued := v.queued.erase h },
        (qblocks.filter (·.block.hash ≠ env.hash (chain h))).map (side_chain (env.hash (chain h)))) := by
  have hinterim : check_interim env h (env.hash (chain h)) = .ok () := by
    unfold check_interim
    split
    · rfl
    · next x hx => exact assertThat_of _ (hchain.listed h x hx).symm
  unfold process_height
  refine except_bind_ok.mpr ⟨qblocks, by rw [hlookup]; rfl, ?_⟩
  refine except_bind_ok.mpr ⟨(), assertThat_of _ hlist.nonempty, ?_⟩
  rw [hinterim, (drain_spec h _ hlist.distinct).1]
  rfl

/-! ## The walk back -/

def requests (queued : Map Nat (List QueuedBlock)) : Multiset Nat := queued.items fun qblocks => qblocks.map (·.tx)

def OffChain (env : Env) (chain : Nat → Header) (queued : Map Nat (List QueuedBlock))
    (answer : Nat × Except VerifyCheckpointError BlockHash) : Prop :=
  ∃ h qblocks q, queued.lookup h = some qblocks ∧ q ∈ qblocks ∧ q.block.hash ≠ env.hash (chain h) ∧
    answer = side_chain (env.hash (chain h)) q

/-- A walk from below `top` has emptied the heights down to `bottom`. It has found the blocks of the chain
down to `first`, and has answered all others. -/
structure Taken (env : Env) (chain : Nat → Header) (queued queued' : Map Nat (List QueuedBlock))
    (bottom first top : Nat) (rev_valid_blocks : List QueuedBlock) (failed : Sent) : Prop where
  lookup : ∀ h, queued'.lookup h = if bottom ≤ h ∧ h < top then none else queued.lookup h
  heights : rev_valid_blocks.map (·.block.height) = (range' first (top - first)).reverse
  genuine : ∀ q ∈ rev_valid_blocks, Genuine env chain q.block.height q
  on_chain : ∀ q ∈ rev_valid_blocks, q.block.hash = env.hash (chain q.block.height)
  failed_off : ∀ a ∈ failed, OffChain env chain queued a
  requests_eq : requests queued =
    (rev_valid_blocks.map (·.tx) : Multiset Nat) + (failed.map Prod.fst : Multiset Nat) + requests queued'

variable {first : Nat} {queued queued' : Map Nat (List QueuedBlock)} {failed : Sent}
  {rev_valid_blocks : List QueuedBlock} {q : QueuedBlock} {v' : CheckpointVerifier} {rest : List Nat}
  {sent : Sent} {hash : BlockHash}

theorem reverse_range'_succ (h : first ≤ top) :
    (range' first (top + 1 - first)).reverse = top :: (range' first (top - first)).reverse := by
  rw [show top + 1 - first = (top - first) + 1 by omega, range'_1_concat, reverse_append,
    show first + (top - first) = top by omega]
  rfl

theorem offChain_of_filter (hlookup : queued.lookup h = some qblocks)
    {a : Nat × Except VerifyCheckpointError BlockHash}
    (ha : a ∈ (qblocks.filter (·.block.hash ≠ env.hash (chain h))).map (side_chain (env.hash (chain h)))) :
    OffChain env chain queued a := by
  obtain ⟨q, hq, rfl⟩ := mem_map.mp ha
  obtain ⟨hmem, hne⟩ := mem_filter.mp hq
  exact ⟨h, qblocks, q, hlookup, hmem, of_decide_eq_true hne, rfl⟩

theorem taken_of_find_none (hlookup : queued.lookup top = some qblocks)
    (hlist : GenuineList env chain top qblocks)
    (hfind : qblocks.find? (·.block.hash = env.hash (chain top)) = none) :
    Taken env chain queued (queued.erase top) top (top + 1) (top + 1) []
      ((qblocks.filter (·.block.hash ≠ env.hash (chain top))).map (side_chain (env.hash (chain top)))) where
  lookup h := by
    rw [lookup_erase']
    refine if_congr ?_ rfl rfl
    omega
  heights := by simp
  genuine := by simp
  on_chain := by simp
  failed_off a ha := offChain_of_filter hlookup ha
  requests_eq := by
    have hsplit := (drain_spec top (env.hash (chain top)) hlist.distinct).2
    rw [hfind] at hsplit
    rw [requests, items_of_lookup _ hlookup, Multiset.coe_eq_coe.mpr hsplit]
    simp [requests]

theorem Taken.cons {bottom : Nat}
    (h : Taken env chain (queued.erase top) queued' bottom first top rev_valid_blocks failed)
    (hbottom : bottom ≤ top) (hfirst : first ≤ top) (hlookup : queued.lookup top = some qblocks)
    (hlist : GenuineList env chain top qblocks)
    (hfind : qblocks.find? (·.block.hash = env.hash (chain top)) = some q) :
    Taken env chain queued queued' bottom first (top + 1) (q :: rev_valid_blocks)
      ((qblocks.filter (·.block.hash ≠ env.hash (chain top))).map (side_chain (env.hash (chain top))) ++ failed) := by
  have hgenuine := hlist.genuine q (mem_of_find?_eq_some hfind)
  have hhash : q.block.hash = env.hash (chain top) := by simpa using find?_some hfind
  refine ⟨fun h' => ?_, ?_, ?_, ?_, ?_, ?_⟩
  · rw [h.lookup, lookup_erase']
    grind
  · rw [map_cons, h.heights, hgenuine.height, reverse_range'_succ hfirst]
  · refine forall_mem_cons.mpr ⟨?_, h.genuine⟩
    rw [hgenuine.height]
    exact hgenuine
  · refine forall_mem_cons.mpr ⟨?_, h.on_chain⟩
    rw [hgenuine.height]
    exact hhash
  · intro a ha
    rcases mem_append.mp ha with ha | ha
    · exact offChain_of_filter hlookup ha
    · obtain ⟨k, qblocks', q', hlookup', hrest⟩ := h.failed_off a ha
      rw [lookup_erase'] at hlookup'
      split at hlookup'
      · cases hlookup'
      · exact ⟨k, qblocks', q', hlookup', hrest⟩
  · have hsplit := (drain_spec top (env.hash (chain top)) hlist.distinct).2
    have hrest := h.requests_eq
    rw [hfind] at hsplit
    rw [requests, items_of_lookup _ hlookup, Multiset.coe_eq_coe.mpr hsplit]
    unfold requests at hrest
    rw [hrest]
    simp only [Option.toList_some, map_cons, map_nil, map_append, ← Multiset.coe_add,
      ← Multiset.cons_coe, ← Multiset.singleton_add, Multiset.coe_nil, add_zero, requests]
    abel

theorem walk_back_eq (hchain : OnOneChain env chain)
    (hlists : ∀ h qblocks, v.queued.lookup h = some qblocks → GenuineList env chain h qblocks)
    (hqueued : ∀ h, lo ≤ h → h < lo + n → h ∈ v.queued)
    (hmax : lo + n ≤ env.checkpoint_list.max_height + 1) (rev_valid_blocks : List QueuedBlock) (sent : Sent) :
    (∃ rev failed queued', v.walk_back env (parent_hash env chain (lo + n)) rev_valid_blocks sent
          (range' lo n).reverse =
        .ok (.complete (parent_hash env chain lo) (rev_valid_blocks ++ rev), { v with queued := queued' },
          sent ++ failed) ∧ Taken env chain v.queued queued' lo lo (lo + n) rev failed) ∨
    ∃ k rev failed queued', lo ≤ k ∧ k < lo + n ∧
      v.walk_back env (parent_hash env chain (lo + n)) rev_valid_blocks sent (range' lo n).reverse =
        .ok (.stopped (rev_valid_blocks ++ rev), { v with queued := queued' }, sent ++ failed) ∧
      Taken env chain v.queued queued' k (k + 1) (lo + n) rev failed := by
  induction n generalizing v rev_valid_blocks sent with
  | zero =>
    refine .inl ⟨[], [], v.queued, by simp [walk_back], ?_⟩
    refine ⟨fun h => (if_neg (by omega)).symm, by simp, by simp, by simp, by simp, by simp⟩
  | succ n ih =>
    obtain ⟨qblocks, hlookup⟩ := Finmap.mem_iff.mp (hqueued (lo + n) (by omega) (by omega))
    have hlist := hlists _ _ hlookup
    have hprocess := process_height_eq hchain hlookup hlist
    rw [show (range' lo (n + 1)).reverse = (lo + n) :: (range' lo n).reverse by
      rw [range'_1_concat, reverse_append]; rfl]
    change v.process_height env (lo + n) (parent_hash env chain (lo + (n + 1))) = _ at hprocess
    cases hfind : qblocks.find? (·.block.hash = env.hash (chain (lo + n))) with
    | none =>
      rw [hfind] at hprocess
      refine .inr ⟨lo + n, [], _, _, by omega, by omega, ?_, taken_of_find_none hlookup hlist hfind⟩
      rw [walk_back, hprocess, append_nil]
      rfl
    | some q =>
      rw [hfind] at hprocess
      rw [walk_back, hprocess]
      dsimp only [bind, Except.bind]
      have hgenuine := hlist.genuine q (mem_of_find?_eq_some hfind)
      have hhash : q.block.hash = env.hash (chain (lo + n)) := by simpa using find?_some hfind
      have hparent : q.block.block.header.previous_block_hash = parent_hash env chain (lo + n) := by
        rw [hgenuine.header (by omega) hhash]
        exact hchain.parent (by omega)
      have hlists' : ∀ h qblocks, (v.queued.erase (lo + n)).lookup h = some qblocks →
          GenuineList env chain h qblocks := by
        intro h qblocks hlookup'
        rw [lookup_erase'] at hlookup'
        split at hlookup'
        · cases hlookup'
        · exact hlists h qblocks hlookup'
      have hqueued' : ∀ h, lo ≤ h → h < lo + n → h ∈ v.queued.erase (lo + n) := fun h hlo hh =>
        Finmap.mem_erase.mpr ⟨by omega, hqueued h hlo (by omega)⟩
      rw [hparent]
      rcases ih (v := { v with queued := v.queued.erase (lo + n) }) hlists' hqueued' (by omega)
          (rev_valid_blocks ++ [q]) _ with
        ⟨rev, failed, queued', hwalk, htaken⟩ | ⟨k, rev, failed, queued', hlo, hk, hwalk, htaken⟩
      · refine .inl ⟨q :: rev, _, queued', ?_, htaken.cons (by omega) (by omega) hlookup hlist hfind⟩
        rw [hwalk, append_assoc, append_assoc]
        rfl
      · refine .inr ⟨k, q :: rev, _, queued', hlo, by omega, ?_,
          htaken.cons (by omega) (by omega) hlookup hlist hfind⟩
        rw [hwalk, append_assoc, append_assoc]
        rfl

/-! ## The invariant -/

def OnChain (env : Env) (chain : Nat → Header) (tip : Tip) : Prop :=
  ∀ h x, tip = some (h, x) → h < env.checkpoint_list.max_height → x = env.hash (chain h)

structure Kept (env : Env) (chain : Nat → Header) (v : CheckpointVerifier) : Prop where
  lists : ∀ h qblocks, v.queued.lookup h = some qblocks → GenuineList env chain h qblocks
  initial : ∀ h, v.verifier_progress = .InitialTip h →
    h < env.checkpoint_list.max_height ∧ v.initial_tip_hash = some (env.hash (chain h))
  previous : ∀ h, v.verifier_progress = .PreviousCheckpoint h →
    h < env.checkpoint_list.max_height ∧ h ∈ env.checkpoint_list.checkpoints
  resets : ∀ tip ∈ v.reset_receiver, OnChain env chain tip

theorem le_max_height {list : CheckpointList} (hh : h ∈ list.checkpoints) : h ≤ list.max_height :=
  Finset.le_max' _ _ (Finmap.mem_keys.mpr hh)

theorem diagnostics_ok (env : Env) (height : Option Nat) :
    verified_checkpoint_diagnostics env height = .ok () := by
  cases height with
  | none => rfl
  | some h =>
    have hpos : 0 < (env.checkpoint_list.checkpoints.keys.filter (· ≤ h)).card :=
      Finset.card_pos.mpr ⟨0, Finset.mem_filter.mpr
        ⟨Finmap.mem_keys.mpr env.checkpoint_list.genesis, Nat.zero_le _⟩⟩
    obtain ⟨n, hn⟩ := Nat.exists_eq_succ_of_ne_zero hpos.ne'
    simp only [verified_checkpoint_diagnostics, CheckpointList.prev_checkpoint_index, hn]
    rfl

theorem reset_progress_eq (tip : Tip) : v.reset_progress env tip =
    .ok { v with
      initial_tip_hash := (progress_from_tip env.checkpoint_list tip).1
      verifier_progress := (progress_from_tip env.checkpoint_list tip).2 } := by
  unfold reset_progress
  simp only [diagnostics_ok]
  rfl

theorem Kept.reset (h : Kept env chain v) {tip : Tip} (htip : OnChain env chain tip) :
    Kept env chain { v with
      initial_tip_hash := (progress_from_tip env.checkpoint_list tip).1
      verifier_progress := (progress_from_tip env.checkpoint_list tip).2 } := by
  cases tip with
  | none => exact ⟨h.lists, fun k hk => (by cases hk), fun k hk => (by cases hk), h.resets⟩
  | some tip =>
    obtain ⟨height, hash⟩ := tip
    unfold progress_from_tip
    by_cases hlow : env.checkpoint_list.max_height ≤ height
    · simp only [if_pos hlow]
      exact ⟨h.lists, fun k hk => (by cases hk), fun k hk => (by cases hk), h.resets⟩
    · simp only [if_neg hlow]
      refine ⟨h.lists, fun k hk => ?_, fun k hk => (by cases hk), h.resets⟩
      cases hk
      exact ⟨by omega, congrArg some (htip height hash rfl (by omega))⟩

/-! ### Putting blocks back -/

theorem put_back_spec (hheights : (qblocks.map (·.block.height)).Nodup)
    (hnone : ∀ q ∈ qblocks, v.queued.lookup q.block.height = none) :
    (∀ h, (v.put_back qblocks).queued.lookup h =
      match qblocks.find? (·.block.height = h) with
      | some q => some [q]
      | none => v.queued.lookup h) ∧
    requests (v.put_back qblocks).queued = (qblocks.map (·.tx) : Multiset Nat) + requests v.queued := by
  unfold put_back
  generalize v.queued = queued at hnone ⊢
  dsimp only
  induction qblocks generalizing queued with
  | nil => simp
  | cons q rest ih =>
    obtain ⟨hq, hrest⟩ := forall_mem_cons.mp hnone
    rw [map_cons, nodup_cons] at hheights
    have hother : ∀ q' ∈ rest, q'.block.height ≠ q.block.height := fun q' hq' heq =>
      hheights.1 (mem_map.mpr ⟨q', hq', heq⟩)
    have hnone' : ∀ q' ∈ rest, (queued.insert q.block.height [q]).lookup q'.block.height = none := by
      intro q' hq'
      rw [lookup_insert', if_neg (hother q' hq')]
      exact hrest q' hq'
    obtain ⟨hlookup, hrequests⟩ := ih hheights.2 _ hnone'
    rw [foldl_cons, hq]
    refine ⟨fun h => (hlookup h).trans ?_, hrequests.trans ?_⟩
    · rw [find?_cons]
      by_cases heq : q.block.height = h
      · have hfind : rest.find? (·.block.height = h) = none :=
          find?_eq_none.mpr fun q' hq' => by simpa [← heq] using hother q' hq'
        simp [heq, hfind]
      · rw [lookup_insert', if_neg (Ne.symm heq)]
        simp [heq]
    · rw [requests, items_insert, erase_of_notMem (Finmap.lookup_eq_none.mp hq)]
      simp only [map_cons, map_nil, ← Multiset.cons_coe, Multiset.coe_nil, requests,
        ← Multiset.singleton_add, add_zero]
      abel

/-! ## One range -/

def start_hash : Progress BlockHash → Option BlockHash
  | .BeforeGenesis => some GENESIS_PREVIOUS_BLOCK_HASH
  | .InitialTip hash | .PreviousCheckpoint hash => some hash
  | .FinalCheckpoint => none

/-- The blocks are the hash chain that starts after the previous checkpoint, or the initial tip, and ends
at a checkpoint. -/
structure RangeVerified (env : Env) (v : CheckpointVerifier) (blocks : List QueuedBlock) (target : Nat) :
    Prop where
  first : v.verifier_progress.first ≤ target
  heights : blocks.map (·.block.height) =
    range' v.verifier_progress.first (target + 1 - v.verifier_progress.first)
  start : ∃ progress, v.previous_checkpoint_hash env = .ok progress ∧
    blocks.head?.map (·.block.block.header.previous_block_hash) = start_hash progress
  linked : blocks.IsChain fun a b => b.block.block.header.previous_block_hash = a.block.hash
  checkpoint_hash : ∃ hash, env.checkpoint_list.hash target = some hash ∧
    blocks.getLast?.map (·.block.hash) = some hash

def after_target (env : Env) (target : Nat) : Progress Nat :=
  if target = env.checkpoint_list.max_height then .FinalCheckpoint else .PreviousCheckpoint target

/-- What processing a range does: it answers a whole range `Ok`, after errors for the blocks on side
chains, or it answers only such errors. -/
def RangeStep (env : Env) (chain : Nat → Header) (queued : Map Nat (List QueuedBlock))
    (v v' : CheckpointVerifier) (sent : Sent) : Prop :=
  (v'.verifier_progress = v.verifier_progress ∧ ∀ a ∈ sent, OffChain env chain queued a) ∨
    ∃ target blocks failed, RangeVerified env v blocks target ∧ (∀ a ∈ failed, OffChain env chain queued a) ∧
      sent = failed ++ blocks.map (fun q => (q.tx, .ok q.block.hash)) ∧
      (∀ h, v.verifier_progress.first ≤ h → h ≤ target → h ∉ v'.queued) ∧
      v'.verifier_progress = after_target env target

/-- What is queued after a range was processed was queued before, or is on the chain. -/
def Remains (env : Env) (chain : Nat → Header) (queued queued' : Map Nat (List QueuedBlock)) : Prop :=
  ∀ h qblocks q, queued'.lookup h = some qblocks → q ∈ qblocks → q.block.hash = env.hash (chain h) ∨
    ∃ before, queued.lookup h = some before ∧ q ∈ before

section

variable (hprogress : v.verifier_progress ≠ .FinalCheckpoint)
include hprogress

theorem Kept.previous_hash (h : Kept env chain v) (hchain : OnOneChain env chain) :
    ∃ progress, v.previous_checkpoint_hash env = .ok progress ∧
      start_hash progress = some (parent_hash env chain v.verifier_progress.first) := by
  unfold previous_checkpoint_hash
  cases hv : v.verifier_progress with
  | FinalCheckpoint => exact absurd hv hprogress
  | BeforeGenesis => exact ⟨_, rfl, rfl⟩
  | InitialTip height =>
    dsimp only
    rw [(h.initial height hv).2]
    exact ⟨_, rfl, rfl⟩
  | PreviousCheckpoint height =>
    obtain ⟨x, hx⟩ := Finmap.mem_iff.mp (h.previous height hv).2
    dsimp only [CheckpointList.hash]
    rw [hx, hchain.listed height x hx]
    exact ⟨_, rfl, rfl⟩

theorem Kept.current_start_bound : ∃ bound, v.current_start_bound = some bound ∧
      ∀ h, bound.allows h = true ↔ v.verifier_progress.first ≤ h := by
  unfold CheckpointVerifier.current_start_bound
  cases hv : v.verifier_progress with
  | FinalCheckpoint => exact absurd hv hprogress
  | BeforeGenesis => exact ⟨_, rfl, by simp [Bound.allows, Progress.first]⟩
  | InitialTip height => exact ⟨_, rfl, by simp [Bound.allows, Progress.first]⟩
  | PreviousCheckpoint height => exact ⟨_, rfl, by simp [Bound.allows, Progress.first]⟩

/-! ### A walk that stopped -/

variable {target : Nat} {rev : List QueuedBlock}

theorem on_stopped_ok (h : Kept env chain v) {k : Nat} (hfirst : v.verifier_progress.first ≤ k)
    (hk : k ≤ target)
    (htaken : Taken env chain v.queued queued' k (k + 1) (target + 1) rev failed) :
    ∃ v', on_stopped env { v with queued := queued' } target v.verifier_progress rev = .ok v' ∧
      Kept env chain v' ∧ v'.verifier_progress = v.verifier_progress ∧ v'.reset_receiver = v.reset_receiver ∧
      Remains env chain v.queued v'.queued ∧
      requests v.queued = (failed.map Prod.fst : Multiset Nat) + requests v'.queued := by
  have hheights : (rev.reverse.map (·.block.height)) = range' (k + 1) (target + 1 - (k + 1)) := by
    rw [map_reverse, htaken.heights, reverse_reverse]
  have hmem : ∀ q ∈ rev.reverse, k + 1 ≤ q.block.height ∧ q.block.height < target + 1 := by
    intro q hq
    have hq : q.block.height ∈ rev.reverse.map (·.block.height) := mem_map.mpr ⟨q, hq, rfl⟩
    rw [hheights, mem_range'_1] at hq
    omega
  have hnodup : (rev.reverse.map (·.block.height)).Nodup := hheights ▸ nodup_range'
  have hnone : ∀ q ∈ rev.reverse, queued'.lookup q.block.height = none := fun q hq => by
    rw [htaken.lookup, if_pos]
    have := hmem q hq
    omega
  obtain ⟨hlookup, hrequests⟩ := put_back_spec (v := { v with queued := queued' }) hnodup hnone
  generalize hv' : ({ v with queued := queued' } : CheckpointVerifier).put_back rev.reverse = v'
    at hlookup hrequests
  have hprogress' : v'.verifier_progress = v.verifier_progress := by rw [← hv']; rfl
  have hresets : v'.reset_receiver = v.reset_receiver := by rw [← hv']; rfl
  have htip : v'.initial_tip_hash = v.initial_tip_hash := by rw [← hv']; rfl
  have hgap : k ∉ v'.queued := by
    refine Finmap.lookup_eq_none.mp ?_
    have hfind : rev.reverse.find? (·.block.height = k) = none :=
      find?_eq_none.mpr fun q hq => by
        have := hmem q hq
        simpa using by omega
    rw [hlookup, hfind, htaken.lookup]
    exact if_pos (by omega)
  -- A list in the new queue is a block that was put back, or an old list.
  have hfrom : ∀ h' qblocks, v'.queued.lookup h' = some qblocks →
      (∃ q ∈ rev, q.block.height = h' ∧ qblocks = [q]) ∨ v.queued.lookup h' = some qblocks := by
    intro h' qblocks hqblocks
    rw [hlookup] at hqblocks
    split at hqblocks
    · next q hfind =>
      cases hqblocks
      exact .inl ⟨q, mem_reverse.mp (mem_of_find?_eq_some hfind),
        by simpa using find?_some hfind, rfl⟩
    · rw [htaken.lookup] at hqblocks
      split at hqblocks
      · cases hqblocks
      · exact .inr hqblocks
  have hlists : ∀ h' qblocks, v'.queued.lookup h' = some qblocks → GenuineList env chain h' qblocks := by
    intro h' qblocks hqblocks
    obtain ⟨q, hq, rfl, rfl⟩ | hold := hfrom h' qblocks hqblocks
    · exact ⟨by simp, by simp, by simpa using htaken.genuine q hq⟩
    · exact h.lists h' qblocks hold
  have hremains : Remains env chain v.queued v'.queued := by
    intro h' qblocks q hqblocks hq
    obtain ⟨q', hq', rfl, rfl⟩ | hold := hfrom h' qblocks hqblocks
    · cases mem_singleton.mp hq
      exact .inl (htaken.on_chain q hq')
    · exact .inr ⟨qblocks, hold, hq⟩
  refine ⟨v', ?_, ⟨hlists, ?_, ?_, ?_⟩, hprogress', hresets, hremains, ?_⟩
  · unfold on_stopped
    simp only [hv']
    refine except_bind_ok.mpr ⟨(), assertThat_of _ hprogress', ?_⟩
    rcases findsTarget env (v := v') (hprogress' ▸ hprogress) with ⟨other, hother, hreaches, -⟩ | ⟨hwaiting, -⟩
    · -- The gap is below the old target, and the new one is below the gap.
      have hlt : other < k := by
        by_contra hge
        exact hgap (hreaches.queued k (hprogress' ▸ hfirst) (by omega))
      refine except_bind_ok.mpr ⟨_, hother, except_bind_ok.mpr ⟨(), assertThat_of _ (.inr ?_), rfl⟩⟩
      exact congrArg some (Nat.compare_eq_lt.mpr (by omega))
    · exact except_bind_ok.mpr ⟨_, hwaiting, except_bind_ok.mpr ⟨(), assertThat_of _ (.inl rfl), rfl⟩⟩
  · intro h' hh'
    rw [htip]
    exact h.initial h' (hprogress' ▸ hh')
  · intro h' hh'
    exact h.previous h' (hprogress' ▸ hh')
  · rw [hresets]
    exact h.resets
  · rw [hrequests, htaken.requests_eq, map_reverse, Multiset.coe_reverse]
    abel

/-! ### A walk that met the previous checkpoint -/

theorem update_progress_eq (hfirst : v.verifier_progress.first ≤ target)
    (hlisted : target ∈ env.checkpoint_list.checkpoints) :
    v.update_progress env target = .ok { v with
      verifier_progress := after_target env target
      initial_tip_hash := if target = env.checkpoint_list.max_height then v.initial_tip_hash else none } := by
  have hcheck : v.check_height env target = .ok () := by
    unfold check_height
    rw [if_neg (not_lt.mpr (le_max_height hlisted))]
    cases hv : v.verifier_progress with
    | FinalCheckpoint => exact absurd hv hprogress
    | BeforeGenesis => rfl
    | InitialTip height =>
      rw [hv, Progress.first] at hfirst
      exact if_neg (by omega)
    | PreviousCheckpoint height =>
      rw [hv, Progress.first] at hfirst
      exact if_neg (by omega)
  unfold update_progress after_target
  rw [hcheck]
  dsimp only
  simp only [diagnostics_ok]
  by_cases hmax : target = env.checkpoint_list.max_height
  · simp only [if_pos hmax]
    rfl
  · have hcontains : env.checkpoint_list.contains target = true := decide_eq_true hlisted
    simp only [if_neg hmax, hcontains, if_true]
    rfl

end

theorem cmp_after_target {old : Progress Nat} (hold : old ≠ .FinalCheckpoint)
    (hfirst : old.first ≤ target) : (after_target env target).cmp old = .gt := by
  unfold after_target
  split
  · cases old with
    | FinalCheckpoint => exact absurd rfl hold
    | BeforeGenesis | InitialTip height | PreviousCheckpoint height => simp [Progress.cmp]
  · cases old with
    | FinalCheckpoint => exact absurd rfl hold
    | BeforeGenesis => simp [Progress.cmp]
    | InitialTip height =>
      have hlt : height < target := hfirst
      simp [Progress.cmp, Nat.compare_eq_gt, hlt]
    | PreviousCheckpoint height =>
      have hlt : height < target := hfirst
      simp [Progress.cmp, Nat.compare_eq_gt, hlt, hlt.ne']

theorem met_target_ok (target : Nat) : met_target env target (after_target env target) = .ok () := by
  unfold after_target
  split
  · next hmax => exact assertThat_of _ hmax
  · exact assertThat_of _ rfl

theorem new_target_ok (hprogress : v'.verifier_progress = after_target env target)
    (hreaches : Reaches env v target) (hhighest : ∀ other, Reaches env v other → other ≤ target)
    (hqueued : ∀ h, target < h → h ∈ v'.queued → h ∈ v.queued) :
    ∃ new_target, v'.target_checkpoint_height env = .ok new_target ∧
      (new_target = .WaitingForBlocks ∨ new_target = .FinishedVerifying) := by
  by_cases hfinal : v'.verifier_progress = .FinalCheckpoint
  · refine ⟨.FinishedVerifying, ?_, .inr rfl⟩
    simp [target_checkpoint_height, start_height, hfinal]
  · have hprevious : v'.verifier_progress = .PreviousCheckpoint target := by
      rw [hprogress, after_target] at hfinal ⊢
      split at hfinal
      · exact absurd rfl hfinal
      · next hmax => rw [if_neg hmax]
    rcases findsTarget env hfinal with ⟨other, -, hother, -⟩ | ⟨hwaiting, -⟩
    · exfalso
      have hlow := hother.first
      have hall := hother.queued
      rw [hprevious, Progress.first] at hlow hall
      have hle := hhighest other ⟨hother.listed, hreaches.first.trans (by omega), fun h hh hle => by
        by_cases ht : h ≤ target
        · exact hreaches.queued h hh ht
        · exact hqueued h (by omega) (hall h (by omega) hle)⟩
      omega
    · exact ⟨_, hwaiting, .inl rfl⟩

section

variable (hprogress : v.verifier_progress ≠ .FinalCheckpoint)
include hprogress

theorem on_verified_ok (h : Kept env chain v) (hreaches : Reaches env v target)
    (hhighest : ∀ other, Reaches env v other → other ≤ target)
    (htaken : Taken env chain v.queued queued' v.verifier_progress.first v.verifier_progress.first (target + 1)
      rev failed) :
    ∃ v', on_verified env { v with queued := queued' } target v.verifier_progress = .ok v' ∧
      Kept env chain v' ∧ v'.verifier_progress = after_target env target ∧ v'.queued = queued' ∧
      v'.reset_receiver = v.reset_receiver := by
  have hupdate := update_progress_eq (v := { v with queued := queued' }) hprogress hreaches.first hreaches.listed
  generalize hv' : ({ v with
      queued := queued'
      verifier_progress := after_target env target
      initial_tip_hash := if target = env.checkpoint_list.max_height then v.initial_tip_hash else none } :
    CheckpointVerifier) = v' at hupdate
  have hprogress' : v'.verifier_progress = after_target env target := by rw [← hv']
  have hqueued : v'.queued = queued' := by rw [← hv']
  have hresets : v'.reset_receiver = v.reset_receiver := by rw [← hv']
  refine ⟨v', except_bind_ok.mpr ⟨v', hupdate, ?_⟩, ?_, hprogress', hqueued, hresets⟩
  · obtain ⟨new_target, hnew, hwaiting⟩ := new_target_ok hprogress' hreaches hhighest fun h' hlt hmem => by
      obtain ⟨qblocks, hqblocks⟩ := Finmap.mem_iff.mp hmem
      rw [hqueued, htaken.lookup, if_neg (by omega)] at hqblocks
      exact Finmap.mem_of_lookup_eq_some hqblocks
    rw [hprogress']
    refine except_bind_ok.mpr ⟨(), assertThat_of _ (cmp_after_target hprogress hreaches.first), ?_⟩
    refine except_bind_ok.mpr ⟨(), met_target_ok target, ?_⟩
    exact except_bind_ok.mpr ⟨_, hnew, except_bind_ok.mpr ⟨(), assertThat_of _ hwaiting, rfl⟩⟩
  · refine ⟨fun h' qblocks hlookup => ?_, fun h' hh' => ?_, fun h' hh' => ?_, hresets ▸ h.resets⟩
    · rw [hqueued, htaken.lookup] at hlookup
      split at hlookup
      · cases hlookup
      · exact h.lists h' qblocks hlookup
    · rw [hprogress', after_target] at hh'
      split at hh' <;> cases hh'
    · rw [hprogress', after_target] at hh'
      split at hh'
      · cases hh'
      · next hmax =>
        cases hh'
        exact ⟨lt_of_le_of_ne (le_max_height hreaches.listed) hmax, hreaches.listed⟩

theorem rangeVerified_of_taken (h : Kept env chain v) (hchain : OnOneChain env chain)
    (hreaches : Reaches env v target)
    (htaken : Taken env chain v.queued queued' v.verifier_progress.first v.verifier_progress.first (target + 1)
      rev failed) : RangeVerified env v rev.reverse target := by
  have hmax := le_max_height hreaches.listed
  have hheights : rev.reverse.map (·.block.height) =
      range' v.verifier_progress.first (target + 1 - v.verifier_progress.first) := by
    rw [map_reverse, htaken.heights, reverse_reverse]
  have hhash : ∀ q ∈ rev.reverse, q.block.hash = env.hash (chain q.block.height) := fun q hq =>
    htaken.on_chain q (mem_reverse.mp hq)
  have hparent : ∀ q ∈ rev.reverse,
      q.block.block.header.previous_block_hash = parent_hash env chain q.block.height := by
    intro q hq
    have hheight : q.block.height ∈ rev.reverse.map (·.block.height) := mem_map.mpr ⟨q, hq, rfl⟩
    rw [hheights, mem_range'_1] at hheight
    have hgenuine := htaken.genuine q (mem_reverse.mp hq)
    rw [hgenuine.header (by omega) (hhash q hq)]
    exact hchain.parent (by omega)
  obtain ⟨n, hn⟩ : ∃ n, target + 1 - v.verifier_progress.first = n + 1 :=
    ⟨target - v.verifier_progress.first, by have := hreaches.first; omega⟩
  refine ⟨hreaches.first, hheights, ?_, ?_, ?_⟩
  · obtain ⟨progress, hprevious, hstart⟩ := h.previous_hash hprogress hchain
    refine ⟨progress, hprevious, hstart.symm ▸ ?_⟩
    rw [hn, range'_succ] at hheights
    cases hblocks : rev.reverse with
    | nil => simp [hblocks] at hheights
    | cons q rest =>
      have hfirst : q.block.height = v.verifier_progress.first := by
        simpa [hblocks] using congrArg head? hheights
      have hq := hparent q (hblocks ▸ mem_cons_self)
      rw [hfirst] at hq
      simpa using hq
  · have hsteps : (rev.reverse.map (·.block.height)).IsChain fun a b => b = a + 1 :=
      hheights ▸ isChain_range' _ _ 1
    rw [isChain_map] at hsteps
    refine IsChain.imp_of_mem_imp (fun a b ha hb hab => ?_) hsteps
    rw [hparent b hb, hab, hhash a ha]
    rfl
  · obtain ⟨hash, hlisted⟩ := Finmap.mem_iff.mp hreaches.listed
    refine ⟨hash, hlisted, ?_⟩
    rw [hn, range'_1_concat] at hheights
    have hlast := congrArg getLast? hheights
    rw [getLast?_map, getLast?_concat, Option.map_eq_some_iff] at hlast
    obtain ⟨q, hq, hheight⟩ := hlast
    rw [hq, Option.map_some, hhash q (mem_of_getLast? hq), hheight,
      hchain.listed target hash hlisted]
    congr 3
    omega

theorem process_range_ok (h : Kept env chain v) (hchain : OnOneChain env chain)
    (hreaches : Reaches env v target) (hhighest : ∀ other, Reaches env v other → other ≤ target) :
    ∃ v' sent, v.process_range env (parent_hash env chain v.verifier_progress.first) target = .ok (v', sent) ∧
      Kept env chain v' ∧ v'.reset_receiver = v.reset_receiver ∧ RangeStep env chain v.queued v v' sent ∧
      Remains env chain v.queued v'.queued ∧
      requests v.queued = (sent.map Prod.fst : Multiset Nat) + requests v'.queued := by
  obtain ⟨hash, hlisted⟩ := Finmap.mem_iff.mp hreaches.listed
  obtain ⟨bound, hbound, hallows⟩ := Kept.current_start_bound hprogress
  have hfirst := hreaches.first
  have hmax := le_max_height hreaches.listed
  have hrange : v.queued_range (fun height => bound.allows height && height ≤ target) =
      range' v.verifier_progress.first (target + 1 - v.verifier_progress.first) := by
    refine queued_range_eq fun k => ?_
    rw [Bool.and_eq_true, hallows, decide_eq_true_eq]
    constructor
    · rintro ⟨-, hlow, hhigh⟩
      omega
    · rintro ⟨hlow, hhigh⟩
      exact ⟨hreaches.queued k hlow (by omega), hlow, by omega⟩
  have htop : v.verifier_progress.first + (target + 1 - v.verifier_progress.first) = target + 1 := by omega
  have hwalk := walk_back_eq hchain h.lists
    (n := target + 1 - v.verifier_progress.first) (fun h' hlow hhigh => hreaches.queued h' hlow (by omega))
    (by omega) [] []
  rw [htop, ← hrange] at hwalk
  simp only [nil_append] at hwalk
  have hexpected : hash = parent_hash env chain (target + 1) := hchain.listed target hash hlisted
  rw [← hexpected] at hwalk
  rcases hwalk with ⟨rev, failed, queued', hwalk, htaken⟩ | ⟨k, rev, failed, queued', hlow, hk, hwalk, htaken⟩
  · obtain ⟨v', hverified, hkept, hprogress', hqueued, hresets⟩ :=
      on_verified_ok hprogress h hreaches hhighest htaken
    refine ⟨v', failed ++ rev.reverse.map fun q => (q.tx, .ok q.block.hash), ?_, hkept, hresets, ?_, ?_, ?_⟩
    · refine except_bind_ok.mpr ⟨hash, orAbort_ok.mpr hlisted, ?_⟩
      refine except_bind_ok.mpr ⟨bound, orAbort_ok.mpr hbound, ?_⟩
      refine except_bind_ok.mpr ⟨_, hwalk, except_bind_ok.mpr ⟨(), assertThat_of _ rfl, ?_⟩⟩
      exact except_bind_ok.mpr ⟨v', hverified, rfl⟩
    · refine .inr ⟨target, rev.reverse, failed,
        rangeVerified_of_taken hprogress h hchain hreaches htaken, htaken.failed_off, rfl,
        fun h' hlow hhigh => ?_, hprogress'⟩
      rw [hqueued, ← Finmap.lookup_eq_none, htaken.lookup]
      exact if_pos (by omega)
    · intro h' qblocks q hlookup hq
      rw [hqueued, htaken.lookup] at hlookup
      split at hlookup
      · cases hlookup
      · exact .inr ⟨qblocks, hlookup, hq⟩
    · rw [hqueued, htaken.requests_eq]
      simp only [map_append, map_map, Function.comp_def, map_reverse, ← Multiset.coe_add,
        Multiset.coe_reverse]
      abel
  · obtain ⟨v', hstopped, hkept, hprogress', hresets, hremains, hrequests⟩ :=
      on_stopped_ok hprogress h hlow (by omega) htaken
    refine ⟨v', failed, ?_, hkept, hresets, .inl ⟨hprogress', htaken.failed_off⟩, hremains, hrequests⟩
    refine except_bind_ok.mpr ⟨hash, orAbort_ok.mpr hlisted, ?_⟩
    refine except_bind_ok.mpr ⟨bound, orAbort_ok.mpr hbound, ?_⟩
    exact except_bind_ok.mpr ⟨_, hwalk, except_bind_ok.mpr ⟨v', hstopped, rfl⟩⟩

end

theorem process_checkpoint_range_of {progress : Progress BlockHash} {x : BlockHash}
    (h : v.previous_checkpoint_hash env = .ok progress) (hx : start_hash progress = some x) :
    v.process_checkpoint_range env = process_checkpoint_range.process_from env v x := by
  unfold process_checkpoint_range
  rw [h]
  cases progress <;> cases hx <;> rfl

theorem process_checkpoint_range_ok (h : Kept env chain v) (hchain : OnOneChain env chain)
    (hprogress : v.verifier_progress ≠ .FinalCheckpoint) :
    ∃ v' sent, v.process_checkpoint_range env = .ok (v', sent) ∧ Kept env chain v' ∧
      v'.reset_receiver = v.reset_receiver ∧ RangeStep env chain v.queued v v' sent ∧
      Remains env chain v.queued v'.queued ∧
      requests v.queued = (sent.map Prod.fst : Multiset Nat) + requests v'.queued := by
  obtain ⟨progress, hprevious, hstart⟩ := h.previous_hash hprogress hchain
  rw [process_checkpoint_range_of hprevious hstart]
  unfold process_checkpoint_range.process_from
  rcases findsTarget env hprogress with ⟨target, htarget, hreaches, hhighest⟩ | ⟨hwaiting, -⟩
  · rw [htarget]
    exact process_range_ok hprogress h hchain hreaches hhighest
  · rw [hwaiting]
    exact ⟨v, [], rfl, h, rfl, .inl ⟨rfl, by simp⟩, fun _ qblocks _ hlookup hq => .inr ⟨qblocks, hlookup, hq⟩,
      by simp⟩

end ZebraCrosslink.checkpoint
