import ZebraCrosslink.Mempool.Storage

/-!
# Rejected transactions

An eviction list holds its ids in the order of insertion, so pruning removes exactly the expired
ones.
-/

open Rust List Map

namespace ZebraCrosslink.mempool

namespace EvictionList

variable {now next : Nat} {list list' : EvictionList} {key txid : TransactionHash}

/-- Both collections hold the same ids, the older ones in front, and none from the future. -/
structure Consistent (now : Nat) (list : EvictionList) : Prop where
  nodup : list.ordered_entries.Nodup
  mem : ∀ key, key ∈ list.unique_entries ↔ key ∈ list.ordered_entries
  sorted : list.ordered_entries.Pairwise fun a b => ∀ t ∈ list.unique_entries.lookup a,
    ∀ t' ∈ list.unique_entries.lookup b, t ≤ t'
  past : ∀ key, ∀ t ∈ list.unique_entries.lookup key, t ≤ now

theorem consistent_new (now max_size eviction_memory_time : Nat) :
    (new max_size eviction_memory_time).Consistent now where
  nodup := nodup_nil
  mem key := by
    simp only [new, not_mem_nil, iff_false]
    exact Finmap.notMem_empty
  sorted := Pairwise.nil
  past := by simp [new]

theorem Consistent.later (h : list.Consistent now) (hle : now ≤ next) : list.Consistent next :=
  { h with past := fun key t ht => (h.past key t ht).trans hle }

theorem contains_key_iff : list.contains_key now key = true ↔
    ∃ t, list.unique_entries.lookup key = some t ∧ now - t ≤ list.eviction_memory_time := by
  unfold contains_key has_expired
  cases list.unique_entries.lookup key with
  | none => simp
  | some t => simp

theorem contains_key_earlier (hle : now ≤ next) (h : list.contains_key next key = true) :
    list.contains_key now key = true := by
  obtain ⟨t, ht, hrecent⟩ := contains_key_iff.mp h
  exact contains_key_iff.mpr ⟨t, ht, by omega⟩

section

variable (h : list.Consistent now)
include h

theorem Consistent.pop {rest : List TransactionHash}
    (hentries : list.ordered_entries = txid :: rest) :
    list.pop_front = .ok { list with
      unique_entries := list.unique_entries.erase txid, ordered_entries := rest } ∧
    ({ list with
      unique_entries := list.unique_entries.erase txid, ordered_entries := rest } : EvictionList).Consistent now := by
  have hmem : txid ∈ list.unique_entries := (h.mem txid).mpr (hentries ▸ mem_cons_self)
  have hnodup := hentries ▸ h.nodup
  have hlookup : ∀ key t, (list.unique_entries.erase txid).lookup key = some t →
      list.unique_entries.lookup key = some t := by
    intro key t ht
    rw [lookup_erase'] at ht
    split at ht
    · cases ht
    · exact ht
  refine ⟨by simp only [pop_front, hentries, if_pos hmem], (nodup_cons.mp hnodup).2, fun key => ?_, ?_, ?_⟩
  · rw [Finmap.mem_erase, h.mem, hentries, mem_cons]
    have := (nodup_cons.mp hnodup).1
    grind
  · refine (pairwise_cons.mp (hentries ▸ h.sorted)).2.imp fun hab t ht t' ht' => ?_
    exact hab t (hlookup _ _ ht) t' (hlookup _ _ ht')
  · exact fun key t ht => h.past key t (hlookup key t ht)

theorem prune_loop_ok {fuel : Nat} (hfuel : list.ordered_entries.length < fuel) :
    ∃ list', list.prune_loop now fuel = .ok list' ∧ list'.Consistent now ∧
      list'.eviction_memory_time = list.eviction_memory_time ∧
      (∀ key t, list'.unique_entries.lookup key = some t ↔
        list.unique_entries.lookup key = some t ∧ now - t ≤ list.eviction_memory_time) := by
  induction fuel generalizing list with
  | zero => omega
  | succ fuel ih =>
    cases hentries : list.ordered_entries with
    | nil =>
      refine ⟨list, by simp [prune_loop, hentries], h, rfl, fun key t => ⟨fun ht => ?_, And.left⟩⟩
      have := (h.mem key).mp (Finmap.mem_of_lookup_eq_some ht)
      simp [hentries] at this
    | cons txid rest =>
      obtain ⟨t, ht⟩ := Finmap.mem_iff.mp ((h.mem txid).mpr (hentries ▸ mem_cons_self))
      by_cases hexpired : list.has_expired now t = true
      · obtain ⟨hpop, hconsistent⟩ := h.pop hentries
        rw [hentries, length_cons] at hfuel
        obtain ⟨list', hok, hlist', htime, hlookup⟩ := ih hconsistent (Nat.lt_of_succ_lt_succ hfuel)
        refine ⟨list', ?_, hlist', htime, fun key t' => ?_⟩
        · simp only [prune_loop, hentries, head?_cons, ht, orAbort, hexpired, hpop, bind, Except.bind, if_true]
          exact hok
        · rw [hlookup key t', lookup_erase']
          have : list.eviction_memory_time < now - t := by simpa [has_expired] using hexpired
          grind
      · refine ⟨list, ?_, h, rfl, fun key t' => ⟨fun ht' => ⟨ht', ?_⟩, And.left⟩⟩
        · simp only [prune_loop, hentries, head?_cons, ht, orAbort, hexpired, bind, Except.bind]
          rfl
        -- every other entry is younger than the first one
        · have hrecent : now - t ≤ list.eviction_memory_time := by simpa [has_expired] using hexpired
          have hkey := (h.mem key).mp (Finmap.mem_of_lookup_eq_some ht')
          rw [hentries, mem_cons] at hkey
          rcases hkey with rfl | hkey
          · rw [ht] at ht'
            cases ht'
            exact hrecent
          · have hsorted := h.sorted
            rw [hentries] at hsorted
            have := (pairwise_cons.mp hsorted).1 key hkey t ht t' ht'
            omega

theorem prune_old_ok : ∃ list', list.prune_old now = .ok list' ∧
    list'.Consistent now ∧ (∀ key, key ∈ list'.unique_entries ↔ list.contains_key now key = true) ∧
    ∀ key, list'.contains_key now key = list.contains_key now key := by
  obtain ⟨list', hok, hlist', htime, hlookup⟩ := prune_loop_ok h (Nat.lt_succ_self _)
  refine ⟨list', hok, hlist', fun key => ?_, fun key => ?_⟩
  · rw [Finmap.mem_iff, contains_key_iff]
    simp only [hlookup]
  · rw [Bool.eq_iff_iff, contains_key_iff, contains_key_iff]
    simp only [hlookup, htime]
    grind

theorem len_ok : ∃ n list', list.len now = .ok (n, list') ∧
    list'.Consistent now ∧ (∀ key, key ∈ list'.unique_entries ↔ list.contains_key now key = true) ∧
    ∀ key, list'.contains_key now key = list.contains_key now key := by
  obtain ⟨list', hok, hlist'⟩ := prune_old_ok h
  exact ⟨_, list', by simp only [len, hok, bind, Except.bind]; rfl, hlist'⟩

theorem pop_front_ok : ∃ list', list.pop_front = .ok list' ∧
    list'.Consistent now ∧ (∀ key, key ∈ list'.unique_entries → key ∈ list.unique_entries) ∧
    ∀ key, list'.contains_key now key = true → list.contains_key now key = true := by
  cases hentries : list.ordered_entries with
  | nil => exact ⟨list, by simp only [pop_front, hentries], h, fun _ hkey => hkey, fun _ hkey => hkey⟩
  | cons txid rest =>
    obtain ⟨hpop, hconsistent⟩ := h.pop hentries
    refine ⟨_, hpop, hconsistent, fun key hkey => (Finmap.mem_erase.mp hkey).2, fun key hkey => ?_⟩
    obtain ⟨t, ht, hrecent⟩ := contains_key_iff.mp hkey
    rw [lookup_erase'] at ht
    split at ht
    · cases ht
    · exact contains_key_iff.mpr ⟨t, ht, hrecent⟩

theorem make_room_ok (len : Nat) : ∃ list', list.make_room len = .ok list' ∧
    list'.Consistent now ∧ (∀ key, key ∈ list'.unique_entries → key ∈ list.unique_entries) ∧
    ∀ key, list'.contains_key now key = true → list.contains_key now key = true := by
  unfold make_room
  split
  · exact pop_front_ok h
  · exact ⟨list, rfl, h, fun _ hkey => hkey, fun _ hkey => hkey⟩

theorem Consistent.push (hnew : key ∉ list.unique_entries) : ({ list with
      unique_entries := list.unique_entries.insert key now
      ordered_entries := list.ordered_entries ++ [key] } : EvictionList).Consistent now := by
  have hkey : key ∉ list.ordered_entries := fun hmem => hnew ((h.mem key).mpr hmem)
  have hlookup : ∀ a ∈ list.ordered_entries, (list.unique_entries.insert key now).lookup a =
      list.unique_entries.lookup a := fun a ha =>
    Finmap.lookup_insert_of_ne _ fun heq => hkey (heq ▸ ha)
  constructor
  · exact h.nodup.append (nodup_singleton key) fun a ha ha' => hkey (mem_singleton.mp ha' ▸ ha)
  · intro a
    rw [Finmap.mem_insert, h.mem, mem_append, mem_singleton, or_comm]
  · refine pairwise_append.mpr ⟨?_, pairwise_singleton _ _, ?_⟩
    · refine h.sorted.imp_of_mem fun {a b} ha hb hab => ?_
      rw [hlookup a ha, hlookup b hb]
      exact hab
    · intro a ha b hb t ht t' ht'
      rw [mem_singleton.mp hb, Finmap.lookup_insert] at ht'
      rw [hlookup a ha] at ht
      cases ht'
      exact h.past a t ht
  · intro a t ht
    rw [lookup_insert'] at ht
    split at ht
    · cases ht
      exact le_rfl
    · exact h.past a t ht

theorem insert_ok (hnew : list.contains_key now key = false) :
    ∃ list', list.insert now key = .ok list' ∧ list'.Consistent now ∧
      ∀ k, list'.contains_key now k = true → k = key ∨ list.contains_key now k = true := by
  obtain ⟨list₁, hprune, h₁, -, hcontains₁⟩ := prune_old_ok h
  obtain ⟨n, list₂, hlen, h₂, hmem₂, hcontains₂⟩ := len_ok h₁
  obtain ⟨list₃, hroom, h₃, hmem₃, hcontains₃⟩ := make_room_ok h₂ n
  have hkey : key ∉ list₃.unique_entries := by
    intro hmem
    have := (hmem₂ key).mp (hmem₃ key hmem)
    rw [hcontains₁, hnew] at this
    cases this
  refine ⟨_, ?_, h₃.push hkey, fun k hk => ?_⟩
  · simp only [insert, hprune, hlen, hroom, if_neg hkey, bind, Except.bind]
    rfl
  · obtain ⟨t, ht, hrecent⟩ := contains_key_iff.mp hk
    rw [lookup_insert'] at ht
    split at ht
    · next heq => exact .inl heq
    · have hold := hcontains₃ k (contains_key_iff.mpr ⟨t, ht, hrecent⟩)
      rw [hcontains₂, hcontains₁] at hold
      exact .inr hold

end

end EvictionList

open EvictionList

/-! ## The rejection lists of the storage -/

namespace Storage

variable {now next : Nat} {s s' s'' : Storage} {reason : SameEffectsChainRejectionError}
  {id : TransactionHash} {added : SameEffectsChainRejectionError → TransactionHash → Prop}

def Remembers (s : Storage) (now : Nat) (reason : SameEffectsChainRejectionError) (id : TransactionHash) : Prop :=
  ∃ list, s.chain_rejected_same_effects.lookup reason = some list ∧ list.contains_key now id = true

theorem Remembers.earlier (hle : now ≤ next) (h : s.Remembers next reason id) : s.Remembers now reason id := by
  obtain ⟨list, hlist, hcontains⟩ := h
  exact ⟨list, hlist, contains_key_earlier hle hcontains⟩

def ListsConsistent (now : Nat) (s : Storage) : Prop :=
  ∀ reason list, s.chain_rejected_same_effects.lookup reason = some list → list.Consistent now

structure Rejected (now : Nat) (s s' : Storage) (added : SameEffectsChainRejectionError → TransactionHash → Prop) :
    Prop where
  verified : s'.verified = s.verified
  limit : s'.tx_cost_limit = s.tx_cost_limit
  lists : s'.ListsConsistent now
  remembers : ∀ reason id, s'.Remembers now reason id → added reason id ∨ s.Remembers now reason id

theorem Rejected.trans {added' : SameEffectsChainRejectionError → TransactionHash → Prop}
    (h : Rejected now s s' added) (h' : Rejected now s' s'' added') :
    Rejected now s s'' fun reason id => added reason id ∨ added' reason id where
  verified := h'.verified.trans h.verified
  limit := h'.limit.trans h.limit
  lists := h'.lists
  remembers reason id hid := by
    rcases h'.remembers reason id hid with hid | hid
    · exact .inl (.inr hid)
    · rcases h.remembers reason id hid with hid | hid
      · exact .inl (.inl hid)
      · exact .inr hid

theorem Rejected.of_same (h : s.ListsConsistent now) (hverified : s'.verified = s.verified)
    (hlimit : s'.tx_cost_limit = s.tx_cost_limit)
    (hlists : s'.chain_rejected_same_effects = s.chain_rejected_same_effects) :
    Rejected now s s' fun _ _ => False where
  verified := hverified
  limit := hlimit
  lists reason list hlist := h reason list (hlists ▸ hlist)
  remembers reason id hid := .inr (by simpa only [Remembers, hlists] using hid)

theorem Rejected.append (h : Rejected now s s' added) (h' : Rejected now s' s'' fun _ _ => False) :
    Rejected now s s'' added :=
  { h.trans h' with remembers := fun reason id hid => by simpa using (h.trans h').remembers reason id hid }

theorem Rejected.weaken (h : Rejected now s s' fun _ _ => False) : Rejected now s s' added :=
  { h with remembers := fun reason id hid => .inr ((h.remembers reason id hid).resolve_left not_false) }

section

variable (h : s.ListsConsistent now)
include h

theorem Rejected.replace {list : EvictionList} {added : TransactionHash → Prop}
    (hlist : list.Consistent now)
    (hcontains : ∀ id, list.contains_key now id = true → added id ∨ s.Remembers now reason id) :
    Rejected now s { s with chain_rejected_same_effects := s.chain_rejected_same_effects.insert reason list }
      fun r id => r = reason ∧ added id := by
  refine ⟨rfl, rfl, fun r l hl => ?_, ?_⟩
  · rw [lookup_insert'] at hl
    split at hl
    · cases hl
      exact hlist
    · exact h r l hl
  · rintro r id ⟨l, hl, hid⟩
    rw [lookup_insert'] at hl
    split at hl
    · next heq =>
      cases hl
      subst heq
      exact (hcontains id hid).imp_left fun hadded => ⟨rfl, hadded⟩
    · exact .inr ⟨l, hl, hid⟩

theorem count_list_ok (reason : SameEffectsChainRejectionError) :
    ∃ s', s.count_list now reason = .ok s' ∧ Rejected now s s' fun _ _ => False := by
  cases hlist : s.chain_rejected_same_effects.lookup reason with
  | none => exact ⟨s, by simp only [count_list, hlist], .of_same h rfl rfl rfl⟩
  | some list =>
    obtain ⟨n, list', hlen, hconsistent, -, hcontains⟩ := len_ok (h reason list hlist)
    have hpruned := Rejected.replace h hconsistent fun id hid =>
      (.inr ⟨list, hlist, hcontains id ▸ hid⟩ : False ∨ s.Remembers now reason id)
    refine ⟨_, by simp only [count_list, hlist, hlen, bind, Except.bind]; rfl, ?_⟩
    simpa using hpruned

theorem update_rejected_metrics_ok :
    ∃ s', s.update_rejected_metrics now = .ok s' ∧ Rejected now s s' fun _ _ => False := by
  unfold update_rejected_metrics
  induction chainReasons generalizing s with
  | nil => exact ⟨s, rfl, .of_same h rfl rfl rfl⟩
  | cons reason reasons ih =>
    obtain ⟨s₁, hcount, hrejected⟩ := count_list_ok h reason
    obtain ⟨s', hok, hrest⟩ := ih hrejected.lists
    exact ⟨s', except_bind_ok.mpr ⟨s₁, hcount, hok⟩, hrejected.append hrest⟩

theorem clear_tip_rejections_ok :
    ∃ s', s.clear_tip_rejections now = .ok s' ∧ Rejected now s s' fun _ _ => False := by
  have hcleared : Rejected now s { s with tip_rejected_exact := ∅, tip_rejected_same_effects := ∅ }
      fun _ _ => False := .of_same h rfl rfl rfl
  obtain ⟨s', hok, hrest⟩ := update_rejected_metrics_ok hcleared.lists
  exact ⟨s', hok, hcleared.append hrest⟩

theorem limit_rejection_list_memory_ok :
    ∃ s', s.limit_rejection_list_memory now = .ok s' ∧ Rejected now s s' fun _ _ => False := by
  have hlimited : Rejected now s { s with
    tip_rejected_exact :=
      if MAX_EVICTION_MEMORY_ENTRIES < s.tip_rejected_exact.keys.card then ∅ else s.tip_rejected_exact
    tip_rejected_same_effects :=
      if MAX_EVICTION_MEMORY_ENTRIES < s.tip_rejected_same_effects.keys.card then ∅
      else s.tip_rejected_same_effects } fun _ _ => False := .of_same h rfl rfl rfl
  obtain ⟨s', hok, hrest⟩ := update_rejected_metrics_ok hlimited.lists
  exact ⟨s', hok, hlimited.append hrest⟩

theorem chain_list_consistent (reason : SameEffectsChainRejectionError) :
    (s.chain_list reason).Consistent now := by
  unfold chain_list
  cases hlist : s.chain_rejected_same_effects.lookup reason with
  | none => exact consistent_new ..
  | some list => exact h reason list hlist

end

theorem chain_list_contains : (s.chain_list reason).contains_key now id = true ↔ s.Remembers now reason id := by
  unfold chain_list Remembers
  cases s.chain_rejected_same_effects.lookup reason with
  | none => simp [EvictionList.contains_key, EvictionList.new]
  | some list => simp

def AddsTo (reason : RejectionError) (tx_id : UnminedTxId) (r : SameEffectsChainRejectionError)
    (id : TransactionHash) : Prop :=
  reason = .SameEffectsChain r ∧ id = tx_id.mined_id

theorem reject_ok (tx_id : UnminedTxId) (reason : RejectionError) (h : s.ListsConsistent now)
    (hnew : ∀ r, reason = .SameEffectsChain r → ¬ s.Remembers now r tx_id.mined_id) :
    ∃ s', s.reject now tx_id reason = .ok s' ∧ Rejected now s s' (AddsTo reason tx_id) := by
  suffices hadd : ∃ s₁, s.reject now tx_id reason = s₁.limit_rejection_list_memory now ∧
      Rejected now s s₁ (AddsTo reason tx_id) by
    obtain ⟨s₁, heq, hadded⟩ := hadd
    obtain ⟨s', hok, hrest⟩ := limit_rejection_list_memory_ok hadded.lists
    exact ⟨s', heq.trans hok, hadded.append hrest⟩
  cases reason with
  | ExactTip e =>
    exact ⟨{ s with tip_rejected_exact := s.tip_rejected_exact.insert tx_id e }, rfl,
      .weaken (.of_same h rfl rfl rfl)⟩
  | SameEffectsTip e =>
    exact ⟨{ s with tip_rejected_same_effects := s.tip_rejected_same_effects.insert tx_id.mined_id e }, rfl,
      .weaken (.of_same h rfl rfl rfl)⟩
  | SameEffectsChain e =>
    have hfresh : (s.chain_list e).contains_key now tx_id.mined_id = false := by
      rw [← Bool.not_eq_true, chain_list_contains]
      exact hnew e rfl
    obtain ⟨list, hinsert, hconsistent, hcontains⟩ :=
      insert_ok (chain_list_consistent h e) hfresh
    have hadded := Rejected.replace h hconsistent fun id hid =>
      (hcontains id hid).imp_right chain_list_contains.mp
    refine ⟨_, by simp only [reject, hinsert, bind, Except.bind]; rfl, { hadded with
      remembers := fun r id hid => (hadded.remembers r id hid).imp_left ?_ }⟩
    rintro ⟨rfl, heq⟩
    exact ⟨rfl, heq⟩

theorem reject_each_ok {ids : List UnminedTxId} (h : s.ListsConsistent now)
    (hnodup : (ids.map (·.mined_id)).Nodup) (hnew : ∀ id ∈ ids, ¬ s.Remembers now reason id.mined_id) :
    ∃ s', s.reject_each now reason ids = .ok s' ∧
      Rejected now s s' fun r id => r = reason ∧ id ∈ ids.map (·.mined_id) := by
  induction ids generalizing s with
  | nil => exact ⟨s, rfl, ⟨rfl, rfl, h, fun _ _ hid => .inr hid⟩⟩
  | cons tx_id ids ih =>
    obtain ⟨hfirst, hrest⟩ := nodup_cons.mp hnodup
    obtain ⟨hfresh, hothers⟩ := forall_mem_cons.mp hnew
    have hnew' : ∀ r, RejectionError.SameEffectsChain reason = .SameEffectsChain r →
        ¬ s.Remembers now r tx_id.mined_id := by
      intro r heq
      cases heq
      exact hfresh
    obtain ⟨s₁, hreject, hrejected⟩ := reject_ok tx_id _ h hnew'
    obtain ⟨s', hok, hall⟩ := ih hrejected.lists hrest fun id hid hremembers => by
      rcases hrejected.remembers _ _ hremembers with ⟨-, heq⟩ | hold
      · exact hfirst (mem_map.mpr ⟨id, hid, heq⟩)
      · exact hothers id hid hold
    refine ⟨s', except_bind_ok.mpr ⟨s₁, hreject, hok⟩, ?_⟩
    have htrans := hrejected.trans hall
    refine { htrans with remembers := fun r id hid => ?_ }
    rcases htrans.remembers r id hid with (⟨heq, rfl⟩ | ⟨rfl, hid⟩) | hold
    · cases heq
      exact .inl ⟨rfl, mem_cons_self⟩
    · exact .inl ⟨rfl, mem_cons_of_mem _ hid⟩
    · exact .inr hold

end Storage

end ZebraCrosslink.mempool
