import ZebraCrosslink.Network.Bans

/-!
# Reports, gossip and reconnection attempts

What a change does to the entry it finds, and with it to the order of the reconnection attempts.
-/

open Rust List

namespace ZebraCrosslink

/-! ## What an update does -/

namespace MetaAddrChange

variable {p : Profile} {change : MetaAddrChange} {previous : Option MetaAddr} {m updated : MetaAddr}
  {instant_now : Instant} {chrono_now : WallTime} {local_now : DateTime32}

theorem apply_cases (h : change.apply_to_meta_addr p previous instant_now chrono_now = .ok (some updated)) :
    ∃ local_now, DateTime32.try_from chrono_now = some local_now ∧
      (previous = none ∧ updated = change.into_new_meta_addr instant_now local_now ∨
        ∃ m, previous = some m ∧ m.addr = change.addr ∧ change.is_invalid m instant_now local_now = false ∧
          change.merge p m instant_now local_now = .ok updated) := by
  rw [apply_to_meta_addr, except_bind_ok] at h
  obtain ⟨local_now, hclock, h⟩ := h
  refine ⟨local_now, orAbort_ok.mp hclock, ?_⟩
  cases previous with
  | none =>
    cases h
    exact .inl ⟨rfl, rfl⟩
  | some m =>
    dsimp only at h
    split at h
    · cases h
    · rename_i haddr
      split at h
      · cases h
      · rename_i hvalid
        obtain ⟨merged, hmerge, h⟩ := except_bind_ok.mp h
        cases h
        exact .inr ⟨m, rfl, not_not.mp haddr, Bool.not_eq_true _ ▸ hvalid, hmerge⟩

/-- An entry that has been attempted takes the times of the change and keeps its own where the change
has none. -/
theorem merge_attempted (h : change.merge p m instant_now local_now = .ok updated)
    (hattempted : (change.peer_addr_state.is_never_attempted && m.last_connection_state.is_never_attempted) = false) :
    ∃ score, addU32 p m.misbehavior_score change.misbehavior_score = .ok score ∧ updated = {
      addr := change.addr
      services := change.untrusted_services.or m.services
      untrusted_last_seen := m.untrusted_last_seen
      last_response := (change.last_response local_now).or m.last_response
      last_attempt := (change.last_attempt instant_now).or m.last_attempt
      last_failure := (change.last_failure instant_now).or m.last_failure
      last_connection_state := change.peer_addr_state
      misbehavior_score := score
      is_inbound := m.is_inbound || change.is_inbound } := by
  rw [merge, except_bind_ok] at h
  obtain ⟨score, hscore, h⟩ := h
  rw [if_neg (by rw [hattempted]; decide)] at h
  cases h
  exact ⟨score, hscore, rfl⟩

theorem merge_fresh (h : change.merge p m instant_now local_now = .ok updated)
    (hfresh : (change.peer_addr_state.is_never_attempted && m.last_connection_state.is_never_attempted) = true) :
    updated.addr = change.addr ∧
      updated.last_response = none ∧ updated.last_attempt = none ∧ updated.last_failure = none := by
  rw [merge, except_bind_ok] at h
  obtain ⟨score, -, h⟩ := h
  rw [if_pos hfresh] at h
  cases h
  exact ⟨rfl, rfl, rfl, rfl⟩

/-- Gossip never replaces an entry that has been attempted. -/
theorem attempted_of_valid (h : change.is_invalid m instant_now local_now = false)
    (hattempted : m.last_connection_state.is_never_attempted = false) :
    change.peer_addr_state.is_never_attempted = false := by
  cases change <;> simp_all [is_invalid, peer_addr_state, PeerAddrState.is_never_attempted, misbehavior_score]

theorem apply_untimed (h : change.apply_to_meta_addr p previous instant_now chrono_now = .ok (some updated)) :
    updated.addr = change.addr ∧ (updated.last_connection_state = .NeverAttemptedGossiped →
      updated.last_response = none ∧ updated.last_attempt = none ∧ updated.last_failure = none) := by
  obtain ⟨local_now, -, ⟨-, rfl⟩ | ⟨m, -, -, hvalid, hmerge⟩⟩ := apply_cases h
  · refine ⟨rfl, fun hstate => ?_⟩
    cases change <;> first | exact ⟨rfl, rfl, rfl⟩ | cases hstate
  · cases hfresh : change.peer_addr_state.is_never_attempted && m.last_connection_state.is_never_attempted with
    | true =>
      obtain ⟨haddr, htimes⟩ := merge_fresh hmerge hfresh
      exact ⟨haddr, fun _ => htimes⟩
    | false =>
      obtain ⟨score, -, rfl⟩ := merge_attempted hmerge hfresh
      refine ⟨rfl, fun hstate => ?_⟩
      dsimp only at hstate
      rw [hstate] at hfresh
      have := attempted_of_valid hvalid (by simpa [PeerAddrState.is_never_attempted] using hfresh)
      rw [hstate] at this
      cases this

end MetaAddrChange

open MetaAddrChange

namespace AddressBook

variable {p : Profile} {book book' : AddressBook} {clocks : Clocks} {change : MetaAddrChange}
  {m updated : MetaAddr} {r : Option MetaAddr} {now : WallTime}

/-- The entries are in order, those that have never been attempted have no times, and none has a score
that bans it. -/
structure Valid (book : AddressBook) : Prop where
  sorted : OrderedMap.Sorted MetaAddr.addr MetaAddr.cmp book.by_addr
  canonical : ∀ m ∈ book.by_addr, m.addr.canonical = m.addr
  untimed : ∀ m ∈ book.by_addr, m.last_connection_state = .NeverAttemptedGossiped →
    m.last_response = none ∧ m.last_attempt = none ∧ m.last_failure = none
  score : ∀ m ∈ book.by_addr, m.misbehavior_score < MAX_PEER_MISBEHAVIOR_SCORE
  size : book.by_addr.length ≤ book.addr_limit

theorem valid_new (local_listener : PeerSocketAddr) (network : Network)
    (max_connections_per_ip addr_limit : Nat) :
    Valid (new local_listener network max_connections_per_ip addr_limit) where
  sorted := .nil
  canonical := by simp [new]
  untimed := by simp [new]
  score := by simp [new]
  size := Nat.zero_le _

/-- An update changes nothing, bans the IP of the changed entry, or stores that entry. -/
theorem update_cases (h : book.Valid) (hcanonical : change.addr.canonical = change.addr)
    (hupdate : book.update p clocks change = .ok (r, book')) :
    r = none ∧ book' = book ∨
      ∃ updated, change.apply_to_meta_addr p (OrderedMap.get? MetaAddr.addr book.by_addr change.addr)
          clocks.instant_now clocks.chrono_now = .ok (some updated) ∧
        (r = none ∧ MAX_PEER_MISBEHAVIOR_SCORE ≤ updated.misbehavior_score ∧
            book.ban updated.addr.ip clocks.banned_at = .ok book' ∨
          r = some updated ∧ updated.misbehavior_score < MAX_PEER_MISBEHAVIOR_SCORE ∧
            book.store updated clocks.chrono_now = .ok book') := by
  unfold update at hupdate
  split at hupdate
  · cases hupdate
    exact .inl ⟨rfl, rfl⟩
  · rw [get_eq h.sorted, hcanonical] at hupdate
    dsimp only at hupdate
    obtain ⟨updated, happly, hupdate⟩ := except_bind_ok.mp hupdate
    cases updated with
    | none =>
      cases hupdate
      exact .inl ⟨rfl, rfl⟩
    | some updated =>
      dsimp only at hupdate
      split at hupdate
      · rename_i hmax
        obtain ⟨banned, hban, hupdate⟩ := except_bind_ok.mp hupdate
        cases hupdate
        exact .inr ⟨updated, happly, .inl ⟨rfl, hmax, hban⟩⟩
      · rename_i hmax
        split at hupdate
        · cases hupdate
          exact .inl ⟨rfl, rfl⟩
        · split at hupdate
          · cases hupdate
            exact .inl ⟨rfl, rfl⟩
          · obtain ⟨stored, hstore, hupdate⟩ := except_bind_ok.mp hupdate
            cases hupdate
            exact .inr ⟨updated, happly, .inr ⟨rfl, Nat.not_le.mp hmax, hstore⟩⟩

theorem ban_cases {ip : IpAddr} {banned_at : Instant} (h : book.ban ip banned_at = .ok book') :
    book'.by_addr.Sublist book.by_addr ∧ book'.addr_limit = book.addr_limit := by
  rw [ban, except_bind_ok] at h
  obtain ⟨recent, -, h⟩ := h
  cases h
  exact ⟨foldl_remove_sublist _ _, rfl⟩

theorem remove_surplus_sublist {fuel : Nat} (h : remove_surplus fuel book = .ok book') :
    book'.by_addr.Sublist book.by_addr := by
  induction fuel generalizing book with
  | zero => cases h
  | succ fuel ih =>
    unfold remove_surplus at h
    split at h
    · obtain ⟨next, hnext, h⟩ := except_bind_ok.mp h
      refine (ih h).trans ?_
      rw [remove_surplus_peer, except_bind_ok] at hnext
      obtain ⟨peer, -, hnext⟩ := hnext
      dsimp only at hnext
      split at hnext
      · obtain ⟨recent, -, hnext⟩ := except_bind_ok.mp hnext
        cases hnext
        exact filter_sublist
      · cases hnext
        exact filter_sublist
    · cases h
      exact Sublist.refl _

theorem store_cases (h : book.store updated now = .ok book') :
    book'.by_addr.Sublist (insert_addr book.by_addr updated) ∧ book'.by_addr.length ≤ book'.addr_limit := by
  rw [store, except_bind_ok] at h
  obtain ⟨cached, hcached, h⟩ := h
  obtain ⟨recent, hrecent⟩ :=
    update_most_recent_ok { book with by_addr := insert_addr book.by_addr updated } updated
  cases hrecent.symm.trans hcached
  obtain ⟨kept, hkept, h⟩ := except_bind_ok.mp h
  split at h
  · rename_i hsize
    obtain ⟨metrics, -, h⟩ := except_bind_ok.mp h
    cases h
    exact ⟨remove_surplus_sublist hkept, hsize⟩
  · cases h

theorem Valid.of_sublist (h : book.Valid) (hsub : book'.by_addr.Sublist book.by_addr)
    (hlimit : book'.addr_limit = book.addr_limit) : book'.Valid where
  sorted := h.sorted.sublist hsub
  canonical m hm := h.canonical m (hsub.subset hm)
  untimed m hm := h.untimed m (hsub.subset hm)
  score m hm := h.score m (hsub.subset hm)
  size := hlimit ▸ hsub.length_le.trans h.size

theorem update_valid (h : book.Valid) (hcanonical : change.addr.canonical = change.addr)
    (hupdate : book.update p clocks change = .ok (r, book')) : book'.Valid := by
  obtain ⟨-, rfl⟩ | ⟨updated, happly, ⟨-, -, hban⟩ | ⟨-, hscore, hstore⟩⟩ := update_cases h hcanonical hupdate
  · exact h
  · obtain ⟨hsub, hlimit⟩ := ban_cases hban
    exact h.of_sublist hsub hlimit
  · obtain ⟨haddr, huntimed⟩ := apply_untimed happly
    rw [← haddr] at hcanonical
    obtain ⟨hsub, hsize⟩ := store_cases hstore
    have hmem : ∀ m ∈ book'.by_addr, m = updated ∨ m ∈ book.by_addr := fun m hm =>
      (OrderedMap.mem_insert.mp (hsub.subset hm)).imp_right And.left
    refine ⟨(h.sorted.insert fun m hm heq => MetaAddr.addr_eq_of_cmp (h.canonical m hm) hcanonical
      heq).sublist hsub, ?_, ?_, ?_, hsize⟩ <;> intro m hm <;> rcases hmem m hm with rfl | hm
    · exact hcanonical
    · exact h.canonical m hm
    · exact huntimed
    · exact h.untimed m hm
    · exact hscore
    · exact h.score m hm

end AddressBook

/-! ## Misbehaviour reports -/

/-- The entry does not move forward in the order of the attempts, does not become reachable, and its
score grows by the increment. -/
structure Unrewarded (m updated : MetaAddr) (score_increment : UInt32) : Prop where
  order : updated.cmp m ≠ .lt
  reachable : ∀ now, m.is_probably_reachable now = .ok false → updated.is_probably_reachable now ≠ .ok true
  score : updated.misbehavior_score = m.misbehavior_score + score_increment.toNat
  increases : m.misbehavior_score < updated.misbehavior_score

section Report

variable {p : Profile} {m updated : MetaAddr} {score_increment : UInt32} {instant_now : Instant}
  {chrono_now : WallTime}

theorem apply_report (h : (UpdateMisbehavior m.addr score_increment).apply_to_meta_addr p
      (some m) instant_now chrono_now = .ok (some updated)) :
    ∃ score, addU32 p m.misbehavior_score score_increment.toNat = .ok score ∧
      updated = { m with
        last_failure := some instant_now, last_connection_state := .Responded, misbehavior_score := score } := by
  obtain ⟨local_now, -, ⟨hnone, -⟩ | ⟨m', hm, -, -, hmerge⟩⟩ := apply_cases h
  · cases hnone
  · cases hm
    obtain ⟨score, hscore, rfl⟩ := merge_attempted hmerge rfl
    refine ⟨score, hscore, ?_⟩
    simp [addr, peer_addr_state, untrusted_services,
      last_response, last_attempt, last_failure,
      is_inbound]

theorem reported_cmp (m : MetaAddr) (instant_now : Instant) (score : Nat) :
    MetaAddr.cmp { m with
        last_failure := some instant_now, last_connection_state := .Responded, misbehavior_score := score }
        m ≠ .lt ↔
      m.last_connection_state = .Responded ∧ ∀ t ∈ m.last_failure, t ≤ instant_now := by
  unfold MetaAddr.cmp MetaAddr.peer_preference
  cases hstate : m.last_connection_state <;> simp [PeerAddrState.cmp, Std.ReflCmp.compare_self]
  cases m.last_failure with
  | none => simp [optionCmp]
  | some t => simp [optionCmp, Nat.compare_eq_lt]

/-- A report leaves the peer as `Responded`, the best state there is. -/
theorem misbehavior_unrewarded_iff (hincrement : score_increment ≠ 0)
    (happly : (UpdateMisbehavior m.addr score_increment).apply_to_meta_addr p (some m)
      instant_now chrono_now = .ok (some updated)) :
    Unrewarded m updated score_increment ↔
      m.last_connection_state = .Responded ∧ (∀ t ∈ m.last_failure, t ≤ instant_now) ∧
        m.misbehavior_score + score_increment.toNat < 2 ^ 32 := by
  obtain ⟨score, hscore, rfl⟩ := apply_report happly
  have hpos : 0 < score_increment.toNat := Nat.pos_of_ne_zero fun hzero => hincrement (UInt32.toNat_inj.mp hzero)
  rw [← and_assoc, ← reported_cmp m instant_now score]
  constructor
  · intro h
    refine ⟨h.order, ?_⟩
    by_contra hwrap
    rw [addU32, if_neg hwrap] at hscore
    split at hscore
    · cases hscore
    · cases hscore
      have hsum := h.score
      dsimp only at hsum
      omega
  · rintro ⟨horder, hfits⟩
    rw [addU32_of_lt p _ _ hfits] at hscore
    cases hscore
    refine ⟨horder, fun now hfalse => ?_, rfl, Nat.lt_add_of_pos_right hpos⟩
    have hstate := ((reported_cmp ..).mp horder).1
    rw [MetaAddr.is_probably_reachable, if_pos (by rw [hstate]; decide)] at hfalse
    cases hfalse

end Report

namespace Sample

def later (s : Nat) : Clocks := ⟨SECOND * (1000 + s), 100000 + s, SECOND * (1000 + s)⟩

def peer : PeerSocketAddr := .V4 (ipOf 1) 8233

/-- The entry of a peer that answered at noon. -/
def responded : MetaAddr := (UpdateResponded peer).into_new_meta_addr (SECOND * 1000) 100000

end Sample

open Sample

theorem responded_unrewarded : Unrewarded responded
    { responded with last_failure := some (SECOND * 1010), misbehavior_score := 1 } 1 :=
  have happly : (UpdateMisbehavior peer 1).apply_to_meta_addr .dev (some responded)
      (later 10).instant_now (later 10).chrono_now = .ok (some _) := rfl
  (misbehavior_unrewarded_iff (by decide) happly).mpr ⟨rfl, by simp [responded,
    into_new_meta_addr, last_failure], by decide⟩

/-- A report puts a peer that failed and has not been seen for days first. -/
theorem report_revives_failed : ∃ book m updated,
    Runs.run (AddressBook.step .release) (.new listener .Mainnet 1 5000)
        [gossip 1 8233 300, (later 10, .UpdateAttempt peer), (later 20, .UpdateFailed peer none)] = .ok book ∧
      book.by_addr = [m] ∧
      (UpdateMisbehavior peer 1).apply_to_meta_addr .release (some m)
        (later 400000).instant_now (later 400000).chrono_now = .ok (some updated) ∧
      updated.misbehavior_score < MAX_PEER_MISBEHAVIOR_SCORE ∧ updated.cmp m = .lt ∧
      m.is_probably_reachable (later 400000).chrono_now = .ok false ∧
      updated.is_probably_reachable (later 400000).chrono_now = .ok true := by
  refine ⟨_, _, _, rfl, rfl, rfl, ?_, rfl, rfl, rfl⟩
  decide

/-! ## Gossip -/

namespace AddressBook

variable {p : Profile} {book book' : AddressBook} {clocks : Clocks} {m : MetaAddr} {r : Option MetaAddr}
  (services : PeerServices) (seen : DateTime32) (h : book.Valid) (hm : m ∈ book.by_addr)
  (hservices : m.services.isSome) (hseen : m.last_seen.isSome)
  (hclock : 0 ≤ clocks.chrono_now ∧ clocks.chrono_now < 2 ^ 32)

include h hm

theorem get?_of_mem :
    OrderedMap.get? MetaAddr.addr book.by_addr m.addr = some m := by
  cases hget : OrderedMap.get? MetaAddr.addr book.by_addr m.addr with
  | none => simpa using find?_eq_none.mp hget m hm
  | some m' =>
    obtain ⟨hm', hkey⟩ := OrderedMap.get?_eq_some hget
    rw [inj_on_of_nodup_map h.sorted.keys hm' hm hkey]

include hservices hseen hclock in
theorem gossip_apply :
    (NewGossiped m.addr services seen).apply_to_meta_addr p (some m) clocks.instant_now
        clocks.chrono_now = .ok none ∨
      m.last_connection_state = .NeverAttemptedGossiped ∧
        (NewGossiped m.addr services seen).apply_to_meta_addr p (some m) clocks.instant_now
          clocks.chrono_now = .ok (some m) := by
  have hscore := h.score m hm
  have hmax : MAX_PEER_MISBEHAVIOR_SCORE < 2 ^ 32 := by decide
  simp only [apply_to_meta_addr, DateTime32.try_from, if_pos hclock, orAbort, bind, Except.bind,
    addr, ne_eq, not_true, if_false]
  split
  · exact .inl rfl
  · rename_i hvalid
    cases hstate : m.last_connection_state with
    | NeverAttemptedGossiped =>
      obtain ⟨hresponse, hattempt, hfailure⟩ := h.untimed m hm hstate
      obtain ⟨known, hknown⟩ := Option.isSome_iff_exists.mp hservices
      rw [MetaAddr.last_seen, hresponse, Option.none_or] at hseen
      obtain ⟨time, htime⟩ := Option.isSome_iff_exists.mp hseen
      refine .inr ⟨rfl, ?_⟩
      rw [MetaAddrChange.merge, addU32_of_lt _ _ _ (by simp only [misbehavior_score]; omega)]
      cases m
      simp_all [bind, Except.bind, pure, Except.pure, peer_addr_state, addr,
        misbehavior_score, is_inbound, PeerAddrState.is_never_attempted]
    | _ => simp [is_invalid, hstate, PeerAddrState.is_never_attempted,
        peer_addr_state, misbehavior_score] at hvalid

include hclock in
theorem store_self (hstate : m.last_connection_state = .NeverAttemptedGossiped) :
    book.store m clocks.chrono_now = .ok book := by
  have hinsert : insert_addr book.by_addr m = book.by_addr := by
    conv_rhs => rw [← h.sorted.reinsert hm]
    simp [insert_addr, OrderedMap.insert, OrderedMap.remove]
  have hcache : book.update_most_recent m = .ok book := by
    rw [update_most_recent, if_neg]
    · rfl
    · unfold should_update_most_recent_by_ip
      split
      · simp
      · split <;> simp [hstate]
  obtain ⟨metrics, hmetrics⟩ := address_metrics_returns book hclock
  rw [store, hinsert, hcache]
  simp only [bind, Except.bind]
  rw [remove_surplus, if_neg (Nat.not_lt.mpr h.size)]
  simp [pure, Except.pure, h.size, hmetrics]

include hservices hseen hclock in
theorem gossip_ignored :
    ∃ r, book.update p clocks (.NewGossiped m.addr services seen) = .ok (r, book) := by
  unfold update
  split
  · exact ⟨none, rfl⟩
  · rw [get_eq h.sorted, addr, h.canonical m hm, get?_of_mem h hm]
    dsimp only
    obtain happly | ⟨hstate, happly⟩ := gossip_apply (p := p) services seen h hm hservices hseen hclock
    · rw [happly]
      exact ⟨none, rfl⟩
    · rw [happly]
      simp only [bind, Except.bind]
      rw [if_neg (Nat.not_le.mpr (h.score m hm)), store_self h hm hclock hstate]
      split
      · exact ⟨none, rfl⟩
      · split
        · exact ⟨none, rfl⟩
        · exact ⟨some m, rfl⟩

include hservices hseen in
theorem gossip_unchanged (hupdate : book.update p clocks (.NewGossiped m.addr services seen) = .ok (r, book')) :
    book' = book := by
  obtain ⟨-, rfl⟩ | ⟨updated, happly, -⟩ := update_cases h
    (show (NewGossiped m.addr services seen).addr.canonical = _ from h.canonical m hm) hupdate
  · rfl
  · obtain ⟨local_now, hclock, -⟩ := apply_cases happly
    obtain ⟨r', hsame⟩ := gossip_ignored (p := p) services seen h hm hservices hseen
      (Option.ite_none_right_eq_some.mp hclock).1
    cases hsame.symm.trans hupdate
    rfl

end AddressBook

/-- The change has a canonical address. If it was inserted then it is gossip about an entry with known
services and a known last seen time. -/
def Injected (book : AddressBook) (event : Bool × Clocks × MetaAddrChange) : Prop :=
  event.2.2.addr.canonical = event.2.2.addr ∧
    (event.1 = true → ∃ m ∈ book.by_addr, ∃ services seen, event.2.2 = .NewGossiped m.addr services seen ∧
      m.services.isSome ∧ m.last_seen.isSome)

/-- Events are marked if they were inserted. A run with them that ends leaves the book that the run
without them leaves, and where the clock is in range they do not make it panic either. -/
theorem gossip_cannot_steer {p : Profile} {local_listener : PeerSocketAddr} {network : Network}
    {max_connections_per_ip addr_limit : Nat} {prior : List (Clocks × MetaAddrChange)} {book : AddressBook}
    {events : List (Bool × Clocks × MetaAddrChange)} (hprior : ∀ e ∈ prior, e.2.addr.canonical = e.2.addr)
    (hbook : Runs.run (AddressBook.step p) (.new local_listener network max_connections_per_ip addr_limit)
      prior = .ok book)
    (hevents : Runs.Meets (fun book e => AddressBook.step p book e.2) Injected book events) :
    (∀ after, Runs.run (AddressBook.step p) book (events.map (·.2)) = .ok after →
        Runs.run (AddressBook.step p) book ((events.filter (!·.1)).map (·.2)) = .ok after) ∧
      ((∀ e ∈ events, e.1 = true → 0 ≤ e.2.1.chrono_now ∧ e.2.1.chrono_now < 2 ^ 32) →
        Runs.run (AddressBook.step p) book (events.map (·.2)) =
          Runs.run (AddressBook.step p) book ((events.filter (!·.1)).map (·.2))) := by
  have hvalid := Runs.run_preserves AddressBook.Valid
    (fun book e book' h hcanonical hstep => by
      obtain ⟨⟨r, book''⟩, hupdate, rfl⟩ := Runs.map_ok.mp hstep
      exact AddressBook.update_valid h hcanonical hupdate)
    (AddressBook.valid_new local_listener network max_connections_per_ip addr_limit)
    (Runs.Meets.of_forall hprior _) (prefix_refl _) hbook
  clear hbook hprior
  induction events generalizing book with
  | nil => exact ⟨fun _ h => h, fun _ => rfl⟩
  | cons e events ih =>
    obtain ⟨⟨hcanonical, hinserted⟩, hrest⟩ := hevents
    obtain ⟨mark, clocks, change⟩ := e
    cases mark with
    | false =>
      have hstep : ∀ next, AddressBook.step p book (clocks, change) = .ok next → next.Valid := fun next hnext => by
        obtain ⟨⟨r, book'⟩, hupdate, rfl⟩ := Runs.map_ok.mp hnext
        exact AddressBook.update_valid hvalid hcanonical hupdate
      refine ⟨fun after hrun => ?_, fun hclock => ?_⟩
      · obtain ⟨next, hnext, hrun⟩ := Runs.run_cons_ok.mp hrun
        exact Runs.run_cons_ok.mpr ⟨next, hnext, (ih (hrest next hnext) (hstep next hnext)).1 after hrun⟩
      · rw [filter_cons_of_pos rfl, map_cons, map_cons, Runs.run, Runs.run]
        cases hnext : AddressBook.step p book (clocks, change) with
        | error abort => rfl
        | ok next => exact (ih (hrest next hnext) (hstep next hnext)).2 fun e he => hclock e (mem_cons_of_mem _ he)
    | true =>
      obtain ⟨m, hm, services, seen, hchange, hservices, hseen⟩ := hinserted rfl
      cases hchange
      refine ⟨fun after hrun => ?_, fun hclock => ?_⟩
      · obtain ⟨next, hnext, hrun⟩ := Runs.run_cons_ok.mp hrun
        have hnext' := hrest next hnext
        obtain ⟨⟨r, book'⟩, hupdate, rfl⟩ := Runs.map_ok.mp hnext
        cases AddressBook.gossip_unchanged services seen hvalid hm hservices hseen hupdate
        exact (ih hnext' hvalid).1 after hrun
      · obtain ⟨r, hupdate⟩ := AddressBook.gossip_ignored (p := p) services seen hvalid hm hservices hseen
          (hclock _ mem_cons_self rfl)
        have hstep : AddressBook.step p book (clocks, .NewGossiped m.addr services seen) = .ok book := by
          rw [AddressBook.step, hupdate]
          rfl
        rw [filter_cons_of_neg (by simp), map_cons, Runs.run, hstep]
        exact (ih (hrest book hstep) hvalid).2 fun e he => hclock e (mem_cons_of_mem _ he)

theorem gossip_for_known_peer : ∃ book,
    Runs.run (AddressBook.step .dev) (.new listener .Mainnet 1 5000) [gossip 1 8233 300] = .ok book ∧
      ∀ after, Runs.run (AddressBook.step .dev) book [gossip 1 8233 500, (later 10, .UpdateAttempt peer)] = .ok after →
        Runs.run (AddressBook.step .dev) book [(later 10, .UpdateAttempt peer)] = .ok after := by
  refine ⟨_, rfl, (@gossip_cannot_steer .dev listener .Mainnet 1 5000 [gossip 1 8233 300] _
    [(true, gossip 1 8233 500), (false, later 10, .UpdateAttempt peer)] ?_ rfl ?_).1⟩
  · decide
  · refine ⟨⟨rfl, fun _ => ⟨_, mem_singleton_self _, _, _, rfl, rfl, rfl⟩⟩, fun next _ => ⟨⟨rfl, ?_⟩, ?_⟩⟩
    · simp
    · exact fun _ _ => trivial

/-- In every book that is reached, the entries are in order with one for each address, within the limit
and below the score that bans, and those that were never attempted have no times. -/
theorem address_book_stays_valid {p : Profile} {local_listener : PeerSocketAddr} {network : Network}
    {max_connections_per_ip addr_limit : Nat} {changes : List (Clocks × MetaAddrChange)} {book : AddressBook}
    (hcanonical : ∀ e ∈ changes, e.2.addr.canonical = e.2.addr)
    (hrun : Runs.run (AddressBook.step p) (.new local_listener network max_connections_per_ip addr_limit)
      changes = .ok book) : book.Valid := by
  apply Runs.run_preserves AddressBook.Valid _ (AddressBook.valid_new ..)
    (Runs.Meets.of_forall hcanonical _) (prefix_refl _) hrun
  intro book e book' h hcanonical hstep
  obtain ⟨⟨r, book''⟩, hupdate, rfl⟩ := Runs.map_ok.mp hstep
  exact AddressBook.update_valid h hcanonical hupdate

namespace Sample

/-- Of three addresses one answers, one fails and one is left as it was gossiped. -/
def attempts : List (Clocks × MetaAddrChange) :=
  [gossip 1 8233 300, gossip 2 8233 200, gossip 3 8233 100, (later 10, .UpdateAttempt peer),
    (later 11, .UpdateResponded peer), (later 12, .UpdateAttempt (.V4 (ipOf 2) 8233)),
    (later 13, .UpdateFailed (.V4 (ipOf 2) 8233) none)]

end Sample

theorem attempted_book_valid : ∃ book,
    Runs.run (AddressBook.step .dev) (.new listener .Mainnet 1 5000) attempts = .ok book ∧
      book.peers.map (fun m => (m.addr, m.last_connection_state)) =
        [(.V4 (ipOf 1) 8233, .Responded), (.V4 (ipOf 3) 8233, .NeverAttemptedGossiped),
          (.V4 (ipOf 2) 8233, .Failed)] ∧ book.Valid :=
  ⟨_, rfl, rfl, @address_book_stays_valid .dev listener .Mainnet 1 5000 attempts _ (by decide) rfl⟩

end ZebraCrosslink
