import ZebraCrosslink.Network.AddressBook
import ZebraCrosslink.Rust.Runs

/-!
# Banned addresses

A ban needs the cache of recent peers by IP, and removes only those entries of the IP that stand
next to each other in the order of reconnection attempts.
-/

open Rust List
open OrderedMap (Sorted get? get?_eq_some mem_insert)

namespace ZebraCrosslink

namespace AddressBook

/-! ## What holds between updates -/

structure Kept (book : AddressBook) : Prop where
  sorted : OrderedMap.Sorted MetaAddr.addr MetaAddr.cmp book.by_addr
  canonical : ∀ m ∈ book.by_addr, m.addr.canonical = m.addr
  unbanned : ∀ m ∈ book.by_addr, book.is_banned m.addr.ip = false

structure Settled (book : AddressBook) : Prop extends Kept book where
  size : book.by_addr.length ≤ book.addr_limit

theorem settled_new (local_listener : PeerSocketAddr) (network : Network)
    (max_connections_per_ip addr_limit : Nat) :
    Settled (new local_listener network max_connections_per_ip addr_limit) where
  sorted := .nil
  canonical := by simp [new]
  unbanned := by simp [new]
  size := Nat.zero_le _

/-! ## When an update is safe -/

def scoreOf (book : AddressBook) (addr : PeerSocketAddr) : Nat :=
  match OrderedMap.get? MetaAddr.addr book.by_addr addr with
  | some m => m.misbehavior_score
  | none => 0

def Together (book : AddressBook) (ip : IpAddr) : Prop :=
  ∃ before block after, book.by_addr = before ++ (block ++ after) ∧ (∀ m ∈ before, m.addr.ip ≠ ip) ∧
    (∀ m ∈ block, m.addr.ip = ip) ∧ ∀ m ∈ after, m.addr.ip ≠ ip

/-- The clock is in range, the address is canonical, the score does not overflow, and a ban finds the
cache of recent peers and the entries of its IP together. -/
structure SafeChange (book : AddressBook) (clocks : Clocks) (change : MetaAddrChange) : Prop where
  clock : 0 ≤ clocks.chrono_now ∧ clocks.chrono_now < 2 ^ 32
  canonical : change.addr.canonical = change.addr
  fits : book.scoreOf change.addr + change.misbehavior_score < 2 ^ 32
  ban : MAX_PEER_MISBEHAVIOR_SCORE ≤ book.scoreOf change.addr + change.misbehavior_score →
    book.most_recent_by_ip.isSome ∧ book.Together change.addr.ip

/-! ## The parts of an update -/

variable {p : Profile} {book book' : AddressBook} {clocks : Clocks} {change : MetaAddrChange}
  {m : MetaAddr} {α : Type} {test : α → Except Abort Bool} {l : List α} {now : WallTime}

theorem get_eq (h : Sorted MetaAddr.addr MetaAddr.cmp book.by_addr) (addr : PeerSocketAddr) :
    book.get addr = (get? MetaAddr.addr book.by_addr addr.canonical, book) := by
  cases hget : get? MetaAddr.addr book.by_addr addr.canonical with
  | none => simp only [get, hget]
  | some m =>
    obtain ⟨hm, hkey⟩ := get?_eq_some hget
    simp only [get, hget, insert_addr, remove_addr]
    rw [← hkey, h.reinsert hm]

theorem merge_ok {previous : MetaAddr} (instant_now : Instant) (local_now : DateTime32)
    (hfits : previous.misbehavior_score + change.misbehavior_score < 2 ^ 32) :
    ∃ m, change.merge p previous instant_now local_now = .ok m ∧ m.addr = change.addr ∧
      m.misbehavior_score = previous.misbehavior_score + change.misbehavior_score := by
  unfold MetaAddrChange.merge
  rw [addU32_of_lt p _ _ hfits]
  simp only [bind, Except.bind]
  split
  · exact ⟨_, rfl, rfl, rfl⟩
  · exact ⟨_, rfl, rfl, rfl⟩

theorem apply_ok (hsafe : book.SafeChange clocks change) :
    ∃ updated, change.apply_to_meta_addr p (get? MetaAddr.addr book.by_addr change.addr)
        clocks.instant_now clocks.chrono_now = .ok updated ∧ ∀ m ∈ updated, m.addr = change.addr ∧
        m.misbehavior_score = book.scoreOf change.addr + change.misbehavior_score := by
  have hclock : DateTime32.try_from clocks.chrono_now = some (UInt32.ofNat clocks.chrono_now.toNat) := by
    rw [DateTime32.try_from, if_pos hsafe.clock]
  have hfits := hsafe.fits
  unfold scoreOf at hfits ⊢
  simp only [MetaAddrChange.apply_to_meta_addr, hclock, orAbort, bind, Except.bind]
  cases hget : get? MetaAddr.addr book.by_addr change.addr with
  | none =>
    refine ⟨_, rfl, fun m hm => ?_⟩
    cases hm
    exact ⟨rfl, (Nat.zero_add _).symm⟩
  | some previous =>
    rw [hget] at hfits
    obtain ⟨-, hkey⟩ := get?_eq_some hget
    obtain ⟨m, hmerge, hm⟩ := merge_ok (p := p) clocks.instant_now
      (UInt32.ofNat clocks.chrono_now.toNat) hfits
    simp only [hkey, ne_eq, not_true, if_false, hmerge]
    split
    · exact ⟨none, rfl, by simp⟩
    · refine ⟨some m, rfl, fun m' hm' => ?_⟩
      cases hm'
      exact hm

/-! ### Banning -/

theorem mem_foldl_remove {addrs : List PeerSocketAddr} {l : List MetaAddr} :
    m ∈ addrs.foldl remove_addr l ↔ m ∈ l ∧ m.addr ∉ addrs := by
  induction addrs generalizing l with
  | nil => simp
  | cons addr addrs ih =>
    rw [foldl_cons, ih, remove_addr, OrderedMap.mem_remove, mem_cons, not_or, and_assoc]

theorem foldl_remove_sublist (addrs : List PeerSocketAddr) (l : List MetaAddr) :
    (addrs.foldl remove_addr l).Sublist l := by
  induction addrs generalizing l with
  | nil => exact Sublist.refl _
  | cons addr addrs ih => exact (ih _).trans filter_sublist

theorem together_removed {ip : IpAddr} (h : book.Together ip) (hm : m ∈ book.by_addr)
    (hip : m.addr.ip = ip) :
    m.addr ∈ ((book.by_addr.map (·.addr)).dropWhile (·.ip ≠ ip)).takeWhile (·.ip = ip) := by
  obtain ⟨before, block, after, heq, hbefore, hblock, hafter⟩ := h
  rw [heq] at hm ⊢
  have hmem : m ∈ block := by
    rcases mem_append.mp hm with hm | hm
    · exact absurd hip (hbefore m hm)
    · rcases mem_append.mp hm with hm | hm
      · exact hm
      · exact absurd hip (hafter m hm)
  rw [map_append, map_append, dropWhile_append_of_pos (by simpa using hbefore)]
  cases block with
  | nil => cases hmem
  | cons b block =>
    rw [map_cons, cons_append, dropWhile_cons_of_neg (by simpa using hblock b mem_cons_self),
      ← cons_append, ← map_cons, takeWhile_append_of_pos (by simpa using hblock)]
    exact mem_append_left _ (mem_map_of_mem hmem)

theorem ban_settled {ip : IpAddr} (h : book.Settled) (hsome : book.most_recent_by_ip.isSome)
    (htogether : book.Together ip) (banned_at : Instant) :
    ∃ book', book.ban ip banned_at = .ok book' ∧ book'.Settled := by
  obtain ⟨most_recent, hrecent⟩ := Option.isSome_iff_exists.mp hsome
  refine ⟨_, by rw [ban, hrecent]; rfl, ?_⟩
  have hsub := foldl_remove_sublist
    (((book.by_addr.map (·.addr)).dropWhile (·.ip ≠ ip)).takeWhile (·.ip = ip)) book.by_addr
  refine ⟨⟨h.sorted.sublist hsub, fun m hm => h.canonical m (hsub.subset hm), fun m hm => ?_⟩,
    hsub.length_le.trans h.size⟩
  obtain ⟨hm, hkept⟩ := mem_foldl_remove.mp hm
  have hip : m.addr.ip ≠ ip := fun hip => hkept (together_removed htogether hm hip)
  have hold := h.unbanned m hm
  simp only [is_banned, decide_eq_false_iff_not] at hold ⊢
  intro hmem
  have hmem' : m.addr.ip ∈ (indexInsert book.bans_by_ip ip banned_at).map (·.1) := by
    split at hmem
    · exact (tail_sublist _).map _ |>.subset hmem
    · exact hmem
  exact (mem_keys_indexInsert hmem').elim hip hold

/-! ### Storing -/

theorem update_most_recent_ok (book : AddressBook) (updated : MetaAddr) :
    ∃ recent, book.update_most_recent updated = .ok { book with most_recent_by_ip := recent } := by
  unfold update_most_recent
  split
  · rename_i hshould
    cases hrecent : book.most_recent_by_ip with
    | none => simp [should_update_most_recent_by_ip, hrecent] at hshould
    | some recent => exact ⟨_, rfl⟩
  · exact ⟨book.most_recent_by_ip, rfl⟩

theorem remove_surplus_peer_ok (h : book.Kept) (hne : book.by_addr ≠ []) :
    ∃ book', book.remove_surplus_peer = .ok book' ∧ book'.Kept ∧
      book'.by_addr.length < book.by_addr.length ∧ book'.addr_limit = book.addr_limit := by
  have hlast := getLast?_eq_getLast_of_ne_nil hne
  have hmem := getLast_mem hne
  generalize book.by_addr.getLast hne = peer at hlast hmem
  have hsub : (remove_addr book.by_addr peer.addr).Sublist book.by_addr := filter_sublist
  have hkept : ∀ recent, Kept { book with
      by_addr := remove_addr book.by_addr peer.addr, most_recent_by_ip := recent } := fun recent =>
    ⟨h.sorted.sublist hsub, fun m hm => h.canonical m (hsub.subset hm),
      fun m hm => h.unbanned m (hsub.subset hm)⟩
  have hlt : (remove_addr book.by_addr peer.addr).length < book.by_addr.length :=
    length_filter_lt_length_iff_exists.mpr ⟨_, hmem, by simp⟩
  unfold remove_surplus_peer peers should_remove_most_recent_by_ip
  rw [hlast]
  simp only [orAbort, bind, Except.bind]
  cases hrecent : book.most_recent_by_ip with
  | none => exact ⟨_, rfl, hkept _, hlt, rfl⟩
  | some recent =>
    dsimp only
    split
    · exact ⟨_, rfl, hkept _, hlt, rfl⟩
    · exact ⟨_, rfl, hkept _, hlt, rfl⟩

theorem remove_surplus_ok (fuel : Nat) (h : book.Kept) (hfuel : book.by_addr.length < fuel) :
    ∃ book', remove_surplus fuel book = .ok book' ∧ book'.Settled := by
  induction fuel generalizing book with
  | zero => omega
  | succ fuel ih =>
    unfold remove_surplus
    split
    · rename_i hlimit
      obtain ⟨next, hnext, hkept, hlt, -⟩ := remove_surplus_peer_ok h (by
        rintro hnil
        rw [hnil] at hlimit
        simp at hlimit)
      obtain ⟨book', hrest, hsettled⟩ := ih hkept (by omega)
      refine ⟨book', ?_, hsettled⟩
      rw [hnext]
      exact hrest
    · exact ⟨book, rfl, h, by omega⟩

theorem filterM'_sublist {r : List α} (h : filterM' test l = .ok r) :
    r.Sublist l ∧ ∀ a ∈ r, test a = .ok true := by
  induction l generalizing r with
  | nil =>
    cases h
    exact ⟨Sublist.refl _, by simp⟩
  | cons a l ih =>
    rw [filterM', except_bind_ok] at h
    obtain ⟨keep, hkeep, h⟩ := h
    obtain ⟨rest, hrest, h⟩ := except_bind_ok.mp h
    obtain ⟨hsub, htrue⟩ := ih hrest
    cases keep <;> cases h
    · exact ⟨hsub.cons _, htrue⟩
    · exact ⟨hsub.cons_cons _, by simpa using ⟨hkeep, htrue⟩⟩

theorem filterM'_returns (h : ∀ a ∈ l, ∃ b, test a = .ok b) : ∃ r, filterM' test l = .ok r := by
  induction l with
  | nil => exact ⟨[], rfl⟩
  | cons a l ih =>
    obtain ⟨keep, hkeep⟩ := h a mem_cons_self
    obtain ⟨rest, hrest⟩ := ih fun b hb => h b (mem_cons_of_mem _ hb)
    exact ⟨_, by rw [filterM', hkeep, hrest]; rfl⟩

theorem was_recently_live_returns (hnow : 0 ≤ now ∧ now < 2 ^ 32) (m : MetaAddr) :
    ∃ b, m.was_recently_live now = .ok b := by
  unfold MetaAddr.was_recently_live MetaAddr.has_connection_recently_responded
  split
  · split
    · exact ⟨_, by rw [DateTime32.saturating_elapsed, DateTime32.try_from, if_pos hnow]; rfl⟩
    · exact ⟨_, rfl⟩
  · exact ⟨_, rfl⟩

theorem responded_of_live (h : m.was_recently_live now = .ok true) :
    m.last_connection_state = .Responded := by
  unfold MetaAddr.was_recently_live at h
  by_contra hstate
  rw [if_neg hstate] at h
  cases h

theorem address_metrics_returns (book : AddressBook) (hnow : 0 ≤ now ∧ now < 2 ^ 32) :
    ∃ metrics, book.address_metrics_internal now = .ok metrics := by
  obtain ⟨live, hlive⟩ := filterM'_returns (l := book.by_addr) fun m _ => was_recently_live_returns hnow m
  obtain ⟨hsub, hresponded⟩ := filterM'_sublist hlive
  have hle : live.length ≤ (book.state_peers .Responded).length := by
    have hfilter : live.filter (·.last_connection_state = .Responded) = live :=
      filter_eq_self.mpr fun m hm => by simpa using responded_of_live (hresponded m hm)
    rw [← hfilter]
    exact (hsub.filter _).length_le
  unfold address_metrics_internal recently_live_peers
  rw [hlive]
  simp only [bind, Except.bind, hle, if_true, orAbort]
  exact ⟨_, rfl⟩

theorem store_settled {updated : MetaAddr} (h : book.Settled) (hcanonical : updated.addr.canonical = updated.addr)
    (hbanned : book.is_banned updated.addr.ip = false) (hnow : 0 ≤ now ∧ now < 2 ^ 32) :
    ∃ book', book.store updated now = .ok book' ∧ book'.Settled := by
  obtain ⟨recent, hrecent⟩ :=
    update_most_recent_ok { book with by_addr := insert_addr book.by_addr updated } updated
  have hkept : Kept { book with
      by_addr := insert_addr book.by_addr updated, most_recent_by_ip := recent } := by
    refine ⟨h.sorted.insert fun m hm heq => MetaAddr.addr_eq_of_cmp (h.canonical m hm) hcanonical heq,
      fun m hm => ?_, fun m hm => ?_⟩
    · rcases mem_insert.mp hm with rfl | ⟨hm, -⟩
      · exact hcanonical
      · exact h.canonical m hm
    · rcases mem_insert.mp hm with rfl | ⟨hm, -⟩
      · exact hbanned
      · exact h.unbanned m hm
  obtain ⟨book', hsurplus, hsettled⟩ := remove_surplus_ok _ hkept (Nat.lt_succ_self _)
  obtain ⟨metrics, hmetrics⟩ := address_metrics_returns book' hnow
  refine ⟨book', ?_, hsettled⟩
  unfold store
  rw [hrecent]
  simp only [bind, Except.bind]
  rw [hsurplus]
  simp only [hsettled.size, if_true, hmetrics]
  rfl

theorem update_settled (h : book.Settled) (hsafe : book.SafeChange clocks change) :
    ∃ r book', book.update p clocks change = .ok (r, book') ∧ book'.Settled := by
  unfold update
  by_cases hbanned : book.is_banned change.addr.ip = true
  · rw [if_pos hbanned]
    exact ⟨none, book, rfl, h⟩
  · rw [if_neg hbanned, get_eq h.sorted, hsafe.canonical]
    obtain ⟨updated, happly, hupdated⟩ := apply_ok (p := p) hsafe
    simp only [happly, bind, Except.bind]
    cases updated with
    | none => exact ⟨none, book, rfl, h⟩
    | some updated =>
      obtain ⟨haddr, hscore⟩ := hupdated updated rfl
      dsimp only
      split
      · rename_i hmax
        rw [hscore] at hmax
        obtain ⟨hsome, htogether⟩ := hsafe.ban hmax
        rw [haddr]
        obtain ⟨book', hban, hsettled⟩ := ban_settled h hsome htogether clocks.banned_at
        exact ⟨none, book', by rw [hban]; rfl, hsettled⟩
      · split
        · exact ⟨none, book, rfl, h⟩
        · split
          · exact ⟨none, book, rfl, h⟩
          · obtain ⟨book', hstore, hsettled⟩ := store_settled h (haddr ▸ hsafe.canonical)
              (by rw [haddr]; simpa using hbanned) hsafe.clock
            exact ⟨some updated, book', by rw [hstore]; rfl, hsettled⟩

/-! ## What is handed out -/

theorem filterMapM'_mem {β : Type} {f : α → Except Abort (Option β)} {r : List β} {b : β}
    (h : filterMapM' f l = .ok r) (hb : b ∈ r) : ∃ a ∈ l, f a = .ok (some b) := by
  induction l generalizing r with
  | nil =>
    cases h
    cases hb
  | cons a l ih =>
    rw [filterMapM', except_bind_ok] at h
    obtain ⟨first, hfirst, h⟩ := h
    obtain ⟨rest, hrest, h⟩ := except_bind_ok.mp h
    cases h
    rcases mem_append.mp hb with hb | hb
    · exact ⟨a, mem_cons_self, by rw [hfirst, Option.mem_toList.mp hb]⟩
    · obtain ⟨a', ha', hf⟩ := ih hrest hb
      exact ⟨a', mem_cons_of_mem _ ha', hf⟩

theorem sanitize_addr {m' : MetaAddr} {network : Network} (h : m.sanitize network = .ok (some m')) :
    m'.addr = m.addr.canonical := by
  unfold MetaAddr.sanitize at h
  split at h
  · cases h
  · split at h
    · cases h
    · split at h
      · cases h
      · obtain ⟨last_seen, -, h⟩ := except_bind_ok.mp h
        cases h
        rfl

theorem local_listener_addr (h : book.local_listener_meta_addr now = .ok m) :
    m.addr = book.local_listener.canonical := by
  rw [local_listener_meta_addr, except_bind_ok] at h
  obtain ⟨t, -, h⟩ := h
  cases h
  rfl

theorem fresh_get_addr_response_mem {shuffle : List MetaAddr → List MetaAddr}
    {peers : List MetaAddr} (hshuffle : ∀ l, (shuffle l).Perm l)
    (h : book.fresh_get_addr_response shuffle now = .ok peers) (hm : m ∈ peers) :
    m.addr = book.local_listener.canonical.canonical ∨ ∃ m' ∈ book.by_addr, m.addr = m'.addr.canonical := by
  rw [fresh_get_addr_response, except_bind_ok] at h
  obtain ⟨shuffled, hshuffled, h⟩ := h
  cases h
  rw [sanitized, except_bind_ok] at hshuffled
  obtain ⟨own, hown, h⟩ := hshuffled
  obtain ⟨clean, hclean, h⟩ := except_bind_ok.mp h
  obtain ⟨active, hactive, h⟩ := except_bind_ok.mp h
  cases h
  have hmem := (filterM'_sublist hactive).1.subset ((hshuffle active).subset (mem_of_mem_take hm))
  obtain ⟨m', hm', hsanitize⟩ := filterMapM'_mem hclean hmem
  rw [sanitize_addr hsanitize]
  rcases mem_insert.mp hm' with rfl | ⟨hm', -⟩
  · exact .inl (by rw [local_listener_addr hown])
  · exact .inr ⟨m', hm', rfl⟩

/-- No entry has a banned IP, and neither does anything that is handed out, apart from the address of
the own listener. -/
structure BansTotal (book : AddressBook) : Prop where
  size : book.by_addr.length ≤ book.addr_limit
  entries : ∀ m ∈ book.by_addr, book.is_banned m.addr.ip = false
  reconnections : ∀ instant_now chrono_now peers, book.reconnection_peers instant_now chrono_now = .ok peers →
    ∀ m ∈ peers, book.is_banned m.addr.ip = false
  responses : ∀ shuffle now peers, (∀ l, (shuffle l).Perm l) →
    book.fresh_get_addr_response shuffle now = .ok peers →
      ∀ m ∈ peers, m.addr = book.local_listener.canonical.canonical ∨ book.is_banned m.addr.ip = false

theorem Settled.bansTotal (h : book.Settled) : book.BansTotal where
  size := h.size
  entries := h.unbanned
  reconnections _ _ _ hpeers m hm := h.unbanned m ((filterM'_sublist hpeers).1.subset hm)
  responses shuffle now peers hshuffle hpeers m hm := by
    rcases fresh_get_addr_response_mem hshuffle hpeers hm with hown | ⟨m', hm', haddr⟩
    · exact .inl hown
    · rw [haddr, h.canonical m' hm']
      exact .inr (h.unbanned m' hm')

def step (p : Profile) (book : AddressBook) (event : Clocks × MetaAddrChange) : Except Abort AddressBook :=
  (book.update p event.1 event.2).map (·.2)

end AddressBook

/-- In a run of safe changes no update panics, and the bans are total in every state. -/
theorem bans_are_total {p : Profile} {local_listener : PeerSocketAddr} {network : Network}
    {max_connections_per_ip addr_limit : Nat} {events done : List (Clocks × MetaAddrChange)}
    (hsafe : Runs.Meets (AddressBook.step p) (fun book event => book.SafeChange event.1 event.2)
      (.new local_listener network max_connections_per_ip addr_limit) events) (hdone : done <+: events) :
    ∃ book, Runs.run (AddressBook.step p) (.new local_listener network max_connections_per_ip addr_limit)
        done = .ok book ∧ book.BansTotal := by
  obtain ⟨book, hrun, hsettled⟩ := Runs.run_keeps (fun book event h hevent => by
    obtain ⟨r, book', hupdate, hsettled⟩ := AddressBook.update_settled (p := p) h hevent
    exact ⟨book', by rw [AddressBook.step, hupdate]; rfl, hsettled⟩)
    (AddressBook.settled_new local_listener network max_connections_per_ip addr_limit) hsafe hdone
  exact ⟨book, hrun, hsettled.bansTotal⟩

namespace Sample

variable (n : UInt8)

def ipOf : Bytes 4 := ⟨[10, 0, 0, n], rfl⟩

def listener : PeerSocketAddr := .V4 (ipOf 9) 8233

def noon : Clocks := ⟨SECOND * 1000, 100000, SECOND * 1000⟩

def gossip (port : UInt16) (seen : DateTime32) : Clocks × MetaAddrChange :=
  (noon, .NewGossiped (.V4 (ipOf n) port) PeerServices.NODE_NETWORK seen)

def report (port : UInt16) : Clocks × MetaAddrChange :=
  (noon, .UpdateMisbehavior (.V4 (ipOf n) port) 100)

def reported : List (Clocks × MetaAddrChange) :=
  [gossip 1 8233 300, gossip 1 8234 200, gossip 2 8233 100, report 1 8233]

end Sample

open Sample

/-- Two addresses of an IP are banned, and the one of another IP stays. -/
theorem neighbouring_addresses_banned : ∃ book,
    Runs.run (AddressBook.step .dev) (.new listener .Mainnet 1 5000) reported = .ok book ∧
      book.BansTotal ∧ book.by_addr.map (·.addr) = [.V4 (ipOf 2) 8233] := by
  have hsafe : Runs.Meets (AddressBook.step .dev)
      (fun book event => book.SafeChange event.1 event.2) (.new listener .Mainnet 1 5000) reported := by
    refine ⟨⟨by decide, by decide, by decide, fun hmax => absurd hmax (by decide)⟩, fun book h => ?_⟩
    cases h
    refine ⟨⟨by decide, by decide, by decide, fun hmax => absurd hmax (by decide)⟩, fun book h => ?_⟩
    cases h
    refine ⟨⟨by decide, by decide, by decide, fun hmax => absurd hmax (by decide)⟩, fun book h => ?_⟩
    cases h
    refine ⟨⟨by decide, by decide, by decide, fun _ => ⟨rfl, [], [_, _], [_], rfl, ?_⟩⟩,
      fun _ _ => trivial⟩
    decide
  obtain ⟨book, hrun, hbans⟩ := bans_are_total hsafe (prefix_refl _)
  refine ⟨book, hrun, hbans, ?_⟩
  cases hrun
  decide

/-- The entries of the banned IP that are not next to the first one stay. -/
theorem ban_leaves_entries :
    Runs.run (AddressBook.step .release) (.new listener .Mainnet 2 5000) [report 1 8233] =
        .error (.expect "should be some when should_remove_most_recent_by_ip is true") ∧
      ∃ book, Runs.run (AddressBook.step .release) (.new listener .Mainnet 1 5000)
          [gossip 1 8233 300, gossip 2 8233 200, gossip 1 8234 100, report 1 8233] = .ok book ∧
        book.is_banned (.V4 (ipOf 1)) = true ∧
        (book.by_addr.map (·.addr)) = [.V4 (ipOf 2) 8233, .V4 (ipOf 1) 8234] := by
  refine ⟨rfl, _, rfl, ?_⟩
  decide

end ZebraCrosslink
