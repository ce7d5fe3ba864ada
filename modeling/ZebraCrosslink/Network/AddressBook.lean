import ZebraCrosslink.Network.MetaAddr
import ZebraCrosslink.Rust.IndexMap
import ZebraCrosslink.Rust.Map
import ZebraCrosslink.Rust.OrderedMap

/-!
# The address book

The entries are in the order of reconnection attempts, best first. `bans_by_ip` is in the order in
which the IPs were banned.
-/

open Rust

namespace ZebraCrosslink

def MAX_ADDRS_IN_MESSAGE : Nat := 1000

def ADDR_RESPONSE_LIMIT_DENOMINATOR : Nat := 4

def MAX_PEER_MISBEHAVIOR_SCORE : Nat := 100

def MAX_BANNED_IPS : Nat := 20000

structure AddressMetrics where
  responded : Nat
  never_attempted_gossiped : Nat
  failed : Nat
  attempt_pending : Nat
  recently_live : Nat
  recently_stopped_responding : Nat
  num_addresses : Nat
  address_limit : Nat

structure AddressBook where
  by_addr : List MetaAddr
  most_recent_by_ip : Option (Map IpAddr MetaAddr)
  bans_by_ip : List (IpAddr × Instant)
  local_listener : PeerSocketAddr
  network : Network
  addr_limit : Nat

structure Clocks where
  instant_now : Instant
  chrono_now : WallTime
  banned_at : Instant

namespace AddressBook

/-- `new`, with the limit that `new_with_addrs` sets. -/
def new (local_listener : PeerSocketAddr) (network : Network) (max_connections_per_ip : Nat)
    (addr_limit : Nat) : AddressBook where
  by_addr := []
  most_recent_by_ip := if max_connections_per_ip = 1 then some ∅ else none
  bans_by_ip := []
  local_listener := local_listener.canonical
  network := network
  addr_limit := addr_limit

def is_banned (book : AddressBook) (ip : IpAddr) : Bool := ip ∈ book.bans_by_ip.map (·.1)

def insert_addr (by_addr : List MetaAddr) (m : MetaAddr) : List MetaAddr :=
  OrderedMap.insert MetaAddr.addr MetaAddr.cmp by_addr m

def remove_addr (by_addr : List MetaAddr) (addr : PeerSocketAddr) : List MetaAddr :=
  OrderedMap.remove MetaAddr.addr by_addr addr

def get (book : AddressBook) (addr : PeerSocketAddr) : Option MetaAddr × AddressBook :=
  let addr := addr.canonical
  match OrderedMap.get? MetaAddr.addr book.by_addr addr with
  | some m => (some m, { book with by_addr := insert_addr (remove_addr book.by_addr addr) m })
  | none => (none, book)

def should_update_most_recent_by_ip (book : AddressBook) (updated : MetaAddr) : Bool :=
  match book.most_recent_by_ip with
  | none => false
  | some most_recent_by_ip =>
    match most_recent_by_ip.lookup updated.addr.ip with
    | some previous =>
      updated.last_connection_state = .Responded ∧
        optionCmp compare updated.last_response previous.last_response = .gt
    | none => updated.last_connection_state = .Responded

def should_remove_most_recent_by_ip (book : AddressBook) (addr : PeerSocketAddr) : Bool :=
  match book.most_recent_by_ip with
  | none => false
  | some most_recent_by_ip =>
    match most_recent_by_ip.lookup addr.ip with
    | some previous => previous.addr = addr
    | none => false

def peers (book : AddressBook) : List MetaAddr := book.by_addr

def state_peers (book : AddressBook) (state : PeerAddrState) : List MetaAddr :=
  book.by_addr.filter (·.last_connection_state = state)

/-- A filter whose test may panic. -/
def filterM' {α : Type} (test : α → Except Abort Bool) : List α → Except Abort (List α)
  | [] => pure []
  | a :: rest => do
    let keep ← test a
    let rest ← filterM' test rest
    pure (if keep then a :: rest else rest)

def recently_live_peers (book : AddressBook) (now : WallTime) : Except Abort (List MetaAddr) :=
  filterM' (·.was_recently_live now) book.by_addr

def address_metrics_internal (book : AddressBook) (now : WallTime) : Except Abort AddressMetrics := do
  let responded := (book.state_peers .Responded).length
  let recently_live := (← book.recently_live_peers now).length
  let recently_stopped_responding ← orAbort
    (if recently_live ≤ responded then some (responded - recently_live) else none)
    (.expect "all recently live peers must have responded")
  pure {
    responded
    never_attempted_gossiped := (book.state_peers .NeverAttemptedGossiped).length
    failed := (book.state_peers .Failed).length
    attempt_pending := (book.state_peers .AttemptPending).length
    recently_live
    recently_stopped_responding
    num_addresses := book.by_addr.length
    address_limit := book.addr_limit }

/-- Of the entries with this IP, those are removed that stand next to each other from the first one on. -/
def ban (book : AddressBook) (banned_ip : IpAddr) (banned_at : Instant) : Except Abort AddressBook := do
  let bans_by_ip := indexInsert book.bans_by_ip banned_ip banned_at
  let bans_by_ip := if MAX_BANNED_IPS < bans_by_ip.length then bans_by_ip.tail else bans_by_ip
  let most_recent_by_ip ← orAbort book.most_recent_by_ip
    (.expect "should be some when should_remove_most_recent_by_ip is true")
  let banned_addrs := ((book.by_addr.map (·.addr)).dropWhile (·.ip ≠ banned_ip)).takeWhile
    (·.ip = banned_ip)
  pure { book with
    bans_by_ip
    most_recent_by_ip := some (most_recent_by_ip.erase banned_ip)
    by_addr := banned_addrs.foldl remove_addr book.by_addr }

def update_most_recent (book : AddressBook) (updated : MetaAddr) : Except Abort AddressBook :=
  if book.should_update_most_recent_by_ip updated then do
    let most_recent_by_ip ← orAbort book.most_recent_by_ip
      (.expect "should be some when should_update_most_recent_by_ip is true")
    pure { book with most_recent_by_ip := some (most_recent_by_ip.insert updated.addr.ip updated) }
  else pure book

def remove_surplus_peer (book : AddressBook) : Except Abort AddressBook := do
  let surplus_peer ← orAbort book.peers.getLast? (.expect "just checked there is at least one peer")
  let book := { book with by_addr := remove_addr book.by_addr surplus_peer.addr }
  if book.should_remove_most_recent_by_ip surplus_peer.addr then do
    let most_recent_by_ip ← orAbort book.most_recent_by_ip
      (.expect "should be some when should_remove_most_recent_by_ip is true")
    pure { book with most_recent_by_ip := some (most_recent_by_ip.erase surplus_peer.addr.ip) }
  else pure book

/-- `while self.by_addr.len() > self.addr_limit`, at most `fuel` times. -/
def remove_surplus : Nat → AddressBook → Except Abort AddressBook
  | 0, _ => .error .outOfFuel
  | fuel + 1, book =>
    if book.addr_limit < book.by_addr.length then do
      let book ← book.remove_surplus_peer
      remove_surplus fuel book
    else pure book

/-- The end of `update`: the entry is stored. -/
def store (book : AddressBook) (updated : MetaAddr) (chrono_now : WallTime) : Except Abort AddressBook := do
  let book ← { book with by_addr := insert_addr book.by_addr updated }.update_most_recent updated
  let book ← remove_surplus (book.by_addr.length + 1) book
  if book.by_addr.length ≤ book.addr_limit then do
    let _ ← book.address_metrics_internal chrono_now
    pure book
  else .error (.assert "self.len() <= self.addr_limit")

def update (p : Profile) (book : AddressBook) (clocks : Clocks) (change : MetaAddrChange) :
    Except Abort (Option MetaAddr × AddressBook) :=
  if book.is_banned change.addr.ip then pure (none, book)
  else do
    let (previous, book) := book.get change.addr
    let updated ← change.apply_to_meta_addr p previous clocks.instant_now clocks.chrono_now
    match updated with
    | none => pure (none, book)
    | some updated =>
      if MAX_PEER_MISBEHAVIOR_SCORE ≤ updated.misbehavior_score then do
        let book ← book.ban updated.addr.ip clocks.banned_at
        pure (none, book)
      else if !updated.address_is_valid_for_outbound book.network then pure (none, book)
      else if !updated.last_known_info_is_valid_for_outbound book.network &&
          updated.last_connection_state.is_never_attempted then pure (none, book)
      else do
        let book ← book.store updated clocks.chrono_now
        pure (some updated, book)

/-! ## Reading the book -/

def is_ready_for_connection_attempt_with_ip (book : AddressBook) (ip : IpAddr) (chrono_now : WallTime) :
    Except Abort Bool :=
  match book.most_recent_by_ip with
  | none => pure true
  | some most_recent_by_ip =>
    match most_recent_by_ip.lookup ip with
    | none => pure true
    | some same_ip_peer => do pure (!(← same_ip_peer.has_connection_recently_responded chrono_now))

def reconnection_peers (book : AddressBook) (instant_now : Instant) (chrono_now : WallTime) :
    Except Abort (List MetaAddr) :=
  filterM' (fun peer => do
    if ← peer.is_ready_for_connection_attempt instant_now chrono_now book.network then
      book.is_ready_for_connection_attempt_with_ip peer.addr.ip chrono_now
    else pure false) book.by_addr

def local_listener_meta_addr (book : AddressBook) (now : WallTime) : Except Abort MetaAddr := do
  let now ← orAbort (DateTime32.try_from now) (.expect "will succeed until 2038")
  (MetaAddrChange.NewLocal book.local_listener.canonical).local_listener_into_new_meta_addr now

/-- A map that drops some of the entries, and may panic. -/
def filterMapM' {α β : Type} (f : α → Except Abort (Option β)) : List α → Except Abort (List β)
  | [] => pure []
  | a :: rest => do
    let b ← f a
    let rest ← filterMapM' f rest
    pure (b.toList ++ rest)

variable (shuffle : List MetaAddr → List MetaAddr)

/-- `shuffle` is the order that is drawn at random. -/
def sanitized (book : AddressBook) (now : WallTime) : Except Abort (List MetaAddr) := do
  let local_listener ← book.local_listener_meta_addr now
  let peers ← filterMapM' (·.sanitize book.network) (insert_addr book.by_addr local_listener)
  let peers ← filterM' (·.is_active_for_gossip now) peers
  pure (shuffle peers)

def fresh_get_addr_response (book : AddressBook) (now : WallTime) :
    Except Abort (List MetaAddr) := do
  let peers ← book.sanitized shuffle now
  let address_limit := (peers.length + ADDR_RESPONSE_LIMIT_DENOMINATOR - 1) / ADDR_RESPONSE_LIMIT_DENOMINATOR
  pure (peers.take (min MAX_ADDRS_IN_MESSAGE address_limit))

end AddressBook

end ZebraCrosslink
