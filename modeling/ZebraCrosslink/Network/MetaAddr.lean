import Mathlib
import ZebraCrosslink.Chain.Network
import ZebraCrosslink.Rust.Bytes

/-!
# Peer addresses and their changes

Each `MetaAddrChange` is applied to the entry it finds. An `Instant` counts nanoseconds, a wall
clock time is a number of seconds that may lie outside of the range of a `DateTime32`.
-/

open Rust

namespace ZebraCrosslink

/-! ## Socket addresses -/

inductive IpAddr
  | V4 (octets : Bytes 4)
  | V6 (octets : Bytes 16)
  deriving DecidableEq

inductive PeerSocketAddr
  | V4 (ip : Bytes 4) (port : UInt16)
  | V6 (ip : Bytes 16) (port : UInt16) (flowinfo scope_id : UInt32)
  deriving DecidableEq

/-- An IPv4-mapped address starts with ten zeros and two bytes `ff`. -/
def to_ipv4_mapped (v6_addr : Bytes 16) : Option (Bytes 4) :=
  if v6_addr.val.take 12 = List.replicate 10 0 ++ [0xff, 0xff] then some (v6_addr.slice 12 4 (by decide))
  else none

def canonical_ip_addr (v6_addr : Bytes 16) : IpAddr :=
  match to_ipv4_mapped v6_addr with
  | some v4 => .V4 v4
  | none => .V6 v6_addr

namespace IpAddr

def is_unspecified : IpAddr → Bool
  | V4 octets => octets = Bytes.zero 4
  | V6 octets => octets = Bytes.zero 16

def with_port (port : UInt16) : IpAddr → PeerSocketAddr
  | V4 octets => .V4 octets port
  | V6 octets => .V6 octets port 0 0

def cmp : IpAddr → IpAddr → Ordering
  | V4 a, V4 b => compare a.toNat b.toNat
  | V6 a, V6 b => compare a.toNat b.toNat
  | V4 _, V6 _ => .lt
  | V6 _, V4 _ => .gt

end IpAddr

namespace PeerSocketAddr

def ip : PeerSocketAddr → IpAddr
  | V4 ip _ => .V4 ip
  | V6 ip .. => .V6 ip

def port : PeerSocketAddr → UInt16
  | V4 _ port => port
  | V6 _ port .. => port

/-- `canonical_peer_addr`: mapped addresses become IPv4, and the scope and flow are dropped. -/
def canonical : PeerSocketAddr → PeerSocketAddr
  | V4 ip port => V4 ip port
  | V6 ip port .. => (canonical_ip_addr ip).with_port port

end PeerSocketAddr

def Network.default_port : Network → UInt16
  | Mainnet => 8233
  | Testnet _ => 18233

def address_is_valid_for_inbound_listeners (listener_addr : PeerSocketAddr) (network : Option Network) :
    Except String Unit :=
  let port := listener_addr.port
  let others : Except String Unit :=
    if port = 18344 then
      .error "invalid peer port: port is for Regtest, but Zebra does not support that network"
    else if port ∈ [8033, 18033, 16125, 26125] then
      .error "invalid peer port: port is for a non-Zcash coin"
    else .ok ()
  match network with
  | some network =>
    if port = network.default_port then .ok ()
    else if port = 8232 then
      .error "invalid peer port: port is for Mainnet, but this node is configured for Testnet"
    else if port = 18232 then
      .error "invalid peer port: port is for Testnet, but this node is configured for Mainnet"
    else others
  | none => others

variable (peer_addr : PeerSocketAddr)

def address_is_valid_for_outbound_connections (network : Option Network) : Except String Unit :=
  if peer_addr.ip.is_unspecified then
    .error ("invalid peer IP address: unspecified addresses can not be used for outbound " ++
      "connections")
  else if peer_addr.port = 0 then
    .error "invalid peer port: unspecified ports can not be used for outbound connections"
  else address_is_valid_for_inbound_listeners peer_addr network

inductive AttributePreference
  | Preferred
  | Acceptable
  deriving DecidableEq

namespace AttributePreference

def preferred_from (is_preferred : Bool) : AttributePreference :=
  if is_preferred then Preferred else Acceptable

def cmp : AttributePreference → AttributePreference → Ordering
  | Preferred, Acceptable => .lt
  | Acceptable, Preferred => .gt
  | _, _ => .eq

end AttributePreference

def PeerPreference.new (network : Option Network) : Except String AttributePreference := do
  address_is_valid_for_outbound_connections peer_addr network
  pure (.preferred_from (peer_addr.port ∈ [8232, 18232]))

def resultCmp {α : Type} (cmp : α → α → Ordering) : Except String α → Except String α → Ordering
  | .ok a, .ok b => cmp a b
  | .ok _, .error _ => .lt
  | .error _, .ok _ => .gt
  | .error a, .error b => compare a b

def optionCmp {α : Type} (cmp : α → α → Ordering) : Option α → Option α → Ordering
  | none, none => .eq
  | none, some _ => .lt
  | some _, none => .gt
  | some a, some b => cmp a b

/-! ## Times -/

abbrev DateTime32 : Type := UInt32

/-- `chrono::DateTime<Utc>`, in seconds since the UNIX epoch. -/
abbrev WallTime : Type := Int

abbrev Instant : Type := Nat

def SECOND : Nat := 10 ^ 9

namespace DateTime32

def try_from (now : WallTime) : Option DateTime32 :=
  if 0 ≤ now ∧ now < 2 ^ 32 then some (UInt32.ofNat now.toNat) else none

def saturating_duration_since (t earlier : DateTime32) : Nat := t.toNat - earlier.toNat

def saturating_elapsed (t : DateTime32) (now : WallTime) : Except Abort Nat := do
  let now ← orAbort (try_from now) (.expect "unexpected out of range chrono::DateTime")
  pure (saturating_duration_since now t)

end DateTime32

def CONCURRENT_ADDRESS_CHANGE_PERIOD : Nat := 5

def MIN_PEER_RECONNECTION_DELAY : Nat := 59 + 20 + 20 + 20

def MAX_PEER_ACTIVE_FOR_GOSSIP : Nat := 3 * 60 * 60

def MAX_RECENT_PEER_AGE : Nat := 3 * 24 * 60 * 60

def TIMESTAMP_TRUNCATION_SECONDS : Nat := 30 * 60

/-! ## Entries -/

abbrev PeerServices : Type := UInt64

def PeerServices.NODE_NETWORK : PeerServices := 1

inductive PeerAddrState
  | Responded
  | NeverAttemptedGossiped
  | Failed
  | AttemptPending
  deriving DecidableEq

namespace PeerAddrState

def is_never_attempted : PeerAddrState → Bool
  | NeverAttemptedGossiped => true
  | AttemptPending | Responded | Failed => false

def connection_state_order : PeerAddrState → PeerAddrState → Ordering
  | NeverAttemptedGossiped, NeverAttemptedGossiped => .eq
  | AttemptPending, AttemptPending => .eq
  | Responded, Responded => .eq
  | Failed, Failed => .eq
  | NeverAttemptedGossiped, _ => .lt
  | _, NeverAttemptedGossiped => .gt
  | AttemptPending, _ => .lt
  | _, AttemptPending => .gt
  | Responded, _ => .lt
  | _, Responded => .gt

def cmp : PeerAddrState → PeerAddrState → Ordering
  | Responded, Responded => .eq
  | NeverAttemptedGossiped, NeverAttemptedGossiped => .eq
  | Failed, Failed => .eq
  | AttemptPending, AttemptPending => .eq
  | Responded, _ => .lt
  | _, Responded => .gt
  | NeverAttemptedGossiped, _ => .lt
  | _, NeverAttemptedGossiped => .gt
  | Failed, _ => .lt
  | _, Failed => .gt

end PeerAddrState

structure MetaAddr where
  addr : PeerSocketAddr
  services : Option PeerServices
  untrusted_last_seen : Option DateTime32
  last_response : Option DateTime32
  last_attempt : Option Instant
  last_failure : Option Instant
  misbehavior_score : Nat
  last_connection_state : PeerAddrState
  is_inbound : Bool
  deriving DecidableEq

namespace MetaAddr

variable (m : MetaAddr) (now : WallTime) (network : Network)

def peer_preference : Except String AttributePreference := PeerPreference.new m.addr none

/-- `Ord::cmp`: the order of reconnection attempts, best first. -/
def cmp (a b : MetaAddr) : Ordering :=
  (a.last_connection_state.cmp b.last_connection_state).then <|
  (resultCmp AttributePreference.cmp a.peer_preference b.peer_preference).then <|
  (optionCmp compare a.last_attempt b.last_attempt).then <|
  (optionCmp compare a.last_failure b.last_failure).then <|
  (optionCmp compare a.last_response b.last_response).then <|
  (optionCmp compare a.untrusted_last_seen b.untrusted_last_seen).swap.then <|
  (optionCmp compare a.services b.services).then <|
  (a.addr.ip.cmp b.addr.ip).then <|
  compare a.addr.port b.addr.port

def last_seen : Option DateTime32 := m.last_response.or m.untrusted_last_seen

def has_connection_recently_responded : Except Abort Bool :=
  match m.last_response with
  | some last_response => do
    pure ((← last_response.saturating_elapsed now) ≤ MIN_PEER_RECONNECTION_DELAY)
  | none => pure false

def recently (t : Option Instant) (now : Instant) : Bool :=
  match t with
  | some t => now - t ≤ MIN_PEER_RECONNECTION_DELAY * SECOND
  | none => false

def was_connection_recently_attempted (now : Instant) : Bool := recently m.last_attempt now

def has_connection_recently_failed (now : Instant) : Bool := recently m.last_failure now

def was_recently_live : Except Abort Bool :=
  if m.last_connection_state = .Responded then m.has_connection_recently_responded now else pure false

def is_active_for_gossip : Except Abort Bool :=
  match m.last_seen with
  | some last_seen => do pure ((← last_seen.saturating_elapsed now) ≤ MAX_PEER_ACTIVE_FOR_GOSSIP)
  | none => pure false

def was_recently_updated (instant_now : Instant) (chrono_now : WallTime) : Except Abort Bool := do
  if ← m.has_connection_recently_responded chrono_now then pure true
  else pure (m.was_connection_recently_attempted instant_now || m.has_connection_recently_failed instant_now)

def address_is_valid_for_outbound : Bool :=
  (address_is_valid_for_outbound_connections m.addr (some network)).isOk

def last_known_info_is_valid_for_outbound : Bool :=
  let is_node := match m.services with
    | some services => services &&& PeerServices.NODE_NETWORK = PeerServices.NODE_NETWORK
    | none => true
  is_node && m.address_is_valid_for_outbound network

def last_seen_is_recent : Except Abort Bool :=
  match m.last_seen with
  | some last_seen => do pure ((← last_seen.saturating_elapsed now) ≤ MAX_RECENT_PEER_AGE)
  | none => pure false

def is_probably_reachable : Except Abort Bool :=
  if m.last_connection_state ≠ .Failed then pure true else m.last_seen_is_recent now

def is_ready_for_connection_attempt (instant_now : Instant) (chrono_now : WallTime)
    (network : Network) : Except Abort Bool := do
  if !m.last_known_info_is_valid_for_outbound network then pure false
  else if ← m.was_recently_updated instant_now chrono_now then pure false
  else m.is_probably_reachable chrono_now

def sanitize : Except Abort (Option MetaAddr) :=
  if !m.last_known_info_is_valid_for_outbound network then pure none
  else if m.misbehavior_score ≠ 0 ∨ m.is_inbound then pure none
  else match m.last_seen with
  | none => pure none
  | some last_seen => do
    let remainder := last_seen.toNat % TIMESTAMP_TRUNCATION_SECONDS
    let last_seen ← orAbort (if remainder ≤ last_seen.toNat then
        some (UInt32.ofNat (last_seen.toNat - remainder)) else none)
      (.expect "unexpected underflow: rem_euclid is strictly less than timestamp")
    pure (some {
      addr := m.addr.canonical
      services := m.services.or (some PeerServices.NODE_NETWORK)
      untrusted_last_seen := some last_seen
      last_response := none
      last_attempt := none
      last_failure := none
      last_connection_state := .NeverAttemptedGossiped
      misbehavior_score := 0
      is_inbound := false })

end MetaAddr

/-! ## Changes -/

inductive MetaAddrChange
  | NewInitial (addr : PeerSocketAddr)
  | NewGossiped (addr : PeerSocketAddr) (untrusted_services : PeerServices)
    (untrusted_last_seen : DateTime32)
  | NewLocal (addr : PeerSocketAddr)
  | UpdateAttempt (addr : PeerSocketAddr)
  | UpdateConnected (addr : PeerSocketAddr) (services : PeerServices) (is_inbound : Bool)
  | UpdateResponded (addr : PeerSocketAddr)
  | UpdateFailed (addr : PeerSocketAddr) (services : Option PeerServices)
  | UpdateMisbehavior (addr : PeerSocketAddr) (score_increment : UInt32)

namespace MetaAddrChange

def addr : MetaAddrChange → PeerSocketAddr
  | NewInitial addr => addr
  | NewGossiped addr .. => addr
  | NewLocal addr => addr
  | UpdateAttempt addr => addr
  | UpdateConnected addr .. => addr
  | UpdateResponded addr => addr
  | UpdateFailed addr _ => addr
  | UpdateMisbehavior addr _ => addr

def untrusted_services : MetaAddrChange → Option PeerServices
  | NewGossiped _ untrusted_services _ => some untrusted_services
  | NewLocal _ => some PeerServices.NODE_NETWORK
  | UpdateConnected _ services _ => some services
  | UpdateFailed _ services => services
  | NewInitial _ | UpdateAttempt _ | UpdateResponded _ | UpdateMisbehavior .. => none

def untrusted_last_seen (now : DateTime32) : MetaAddrChange → Option DateTime32
  | NewGossiped _ _ untrusted_last_seen => some untrusted_last_seen
  | NewLocal _ => some now
  | NewInitial _ | UpdateAttempt _ | UpdateConnected .. | UpdateResponded _ | UpdateFailed ..
  | UpdateMisbehavior .. => none

def last_attempt (now : Instant) : MetaAddrChange → Option Instant
  | UpdateAttempt _ => some now
  | NewInitial _ | NewGossiped .. | NewLocal _ | UpdateConnected .. | UpdateResponded _ | UpdateFailed ..
  | UpdateMisbehavior .. => none

def last_response (now : DateTime32) : MetaAddrChange → Option DateTime32
  | UpdateConnected .. | UpdateResponded _ => some now
  | NewInitial _ | NewGossiped .. | NewLocal _ | UpdateAttempt _ | UpdateFailed ..
  | UpdateMisbehavior .. => none

def last_failure (now : Instant) : MetaAddrChange → Option Instant
  | UpdateFailed .. | UpdateMisbehavior .. => some now
  | NewInitial _ | NewGossiped .. | NewLocal _ | UpdateAttempt _ | UpdateConnected ..
  | UpdateResponded _ => none

def peer_addr_state : MetaAddrChange → PeerAddrState
  | NewInitial _ | NewGossiped .. | NewLocal _ => .NeverAttemptedGossiped
  | UpdateAttempt _ => .AttemptPending
  | UpdateConnected .. | UpdateResponded _ | UpdateMisbehavior .. => .Responded
  | UpdateFailed .. => .Failed

def misbehavior_score : MetaAddrChange → Nat
  | UpdateMisbehavior _ score_increment => score_increment.toNat
  | _ => 0

def is_inbound : MetaAddrChange → Bool
  | UpdateConnected _ _ is_inbound => is_inbound
  | _ => false

variable (change : MetaAddrChange) (previous : MetaAddr)

def into_new_meta_addr (instant_now : Instant) (local_now : DateTime32) : MetaAddr where
  addr := change.addr
  services := change.untrusted_services
  untrusted_last_seen := change.untrusted_last_seen local_now
  last_response := change.last_response local_now
  last_attempt := change.last_attempt instant_now
  last_failure := change.last_failure instant_now
  last_connection_state := change.peer_addr_state
  misbehavior_score := change.misbehavior_score
  is_inbound := change.is_inbound

def local_listener_into_new_meta_addr (local_now : DateTime32) : Except Abort MetaAddr :=
  match change with
  | NewLocal _ => pure {
      addr := change.addr
      services := change.untrusted_services
      untrusted_last_seen := change.untrusted_last_seen local_now
      last_response := change.last_response local_now
      last_attempt := none
      last_failure := none
      last_connection_state := change.peer_addr_state
      misbehavior_score := change.misbehavior_score
      is_inbound := change.is_inbound }
  | _ => .error (.assert "matches!(self, MetaAddrChange::NewLocal \x7b .. \x7d)")

def maxTime : Option Instant → Option Instant → Option Instant
  | some a, some b => some (max a b)
  | some a, none => some a
  | none, b => b

def change_is_concurrent (instant_now : Instant) (local_now : DateTime32) : Bool :=
  (match maxTime previous.last_attempt previous.last_failure with
    | some t =>
      decide (t - instant_now < CONCURRENT_ADDRESS_CHANGE_PERIOD * SECOND) &&
        decide (instant_now - t < CONCURRENT_ADDRESS_CHANGE_PERIOD * SECOND)
    | none => false) ||
  (match previous.last_response with
    | some t =>
      decide (DateTime32.saturating_duration_since t local_now < CONCURRENT_ADDRESS_CHANGE_PERIOD) &&
        decide (DateTime32.saturating_duration_since local_now t < CONCURRENT_ADDRESS_CHANGE_PERIOD)
    | none => false)

def change_is_out_of_order (instant_now : Instant) (local_now : DateTime32) : Bool :=
  (match maxTime previous.last_attempt previous.last_failure with
    | some t => decide (instant_now < t)
    | none => false) ||
  (match previous.last_response with
    | some t => decide (local_now < t)
    | none => false)

def is_invalid (instant_now : Instant) (local_now : DateTime32) : Bool :=
  let connection_has_more_progress :=
    change.peer_addr_state.connection_state_order previous.last_connection_state = .gt
  let previous_has_been_attempted := !previous.last_connection_state.is_never_attempted
  let change_to_never_attempted := change.peer_addr_state.is_never_attempted
  let is_misbehavior_update := change.misbehavior_score ≠ 0
  let concurrent := change_is_concurrent previous instant_now local_now
  (change_to_never_attempted && previous_has_been_attempted && !is_misbehavior_update) ||
    (change_is_out_of_order previous instant_now local_now && !concurrent && !is_misbehavior_update) ||
    (concurrent && !connection_has_more_progress && !is_misbehavior_update)

def merge (p : Profile) (change : MetaAddrChange) (previous : MetaAddr) (instant_now : Instant)
    (local_now : DateTime32) : Except Abort MetaAddr := do
  let misbehavior_score ← addU32 p previous.misbehavior_score change.misbehavior_score
  let is_inbound := previous.is_inbound || change.is_inbound
  if change.peer_addr_state.is_never_attempted && previous.last_connection_state.is_never_attempted then
    pure {
      addr := change.addr
      services := previous.services.or change.untrusted_services
      untrusted_last_seen := previous.untrusted_last_seen.or (change.untrusted_last_seen local_now)
      last_response := none
      last_attempt := none
      last_failure := none
      last_connection_state := change.peer_addr_state
      misbehavior_score, is_inbound }
  else
    pure {
      addr := change.addr
      services := change.untrusted_services.or previous.services
      untrusted_last_seen := previous.untrusted_last_seen
      last_response := (change.last_response local_now).or previous.last_response
      last_attempt := (change.last_attempt instant_now).or previous.last_attempt
      last_failure := (change.last_failure instant_now).or previous.last_failure
      last_connection_state := change.peer_addr_state
      misbehavior_score, is_inbound }

def apply_to_meta_addr (p : Profile) (change : MetaAddrChange) (previous : Option MetaAddr)
    (instant_now : Instant) (chrono_now : WallTime) : Except Abort (Option MetaAddr) := do
  let local_now ← orAbort (DateTime32.try_from chrono_now) (.expect "will succeed until 2038")
  match previous with
  | none => pure (some (change.into_new_meta_addr instant_now local_now))
  | some previous =>
    if previous.addr ≠ change.addr then .error (.assert "unexpected addr mismatch")
    else if change.is_invalid previous instant_now local_now then pure none
    else do
      let updated ← change.merge p previous instant_now local_now
      pure (some updated)

end MetaAddrChange

/-! ## The order of the entries -/

section Order

open Std

variable {α β : Type} {cmp : β → β → Ordering}

theorem transCmp_on (cmp : β → β → Ordering) [TransCmp cmp] (f : α → β) :
    TransCmp fun a b => cmp (f a) (f b) where
  eq_swap := OrientedCmp.eq_swap
  isLE_trans := TransCmp.isLE_trans

instance transCmp_resultCmp [TransCmp cmp] : TransCmp (resultCmp cmp) where
  eq_swap {a b} := by
    cases a <;> cases b <;> simp [resultCmp]
    · exact OrientedCmp.eq_swap
    · exact OrientedCmp.eq_swap
  isLE_trans {a b c} := by
    cases a <;> cases b <;> cases c <;> simp [resultCmp] <;> exact TransCmp.isLE_trans

instance transCmp_optionCmp [TransCmp cmp] : TransCmp (optionCmp cmp) where
  eq_swap {a b} := by
    cases a <;> cases b <;> simp [optionCmp]
    exact OrientedCmp.eq_swap
  isLE_trans {a b c} := by
    cases a <;> cases b <;> cases c <;> simp [optionCmp]
    exact TransCmp.isLE_trans

instance : TransCmp AttributePreference.cmp where
  eq_swap {a b} := by cases a <;> cases b <;> rfl
  isLE_trans {a b c} := by cases a <;> cases b <;> cases c <;> decide

instance : TransCmp PeerAddrState.cmp where
  eq_swap {a b} := by cases a <;> cases b <;> rfl
  isLE_trans {a b c} := by cases a <;> cases b <;> cases c <;> decide

instance : TransCmp IpAddr.cmp where
  eq_swap {a b} := by
    cases a <;> cases b <;> simp [IpAddr.cmp]
    · exact OrientedCmp.eq_swap
    · exact OrientedCmp.eq_swap
  isLE_trans {a b c} := by
    cases a <;> cases b <;> cases c <;> simp [IpAddr.cmp] <;> exact TransCmp.isLE_trans

theorem transCmp_swap (cmp : β → β → Ordering) [TransCmp cmp] : TransCmp fun a b => (cmp a b).swap := by
  have heq : (fun a b => (cmp a b).swap) = fun a b => cmp b a :=
    funext₂ fun a b => (OrientedCmp.eq_swap (a := b) (b := a)).symm
  rw [heq]
  infer_instance

instance : TransCmp MetaAddr.cmp := by
  have hstate := transCmp_on PeerAddrState.cmp MetaAddr.last_connection_state
  have hvalid := transCmp_on (resultCmp AttributePreference.cmp) MetaAddr.peer_preference
  have hattempt := transCmp_on (optionCmp compare) MetaAddr.last_attempt
  have hfailure := transCmp_on (optionCmp compare) MetaAddr.last_failure
  have hresponse := transCmp_on (optionCmp compare) MetaAddr.last_response
  have hswap := transCmp_swap (optionCmp (compare : DateTime32 → DateTime32 → Ordering))
  have hseen := transCmp_on (fun a b => (optionCmp compare a b).swap) MetaAddr.untrusted_last_seen
  have hservices := transCmp_on (optionCmp compare) MetaAddr.services
  have hip := transCmp_on IpAddr.cmp fun m : MetaAddr => m.addr.ip
  have hport := transCmp_on compare fun m : MetaAddr => m.addr.port
  exact inferInstanceAs (TransCmp (compareLex _ (compareLex _ (compareLex _ (compareLex _ (compareLex _
    (compareLex _ (compareLex _ (compareLex _ _)))))))))

theorem IpAddr.eq_of_cmp {a b : IpAddr} (h : a.cmp b = .eq) : a = b := by
  cases a <;> cases b <;> simp [IpAddr.cmp] at h
  · rw [Bytes.eq_of_toNat h]
  · rw [Bytes.eq_of_toNat h]

theorem PeerSocketAddr.eq_with_port {a : PeerSocketAddr} (h : a.canonical = a) :
    a = a.ip.with_port a.port := by
  cases a with
  | V4 ip port => rfl
  | V6 ip port flowinfo scope_id =>
    simp only [canonical, canonical_ip_addr] at h
    split at h
    · cases h
    · exact h.symm

theorem MetaAddr.addr_eq_of_cmp {a b : MetaAddr} (ha : a.addr.canonical = a.addr)
    (hb : b.addr.canonical = b.addr) (h : a.cmp b = .eq) : a.addr = b.addr := by
  simp only [MetaAddr.cmp, Ordering.then_eq_eq, Std.compare_eq_iff_eq] at h
  obtain ⟨-, -, -, -, -, -, -, hip, hport⟩ := h
  rw [PeerSocketAddr.eq_with_port ha, PeerSocketAddr.eq_with_port hb, IpAddr.eq_of_cmp hip, hport]

end Order

end ZebraCrosslink
