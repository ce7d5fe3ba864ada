import ZebraCrosslink.Chain.Transaction
import ZebraCrosslink.Rust.Map
import ZebraCrosslink.Rust.Signed

/-!
# Networks

The upgrades of a network with their activation heights, and the parameters for the block subsidy.
-/

open Rust List

namespace ZebraCrosslink

/-! ## Network upgrades -/

inductive NetworkUpgrade
  | Genesis
  | BeforeOverwinter
  | Overwinter
  | Sapling
  | Blossom
  | Heartwood
  | Canopy
  | Nu5
  | Nu6
  | Nu6_1
  | Nu7
  deriving DecidableEq, Repr

def Height.MAX : Nat := 2 ^ 31 - 1

namespace NetworkUpgrade

def rank : NetworkUpgrade → Nat
  | Genesis => 0
  | BeforeOverwinter => 1
  | Overwinter => 2
  | Sapling => 3
  | Blossom => 4
  | Heartwood => 5
  | Canopy => 6
  | Nu5 => 7
  | Nu6 => 8
  | Nu6_1 => 9
  | Nu7 => 10

instance : LT NetworkUpgrade := ⟨fun a b => a.rank < b.rank⟩

instance (a b : NetworkUpgrade) : Decidable (a < b) := inferInstanceAs (Decidable (a.rank < b.rank))

/-- `NETWORK_UPGRADES_IN_ORDER`, which has `Nu7` in test builds only. -/
def iter : List NetworkUpgrade :=
  [Genesis, BeforeOverwinter, Overwinter, Sapling, Blossom, Heartwood, Canopy, Nu5, Nu6, Nu6_1]

/-- The upgrade and those that `next_upgrade` goes to after it. -/
def and_later (nu : NetworkUpgrade) : List NetworkUpgrade :=
  nu :: (iter.dropWhile fun other => nu ≠ other).tail

end NetworkUpgrade

abbrev ActivationHeights : Type := Map Nat NetworkUpgrade

namespace ActivationHeights

def collect (heights : List (Nat × NetworkUpgrade)) : ActivationHeights :=
  heights.foldl (fun m e => m.insert e.1 e.2) ∅

def firstOf (activation_list : ActivationHeights) : List NetworkUpgrade → Option Nat
  | [] => none
  | nu :: later =>
    match activation_list.find fun other => other = nu with
    | some (height, _) => some height
    | none => firstOf activation_list later

def activation_height (activation_list : ActivationHeights) (nu : NetworkUpgrade) : Option Nat :=
  activation_list.firstOf nu.and_later

def current (activation_list : ActivationHeights) (height : Nat) : Except Abort NetworkUpgrade := do
  let (_, nu) ← orAbort (activation_list.lastUpTo height)
    (.expect "every height has a current network upgrade")
  pure nu

variable {height : Nat} {activation_list : ActivationHeights}

theorem firstOf_lookup {upgrades : List NetworkUpgrade}
    (h : activation_list.firstOf upgrades = some height) :
    ∃ nu ∈ upgrades, activation_list.lookup height = some nu := by
  induction upgrades with
  | nil => cases h
  | cons nu later ih =>
    unfold firstOf at h
    split at h
    · next hfind =>
      cases h
      obtain ⟨hlookup, hother, -⟩ := Map.find_eq_some.mp hfind
      exact ⟨_, mem_cons.mpr (.inl (of_decide_eq_true hother)), hlookup⟩
    · obtain ⟨nu', hmem, hlookup⟩ := ih h
      exact ⟨nu', mem_cons_of_mem _ hmem, hlookup⟩

theorem exists_current {nu : NetworkUpgrade}
    {activation : Nat} (h : activation_list.activation_height nu = some activation)
    (hle : activation ≤ height) : ∃ nu, activation_list.current height = .ok nu := by
  obtain ⟨_, -, hlookup⟩ := firstOf_lookup h
  obtain ⟨⟨_, nu⟩, hlast⟩ := Map.exists_lastUpTo (Finmap.mem_of_lookup_eq_some hlookup) hle
  exact ⟨nu, by rw [current, hlast]; rfl⟩

end ActivationHeights

def MAINNET_ACTIVATION_HEIGHTS : List (Nat × NetworkUpgrade) :=
  [(0, .Genesis), (1, .BeforeOverwinter), (347500, .Overwinter), (419200, .Sapling),
    (653600, .Blossom), (903000, .Heartwood), (1046400, .Canopy), (1687104, .Nu5), (2726400, .Nu6)]

def NU6_1_ACTIVATION_HEIGHT_TESTNET : Nat := 3536500

def TESTNET_ACTIVATION_HEIGHTS : List (Nat × NetworkUpgrade) := [(0, .Genesis), (1, .Nu6)]

/-! ## Transparent addresses -/

inductive NetworkKind
  | Mainnet
  | Testnet
  | Regtest
  deriving DecidableEq

inductive TransparentAddress
  | PayToScriptHash (network_kind : NetworkKind) (script_hash : Bytes 20)
  | PayToPublicKeyHash (network_kind : NetworkKind) (pub_key_hash : Bytes 20)
  | Tex (network_kind : NetworkKind) (validating_key_hash : Bytes 20)
  deriving DecidableEq

abbrev Script : Type := List UInt8

namespace TransparentAddress

def network_kind : TransparentAddress → NetworkKind
  | PayToScriptHash kind _ | PayToPublicKeyHash kind _ | Tex kind _ => kind

def is_script_hash : TransparentAddress → Bool
  | PayToScriptHash _ _ => true
  | _ => false

def script : TransparentAddress → Script
  | PayToScriptHash _ hash => [0xa9, 0x14] ++ hash.val ++ [0x87]
  | PayToPublicKeyHash _ hash => [0x76, 0xa9, 0x14] ++ hash.val ++ [0x88, 0xac]
  | Tex _ _ => []

end TransparentAddress

/-- What is decided outside of the repository about texts: the Base58Check and Bech32 encodings, and
which characters are alphanumeric. -/
structure Formats where
  parse : String → Option TransparentAddress
  is_alphanumeric : Char → Bool

/-! ## Funding streams -/

inductive FundingStreamReceiver
  | Ecc
  | ZcashFoundation
  | MajorGrants
  | Deferred
  deriving DecidableEq

/-- The order in which a `HashMap` with receivers as keys is iterated. -/
structure HashOrder where
  receivers : List FundingStreamReceiver
  nodup : receivers.Nodup
  all : ∀ receiver, receiver ∈ receivers

def HashOrder.entries {α : Type} (order : HashOrder) (m : Map FundingStreamReceiver α) :
    List (FundingStreamReceiver × α) :=
  order.receivers.filterMap fun receiver => (m.lookup receiver).map fun a => (receiver, a)

namespace HashOrder

variable {α β : Type} (order : HashOrder) {m : Map FundingStreamReceiver α}
  {l : List (FundingStreamReceiver × α)}

def declared : HashOrder where
  receivers := [.Ecc, .ZcashFoundation, .MajorGrants, .Deferred]
  nodup := by decide
  all := by
    intro receiver
    cases receiver <;> decide

theorem entries_perm (order' : HashOrder) (m : Map FundingStreamReceiver α) :
    (order.entries m).Perm (order'.entries m) :=
  ((perm_ext_iff_of_nodup order.nodup order'.nodup).mpr fun receiver =>
    ⟨fun _ => order'.all receiver, fun _ => order.all receiver⟩).filterMap _

theorem mem_entries {order : HashOrder} {receiver : FundingStreamReceiver} {a : α} :
    (receiver, a) ∈ order.entries m ↔ m.lookup receiver = some a := by
  simp only [entries, mem_filterMap, Option.map_eq_some_iff, Prod.mk.injEq]
  constructor
  · rintro ⟨receiver', -, a', hlookup, rfl, rfl⟩
    exact hlookup
  · intro hlookup
    exact ⟨receiver, order.all receiver, a, hlookup, rfl, rfl⟩

theorem entries_keys_nodup (m : Map FundingStreamReceiver α) :
    ((order.entries m).map (·.1)).Nodup := by
  rw [entries, map_filterMap]
  refine order.nodup.filterMap ?_
  intro receiver receiver' b hb hb'
  simp only [Option.map_map, Option.mem_def, Option.map_eq_some_iff, Function.comp_apply] at hb hb'
  obtain ⟨-, -, rfl⟩ := hb
  obtain ⟨-, -, rfl⟩ := hb'
  rfl

theorem map_entries {γ : Type} {m' : Map FundingStreamReceiver β} {f : α → γ} {g : β → γ}
    (h : ∀ receiver, (m.lookup receiver).map f = (m'.lookup receiver).map g) :
    (order.entries m).map (fun e => f e.2) = (order.entries m').map (fun e => g e.2) := by
  simp only [entries, map_filterMap, Option.map_map]
  exact filterMap_congr fun receiver _ => h receiver

/-- `collect` of a `HashMap`, where a later entry replaces an earlier one. -/
def collect (l : List (FundingStreamReceiver × α)) : Map FundingStreamReceiver α :=
  l.foldl (fun m e => m.insert e.1 e.2) ∅

theorem entries_collect_perm (hnodup : (l.map (·.1)).Nodup) :
    (order.entries (collect l)).Perm l := by
  refine (perm_ext_iff_of_nodup (Nodup.of_map _ (order.entries_keys_nodup _))
    (Nodup.of_map _ hnodup)).mpr ?_
  rintro ⟨receiver, a⟩
  have hone : ∀ x ∈ l, ∀ y ∈ l, x.1 = y.1 → x.2 = y.2 := fun x hx y hy h =>
    congrArg Prod.snd (inj_on_of_nodup_map hnodup hx hy h)
  rw [mem_entries]
  refine (Map.lookup_foldl_insert Prod.fst Prod.snd hone ∅ receiver a).trans ?_
  simp

end HashOrder

structure FundingStreamRecipient where
  numerator : UInt64
  addresses : List TransparentAddress
  deriving DecidableEq

/-- `height_range` is `start..stop`. -/
structure FundingStreams where
  start : Nat
  stop : Nat
  recipients : Map FundingStreamReceiver FundingStreamRecipient
  deriving DecidableEq

def FUNDING_STREAM_RECEIVER_DENOMINATOR : Nat := 100

variable (fmt : Formats)

def FundingStreamRecipient.new (numerator : UInt64) (addresses : List String) :
    Except Abort FundingStreamRecipient := do
  let addresses ← addresses.mapM fun addr =>
    orAbort (fmt.parse addr) (.expect "funding stream address must deserialize")
  pure { numerator, addresses }

namespace FundingStreams

def hardCoded (start stop : Nat)
    (recipients : List (FundingStreamReceiver × UInt64 × List String)) :
    Except Abort FundingStreams := do
  let recipients ← recipients.mapM fun (receiver, numerator, addresses) => do
    let recipient ← FundingStreamRecipient.new fmt numerator addresses
    pure (receiver, recipient)
  pure { start, stop, recipients := HashOrder.collect recipients }

end FundingStreams

open FundingStreams

def FUNDING_STREAM_ECC_ADDRESSES_MAINNET : List String := [
  "t3LmX1cxWPPPqL4TZHx42HU3U5ghbFjRiif", "t3Toxk1vJQ6UjWQ42tUJz2rV2feUWkpbTDs",
  "t3ZBdBe4iokmsjdhMuwkxEdqMCFN16YxKe6", "t3ZuaJziLM8xZ32rjDUzVjVtyYdDSz8GLWB",
  "t3bAtYWa4bi8VrtvqySxnbr5uqcG9czQGTZ", "t3dktADfb5Rmxncpe1HS5BRS5Gcj7MZWYBi",
  "t3hgskquvKKoCtvxw86yN7q8bzwRxNgUZmc", "t3R1VrLzwcxAZzkX4mX3KGbWpNsgtYtMntj",
  "t3ff6fhemqPMVujD3AQurxRxTdvS1pPSaa2", "t3cEUQFG3KYnFG6qYhPxSNgGi3HDjUPwC3J",
  "t3WR9F5U4QvUFqqx9zFmwT6xFqduqRRXnaa", "t3PYc1LWngrdUrJJbHkYPCKvJuvJjcm85Ch",
  "t3bgkjiUeatWNkhxY3cWyLbTxKksAfk561R", "t3Z5rrR8zahxUpZ8itmCKhMSfxiKjUp5Dk5",
  "t3PU1j7YW3fJ67jUbkGhSRto8qK2qXCUiW3", "t3S3yaT7EwNLaFZCamfsxxKwamQW2aRGEkh",
  "t3eutXKJ9tEaPSxZpmowhzKhPfJvmtwTEZK", "t3gbTb7brxLdVVghSPSd3ycGxzHbUpukeDm",
  "t3UCKW2LrHFqPMQFEbZn6FpjqnhAAbfpMYR", "t3NyHsrnYbqaySoQqEQRyTWkjvM2PLkU7Uu",
  "t3QEFL6acxuZwiXtW3YvV6njDVGjJ1qeaRo", "t3PdBRr2S1XTDzrV8bnZkXF3SJcrzHWe1wj",
  "t3ZWyRPpWRo23pKxTLtWsnfEKeq9T4XPxKM", "t3he6QytKCTydhpztykFsSsb9PmBT5JBZLi",
  "t3VWxWDsLb2TURNEP6tA1ZSeQzUmPKFNxRY", "t3NmWLvZkbciNAipauzsFRMxoZGqmtJksbz",
  "t3cKr4YxVPvPBG1mCvzaoTTdBNokohsRJ8n", "t3T3smGZn6BoSFXWWXa1RaoQdcyaFjMfuYK",
  "t3gkDUe9Gm4GGpjMk86TiJZqhztBVMiUSSA", "t3eretuBeBXFHe5jAqeSpUS1cpxVh51fAeb",
  "t3dN8g9zi2UGJdixGe9txeSxeofLS9t3yFQ", "t3S799pq9sYBFwccRecoTJ3SvQXRHPrHqvx",
  "t3fhYnv1S5dXwau7GED3c1XErzt4n4vDxmf", "t3cmE3vsBc5xfDJKXXZdpydCPSdZqt6AcNi",
  "t3h5fPdjJVHaH4HwynYDM5BB3J7uQaoUwKi", "t3Ma35c68BgRX8sdLDJ6WR1PCrKiWHG4Da9",
  "t3LokMKPL1J8rkJZvVpfuH7dLu6oUWqZKQK", "t3WFFGbEbhJWnASZxVLw2iTJBZfJGGX73mM",
  "t3L8GLEsUn4QHNaRYcX3EGyXmQ8kjpT1zTa", "t3PgfByBhaBSkH8uq4nYJ9ZBX4NhGCJBVYm",
  "t3WecsqKDhWXD4JAgBVcnaCC2itzyNZhJrv", "t3ZG9cSfopnsMQupKW5v9sTotjcP5P6RTbn",
  "t3hC1Ywb5zDwUYYV8LwhvF5rZ6m49jxXSG5", "t3VgMqDL15ZcyQDeqBsBW3W6rzfftrWP2yB",
  "t3LC94Y6BwLoDtBoK2NuewaEbnko1zvR9rm", "t3cWCUZJR3GtALaTcatrrpNJ3MGbMFVLRwQ",
  "t3YYF4rPLVxDcF9hHFsXyc5Yq1TFfbojCY6", "t3XHAGxRP2FNfhAjxGjxbrQPYtQQjc3RCQD"]

def FUNDING_STREAM_ECC_ADDRESSES_TESTNET : List String := [
  "t26ovBdKAJLtrvBsE2QGF4nqBkEuptuPFZz", "t26ovBdKAJLtrvBsE2QGF4nqBkEuptuPFZz",
  "t26ovBdKAJLtrvBsE2QGF4nqBkEuptuPFZz", "t26ovBdKAJLtrvBsE2QGF4nqBkEuptuPFZz",
  "t2NNHrgPpE388atmWSF4DxAb3xAoW5Yp45M", "t2VMN28itPyMeMHBEd9Z1hm6YLkQcGA1Wwe",
  "t2CHa1TtdfUV8UYhNm7oxbzRyfr8616BYh2", "t2F77xtr28U96Z2bC53ZEdTnQSUAyDuoa67",
  "t2ARrzhbgcpoVBDPivUuj6PzXzDkTBPqfcT", "t278aQ8XbvFR15mecRguiJDQQVRNnkU8kJw",
  "t2Dp1BGnZsrTXZoEWLyjHmg3EPvmwBnPDGB", "t2KzeqXgf4ju33hiSqCuKDb8iHjPCjMq9iL",
  "t2Nyxqv1BiWY1eUSiuxVw36oveawYuo18tr", "t2DKFk5JRsVoiuinK8Ti6eM4Yp7v8BbfTyH",
  "t2CUaBca4k1x36SC4q8Nc8eBoqkMpF3CaLg", "t296SiKL7L5wvFmEdMxVLz1oYgd6fTfcbZj",
  "t29fBCFbhgsjL3XYEZ1yk1TUh7eTusB6dPg", "t2FGofLJXa419A76Gpf5ncxQB4gQXiQMXjK",
  "t2ExfrnRVnRiXDvxerQ8nZbcUQvNvAJA6Qu", "t28JUffLp47eKPRHKvwSPzX27i9ow8LSXHx",
  "t2JXWPtrtyL861rFWMZVtm3yfgxAf4H7uPA", "t2QdgbJoWfYHgyvEDEZBjHmgkr9yNJff3Hi",
  "t2QW43nkco8r32ZGRN6iw6eSzyDjkMwCV3n", "t2DgYDXMJTYLwNcxighQ9RCgPxMVATRcUdC",
  "t2Bop7dg33HGZx3wunnQzi2R2ntfpjuti3M", "t2HVeEwovcLq9RstAbYkqngXNEsCe2vjJh9",
  "t2HxbP5keQSx7p592zWQ5bJ5GrMmGDsV2Xa", "t2TJzUg2matao3mztBRJoWnJY6ekUau6tPD",
  "t29pMzxmo6wod25YhswcjKv3AFRNiBZHuhj", "t2QBQMRiJKYjshJpE6RhbF7GLo51yE6d4wZ",
  "t2F5RqnqguzZeiLtYHFx4yYfy6pDnut7tw5", "t2CHvyZANE7XCtg8AhZnrcHCC7Ys1jJhK13",
  "t2BRzpMdrGWZJ2upsaNQv6fSbkbTy7EitLo", "t2BFixHGQMAWDY67LyTN514xRAB94iEjXp3",
  "t2Uvz1iVPzBEWfQBH1p7NZJsFhD74tKaG8V", "t2CmFDj5q6rJSRZeHf1SdrowinyMNcj438n",
  "t2ErNvWEReTfPDBaNizjMPVssz66aVZh1hZ", "t2GeJQ8wBUiHKDVzVM5ZtKfY5reCg7CnASs",
  "t2L2eFtkKv1G6j55kLytKXTGuir4raAy3yr", "t2EK2b87dpPazb7VvmEGc8iR6SJ289RywGL",
  "t2DJ7RKeZJxdA4nZn8hRGXE8NUyTzjujph9", "t2K1pXo4eByuWpKLkssyMLe8QKUbxnfFC3H",
  "t2TB4mbSpuAcCWkH94Leb27FnRxo16AEHDg", "t2Phx4gVL4YRnNsH3jM1M7jE4Fo329E66Na",
  "t2VQZGmeNomN8c3USefeLL9nmU6M8x8CVzC", "t2RicCvTVTY5y9JkreSRv3Xs8q2K67YxHLi",
  "t2JrSLxTGc8wtPDe9hwbaeUjCrCfc4iZnDD", "t2Uh9Au1PDDSw117sAbGivKREkmMxVC5tZo",
  "t2FDwoJKLeEBMTy3oP7RLQ1Fihhvz49a3Bv", "t2FY18mrgtb7QLeHA8ShnxLXuW8cNQ2n1v8",
  "t2L15TkDYum7dnQRBqfvWdRe8Yw3jVy9z7g"]

def FUNDING_STREAMS_MAINNET : Except Abort (List FundingStreams) := do
  let first ← hardCoded fmt 1046400 2726400
    [(.Ecc, 7, FUNDING_STREAM_ECC_ADDRESSES_MAINNET),
      (.ZcashFoundation, 5, replicate 48 "t3dvVE3SQEi7kqNzwrfNePxZ1d4hUyztBA1"),
      (.MajorGrants, 8, replicate 48 "t3XyYW8yBFRuMnfvm5KLGFbEVz25kckZXym")]
  let second ← hardCoded fmt 2726400 (2726400 + 420000)
    [(.Deferred, 12, []),
      (.MajorGrants, 8, replicate 12 "t3cFfPt1Bcvgez9ZbMBFWeZsskxTkPzGCow")]
  pure [first, second]

def FUNDING_STREAMS_TESTNET : Except Abort (List FundingStreams) := do
  let first ← hardCoded fmt 1028500 2796000
    [(.Ecc, 7, FUNDING_STREAM_ECC_ADDRESSES_TESTNET),
      (.ZcashFoundation, 5, replicate 51 "t27eWDgjFYJGVXmzrXeVjnb5J3uXDM9xH9v"),
      (.MajorGrants, 8, replicate 51 "t2Gvxv2uNM7hbbACjNox4H6DjByoKZ2Fa3P")]
  let second ← hardCoded fmt 2976000 (2976000 + 420000)
    [(.Deferred, 12, []),
      (.MajorGrants, 8, replicate 13 "t2HifwjUj9uyxr9bknR8LFuQbc98c3vkXtu")]
  let third ← hardCoded fmt NU6_1_ACTIVATION_HEIGHT_TESTNET 4476000
    [(.Deferred, 12, []),
      (.MajorGrants, 8, replicate 27 "t2HifwjUj9uyxr9bknR8LFuQbc98c3vkXtu")]
  pure [first, second, third]

/-- A tenth of 78750 ZEC for each of the ten outputs. -/
def NU6_1_LOCKBOX_DISBURSEMENTS_TESTNET : List (String × Amount .NonNegative) :=
  replicate 10 ("t2RnBRiqrN1nW4ecZs1Fj3WWjNdnSs4kiX8", ⟨7875 * COIN, by decide⟩)

/-! ## Parameters -/

def SLOW_START_INTERVAL : Nat := 20000

def SLOW_START_SHIFT : Nat := SLOW_START_INTERVAL / 2

def PRE_BLOSSOM_HALVING_INTERVAL : Int := 840000

def POST_BLOSSOM_HALVING_INTERVAL : Int := PRE_BLOSSOM_HALVING_INTERVAL * 2

def FIRST_HALVING_TESTNET : Nat := 1116000

def FIRST_HALVING_REGTEST : Nat := 287

abbrev Magic : Type := Bytes 4

namespace magics

def MAINNET : Magic := ⟨[0x24, 0xe9, 0x27, 0x64], rfl⟩

def TESTNET : Magic := ⟨[0xfa, 0x1a, 0xf9, 0xbf], rfl⟩

def REGTEST : Magic := ⟨[0xaa, 0xe8, 0x3f, 0x5f], rfl⟩

end magics

def TESTNET_GENESIS_HASH : BlockHash :=
  ⟨[0x38, 0x2c, 0x4a, 0x33, 0x26, 0x61, 0xc7, 0xed, 0x06, 0x71, 0xf3, 0x2a, 0x34, 0xd7, 0x24, 0x61,
    0x9f, 0x08, 0x6c, 0x61, 0x87, 0x3b, 0xce, 0x7c, 0x99, 0x85, 0x9d, 0xd9, 0x92, 0x0a, 0xa6, 0x05],
    rfl⟩

def REGTEST_GENESIS_HASH : BlockHash :=
  ⟨[0x27, 0xe3, 0x01, 0x34, 0xd6, 0x20, 0xe9, 0xfe, 0x61, 0xf7, 0x19, 0x93, 0x83, 0x20, 0xba, 0xb6,
    0x3e, 0x7e, 0x72, 0xc9, 0x1b, 0x5e, 0x23, 0x02, 0x56, 0x76, 0xf9, 0x0e, 0xd8, 0x11, 0x9f, 0x02],
    rfl⟩

/-- `testnet::Parameters`. The difficulty limit is the expanded one. -/
structure Parameters where
  network_name : String
  network_magic : Magic
  genesis_hash : BlockHash
  activation_heights : ActivationHeights
  slow_start_interval : Nat
  slow_start_shift : Nat
  funding_streams : List FundingStreams
  target_difficulty_limit : Nat
  disable_pow : Bool
  should_allow_unshielded_coinbase_spends : Bool
  pre_blossom_halving_interval : Int
  post_blossom_halving_interval : Int
  lockbox_disbursements : List (String × Amount .NonNegative)
  deriving DecidableEq

namespace Parameters

def default : Except Abort Parameters := do
  let funding_streams ← FUNDING_STREAMS_TESTNET fmt
  pure {
    network_name := "Testnet"
    network_magic := magics.TESTNET
    genesis_hash := TESTNET_GENESIS_HASH
    activation_heights := .collect TESTNET_ACTIVATION_HEIGHTS
    slow_start_interval := SLOW_START_INTERVAL
    slow_start_shift := SLOW_START_INTERVAL / 2
    funding_streams
    target_difficulty_limit := 0x07ffff * 2 ^ 232
    disable_pow := false
    should_allow_unshielded_coinbase_spends := false
    pre_blossom_halving_interval := PRE_BLOSSOM_HALVING_INTERVAL
    post_blossom_halving_interval := POST_BLOSSOM_HALVING_INTERVAL
    lockbox_disbursements := NU6_1_LOCKBOX_DISBURSEMENTS_TESTNET }

def is_default_testnet (params : Parameters) : Except Abort Bool := do
  let testnet ← Parameters.default fmt
  pure (params = testnet)

/-- The values are those that `new_regtest` sets. -/
def is_regtest (params : Parameters) : Bool :=
  params.network_magic = magics.REGTEST ∧ params.network_name = "Regtest" ∧
    params.genesis_hash = REGTEST_GENESIS_HASH ∧ params.slow_start_interval = 0 ∧
    params.slow_start_shift = 0 ∧ params.target_difficulty_limit = 0x0f0f0f * 2 ^ 232 ∧
    params.disable_pow = true ∧ params.should_allow_unshielded_coinbase_spends = true ∧
    params.pre_blossom_halving_interval = 144 ∧ params.post_blossom_halving_interval = 288 ∧
    params.lockbox_disbursements = []

end Parameters

inductive Network
  | Mainnet
  | Testnet (params : Parameters)

namespace Network

def activation_list : Network → ActivationHeights
  | Mainnet => .collect MAINNET_ACTIVATION_HEIGHTS
  | Testnet params => params.activation_heights

def slow_start_interval : Network → Nat
  | Mainnet => SLOW_START_INTERVAL
  | Testnet params => params.slow_start_interval

def slow_start_shift : Network → Nat
  | Mainnet => SLOW_START_SHIFT
  | Testnet params => params.slow_start_shift

def pre_blossom_halving_interval : Network → Int
  | Mainnet => PRE_BLOSSOM_HALVING_INTERVAL
  | Testnet params => params.pre_blossom_halving_interval

def post_blossom_halving_interval : Network → Int
  | Mainnet => POST_BLOSSOM_HALVING_INTERVAL
  | Testnet params => params.post_blossom_halving_interval

def all_funding_streams : Network → Except Abort (List FundingStreams)
  | Mainnet => FUNDING_STREAMS_MAINNET fmt
  | Testnet params => .ok params.funding_streams

def funding_streams (network : Network) (height : Nat) : Except Abort (Option FundingStreams) := do
  let all ← network.all_funding_streams fmt
  pure (all.find? fun streams => streams.start ≤ height ∧ height < streams.stop)

def activation_height (network : Network) (nu : NetworkUpgrade) : Option Nat :=
  network.activation_list.activation_height nu

def current (network : Network) (height : Nat) : Except Abort NetworkUpgrade :=
  network.activation_list.current height

def parse_disbursements (disbursements : List (String × Amount .NonNegative)) :
    Except Abort (List (TransparentAddress × Amount .NonNegative)) :=
  disbursements.mapM fun (addr, amount) => do
    let address ← orAbort (fmt.parse addr) (.expect "hard-coded address must deserialize")
    pure (address, amount)

/-- The disbursements are due at the activation of NU6.1 only. -/
def lockbox_disbursements (fmt : Formats) (network : Network) (height : Nat) :
    Except Abort (List (TransparentAddress × Amount .NonNegative)) :=
  if some height ≠ network.activation_height .Nu6_1 then .ok []
  else match network with
  | Mainnet => .ok []
  | Testnet params => do
    if ← params.is_default_testnet fmt then
      parse_disbursements fmt NU6_1_LOCKBOX_DISBURSEMENTS_TESTNET
    else parse_disbursements fmt params.lockbox_disbursements

end Network

end ZebraCrosslink
