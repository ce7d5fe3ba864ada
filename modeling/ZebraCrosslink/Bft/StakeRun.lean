import ZebraCrosslink.Bft.Stake
import ZebraCrosslink.Bft.Store

/-!
# Stake over whole runs

Staking actions, blocks, commits and runs on the machine roster, each against the exact ledger.
-/

open Rust Checked List

namespace ZebraCrosslink

/-! ## Staking actions -/

theorem modifyFirst_map {α β : Type} (g : α → β) (p : α → Bool) (q : β → Bool) (f : α → α)
    (f' : β → β) (hp : ∀ a, q (g a) = p a) (hf : ∀ a, g (f a) = f' (g a)) (l : List α) :
    (modifyFirst p f l).map g = modifyFirst q f' (l.map g) := by
  induction l with
  | nil => rfl
  | cons a rest ih =>
    rw [modifyFirst, map_cons, modifyFirst, hp]
    split
    · rw [map_cons, hf]
    · rw [map_cons, ih]

theorem ledger_setFirst (roster : List MalValidator) (key : MalPublicKey) (v : UInt64) :
    ledger (modifyFirst (fun f => f.public_key = key) (fun f => { f with voting_power := v }) roster) =
      modifyFirst (fun x => x.1 = key) (fun x => (x.1, v.toNat)) (ledger roster) :=
  modifyFirst_map (fun f : MalValidator => (f.public_key, f.voting_power.toNat))
    (fun f => f.public_key = key) (fun x => x.1 = key) _ _ (fun _ => rfl) (fun _ => rfl) roster

theorem ledger_find (roster : List MalValidator) (key : MalPublicKey) :
    (ledger roster).find? (fun x => x.1 = key) =
      (roster.find? fun f => f.public_key = key).map fun f => (f.public_key, f.voting_power.toNat) := by
  rw [ledger, find?_map]
  rfl

variable (p : Profile)

theorem sub_amount_checked (is_clear : Bool) (v val : UInt64) (h : val.toNat ≤ v.toNat) :
    Checked p True (sub_amount p is_clear v val) fun a =>
      a.toNat = if is_clear then v.toNat - val.toNat else val.toNat := by
  cases is_clear
  · exact ofOk rfl
  · exact subU64 p v val h

theorem subtract_stake_checked (roster : List MalValidator) (action : StakingAction) :
    Checked p True (subtract_stake p roster action) fun o =>
      o.map (fun r => (ledger r.1, r.2.toNat)) = (ledger roster).subtract action := by
  unfold subtract_stake Ledger.subtract
  cases action.sub_key with
  | none => exact ofOk rfl
  | some s =>
    obtain ⟨key, is_clear⟩ := s
    simp only [ledger_find]
    cases roster.find? fun f => f.public_key = key with
    | none => exact ofOk rfl
    | some member =>
      simp only [Option.map_some, UInt64.lt_iff_toNat_lt]
      split
      · exact ofOk rfl
      · rename_i hle
        rw [not_lt] at hle
        refine bindTotal (sub_amount_checked p is_clear _ _ hle) fun a ha => ?_
        have hale : a.toNat ≤ member.voting_power.toNat := by
          rw [ha]
          split <;> omega
        refine bindOk (subU64 p _ _ hale) fun v hv => ⟨_, rfl, ?_⟩
        rw [Option.map_some, ledger_setFirst, hv, ha]

namespace Ledger

theorem membersFit_setFirst (l : Ledger) (hl : l.MembersFit) (key : MalPublicKey) (w : Nat)
    (x : MalPublicKey × Nat) (hx : l.find? (fun y => y.1 = key) = some x) :
    Ledger.MembersFit (modifyFirst (fun y => y.1 = key) (fun y => (y.1, w)) l) ↔ w < 2 ^ 64 := by
  induction l with
  | nil => simp at hx
  | cons y rest ih =>
    have hrest : Ledger.MembersFit rest := fun z hz => hl z (mem_cons_of_mem _ hz)
    rw [modifyFirst]
    by_cases hy : y.1 = key
    · rw [if_pos (by simpa using hy)]
      constructor
      · exact fun h => h (y.1, w) mem_cons_self
      · intro hw z hz
        rcases mem_cons.mp hz with rfl | hz
        · exact hw
        · exact hrest z hz
    · rw [if_neg (by simpa using hy)]
      rw [find?_cons_of_neg (by simpa using hy)] at hx
      rw [← ih hrest hx]
      constructor
      · exact fun h z hz => h z (mem_cons_of_mem _ hz)
      · intro h z hz
        rcases mem_cons.mp hz with rfl | hz
        · exact hl _ mem_cons_self
        · exact h z hz

end Ledger

open Ledger

theorem add_stake_checked (roster : List MalValidator) (names : KeysToNames)
    (action : StakingAction) (amount : UInt64) :
    Checked p ((ledger roster).add action.target amount.toNat).MembersFit
      (add_stake p roster names action amount) fun r =>
        ledger r.1 = (ledger roster).add action.target amount.toNat := by
  unfold add_stake add
  have hfind := ledger_find roster action.target
  cases hm : roster.find? fun f => f.public_key = action.target with
  | none =>
    rw [hm] at hfind
    simp only [hfind, Option.map_none]
    refine (ofOk (Q := fun r : List MalValidator × KeysToNames => ledger r.1 = _)
      ?_).imp ⟨fun _ => ?_, fun _ => trivial⟩ fun _ _ h => h
    · rw [ledger_append]
      rfl
    · intro x hx
      rcases mem_append.mp hx with hx | hx
      · exact ledger_membersFit roster x hx
      · obtain rfl := mem_singleton.mp hx
        exact amount.toNat_lt
  | some member =>
    rw [hm] at hfind
    simp only [hfind, Option.map_some]
    rw [membersFit_setFirst _ (ledger_membersFit roster) _ _ _ hfind]
    refine bindOk (addU64 p member.voting_power amount) fun v hv => ⟨_, rfl, ?_⟩
    rw [ledger_setFirst, hv]

theorem update_roster_for_cmd_checked (roster : List MalValidator) (names : KeysToNames)
    (action : StakingAction) :
    Checked p ((ledger roster).act action).MembersFit (update_roster_for_cmd p roster names action)
      fun r => ledger r.1 = (ledger roster).act action := by
  refine bindTotal (subtract_stake_checked p roster action) fun o ho => ?_
  unfold act
  rw [← ho]
  -- a ledger that comes from a roster always fits
  have done (r : List MalValidator) (c : Nat) : Checked p (ledger r).MembersFit
      (.ok (r, names, c)) fun r' => ledger r'.1 = ledger r :=
    (ofOk rfl).imp ⟨fun _ => ledger_membersFit r, fun _ => trivial⟩
      fun _ _ h => congrArg (fun x => ledger x.1) h.symm
  cases o with
  | none => exact done roster 0
  | some r =>
    obtain ⟨roster', amount⟩ := r
    simp only [Option.map_some]
    split
    · exact bindOk (add_stake_checked p roster' names action amount) fun r hr =>
        ⟨_, rfl, hr⟩
    · exact done roster' 1

/-! ## Blocks -/

theorem update_roster_for_transactions_checked (txs : List Transaction) (roster : List MalValidator)
    (names : KeysToNames) (c : Nat) : Checked p ((ledger roster).TransactionsFit txs)
      (update_roster_for_transactions p txs roster names c) fun r =>
        ledger r.1 = txs.foldl transact (ledger roster) := by
  induction txs generalizing roster names c with
  | nil => exact ofOk rfl
  | cons tx rest ih =>
    rw [foldl_cons, TransactionsFit, transact]
    simp only [update_roster_for_transactions]
    cases tx.staking_action with
    | none =>
      refine (ih roster names c).imp ⟨fun h => ⟨ledger_membersFit roster, h⟩, fun h => h.2⟩
        fun _ _ h => h
    | some action =>
      refine bind (update_roster_for_cmd_checked p roster names action) fun r hr => ?_
      have := ih r.1 r.2.1 (c + r.2.2)
      rwa [hr] at this

def stake_block (p : Profile) (roster : List MalValidator) (names : KeysToNames) (block : Block) :
    Except Abort (List MalValidator × KeysToNames) := do
  let roster ← distribute_rewards p roster
  let (roster, names, _) ← update_roster_for_block p roster names block
  pure (roster, names)

def stake_blocks (p : Profile) : List Block → List MalValidator → KeysToNames →
    Except Abort (List MalValidator × KeysToNames)
  | [], roster, names => .ok (roster, names)
  | block :: rest, roster, names => do
    let (roster, names) ← stake_block p roster names block
    stake_blocks p rest roster names

theorem stake_block_checked (roster : List MalValidator) (names : KeysToNames) (block : Block) :
    Checked p ((ledger roster).BlockFits block) (stake_block p roster names block) fun r =>
      ledger r.1 = (ledger roster).block block := by
  refine (bind (distribute_rewards_checked p roster) fun r hr => ?_).imp and_assoc fun _ _ h => h
  rw [Ledger.block, ← hr]
  exact bindOk (update_roster_for_transactions_checked p block.transactions r names 0)
    fun r' hr' => ⟨_, rfl, hr'⟩

theorem stake_blocks_checked (blocks : List Block) (roster : List MalValidator)
    (names : KeysToNames) :
    Checked p ((ledger roster).BlocksFit blocks) (stake_blocks p blocks roster names) fun r =>
      ledger r.1 = blocks.foldl block (ledger roster) := by
  induction blocks generalizing roster names with
  | nil => exact ofOk rfl
  | cons b rest ih =>
    refine bind (stake_block_checked p roster names b) fun r hr => ?_
    rw [foldl_cons, ← hr]
    exact ih r.1 r.2

/-! ## The sorted roster -/

def stakes (ms : List SortedRosterMember) : Nat := (ms.map (·.stake.toNat)).sum

variable (ms : List SortedRosterMember) (vals : List MalValidator)

theorem cumulate_checked (c : UInt64) :
    Checked p (c.toNat + stakes ms < 2 ^ 64) (cumulate p ms c) fun _ => True := by
  induction ms generalizing c with
  | nil => exact (ofOk trivial).imp (by simpa [stakes] using c.toNat_lt) fun _ _ h => h
  | cons m rest ih =>
    have hrest (c' : UInt64) (hc' : c'.toNat = c.toNat + m.stake.toNat) :
        Checked p (c.toNat + m.stake.toNat + stakes rest < 2 ^ 64) (do
          let rest ← cumulate p rest c'
          pure ({ m with cumulative_stake := c' } :: rest)) fun _ => True :=
      bindOk (hc' ▸ ih c') fun _ _ => ⟨_, rfl, trivial⟩
    refine (bind (addU64 p c m.stake) hrest).imp ?_ fun _ _ h => h
    simp only [stakes, map_cons, sum_cons]
    omega

variable (order : PubKeyOrder)

theorem before_iff (a b : SortedRosterMember) : a.before order b = true ↔
    b.stake.toNat < a.stake.toNat ∨
      a.stake.toNat = b.stake.toNat ∧ order.le b.pub_key a.pub_key = true := by
  simp [SortedRosterMember.before, UInt64.lt_iff_toNat_lt, UInt64.toNat_inj]

theorem is_sorted_of_isChain (h : ms.IsChain fun a b => a.before order b = true) :
    is_sorted_by_stake ms = true := by
  induction ms with
  | nil => rfl
  | cons a rest ih =>
    cases rest with
    | nil => rfl
    | cons b rest =>
      rw [isChain_cons_cons, before_iff] at h
      rw [is_sorted_by_stake, ih h.2, Bool.and_true, decide_eq_true_eq, UInt64.le_iff_toNat_le]
      omega

instance : Std.Total fun a b : SortedRosterMember => a.before order b = true where
  total a b := by
    rw [before_iff, before_iff]
    rcases order.total a.pub_key b.pub_key with h | h <;> simp only [h, and_true] <;> omega

instance : IsTrans SortedRosterMember fun a b => a.before order b = true where
  trans a b c hab hbc := by
    rw [before_iff] at *
    rcases hab with hab | ⟨hab, hkey⟩
    · omega
    · rcases hbc with hbc | ⟨hbc, hkey'⟩
      · omega
      · exact .inr ⟨hab.trans hbc, order.trans _ _ _ hkey' hkey⟩

def unsummed (vals : List MalValidator) : List SortedRosterMember :=
  vals.map fun v => { pub_key := v.public_key, stake := v.voting_power, cumulative_stake := 0 }

theorem tenderlink_roster_eq : tenderlink_roster_from_internal p order vals =
      cumulate p ((unsummed vals).insertionSort fun a b => a.before order b = true) 0 := by
  have hsorted : is_sorted_by_stake ((unsummed vals).insertionSort fun a b => a.before order b = true) = true :=
    is_sorted_of_isChain _ order (pairwise_insertionSort _ _).isChain
  unfold unsummed at hsorted
  unfold tenderlink_roster_from_internal
  simp only [hsorted]
  exact if_neg (by simp)

theorem stakes_sorted :
    stakes ((unsummed vals).insertionSort fun a b => a.before order b = true) = (ledger vals).total := by
  rw [stakes, ((perm_insertionSort _ _).map _).sum_eq]
  simp [unsummed, ledger, total, powers, Function.comp_def]

theorem tenderlink_roster_checked :
    Checked p ((ledger vals).total < 2 ^ 64) (tenderlink_roster_from_internal p order vals)
      fun _ => True := by
  rw [tenderlink_roster_eq]
  refine (cumulate_checked p _ 0).imp ?_ fun _ _ h => h
  rw [stakes_sorted]
  simp

/-! ## Runs -/

/-- The stake part of a commit: its newly final blocks, then the roster for the BFT layer. -/
def stake_commit (p : Profile) (order : PubKeyOrder) (roster : List MalValidator)
    (names : KeysToNames) (blocks : List Block) : Except Abort (List MalValidator × KeysToNames) := do
  let (roster, names) ← stake_blocks p blocks roster names
  let _ ← tenderlink_roster_from_internal p order roster
  pure (roster, names)

def stake_run (p : Profile) (order : PubKeyOrder) :
    List (List Block) → List MalValidator → KeysToNames →
    Except Abort (List MalValidator × KeysToNames)
  | [], roster, names => .ok (roster, names)
  | blocks :: rest, roster, names => do
    let (roster, names) ← stake_commit p order roster names blocks
    stake_run p order rest roster names

theorem stake_commit_ok (roster : List MalValidator) (names : KeysToNames) (blocks : List Block)
    (r : List MalValidator × KeysToNames) : stake_commit p order roster names blocks = .ok r ↔
      stake_blocks p blocks roster names = .ok r ∧
        ∃ members, tenderlink_roster_from_internal p order r.1 = .ok members := by
  simp only [stake_commit, except_bind_ok]
  constructor
  · rintro ⟨r₁, hr₁, members, hm, hr⟩
    cases hr
    exact ⟨hr₁, members, hm⟩
  · rintro ⟨hr, members, hm⟩
    exact ⟨r, hr, members, hm, rfl⟩

theorem stake_commit_checked (roster : List MalValidator) (names : KeysToNames)
    (blocks : List Block) :
    Checked p ((ledger roster).CommitFits blocks) (stake_commit p order roster names blocks) fun r =>
      ledger r.1 = blocks.foldl block (ledger roster) := by
  refine bind (stake_blocks_checked p blocks roster names) fun r hr => ?_
  rw [← hr]
  exact bindOk (tenderlink_roster_checked p r.1 order) fun _ _ => ⟨_, rfl, rfl⟩

theorem stake_run_checked (commits : List (List Block)) (roster : List MalValidator)
    (names : KeysToNames) :
    Checked p ((ledger roster).RunFits commits) (stake_run p order commits roster names) fun r =>
      ledger r.1 = commits.flatten.foldl block (ledger roster) := by
  induction commits generalizing roster names with
  | nil => exact ofOk rfl
  | cons blocks rest ih =>
    refine bind (stake_commit_checked p order roster names blocks) fun r hr => ?_
    rw [flatten_cons, foldl_append, ← hr]
    exact ih r.1 r.2

/-- No `u64` operation on stake leaves its range exactly when the exact ledger fits, and then the
roster is the exact ledger. -/
theorem stake_run_within_u64_iff (order : PubKeyOrder) (commits : List (List Block))
    (roster : List MalValidator) (names : KeysToNames) :
    (stake_run .dev order commits roster names ≠ .error .overflow ↔ (ledger roster).RunFits commits) ∧
      ((ledger roster).RunFits commits → ∀ p, ∃ r, stake_run p order commits roster names = .ok r ∧
        ledger r.1 = commits.flatten.foldl Ledger.block (ledger roster)) := by
  refine ⟨⟨fun h => ?_, fun h => ?_⟩, fun h p => (stake_run_checked p order commits roster names).returns h⟩
  · by_contra hn
    exact h ((stake_run_checked .dev order commits roster names).overflows hn rfl)
  · obtain ⟨r, hr, -⟩ := (stake_run_checked .dev order commits roster names).returns h
    rw [hr]
    nofun

namespace Sample

def stakingTx (id : TransactionHash) (action : StakingAction) : Transaction where
  hash := id
  data := .VCrosslink 0 [] [] none none (some action)

def addStake (key : MalPublicKey) (val : UInt64) : StakingAction where
  kind := .Add
  val := val
  target := key
  source := Bytes.zero 32
  insecure_target_name := "target"
  insecure_source_name := ""

def addBlock (val : UInt64) : Block where
  header := header 6 7
  transactions := [stakingTx (id 100) (addStake (id 1) val)]

end Sample

/-- One `Add` of the largest `u64` to an existing finalizer overflows. -/
theorem stake_run_overflows_on_max_add :
    stake_run .dev Sample.byteOrder [[Sample.addBlock 18446744073709551615]] Sample.start.validators_at_current_height [] =
      .error .overflow := by
  decide +kernel

end ZebraCrosslink
