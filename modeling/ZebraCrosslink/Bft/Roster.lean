import Mathlib
import ZebraCrosslink.Bft.Block

/-!
# The roster of finalizers

The reward that each newly final PoW block pays to the roster, and the staking actions of its
transactions. Stake is `u64` throughout.
-/

open Rust

namespace ZebraCrosslink

structure MalValidator where
  address : MalPublicKey
  public_key : MalPublicKey
  voting_power : UInt64
  deriving DecidableEq

def MalValidator.new (public_key : MalPublicKey) (voting_power : UInt64) : MalValidator where
  address := public_key
  public_key := public_key
  voting_power := voting_power

/-- The first member that `p` accepts is replaced by its image under `f`. -/
def modifyFirst {α : Type} (p : α → Bool) (f : α → α) : List α → List α
  | [] => []
  | a :: as => if p a then f a :: as else a :: modifyFirst p f as

/-! ## Rewards -/

def pos_total_reward : UInt64 := 6000

def powerAt (finalizers : List MalValidator) (i : Nat) : UInt64 :=
  match finalizers[i]? with
  | some finalizer => finalizer.voting_power
  | none => 0

/-- `max_power_finalizer_i` after a finalizer with stake: the first of the strongest so far. -/
def next_max (finalizers : List MalValidator) (finalizer : MalValidator) (i : Nat) :
    Option Nat → Option Nat
  | none => some i
  | some m => if powerAt finalizers m < finalizer.voting_power then some i else some m

/-- The first loop, from index `i` on: `total_voting_power` and `max_power_finalizer_i`. -/
def scan_power (p : Profile) (finalizers : List MalValidator) :
    List MalValidator → Nat → UInt64 → Option Nat → Except Abort (UInt64 × Option Nat)
  | [], _, total_voting_power, max_power_finalizer_i =>
    .ok (total_voting_power, max_power_finalizer_i)
  | finalizer :: rest, i, total_voting_power, max_power_finalizer_i =>
    if finalizer.voting_power = 0 then
      scan_power p finalizers rest (i + 1) total_voting_power max_power_finalizer_i
    else do
      let total_voting_power ← addU64 p total_voting_power finalizer.voting_power
      scan_power p finalizers rest (i + 1) total_voting_power
        (next_max finalizers finalizer i max_power_finalizer_i)

/-- `mul` is a `u128`, which the product of two `u64` fits; the quotient is cut down `as u64`. -/
def reward_share (total_voting_power voting_power : UInt64) : Except Abort UInt64 :=
  if total_voting_power = 0 then .error .divByZero
  else
    .ok (UInt64.ofNat
      (voting_power.toNat * pos_total_reward.toNat / total_voting_power.toNat))

variable (p : Profile)

/-- One round of the second loop: the finalizer at index `i`, unless it is the max staker, gets its
share. -/
def share_reward (total_voting_power : UInt64) (max_power_finalizer_i : Option Nat) (i : Nat)
    (finalizer : MalValidator) (sum_reward : UInt64) : Except Abort (MalValidator × UInt64) :=
  if finalizer.voting_power = 0 then .ok (finalizer, sum_reward)
  else match max_power_finalizer_i with
    | none => .error (.expect "there must be a max finalizer if at least 1 is non-0")
    | some m =>
      if i = m then .ok (finalizer, sum_reward)
      else do
        let reward ← reward_share total_voting_power finalizer.voting_power
        let sum_reward ← addU64 p sum_reward reward
        let voting_power ← addU64 p finalizer.voting_power reward
        pure ({ finalizer with voting_power }, sum_reward)

def share_rewards (p : Profile) (total_voting_power : UInt64) (max_power_finalizer_i : Option Nat) :
    List MalValidator → Nat → UInt64 → Except Abort (List MalValidator × UInt64)
  | [], _, sum_reward => .ok ([], sum_reward)
  | finalizer :: rest, i, sum_reward => do
    let (finalizer, sum_reward) ←
      share_reward p total_voting_power max_power_finalizer_i i finalizer sum_reward
    let (rest, sum_reward) ←
      share_rewards p total_voting_power max_power_finalizer_i rest (i + 1) sum_reward
    pure (finalizer :: rest, sum_reward)

def pay_max_staker (total_voting_power : UInt64) (finalizers : List MalValidator)
    (sum_reward : UInt64) : Option Nat → Except Abort (List MalValidator)
  | none => .ok finalizers
  | some finalizer_i => do
    let reward ← reward_share total_voting_power (powerAt finalizers finalizer_i)
    let rem_reward ← subU64 p pos_total_reward sum_reward
    if reward ≤ rem_reward then do
      let voting_power ← addU64 p (powerAt finalizers finalizer_i) rem_reward
      pure (finalizers.modify finalizer_i fun finalizer => { finalizer with voting_power })
    else .error (.assert "should be at least the expected share remaining. Any discrepancy should be in this finalizer's favor.")

def distribute_rewards (finalizers : List MalValidator) : Except Abort (List MalValidator) := do
  let (total_voting_power, max_power_finalizer_i) ← scan_power p finalizers finalizers 0 0 none
  let (finalizers, sum_reward) ←
    share_rewards p total_voting_power max_power_finalizer_i finalizers 0 0
  pay_max_staker p total_voting_power finalizers sum_reward max_power_finalizer_i

/-! ## Staking actions -/

abbrev KeysToNames : Type := List (MalPublicKey × String)

def KeysToNames.insert (names : KeysToNames) (key : MalPublicKey) (name : String) : KeysToNames :=
  (key, name) :: names.filter fun entry => entry.1 ≠ key

/-- Who an action subtracts from, and whether it clears down to `val` or subtracts `val`. -/
def StakingAction.sub_key (action : StakingAction) : Option (MalPublicKey × Bool) :=
  match action.kind with
  | .Add => none
  | .Sub => some (action.target, false)
  | .Clear => some (action.target, true)
  | .Move => some (action.source, false)
  | .MoveClear => some (action.source, true)

def StakingAction.has_add (action : StakingAction) : Bool :=
  match action.kind with
  | .Add | .Move | .MoveClear => true
  | .Sub | .Clear => false

/-- A clear takes everything above `val`. -/
def sub_amount (is_clear : Bool) (voting_power val : UInt64) : Except Abort UInt64 :=
  if is_clear then subU64 p voting_power val else .ok val

/-- The subtracting half: `none` when the command is invalid, else the new roster and the amount. -/
def subtract_stake (roster : List MalValidator) (action : StakingAction) :
    Except Abort (Option (List MalValidator × UInt64)) :=
  match action.sub_key with
  | none => .ok (some (roster, action.val))
  | some (sub_key, is_clear) =>
    match roster.find? fun cmp => cmp.public_key = sub_key with
    | none => .ok none
    | some member =>
      if member.voting_power < action.val then .ok none
      else do
        let amount ← sub_amount p is_clear member.voting_power action.val
        let voting_power ← subU64 p member.voting_power amount
        pure (some (modifyFirst (fun cmp => cmp.public_key = sub_key)
          (fun member => { member with voting_power }) roster, amount))

def add_stake (roster : List MalValidator) (names : KeysToNames) (action : StakingAction)
    (amount : UInt64) : Except Abort (List MalValidator × KeysToNames) :=
  match roster.find? fun cmp => cmp.public_key = action.target with
  | some member => do
    let voting_power ← addU64 p member.voting_power amount
    pure (modifyFirst (fun cmp => cmp.public_key = action.target)
      (fun member => { member with voting_power }) roster, names)
  | none =>
    pure (roster ++ [MalValidator.new action.target amount],
      names.insert action.target action.insecure_target_name)

def update_roster_for_cmd (roster : List MalValidator) (names : KeysToNames)
    (action : StakingAction) : Except Abort (List MalValidator × KeysToNames × Nat) := do
  match ← subtract_stake p roster action with
  | none => pure (roster, names, 0)
  | some (roster, amount) =>
    if action.has_add then do
      let (roster, names) ← add_stake p roster names action amount
      pure (roster, names, 1)
    else pure (roster, names, 1)

def update_roster_for_transactions (p : Profile) :
    List Transaction → List MalValidator → KeysToNames → Nat →
      Except Abort (List MalValidator × KeysToNames × Nat)
  | [], roster, names, cmd_c => .ok (roster, names, cmd_c)
  | tx :: rest, roster, names, cmd_c =>
    match tx.staking_action with
    | none => update_roster_for_transactions p rest roster names cmd_c
    | some action => do
      let (roster, names, c) ← update_roster_for_cmd p roster names action
      update_roster_for_transactions p rest roster names (cmd_c + c)

def update_roster_for_block (roster : List MalValidator) (names : KeysToNames) (block : Block) :
    Except Abort (List MalValidator × KeysToNames × Nat) :=
  update_roster_for_transactions p block.transactions roster names 0

/-! ## The sorted roster -/

structure SortedRosterMember where
  pub_key : MalPublicKey
  stake : UInt64
  cumulative_stake : UInt64
  deriving DecidableEq

/-- The order of `tenderlink::PubKeyID`. -/
structure PubKeyOrder where
  le : MalPublicKey → MalPublicKey → Bool
  total : ∀ a b, le a b = true ∨ le b a = true
  trans : ∀ a b c, le a b = true → le b c = true → le a c = true
  antisymm : ∀ a b, le a b = true → le b a = true → a = b

/-- `a` sorts no later than `b` under `Reverse((stake, pub_key))`. -/
def SortedRosterMember.before (order : PubKeyOrder) (a b : SortedRosterMember) : Bool :=
  b.stake < a.stake || (a.stake == b.stake && order.le b.pub_key a.pub_key)

def is_sorted_by_stake : List SortedRosterMember → Bool
  | a :: b :: rest => b.stake ≤ a.stake && is_sorted_by_stake (b :: rest)
  | _ => true

def cumulate (p : Profile) :
    List SortedRosterMember → UInt64 → Except Abort (List SortedRosterMember)
  | [], _ => .ok []
  | m :: rest, cumulative_stake => do
    let cumulative_stake ← addU64 p cumulative_stake m.stake
    let rest ← cumulate p rest cumulative_stake
    pure ({ m with cumulative_stake } :: rest)

def tenderlink_roster_from_internal (order : PubKeyOrder) (vals : List MalValidator) :
    Except Abort (List SortedRosterMember) :=
  let ret := vals.map fun v =>
    { pub_key := v.public_key, stake := v.voting_power, cumulative_stake := 0 : SortedRosterMember }
  let ret := ret.insertionSort fun a b => SortedRosterMember.before order a b
  if p = .dev ∧ !is_sorted_by_stake ret then .error (.assert "is_sorted_by")
  else cumulate p ret 0

end ZebraCrosslink
