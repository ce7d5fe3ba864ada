import ZebraCrosslink.Bft.StakeRun

/-!
# What the roster keeps

A reward is paid out to the last zatoshi and lets nobody overtake anybody. A staking action moves
stake between the members it names.
-/

open Rust List Bytes

namespace ZebraCrosslink

/-! ## Rewards -/

def identities (roster : List MalValidator) : List (MalPublicKey × MalPublicKey) :=
  roster.map fun f => (f.address, f.public_key)

variable {roster roster' : List MalValidator} {p : Profile} {sum T : UInt64} {i : Nat} {max : Option Nat}

theorem roster_ext (hstake : ledger roster = ledger roster')
    (hid : identities roster = identities roster') : roster = roster' := by
  have hinj : Function.Injective fun f : MalValidator =>
      ((f.public_key, f.voting_power.toNat), f.address, f.public_key) := by
    rintro ⟨_, _, _⟩ ⟨_, _, _⟩ h
    simp only [Prod.mk.injEq, UInt64.toNat_inj] at h
    simp [h]
  apply map_injective_iff.mpr hinj
  have hzip := congrArg₂ zip hstake hid
  unfold ledger identities at hzip
  rwa [zip_map', zip_map'] at hzip

theorem share_reward_identity {f : MalValidator}
    {r : MalValidator × UInt64} (h : share_reward p T max i f sum = .ok r) :
    (r.1.address, r.1.public_key) = (f.address, f.public_key) := by
  unfold share_reward at h
  split at h
  · cases h
    rfl
  · split at h
    · cases h
    · split at h
      · cases h
        rfl
      · simp only [except_bind_ok] at h
        obtain ⟨_, -, _, -, _, -, h⟩ := h
        cases h
        rfl

theorem share_rewards_identities (rest : List MalValidator)
    {r : List MalValidator × UInt64} (h : share_rewards p T max rest i sum = .ok r) :
    identities r.1 = identities rest := by
  induction rest generalizing i sum r with
  | nil =>
    cases h
    rfl
  | cons f rest ih =>
    simp only [share_rewards, except_bind_ok] at h
    obtain ⟨_, hf, _, hrest, h⟩ := h
    cases h
    exact congrArg₂ cons (share_reward_identity hf) (ih hrest)

theorem distribute_rewards_identities
    (h : distribute_rewards p roster = .ok roster') : identities roster' = identities roster := by
  simp only [distribute_rewards, except_bind_ok] at h
  obtain ⟨⟨T, max⟩, -, ⟨fs, sum⟩, hshare, h⟩ := h
  rw [← share_rewards_identities roster hshare]
  cases max with
  | none =>
    cases h
    rfl
  | some m =>
    simp only [pay_max_staker, except_bind_ok] at h
    obtain ⟨_, -, _, -, h⟩ := h
    split at h
    · simp only [except_bind_ok] at h
      obtain ⟨_, -, h⟩ := h
      cases h
      apply ext_getElem?
      intro j
      simp only [identities, getElem?_map, getElem?_modify]
      cases fs[j]? with
      | none => rfl
      | some f => by_cases hj : m = j <;> simp [hj]
    · cases h

namespace Ledger

theorem total_addShares (T m : Nat) (l : Ledger) (i : Nat) :
    (addShares T m i l).total = l.total + shares T m i l := by
  induction l generalizing i with
  | nil => rfl
  | cons x rest ih =>
    rw [addShares, total_cons, total_cons, shares, ih]
    omega

theorem total_modify (l : Ledger) (m d : Nat) (h : m < l.length) :
    Ledger.total (l.modify m fun (k, v) => (k, v + d)) = l.total + d := by
  induction l generalizing m with
  | nil => simp at h
  | cons x rest ih =>
    cases m with
    | zero =>
      rw [modify_zero_cons, total_cons, total_cons]
      omega
    | succ m =>
      rw [modify_succ_cons, total_cons, total_cons, ih m (by simpa using h)]
      omega

theorem length_addShares (T m : Nat) (l : Ledger) (i : Nat) : (addShares T m i l).length = l.length := by
  induction l generalizing i with
  | nil => rfl
  | cons x rest ih => rw [addShares, length_cons, length_cons, ih]

variable {l : Ledger}

theorem share_le_rest (h : l.total ≠ 0) {x : MalPublicKey × Nat} (hx : l[l.maxStaker]? = some x) :
    shares l.total l.maxStaker 0 l + share l.total x.2 ≤ 6000 := by
  rw [← share_total l.total (by omega)]
  exact shares_add_share_le _ _ l 0 (Nat.zero_le _) x hx

theorem total_reward (h : l.total ≠ 0) : l.reward.total = l.total + 6000 := by
  obtain ⟨x, hx, -⟩ := getElem?_maxStaker l h
  have hlt := (List.getElem?_eq_some_iff.mp hx).1
  have hle := share_le_rest h hx
  rw [reward, if_neg h, total_modify _ _ _ (by rwa [length_addShares]), total_addShares]
  omega

/-- What the member at index `i` with stake `v` is paid. -/
def payout (l : Ledger) (i v : Nat) : Nat :=
  if i = l.maxStaker then 6000 - shares l.total l.maxStaker 0 l else share l.total v

theorem reward_getElem? (h : l.total ≠ 0) (i : Nat) :
    l.reward[i]? = l[i]?.map fun x => (x.1, x.2 + l.payout i x.2) := by
  rw [reward, if_neg h, getElem?_modify, addShares_getElem?]
  unfold payout ownShare
  cases l[i]? with
  | none => rfl
  | some x =>
    by_cases hi : i = l.maxStaker
    · simp [hi]
    · simp [hi, Ne.symm hi]

end Ledger

open Ledger

theorem powerAt_reward (h : (ledger roster).total ≠ 0)
    (hreward : ledger roster' = (ledger roster).reward) (i : Nat) (hi : i < roster.length) :
    (powerAt roster' i).toNat =
      (powerAt roster i).toNat + (ledger roster).payout i (powerAt roster i).toNat := by
  have hget : (ledger roster)[i]? = some (roster[i].public_key, roster[i].voting_power.toNat) := by
    simp [ledger, hi]
  have hget' := reward_getElem? h i
  rw [← hreward, hget] at hget'
  rw [powerAt_toNat _ _ _ hget', powerAt_toNat _ _ _ hget]

theorem powerAt_le_maxStaker (h : (ledger roster).total ≠ 0) (i : Nat) :
    (powerAt roster i).toNat ≤ (powerAt roster (ledger roster).maxStaker).toNat := by
  obtain ⟨x, hx, hmax⟩ := getElem?_maxStaker _ h
  rw [powerAt_toNat _ _ _ hx, hmax]
  unfold powerAt
  split
  · next f hf =>
    apply le_foldr_max
    exact mem_map_of_mem (mem_map_of_mem (mem_of_getElem? hf))
  · exact Nat.zero_le _

/-- The reward of one block, for every roster whose total still fits with the reward. -/
theorem distribute_rewards_exact (p : Profile) (roster : List MalValidator)
    (hfits : (ledger roster).total + 6000 < 2 ^ 64) :
    ∃ roster', distribute_rewards p roster = .ok roster' ∧
      ((ledger roster).total = 0 → roster' = roster) ∧
      (0 < (ledger roster).total → ∃ m < roster.length,
        let power (i : Nat) := (powerAt roster i).toNat
        let paid (i : Nat) := (powerAt roster' i).toNat
        let share (i : Nat) := power i * 6000 / (ledger roster).total
        let remainder := 6000 - Ledger.shares (ledger roster).total m 0 (ledger roster)
        identities roster' = identities roster ∧ (ledger roster').total = (ledger roster).total + 6000 ∧
        (∀ i < roster.length, power i ≤ power m) ∧
        (∀ i < roster.length, i ≠ m → paid i = power i + share i) ∧
        paid m = power m + remainder ∧ share m ≤ remainder ∧
        (∀ i < roster.length, power i = 0 → paid i = 0) ∧
        (∀ i < roster.length, ∀ j < roster.length, power i < power j → paid i < paid j) ∧
        ∀ i < roster.length, ∀ j < roster.length, i ≠ m → power i ≤ power j → paid i ≤ paid j) := by
  have hmembers : (ledger roster).reward.MembersFit := by
    intro x hx
    have hle := stake_le_total _ x hx
    by_cases h0 : (ledger roster).total = 0
    · rw [reward, if_pos h0] at hle
      omega
    · rw [total_reward h0] at hle
      omega
  obtain ⟨roster', hok, hreward⟩ := (distribute_rewards_checked p roster).returns ⟨by omega, hmembers⟩
  have hid := distribute_rewards_identities hok
  refine ⟨roster', hok, fun h0 => ?_, fun hpos => ?_⟩
  · rw [reward, if_pos h0] at hreward
    exact roster_ext hreward hid
  · have h0 : (ledger roster).total ≠ 0 := by omega
    obtain ⟨x, hx, hmax⟩ := getElem?_maxStaker _ h0
    have hm : (ledger roster).maxStaker < roster.length := by
      simpa [ledger] using (List.getElem?_eq_some_iff.mp hx).1
    have hrest := share_le_rest h0 hx
    have hpaid := powerAt_reward h0 hreward
    have hxpos : 0 < x.2 := by
      rw [hmax]
      exact Nat.pos_of_ne_zero (foldr_max_ne_zero _ h0)
    have hle := powerAt_le_maxStaker h0
    have hpower := powerAt_toNat _ _ _ hx
    have hothers : ∀ i < roster.length, i ≠ (ledger roster).maxStaker → (powerAt roster' i).toNat =
        (powerAt roster i).toNat + Ledger.share (ledger roster).total (powerAt roster i).toNat := by
      intro i hi hne
      rw [hpaid i hi, payout, if_neg hne]
    have hself := hpaid _ hm
    rw [payout, if_pos rfl] at hself
    -- nobody gets less than a share, and only the max staker may get more
    have hatLeast : ∀ i < roster.length, (powerAt roster i).toNat +
        Ledger.share (ledger roster).total (powerAt roster i).toNat ≤ (powerAt roster' i).toNat := by
      intro i hi
      by_cases him : i = (ledger roster).maxStaker
      · rw [him, hself, hpower]
        omega
      · exact (hothers i hi him).ge
    refine ⟨_, hm, hid, hreward ▸ total_reward h0, fun i _ => hle i, hothers, hself, ?_, ?_, ?_, ?_⟩
    all_goals beta_reduce
    · change Ledger.share _ (powerAt roster (ledger roster).maxStaker).toNat ≤ _
      rw [hpower]
      omega
    · intro i hi hzero
      rw [hothers i hi (by rintro rfl; omega), hzero, Ledger.share, Nat.zero_mul, Nat.zero_div]
    · intro i hi j hj hlt
      have hshare := share_mono (ledger roster).total _ _ hlt.le
      have hj' := hatLeast j hj
      rw [hothers i hi (by rintro rfl; exact absurd (hle j) (by omega))]
      omega
    · intro i hi j hj hne hij
      have hshare := share_mono (ledger roster).total _ _ hij
      have hj' := hatLeast j hj
      rw [hothers i hi hne]
      omega

/-- Seven members with one zatoshi each: 857 for each, and 858 for the first. -/
theorem distribute_rewards_exact_seven :
    ∃ roster', distribute_rewards .release (List.replicate 7 (MalValidator.new (Bytes.zero 32) 1)) = .ok roster' ∧
      (ledger roster').total = 6007 := by
  obtain ⟨roster', hok, -, hpaid⟩ := distribute_rewards_exact .release
    (replicate 7 (MalValidator.new (zero 32) 1)) (by decide)
  obtain ⟨m, -, -, htotal, -⟩ := hpaid (by decide)
  exact ⟨roster', hok, htotal⟩

/-! ## Staking actions -/

def StakingAction.named (action : StakingAction) : List MalPublicKey :=
  match action.kind with
  | .Add | .Sub | .Clear => [action.target]
  | .Move | .MoveClear => [action.source, action.target]

/-- Members with other keys are untouched. Keys stay distinct, and addresses those of the keys. -/
structure KeepsOthers (keys : List MalPublicKey) (roster roster' : List MalValidator) : Prop where
  others : roster'.filter (fun f => f.public_key ∉ keys) = roster.filter fun f => f.public_key ∉ keys
  distinct : (roster.map (·.public_key)).Nodup → (roster'.map (·.public_key)).Nodup
  address : (∀ f ∈ roster, f.address = f.public_key) → ∀ f ∈ roster', f.address = f.public_key

namespace KeepsOthers

variable {keys : List MalPublicKey} {roster roster' roster'' : List MalValidator} {key : MalPublicKey}

theorem trans (h : KeepsOthers keys roster roster') (h' : KeepsOthers keys roster' roster'') :
    KeepsOthers keys roster roster'' :=
  ⟨h'.others.trans h.others, fun hk => h'.distinct (h.distinct hk), fun ha => h'.address (h.address ha)⟩

theorem of_identities (hid : identities roster' = identities roster)
    (others : roster'.filter (fun f => f.public_key ∉ keys) = roster.filter fun f => f.public_key ∉ keys) :
    KeepsOthers keys roster roster' := by
  refine ⟨others, fun h => ?_, fun h f hf => ?_⟩
  · have hkeys := congrArg (map Prod.snd) hid
    simp only [identities, map_map, Function.comp_def] at hkeys
    rwa [hkeys]
  · have hmem : (f.address, f.public_key) ∈ identities roster := hid ▸ mem_map_of_mem hf
    obtain ⟨g, hg, heq⟩ := mem_map.mp hmem
    rw [Prod.mk.injEq] at heq
    rw [← heq.1, ← heq.2, h g hg]

theorem setFirst (hkey : key ∈ keys) (v : UInt64) : KeepsOthers keys roster
    (modifyFirst (fun f => f.public_key = key) (fun f => { f with voting_power := v }) roster) := by
  apply of_identities
  · induction roster with
    | nil => rfl
    | cons f rest ih =>
      rw [modifyFirst]
      split
      · rfl
      · exact congrArg (cons _) ih
  · induction roster with
    | nil => rfl
    | cons f rest ih =>
      rw [modifyFirst]
      split
      · next hf =>
        have hin : f.public_key ∈ keys := by rwa [of_decide_eq_true hf]
        simp [hin]
      · rw [filter_cons, filter_cons, ih]

theorem push (hkey : key ∈ keys) (amount : UInt64)
    (hnew : (roster.find? fun f => f.public_key = key) = none) :
    KeepsOthers keys roster (roster ++ [MalValidator.new key amount]) := by
  refine ⟨?_, fun h => ?_, fun h => ?_⟩
  · rw [filter_append]
    simp [MalValidator.new, hkey]
  · rw [map_append, map_singleton, nodup_append]
    refine ⟨h, nodup_singleton _, ?_⟩
    intro k hk k' hk' heq
    obtain ⟨f, hf, rfl⟩ := mem_map.mp hk
    rw [mem_singleton.mp hk'] at heq
    exact find?_eq_none.mp hnew f hf (decide_eq_true heq)
  · rw [forall_mem_append]
    exact ⟨h, by simp [MalValidator.new]⟩

end KeepsOthers

theorem StakingAction.target_mem_named (action : StakingAction) : action.target ∈ action.named := by
  unfold StakingAction.named
  split <;> simp

variable {action : StakingAction} {key : MalPublicKey} {is_clear : Bool} {amount : UInt64}
  {names : KeysToNames}

theorem StakingAction.sub_key_mem_named (h : action.sub_key = some (key, is_clear)) :
    key ∈ action.named := by
  unfold StakingAction.sub_key at h
  unfold StakingAction.named
  split at h <;> simp_all

theorem subtract_stake_keeps (h : subtract_stake p roster action = .ok (some (roster', amount))) :
    KeepsOthers action.named roster roster' := by
  unfold subtract_stake at h
  split at h
  · cases h
    exact ⟨rfl, fun h => h, fun h => h⟩
  · next key is_clear hsub =>
    split at h
    · cases h
    · split at h
      · cases h
      · simp only [except_bind_ok] at h
        obtain ⟨a, -, v, -, h⟩ := h
        cases h
        exact .setFirst (StakingAction.sub_key_mem_named hsub) v

theorem KeysToNames.lookup_insert_of_ne {k : MalPublicKey} {name : String}
    (h : k ≠ key) : (names.insert key name).lookup k = names.lookup k := by
  unfold KeysToNames.insert
  rw [lookup_cons, beq_false_of_ne h]
  induction names with
  | nil => rfl
  | cons x rest ih =>
    obtain ⟨k', name'⟩ := x
    rw [filter_cons, lookup_cons]
    by_cases hx : k' = key
    · simpa [hx, beq_false_of_ne h] using ih
    · simp only [ne_eq, hx, not_false_eq_true, decide_true, if_true, lookup_cons]
      rw [← ih]

theorem add_stake_keeps {r : List MalValidator × KeysToNames}
    (h : add_stake p roster names action amount = .ok r) :
    KeepsOthers action.named roster r.1 ∧ ∀ key ≠ action.target, r.2.lookup key = names.lookup key := by
  unfold add_stake at h
  split at h
  · simp only [except_bind_ok] at h
    obtain ⟨v, -, h⟩ := h
    cases h
    exact ⟨.setFirst action.target_mem_named v, fun _ _ => rfl⟩
  · next hnew =>
    cases h
    exact ⟨.push action.target_mem_named amount hnew, fun key hkey => KeysToNames.lookup_insert_of_ne hkey⟩

namespace Ledger

def stake (l : Ledger) (key : MalPublicKey) : Option Nat := (l.find? fun x => x.1 = key).map (·.2)

def Conserves (action : StakingAction) (l l' : Ledger) : Prop :=
  match action.kind with
  | .Add => l'.total = l.total + action.val.toNat
  | .Sub => ∃ old, l.stake action.target = some old ∧ action.val.toNat ≤ old ∧
      l'.stake action.target = some (old - action.val.toNat) ∧ l'.total + action.val.toNat = l.total
  | .Clear => ∃ old, l.stake action.target = some old ∧ action.val.toNat ≤ old ∧
      l'.stake action.target = some action.val.toNat ∧ l'.total + (old - action.val.toNat) = l.total
  | .Move => ∃ old, l.stake action.source = some old ∧ action.val.toNat ≤ old ∧
      l'.stake action.source = some (if action.source = action.target then old else old - action.val.toNat) ∧
      l'.total = l.total
  | .MoveClear => ∃ old, l.stake action.source = some old ∧ action.val.toNat ≤ old ∧
      l'.stake action.source = some (if action.source = action.target then old else action.val.toNat) ∧
      l'.total = l.total

variable {l l' : Ledger} {key : MalPublicKey} {old amount : Nat}

theorem stake_setFirst (h : l.stake key = some old) (w : Nat)
    (k : MalPublicKey) : stake (modifyFirst (fun x => x.1 = key) (fun x => (x.1, w)) l) k =
      if k = key then some w else l.stake k := by
  unfold stake at h ⊢
  induction l with
  | nil => simp at h
  | cons x rest ih =>
    rw [modifyFirst]
    by_cases hx : x.1 = key
    · by_cases hk : k = key
      · simp [hx, hk]
      · simp [hx, hk, Ne.symm hk]
    · rw [find?_cons_of_neg (by simpa using hx)] at h
      rw [if_neg (by simpa using hx), find?_cons, find?_cons]
      by_cases hk : x.1 = k
      · simp [hk, show k ≠ key from hk ▸ hx]
      · simpa [hk] using ih h

theorem total_setFirst (h : l.stake key = some old) (w : Nat) :
    total (modifyFirst (fun x => x.1 = key) (fun x => (x.1, w)) l) + old = l.total + w := by
  unfold stake at h
  induction l with
  | nil => simp at h
  | cons x rest ih =>
    rw [modifyFirst]
    by_cases hx : x.1 = key
    · have hold : x.2 = old := by simpa [hx] using h
      simp only [hx, decide_true, if_true, total_cons]
      rw [show x = (x.1, x.2) from rfl, total_cons]
      omega
    · rw [find?_cons_of_neg (by simpa using hx)] at h
      have hrest := ih h
      rw [if_neg (by simpa using hx), show x = (x.1, x.2) from rfl, total_cons, total_cons]
      omega

theorem subtract_spec {action : StakingAction} (hsub : action.sub_key = some (key, is_clear))
    (h : l.subtract action = some (l', amount)) :
    ∃ old, l.stake key = some old ∧ action.val.toNat ≤ old ∧
      amount = (if is_clear then old - action.val.toNat else action.val.toNat) ∧
      (∀ k, l'.stake k = if k = key then some (old - amount) else l.stake k) ∧ l'.total + amount = l.total := by
  unfold subtract at h
  rw [hsub] at h
  simp only at h
  split at h
  · cases h
  · next k old hfind =>
    have hold : l.stake key = some old := by
      unfold stake
      rw [hfind]
      rfl
    split at h
    · cases h
    · next hle =>
      cases h
      refine ⟨old, hold, by omega, rfl, stake_setFirst hold _, ?_⟩
      have hamount : (if is_clear then old - action.val.toNat else action.val.toNat) ≤ old := by
        split <;> omega
      have htotal := total_setFirst hold (old - if is_clear then old - action.val.toNat else action.val.toNat)
      omega

theorem add_spec (l : Ledger) (key : MalPublicKey) (amount : Nat) :
    (∀ k, (l.add key amount).stake k =
      if k = key then some ((l.stake key).getD 0 + amount) else l.stake k) ∧
      (l.add key amount).total = l.total + amount := by
  unfold add
  split
  · next k old hfind =>
    have hold : l.stake key = some old := by
      unfold stake
      rw [hfind]
      rfl
    have htotal := total_setFirst hold (old + amount)
    rw [hold]
    exact ⟨stake_setFirst hold _, by omega⟩
  · next hfind =>
    refine ⟨fun k => ?_, ?_⟩
    · have hnone : l.stake key = none := by
        unfold stake
        rw [hfind]
        rfl
      rw [hnone]
      unfold stake
      rw [find?_append]
      by_cases hk : k = key
      · simp [hk, hfind]
      · simp [hk, Ne.symm hk]
    · rw [total_append]
      rfl

theorem act_conserves {action : StakingAction} (h : l.subtract action = some (l', amount)) :
    Conserves action l (if action.has_add then l'.add action.target amount else l') := by
  have hadd := add_spec l' action.target amount
  unfold Conserves StakingAction.has_add
  cases hkind : action.kind with
  | Add =>
    have hsub : action.sub_key = none := by rw [StakingAction.sub_key, hkind]
    rw [subtract, hsub] at h
    cases h
    exact hadd.2
  | Sub =>
    obtain ⟨old, hold, hle, hamount, hstake, htotal⟩ :=
      subtract_spec (by rw [StakingAction.sub_key, hkind]) h
    rw [if_neg Bool.false_ne_true] at hamount
    subst hamount
    exact ⟨old, hold, hle, (hstake _).trans (if_pos rfl), htotal⟩
  | Clear =>
    obtain ⟨old, hold, hle, hamount, hstake, htotal⟩ :=
      subtract_spec (by rw [StakingAction.sub_key, hkind]) h
    rw [if_pos rfl] at hamount
    subst hamount
    refine ⟨old, hold, hle, ?_, htotal⟩
    rw [if_neg Bool.false_ne_true, hstake, if_pos rfl, Nat.sub_sub_self hle]
  | Move =>
    obtain ⟨old, hold, hle, hamount, hstake, htotal⟩ :=
      subtract_spec (by rw [StakingAction.sub_key, hkind]) h
    rw [if_neg Bool.false_ne_true] at hamount
    subst hamount
    refine ⟨old, hold, hle, ?_, by rw [if_pos rfl, hadd.2, htotal]⟩
    rw [if_pos rfl, hadd.1, hstake, hstake, if_pos rfl]
    split
    · next heq =>
      rw [if_pos heq.symm, Option.getD_some]
      congr 1
      omega
    · rfl
  | MoveClear =>
    obtain ⟨old, hold, hle, hamount, hstake, htotal⟩ :=
      subtract_spec (by rw [StakingAction.sub_key, hkind]) h
    rw [if_pos rfl] at hamount
    subst hamount
    refine ⟨old, hold, hle, ?_, by rw [if_pos rfl, hadd.2, htotal]⟩
    rw [if_pos rfl, hadd.1, hstake, hstake, if_pos rfl]
    split
    · next heq =>
      rw [if_pos heq.symm, Option.getD_some]
      congr 1
      omega
    · rw [Nat.sub_sub_self hle]

end Ledger

/-- An accepted action changes the total by what its kind says, and only the members it names. Any
other changes nothing. -/
theorem update_roster_for_cmd_conserves (p : Profile) (roster : List MalValidator) (names : KeysToNames)
    (action : StakingAction) (hkeys : (roster.map (·.public_key)).Nodup)
    (hfits : ((ledger roster).act action).MembersFit) :
    ∃ roster' names' cmd_c, update_roster_for_cmd p roster names action = .ok (roster', names', cmd_c) ∧
      (cmd_c = 0 → roster' = roster ∧ names' = names) ∧
      (cmd_c ≠ 0 → (ledger roster).Conserves action (ledger roster') ∧
        roster'.filter (fun f => f.public_key ∉ action.named) =
          roster.filter (fun f => f.public_key ∉ action.named) ∧
        (∀ key ≠ action.target, names'.lookup key = names.lookup key) ∧
        (roster'.map (·.public_key)).Nodup ∧
        ((∀ f ∈ roster, f.address = f.public_key) → ∀ f ∈ roster', f.address = f.public_key)) := by
  obtain ⟨⟨roster', names', c⟩, hok, hledger⟩ :=
    (update_roster_for_cmd_checked p roster names action).returns hfits
  refine ⟨roster', names', c, hok, ?_⟩
  change ledger roster' = _ at hledger
  unfold act at hledger
  obtain ⟨o, hsub, h⟩ := except_bind_ok.mp hok
  obtain ⟨o', hsub', hmap⟩ := (subtract_stake_checked p roster action).returns trivial
  cases hsub.symm.trans hsub'
  cases o with
  | none =>
    cases h
    exact ⟨fun _ => ⟨rfl, rfl⟩, fun hne => absurd rfl hne⟩
  | some r =>
    obtain ⟨after, amount⟩ := r
    rw [← hmap] at hledger
    have hconserves := act_conserves hmap.symm
    have hkept := subtract_stake_keeps hsub
    change ledger roster' = (if action.has_add then _ else _) at hledger
    rw [← hledger] at hconserves
    simp only at h
    split at h
    · obtain ⟨r, hadd, h⟩ := except_bind_ok.mp h
      cases h
      obtain ⟨hadded, hnames⟩ := add_stake_keeps hadd
      have hall := hkept.trans hadded
      exact ⟨fun h => absurd h (by decide), fun _ =>
        ⟨hconserves, hall.others, hnames, hall.distinct hkeys, hall.address⟩⟩
    · cases h
      exact ⟨fun h => absurd h (by decide), fun _ =>
        ⟨hconserves, hkept.others, fun _ _ => rfl, hkept.distinct hkeys, hkept.address⟩⟩

namespace Sample

def moveStake (source target : MalPublicKey) (val : UInt64) : StakingAction where
  kind := .Move
  val := val
  target := target
  source := source
  insecure_target_name := "target"
  insecure_source_name := "source"

end Sample

open Sample

/-- Three of ten zatoshis move to a new finalizer. -/
theorem update_roster_for_cmd_conserves_move :
    ∃ roster' names', update_roster_for_cmd .dev [MalValidator.new (Sample.id 1) 10] []
        (moveStake (Sample.id 1) (Sample.id 2) 3) = .ok (roster', names', 1) ∧
      roster'.map (·.voting_power) = [7, 3] ∧ (ledger [MalValidator.new (Sample.id 1) 10]).Conserves
        (moveStake (Sample.id 1) (Sample.id 2) 3) (ledger roster') := by
  obtain ⟨roster', names', cmd_c, hok, -, hone⟩ := update_roster_for_cmd_conserves .dev
    [MalValidator.new (id 1) 10] [] (moveStake (id 1) (id 2) 3) (by decide)
    (show ∀ x ∈ _, _ by decide)
  have hrun : update_roster_for_cmd .dev [MalValidator.new (id 1) 10] [] (moveStake (id 1) (id 2) 3) =
      .ok ([MalValidator.new (id 1) 7, MalValidator.new (id 2) 3], [(id 2, "target")], 1) := rfl
  cases hok.symm.trans hrun
  exact ⟨_, _, hrun, rfl, (hone (by decide)).1⟩

/-! ## The sorted roster -/

def SortedRosterMember.entry (m : SortedRosterMember) : MalPublicKey × UInt64 := (m.pub_key, m.stake)

theorem cumulate_ok (ms : List SortedRosterMember) {c : UInt64} {ret : List SortedRosterMember}
    (hfits : c.toNat + stakes ms < 2 ^ 64) (h : cumulate p ms c = .ok ret) :
    ret.map (·.entry) = ms.map (·.entry) ∧
      ∀ i m, ret[i]? = some m → m.cumulative_stake.toNat = c.toNat + stakes (ret.take (i + 1)) := by
  induction ms generalizing c ret with
  | nil =>
    cases h
    simp
  | cons a rest ih =>
    simp only [cumulate, except_bind_ok] at h
    obtain ⟨c', hc', ret', hret', h⟩ := h
    cases h
    simp only [stakes, map_cons, sum_cons] at hfits
    rw [addU64_of_lt p c a.stake (by omega)] at hc'
    cases hc'
    have hsum := toNat_add_of_lt c a.stake (by omega)
    obtain ⟨hentries, hrunning⟩ := ih (by rw [hsum]; unfold stakes; omega) hret'
    refine ⟨congrArg (cons _) hentries, fun i m hm => ?_⟩
    cases i with
    | zero =>
      cases hm
      simp [stakes, hsum]
    | succ i =>
      rw [getElem?_cons_succ] at hm
      rw [hrunning i m hm, hsum, take_succ_cons]
      simp only [stakes, map_cons, sum_cons]
      omega

variable (order : PubKeyOrder)

theorem sort_perm {vals vals' : List MalValidator} (h : vals'.Perm vals) :
    (unsummed vals').insertionSort (fun a b => a.before order b) =
      (unsummed vals).insertionSort fun a b => a.before order b := by
  refine Perm.eq_of_pairwise ?_ (pairwise_insertionSort _ _) (pairwise_insertionSort _ _)
    (((perm_insertionSort _ _).trans (h.map _)).trans (perm_insertionSort _ _).symm)
  intro a b ha hb hab hba
  rw [before_iff] at hab hba
  obtain ⟨v, -, rfl⟩ := mem_map.mp ((mem_insertionSort _).mp ha)
  obtain ⟨w, -, rfl⟩ := mem_map.mp ((mem_insertionSort _).mp hb)
  dsimp only at hab hba
  have hkey : v.public_key = w.public_key :=
    order.antisymm _ _ (hba.resolve_left (by omega)).2 (hab.resolve_left (by omega)).2
  have hstake : v.voting_power = w.voting_power := UInt64.toNat_inj.mp (by omega)
  rw [hkey, hstake]

/-- By descending stake, then by descending key, each member once, with running sums. -/
theorem tenderlink_roster_agreed (p : Profile) (order : PubKeyOrder) (vals : List MalValidator)
    (hkeys : (vals.map (·.public_key)).Nodup) (hfits : (ledger vals).total < 2 ^ 64) :
    ∃ ret, (∀ vals', vals'.Perm vals → tenderlink_roster_from_internal p order vals' = .ok ret) ∧
      ret.Pairwise (fun a b => b.stake < a.stake ∨
        a.stake = b.stake ∧ order.le b.pub_key a.pub_key = true ∧ b.pub_key ≠ a.pub_key) ∧
      (ret.map fun m => (m.pub_key, m.stake)).Perm (vals.map fun v => (v.public_key, v.voting_power)) ∧
      (ret.map (·.pub_key)).Nodup ∧
      ∀ i m, ret[i]? = some m → m.cumulative_stake.toNat = ((ret.take (i + 1)).map (·.stake.toNat)).sum := by
  obtain ⟨ret, hok, -⟩ := (tenderlink_roster_checked p vals order).returns hfits
  have hcumulate := hok
  rw [tenderlink_roster_eq] at hcumulate
  obtain ⟨hentries, hrunning⟩ := cumulate_ok _ (by rw [stakes_sorted]; simpa using hfits) hcumulate
  have hperm : (ret.map (·.entry)).Perm (vals.map fun v => (v.public_key, v.voting_power)) := by
    rw [hentries]
    refine ((perm_insertionSort _ _).map _).trans ?_
    simp [unsummed, SortedRosterMember.entry, Function.comp_def]
  have hdistinct : (ret.map (·.pub_key)).Nodup := by
    have hperm' := hperm.map Prod.fst
    simp only [map_map, Function.comp_def, SortedRosterMember.entry] at hperm'
    exact hperm'.nodup_iff.mpr hkeys
  refine ⟨ret, fun vals' h => ?_, ?_, hperm, hdistinct, fun i m hm => ?_⟩
  · rw [tenderlink_roster_eq, sort_perm order h, ← tenderlink_roster_eq, hok]
  · have hsorted : (ret.map (·.entry)).Pairwise fun x y =>
        y.2.toNat < x.2.toNat ∨ x.2.toNat = y.2.toNat ∧ order.le y.1 x.1 = true := by
      rw [hentries, pairwise_map]
      exact (pairwise_insertionSort _ _).imp fun h => (before_iff order _ _).mp h
    refine ((pairwise_map.mp hsorted).and (pairwise_map.mp hdistinct)).imp ?_
    rintro a b ⟨hle, hne⟩
    simp only [SortedRosterMember.entry] at hle
    rw [UInt64.lt_iff_toNat_lt, ← UInt64.toNat_inj]
    exact hle.imp_right fun h => ⟨h.1, h.2, hne.symm⟩
  · rw [hrunning i m hm]
    exact Nat.zero_add _

/-- Two finalizers with equal stake. -/
theorem tenderlink_roster_agreed_tie :
    ∃ ret, tenderlink_roster_from_internal .dev Sample.byteOrder
        [MalValidator.new (Sample.id 2) 5, MalValidator.new (Sample.id 1) 5] = .ok ret ∧
      tenderlink_roster_from_internal .dev Sample.byteOrder
        [MalValidator.new (Sample.id 1) 5, MalValidator.new (Sample.id 2) 5] = .ok ret := by
  obtain ⟨ret, hsame, -⟩ := tenderlink_roster_agreed .dev Sample.byteOrder
    [MalValidator.new (id 1) 5, MalValidator.new (id 2) 5] (by decide) (by decide)
  exact ⟨ret, hsame _ (Perm.swap _ _ _), hsame _ (Perm.refl _)⟩

end ZebraCrosslink
