import Mathlib
import ZebraCrosslink.Bft.Service
import ZebraCrosslink.Rust.Checked

/-!
# Stake arithmetic

`Ledger` is the roster on unbounded numbers. The machine code computes it as long as the numbers fit
`u64`, and with overflow checks stops exactly where they do not.
-/

open Rust List Checked

namespace ZebraCrosslink

/-! ## The exact ledger -/

abbrev Ledger : Type := List (MalPublicKey × Nat)

namespace Ledger

def powers (l : Ledger) : List Nat := l.map (·.2)

def total (l : Ledger) : Nat := l.powers.sum

def MembersFit (l : Ledger) : Prop := ∀ x ∈ l, x.2 < 2 ^ 64

def maxStaker (l : Ledger) : Nat := l.powers.idxOf (l.powers.foldr max 0)

def share (total v : Nat) : Nat := v * 6000 / total

def ownShare (total m i v : Nat) : Nat := if i = m then 0 else share total v

def shares (total m : Nat) : Nat → Ledger → Nat
  | _, [] => 0
  | i, (_, v) :: rest => ownShare total m i v + shares total m (i + 1) rest

def addShares (total m : Nat) : Nat → Ledger → Ledger
  | _, [] => []
  | i, (k, v) :: rest => (k, v + ownShare total m i v) :: addShares total m (i + 1) rest

/-- A block's reward of 6000: a share for everybody, and what is left for the max staker. -/
def reward (l : Ledger) : Ledger :=
  if l.total = 0 then l
  else (addShares l.total l.maxStaker 0 l).modify l.maxStaker fun (k, v) =>
    (k, v + (6000 - shares l.total l.maxStaker 0 l))

/-- The subtracting half of an action: `none` if it is invalid, else the ledger and the amount. -/
def subtract (l : Ledger) (action : StakingAction) : Option (Ledger × Nat) :=
  match action.sub_key with
  | none => some (l, action.val.toNat)
  | some (key, is_clear) =>
    match l.find? fun x => x.1 = key with
    | none => none
    | some (_, v) =>
      if v < action.val.toNat then none
      else
        let amount := if is_clear then v - action.val.toNat else action.val.toNat
        some (modifyFirst (fun x => x.1 = key) (fun x => (x.1, v - amount)) l, amount)

def add (l : Ledger) (key : MalPublicKey) (amount : Nat) : Ledger :=
  match l.find? fun x => x.1 = key with
  | some (_, v) => modifyFirst (fun x => x.1 = key) (fun x => (x.1, v + amount)) l
  | none => l ++ [(key, amount)]

def act (l : Ledger) (action : StakingAction) : Ledger :=
  match l.subtract action with
  | none => l
  | some (l, amount) => if action.has_add then l.add action.target amount else l

def transact (l : Ledger) (tx : Transaction) : Ledger :=
  match tx.staking_action with
  | none => l
  | some action => l.act action

def block (l : Ledger) (b : Block) : Ledger := b.transactions.foldl transact l.reward

/-! ## When the exact numbers fit -/

def TransactionsFit : Ledger → List Transaction → Prop
  | _, [] => True
  | l, tx :: rest => (l.transact tx).MembersFit ∧ TransactionsFit (l.transact tx) rest

/-- The total fits before the block's reward, and everybody's stake after it and after each
transaction. -/
def BlockFits (l : Ledger) (b : Block) : Prop :=
  l.total < 2 ^ 64 ∧ l.reward.MembersFit ∧ TransactionsFit l.reward b.transactions

def BlocksFit : Ledger → List Block → Prop
  | _, [] => True
  | l, b :: rest => l.BlockFits b ∧ BlocksFit (l.block b) rest

/-- One commit: its newly final blocks fit, and the total does when the roster is handed over. -/
def CommitFits (l : Ledger) (blocks : List Block) : Prop :=
  l.BlocksFit blocks ∧ (blocks.foldl block l).total < 2 ^ 64

def RunFits : Ledger → List (List Block) → Prop
  | _, [] => True
  | l, blocks :: rest => l.CommitFits blocks ∧ RunFits (blocks.foldl block l) rest

end Ledger

open Ledger

def ledger (roster : List MalValidator) : Ledger :=
  roster.map fun v => (v.public_key, v.voting_power.toNat)

/-! ## Shares -/

namespace Ledger

theorem total_cons (k : MalPublicKey) (v : Nat) (l : Ledger) :
    total ((k, v) :: l) = v + l.total := by
  simp [total, powers]

theorem total_append (l l' : Ledger) : total (l ++ l') = l.total + l'.total := by
  simp [total, powers]

theorem stake_le_total (l : Ledger) (x : MalPublicKey × Nat) (h : x ∈ l) : x.2 ≤ l.total :=
  single_le_sum (by simp) _ (mem_map_of_mem h)

variable (T : Nat) (a : Nat) (b : Nat)

theorem share_add_le : share T a + share T b ≤ share T (a + b) := by
  unfold share
  rw [Nat.add_mul]
  exact Nat.div_add_div_le_add_div

theorem share_total (h : 0 < T) : share T T = 6000 := by
  rw [share, Nat.mul_comm, Nat.mul_div_cancel _ h]

theorem share_mono (h : a ≤ b) : share T a ≤ share T b :=
  Nat.div_le_div_right (Nat.mul_le_mul_right _ h)

theorem shares_le (m : Nat) (l : Ledger) (i : Nat) : shares T m i l ≤ share T l.total := by
  induction l generalizing i with
  | nil => simp [shares]
  | cons x rest ih =>
    obtain ⟨k, v⟩ := x
    rw [shares, total_cons]
    have hrest := ih (i + 1)
    have hadd := share_add_le T v (total rest)
    unfold ownShare
    split <;> omega

theorem shares_add_share_le (m : Nat) (l : Ledger) (i : Nat) (hi : i ≤ m) (x : MalPublicKey × Nat)
    (hx : l[m - i]? = some x) : shares T m i l + share T x.2 ≤ share T l.total := by
  induction l generalizing i with
  | nil => simp at hx
  | cons y rest ih =>
    obtain ⟨k, v⟩ := y
    rw [shares, total_cons]
    have hadd := share_add_le T v (total rest)
    rcases Nat.eq_or_lt_of_le hi with rfl | hlt
    · obtain rfl : (k, v) = x := by simpa using hx
      have hrest := shares_le T i rest (i + 1)
      rw [ownShare, if_pos rfl]
      change 0 + _ + share T v ≤ _
      omega
    · have hx' : rest[m - (i + 1)]? = some x := by
        rwa [show m - i = (m - (i + 1)) + 1 by omega, getElem?_cons_succ] at hx
      have hrest := ih (i + 1) hlt hx'
      rw [ownShare, if_neg (by omega)]
      omega

end Ledger

/-! ## The roster as a ledger -/

theorem ledger_cons (f : MalValidator) (roster : List MalValidator) :
    ledger (f :: roster) = (f.public_key, f.voting_power.toNat) :: ledger roster := rfl

theorem ledger_append (r r' : List MalValidator) : ledger (r ++ r') = ledger r ++ ledger r' :=
  map_append

variable (roster : List MalValidator)

theorem ledger_membersFit : (ledger roster).MembersFit := by
  intro x hx
  obtain ⟨f, -, rfl⟩ := mem_map.mp hx
  exact f.voting_power.toNat_lt

theorem power_le_total (f : MalValidator) (h : f ∈ roster) :
    f.voting_power.toNat ≤ (ledger roster).total :=
  stake_le_total _ (f.public_key, f.voting_power.toNat) (mem_map_of_mem h)

theorem powerAt_toNat (i : Nat) (x : MalPublicKey × Nat) (h : (ledger roster)[i]? = some x) :
    (powerAt roster i).toNat = x.2 := by
  rw [ledger, getElem?_map, Option.map_eq_some_iff] at h
  obtain ⟨f, hf, rfl⟩ := h
  simp [powerAt, hf]

theorem voting_power_eq_zero (f : MalValidator) : f.voting_power = 0 ↔ f.voting_power.toNat = 0 :=
  UInt64.toNat_inj.symm

/-! ## The first loop -/

namespace Ledger

def firstMax (l : Ledger) : Option Nat := if l.total = 0 then none else some l.maxStaker

variable (l : Ledger) (vs : List Nat) (v : Nat) (k : MalPublicKey)

theorem powers_append_singleton (x : MalPublicKey × Nat) :
    powers (l ++ [x]) = l.powers ++ [x.2] := by
  simp [powers]

theorem foldr_max_append : (vs ++ [v]).foldr max 0 = max (vs.foldr max 0) v := by
  induction vs with
  | nil => simp
  | cons w rest ih => rw [cons_append, foldr_cons, foldr_cons, ih, max_assoc]

theorem le_foldr_max (h : v ∈ vs) : v ≤ vs.foldr max 0 := by
  induction vs with
  | nil => simp at h
  | cons w rest ih =>
    rw [foldr_cons]
    rcases mem_cons.mp h with rfl | h
    · exact le_max_left _ _
    · exact (ih h).trans (le_max_right _ _)

theorem foldr_max_mem (h : vs.foldr max 0 ≠ 0) : vs.foldr max 0 ∈ vs := by
  induction vs with
  | nil => simp at h
  | cons w rest ih =>
    rw [foldr_cons] at h ⊢
    rcases le_total (rest.foldr max 0) w with hle | hle
    · rw [max_eq_left hle]
      exact mem_cons_self
    · rw [max_eq_right hle] at h ⊢
      exact mem_cons_of_mem _ (ih h)

theorem foldr_max_ne_zero (h : l.total ≠ 0) : l.powers.foldr max 0 ≠ 0 := by
  intro h0
  apply h
  rw [total, sum_eq_zero_iff]
  intro v hv
  have := le_foldr_max _ v hv
  omega

theorem getElem?_maxStaker (h : l.total ≠ 0) :
    ∃ x, l[l.maxStaker]? = some x ∧ x.2 = l.powers.foldr max 0 := by
  have hmem := foldr_max_mem l.powers (foldr_max_ne_zero l h)
  have hlt : l.maxStaker < l.powers.length := idxOf_lt_length_iff.mpr hmem
  have hget : l.powers[l.maxStaker] = l.powers.foldr max 0 := getElem_idxOf hlt
  have hlt' : l.maxStaker < l.length := by simpa [powers] using hlt
  refine ⟨l[l.maxStaker], getElem?_eq_getElem hlt', ?_⟩
  rw [← hget]
  simp [powers]

theorem firstMax_append (v : Nat) (hv : v ≠ 0) :
    firstMax (l ++ [(k, v)]) =
      match l.firstMax with
      | none => some l.length
      | some m => if l.powers.getD m 0 < v then some l.length else some m := by
  have htot : total (l ++ [(k, v)]) ≠ 0 := by
    rw [total_append, total_cons]
    omega
  rw [firstMax, if_neg htot, maxStaker, powers_append_singleton, foldr_max_append]
  have hlen : l.powers.length = l.length := by simp [powers]
  by_cases h0 : l.total = 0
  · have hzero : ∀ w ∈ l.powers, w = 0 := sum_eq_zero_iff.mp h0
    have hmax : l.powers.foldr max 0 ≤ 0 := by
      by_contra hpos
      have := hzero _ (foldr_max_mem l.powers (by omega))
      omega
    rw [firstMax, if_pos h0, max_eq_right (by omega),
      idxOf_append_of_notMem (fun hmem => hv (hzero v hmem))]
    simp [hlen]
  · obtain ⟨x, hx, hxmax⟩ := getElem?_maxStaker l h0
    have hD : l.powers.getD l.maxStaker 0 = l.powers.foldr max 0 := by
      rw [← hxmax]
      simp [powers, getD_eq_getElem?_getD, hx]
    rw [firstMax, if_neg h0]
    simp only [hD]
    split
    · rename_i hlt
      have hnot : v ∉ l.powers := fun hmem => by
        have := le_foldr_max _ v hmem
        omega
      rw [max_eq_right hlt.le, idxOf_append_of_notMem hnot]
      simp [hlen]
    · rename_i hle
      rw [max_eq_left (by omega),
        idxOf_append_of_mem (foldr_max_mem _ (foldr_max_ne_zero l h0)), maxStaker]

theorem firstMax_append_zero : firstMax (l ++ [(k, 0)]) = l.firstMax := by
  have htot : total (l ++ [(k, 0)]) = l.total := by
    rw [total_append, total_cons]
    rfl
  rw [firstMax, firstMax, htot]
  split
  · rfl
  · rename_i h0
    rw [maxStaker, powers_append_singleton, foldr_max_append, max_eq_left (Nat.zero_le _),
      idxOf_append_of_mem (foldr_max_mem _ (foldr_max_ne_zero l h0)), maxStaker]

end Ledger

theorem next_max_eq (seen rest : List MalValidator) (f : MalValidator) (h0 : f.voting_power ≠ 0) :
    next_max (seen ++ rest) f seen.length (ledger seen).firstMax =
      (ledger (seen ++ [f])).firstMax := by
  have hv : f.voting_power.toNat ≠ 0 := fun h => h0 ((voting_power_eq_zero f).mpr h)
  have hlen : length (ledger seen) = seen.length := length_map _
  rw [ledger_append, ledger_cons, show ledger [] = [] from rfl, firstMax_append _ _ _ hv, hlen]
  by_cases htot : (ledger seen).total = 0
  · rw [firstMax, if_pos htot]
    rfl
  · obtain ⟨x, hx, -⟩ := getElem?_maxStaker _ htot
    have hx' : (ledger (seen ++ rest))[(ledger seen).maxStaker]? = some x := by
      rw [ledger_append, List.getElem?_append_left (List.getElem?_eq_some_iff.mp hx).1, hx]
    have hpower : (ledger seen).powers.getD (ledger seen).maxStaker 0 = x.2 := by
      simp [powers, getD_eq_getElem?_getD, hx]
    rw [firstMax, if_neg htot]
    simp only [next_max, UInt64.lt_iff_toNat_lt, powerAt_toNat _ _ _ hx', hpower]

variable (p : Profile) (T : UInt64)

theorem scan_power_checked (rest seen : List MalValidator) (t : UInt64)
    (ht : t.toNat = (ledger seen).total) : Checked p ((ledger (seen ++ rest)).total < 2 ^ 64)
      (scan_power p (seen ++ rest) rest seen.length t (ledger seen).firstMax)
      fun r => r.1.toNat = (ledger (seen ++ rest)).total ∧
        r.2 = (ledger (seen ++ rest)).firstMax := by
  induction rest generalizing seen t with
  | nil =>
    have hfit : (ledger (seen ++ [])).total < 2 ^ 64 := by
      rw [append_nil, ← ht]
      exact t.toNat_lt
    rw [scan_power]
    exact (ofOk (by simp [ht])).imp ⟨fun _ => hfit, fun _ => trivial⟩ fun _ _ h => h
  | cons f rest ih =>
    have hsplit : seen ++ f :: rest = (seen ++ [f]) ++ rest := by simp
    have hlen : seen.length + 1 = (seen ++ [f]).length := by simp
    have htot : (ledger (seen ++ [f])).total = (ledger seen).total + f.voting_power.toNat := by
      rw [ledger_append, total_append, ledger_cons, total_cons]
      rfl
    simp only [scan_power]
    split
    · rename_i h0
      have hn := (voting_power_eq_zero f).mp h0
      have hmax : (ledger seen).firstMax = (ledger (seen ++ [f])).firstMax := by
        rw [ledger_append, ledger_cons, hn]
        exact (firstMax_append_zero _ _).symm
      rw [hsplit, hlen, hmax]
      exact ih (seen ++ [f]) t (by omega)
    · rename_i h0
      rw [next_max_eq seen (f :: rest) f h0, hsplit, hlen]
      refine (bind (addU64 p t f.voting_power) fun t' ht' =>
        ih (seen ++ [f]) t' (by omega)).imp ?_ fun _ _ h => h
      -- a partial sum is at most the whole one
      have hle : (ledger (seen ++ [f])).total ≤ (ledger (seen ++ [f] ++ rest)).total := by
        rw [ledger_append (seen ++ [f]), total_append]
        omega
      omega

/-! ## The second loop -/

theorem reward_share_ok (v : UInt64) (hT : 0 < T.toNat) (hv : v.toNat ≤ T.toNat) :
    ∃ r, reward_share T v = .ok r ∧ r.toNat = Ledger.share T.toNat v.toNat := by
  have hne : T ≠ 0 := fun h => by simp [h] at hT
  have hle : Ledger.share T.toNat v.toNat ≤ 6000 :=
    share_total _ hT ▸ share_mono _ _ _ hv
  refine ⟨_, by rw [reward_share, if_neg hne], ?_⟩
  exact UInt64.toNat_ofNat_of_lt' (lt_of_le_of_lt hle (by decide))

theorem share_rewards_none (rest : List MalValidator) (i : Nat) (sum : UInt64)
    (h : ∀ f ∈ rest, f.voting_power = 0) : share_rewards p T none rest i sum = .ok (rest, sum) := by
  induction rest generalizing i with
  | nil => rfl
  | cons f rest ih =>
    have hf : share_reward p T none i f sum = .ok (f, sum) := by
      rw [share_reward, if_pos (h f mem_cons_self)]
    rw [share_rewards, hf]
    change (share_rewards p T none rest (i + 1) sum >>= _) = _
    rw [ih (i + 1) fun g hg => h g (mem_cons_of_mem _ hg)]
    rfl

theorem share_reward_checked (hT : 0 < T.toNat) (m i : Nat) (f : MalValidator) (sum : UInt64)
    (hle : f.voting_power.toNat ≤ T.toNat)
    (hsum : sum.toNat + ownShare T.toNat m i f.voting_power.toNat ≤ 6000) :
    Checked p (f.voting_power.toNat + ownShare T.toNat m i f.voting_power.toNat < 2 ^ 64)
      (share_reward p T (some m) i f sum) fun r => r.1.public_key = f.public_key ∧
        r.1.voting_power.toNat = f.voting_power.toNat + ownShare T.toNat m i f.voting_power.toNat ∧
        r.2.toNat = sum.toNat + ownShare T.toNat m i f.voting_power.toNat := by
  have hlt := f.voting_power.toNat_lt
  unfold share_reward
  by_cases h0 : f.voting_power = 0
  · have hown : ownShare T.toNat m i f.voting_power.toNat = 0 := by
      simp [ownShare, Ledger.share, h0]
    rw [if_pos h0, hown]
    exact (ofOk ⟨rfl, rfl, rfl⟩).imp (by simpa using hlt) fun _ _ h => h
  rw [if_neg h0]
  by_cases him : i = m
  · rw [ownShare, if_pos him]
    simp only [if_pos him]
    exact (ofOk ⟨rfl, rfl, rfl⟩).imp (by simpa using hlt) fun _ _ h => h
  · rw [ownShare, if_neg him] at hsum ⊢
    simp only [if_neg him]
    obtain ⟨r, hr, hrn⟩ := reward_share_ok T f.voting_power hT hle
    rw [hr]
    change Checked p _ (addU64 p sum r >>= _) _
    rw [← hrn] at hsum ⊢
    have hsumFits : sum.toNat + r.toNat < 2 ^ 64 := lt_of_le_of_lt hsum (by decide)
    refine (bind (addU64 p sum r) fun s hs =>
      bindOk (addU64 p f.voting_power r) fun v hv =>
        ⟨_, rfl, rfl, hv, hs⟩).imp ?_ fun _ _ h => h
    exact ⟨fun h => h.2, fun h => ⟨hsumFits, h⟩⟩

theorem share_rewards_checked (hT : 0 < T.toNat) (m : Nat) (rest : List MalValidator) (i : Nat)
    (sum : UInt64) (hle : ∀ f ∈ rest, f.voting_power.toNat ≤ T.toNat)
    (hsum : sum.toNat + shares T.toNat m i (ledger rest) ≤ 6000) :
    Checked p (addShares T.toNat m i (ledger rest)).MembersFit
      (share_rewards p T (some m) rest i sum)
      fun r => ledger r.1 = addShares T.toNat m i (ledger rest) ∧
        r.2.toNat = sum.toNat + shares T.toNat m i (ledger rest) := by
  induction rest generalizing i sum with
  | nil =>
    refine (ofOk ?_).imp ⟨fun _ => by simp [MembersFit, ledger, addShares],
      fun _ => trivial⟩ fun _ _ h => h
    exact ⟨rfl, rfl⟩
  | cons f rest ih =>
    rw [ledger_cons, shares] at hsum
    rw [ledger_cons, addShares, shares, share_rewards]
    have hround := share_reward_checked p T hT m i f sum (hle f mem_cons_self) (by omega)
    refine (bind hround fun r hr => bindOk
      (ih (i + 1) r.2 (fun g hg => hle g (mem_cons_of_mem f hg)) (by omega)) fun r' hr' =>
        ⟨(r.1 :: r'.1, r'.2), rfl, ?_⟩).imp (by simp [MembersFit]) fun _ _ h => h
    obtain ⟨hkey, hpower, hs⟩ := hr
    refine ⟨by rw [ledger_cons, hkey, hpower, hr'.1], ?_⟩
    change r'.2.toNat = _
    omega

/-! ## A block's reward -/

namespace Ledger

theorem addShares_getElem? (T m : Nat) (l : Ledger) (i j : Nat) :
    (addShares T m i l)[j]? = l[j]?.map fun x => (x.1, x.2 + ownShare T m (i + j) x.2) := by
  induction l generalizing i j with
  | nil => simp [addShares]
  | cons x rest ih =>
    cases j with
    | zero => simp [addShares]
    | succ j =>
      rw [addShares, getElem?_cons_succ, getElem?_cons_succ, ih,
        show i + 1 + j = i + (j + 1) by omega]

theorem membersFit_modify (l : Ledger) (m d : Nat) (x : MalPublicKey × Nat) (hx : l[m]? = some x) :
    MembersFit (l.modify m fun (k, v) => (k, v + d)) ↔ l.MembersFit ∧ x.2 + d < 2 ^ 64 := by
  simp only [MembersFit, mem_iff_getElem?, getElem?_modify]
  constructor
  · intro h
    have hm := h (x.1, x.2 + d) ⟨m, by simp [hx]⟩
    refine ⟨?_, hm⟩
    rintro y ⟨j, hj⟩
    by_cases hjm : m = j
    · obtain rfl : x = y := by rw [← hjm, hx, Option.some_inj] at hj; exact hj
      exact lt_of_le_of_lt (Nat.le_add_right _ _) hm
    · exact h y ⟨j, by simp [hjm, hj]⟩
  · rintro ⟨hl, hm⟩ y ⟨j, hj⟩
    obtain ⟨z, hz, rfl⟩ := Option.map_eq_some_iff.mp hj
    by_cases hjm : m = j
    · obtain rfl : x = z := by rw [← hjm, hx, Option.some_inj] at hz; exact hz
      simpa [hjm] using hm
    · simpa [hjm] using hl z ⟨j, hz⟩

end Ledger

theorem ledger_modify (m : Nat) (w : UInt64) (x : MalPublicKey × Nat) (d : Nat)
    (hx : (ledger roster)[m]? = some x) (hw : w.toNat = x.2 + d) :
    ledger (roster.modify m fun f => { f with voting_power := w }) =
      (ledger roster).modify m fun (k, v) => (k, v + d) := by
  apply ext_getElem?
  intro j
  rw [getElem?_modify]
  simp only [ledger, getElem?_map, getElem?_modify] at hx ⊢
  cases hj : roster[j]? with
  | none => rfl
  | some f =>
    by_cases hjm : m = j
    · rw [hjm, hj] at hx
      obtain rfl := Option.some_inj.mp hx
      simp [hjm, hw]
    · simp [hjm]

theorem pay_max_staker_checked (hT : 0 < T.toNat) (fs : List MalValidator) (sum : UInt64) (m : Nat)
    (x : MalPublicKey × Nat) (hx : (ledger fs)[m]? = some x) (hle : x.2 ≤ T.toNat)
    (hsum : sum.toNat + Ledger.share T.toNat x.2 ≤ 6000) :
    Checked p (x.2 + (6000 - sum.toNat) < 2 ^ 64) (pay_max_staker p T fs sum (some m))
      fun r => ledger r = (ledger fs).modify m fun (k, v) => (k, v + (6000 - sum.toNat)) := by
  have hpower := powerAt_toNat fs m x hx
  obtain ⟨r, hr, hrn⟩ := reward_share_ok T (powerAt fs m) hT (hpower ▸ hle)
  rw [pay_max_staker, hr]
  change Checked p _ (subU64 p pos_total_reward sum >>= _) _
  refine bindTotal (subU64 p pos_total_reward sum (by change _ ≤ 6000; omega)) fun w hw => ?_
  change w.toNat = 6000 - sum.toNat at hw
  rw [if_pos (UInt64.le_iff_toNat_le.mpr (by rw [hrn, hw, hpower]; omega)), ← hw, ← hpower]
  refine bindOk (addU64 p (powerAt fs m) w) fun v hv => ⟨_, rfl, ?_⟩
  exact ledger_modify fs m v x w.toNat hx (by rw [hv, hpower])

theorem distribute_rewards_checked (roster : List MalValidator) :
    Checked p ((ledger roster).total < 2 ^ 64 ∧ (ledger roster).reward.MembersFit)
      (distribute_rewards p roster) fun r => ledger r = (ledger roster).reward := by
  refine bind (scan_power_checked p roster [] 0 rfl) ?_
  rintro ⟨T, max⟩ ⟨hT, rfl⟩
  rw [nil_append] at hT ⊢
  change T.toNat = _ at hT
  change Checked p _ (share_rewards p T _ roster 0 0 >>= _) _
  rw [firstMax, reward]
  by_cases h0 : (ledger roster).total = 0
  · -- nobody has stake: nothing is paid
    have hzero : ∀ f ∈ roster, f.voting_power = 0 := by
      intro f hf
      have := power_le_total roster f hf
      exact (voting_power_eq_zero f).mpr (by omega)
    rw [if_pos h0, if_pos h0, share_rewards_none p T roster 0 0 hzero]
    exact (ofOk rfl).imp ⟨fun _ => ledger_membersFit roster, fun _ => trivial⟩
      fun _ _ h => congrArg ledger h.symm
  · obtain ⟨x, hx, -⟩ := getElem?_maxStaker _ h0
    have hxle : x.2 ≤ T.toNat := hT ▸ stake_le_total _ x (mem_of_getElem? hx)
    have hpos : 0 < T.toNat := by omega
    have hall := shares_add_share_le T.toNat (ledger roster).maxStaker (ledger roster) 0
      (Nat.zero_le _) x hx
    rw [← hT, share_total _ hpos] at hall
    rw [if_neg h0, if_neg h0, ← hT]
    have hmem : ∀ f ∈ roster, f.voting_power.toNat ≤ T.toNat := fun f hf =>
      hT ▸ power_le_total roster f hf
    have hkeep : (addShares T.toNat (ledger roster).maxStaker 0 (ledger roster))[
        (ledger roster).maxStaker]? = some x := by
      rw [addShares_getElem?, hx, Option.map_some, Nat.zero_add, ownShare, if_pos rfl, Nat.add_zero]
    rw [membersFit_modify _ _ _ x hkeep]
    refine bind (share_rewards_checked p T hpos _ roster 0 0 hmem (by
      change 0 + _ ≤ _
      omega)) ?_
    rintro ⟨fs, sum⟩ ⟨hfs, hsum⟩
    change ledger fs = _ at hfs
    have hsum' : sum.toNat = shares T.toNat (ledger roster).maxStaker 0 (ledger roster) := by
      rw [hsum]
      exact Nat.zero_add _
    rw [← hfs] at hkeep ⊢
    rw [← hsum'] at hall ⊢
    exact pay_max_staker_checked p T hpos fs sum _ x hkeep hxle hall

end ZebraCrosslink
