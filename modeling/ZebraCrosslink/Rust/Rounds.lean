import Mathlib

/-!
# Reading a stream in rounds

In each round, the items that have arrived are read one after the other, until one of them gives no
message.
-/

namespace Rounds

open List

variable {F M : Type} (size : F → Nat) (message : F → Option M)

def total (items : List F) : Nat := (items.map size).sum

/-- One round, with the messages it gives and the items it leaves. -/
def round (missing : Nat) : List F → List M × List F
  | [] => ([], [])
  | f :: rest =>
    if missing ≤ total size rest then
      match message f with
      | some m => (m :: (round missing rest).1, (round missing rest).2)
      | none => ([], rest)
    else ([], f :: rest)

/-- A round for each entry. -/
def rounds : List Nat → List F → List M × List F
  | [], items => ([], items)
  | missing :: later, items =>
    ((round size message missing items).1 ++ (rounds later (round size message missing items).2).1,
      (rounds later (round size message missing items).2).2)

/-- The items without a message that have an item with one behind them. -/
def backlog : List F → Nat
  | [] => 0
  | f :: rest =>
    if message f = none ∧ rest.filterMap message ≠ [] then backlog rest + 1 else backlog rest

/-- Each item without a message that has an item with one behind it is there in more rounds than
such items follow, itself included. -/
def InTime (missing : List Nat) (items : List F) : Prop :=
  ∀ f rest, f :: rest <:+ items → message f = none → rest.filterMap message ≠ [] →
    backlog message (f :: rest) < missing.countP (· ≤ total size rest)

variable {size message} {items rest l' l : List F} {f : F} {n : Nat} {ns : List Nat}

theorem total_le_of_suffix (h : l <:+ l') : total size l ≤ total size l' := by
  obtain ⟨pre, rfl⟩ := h
  rw [total, total, map_append, sum_append]
  omega

theorem backlog_le_of_suffix (message : F → Option M) (h : l <:+ l') :
    backlog message l ≤ backlog message l' := by
  obtain ⟨pre, rfl⟩ := h
  induction pre with
  | nil => rfl
  | cons a pre ih =>
    rw [cons_append, backlog]
    split <;> omega

theorem filterMap_ne_nil_of_suffix (h : l <:+ l') (hne : l.filterMap message ≠ []) :
    l'.filterMap message ≠ [] := by
  intro hnil
  have hsuffix := h.filterMap message
  rw [hnil] at hsuffix
  exact hne (suffix_nil.mp hsuffix)

/-! ## Nothing is lost -/

theorem round_messages (n : Nat) (items : List F) :
    (round size message n items).1 ++ (round size message n items).2.filterMap message =
      items.filterMap message := by
  fun_induction round size message n items with
  | case1 => rfl
  | case2 f rest hle m hm ih => rw [cons_append, ih, filterMap_cons_some hm]
  | case3 f rest hle hm => rw [nil_append, filterMap_cons_none hm]
  | case4 => rfl

theorem rounds_messages (size : F → Nat) (message : F → Option M) (ns : List Nat) (items : List F) :
    (rounds size message ns items).1 ++ (rounds size message ns items).2.filterMap message =
      items.filterMap message := by
  induction ns generalizing items with
  | nil => rfl
  | cons n ns ih => rw [rounds, append_assoc, ih, round_messages]

theorem round_subset (size : F → Nat) (message : F → Option M) (n : Nat) (items : List F) :
    (round size message n items).2 ⊆ items := by
  fun_induction round size message n items with
  | case1 => exact Subset.refl _
  | case2 f rest hle m hm ih => exact subset_cons_of_subset _ ih
  | case3 f rest hle hm => exact subset_cons_self _ _
  | case4 => exact Subset.refl _

/-! ## When everything has been read -/

theorem backlog_cons (hf : message f = none) (hrest : rest.filterMap message ≠ []) :
    backlog message (f :: rest) = backlog message rest + 1 := by
  rw [backlog, if_pos ⟨hf, hrest⟩]

theorem exists_of_backlog_pos (h : 0 < backlog message items) :
    ∃ f rest, f :: rest <:+ items ∧ message f = none ∧ rest.filterMap message ≠ [] ∧
      backlog message (f :: rest) = backlog message items := by
  induction items with
  | nil => cases h
  | cons a items ih =>
    by_cases ha : message a = none ∧ items.filterMap message ≠ []
    · exact ⟨a, items, suffix_refl _, ha.1, ha.2, rfl⟩
    · rw [backlog, if_neg ha] at h
      obtain ⟨f, rest, hsuffix, hf, hrest, heq⟩ := ih h
      refine ⟨f, rest, hsuffix.trans (suffix_cons _ _), hf, hrest, ?_⟩
      rw [heq, backlog, if_neg ha]

theorem inTime_cons : InTime size message ns (f :: rest) ↔
    (message f = none → rest.filterMap message ≠ [] →
      backlog message rest + 1 < ns.countP (· ≤ total size rest)) ∧
      InTime size message ns rest := by
  constructor
  · intro h
    refine ⟨fun hf hrest => ?_, fun g rest' hsuffix => h g rest' (hsuffix.trans (suffix_cons _ _))⟩
    rw [← backlog_cons hf hrest]
    exact h f rest (suffix_refl _) hf hrest
  · rintro ⟨hhead, hrest⟩ g rest' hsuffix hg hrest'
    rcases suffix_cons_iff.mp hsuffix with heq | hsuffix
    · obtain ⟨rfl, rfl⟩ := cons.inj heq
      rw [backlog_cons hg hrest']
      exact hhead hg hrest'
    · exact hrest g rest' hsuffix hg hrest'

theorem countP_eq_length (hle : ∀ m ∈ ns, m ≤ n) {k : Nat} (hk : n ≤ k) :
    ns.countP (· ≤ k) = ns.length := by
  rw [List.countP_eq_length]
  intro m hm
  have := hle m hm
  simp only [decide_eq_true_eq]
  omega

theorem inTime_of_lt (h : total size items < n) :
    InTime size message (n :: ns) (f :: items) ↔ InTime size message ns (f :: items) := by
  have hcount : ∀ g rest, g :: rest <:+ f :: items →
      (n :: ns).countP (· ≤ total size rest) = ns.countP (· ≤ total size rest) := by
    intro g rest hsuffix
    have hle : total size rest ≤ total size items := by
      rcases suffix_cons_iff.mp hsuffix with heq | hsuffix
      · rw [(cons.inj heq).2]
      · exact total_le_of_suffix ((suffix_cons _ _).trans hsuffix)
    rw [countP_cons_of_neg]
    simp only [decide_eq_true_eq]
    omega
  constructor
  · intro hin g rest hsuffix hg hrest
    rw [← hcount g rest hsuffix]
    exact hin g rest hsuffix hg hrest
  · intro hin g rest hsuffix hg hrest
    rw [hcount g rest hsuffix]
    exact hin g rest hsuffix hg hrest

theorem inTime_skip (hle : ∀ m ∈ ns, m ≤ n) (hn : n ≤ total size rest) (hf : message f = none) :
    InTime size message (n :: ns) (f :: rest) ↔
      InTime size message ns rest ∧ (rest.filterMap message ≠ [] → ns ≠ []) := by
  have hall : (n :: ns).countP (· ≤ total size rest) = ns.length + 1 :=
    countP_eq_length (n := n) (by simpa using hle) hn
  rw [inTime_cons, hall]
  constructor
  · rintro ⟨hhead, hrest⟩
    refine ⟨fun g rest' hsuffix hg hrest' => ?_, fun hknown => ?_⟩
    · have hcount := hrest g rest' hsuffix hg hrest'
      by_cases harrived : n ≤ total size rest'
      · have hknown : rest.filterMap message ≠ [] :=
          filterMap_ne_nil_of_suffix ((suffix_cons g rest').trans hsuffix) hrest'
        have hlong := hhead hf hknown
        have hshort := backlog_le_of_suffix message hsuffix
        rw [countP_eq_length hle harrived]
        omega
      · rwa [countP_cons_of_neg (by simpa using harrived)] at hcount
    · have hlong := hhead hf hknown
      rintro rfl
      simp at hlong
  · rintro ⟨hrest, hround⟩
    refine ⟨fun _ hknown => ?_, fun g rest' hsuffix hg hrest' => ?_⟩
    · rcases Nat.eq_zero_or_pos (backlog message rest) with hzero | hpos
      · have := length_pos_iff.mpr (hround hknown)
        omega
      · obtain ⟨g, rest', hsuffix, hg, hrest', heq⟩ := exists_of_backlog_pos hpos
        have hcount := hrest g rest' hsuffix hg hrest'
        have := ns.countP_le_length (p := (decide <| · ≤ total size rest'))
        omega
    · have hcount := hrest g rest' hsuffix hg hrest'
      rw [countP_cons]
      omega

theorem InTime.congr {M' : Type} {message' : F → Option M'}
    (hsome : ∀ f ∈ items, message f = none ↔ message' f = none) :
    InTime size message ns items ↔ InTime size message' ns items := by
  have hknown : ∀ rest, rest <:+ items → (rest.filterMap message ≠ [] ↔ rest.filterMap message' ≠ []) := by
    intro rest hsuffix
    rw [not_iff_not, filterMap_eq_nil_iff, filterMap_eq_nil_iff]
    exact forall₂_congr fun f hf => hsome f (hsuffix.subset hf)
  have hbacklog : ∀ rest, rest <:+ items → backlog message rest = backlog message' rest := by
    intro rest hsuffix
    induction rest with
    | nil => rfl
    | cons f rest ih =>
      have htail := (suffix_cons f rest).trans hsuffix
      simp only [backlog, hsome f (hsuffix.subset mem_cons_self), hknown rest htail, ih htail]
  refine forall₃_congr fun f rest hsuffix => ?_
  rw [hsome f (hsuffix.subset mem_cons_self), hknown rest ((suffix_cons f rest).trans hsuffix),
    hbacklog _ hsuffix]

/-- The later rounds have less missing, and after the last round nothing is. -/
structure Arriving (ns : List Nat) : Prop where
  sorted : ns.Pairwise (· ≥ ·)
  complete : ∀ n, ns.getLast? = some n → n = 0

theorem Arriving.tail (h : Arriving (n :: ns)) : Arriving ns where
  sorted := (pairwise_cons.mp h.sorted).2
  complete m hm := h.complete m (by
    cases ns with
    | nil => cases hm
    | cons a ns => rwa [getLast?_cons_cons])

theorem round_inTime (h : Arriving (n :: ns)) (items : List F) :
    (InTime size message ns (round size message n items).2 ∧
      ((round size message n items).2.filterMap message ≠ [] → ns ≠ [])) ↔
      InTime size message (n :: ns) items := by
  have hle := (pairwise_cons.mp h.sorted).1
  fun_induction round size message n items with
  | case1 => simp [InTime]
  | case2 f rest harrived m hm ih =>
    refine ih.trans ?_
    rw [inTime_cons]
    simp [hm]
  | case3 f rest harrived hm => rw [inTime_skip hle harrived hm]
  | case4 f rest hmissing =>
    rw [inTime_of_lt (by omega)]
    refine and_iff_left fun _ => ?_
    rintro rfl
    have := h.complete n rfl
    omega

theorem rounds_eq_iff (h : Arriving ns) (hne : items.filterMap message ≠ [] → ns ≠ []) :
    (rounds size message ns items).1 = items.filterMap message ↔ InTime size message ns items := by
  have hleft : (rounds size message ns items).1 = items.filterMap message ↔
      (rounds size message ns items).2.filterMap message = [] := by
    rw [← rounds_messages size message ns items]
    exact self_eq_append_right
  rw [hleft]
  clear hleft
  suffices hsuff : (rounds size message ns items).2.filterMap message = [] ↔
      InTime size message ns items ∧ (items.filterMap message ≠ [] → ns ≠ []) by
    rw [hsuff]
    exact and_iff_left hne
  clear hne
  induction ns generalizing items with
  | nil =>
    constructor
    · intro hnil
      refine ⟨fun f rest hsuffix _ hrest => ?_, fun hne => absurd hnil hne⟩
      exact absurd hnil (filterMap_ne_nil_of_suffix ((suffix_cons f rest).trans hsuffix) hrest)
    · rintro ⟨-, hne⟩
      by_contra hknown
      exact hne hknown rfl
  | cons n ns ih =>
    rw [rounds, ih h.tail, round_inTime h]
    simp

end Rounds
