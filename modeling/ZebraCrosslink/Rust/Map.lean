import Mathlib

/-!
# Maps that are updated and reverted

An index is kept by inserting keys that must be new and, when the insertion is reverted, by removing
keys that must be there.
-/

namespace Rust

open List
open Finmap (ext_lookup lookup_insert mem_iff mem_insert mem_keys mem_of_lookup_eq_some)

abbrev Map (κ α : Type) : Type := Finmap fun _ : κ => α

namespace Map

variable {κ α β : Type}

theorem keys_nodup_of_le {s t : Multiset (Sigma fun _ : κ => α)} (h : s ≤ t) (ht : t.NodupKeys) :
    s.NodupKeys :=
  Multiset.nodup_keys.mp (Multiset.nodup_of_le (Multiset.map_le_map h) (Multiset.nodup_keys.mpr ht))

/-- `retain`, and the entries an iterator finds. -/
def filter (m : Map κ α) (p : κ → α → Bool) : Map κ α where
  entries := m.entries.filter fun e => p e.1 e.2
  nodupKeys := keys_nodup_of_le (Multiset.filter_le _ _) m.nodupKeys

section

variable [DecidableEq κ] {k : κ} {m m' : Map κ α} {a : α} {l l' : List (κ × α)}

theorem lookup_filter (m : Map κ α) (p : κ → α → Bool) (k : κ) :
    (m.filter p).lookup k = (m.lookup k).filter (p k) := by
  refine Option.ext fun a => ?_
  rw [Option.filter_eq_some_iff, Finmap.lookup_eq_some_iff, Finmap.lookup_eq_some_iff]
  exact Multiset.mem_filter

theorem mem_filter {p : κ → α → Bool} :
    k ∈ m.filter p ↔ ∃ a, m.lookup k = some a ∧ p k a = true := by
  rw [mem_iff]
  simp [lookup_filter]

theorem lookup_insert' (m : Map κ α) (k k' : κ) (a : α) :
    (m.insert k a).lookup k' = if k' = k then some a else m.lookup k' := by
  split
  · next h =>
    subst h
    exact lookup_insert m
  · next h => exact Finmap.lookup_insert_of_ne m h

theorem lookup_erase' (m : Map κ α) (k k' : κ) :
    (m.erase k).lookup k' = if k' = k then none else m.lookup k' := by
  split
  · next h =>
    subst h
    exact Finmap.lookup_erase _ m
  · next h => exact Finmap.lookup_erase_ne h

theorem erase_insert (a : α) (h : k ∉ m) : (m.insert k a).erase k = m := by
  refine ext_lookup fun k' => ?_
  rw [lookup_erase', lookup_insert']
  split
  · next heq => rw [heq, Finmap.lookup_eq_none.mpr h]
  · rfl

theorem insert_of_lookup (h : m.lookup k = some a) : m.insert k a = m := by
  refine ext_lookup fun k' => ?_
  rw [lookup_insert']
  split
  · next heq => rw [heq, h]
  · rfl

theorem erase_of_notMem (h : k ∉ m) : m.erase k = m := by
  refine ext_lookup fun k' => ?_
  rw [lookup_erase']
  split
  · next heq => rw [heq, Finmap.lookup_eq_none.mpr h]
  · rfl

theorem lookup_foldl_erase {β : Type} (f : β → κ) (l : List β) (m : Map κ α) (k : κ) (a : α) :
    (l.foldl (fun m x => m.erase (f x)) m).lookup k = some a ↔
      m.lookup k = some a ∧ ∀ x ∈ l, f x ≠ k := by
  induction l generalizing m with
  | nil => simp
  | cons x l ih =>
    rw [foldl_cons, ih, lookup_erase', forall_mem_cons]
    by_cases hx : k = f x <;> simp [hx, eq_comm]

theorem lookup_foldl_insert {β : Type} (f : β → κ) (g : β → α) {l : List β}
    (hone : ∀ x ∈ l, ∀ y ∈ l, f x = f y → g x = g y) (m : Map κ α) (k : κ) (a : α) :
    (l.foldl (fun m x => m.insert (f x) (g x)) m).lookup k = some a ↔
      (∃ x ∈ l, f x = k ∧ g x = a) ∨ m.lookup k = some a ∧ ∀ x ∈ l, f x ≠ k := by
  induction l generalizing m with
  | nil => simp
  | cons x l ih =>
    have hrest : ∀ y ∈ l, ∀ z ∈ l, f y = f z → g y = g z := fun y hy z hz =>
      hone y (mem_cons_of_mem _ hy) z (mem_cons_of_mem _ hz)
    rw [foldl_cons, ih hrest, lookup_insert']
    simp only [mem_cons, exists_eq_or_imp, forall_eq_or_imp]
    by_cases hx : f x = k
    · have hsame : ∀ y ∈ l, f y = k → g y = g x := fun y hy hk =>
        hone y (mem_cons_of_mem _ hy) x mem_cons_self (hk.trans hx.symm)
      simp only [hx, if_true, true_and, ne_eq, not_true, false_and, and_false, or_false,
        Option.some.injEq]
      constructor
      · rintro (h | ⟨h, -⟩)
        · exact .inr h
        · exact .inl h
      · rintro (h | h)
        · by_cases hl : ∃ y ∈ l, f y = k
          · obtain ⟨y, hy, hk⟩ := hl
            exact .inl ⟨y, hy, hk, (hsame y hy hk).trans h⟩
          · exact .inr ⟨h, fun y hy hk => hl ⟨y, hy, hk⟩⟩
        · exact .inl h
    · simp [hx, Ne.symm hx]

/-! ## New keys and old keys -/

/-- `insert`, where the key is asserted to be new. -/
def insertNew (m : Map κ α) (k : κ) (a : α) : Option (Map κ α) :=
  if k ∈ m then none else some (m.insert k a)

/-- `remove`, where the key is asserted to be there. -/
def removeOld (m : Map κ α) (k : κ) : Option (Map κ α) :=
  if k ∈ m then some (m.erase k) else none

theorem insertNew_eq_some : m.insertNew k a = some m' ↔ k ∉ m ∧ m' = m.insert k a := by
  unfold insertNew
  split <;> simp [*, eq_comm]

theorem removeOld_eq_some : m.removeOld k = some m' ↔ k ∈ m ∧ m' = m.erase k := by
  unfold removeOld
  split <;> simp [*, eq_comm]

def insertAll : Map κ α → List (κ × α) → Option (Map κ α) := foldlM fun m e => m.insertNew e.1 e.2

def removeAll : Map κ α → List κ → Option (Map κ α) := foldlM removeOld

theorem insertAll_cons {rest : List (κ × α)} :
    m.insertAll ((k, a) :: rest) = some m' ↔ k ∉ m ∧ insertAll (m.insert k a) rest = some m' := by
  simp only [insertAll, foldlM_cons, Option.bind_eq_bind, Option.bind_eq_some_iff, insertNew_eq_some]
  constructor
  · rintro ⟨_, ⟨h, rfl⟩, h'⟩
    exact ⟨h, h'⟩
  · rintro ⟨h, h'⟩
    exact ⟨_, ⟨h, rfl⟩, h'⟩

theorem removeAll_cons {rest : List κ} :
    m.removeAll (k :: rest) = some m' ↔ k ∈ m ∧ removeAll (m.erase k) rest = some m' := by
  simp only [removeAll, foldlM_cons, Option.bind_eq_bind, Option.bind_eq_some_iff, removeOld_eq_some]
  constructor
  · rintro ⟨_, ⟨h, rfl⟩, h'⟩
    exact ⟨h, h'⟩
  · rintro ⟨h, h'⟩
    exact ⟨_, ⟨h, rfl⟩, h'⟩

theorem insertAll_append (m : Map κ α) (l l' : List (κ × α)) :
    m.insertAll (l ++ l') = (m.insertAll l).bind fun m => insertAll m l' :=
  foldlM_append

theorem removeAll_map (m : Map κ α) (l : List (κ × α)) :
    m.removeAll (l.map (·.1)) = l.foldlM (fun m e => m.removeOld e.1) m :=
  foldlM_map ..

theorem keys_of_mem (h : k ∈ m) : m.keys.1 = k ::ₘ (m.erase k).keys.1 := by
  rw [Finmap.keys_erase, Finset.erase_val, Multiset.cons_erase (Finmap.mem_keys.mpr h)]

theorem keys_insertAll (h : m.insertAll l = some m') :
    m'.keys.1 = m.keys.1 + (l.map (·.1) : Multiset κ) := by
  induction l generalizing m with
  | nil =>
    cases h
    simp
  | cons e rest ih =>
    obtain ⟨hnew, hrest⟩ := insertAll_cons.mp h
    rw [ih hrest, keys_of_mem (mem_insert.mpr (.inl rfl)), erase_insert _ hnew, map_cons,
      ← Multiset.cons_coe, Multiset.cons_add, Multiset.add_cons]

theorem keys_removeAll (h : l.foldlM (fun m e => m.removeOld e.1) m = some m') :
    m.keys.1 = m'.keys.1 + (l.map (·.1) : Multiset κ) := by
  rw [← removeAll_map] at h
  induction l generalizing m with
  | nil =>
    cases h
    simp
  | cons e rest ih =>
    obtain ⟨hk, hrest⟩ := removeAll_cons.mp h
    rw [keys_of_mem hk, ih hrest, map_cons, ← Multiset.cons_coe, Multiset.add_cons]

theorem mem_of_insertAll (h : m.insertAll l = some m') (hk : k ∈ m) : k ∈ m' := by
  rw [← Finmap.mem_keys, ← Finset.mem_val, keys_insertAll h, Multiset.mem_add]
  exact .inl (Finmap.mem_keys.mpr hk)

theorem insertAll_erase (hk : k ∉ m)
    (h : insertAll (m.insert k a) l = some m') : m.insertAll l = some (m'.erase k) := by
  induction l generalizing m with
  | nil =>
    cases h
    rw [erase_insert a hk]
    rfl
  | cons e rest ih =>
    obtain ⟨j, b⟩ := e
    rw [insertAll_cons, mem_insert, not_or] at h
    obtain ⟨⟨hjk, hj⟩, h⟩ := h
    rw [Finmap.insert_insert_of_ne m (Ne.symm hjk)] at h
    rw [insertAll_cons]
    refine ⟨hj, ih ?_ h⟩
    rw [mem_insert, not_or]
    exact ⟨Ne.symm hjk, hk⟩

theorem removeAll_insertAll (h : m.insertAll (l ++ l') = some m') :
    ∃ m'', m'.removeAll (l.map (·.1)) = some m'' ∧ m.insertAll l' = some m'' := by
  induction l generalizing m' with
  | nil => exact ⟨m', rfl, h⟩
  | cons e rest ih =>
    obtain ⟨k, a⟩ := e
    rw [cons_append, insertAll_cons] at h
    obtain ⟨hk, h⟩ := h
    obtain ⟨m'', hremove, hinsert⟩ := ih (insertAll_erase hk h)
    refine ⟨m'', ?_, hinsert⟩
    rw [map_cons, removeAll_cons]
    exact ⟨mem_of_insertAll h (mem_insert.mpr (.inl rfl)), hremove⟩

theorem removeAll_iff {m'' : Map κ α} (h : m.insertAll (l ++ l') = some m') :
    m'.removeAll (l.map (·.1)) = some m'' ↔ m.insertAll l' = some m'' := by
  obtain ⟨m₁, hremove, hinsert⟩ := removeAll_insertAll h
  rw [hremove, hinsert]

end

/-! ## What the values hold -/

/-- The items of all values, with how often each is there. -/
def items (f : α → List β) (m : Map κ α) : Multiset β := m.entries.bind fun e => (f e.2 : Multiset β)

variable (f : α → List β)

theorem items_empty : items f (∅ : Map κ α) = 0 := rfl

section

variable [DecidableEq κ]

theorem items_of_lookup {m : Map κ α} {k : κ} {a : α} (h : m.lookup k = some a) :
    m.items f = f a + Map.items f (m.erase k) := by
  have hm : m = (m.erase k).insert k a := by
    refine ext_lookup fun k' => ?_
    rw [lookup_insert', lookup_erase']
    split
    · next heq => rw [heq, h]
    · rfl
  have hentries : m.entries = ⟨k, a⟩ ::ₘ (m.erase k).entries := by
    conv_lhs => rw [hm]
    exact Finmap.entries_insert_of_notMem Finmap.notMem_erase_self
  rw [items, hentries, Multiset.cons_bind]
  rfl

theorem items_insert (m : Map κ α) (k : κ) (a : α) :
    Map.items f (m.insert k a) = f a + Map.items f (m.erase k) := by
  rw [items_of_lookup f (lookup_insert m)]
  congr 2
  refine ext_lookup fun k' => ?_
  rw [lookup_erase', lookup_erase', lookup_insert']
  split <;> rfl

theorem items_eq_bind_keys (m : Map κ α) :
    m.items f = m.keys.val.bind fun k => (((m.lookup k).map f).getD [] : Multiset β) := by
  change _ = (m.entries.map Sigma.fst).bind _
  rw [Multiset.bind_map]
  refine Multiset.bind_congr fun e he => ?_
  rw [Finmap.lookup_eq_some_iff.mpr he]
  rfl

end

/-! ## The ends of an ordered map -/

section

variable [LinearOrder κ] {k h : κ} {m : Map κ α} {a : α} {p : α → Bool}

def firstKey (m : Map κ α) : Option κ :=
  if h : m.keys.Nonempty then some (m.keys.min' h) else none

def lastKey (m : Map κ α) : Option κ :=
  if h : m.keys.Nonempty then some (m.keys.max' h) else none

/-- `first_key_value`. -/
def first (m : Map κ α) : Option (κ × α) := do
  let k ← m.firstKey
  let a ← m.lookup k
  some (k, a)

/-- `last_key_value`. -/
def last (m : Map κ α) : Option (κ × α) := do
  let k ← m.lastKey
  let a ← m.lookup k
  some (k, a)

/-- `range(..=k).next_back()`. -/
def lastUpTo (m : Map κ α) (k : κ) : Option (κ × α) := (m.filter fun k' _ => k' ≤ k).last

/-- `iter().find(p)`. -/
def find (m : Map κ α) (p : α → Bool) : Option (κ × α) := (m.filter fun _ a => p a).first

/-- `values()` of a `BTreeMap`. -/
def values (m : Map κ α) : List α := (m.keys.sort (· ≤ ·)).filterMap m.lookup

/-- `pop_first`, without the entry. -/
def popFirst (m : Map κ α) : Map κ α :=
  match m.firstKey with
  | some k => m.erase k
  | none => m

theorem firstKey_eq_some : m.firstKey = some k ↔ k ∈ m ∧ ∀ k' ∈ m, k ≤ k' := by
  simp only [firstKey, Option.dite_none_right_eq_some, Option.some.injEq, ← Finmap.mem_keys]
  constructor
  · rintro ⟨h, rfl⟩
    exact ⟨Finset.min'_mem _ h, fun k' hk' => Finset.min'_le _ k' hk'⟩
  · rintro ⟨hk, hleast⟩
    refine ⟨⟨k, hk⟩, le_antisymm (Finset.min'_le _ k hk) ?_⟩
    exact hleast _ (Finset.min'_mem _ _)

theorem lastKey_eq_some : m.lastKey = some k ↔ k ∈ m ∧ ∀ k' ∈ m, k' ≤ k := by
  simp only [lastKey, Option.dite_none_right_eq_some, Option.some.injEq, ← Finmap.mem_keys]
  constructor
  · rintro ⟨h, rfl⟩
    exact ⟨Finset.max'_mem _ h, fun k' hk' => Finset.le_max' _ k' hk'⟩
  · rintro ⟨hk, hgreatest⟩
    refine ⟨⟨k, hk⟩, le_antisymm ?_ (Finset.le_max' _ k hk)⟩
    exact hgreatest _ (Finset.max'_mem _ _)

theorem first_eq_some : m.first = some (k, a) ↔ m.lookup k = some a ∧ ∀ k' ∈ m, k ≤ k' := by
  simp only [first, Option.bind_eq_bind, Option.bind_eq_some_iff, firstKey_eq_some]
  constructor
  · rintro ⟨j, ⟨-, hleast⟩, b, hb, heq⟩
    cases heq
    exact ⟨hb, hleast⟩
  · rintro ⟨ha, hleast⟩
    exact ⟨k, ⟨mem_of_lookup_eq_some ha, hleast⟩, a, ha, rfl⟩

theorem last_eq_some : m.last = some (k, a) ↔ m.lookup k = some a ∧ ∀ k' ∈ m, k' ≤ k := by
  simp only [last, Option.bind_eq_bind, Option.bind_eq_some_iff, lastKey_eq_some]
  constructor
  · rintro ⟨j, ⟨-, hgreatest⟩, b, hb, heq⟩
    cases heq
    exact ⟨hb, hgreatest⟩
  · rintro ⟨ha, hgreatest⟩
    exact ⟨k, ⟨mem_of_lookup_eq_some ha, hgreatest⟩, a, ha, rfl⟩

theorem lastUpTo_eq_some : m.lastUpTo h = some (k, a) ↔
      k ≤ h ∧ m.lookup k = some a ∧ ∀ k' ∈ m, k' ≤ h → k' ≤ k := by
  simp only [lastUpTo, last_eq_some, lookup_filter, mem_filter, Option.filter_eq_some_iff,
    decide_eq_true_eq]
  constructor
  · rintro ⟨⟨ha, hk⟩, hgreatest⟩
    refine ⟨hk, ha, fun k' hk' hle => ?_⟩
    obtain ⟨a', ha'⟩ := mem_iff.mp hk'
    exact hgreatest k' ⟨a', ha', hle⟩
  · rintro ⟨hk, ha, hgreatest⟩
    refine ⟨⟨ha, hk⟩, ?_⟩
    rintro k' ⟨a', ha', hle⟩
    exact hgreatest k' (mem_of_lookup_eq_some ha') hle

theorem exists_lastUpTo (hk : k ∈ m) (hle : k ≤ h) : ∃ e, m.lastUpTo h = some e := by
  obtain ⟨a, ha⟩ := mem_iff.mp hk
  have hmem : k ∈ m.filter fun k' _ => k' ≤ h := mem_filter.mpr ⟨a, ha, decide_eq_true hle⟩
  have hkeys : (m.filter fun k' _ => k' ≤ h).keys.Nonempty := ⟨k, mem_keys.mpr hmem⟩
  obtain ⟨b, hb⟩ := mem_iff.mp (mem_keys.mp (Finset.max'_mem _ hkeys))
  exact ⟨(_, b), last_eq_some.mpr ⟨hb, fun k' hk' =>
    Finset.le_max' _ k' (mem_keys.mpr hk')⟩⟩

theorem lastUpTo_of_le (hle : ∀ k ∈ m, k ≤ h) : m.lastUpTo h = m.last := by
  refine Option.ext fun ⟨k, a⟩ => ?_
  rw [lastUpTo_eq_some, last_eq_some]
  constructor
  · rintro ⟨-, ha, hgreatest⟩
    exact ⟨ha, fun k' hk' => hgreatest k' hk' (hle k' hk')⟩
  · rintro ⟨ha, hgreatest⟩
    exact ⟨hle k (mem_of_lookup_eq_some ha), ha, fun k' hk' _ => hgreatest k' hk'⟩

theorem last_insert (a : α) (hle : ∀ k' ∈ m, k' ≤ k) : Map.last (m.insert k a) = some (k, a) := by
  rw [last_eq_some]
  refine ⟨lookup_insert m, fun k' hk' => ?_⟩
  rcases mem_insert.mp hk' with rfl | hk'
  · exact le_rfl
  · exact hle k' hk'

theorem values_eq {l : List κ} (hsorted : l.Pairwise (· ≤ ·)) (hkeys : m.keys.1 = l) :
    m.values = l.filterMap m.lookup := by
  have hperm : m.keys.sort (· ≤ ·) ~ l := Multiset.coe_eq_coe.mp ((Finset.sort_eq _ _).trans hkeys)
  rw [values, hperm.eq_of_pairwise' (Finset.pairwise_sort _ _) hsorted]

theorem values_empty : values (∅ : Map κ α) = [] := by
  simp [values]

theorem mem_values : a ∈ m.values ↔ ∃ k, m.lookup k = some a := by
  rw [values, mem_filterMap]
  refine exists_congr fun k => and_iff_right_of_imp fun h => ?_
  rw [Finset.mem_sort, Finmap.mem_keys]
  exact mem_of_lookup_eq_some h

theorem values_erase (m : Map κ α) (k : κ) :
    values (m.erase k) = ((m.erase k).keys.sort (· ≤ ·)).filterMap m.lookup := by
  refine filterMap_congr fun k' hk' => ?_
  rw [Finset.mem_sort, Finmap.mem_keys, Finmap.mem_erase] at hk'
  rw [lookup_erase', if_neg hk'.1]

theorem values_of_first (ha : m.lookup k = some a) (hleast : ∀ k' ∈ m, k ≤ k') :
    m.values = a :: values (m.erase k) := by
  have hkeys := keys_of_mem (mem_of_lookup_eq_some ha)
  have hcons : ∀ l, (k :: l).filterMap m.lookup = a :: l.filterMap m.lookup := fun l =>
    filterMap_cons_some ha
  rw [values_erase, ← hcons]
  refine values_eq (pairwise_cons.mpr ⟨fun k' hk' => ?_, Finset.pairwise_sort _ _⟩) ?_
  · rw [Finset.mem_sort, Finmap.mem_keys, Finmap.mem_erase] at hk'
    exact hleast k' hk'.2
  · rw [hkeys, ← Multiset.cons_coe, Finset.sort_eq]

theorem values_of_last (ha : m.lookup k = some a) (hgreatest : ∀ k' ∈ m, k' ≤ k) :
    m.values = values (m.erase k) ++ [a] := by
  have hkeys := keys_of_mem (mem_of_lookup_eq_some ha)
  have hlast : [k].filterMap m.lookup = [a] := filterMap_cons_some ha
  rw [values_erase, ← hlast, ← filterMap_append]
  refine values_eq (pairwise_append.mpr ⟨Finset.pairwise_sort _ _, pairwise_singleton _ _, ?_⟩) ?_
  · intro k' hk' j hj
    rw [Finset.mem_sort, Finmap.mem_keys, Finmap.mem_erase] at hk'
    rw [mem_singleton.mp hj]
    exact hgreatest k' hk'.2
  · rw [hkeys, ← Multiset.coe_add, Finset.sort_eq, Multiset.coe_singleton, ← Multiset.singleton_add, add_comm]

theorem values_getLast? (m : Map κ α) : m.values.getLast? = m.last.map (·.2) := by
  rcases m.keys.eq_empty_or_nonempty with hempty | hne
  · simp [values, last, lastKey, hempty]
  · obtain ⟨hk, hgreatest⟩ := lastKey_eq_some.mp (dif_pos hne : m.lastKey = some _)
    obtain ⟨a, ha⟩ := mem_iff.mp hk
    rw [values_of_last ha hgreatest, last_eq_some.mpr ⟨ha, hgreatest⟩, getLast?_concat]
    rfl

theorem find_eq_some : m.find p = some (k, a) ↔
      m.lookup k = some a ∧ p a = true ∧ ∀ k' a', m.lookup k' = some a' → p a' = true → k ≤ k' := by
  simp only [find, first_eq_some, lookup_filter, mem_filter, Option.filter_eq_some_iff]
  constructor
  · rintro ⟨⟨ha, hp⟩, hleast⟩
    exact ⟨ha, hp, fun k' a' ha' hp' => hleast k' ⟨a', ha', hp'⟩⟩
  · rintro ⟨ha, hp, hleast⟩
    refine ⟨⟨ha, hp⟩, ?_⟩
    rintro k' ⟨a', ha', hp'⟩
    exact hleast k' a' ha' hp'

end

end Map

end Rust
