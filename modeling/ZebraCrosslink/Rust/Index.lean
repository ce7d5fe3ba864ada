import Mathlib
import ZebraCrosslink.Rust.Map

/-!
# Maps to sets

A `HashMap` or `BTreeMap` whose values are sets. A key that is absent has the empty set.
-/

namespace Rust

abbrev Index (κ α : Type) : Type := Map κ (Finset α)

/-- An order in which a hash set is read. The set says nothing about it. -/
structure ReadOrder (α : Type) where
  read : Finset α → List α
  nodup : ∀ s, (read s).Nodup
  mem : ∀ s a, a ∈ read s ↔ a ∈ s

/-- Any element may be the last that is read. -/
theorem ReadOrder.exists_last {α : Type} [DecidableEq α] (a : α) :
    ∃ order : ReadOrder α, ∀ s, a ∈ s → ∃ l, order.read s = l ++ [a] := by
  refine ⟨⟨fun s => (s.erase a).toList ++ if a ∈ s then [a] else [], fun s => ?_, fun s b => ?_⟩, fun s ha => ?_⟩
  · split <;> simp +contextual [List.nodup_append, Finset.nodup_toList]
  · by_cases hb : b = a
    · by_cases ha : a ∈ s <;> simp [hb, ha]
    · by_cases ha : a ∈ s <;> simp [hb, ha]
  · exact ⟨(s.erase a).toList, by simp only [if_pos ha]⟩

namespace Index

variable {κ α : Type} [DecidableEq κ] {m : Index κ α} {k k' : κ} {a : α} {s : Finset α}

/-- `get(k).unwrap_or_default()`. -/
def get (m : Index κ α) (k : κ) : Finset α := (m.lookup k).getD ∅

/-- No key has an empty set. -/
def Tidy (m : Index κ α) : Prop := ∀ k s, m.lookup k = some s → s.Nonempty

theorem get_of_lookup (h : m.lookup k = some s) : m.get k = s := by
  simp [get, h]

theorem lookup_of_mem_get (h : a ∈ m.get k) : m.lookup k = some (m.get k) := by
  cases hk : m.lookup k with
  | none => simp [get, hk] at h
  | some s => rw [get_of_lookup hk]

@[simp] theorem get_empty (k : κ) : get (∅ : Index κ α) k = ∅ := by
  simp [get]

theorem get_insert (m : Index κ α) (k k' : κ) (s : Finset α) :
    get (m.insert k s) k' = if k' = k then s else m.get k' := by
  unfold get
  rw [Map.lookup_insert']
  split <;> rfl

theorem get_erase (m : Index κ α) (k k' : κ) :
    get (m.erase k) k' = if k' = k then ∅ else m.get k' := by
  unfold get
  rw [Map.lookup_erase']
  split <;> rfl

theorem Tidy.empty : Tidy (∅ : Index κ α) := by
  intro k s h
  simp at h

theorem Tidy.insert (h : m.Tidy) (hs : s.Nonempty) : Tidy (m.insert k s) := by
  intro k' s' hlookup
  rw [Map.lookup_insert'] at hlookup
  split at hlookup
  · rwa [← Option.some.inj hlookup]
  · exact h k' s' hlookup

theorem Tidy.erase (h : m.Tidy) (k : κ) : Tidy (m.erase k) := by
  intro k' s hlookup
  rw [Map.lookup_erase'] at hlookup
  split at hlookup
  · cases hlookup
  · exact h k' s hlookup

variable [DecidableEq α] {m' : Index κ α}

/-- `entry(k).or_default().insert(a)`. -/
def add (m : Index κ α) (k : κ) (a : α) : Index κ α := m.insert k (insert a (m.get k))

theorem mem_get_add {b : α} : b ∈ (m.add k a).get k' ↔ k' = k ∧ b = a ∨ b ∈ m.get k' := by
  rw [add, get_insert]
  split
  · next h => simp [h]
  · next h => simp [h]

theorem Tidy.add (h : m.Tidy) (k : κ) (a : α) : Tidy (m.add k a) :=
  h.insert (Finset.insert_nonempty a _)

theorem get_remove (hk : m.lookup k = some s) (ha : a ∈ s)
    (h : m' = if s.card = 1 then m.erase k else m.insert k (s.erase a)) (k' : κ) :
    m'.get k' = if k' = k then s.erase a else m.get k' := by
  rw [h]
  split
  · next hcard =>
    obtain ⟨b, rfl⟩ := Finset.card_eq_one.mp hcard
    obtain rfl := Finset.mem_singleton.mp ha
    rw [get_erase, Finset.erase_singleton]
  · rw [get_insert]

theorem Tidy.remove (htidy : m.Tidy) (ha : a ∈ s)
    (h : m' = if s.card = 1 then m.erase k else m.insert k (s.erase a)) : m'.Tidy := by
  rw [h]
  split
  · exact htidy.erase k
  · next hcard =>
    apply htidy.insert
    rw [← Finset.card_pos, Finset.card_erase_of_mem ha]
    have := Finset.card_pos.mpr ⟨a, ha⟩
    omega

end Index

end Rust
