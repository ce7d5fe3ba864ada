import Mathlib

/-!
# Vectors and maps in the order of insertion

The `IndexMap` of the `indexmap` crate, as the list of its entries.
-/

namespace Rust

open List

variable {κ α : Type} [DecidableEq κ] {m : List (κ × α)} {k : κ} {v : α}

/-- `IndexMap::insert`: a key that is there keeps its place. -/
def indexInsert {κ α : Type} [DecidableEq κ] (m : List (κ × α)) (key : κ) (value : α) :
    List (κ × α) :=
  if m.any fun entry => entry.1 = key then
    m.map fun entry => if entry.1 = key then (key, value) else entry
  else m ++ [(key, value)]

theorem mem_indexInsert {entry : κ × α} (h : entry ∈ indexInsert m k v) : entry ∈ m ∨ entry = (k, v) := by
  unfold indexInsert at h
  split at h
  · obtain ⟨e, he, rfl⟩ := mem_map.mp h
    split
    · exact .inr rfl
    · exact .inl he
  · simpa using h

theorem mem_keys_indexInsert {k' : κ} (h : k' ∈ (indexInsert m k v).map (·.1)) : k' = k ∨ k' ∈ m.map (·.1) := by
  obtain ⟨entry, hentry, rfl⟩ := mem_map.mp h
  rcases mem_indexInsert hentry with hentry | rfl
  · exact .inr (mem_map_of_mem hentry)
  · exact .inl rfl

theorem keys_indexInsert (h : (m.map (·.1)).Nodup) : ((indexInsert m k v).map (·.1)).Nodup := by
  unfold indexInsert
  split
  · have hsame : (m.map fun entry => if entry.1 = k then (k, v) else entry).map (·.1) =
        m.map (·.1) := by
      rw [map_map]
      apply map_congr_left
      intro entry _
      dsimp only [Function.comp_apply]
      split
      · rename_i hkey
        exact hkey.symm
      · rfl
    rw [hsame]
    exact h
  · rename_i hnew
    rw [map_append, map_singleton, nodup_append']
    refine ⟨h, nodup_singleton _, ?_⟩
    rw [disjoint_singleton]
    intro hmem
    obtain ⟨entry, hentry, hkey⟩ := mem_map.mp hmem
    exact hnew (any_eq_true.mpr ⟨entry, hentry, by simpa using hkey⟩)

/-! ## Taking an element out of a vector -/

/-- What `Vec::swap_remove` leaves: the last element takes the place of the one that is taken out. -/
def swapRemove {α : Type} (l : List α) (i : Nat) : List α :=
  match l.getLast? with
  | none => []
  | some last => (l.set i last).dropLast

theorem swapRemove_perm {l : List α} {i : Nat} {a : α} (h : l[i]? = some a) : l.Perm (a :: swapRemove l i) := by
  rcases eq_nil_or_concat l with rfl | ⟨init, last, rfl⟩
  · cases h
  simp only [concat_eq_append, swapRemove, getLast?_append, getLast?_singleton, Option.some_or] at h ⊢
  rcases Nat.lt_trichotomy i init.length with hi | rfl | hi
  · rw [getElem?_append_left hi] at h
    rw [set_append_left _ _ hi, dropLast_concat, set_eq_take_append_cons_drop, if_pos hi]
    have hsplit : init = init.take i ++ a :: init.drop (i + 1) := by
      rw [← (List.getElem?_eq_some_iff.mp h).2, ← List.drop_eq_getElem_cons hi, List.take_append_drop]
    have hswap : (init.take i ++ a :: init.drop (i + 1) ++ [last]).Perm
        (a :: (init.take i ++ last :: init.drop (i + 1))) := by
      rw [append_assoc, cons_append]
      refine perm_middle.trans (Perm.cons a ?_)
      exact Perm.append_left _ (perm_append_singleton last _)
    rwa [← hsplit] at hswap
  · rw [getElem?_concat_length] at h
    cases h
    rw [set_append_right _ _ (Nat.le_refl _)]
    simp
  · rw [getElem?_eq_none (by simp; omega)] at h
    cases h

end Rust
