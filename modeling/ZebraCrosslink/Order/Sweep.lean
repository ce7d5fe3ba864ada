import Mathlib

/-!
# Sweeping a relation level by level

A sweep starts with one element and visits, level by level, what that leads to.
-/

open Relation

variable {α : Type} {R : α → α → Prop} {start : α} {visited level found : Set α}

structure Sweep (R : α → α → Prop) (start : α) (visited level found : Set α) : Prop where
  seen : visited ∪ level = insert start found
  sound : ∀ b ∈ found, TransGen R start b
  closed : ∀ a ∈ visited, ∀ b, R a b → b ∈ found

namespace Sweep

theorem init : Sweep R start ∅ {start} ∅ where
  seen := by simp
  sound _ hb := absurd hb (Set.notMem_empty _)
  closed _ ha := absurd ha (Set.notMem_empty _)

theorem round (h : Sweep R start visited level found) (next : Set α)
    (hnext : ∀ b, b ∈ next ↔ ∃ a ∈ level, a ∉ visited ∧ R a b) :
    Sweep R start (visited ∪ level) next (found ∪ next) where
  seen := by rw [h.seen, Set.insert_union]
  sound b hb := by
    rcases hb with hb | hb
    · exact h.sound b hb
    · obtain ⟨a, ha, -, hab⟩ := (hnext b).mp hb
      have hseen : a ∈ insert start found := h.seen ▸ Set.mem_union_right _ ha
      rcases hseen with rfl | hfound
      · exact .single hab
      · exact (h.sound a hfound).tail hab
  closed a ha b hab := by
    by_cases hvisited : a ∈ visited
    · exact .inl (h.closed a hvisited b hab)
    · exact .inr ((hnext b).mpr ⟨a, ha.resolve_left hvisited, hvisited, hab⟩)

theorem visited_eq (h : Sweep R start visited ∅ found) : visited = insert start found := by
  rw [← h.seen, Set.union_empty]

theorem mem_found (h : Sweep R start visited ∅ found) {b : α} : b ∈ found ↔ TransGen R start b := by
  refine ⟨h.sound b, fun hb => ?_⟩
  have hclosed : ∀ a ∈ insert start found, ∀ b, R a b → b ∈ found := by
    rw [← h.visited_eq]
    exact h.closed
  induction hb with
  | single hab => exact hclosed start (Set.mem_insert _ _) _ hab
  | tail _ hbc ih => exact hclosed _ (Set.mem_insert_of_mem _ ih) _ hbc

theorem mem_visited (h : Sweep R start visited ∅ found) {b : α} :
    b ∈ visited ↔ ReflTransGen R start b := by
  rw [h.visited_eq, Set.mem_insert_iff, h.mem_found, reflTransGen_iff_eq_or_transGen]

end Sweep
