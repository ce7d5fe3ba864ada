import Mathlib

/-!
# Trees of pairs

Each level joins neighbours, and an odd last entry is joined with itself, so that two lists can have
one root.
-/

namespace PairTree

open List

variable {α : Type} {node : α × α → α} {l l' : List α} {a b x : α} {k : Nat}

/-- The pairs that are joined. -/
def joins : List α → List (α × α)
  | a :: b :: rest => (a, b) :: joins rest
  | [a] => [(a, a)]
  | [] => []

/-- One level up. -/
def level (node : α × α → α) (l : List α) : List α := (joins l).map node

theorem length_joins (l : List α) : (joins l).length = (l.length + 1) / 2 := by
  fun_induction joins l with
  | case1 a b rest ih => simp only [length_cons, ih]; omega
  | case2 a => simp
  | case3 => simp

theorem length_level (node : α × α → α) (l : List α) :
    (level node l).length = (l.length + 1) / 2 := by
  rw [level, length_map, length_joins]

/-- The entry that is left when there is only one. -/
def root (node : α × α → α) (l : List α) : Option α :=
  if 1 < l.length then root node (level node l) else l.head?
termination_by l.length
decreasing_by rw [length_level]; omega

/-- The number of levels above the list. -/
def height (node : α × α → α) (l : List α) : Nat :=
  if 1 < l.length then height node (level node l) + 1 else 0
termination_by l.length
decreasing_by rw [length_level]; omega

/-- The pairs that are joined at some level. -/
def Joined (node : α × α → α) (l : List α) : Set (α × α) :=
  { p | ∃ k < height node l, p ∈ joins ((level node)^[k] l) }

/-- The nodes above the list. -/
def Inner (node : α × α → α) (l : List α) : Set α :=
  { x | ∃ k < height node l, x ∈ (level node)^[k + 1] l }

theorem root_of_one_lt (h : 1 < l.length) : root node l = root node (level node l) := by
  rw [root, if_pos h]

theorem height_of_one_lt (h : 1 < l.length) : height node l = height node (level node l) + 1 := by
  rw [height, if_pos h]

@[simp] theorem root_singleton (node : α × α → α) (a : α) : root node [a] = some a := by
  rw [root, if_neg (by simp)]
  rfl

theorem exists_singleton (hne : l ≠ []) (h : height node l = 0) : ∃ a, l = [a] := by
  rw [← length_eq_one_iff]
  have hpos := length_pos_iff.mpr hne
  rw [height] at h
  split at h <;> omega

theorem height_pos : 0 < height node l ↔ 1 < l.length := by
  rw [height]
  split <;> simp [*]

theorem joined_eq (h : 1 < l.length) :
    Joined node l = { p | p ∈ joins l } ∪ Joined node (level node l) := by
  ext p
  simp only [Joined, height_of_one_lt h, Set.mem_ofPred_eq, Set.mem_union]
  constructor
  · rintro ⟨k, hk, hp⟩
    cases k with
    | zero => exact .inl hp
    | succ k => exact .inr ⟨k, by omega, hp⟩
  · rintro (hp | ⟨k, hk, hp⟩)
    · exact ⟨0, by omega, hp⟩
    · exact ⟨k + 1, by omega, hp⟩

theorem joined_of_le_one (h : l.length ≤ 1) : Joined node l = ∅ := by
  rw [Joined, height, if_neg (by omega)]
  simp

theorem inner_eq : Inner node l = Set.image node (Joined node l) := by
  ext x
  simp only [Inner, Joined, Set.mem_ofPred_eq, Set.mem_image, Function.iterate_succ_apply', level,
    mem_map]
  constructor
  · rintro ⟨k, hk, p, hp, rfl⟩
    exact ⟨p, ⟨k, hk, hp⟩, rfl⟩
  · rintro ⟨p, ⟨k, hk, hp⟩, rfl⟩
    exact ⟨k, hk, p, hp, rfl⟩

theorem level_ne_nil (h : l ≠ []) : level node l ≠ [] := by
  have hlength := length_level node l
  have := length_pos_iff.mpr h
  rw [← length_pos_iff]
  omega

theorem iterate_ne_nil (h : l ≠ []) (k : Nat) : (level node)^[k] l ≠ [] := by
  induction k with
  | zero => exact h
  | succ k ih =>
    rw [Function.iterate_succ_apply']
    exact level_ne_nil ih

theorem root_iterate (hk : k ≤ height node l) : root node ((level node)^[k] l) = root node l ∧
      height node ((level node)^[k] l) + k = height node l := by
  induction k with
  | zero => exact ⟨rfl, rfl⟩
  | succ k ih =>
    obtain ⟨hroot, hheight⟩ := ih (by omega)
    have hlength : 1 < ((level node)^[k] l).length := height_pos.mp (by omega : 0 < height node _)
    rw [root_of_one_lt hlength] at hroot
    rw [height_of_one_lt hlength] at hheight
    rw [Function.iterate_succ_apply']
    exact ⟨hroot, by omega⟩

theorem joins_subset (h : 1 < l.length) : ∀ p ∈ joins l, p ∈ Joined node l := fun _ hp =>
  ⟨0, height_pos.mpr h, hp⟩

theorem joined_iterate (hk : k ≤ height node l) :
    Joined node ((level node)^[k] l) ⊆ Joined node l := by
  rintro p ⟨j, hj, hp⟩
  have hheight := (root_iterate hk).2
  rw [← Function.iterate_add_apply] at hp
  exact ⟨j + k, by omega, hp⟩

/-! ## One level -/

theorem fst_mem_of_joins {p : α × α} (h : p ∈ joins l) : p.1 ∈ l := by
  fun_induction joins l with
  | case1 a b rest ih =>
    rcases mem_cons.mp h with rfl | h
    · exact mem_cons_self
    · exact mem_cons_of_mem _ (mem_cons_of_mem _ (ih h))
  | case2 a =>
    rw [mem_singleton.mp h]
    exact mem_cons_self
  | case3 => cases h

theorem nodup_joins (h : l.Nodup) : (joins l).Nodup := by
  fun_induction joins l with
  | case1 a b rest ih =>
    rw [nodup_cons, nodup_cons] at h
    exact nodup_cons.mpr ⟨fun hmem => h.1 (mem_cons_of_mem _ (fst_mem_of_joins hmem)), ih h.2.2⟩
  | case2 a => exact nodup_singleton _
  | case3 => exact nodup_nil

theorem joins_inj (hl : l.Nodup) (hl' : l'.Nodup) (h : joins l = joins l') : l = l' := by
  fun_induction joins l generalizing l' with
  | case1 a b rest ih =>
    rw [nodup_cons, nodup_cons] at hl
    match l' with
    | [] => cases h
    | [c] =>
      cases (cons.inj h).1
      exact absurd mem_cons_self hl.1
    | c :: d :: rest' =>
      rw [nodup_cons, nodup_cons] at hl'
      obtain ⟨hhead, htail⟩ := cons.inj h
      cases hhead
      rw [ih hl.2.2 hl'.2.2 htail]
  | case2 a =>
    match l' with
    | [] => cases h
    | [c] =>
      cases h
      rfl
    | c :: d :: rest' =>
      cases (cons.inj h).1
      exact absurd mem_cons_self (nodup_cons.mp hl').1
  | case3 =>
    match l' with
    | [] => rfl
    | [c] => cases h
    | c :: d :: rest' => cases h

theorem map_injOn {β γ : Type} {f : β → γ} {s : Set β} (hf : s.InjOn f) {l l' : List β}
    (hl : ∀ x ∈ l, x ∈ s) (hl' : ∀ x ∈ l', x ∈ s) (h : l.map f = l'.map f) : l = l' := by
  induction l generalizing l' with
  | nil => exact (map_eq_nil_iff.mp h.symm).symm
  | cons x l ih =>
    obtain ⟨y, rest, rfl, hy, hrest⟩ := map_eq_cons_iff.mp h.symm
    obtain ⟨hx, hl⟩ := forall_mem_cons.mp hl
    obtain ⟨hys, hl'⟩ := forall_mem_cons.mp hl'
    rw [hf hys hx hy, ih hl hl' hrest.symm]

/-! ## All levels -/

section Injective

variable {s : Set (α × α)} (hinj : s.InjOn node)

include hinj

theorem nodup_level (hs : ∀ p ∈ joins l, p ∈ s) (h : l.Nodup) : (level node l).Nodup :=
  (nodup_joins h).map_on fun p hp q hq heq => hinj (hs p hp) (hs q hq) heq

section

variable (hs : Joined node l ⊆ s)
include hs

theorem nodup_iterate (h : l.Nodup) (hk : k ≤ height node l) : ((level node)^[k] l).Nodup := by
  induction k with
  | zero => exact h
  | succ k ih =>
    rw [Function.iterate_succ_apply']
    exact nodup_level hinj (fun p hp => hs ⟨k, hk, hp⟩) (ih (by omega))

theorem root_inj_of_height (hs' : Joined node l' ⊆ s) (hne : l ≠ []) (hne' : l' ≠ []) (hl : l.Nodup)
    (hl' : l'.Nodup) (hheight : height node l = height node l')
    (hroot : root node l = root node l') : l = l' := by
  induction hn : height node l generalizing l l' with
  | zero =>
    obtain ⟨a, rfl⟩ := exists_singleton hne hn
    obtain ⟨a', rfl⟩ := exists_singleton hne' (hheight.symm.trans hn)
    rw [root_singleton, root_singleton] at hroot
    rw [Option.some.inj hroot]
  | succ n ih =>
    have hlength : 1 < l.length := height_pos.mp (by omega : 0 < height node l)
    have hlength' : 1 < l'.length := height_pos.mp (by omega : 0 < height node l')
    have hjoins : ∀ p ∈ joins l, p ∈ s := fun p hp => hs (joins_subset hlength p hp)
    have hjoins' : ∀ p ∈ joins l', p ∈ s := fun p hp => hs' (joins_subset hlength' p hp)
    have hup : Joined node (level node l) ⊆ s :=
      (joined_iterate (k := 1) (by omega : 1 ≤ height node l)).trans hs
    have hup' : Joined node (level node l') ⊆ s :=
      (joined_iterate (k := 1) (by omega : 1 ≤ height node l')).trans hs'
    rw [height_of_one_lt hlength] at hn
    rw [height_of_one_lt hlength, height_of_one_lt hlength'] at hheight
    rw [root_of_one_lt hlength, root_of_one_lt hlength'] at hroot
    have hlevel : level node l = level node l' := ih hup hup' (level_ne_nil hne) (level_ne_nil hne')
      (nodup_level hinj hjoins hl) (nodup_level hinj hjoins' hl') (by omega) hroot (by omega)
    exact joins_inj hl hl' (map_injOn hinj hjoins hjoins' hlevel)

theorem height_le_of_root (hs' : Joined node l' ⊆ s) (hne : l ≠ []) (hne' : l' ≠ []) (hl : l.Nodup)
    (hl' : l'.Nodup) (hroot : root node l = root node l') (hinner : ∀ x ∈ l, x ∉ Inner node l') :
    height node l' ≤ height node l := by
  by_contra hlt
  obtain ⟨k, hk⟩ : ∃ k, height node l' = height node l + (k + 1) := Nat.exists_eq_add_of_lt (by omega)
  have hle : k + 1 ≤ height node l' := by omega
  obtain ⟨hroot', hheight⟩ := root_iterate hle
  have heq : l = (level node)^[k + 1] l' := root_inj_of_height hinj hs
    ((joined_iterate hle).trans hs') hne (iterate_ne_nil hne' _) hl
    (nodup_iterate hinj hs' hl' hle) (by omega) (hroot.trans hroot'.symm)
  obtain ⟨x, rest, hcons⟩ := exists_cons_of_ne_nil hne
  have hx : x ∈ l := by simp [hcons]
  exact hinner x hx ⟨k, by omega, heq ▸ hx⟩

theorem root_inj (hs' : Joined node l' ⊆ s) (hne : l ≠ []) (hne' : l' ≠ []) (hl : l.Nodup)
    (hl' : l'.Nodup) (hroot : root node l = root node l') (hinner : ∀ x ∈ l, x ∉ Inner node l')
    (hinner' : ∀ x ∈ l', x ∉ Inner node l) : l = l' := by
  have hle := height_le_of_root hinj hs hs' hne hne' hl hl' hroot hinner
  have hle' := height_le_of_root hinj hs' hs hne' hne hl' hl hroot.symm hinner'
  exact root_inj_of_height hinj hs hs' hne hne' hl hl' (by omega) hroot

end

end Injective

end PairTree
