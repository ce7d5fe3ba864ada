import Mathlib
import ZebraCrosslink.Rust.Map
import ZebraCrosslink.Rust.OrderedMap

/-!
# Hash maps as lists

The values of a hash map are kept in a list, with one value per key. Nothing is known about the
order of an iteration, so an iteration takes it as an argument.
-/

namespace Rust

open List
open OrderedMap (get? mem_remove)

/-- The orders in which hash maps and hash sets are iterated. -/
structure IterationOrder where
  arrange : {α : Type} → List α → List α
  perm : ∀ {α : Type} (l : List α), (arrange l).Perm l

namespace IterationOrder

/-- The order of the list. -/
def listed : IterationOrder := ⟨fun l => l, fun l => .refl l⟩

variable (order : IterationOrder) {α : Type} {l : List α} {a : α}

@[simp] theorem mem_arrange : a ∈ order.arrange l ↔ a ∈ l := (order.perm l).mem_iff

end IterationOrder

namespace Hashed

variable {κ α β γ : Type} [DecidableEq κ] {key : α → κ} {l : List α} {a b : α} {k : κ}
  {items : α → List β} {entries : α → List (β × γ)}

theorem get?_of_mem (hkeys : (l.map key).Nodup) (ha : a ∈ l) : get? key l (key a) = some a := by
  cases hget : get? key l (key a) with
  | none =>
    have := find?_eq_none.mp hget a ha
    simp at this
  | some b =>
    obtain ⟨hb, hkey⟩ := OrderedMap.get?_eq_some hget
    rw [inj_on_of_nodup_map hkeys hb ha hkey]

theorem get?_isSome : (get? key l k).isSome ↔ ∃ a ∈ l, key a = k := by
  simp [get?, find?_isSome]

theorem cons_remove_subperm (ha : a ∈ l) : (a :: OrderedMap.remove key l (key a)).Subperm l := by
  obtain ⟨before, after, rfl⟩ := append_of_mem ha
  have hremove : OrderedMap.remove key (before ++ a :: after) (key a) =
      OrderedMap.remove key before (key a) ++ OrderedMap.remove key after (key a) := by
    simp [OrderedMap.remove]
  rw [hremove]
  exact perm_middle.symm.subperm.trans (filter_sublist.append (filter_sublist.cons_cons a)).subperm

theorem sum_remove (f : α → Nat) (hkeys : (l.map key).Nodup) (ha : a ∈ l) :
    (l.map f).sum = f a + ((OrderedMap.remove key l (key a)).map f).sum := by
  induction l with
  | nil => cases ha
  | cons b l ih =>
    obtain ⟨hb, hkeys⟩ := nodup_cons.mp hkeys
    rcases mem_cons.mp ha with rfl | ha
    · have hrest : OrderedMap.remove key (a :: l) (key a) = l := by
        rw [OrderedMap.remove, filter_cons_of_neg (by simp), filter_eq_self]
        intro c hc
        rw [decide_eq_true_eq]
        exact fun heq => hb (heq ▸ mem_map_of_mem hc)
      rw [hrest, map_cons, sum_cons]
    · have hne : key b ≠ key a := fun heq => hb (heq ▸ mem_map_of_mem ha)
      have hrest : OrderedMap.remove key (b :: l) (key a) = b :: OrderedMap.remove key l (key a) :=
        filter_cons_of_pos (by simpa using hne)
      rw [hrest, map_cons, sum_cons, map_cons, sum_cons, ih hkeys ha]
      omega

/-! ## Indexes of the items -/

/-- The set holds the items of all values. -/
def Indexed (items : α → List β) (l : List α) (s : Finset β) : Prop := ∀ b, b ∈ s ↔ ∃ a ∈ l, b ∈ items a

/-- The map holds the entries of all values. -/
def Mapped [DecidableEq β] (entries : α → List (β × γ)) (l : List α) (m : Map β γ) : Prop :=
  ∀ b c, m.lookup b = some c ↔ ∃ a ∈ l, (b, c) ∈ entries a

/-- No two values share an item. -/
def Apart (items : α → List β) (l : List α) : Prop :=
  ∀ a ∈ l, ∀ a' ∈ l, ∀ b ∈ items a, b ∈ items a' → a = a'

omit [DecidableEq κ] in
theorem Apart.append (h : Apart items l) (hnew : ∀ b ∈ items a, ∀ a' ∈ l, b ∉ items a') :
    Apart items (l ++ [a]) := by
  intro c hc c' hc' b hb hb'
  simp only [mem_append, mem_singleton] at hc hc'
  rcases hc with hc | rfl <;> rcases hc' with hc' | rfl
  · exact h c hc c' hc' b hb hb'
  · exact absurd hb (hnew b hb' c hc)
  · exact absurd hb' (hnew b hb c' hc')
  · rfl

theorem Apart.remove (h : Apart items l) : Apart items (OrderedMap.remove key l k) := fun a ha a' ha' =>
  h a (mem_remove.mp ha).1 a' (mem_remove.mp ha').1

section

variable [DecidableEq β]

omit [DecidableEq κ] in
theorem Indexed.append {s : Finset β} (h : Indexed items l s) :
    Indexed items (l ++ [a]) (s ∪ (items a).toFinset) := by
  intro b
  simp [h b, or_and_right, exists_or]

theorem Indexed.remove {s : Finset β} (h : Indexed items l s) (hapart : Apart items l)
    (hkeys : (l.map key).Nodup) (ha : a ∈ l) :
    Indexed items (OrderedMap.remove key l (key a)) (s \ (items a).toFinset) := by
  intro b
  simp only [Finset.mem_sdiff, h b, mem_toFinset, mem_remove]
  constructor
  · rintro ⟨⟨c, hc, hb⟩, hnot⟩
    exact ⟨c, ⟨hc, fun heq => hnot (inj_on_of_nodup_map hkeys hc ha heq ▸ hb)⟩, hb⟩
  · rintro ⟨c, ⟨hc, hne⟩, hb⟩
    exact ⟨⟨c, hc, hb⟩, fun hb' => hne (congrArg key (hapart c hc a ha b hb hb'))⟩

omit [DecidableEq κ] in
theorem Mapped.append {m : Map β γ} (h : Mapped entries l m)
    (hone : ∀ e ∈ entries a, ∀ e' ∈ entries a, e.1 = e'.1 → e.2 = e'.2)
    (hnew : ∀ e ∈ entries a, ∀ a' ∈ l, ∀ e' ∈ entries a', e'.1 ≠ e.1) :
    Mapped entries (l ++ [a]) ((entries a).foldl (fun m e => m.insert e.1 e.2) m) := by
  intro b c
  rw [Map.lookup_foldl_insert (fun e : β × γ => e.1) (fun e => e.2) hone, h b c]
  simp only [mem_append, mem_singleton, or_and_right, exists_or, exists_eq_left]
  constructor
  · rintro (⟨⟨b', c'⟩, he, rfl, rfl⟩ | ⟨h, -⟩)
    · exact .inr he
    · exact .inl h
  · rintro (⟨a', ha', he⟩ | he)
    · exact .inr ⟨⟨a', ha', he⟩, fun e he' => (hnew e he' a' ha' _ he).symm⟩
    · exact .inl ⟨_, he, rfl, rfl⟩

theorem Mapped.remove {m : Map β γ} (h : Mapped entries l m)
    (hapart : Apart (fun a => (entries a).map (·.1)) l) (hkeys : (l.map key).Nodup) (ha : a ∈ l) :
    Mapped entries (OrderedMap.remove key l (key a)) ((entries a).foldl (fun m e => m.erase e.1) m) := by
  intro b c
  rw [Map.lookup_foldl_erase (fun e : β × γ => e.1), h b c]
  constructor
  · rintro ⟨⟨a', ha', he⟩, hnot⟩
    refine ⟨a', mem_remove.mpr ⟨ha', fun heq => hnot (b, c) ?_ rfl⟩, he⟩
    exact inj_on_of_nodup_map hkeys ha' ha heq ▸ he
  · rintro ⟨a', ha', he⟩
    obtain ⟨ha', hne⟩ := mem_remove.mp ha'
    refine ⟨⟨a', ha', he⟩, ?_⟩
    rintro e he' rfl
    have hitem : e.1 ∈ (entries a').map (·.1) := mem_map.mpr ⟨(e.1, c), he, rfl⟩
    exact hne (congrArg key (hapart a' ha' a ha e.1 hitem (mem_map_of_mem he')))

end

end Hashed

end Rust
