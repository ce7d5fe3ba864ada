import Mathlib

/-!
# Maps in the order of their values

The `OrderedMap` of the `ordered-map` crate: the values are kept in a list, sorted by a comparison, with
one value per key.
-/

namespace Rust.OrderedMap

open List

variable {κ α : Type} [DecidableEq κ] (key : α → κ) (cmp : α → α → Ordering)

def remove (l : List α) (k : κ) : List α := l.filter fun a => key a ≠ k

def get? (l : List α) (k : κ) : Option α := l.find? fun a => key a = k

/-- The value replaces one with the same key and goes before the first one that is not less. -/
def insert (l : List α) (a : α) : List α :=
  (remove key l (key a)).takeWhile (fun b => cmp b a = .lt) ++
    a :: (remove key l (key a)).dropWhile (fun b => cmp b a = .lt)

variable {key cmp} {l : List α} {a b : α} {k : κ}

theorem mem_remove : b ∈ remove key l k ↔ b ∈ l ∧ key b ≠ k := by
  simp [remove]

theorem mem_insert : b ∈ insert key cmp l a ↔ b = a ∨ b ∈ l ∧ key b ≠ key a := by
  rw [insert, mem_append, mem_cons, or_left_comm, ← mem_append,
    takeWhile_append_dropWhile, mem_remove]

theorem get?_eq_some (h : get? key l k = some a) : a ∈ l ∧ key a = k :=
  ⟨mem_of_find?_eq_some h, by simpa using find?_some h⟩

/-- Sorted, with one value per key. -/
structure Sorted (key : α → κ) (cmp : α → α → Ordering) (l : List α) : Prop where
  lt : l.Pairwise fun a b => cmp a b = .lt
  keys : (l.map key).Nodup

omit [DecidableEq κ] in
theorem Sorted.nil : Sorted key cmp [] := ⟨Pairwise.nil, nodup_nil⟩

omit [DecidableEq κ] in
theorem Sorted.sublist {l' : List α} (h : Sorted key cmp l) (hsub : l'.Sublist l) : Sorted key cmp l' :=
  ⟨h.lt.sublist hsub, h.keys.sublist (hsub.map key)⟩

theorem Sorted.remove (h : Sorted key cmp l) (k : κ) : Sorted key cmp (remove key l k) :=
  h.sublist filter_sublist

theorem insert_keys (h : Sorted key cmp l) (a : α) : ((insert key cmp l a).map key).Nodup := by
  have hperm : (insert key cmp l a).Perm (a :: OrderedMap.remove key l (key a)) := by
    rw [insert]
    refine perm_middle.trans ?_
    rw [takeWhile_append_dropWhile]
  refine (hperm.map key).nodup_iff.mpr ?_
  rw [map_cons, nodup_cons]
  refine ⟨fun hmem => ?_, (h.remove (key a)).keys⟩
  obtain ⟨b, hb, hkey⟩ := mem_map.mp hmem
  exact (mem_remove.mp hb).2 hkey

section Order

variable [Std.TransCmp cmp]

theorem Sorted.insert (h : Sorted key cmp l) (hkey : ∀ b ∈ l, cmp b a = .eq → key b = key a) :
    Sorted key cmp (insert key cmp l a) := by
  refine ⟨?_, insert_keys h a⟩
  have hrest := (h.remove (key a)).lt
  have hne : ∀ b ∈ OrderedMap.remove key l (key a), cmp b a ≠ .eq := by
    intro b hb heq
    obtain ⟨hb, hk⟩ := mem_remove.mp hb
    exact hk (hkey b hb heq)
  unfold OrderedMap.insert
  generalize OrderedMap.remove key l (key a) = rest at hrest hne
  induction rest with
  | nil => simp
  | cons b rest ih =>
    obtain ⟨hb, hrest⟩ := pairwise_cons.mp hrest
    by_cases hlt : cmp b a = .lt
    · rw [takeWhile_cons_of_pos (by simpa using hlt), dropWhile_cons_of_pos (by simpa using hlt),
        cons_append, pairwise_cons]
      refine ⟨fun c hc => ?_, ih hrest fun c hc => hne c (mem_cons_of_mem _ hc)⟩
      rcases mem_append.mp hc with hc | hc
      · exact hb c ((takeWhile_sublist _).subset hc)
      · rcases mem_cons.mp hc with rfl | hc
        · exact hlt
        · exact hb c ((dropWhile_sublist _).subset hc)
    · rw [takeWhile_cons_of_neg (by simpa using hlt), dropWhile_cons_of_neg (by simpa using hlt),
        nil_append, pairwise_cons]
      have hab : cmp a b = .lt := by
        rw [← Std.OrientedCmp.gt_iff_lt]
        have := hne b mem_cons_self
        cases hcmp : cmp b a <;> simp_all
      refine ⟨fun c hc => ?_, pairwise_cons.mpr ⟨hb, hrest⟩⟩
      rcases mem_cons.mp hc with rfl | hc
      · exact hab
      · exact Std.TransCmp.lt_trans hab (hb c hc)

theorem Sorted.reinsert (h : Sorted key cmp l) (ha : a ∈ l) :
    OrderedMap.insert key cmp (OrderedMap.remove key l (key a)) a = l := by
  obtain ⟨pre, post, rfl⟩ := append_of_mem ha
  have hkeys := h.keys
  rw [map_append, map_cons, nodup_middle, nodup_cons, mem_append] at hkeys
  obtain ⟨hnot, -⟩ := hkeys
  have hremove : OrderedMap.remove key (pre ++ a :: post) (key a) = pre ++ post := by
    rw [OrderedMap.remove, filter_append, filter_cons_of_neg (by simp)]
    congr 1 <;> rw [filter_eq_self] <;> intro b hb <;> simp only [decide_eq_true_eq] <;> intro heq
    · exact hnot (.inl (heq ▸ mem_map_of_mem hb))
    · exact hnot (.inr (heq ▸ mem_map_of_mem hb))
  have hremove' : OrderedMap.remove key (pre ++ post) (key a) = pre ++ post := by
    rw [← hremove, OrderedMap.remove, OrderedMap.remove, filter_filter]
    simp
  obtain ⟨-, hpost, hpre⟩ := pairwise_append.mp h.lt
  have hlt : ∀ b ∈ pre, decide (cmp b a = .lt) = true := by
    intro b hb
    simpa using hpre b hb a mem_cons_self
  have hstop : ∀ b ∈ post.head?, decide (cmp b a = .lt) = false := by
    intro b hb
    have hb := (pairwise_cons.mp hpost).1 b (mem_of_mem_head? hb)
    rw [Std.OrientedCmp.gt_iff_lt.mpr hb]
    rfl
  rw [OrderedMap.insert, hremove, hremove', takeWhile_append_of_pos hlt,
    dropWhile_append_of_pos hlt]
  cases post with
  | nil => simp
  | cons b post =>
    have hb := hstop b rfl
    rw [takeWhile_cons_of_neg (by simp [hb]), dropWhile_cons_of_neg (by simp [hb]), append_nil]

end Order

end Rust.OrderedMap
