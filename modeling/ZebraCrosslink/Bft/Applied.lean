import Mathlib
import ZebraCrosslink.Bft.Sequence

/-!
# Every PoW block is applied once

The roster loop of a commit walks from the last final block to the new one. Over a run the walks
join into one path exactly when the final height never drops.
-/

open Rust List
open Option (map_eq_some_iff map_none map_some some_or)

namespace ZebraCrosslink

variable {E : Type}

/-! ## One block tree -/

/-- Nodes with parents. A node of height 0 is a root; its parent says nothing. -/
structure Forest (ι : Type*) where
  parent : ι → ι
  height : ι → Nat
  height_parent : ∀ x, 0 < height x → height (parent x) + 1 = height x

def InTree (t : Forest BlockHash) (b : ContextuallyVerifiedBlock) : Prop :=
  t.parent b.hash = b.block.header.previous_block_hash ∧ t.height b.hash = b.height

/-- The replies describe one block tree: `best` is the best chain they show at each time. -/
structure OneTree (call : TFLServiceCalls E) (view : E → ReadStateService) (best : E → PowChain)
    (t : Forest BlockHash) : Prop where
  reads : AnswersReads call view
  shows : ∀ e, (view e).Shows (best e)
  blocks : ∀ e, ∀ b ∈ (best e).blocks, InTree t b
  known : ∀ e x k, (view e).call (.KnownBlock x) = .ok (.ok (.KnownBlock (some k))) →
    k.height = t.height x

/-- Runs of commits, with the hashes they finalize in order. After each commit the best chain
holds all of them. -/
inductive FinalRun (node : Node E) (best : E → PowChain) (start : TFLServiceInternal) :
    List BlockHash → TFLServiceInternal → Prop
  | start : FinalRun node best start [] start
  | decided {xs : List BlockHash} {s s' : TFLServiceInternal} (fuel : Nat) (b : BftBlock)
      (fp : FatPointerToBftBlock2) (e e' : E) (roster : List SortedRosterMember) (x : BlockHash)
      (run : FinalRun node best start xs s)
      (step : new_decided_bft_block_from_malachite node fuel s b fp e = .ok ((s', roster), e'))
      (hfinal : new_final_hash node.crypto b = .ok x)
      (hmem : ∀ y ∈ xs ++ [x], y ∈ (best e').hashes) :
      FinalRun node best start (xs ++ [x]) s'

/-! ## What one commit broadcasts -/

theorem apply_final_blocks_log (p : Profile) (l : List ((Nat × BlockHash) × Option Block))
    (s s' : TFLServiceInternal) (h : apply_final_blocks p l s = .ok s') :
    s'.final_change_tx = s.final_change_tx ++
      (l.map (·.1)).filter fun hh => s.current_bc_final.map (·.2) ≠ some hh.2 := by
  induction l generalizing s with
  | nil =>
    cases h
    simp
  | cons a rest ih =>
    obtain ⟨hh, block⟩ := a
    rw [apply_final_blocks, except_bind_ok] at h
    obtain ⟨s₁, h₁, h⟩ := h
    obtain ⟨-, -, -, -, hcur⟩ := apply_final_block_sameBft p s s₁ hh block h₁
    rw [ih s₁ h, hcur, map_cons]
    unfold apply_final_block at h₁
    split at h₁
    · rename_i hskip
      cases h₁
      rw [filter_cons_of_neg (by simp [hskip])]
    · rename_i hnew
      simp only [except_bind_ok] at h₁
      obtain ⟨_, -, ⟨_, _⟩, -, h₁⟩ := h₁
      cases h₁
      rw [filter_cons_of_pos (by simpa using hnew), append_assoc, singleton_append]

theorem filter_walk {c : PowChain} {i n : Nat} {y : BlockHash} (hy : c.heightOf y = some i)
    (hin : i < n) :
    ((c.heightHashes i n).filter fun hh => some y ≠ some hh.2) = c.heightHashes (i + 1) n := by
  obtain ⟨b, hb⟩ : ∃ b, c.blocks[i]? = some b :=
    ⟨_, getElem?_eq_getElem (PowChain.heightOf_lt hy)⟩
  have hby : b.hash = y := by
    have := PowChain.heightOf_eq_some_iff.mp hy
    rwa [PowChain.hashes_getElem?, hb, map_some, Option.some.injEq] at this
  rw [PowChain.heightHashes_cons hin hb, filter_cons_of_neg (by simp [hby])]
  refine filter_eq_self.mpr fun a ha => decide_eq_true fun heq => ?_
  obtain ⟨d, hd, rfl⟩ := mem_map.mp ha
  obtain ⟨j, hj⟩ := mem_iff_getElem?.mp (mem_map_of_mem (f := (·.hash)) hd)
  obtain ⟨hheight, -⟩ := PowChain.height_of_slice hj
  have hyd : y = d.hash := Option.some.inj heq
  rw [← hyd, hy, Option.some.injEq] at hheight
  omega

theorem walk_zip (c : PowChain) (a b : Nat) :
    ((c.heightHashes a b).zip ((c.slice a b).map fun b => some b.block)).map (·.1) =
      c.heightHashes a b :=
  map_fst_zip (by simp [PowChain.heightHashes])

section Commit

variable {node : Node E} {view : E → ReadStateService} {best : E → PowChain} {t : Forest BlockHash}
  {e e' : E} {x : BlockHash}

theorem known_height (ht : OneTree node.call view best t) {k : Nat}
    (h : block_height_from_hash node.call x e = .ok (some k, e')) : k = t.height x ∧ e' = e := by
  rw [block_height_from_hash, bind_ok] at h
  obtain ⟨reply, e₁, hreply, h⟩ := h
  rw [ht.reads _ _ rfl] at hreply
  cases hcall : (view e).call (.KnownBlock x) with
  | error err => rw [hcall] at hreply; cases hreply
  | ok r =>
    rw [hcall] at hreply
    cases hreply
    split at h
    · obtain ⟨hk, rfl⟩ := (pure_ok _ _ _ _).mp h
      exact ⟨(Option.some.inj hk).trans (ht.known _ _ _ hcall), rfl⟩
    · exact absurd ((pure_ok _ _ _ _).mp h).1 nofun

theorem heightOf_of_mem (ht : OneTree node.call view best t)
    (h : x ∈ (best e).hashes) : (best e).heightOf x = some (t.height x) := by
  obtain ⟨i, hi⟩ := mem_iff_getElem?.mp h
  rw [PowChain.hashes_getElem?, map_eq_some_iff] at hi
  obtain ⟨b, hb, rfl⟩ := hi
  rw [(ht.blocks e b (mem_of_getElem? hb)).2, (best e).heights _ _ hb]
  exact PowChain.heightOf_of_getElem? hb

/-- Where the broadcasts of a commit start: at the first final block or after the last one. -/
def broadcastStart (t : Forest BlockHash) (prev : Option BlockHash) (x : BlockHash) : Nat :=
  match prev with
  | none => t.height x
  | some y => t.height y + 1

theorem decided_log (ht : OneTree node.call view best t) {fuel : Nat} {s s' : TFLServiceInternal}
    {b : BftBlock} {fp : FatPointerToBftBlock2} {roster : List SortedRosterMember}
    {prev : Option BlockHash}
    (step : new_decided_bft_block_from_malachite node fuel s b fp e = .ok ((s', roster), e'))
    (hfinal : new_final_hash node.crypto b = .ok x) (hx : x ∈ (best e').hashes)
    (hprev : ∀ y ∈ prev, y ∈ (best e').hashes)
    (hcur : s.current_bc_final = prev.map fun y => (t.height y, y)) :
    s'.latest_final_block = some (t.height x, x) ∧ s'.current_bc_final = some (t.height x, x) ∧
      s'.final_change_tx = s.final_change_tx ++
        (best e').heightHashes (broadcastStart t prev x) (t.height x + 1) := by
  obtain ⟨⟨k, x'⟩, e₁, blocks, e₂, hc, -, -, ha, -⟩ := (new_decided_ok ..).mp step
  obtain ⟨-, -, hx', e₃, -, hk⟩ := (check_decided_ok ..).mp hc
  obtain rfl := Except.ok.inj (hx'.symm.trans hfinal)
  obtain ⟨rfl, -⟩ := known_height ht hk
  obtain ⟨hashes, infos, s₁, hseq, happly, rfl⟩ := (apply_new_final_ok ..).mp ha
  obtain ⟨hl, -⟩ := apply_final_blocks_sameBft _ _ _ _ happly
  obtain ⟨rfl, hwalk⟩ := block_sequence_result ht.reads (ht.shows _) hseq
  have hxh := heightOf_of_mem ht hx
  refine ⟨hl, rfl, ?_⟩
  rw [apply_final_blocks_log _ _ _ _ happly]
  congr 1
  rw [PowChain.stopAt_of_heightOf hxh] at hwalk
  simp only [hcur]
  cases prev with
  | none =>
    -- the first final block: the walk is that block alone, and nothing is skipped
    simp only [sequenceStart, hcur, map_none] at hwalk
    obtain ⟨i, hi, -, rfl, rfl⟩ | ⟨hoff, -⟩ := hwalk
    · rw [hxh, Option.some.injEq] at hi
      subst hi
      rw [walk_zip, Nat.max_eq_right (Nat.le_succ _), broadcastStart]
      exact filter_eq_self.mpr fun _ _ => rfl
    · exact absurd (hoff _ hxh) (lt_irrefl _)
  | some y =>
    have hyh := heightOf_of_mem ht (hprev y rfl)
    simp only [sequenceStart, hcur, map_some] at hwalk
    obtain ⟨i, hi, hle, rfl, rfl⟩ | ⟨hoff, rfl, rfl⟩ := hwalk
    · rw [hyh, Option.some.injEq] at hi
      subst hi
      rw [walk_zip, Nat.max_eq_right (by omega), broadcastStart]
      exact filter_walk hyh (by omega)
    · have hlt := hoff _ hyh
      rw [broadcastStart, PowChain.heightHashes_nil (by omega)]
      rfl

end Commit

/-! ## Paths -/

def follows (t : Forest BlockHash) (a b : Nat × BlockHash) : Prop :=
  t.parent b.2 = a.2 ∧ b.1 = a.1 + 1

section Paths

variable {t : Forest BlockHash} {c : PowChain} {i : Nat}

theorem heightHashes_follows (ht : ∀ b ∈ c.blocks, InTree t b) (start stop : Nat) :
    (c.heightHashes start stop).IsChain (follows t) := by
  have hlinked : c.blocks.IsChain fun a b => follows t (a.height, a.hash) (b.height, b.hash) := by
    refine isChain_iff_getElem.mpr fun i hi => ⟨?_, ?_⟩
    · rw [(ht _ (getElem_mem hi)).1]
      exact isChain_iff_getElem.mp c.linked i hi
    · have h₀ := c.heights i _ (getElem?_eq_getElem (by omega))
      have h₁ := c.heights (i + 1) _ (getElem?_eq_getElem hi)
      simp only
      omega
  exact (isChain_map _).mpr ((hlinked.take stop).drop start)

theorem follows_head (ht : ∀ b ∈ c.blocks, InTree t b) {y : BlockHash} {stop : Nat}
    (hy : c.heightOf y = some i) : ∀ b ∈ (c.heightHashes (i + 1) stop).head?, follows t (i, y) b := by
  by_cases hstop : i + 1 < stop ∧ i + 1 < c.blocks.length
  · obtain ⟨b, hb⟩ : ∃ b, c.blocks[i + 1]? = some b := ⟨_, getElem?_eq_getElem hstop.2⟩
    rw [PowChain.heightHashes_cons hstop.1 hb]
    rintro _ ⟨⟩
    have hparent := PowChain.heightOf_eq_some_iff.mp (PowChain.heightOf_parent hb)
    rw [PowChain.heightOf_eq_some_iff.mp hy, Option.some.injEq] at hparent
    exact ⟨(ht b (mem_of_getElem? hb)).1.trans hparent.symm, rfl⟩
  · rw [PowChain.heightHashes, PowChain.slice, drop_eq_nil_of_le]
    · simp
    · rw [length_take]
      omega

theorem nodup_of_follows {l : List (Nat × BlockHash)} (hl : l.IsChain (follows t))
    (hheight : ∀ a ∈ l, a.1 = t.height a.2) : (l.map (·.2)).Nodup := by
  have hlt : (l.map (·.1)).IsChain (· < ·) :=
    (isChain_map _).mpr (hl.imp fun a b h => by rw [h.2]; exact Nat.lt_succ_self _)
  rw [isChain_iff_pairwise, pairwise_map] at hlt
  rw [Nodup, pairwise_map]
  refine hlt.imp_of_mem fun ha hb hab heq => ?_
  rw [hheight _ ha, hheight _ hb, heq] at hab
  exact lt_irrefl _ hab

theorem heightHashes_last {x : BlockHash} {start : Nat} (hx : c.heightOf x = some i)
    (hle : start ≤ i) : (c.heightHashes start (i + 1)).getLast? = some (i, x) := by
  have hlt := PowChain.heightOf_lt hx
  have hhash := PowChain.heightOf_eq_some_iff.mp hx
  rw [PowChain.hashes_getElem?, map_eq_some_iff] at hhash
  obtain ⟨b, hb, rfl⟩ := hhash
  rw [PowChain.heightHashes, getLast?_map, getLast?_eq_getElem?,
    PowChain.slice_length start hlt, PowChain.slice_getElem?, if_pos (by omega),
    (by omega : start + (i + 1 - start - 1) = i), hb, map_some, c.heights _ _ hb]

end Paths

/-! ## Runs -/

/-- No block is applied twice, and the applied blocks are a path from the first final block to the
latest one. -/
structure AppliedOnce (t : Forest BlockHash) (xs : List BlockHash) (s : TFLServiceInternal) :
    Prop where
  nodup : (s.final_change_tx.map (·.2)).Nodup
  path : s.final_change_tx.IsChain (follows t)
  first : s.final_change_tx.head?.map (·.2) = xs.head?
  last : s.final_change_tx.getLast? = s.latest_final_block

def rises (t : Forest BlockHash) (xs : List BlockHash) : Prop := (xs.map t.height).IsChain (· ≤ ·)

/-- What every run of commits keeps, whatever the heights do. -/
structure LogInv (t : Forest BlockHash) (xs : List BlockHash) (s : TFLServiceInternal) : Prop where
  current : s.current_bc_final = xs.getLast?.map fun x => (t.height x, x)
  latest : s.latest_final_block = s.current_bc_final
  heights : ∀ a ∈ s.final_change_tx, a.1 = t.height a.2
  first : s.final_change_tx.head?.map (·.2) = xs.head?

def Broken (t : Forest BlockHash) (s : TFLServiceInternal) : Prop :=
  ¬ s.final_change_tx.IsChain (follows t) ∨
    ∃ a f, s.final_change_tx.getLast? = some a ∧ s.latest_final_block = some f ∧ f.1 < a.1

variable {xs : List BlockHash} {t : Forest BlockHash}

theorem rises_append {x : BlockHash} :
    rises t (xs ++ [x]) ↔ rises t xs ∧ ∀ y ∈ xs.getLast?, t.height y ≤ t.height x := by
  rw [rises, rises, map_append, isChain_append, getLast?_map]
  constructor
  · rintro ⟨h, -, hlast⟩
    exact ⟨h, fun y hy => hlast _ (Option.mem_map_of_mem _ hy) _ rfl⟩
  · rintro ⟨h, hlast⟩
    refine ⟨h, isChain_singleton _, ?_⟩
    rintro _ hmem _ ⟨⟩
    obtain ⟨y, hy, rfl⟩ := Option.mem_map.mp hmem
    exact hlast y hy

theorem Broken.not_appliedOnce {s : TFLServiceInternal}
    (h : Broken t s) : ¬ AppliedOnce t xs s := by
  intro happ
  obtain hpath | ⟨a, f, ha, hf, hlt⟩ := h
  · exact hpath happ.path
  · rw [happ.last, hf, Option.some.injEq] at ha
    rw [ha] at hlt
    exact lt_irrefl _ hlt

section Runs

variable {node : Node E} {view : E → ReadStateService} {best : E → PowChain} {t : Forest BlockHash}
  {xs : List BlockHash} {s s' : TFLServiceInternal} {x : BlockHash} {c : PowChain}

/-- What a commit adds, in terms of the best chain `c` after it. -/
structure Commits (t : Forest BlockHash) (c : PowChain) (xs : List BlockHash) (x : BlockHash)
    (s s' : TFLServiceInternal) : Prop where
  tree : ∀ b ∈ c.blocks, InTree t b
  here : c.heightOf x = some (t.height x)
  before : ∀ y ∈ xs.getLast?, c.heightOf y = some (t.height y)
  latest : s'.latest_final_block = some (t.height x, x)
  current : s'.current_bc_final = some (t.height x, x)
  log : s'.final_change_tx = s.final_change_tx ++
    c.heightHashes (broadcastStart t xs.getLast? x) (t.height x + 1)

theorem heightHashes_heights (ht : ∀ b ∈ c.blocks, InTree t b) (start stop : Nat) :
    ∀ a ∈ c.heightHashes start stop, a.1 = t.height a.2 := by
  intro a ha
  obtain ⟨b, hb, rfl⟩ := mem_map.mp ha
  exact (ht b (mem_of_mem_take (mem_of_mem_drop hb))).2.symm

theorem single_block (hx : c.heightOf x = some (t.height x)) :
    c.heightHashes (t.height x) (t.height x + 1) = [(t.height x, x)] := by
  obtain ⟨b, hb⟩ : ∃ b, c.blocks[t.height x]? = some b :=
    ⟨_, getElem?_eq_getElem (PowChain.heightOf_lt hx)⟩
  have hhash := PowChain.heightOf_eq_some_iff.mp hx
  rw [PowChain.hashes_getElem?, hb, map_some, Option.some.injEq] at hhash
  rw [PowChain.heightHashes_cons (Nat.lt_succ_self _) hb, PowChain.heightHashes_nil le_rfl, hhash]

section

variable (hinv : LogInv t xs s)
include hinv

theorem LogInv.commits (h : Commits t c xs x s s') : LogInv t (xs ++ [x]) s' where
  current := by rw [h.current, getLast?_concat, map_some]
  latest := by rw [h.latest, h.current]
  heights a ha := by
    rw [h.log, mem_append] at ha
    exact ha.elim (hinv.heights a) (heightHashes_heights h.tree _ _ a)
  first := by
    rw [h.log, head?_append, head?_append]
    cases hxs : xs.head? with
    | none =>
      rw [head?_eq_none_iff] at hxs
      have hlog := hinv.first
      rw [hxs, head?_nil, Option.map_eq_none_iff] at hlog
      rw [hlog, hxs, Option.none_or, getLast?_nil, broadcastStart, single_block h.here]
      rfl
    | some y =>
      have hlog := hinv.first
      rw [hxs, map_eq_some_iff] at hlog
      obtain ⟨a, ha, rfl⟩ := hlog
      rw [ha, some_or, map_some, some_or]

theorem Commits.joins (h : Commits t c xs x s s') (hpath : s.final_change_tx.IsChain (follows t))
    (hlast : s.final_change_tx.getLast? = s.latest_final_block)
    (hrise : ∀ y ∈ xs.getLast?, t.height y ≤ t.height x) :
    s'.final_change_tx.IsChain (follows t) ∧ s'.final_change_tx.getLast? = s'.latest_final_block := by
  rw [h.log, h.latest]
  rw [hinv.latest, hinv.current] at hlast
  cases hxs : xs.getLast? with
  | none =>
    rw [hxs, map_none, getLast?_eq_none_iff] at hlast
    rw [hlast, nil_append, broadcastStart, single_block h.here]
    exact ⟨isChain_singleton _, rfl⟩
  | some y =>
    have hy := h.before y hxs
    rw [hxs, map_some] at hlast
    refine ⟨isChain_append.mpr ⟨hpath, heightHashes_follows h.tree _ _, ?_⟩, ?_⟩
    · intro a ha
      rw [hlast] at ha
      cases ha
      exact follows_head h.tree hy
    · rw [getLast?_append, broadcastStart]
      obtain heq | hlt := (hrise y hxs).eq_or_lt
      · -- the same block again: nothing is added
        have hxy : y = x := by
          have := PowChain.heightOf_eq_some_iff.mp hy
          rw [heq, PowChain.heightOf_eq_some_iff.mp h.here] at this
          exact (Option.some.inj this).symm
        rw [heq, PowChain.heightHashes_nil le_rfl, hlast, hxy]
        rfl
      · rw [heightHashes_last h.here hlt]
        rfl

theorem Commits.breaks (h : Commits t c xs x s s')
    (hlast : s.final_change_tx.getLast? = s.latest_final_block) {y : BlockHash}
    (hy : y ∈ xs.getLast?) (hdrop : t.height x < t.height y) : Broken t s' := by
  rw [hinv.latest, hinv.current, hy, map_some] at hlast
  refine .inr ⟨(t.height y, y), (t.height x, x), ?_, h.latest, hdrop⟩
  rw [h.log, hy, broadcastStart, PowChain.heightHashes_nil (by omega), append_nil, hlast]

theorem Commits.stays_broken (h : Commits t c xs x s s') (hbroken : Broken t s) : Broken t s' := by
  obtain hpath | ⟨a, f, ha, hf, hlt⟩ := hbroken
  · refine .inl fun hpath' => hpath ?_
    rw [h.log] at hpath'
    exact hpath'.left_of_append
  · rw [hinv.latest, hinv.current, map_eq_some_iff] at hf
    obtain ⟨y, hy, rfl⟩ := hf
    by_cases hle : t.height x ≤ t.height y
    · refine .inr ⟨a, _, ?_, h.latest, by simp only at hlt ⊢; omega⟩
      rw [h.log, hy, broadcastStart, PowChain.heightHashes_nil (by omega), append_nil, ha]
    · refine .inl fun hpath' => ?_
      have hlen := PowChain.heightOf_lt h.here
      obtain ⟨b, hb⟩ : ∃ b, c.blocks[t.height y + 1]? = some b :=
        ⟨_, getElem?_eq_getElem (by omega)⟩
      rw [h.log, hy, broadcastStart, PowChain.heightHashes_cons (by omega) hb,
        isChain_append] at hpath'
      have hnext := (hpath'.2.2 a ha _ rfl).2
      simp only at hnext hlt
      omega

theorem commits_of_decided (ht : OneTree node.call view best t) {fuel : Nat} {b : BftBlock}
    {fp : FatPointerToBftBlock2} {e e' : E} {roster : List SortedRosterMember}
    (step : new_decided_bft_block_from_malachite node fuel s b fp e = .ok ((s', roster), e'))
    (hfinal : new_final_hash node.crypto b = .ok x) (hmem : ∀ y ∈ xs ++ [x], y ∈ (best e').hashes) :
    Commits t (best e') xs x s s' := by
  have hx : x ∈ (best e').hashes := hmem x (by simp)
  have hprev : ∀ y ∈ xs.getLast?, y ∈ (best e').hashes := fun y hy =>
    hmem y (mem_append_left _ (mem_of_getLast? hy))
  obtain ⟨hlatest, hcurrent, hlog⟩ := decided_log ht step hfinal hx hprev hinv.current
  exact ⟨ht.blocks e', heightOf_of_mem ht hx, fun y hy => heightOf_of_mem ht (hprev y hy), hlatest,
    hcurrent, hlog⟩

end

theorem FinalRun.path_or_broken (ht : OneTree node.call view best t) {start : TFLServiceInternal}
    (hstart : LogInv t [] start) (run : FinalRun node best start xs s) : LogInv t xs s ∧
      (rises t xs → s.final_change_tx.IsChain (follows t) ∧
        s.final_change_tx.getLast? = s.latest_final_block) ∧ (¬ rises t xs → Broken t s) := by
  induction run with
  | start =>
    have hlog := hstart.first
    rw [head?_nil, Option.map_eq_none_iff, head?_eq_none_iff] at hlog
    refine ⟨hstart, fun _ => ?_, fun h => absurd IsChain.nil h⟩
    rw [hlog, hstart.latest, hstart.current]
    exact ⟨.nil, rfl⟩
  | @decided xs s s' fuel b fp e e' roster x run step hfinal hmem ih =>
    obtain ⟨hinv, hpath, hbroken⟩ := ih
    have hc := commits_of_decided hinv ht step hfinal hmem
    refine ⟨hinv.commits hc, fun h => ?_, fun h => ?_⟩
    · obtain ⟨hxs, hrise⟩ := rises_append.mp h
      obtain ⟨hp, hl⟩ := hpath hxs
      exact hc.joins hinv hp hl hrise
    · by_cases hxs : rises t xs
      · obtain ⟨-, hl⟩ := hpath hxs
        have hdrop : ∃ y ∈ xs.getLast?, t.height x < t.height y := by
          by_contra hn
          refine h (rises_append.mpr ⟨hxs, fun y hy => ?_⟩)
          by_contra hlt
          exact hn ⟨y, hy, not_le.mp hlt⟩
        obtain ⟨y, hy, hlt⟩ := hdrop
        exact hc.breaks hinv hl hy hlt
      · exact hc.stays_broken hinv (hbroken hxs)

end Runs

/-- Every PoW block is applied once and in order exactly when the heights of the finalized blocks
never drop. -/
theorem applied_once_iff_heights_rise (node : Node E) (view : E → ReadStateService)
    (best : E → PowChain) (t : Forest BlockHash) (ht : OneTree node.call view best t)
    (is_regtest : Bool) (peers : List (MalPublicKey × String)) (own : MalPublicKey × String)
    (xs : List BlockHash) (s : TFLServiceInternal)
    (run : FinalRun node best (spawn_new_tfl_service is_regtest peers own) xs s) :
    AppliedOnce t xs s ↔ rises t xs := by
  have hstart : LogInv t [] (spawn_new_tfl_service is_regtest peers own) :=
    ⟨rfl, rfl, nofun, rfl⟩
  obtain ⟨hinv, hpath, hbroken⟩ := run.path_or_broken ht hstart
  constructor
  · intro happ
    by_contra hn
    exact (hbroken hn).not_appliedOnce happ
  · intro hrise
    obtain ⟨hp, hl⟩ := hpath hrise
    exact ⟨nodup_of_follows hp hinv.heights, hp, hinv.first, hl⟩

/-! ## Sample runs -/

namespace Sample

theorem id_head (n : UInt8) : (id n).val.headD 0 = n := rfl

def tree : Forest BlockHash where
  parent x := id (UInt8.ofNat ((x.val.headD 0).toNat - 1))
  height x := (x.val.headD 0).toNat - 10
  height_parent x hx := by
    have hlt := (x.val.headD 0).toNat_lt
    rw [id_head, UInt8.toNat_ofNat', Nat.mod_eq_of_lt (by omega)]
    omega

theorem reads_oneTree : OneTree (readNode reads).call (fun _ => reads) (fun _ => best) tree where
  reads := readNode_answers reads
  shows _ := reads_shows
  blocks _ := by
    unfold InTree
    decide +kernel
  known _ x k h := by
    obtain hx | ⟨c, hc, -⟩ := ReadStateService.known_block reads_shows h
    · have htree : ∀ b ∈ best.blocks, tree.height b.hash = b.height := by decide +kernel
      rw [PowChain.heightOf_eq_some_iff, PowChain.hashes_getElem?, map_eq_some_iff] at hx
      obtain ⟨b, hb, rfl⟩ := hx
      rw [htree b (mem_of_getElem? hb), best.heights _ _ hb]
    · exact absurd hc not_mem_nil

def commit (node : Node Unit) (s : TFLServiceInternal) (b : BftBlock) :
    Except Abort ((TFLServiceInternal × List SortedRosterMember) × Unit) :=
  new_decided_bft_block_from_malachite node 3 s b (pointer b) ()

def after (node : Node Unit) (s : TFLServiceInternal) (b : BftBlock) : TFLServiceInternal :=
  match commit node s b with
  | .ok ((s', _), _) => s'
  | .error _ => s

variable {b : BftBlock} {s : TFLServiceInternal} {node : Node Unit}

theorem commit_eq_after (h : (commit node s b).isOk = true) :
    ∃ roster, commit node s b = .ok ((after node s b, roster), ()) := by
  obtain ⟨⟨⟨s', roster⟩, _⟩, hc⟩ := exists_of_isOk h
  exact ⟨roster, by rw [after, hc]⟩

theorem run_commit {c : PowChain} {start : TFLServiceInternal}
    {xs : List BlockHash} (run : FinalRun node (fun _ => c) start xs s)
    {x : BlockHash} (hok : (Sample.commit node s b).isOk = true)
    (hfinal : new_final_hash node.crypto b = .ok x) (hmem : ∀ y ∈ xs ++ [x], y ∈ c.hashes) :
    FinalRun node (fun _ => c) start (xs ++ [x]) (after node s b) := by
  obtain ⟨roster, hstep⟩ := commit_eq_after hok
  exact .decided 3 b (pointer b) () () roster x run hstep hfinal hmem

def node₅ : Node Unit := readNode reads

def risen : BftBlock := bftBlock 2 (pointer proposal) [header 12 13]

def dropped : BftBlock := bftBlock 2 (pointer proposal) [header 10 11]

def repeated : BftBlock := bftBlock 3 (pointer dropped) [header 11 12]

theorem run_proposal : FinalRun node₅ (fun _ => best) start [id 12] (after node₅ start proposal) :=
  run_commit .start (by decide +kernel) rfl (by decide +kernel)

theorem run_risen : FinalRun node₅ (fun _ => best) start [id 12, id 13]
    (after node₅ (after node₅ start proposal) risen) :=
  run_commit run_proposal (by decide +kernel) rfl (by decide +kernel)

theorem run_dropped : FinalRun node₅ (fun _ => best) start [id 12, id 11]
    (after node₅ (after node₅ start proposal) dropped) :=
  run_commit run_proposal (by decide +kernel) rfl (by decide +kernel)

theorem run_repeated : FinalRun node₅ (fun _ => best) start [id 12, id 11, id 12]
    (after node₅ (after node₅ (after node₅ start proposal) dropped) repeated) :=
  run_commit run_dropped (by decide +kernel) rfl (by decide +kernel)

end Sample

open Sample

theorem applied_once_iff_heights_rise_sample : rises tree [Sample.id 12, Sample.id 13] ∧
      AppliedOnce tree [Sample.id 12, Sample.id 13] (after node₅ (after node₅ start proposal)
          risen) := by
  have hrise : rises tree [Sample.id 12, Sample.id 13] := by
    unfold rises
    decide +kernel
  exact ⟨hrise, (applied_once_iff_heights_rise node₅ (fun _ => reads)
    (fun _ => best) tree reads_oneTree true [] (Sample.id 1, "own") _ _
    run_risen).mpr hrise⟩

/-- After blocks that finalize heights 2, 1 and 2 again, height 2 is applied to the roster twice. -/
theorem block_applied_twice : ∃ s, FinalRun node₅ (fun _ => best) start
        [Sample.id 12, Sample.id 11, Sample.id 12] s ∧
      s.final_change_tx = [(2, Sample.id 12), (2, Sample.id 12)] ∧
      ¬ AppliedOnce tree [Sample.id 12, Sample.id 11, Sample.id 12] s := by
  have hlog : (after node₅ (after node₅ (after node₅
      start proposal) dropped) repeated).final_change_tx =
        [(2, Sample.id 12), (2, Sample.id 12)] := by
    decide +kernel
  refine ⟨_, run_repeated, hlog, fun happ => ?_⟩
  have hnodup := happ.nodup
  rw [hlog] at hnodup
  exact absurd hnodup (by decide)

end ZebraCrosslink
