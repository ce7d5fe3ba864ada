import ZebraCrosslink.Rust.Exec

/-!
# Runs of a machine whose steps may abort

A condition on single steps, met in every state where a step is taken, carries an invariant through
a whole run.
-/

namespace Rust.Runs

variable {σ : Type} {ε : Type*} (step : σ → ε → Except Abort σ)

def run (s : σ) : List ε → Except Abort σ
  | [] => .ok s
  | e :: rest => do
    let s ← step s e
    run s rest

/-- Each event meets the condition in the state in which it happens. -/
def Meets (cond : σ → ε → Prop) (s : σ) : List ε → Prop
  | [] => True
  | e :: rest => cond s e ∧ ∀ s', step s e = .ok s' → Meets cond s' rest

variable {step} {cond : σ → ε → Prop} {s s' : σ} {e : ε} {events done rest : List ε} {Inv : σ → Prop}

theorem run_cons_ok : run step s (e :: rest) = .ok s' ↔ ∃ s₁, step s e = .ok s₁ ∧ run step s₁ rest = .ok s' :=
  except_bind_ok

theorem map_ok {α β : Type} {x : Except Abort α} {f : α → β} {b : β} :
    x.map f = .ok b ↔ ∃ a, x = .ok a ∧ f a = b := by
  cases x <;> simp [Except.map]

theorem Meets.of_prefix (h : Meets step cond s events) (hdone : done <+: events) :
    Meets step cond s done := by
  induction done generalizing s events with
  | nil => trivial
  | cons e done ih =>
    obtain ⟨rest, rfl⟩ := hdone
    obtain ⟨hcond, hrest⟩ := h
    exact ⟨hcond, fun s' hs' => ih (hrest s' hs') (List.prefix_append _ _)⟩

theorem Meets.of_forall {P : ε → Prop} (h : ∀ e ∈ events, P e) (s : σ) :
    Meets step (fun _ e => P e) s events := by
  induction events generalizing s with
  | nil => trivial
  | cons e rest ih =>
    obtain ⟨he, hrest⟩ := List.forall_mem_cons.mp h
    exact ⟨he, fun s' _ => ih hrest s'⟩

theorem Meets.imp {cond' : σ → ε → Prop} (himp : ∀ s e, cond s e → cond' s e)
    (h : Meets step cond s events) : Meets step cond' s events := by
  induction events generalizing s with
  | nil => trivial
  | cons e rest ih =>
    obtain ⟨hcond, hrest⟩ := h
    exact ⟨himp s e hcond, fun s' hs' => ih (hrest s' hs')⟩

instance decidableMeets [∀ s e, Decidable (cond s e)] :
    (events : List ε) → (s : σ) → Decidable (Meets step cond s events)
  | [], _ => .isTrue trivial
  | e :: rest, s =>
    match h : step s e with
    | .ok s' =>
      have := decidableMeets rest s'
      decidable_of_iff (cond s e ∧ Meets step cond s' rest) (by simp [Meets, h])
    | .error _ => decidable_of_iff (cond s e) (by simp [Meets, h])

theorem run_append_ok (hdone : run step s done = .ok s') : run step s (done ++ rest) = run step s' rest := by
  induction done generalizing s with
  | nil => cases hdone; rfl
  | cons e done ih =>
    obtain ⟨s₁, hs₁, hdone⟩ := run_cons_ok.mp hdone
    rw [List.cons_append, run, hs₁]
    exact ih hdone

theorem run_keeps (hstep : ∀ s e, Inv s → cond s e → ∃ s', step s e = .ok s' ∧ Inv s') (hs : Inv s)
    (h : Meets step cond s events) (hdone : done <+: events) :
    ∃ s', run step s done = .ok s' ∧ Inv s' := by
  have hmeets := h.of_prefix hdone
  clear h hdone
  induction done generalizing s with
  | nil => exact ⟨s, rfl, hs⟩
  | cons e rest ih =>
    obtain ⟨hcond, hrest⟩ := hmeets
    obtain ⟨s₁, hs₁, hinv⟩ := hstep s e hs hcond
    obtain ⟨s', hrun, hinv'⟩ := ih hinv (hrest s₁ hs₁)
    exact ⟨s', run_cons_ok.mpr ⟨s₁, hs₁, hrun⟩, hinv'⟩

theorem run_step_keeps {R : σ → σ → Prop}
    (hstep : ∀ s e, Inv s → cond s e → ∃ s', step s e = .ok s' ∧ Inv s' ∧ R s s') (hs : Inv s)
    (h : Meets step cond s events) (hdone : done ++ [e] <+: events) :
    ∃ s₁ s₂, run step s done = .ok s₁ ∧ step s₁ e = .ok s₂ ∧ Inv s₂ ∧ R s₁ s₂ := by
  have hmeets := h.of_prefix hdone
  clear h hdone
  induction done generalizing s with
  | nil =>
    obtain ⟨s₂, hs₂, hinv, hrel⟩ := hstep s e hs hmeets.1
    exact ⟨s, s₂, rfl, hs₂, hinv, hrel⟩
  | cons e' rest ih =>
    obtain ⟨hcond, hrest⟩ := hmeets
    obtain ⟨s', hs', hinv, -⟩ := hstep s e' hs hcond
    obtain ⟨s₁, s₂, hrun, hlast⟩ := ih hinv (hrest s' hs')
    exact ⟨s₁, s₂, run_cons_ok.mpr ⟨s', hs', hrun⟩, hlast⟩

theorem run_invariant (Inv : σ → Prop)
    (hstep : ∀ s s', ∀ e ∈ events, Inv s → cond s e → step s e = .ok s' → Inv s') (hs : Inv s)
    (h : Meets step cond s events) (hrun : run step s events = .ok s') : Inv s' := by
  induction events generalizing s with
  | nil =>
    cases hrun
    exact hs
  | cons e rest ih =>
    obtain ⟨hcond, hrest⟩ := h
    obtain ⟨s₁, hs₁, hrun⟩ := run_cons_ok.mp hrun
    exact ih (fun s s' e he => hstep s s' e (List.mem_cons_of_mem _ he))
      (hstep s s₁ e List.mem_cons_self hs hcond hs₁) (hrest s₁ hs₁) hrun

theorem run_preserves (Inv : σ → Prop)
    (hstep : ∀ s e s', Inv s → cond s e → step s e = .ok s' → Inv s') (hs : Inv s)
    (h : Meets step cond s events) (hdone : done <+: events) (hrun : run step s done = .ok s') : Inv s' :=
  run_invariant Inv (fun s s' e _ => hstep s e s') hs (h.of_prefix hdone) hrun

end Rust.Runs
