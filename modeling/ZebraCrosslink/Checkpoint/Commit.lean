import ZebraCrosslink.Checkpoint.Exact

/-!
# Checkpoint progress and the state

The future of a request whose task returned an error reads the tip of the state and sends it to the
verifier, which goes back to that tip.
-/

open Rust Rust.Runs List

namespace ZebraCrosslink.checkpoint

open CheckpointVerifier

structure CommitSystem extends System where
  handed : List Block
  state_tip : Tip
  committed : List Nat
  /-- The futures that have read the tip and not yet sent it. -/
  reading : List (Nat × Tip)
  resolved : List Nat
  shutting_down : Bool

inductive CommitEvent
  | call (block : Block)
  | commit (number : Nat)
  /-- The future of a request reads the tip, as the request failed. -/
  | read (number : Nat)
  /-- The future sends what it read to the verifier. -/
  | send (number : Nat)
  | shutdown

namespace CommitSystem

def start (env : Env) (initial_tip : Tip) : Except Abort CommitSystem := do
  let w ← System.start env initial_tip
  return { w with handed := [], state_tip := initial_tip, committed := [], reading := [], resolved := [],
                  shutting_down := false }

def verified_hash (w : CommitSystem) (number : Nat) : Option BlockHash :=
  w.answers.findSome? fun a => if a.1 = number then a.2.toOption else none

def answered_error (w : CommitSystem) (number : Nat) : Bool :=
  w.answers.any fun a => a.1 == number && !a.2.isOk

/-- Whether the result of a request is an error. During a shutdown all results are. -/
def fails (w : CommitSystem) (number : Nat) : Bool :=
  w.answered_error number || (w.shutting_down && number ∈ w.committed)

def tip_hash : Tip → BlockHash
  | none => GENESIS_PREVIOUS_BLOCK_HASH
  | some (_, hash) => hash

def commit (w : CommitSystem) (number : Nat) : CommitSystem :=
  match w.verified_hash number, w.handed[number]? with
  | some hash, some block =>
    if number ∉ w.committed ∧ block.header.previous_block_hash = tip_hash w.state_tip then
      { w with
        state_tip := block.coinbase_height.map (·, hash)
        committed := w.committed ++ [number] }
    else w
  | _, _ => w

def read (w : CommitSystem) (number : Nat) : CommitSystem :=
  if w.fails number = true ∧ number ∉ w.resolved then
    { w with reading := w.reading ++ [(number, w.state_tip)], resolved := w.resolved ++ [number] }
  else w

def send (w : CommitSystem) (number : Nat) : CommitSystem :=
  match w.reading.find? (·.1 = number) with
  | none => w
  | some (_, tip) =>
    { w with
      reading := w.reading.filter (·.1 ≠ number)
      verifier.reset_receiver := w.verifier.reset_receiver ++ [tip] }

def step (env : Env) (w : CommitSystem) : CommitEvent → Except Abort CommitSystem
  | .call block => do
    let system ← w.toSystem.step env (.call block)
    return { w with toSystem := system, handed := w.handed ++ [block] }
  | .commit number => .ok (w.commit number)
  | .read number => .ok (w.read number)
  | .send number => .ok (w.send number)
  | .shutdown => .ok { w with shutting_down := true }

/-- A block is handed in only if it is on the chain of the checkpoints and not queued, and the node is
not shutting down. -/
def InStep (env : Env) (chain : Nat → Header) (w : CommitSystem) : CommitEvent → Prop
  | .call block => ¬ Queued w.verifier.queued (env.hash block.header) ∧
      ∀ h ≤ env.checkpoint_list.max_height, block.coinbase_height = some h → block.header = chain h
  | .shutdown => False
  | .commit _ | .read _ | .send _ => True

/-- No request has failed, and only blocks on the chain are queued. -/
structure Clean (env : Env) (chain : Nat → Header) (w : CommitSystem) : Prop where
  kept : Kept env chain w.verifier
  on_chain : ∀ h qblocks q, w.verifier.queued.lookup h = some qblocks → q ∈ qblocks →
    q.block.hash = env.hash (chain h)
  answers_ok : ∀ a ∈ w.answers, ∃ hash, a.2 = .ok hash
  no_resets : w.verifier.reset_receiver = []
  no_reading : w.reading = []
  running : w.shutting_down = false

variable {env : Env} {chain : Nat → Header} {w : CommitSystem}

theorem clean_start (env : Env) {initial_tip : Tip} (htip : OnChain env chain initial_tip) :
    ∃ w, start env initial_tip = .ok w ∧ Clean env chain w := by
  have hempty : Kept env chain ⟨none, ∅, .BeforeGenesis, []⟩ :=
    ⟨fun h qblocks hlookup => (by cases hlookup), fun h hh => (by cases hh), fun h hh => (by cases hh),
      fun tip hmem => by cases hmem⟩
  refine ⟨⟨⟨⟨_, ∅, _, []⟩, 0, [], [], []⟩, [], initial_tip, [], [], [], false⟩, ?_, hempty.reset htip, ?_, ?_,
    rfl, rfl, rfl⟩
  · unfold start System.start from_checkpoint_list
    simp only [diagnostics_ok]
    rfl
  · exact fun h qblocks q hlookup => by cases hlookup
  · exact fun a ha => by cases ha

theorem Clean.fails_eq (h : Clean env chain w) (number : Nat) : w.fails number = false := by
  unfold fails answered_error
  rw [h.running, Bool.false_and, Bool.or_false, any_eq_false]
  intro a ha
  obtain ⟨hash, hok⟩ := h.answers_ok a ha
  simp [hok, Except.isOk, Except.toBool]

theorem not_offChain {queued : Map Nat (List QueuedBlock)}
    (h : ∀ k qblocks q, queued.lookup k = some qblocks → q ∈ qblocks → q.block.hash = env.hash (chain k))
    (a : Nat × Except VerifyCheckpointError BlockHash) : ¬ OffChain env chain queued a := by
  rintro ⟨k, qblocks, q, hlookup, hq, hne, -⟩
  exact hne (h k qblocks q hlookup hq)

theorem Clean.call (h : Clean env chain w) (hchain : OnOneChain env chain) {block : Block}
    (hin : InStep env chain w (.call block)) :
    ∃ w', w.step env (.call block) = .ok w' ∧ Clean env chain w' ∧
      w'.verifier.verifier_progress.cmp w.verifier.verifier_progress ≠ .lt := by
  obtain ⟨hnew, hheader⟩ := hin
  have hfree : CollisionFree env chain block := fun k hk hheight _ => hheader k hk hheight
  have hself : ∀ progress : Progress Nat, progress.cmp progress ≠ .lt := fun progress => by
    simp [Progress.cmp]
  obtain ⟨v₀, hreset, hkept, hcall⟩ := call_ok h.kept hchain hfree w.calls
  have hv₀ : v₀ = w.verifier := by
    rw [receive_reset, h.no_resets] at hreset
    exact (Except.ok.inj hreset).symm
  subst hv₀
  rcases hcall with ⟨e, hcall, -⟩ |
    ⟨queued', v', replaced, sent, hcall, hfinal, hkept', hresets, -, hrepeated, hjoins, hstep, hremains, -⟩
  · refine ⟨_, except_bind_ok.mpr ⟨_, except_bind_ok.mpr ⟨_, hcall, rfl⟩, rfl⟩, ?_, hself _⟩
    exact ⟨hkept, h.on_chain, by simpa using h.answers_ok, h.no_resets, h.no_reading, h.running⟩
  · obtain rfl := hrepeated.resolve_right hnew
    -- All that is queued for the range is on the chain.
    have hqueued : ∀ k qblocks q, queued'.lookup k = some qblocks → q ∈ qblocks → q.block.hash = env.hash (chain k) := by
      intro k qblocks q hlookup hq
      rcases hjoins k qblocks q hlookup hq with ⟨hhash, hheight, hmax⟩ | ⟨before, hbefore, hq⟩
      · rw [hhash, hheader k hmax hheight]
      · exact h.on_chain k before q hbefore hq
    have hon_chain : ∀ k qblocks q, v'.queued.lookup k = some qblocks → q ∈ qblocks →
        q.block.hash = env.hash (chain k) := by
      intro k qblocks q hlookup hq
      rcases hremains k qblocks q hlookup hq with hhash | ⟨before, hbefore, hq⟩
      · exact hhash
      · exact hqueued k before q hbefore hq
    have hresult : (∀ a ∈ sent, ∃ hash, a.2 = .ok hash) ∧
        v'.verifier_progress.cmp w.verifier.verifier_progress ≠ .lt := by
      rcases hstep with ⟨hprogress, hfailed⟩ | ⟨target, blocks, failed, hverified, hfailed, rfl, -, hprogress⟩
      · exact ⟨fun a ha => absurd (hfailed a ha) (not_offChain hqueued a), hprogress ▸ hself _⟩
      · rw [hprogress, cmp_after_target hfinal hverified.first]
        refine ⟨fun a ha => ?_, by decide⟩
        rcases mem_append.mp ha with ha | ha
        · exact absurd (hfailed a ha) (not_offChain hqueued a)
        · obtain ⟨q, -, rfl⟩ := mem_map.mp ha
          exact ⟨_, rfl⟩
    refine ⟨_, except_bind_ok.mpr ⟨_, except_bind_ok.mpr ⟨_, hcall, rfl⟩, rfl⟩, ?_, hresult.2⟩
    refine ⟨hkept', hon_chain, fun a ha => ?_, hresets.trans h.no_resets, h.no_reading, h.running⟩
    rcases mem_append.mp ha with ha | ha
    · exact h.answers_ok a ha
    · exact hresult.1 a ha

theorem step_clean (hchain : OnOneChain env chain) (w : CommitSystem) (e : CommitEvent) (h : Clean env chain w)
    (hin : InStep env chain w e) : ∃ w', w.step env e = .ok w' ∧ Clean env chain w' ∧
      w'.verifier.verifier_progress.cmp w.verifier.verifier_progress ≠ .lt := by
  have hself : w.verifier.verifier_progress.cmp w.verifier.verifier_progress ≠ .lt := by simp [Progress.cmp]
  cases e with
  | call block => exact h.call hchain hin
  | commit number =>
    refine ⟨_, rfl, ?_⟩
    unfold CommitSystem.commit
    split
    · split
      · exact ⟨⟨h.kept, h.on_chain, h.answers_ok, h.no_resets, h.no_reading, h.running⟩, hself⟩
      · exact ⟨h, hself⟩
    · exact ⟨h, hself⟩
  | read number =>
    refine ⟨_, rfl, ?_⟩
    rw [CommitSystem.read, h.fails_eq, if_neg (by simp)]
    exact ⟨h, hself⟩
  | send number =>
    refine ⟨_, rfl, ?_⟩
    rw [CommitSystem.send, h.no_reading]
    exact ⟨h, hself⟩
  | shutdown => exact hin.elim

end CommitSystem

open CommitSystem

theorem checkpoint_progress_monotone {env : Env} {chain : Nat → Header} (hchain : OnOneChain env chain)
    (initial_tip : Tip) (htip : OnChain env chain initial_tip) {w₀ : CommitSystem}
    (hstart : CommitSystem.start env initial_tip = .ok w₀) {events : List CommitEvent}
    (hin : Meets (CommitSystem.step env) (CommitSystem.InStep env chain) w₀ events) :
    ∀ done e, done ++ [e] <+: events → ∃ w w', run (CommitSystem.step env) w₀ done = .ok w ∧
      w.step env e = .ok w' ∧ w'.verifier.verifier_progress.cmp w.verifier.verifier_progress ≠ .lt := by
  intro done e hprefix
  obtain ⟨w₁, hw₁, hclean⟩ := clean_start env htip
  cases hw₁.symm.trans hstart
  obtain ⟨w, w', hrun, hstep, -, hprogress⟩ :=
    run_step_keeps (step_clean hchain) hclean hin hprefix
  exact ⟨w, w', hrun, hstep, hprogress⟩

namespace Sample

def genesisState : CommitSystem where
  verifier := ⟨none, ∅, .BeforeGenesis, []⟩
  calls := 0
  accepted := []
  refused := []
  answers := []
  handed := []
  state_tip := none
  committed := []
  reading := []
  resolved := []
  shutting_down := false

def tipState : CommitSystem :=
  { genesisState with
    verifier := ⟨some (mark 0 1), ∅, .InitialTip 1, []⟩
    state_tip := some (1, mark 0 1) }

def repeated : Except Abort (CommitSystem × CommitSystem × CommitSystem) := do
  let w ← run (step rules) genesisState
    [.call (block 0 0), .call (block 0 1), .call (block 0 1), .read 1, .send 1]
  let w' ← w.step rules (.call (block 0 1))
  let w'' ← w'.step rules (.commit 0)
  return (w, w', w'')

end Sample

open checkpoint.Sample

/-- From the tip of the state below the last checkpoint, which is then verified and committed. -/
theorem tip_progress_monotone :
    ∃ w w', run (CommitSystem.step rules) tipState [CommitEvent.read 0] = .ok w ∧
      w.step rules (.call (block 0 2)) = .ok w' ∧
      w'.verifier.verifier_progress.cmp w.verifier.verifier_progress ≠ .lt ∧
      w.verifier.verifier_progress = .InitialTip 1 ∧
      w'.verifier.verifier_progress = .FinalCheckpoint := by
  have hmeets : Meets (step rules) (InStep rules (header 0))
      tipState [.read 0, .call (block 0 2), .commit 0, .read 0] := by
    refine ⟨trivial, fun w hw => ?_⟩
    cases hw
    refine ⟨⟨?_, fun h _ hheight => ?_⟩, fun _ _ => ⟨trivial, fun _ _ => ⟨trivial, fun _ _ => trivial⟩⟩⟩
    · rintro ⟨h, qblocks, q, hlookup, -⟩
      cases hlookup
    · cases hheight
      rfl
  have htip : OnChain rules (header 0) (some (1, mark 0 1)) := by
    intro h x hx _
    cases hx
    rfl
  obtain ⟨w, w', hrun, hstep, hcmp⟩ := checkpoint_progress_monotone onOneChain
    (some (1, mark 0 1)) htip rfl hmeets [.read 0] (.call (block 0 2)) ⟨_, rfl⟩
  cases hrun
  have hlast : (CommitSystem.step rules tipState (.call (block 0 2))).toOption.map
      (·.verifier.verifier_progress) = some .FinalCheckpoint := by decide +kernel
  have hstep' : CommitSystem.step rules tipState (.call (block 0 2)) = .ok w' := hstep
  rw [hstep'] at hlast
  exact ⟨_, w', rfl, hstep, hcmp, rfl, Option.some.inj hlast⟩

/-- A block is requested again before it is in the state. The first request fails and sends the
verifier back to the empty state, although all that was verified is committed. -/
theorem repeated_request_goes_back : ∃ w w' w'', run (CommitSystem.step rules) genesisState
        [.call (block 0 0), .call (block 0 1), .call (block 0 1), .read 1, .send 1] = .ok w ∧
      w.step rules (.call (block 0 1)) = .ok w' ∧
      w'.verifier.verifier_progress.cmp w.verifier.verifier_progress = .lt ∧
      w'.step rules (.commit 0) = .ok w'' ∧
      (w''.answers.filter (·.2.isOk)).map Prod.fst = [0] ∧ w''.committed = [0] := by
  have hrun : repeated.toOption.map (fun r => (r.1.verifier.verifier_progress,
      r.2.1.verifier.verifier_progress, (r.2.2.answers.filter (·.2.isOk)).map Prod.fst, r.2.2.committed)) =
      some (.PreviousCheckpoint 0, .BeforeGenesis, [0], [0]) := by
    decide +kernel
  obtain ⟨⟨w, w', w''⟩, hrepeated, hresult⟩ := exists_of_toOption_map hrun
  obtain ⟨_, hw, hrest⟩ := except_bind_ok.mp hrepeated
  obtain ⟨_, hw', hrest⟩ := except_bind_ok.mp hrest
  obtain ⟨_, hw'', hrest⟩ := except_bind_ok.mp hrest
  cases hrest
  simp only [Prod.mk.injEq] at hresult
  obtain ⟨hbefore, hafter, hanswers, hcommitted⟩ := hresult
  refine ⟨w, w', w'', hw, hw', ?_, hw'', hanswers, hcommitted⟩
  rw [hbefore, hafter]
  rfl

end ZebraCrosslink.checkpoint
