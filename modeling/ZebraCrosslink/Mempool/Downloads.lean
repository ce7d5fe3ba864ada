import ZebraCrosslink.Mempool.Panics

/-!
# Mempool downloads

The number of a call stands for its task and for the response channel that was passed in. Which task
ends next, and with what, is up to the schedule.
-/

open Rust Rust.Runs List

namespace ZebraCrosslink.mempool

def MAX_INBOUND_CONCURRENCY : Nat := 25

inductive Gossip
  | Id (txid : UnminedTxId)
  | Tx (tx : UnminedTx)

def Gossip.id : Gossip → UnminedTxId
  | Id txid => txid
  | Tx tx => tx.id

/-! ## Tasks -/

/-- How the download and verification of a transaction end, if the task is not cancelled before. -/
inductive Verification
  | verified (tx : VerifiedUnminedTx) (spent_mempool_outpoints : List OutPoint) (tip_height : Option Nat)
  | failed (error : TransactionDownloadVerifyError) (not_cancelled : error ≠ .Cancelled)
  | elapsed

inductive TaskResult
  | verified (tx : VerifiedUnminedTx) (spent_mempool_outpoints : List OutPoint) (tip_height : Option Nat)
  | failed (error : TransactionDownloadVerifyError) (txid : UnminedTxId)
  | elapsed
  deriving DecidableEq

inductive Answer
  /-- "verification cancelled" -/
  | cancelled
  /-- "timeout waiting for verification result" -/
  | timeout
  /-- "failed to validate tx: \{tx_id}, error: \{tx_verifier_error}" -/
  | failed (tx_id : UnminedTxId) (tx_verifier_error : TransactionDownloadVerifyError)
  deriving DecidableEq

structure Task where
  number : Nat
  txid : UnminedTxId
  rsp_tx : Option Nat
  /-- Whether the cancel receiver is ready. -/
  cancel_rx : Bool
  /-- Whether a call of `cancel` or `cancel_all` named the task. The program does not keep this. -/
  named : Bool
  result : Option TaskResult
  deriving DecidableEq

namespace Task

def give_up (t : Task) (answer : Answer) (result : TaskResult) : Task × List (Nat × Answer) :=
  ({ t with rsp_tx := none, result := some result }, t.rsp_tx.toList.map (·, answer))

/-- The `select!` of a running task, which prefers the cancel receiver. The network and the verifier
return the transaction that they were asked for. -/
def complete (t : Task) (verification : Verification) : Task × List (Nat × Answer) :=
  match t.result with
  | some _ => (t, [])
  | none =>
    if t.cancel_rx then t.give_up .cancelled (.failed .Cancelled t.txid)
    else
      match verification with
      | .verified tx spent_mempool_outpoints tip_height =>
        if tx.transaction.id = t.txid then
          ({ t with result := some (.verified tx spent_mempool_outpoints tip_height) }, [])
        else (t, [])
      | .failed tx_verifier_error _ =>
        t.give_up (.failed t.txid tx_verifier_error) (.failed tx_verifier_error t.txid)
      | .elapsed => t.give_up .timeout .elapsed

def complete_if (number : Nat) (verification : Verification) (t : Task) : Task × List (Nat × Answer) :=
  if t.number = number then t.complete verification else (t, [])

end Task

/-! ## The downloader -/

structure Downloads where
  pending : List Task
  /-- For each id the task whose cancel sender this is, and the request. -/
  cancel_handles : Map UnminedTxId (Nat × Gossip)

namespace Downloads

variable (d : Downloads)

def holds_handle (t : Task) : Bool :=
  (d.cancel_handles.lookup t.txid).any fun handle => handle.1 == t.number

/-- Removes the handles with these ids. Their senders are used, or dropped. -/
def release (ids : UnminedTxId → Bool) : Downloads where
  pending := d.pending.map fun t =>
    { t with cancel_rx := t.cancel_rx || (ids t.txid && d.holds_handle t) }
  cancel_handles := d.cancel_handles.filter fun txid _ => !ids txid

def download_if_needed_and_verify (gossiped_tx : Gossip) (number : Nat) (rsp_tx : Option Nat) :
    Except Abort (Except MempoolError Downloads) :=
  let txid := gossiped_tx.id
  if txid ∈ d.cancel_handles then .ok (.error .AlreadyQueued)
  else if MAX_INBOUND_CONCURRENCY ≤ d.pending.length then .ok (.error .FullQueue)
  else do
    let task : Task := ⟨number, txid, rsp_tx, false, false, none⟩
    let cancel_handles ← orAbort (d.cancel_handles.insertNew txid (number, gossiped_tx))
      (.assert "transactions are only queued once")
    return .ok ⟨d.pending ++ [task], cancel_handles⟩

def cancel (mined_ids : List TransactionHash) : Downloads :=
  d.release fun txid => txid.mined_id ∈ mined_ids

def cancel_all : Downloads × List Task :=
  let d := d.release fun _ => true
  (⟨[], d.cancel_handles⟩, d.pending)

/-- Removes the handle of a task that ended. The time-out of a task does not say which transaction it
was about. -/
def remove_handle : TaskResult → Downloads
  | .verified tx _ _ => d.release (· = tx.transaction.id)
  | .failed _ hash => d.release (· = hash)
  | .elapsed => d

/-- `poll_next`, where the task with this number is the next of those that have ended. -/
def poll_next (number : Nat) : Option (Task × TaskResult × Downloads) :=
  let is_next := fun t : Task => t.number == number && t.result.isSome
  match d.pending.find? is_next with
  | none => none
  | some t =>
    t.result.map fun result =>
      (t, result, { d with pending := d.pending.eraseP is_next }.remove_handle result)

end Downloads

open Downloads

/-! ## Interleavings -/

/-- The downloader with the tasks it no longer waits for, and with what became of each channel. -/
structure DownloadSystem where
  downloads : Downloads
  /-- Running tasks whose join handles were dropped. -/
  detached : List Task
  ended : List Task
  calls : Nat
  passed_in : List Nat
  /-- Requests that were refused. The caller has the error, in place of an answer on the channel. -/
  refused : List (Nat × MempoolError)
  answers : List (Nat × Answer)
  /-- Channels that went to the mempool with the verified transaction. -/
  handed_on : List (Nat × VerifiedUnminedTx)

inductive DownloadEvent
  | queue (gossiped_tx : Gossip) (wants_answer : Bool)
  | cancel (mined_ids : List TransactionHash)
  | cancel_all
  | complete (number : Nat) (verification : Verification)
  | poll (number : Nat)

namespace DownloadSystem

def new : DownloadSystem := ⟨⟨[], ∅⟩, [], [], 0, [], [], [], []⟩

def queue (w : DownloadSystem) (gossiped_tx : Gossip) (wants_answer : Bool) :
    Except Abort DownloadSystem := do
  let rsp_tx := if wants_answer then some w.calls else none
  let w' := { w with calls := w.calls + 1, passed_in := w.passed_in ++ rsp_tx.toList }
  match ← w.downloads.download_if_needed_and_verify gossiped_tx w.calls rsp_tx with
  | .ok downloads => return { w' with downloads := downloads }
  | .error e => return { w' with refused := w.refused ++ rsp_tx.toList.map (·, e) }

def name (w : DownloadSystem) (ids : UnminedTxId → Bool) : DownloadSystem :=
  { w with downloads.pending := w.downloads.pending.map fun t => { t with named := t.named || ids t.txid } }

def cancel (w : DownloadSystem) (mined_ids : List TransactionHash) : DownloadSystem :=
  let w := w.name fun txid => txid.mined_id ∈ mined_ids
  { w with downloads := w.downloads.cancel mined_ids }

def cancel_all (w : DownloadSystem) : DownloadSystem :=
  let w := w.name fun _ => true
  let (downloads, dropped) := w.downloads.cancel_all
  { w with
    downloads
    detached := w.detached ++ dropped.filter (·.result.isNone)
    ended := w.ended ++ dropped.filter (·.result.isSome) }

def complete (w : DownloadSystem) (number : Nat) (verification : Verification) : DownloadSystem :=
  let next := Task.complete_if number verification
  let detached := w.detached.map fun t => (next t).1
  { w with
    downloads.pending := w.downloads.pending.map fun t => (next t).1
    detached := detached.filter (·.result.isNone)
    ended := w.ended ++ detached.filter (·.result.isSome)
    answers := w.answers ++ (w.downloads.pending ++ w.detached).flatMap fun t => (next t).2 }

def poll (w : DownloadSystem) (number : Nat) : DownloadSystem :=
  match w.downloads.poll_next number with
  | none => w
  | some (t, result, downloads) =>
    { w with
      downloads
      ended := w.ended ++ [t]
      handed_on := w.handed_on ++
        match result with
        | .verified tx _ _ => t.rsp_tx.toList.map (·, tx)
        | .failed _ _ | .elapsed => [] }

def step (w : DownloadSystem) : DownloadEvent → Except Abort DownloadSystem
  | .queue gossiped_tx wants_answer => w.queue gossiped_tx wants_answer
  | .cancel mined_ids => .ok (w.cancel mined_ids)
  | .cancel_all => .ok w.cancel_all
  | .complete number verification => .ok (w.complete number verification)
  | .poll number => .ok (w.poll number)

def held (w : DownloadSystem) : List Nat := (w.downloads.pending ++ w.detached).filterMap (·.rsp_tx)

/-- The books of the downloader are right. A channel that was passed in is in one of four places, once.
A task that is no longer pending has been told to answer that it was cancelled. -/
structure Bookkept (w : DownloadSystem) : Prop where
  handles : ∀ txid, txid ∈ w.downloads.cancel_handles ↔
    ∃ t ∈ w.downloads.pending, t.txid = txid ∧ t.named = false
  bounded : w.downloads.pending.length ≤ MAX_INBOUND_CONCURRENCY
  cancelled : ∀ t ∈ w.downloads.pending ++ w.ended, ∀ txid,
    t.result = some (.failed .Cancelled txid) → t.named = true
  channels : (w.answers.map Prod.fst ++ w.refused.map Prod.fst ++ w.handed_on.map Prod.fst ++ w.held).Perm
    w.passed_in
  once : w.passed_in.Nodup
  leaving : ∀ t ∈ w.detached, t.cancel_rx = true ∧ t.result = none

/-- An id is not queued again while a cancelled task for it is pending, the time-outs that are polled
are of cancelled tasks, and no verified transaction waits with its channel when all is cancelled. -/
def Orderly (w : DownloadSystem) : DownloadEvent → Prop
  | .queue gossiped_tx _ => ∀ t ∈ w.downloads.pending, t.txid = gossiped_tx.id → t.named = false
  | .cancel_all => ∀ t ∈ w.downloads.pending, ∀ tx spent_mempool_outpoints tip_height,
      t.result = some (.verified tx spent_mempool_outpoints tip_height) → t.rsp_tx = none
  | .poll number => ∀ t ∈ w.downloads.pending, t.number = number → t.result = some .elapsed →
      t.named = true
  | .cancel _ | .complete _ _ => True

/-! ## One step -/

/-- A result names the task's own transaction, and a channel that was answered is gone. -/
def Answered (t : Task) : Prop :=
  match t.result with
  | none => True
  | some (.verified tx _ _) => tx.transaction.id = t.txid
  | some (.failed _ txid) => txid = t.txid ∧ t.rsp_tx = none
  | some .elapsed => t.rsp_tx = none

/-- What a task keeps when it ends, and that its channel is held on to or answered. -/
structure Ends (t t' : Task) (sent : List (Nat × Answer)) : Prop where
  number : t'.number = t.number
  txid : t'.txid = t.txid
  cancel_rx : t'.cancel_rx = t.cancel_rx
  named : t'.named = t.named
  answered : Answered t → Answered t'
  channel : t.rsp_tx.toList = sent.map Prod.fst ++ t'.rsp_tx.toList
  cancelled : ∀ txid, t'.result = some (.failed .Cancelled txid) →
    t.result = some (.failed .Cancelled txid) ∨ t.cancel_rx = true
  told : t.cancel_rx = true → t.result = none → t'.result.isSome → t'.rsp_tx = none

theorem Ends.refl (t : Task) : Ends t t [] where
  number := rfl
  txid := rfl
  cancel_rx := rfl
  named := rfl
  answered h := h
  channel := rfl
  cancelled _ h := .inl h
  told _ h h' := by simp [h] at h'

variable {result : TaskResult} {t : Task} {w w' : DownloadSystem} {txid : UnminedTxId} {number : Nat}
  {d' : Downloads}

theorem ends_give_up {answer : Answer}
    (hanswered : Answered { t with rsp_tx := none, result := some result })
    (hcancelled : ∀ txid, result = .failed .Cancelled txid → t.cancel_rx = true) :
    Ends t (t.give_up answer result).1 (t.give_up answer result).2 where
  number := rfl
  txid := rfl
  cancel_rx := rfl
  named := rfl
  answered _ := hanswered
  channel := by simp [Task.give_up, Function.comp_def]
  cancelled txid h := .inr (hcancelled txid (Option.some.inj h))
  told _ _ _ := rfl

theorem ends_complete (t : Task) (verification : Verification) :
    Ends t (t.complete verification).1 (t.complete verification).2 := by
  unfold Task.complete
  cases hresult : t.result with
  | some result => exact .refl t
  | none =>
    dsimp only
    split
    · next hcancel => exact ends_give_up (And.intro rfl rfl) fun _ _ => hcancel
    · next hcancel =>
      cases verification with
      | verified tx spent_mempool_outpoints tip_height =>
        dsimp only
        split
        · next htx =>
          exact {
            number := rfl, txid := rfl, cancel_rx := rfl, named := rfl
            answered := fun _ => htx
            channel := rfl
            cancelled := fun _ h => by simp at h
            told := fun h => absurd h hcancel }
        · exact .refl t
      | failed error not_cancelled =>
        exact ends_give_up (And.intro rfl rfl) fun txid h => absurd (TaskResult.failed.inj h).1 not_cancelled
      | elapsed => exact ends_give_up rfl fun txid h => by cases h

theorem channels_of_ends {next : Task → Task × List (Nat × Answer)} {l : List Task}
    (h : ∀ t ∈ l, Ends t (next t).1 (next t).2) :
    ((l.flatMap fun t => (next t).2).map Prod.fst ++ (l.map fun t => (next t).1).filterMap (·.rsp_tx)).Perm
      (l.filterMap (·.rsp_tx)) := by
  induction l with
  | nil => exact .nil
  | cons t l ih =>
    obtain ⟨ht, hl⟩ := forall_mem_cons.mp h
    have hcons : ∀ (f : Task → Option Nat) (a : Task) (rest : List Task),
        (a :: rest).filterMap f = (f a).toList ++ rest.filterMap f := by
      intro f a rest
      cases hf : f a <;> simp [hf]
    rw [map_cons, flatMap_cons, map_append, hcons, hcons, ht.channel]
    refine perm_iff_count.mpr fun c => ?_
    have hcount := (ih hl).count_eq c
    simp only [count_append] at hcount ⊢
    omega

/-- What every step keeps: pending tasks have different ids, a task that was not named has the handle of
its id, and the others have their receivers ready. -/
structure Sound (w : DownloadSystem) : Prop extends Bookkept w where
  distinct : (w.downloads.pending.map (·.txid)).Nodup
  handle_of : ∀ t ∈ w.downloads.pending, t.named = false →
    ∃ gossiped_tx, w.downloads.cancel_handles.lookup t.txid = some (t.number, gossiped_tx)
  signalled : ∀ t ∈ w.downloads.pending, t.cancel_rx = t.named
  answered : ∀ t ∈ w.downloads.pending, Answered t
  named_leaving : ∀ t ∈ w.detached, t.named = true
  fresh : ∀ c ∈ w.passed_in, c < w.calls

theorem sound_new : Sound new where
  handles txid := by simpa [new] using Finmap.notMem_empty
  bounded := Nat.zero_le _
  cancelled := by simp [new]
  channels := .nil
  once := .nil
  leaving := by simp [new]
  distinct := .nil
  handle_of := by simp [new]
  signalled := by simp [new]
  answered := by simp [new]
  named_leaving := by simp [new]
  fresh := by simp [new]

/-! ### Queueing -/

theorem passed_in_next (h : Sound w) (wants_answer : Bool) :
    let rsp_tx := if wants_answer then some w.calls else none
    (w.passed_in ++ rsp_tx.toList).Nodup ∧ ∀ c ∈ w.passed_in ++ rsp_tx.toList, c < w.calls + 1 := by
  have hnew : w.calls ∉ w.passed_in := fun hc => absurd (h.fresh _ hc) (lt_irrefl _)
  have hfresh := h.fresh
  cases wants_answer with
  | false => exact ⟨by simpa using h.once, by simpa using fun c hc => Nat.lt_succ_of_lt (hfresh c hc)⟩
  | true =>
    simp only [if_true, Option.toList_some, mem_append, mem_singleton]
    refine ⟨?_, ?_⟩
    · rw [nodup_append]
      exact ⟨h.once, nodup_singleton _, by simpa using fun c hc => ne_of_lt (hfresh c hc)⟩
    · rintro c (hc | rfl)
      · exact Nat.lt_succ_of_lt (hfresh c hc)
      · exact Nat.lt_succ_self _

theorem download_if_needed_and_verify_eq (d : Downloads) (gossiped_tx : Gossip) (number : Nat)
    (rsp_tx : Option Nat) :
    (∃ e, d.download_if_needed_and_verify gossiped_tx number rsp_tx = .ok (.error e)) ∨
      gossiped_tx.id ∉ d.cancel_handles ∧ d.pending.length < MAX_INBOUND_CONCURRENCY ∧
      d.download_if_needed_and_verify gossiped_tx number rsp_tx =
        .ok (.ok ⟨d.pending ++ [⟨number, gossiped_tx.id, rsp_tx, false, false, none⟩],
          d.cancel_handles.insert gossiped_tx.id (number, gossiped_tx)⟩) := by
  unfold download_if_needed_and_verify
  dsimp only
  split
  · exact .inl ⟨_, rfl⟩
  · next hnew =>
    split
    · exact .inl ⟨_, rfl⟩
    · next hroom =>
      refine .inr ⟨hnew, by omega, ?_⟩
      rw [Map.insertNew, if_neg hnew]
      rfl

theorem Sound.refuse (h : Sound w) (wants_answer : Bool) (e : MempoolError) :
    let rsp_tx := if wants_answer then some w.calls else none
    Sound { w with
      calls := w.calls + 1
      passed_in := w.passed_in ++ rsp_tx.toList
      refused := w.refused ++ rsp_tx.toList.map (·, e) } := by
  intro rsp_tx
  obtain ⟨honce, hfresh⟩ := passed_in_next h wants_answer
  refine { h with once := honce, fresh := hfresh, channels := ?_ }
  refine perm_iff_count.mpr fun c => ?_
  have hcount := h.channels.count_eq c
  simp only [held, count_append, map_append, map_map, Function.comp_def, map_id'] at hcount ⊢
  omega

theorem Sound.accept (h : Sound w) (gossiped_tx : Gossip) (wants_answer : Bool)
    (horderly : Orderly w (.queue gossiped_tx wants_answer))
    (hnew : gossiped_tx.id ∉ w.downloads.cancel_handles)
    (hroom : w.downloads.pending.length < MAX_INBOUND_CONCURRENCY) :
    let rsp_tx := if wants_answer then some w.calls else none
    Sound { w with
      calls := w.calls + 1
      passed_in := w.passed_in ++ rsp_tx.toList
      downloads := ⟨w.downloads.pending ++ [⟨w.calls, gossiped_tx.id, rsp_tx, false, false, none⟩],
        w.downloads.cancel_handles.insert gossiped_tx.id (w.calls, gossiped_tx)⟩ } := by
  intro rsp_tx
  obtain ⟨honce, hfresh⟩ := passed_in_next h wants_answer
  -- A pending task with this id would have a handle, or would have been cancelled.
  have hother : ∀ t ∈ w.downloads.pending, t.txid ≠ gossiped_tx.id := fun t ht hid =>
    hnew ((h.handles _).mpr ⟨t, ht, hid, horderly t ht hid⟩)
  refine {
    once := honce, fresh := hfresh, leaving := h.leaving, named_leaving := h.named_leaving
    handles := ?handles, bounded := ?bounded, cancelled := ?cancelled, channels := ?channels
    distinct := ?distinct, handle_of := ?handle_of, signalled := ?signalled, answered := ?answered }
  case handles =>
    intro txid
    simp [h.handles, or_and_right, exists_or, eq_comm (a := txid), or_comm]
  case bounded =>
    rw [length_append]
    exact hroom
  case cancelled =>
    intro t ht txid hresult
    simp only [mem_append, mem_singleton, or_assoc] at ht
    rcases ht with ht | rfl | ht
    · exact h.cancelled t (mem_append_left _ ht) txid hresult
    · cases hresult
    · exact h.cancelled t (mem_append_right _ ht) txid hresult
  case channels =>
    refine perm_iff_count.mpr fun c => ?_
    have hcount := h.channels.count_eq c
    have hlast : [(⟨w.calls, gossiped_tx.id, rsp_tx, false, false, none⟩ : Task)].filterMap (·.rsp_tx) =
        rsp_tx.toList := by
      cases rsp_tx <;> rfl
    simp only [held, count_append, filterMap_append, hlast] at hcount ⊢
    omega
  case distinct =>
    rw [map_append, nodup_append]
    refine ⟨h.distinct, nodup_singleton _, ?_⟩
    simpa using hother
  case handle_of =>
    intro t ht hnamed
    rw [Map.lookup_insert']
    rcases mem_append.mp ht with ht | ht
    · rw [if_neg (hother t ht)]
      exact h.handle_of t ht hnamed
    · cases mem_singleton.mp ht
      exact ⟨gossiped_tx, if_pos rfl⟩
  case signalled => simpa [or_imp, forall_and] using h.signalled
  case answered => simpa [or_imp, forall_and, Answered] using h.answered

theorem Sound.queue (h : Sound w) {gossiped_tx : Gossip} {wants_answer : Bool}
    (horderly : Orderly w (.queue gossiped_tx wants_answer)) :
    ∃ w', w.queue gossiped_tx wants_answer = .ok w' ∧ Sound w' := by
  unfold DownloadSystem.queue
  dsimp only
  obtain ⟨e, he⟩ | ⟨hnew, hroom, heq⟩ := download_if_needed_and_verify_eq w.downloads gossiped_tx w.calls
    (if wants_answer then some w.calls else none)
  · rw [he]
    exact ⟨_, rfl, h.refuse wants_answer e⟩
  · rw [heq]
    exact ⟨_, rfl, h.accept gossiped_tx wants_answer horderly hnew hroom⟩

/-! ### Cancelling -/

/-- A task whose id was named: its handle was there, or its receiver was ready already. -/
def mark (ids : UnminedTxId → Bool) (t : Task) : Task :=
  { t with cancel_rx := t.named || ids t.txid, named := t.named || ids t.txid }

theorem release_name_pending (h : Sound w) (ids : UnminedTxId → Bool) :
    ((w.name ids).downloads.release ids).pending = w.downloads.pending.map (mark ids) := by
  simp only [name, release, map_map]
  refine map_congr_left fun t ht => ?_
  have hready : (t.cancel_rx || (ids t.txid && w.downloads.holds_handle t)) = (t.named || ids t.txid) := by
    rw [h.signalled t ht]
    cases hnamed : t.named with
    | true => rfl
    | false =>
      obtain ⟨gossiped_tx, hlookup⟩ := h.handle_of t ht hnamed
      simp [holds_handle, hlookup]
  simp only [Function.comp_apply, mark, ← hready]
  rfl

theorem held_mark (ids : UnminedTxId → Bool) (l : List Task) :
    (l.map (mark ids)).filterMap (·.rsp_tx) = l.filterMap (·.rsp_tx) := by
  rw [filterMap_map]
  rfl

theorem Sound.cancelled_mark (h : Sound w) (ids : UnminedTxId → Bool)
    (ht : t ∈ w.downloads.pending.map (mark ids))
    (hresult : t.result = some (.failed .Cancelled txid)) : t.named = true := by
  obtain ⟨old, hold, rfl⟩ := mem_map.mp ht
  have hnamed := h.cancelled old (mem_append_left _ hold) txid hresult
  simp [mark, hnamed]

theorem Sound.cancel (h : Sound w) (mined_ids : List TransactionHash) : Sound (w.cancel mined_ids) := by
  unfold DownloadSystem.cancel Downloads.cancel
  dsimp only
  generalize (fun txid : UnminedTxId => decide (txid.mined_id ∈ mined_ids)) = ids
  have hpending := release_name_pending h ids
  have hlookup : ∀ txid, ((w.name ids).downloads.release ids).cancel_handles.lookup txid =
      if ids txid then none else w.downloads.cancel_handles.lookup txid := by
    intro txid
    simp only [Downloads.release, name, Map.lookup_filter]
    cases ids txid <;> cases w.downloads.cancel_handles.lookup txid <;> simp
  refine {
    once := h.once, fresh := h.fresh, leaving := h.leaving, named_leaving := h.named_leaving
    handles := ?handles, bounded := ?bounded, cancelled := ?cancelled, channels := ?channels
    distinct := ?distinct, handle_of := ?handle_of, signalled := ?signalled, answered := ?answered } <;>
  simp only [held, hpending]
  case handles =>
    intro txid
    have hmem := h.handles txid
    rw [← Finmap.lookup_isSome] at hmem ⊢
    rw [hlookup]
    simp only [mem_map, exists_exists_and_eq_and, mark, Bool.or_eq_false_iff]
    split
    · next hid => simpa using fun t _ htxid _ => htxid ▸ hid
    · next hid =>
      rw [hmem]
      refine exists_congr fun t => and_congr_right fun _ => and_congr_right fun htxid => ?_
      simp [htxid, hid]
  case bounded => simpa using h.bounded
  case cancelled =>
    intro t ht txid hresult
    rcases mem_append.mp ht with ht | ht
    · exact h.cancelled_mark ids ht hresult
    · exact h.cancelled t (mem_append_right _ ht) txid hresult
  case channels =>
    have hchannels := h.channels
    simp only [held, filterMap_append] at hchannels
    simpa only [filterMap_append, held_mark, name] using hchannels
  case distinct =>
    rw [map_map]
    exact h.distinct
  case handle_of =>
    intro t ht hnamed
    obtain ⟨old, hold, rfl⟩ := mem_map.mp ht
    obtain ⟨hnamed, hid⟩ := Bool.or_eq_false_iff.mp hnamed
    obtain ⟨gossiped_tx, hgossip⟩ := h.handle_of old hold hnamed
    refine ⟨gossiped_tx, ?_⟩
    rw [hlookup]
    simpa [mark, hid] using hgossip
  case signalled =>
    intro t ht
    obtain ⟨t, -, rfl⟩ := mem_map.mp ht
    rfl
  case answered =>
    intro t ht
    obtain ⟨old, hold, rfl⟩ := mem_map.mp ht
    exact h.answered old hold

theorem held_running (h : Sound w) (horderly : Orderly w .cancel_all) :
    ((w.downloads.pending.map (mark fun _ => true)).filter (·.result.isNone)).filterMap (·.rsp_tx) =
      w.downloads.pending.filterMap (·.rsp_tx) := by
  rw [filterMap_filter, filterMap_map]
  refine filterMap_congr fun t ht => ?_
  have hanswered := h.answered t ht
  have hwaits := horderly t ht
  unfold Answered at hanswered
  cases hresult : t.result with
  | none => simp [mark, hresult]
  | some result =>
    rw [hresult] at hanswered
    simp only [Function.comp_apply, mark, hresult, Option.isNone_some, Bool.false_eq_true, if_false]
    cases result with
    | verified tx spent_mempool_outpoints tip_height => exact (hwaits _ _ _ hresult).symm
    | failed error txid => exact hanswered.2.symm
    | elapsed => exact hanswered.symm

theorem Sound.cancel_all (h : Sound w) (horderly : Orderly w .cancel_all) : Sound w.cancel_all := by
  have hpending := release_name_pending h fun _ => true
  have hnone : ∀ txid, txid ∉ ((w.name fun _ => true).downloads.release fun _ => true).cancel_handles := by
    intro txid hmem
    simp [Downloads.release, Map.mem_filter] at hmem
  refine {
    once := h.once, fresh := h.fresh, leaving := ?leaving, named_leaving := ?named_leaving
    handles := ?handles, bounded := Nat.zero_le _, cancelled := ?cancelled, channels := ?channels
    distinct := .nil, handle_of := ?_, signalled := ?_, answered := ?_ } <;>
  simp only [DownloadSystem.cancel_all, Downloads.cancel_all, held, hpending, not_mem_nil,
    false_imp_iff, implies_true, nil_append]
  case handles => simpa using hnone
  case leaving =>
    intro t ht
    rcases mem_append.mp ht with ht | ht
    · exact h.leaving t ht
    · obtain ⟨ht, hresult⟩ := mem_filter.mp ht
      obtain ⟨t, -, rfl⟩ := mem_map.mp ht
      exact ⟨Bool.or_true _, Option.isNone_iff_eq_none.mp hresult⟩
  case named_leaving =>
    intro t ht
    rcases mem_append.mp ht with ht | ht
    · exact h.named_leaving t ht
    · obtain ⟨t, -, rfl⟩ := mem_map.mp (mem_filter.mp ht).1
      exact Bool.or_true _
  case cancelled =>
    intro t ht txid hresult
    rcases mem_append.mp ht with ht | ht
    · exact h.cancelled t (mem_append_right _ ht) txid hresult
    · exact h.cancelled_mark _ (mem_filter.mp ht).1 hresult
  case channels =>
    refine perm_iff_count.mpr fun c => ?_
    have hcount := h.channels.count_eq c
    simp only [held, filterMap_append, held_running h horderly, count_append, name] at hcount ⊢
    omega

/-! ### Ends of tasks -/

theorem ends_complete_if (number : Nat) (verification : Verification) (t : Task) :
    Ends t (t.complete_if number verification).1 (t.complete_if number verification).2 := by
  unfold Task.complete_if
  split
  · exact ends_complete t verification
  · exact .refl t

theorem Sound.complete (h : Sound w) (number : Nat) (verification : Verification) :
    Sound (w.complete number verification) := by
  unfold DownloadSystem.complete
  dsimp only
  have hends := ends_complete_if number verification
  generalize Task.complete_if number verification = next at hends ⊢
  have hcancelled : ∀ t, t.cancel_rx = t.named → (∀ txid, t.result = some (.failed .Cancelled txid) → t.named = true) →
      ∀ txid, (next t).1.result = some (.failed .Cancelled txid) → (next t).1.named = true := by
    intro t hsignal hold txid hresult
    rw [(hends t).named]
    rcases (hends t).cancelled txid hresult with hresult | hready
    · exact hold txid hresult
    · exact hsignal ▸ hready
  refine {
    once := h.once, fresh := h.fresh, leaving := ?leaving, named_leaving := ?named_leaving
    handles := ?handles, bounded := ?bounded, cancelled := ?cancelled, channels := ?channels
    distinct := ?distinct, handle_of := ?handle_of, signalled := ?signalled, answered := ?answered }
  case handles =>
    intro txid
    simp only [mem_map, exists_exists_and_eq_and, (hends _).txid, (hends _).named]
    exact h.handles txid
  case bounded => simpa using h.bounded
  case cancelled =>
    intro t ht
    simp only [mem_append, mem_filter] at ht
    rcases ht with ht | ht | ⟨ht, -⟩
    · obtain ⟨t, hmem, rfl⟩ := mem_map.mp ht
      exact hcancelled t (h.signalled t hmem) (h.cancelled t (mem_append_left _ hmem))
    · exact h.cancelled t (mem_append_right _ ht)
    · obtain ⟨t, hmem, rfl⟩ := mem_map.mp ht
      have hnamed := h.named_leaving t hmem
      exact hcancelled t ((h.leaving t hmem).1.trans hnamed.symm) fun _ _ => hnamed
  case channels =>
    -- A detached task that ends here answers that it was cancelled.
    have hdetached : ((w.detached.map fun t => (next t).1).filter (·.result.isNone)).filterMap (·.rsp_tx) =
        (w.detached.map fun t => (next t).1).filterMap (·.rsp_tx) := by
      rw [filterMap_filter]
      refine filterMap_congr fun t ht => ?_
      obtain ⟨t, hmem, rfl⟩ := mem_map.mp ht
      obtain ⟨hready, hrunning⟩ := h.leaving t hmem
      split
      · rfl
      · next hended =>
        exact ((hends t).told hready hrunning (by simpa [Option.isSome_iff_ne_none] using hended)).symm
    have hheld := channels_of_ends fun t (_ : t ∈ w.downloads.pending ++ w.detached) => hends t
    refine perm_iff_count.mpr fun c => ?_
    have hcount := h.channels.count_eq c
    have hheld := hheld.count_eq c
    simp only [held, filterMap_append, hdetached, count_append, map_append] at hcount hheld ⊢
    omega
  case distinct =>
    simp only [map_map, Function.comp_def, (hends _).txid]
    exact h.distinct
  case handle_of =>
    intro t ht
    obtain ⟨t, hmem, rfl⟩ := mem_map.mp ht
    rw [(hends t).named, (hends t).txid, (hends t).number]
    exact h.handle_of t hmem
  case signalled =>
    intro t ht
    obtain ⟨t, hmem, rfl⟩ := mem_map.mp ht
    rw [(hends t).cancel_rx, (hends t).named]
    exact h.signalled t hmem
  case answered =>
    intro t ht
    obtain ⟨t, hmem, rfl⟩ := mem_map.mp ht
    exact (hends t).answered (h.answered t hmem)
  case leaving =>
    intro t ht
    obtain ⟨ht, hrunning⟩ := mem_filter.mp ht
    obtain ⟨t, hmem, rfl⟩ := mem_map.mp ht
    exact ⟨(hends t).cancel_rx.trans (h.leaving t hmem).1, Option.isNone_iff_eq_none.mp hrunning⟩
  case named_leaving =>
    intro t ht
    obtain ⟨t, hmem, rfl⟩ := mem_map.mp (mem_filter.mp ht).1
    exact (hends t).named.trans (h.named_leaving t hmem)

/-! ### Polling -/

theorem poll_next_eq_some {d : Downloads} (h : d.poll_next number = some (t, result, d')) :
    ∃ before after, d.pending = before ++ t :: after ∧ t.number = number ∧ t.result = some result ∧
      d' = remove_handle ⟨before ++ after, d.cancel_handles⟩ result := by
  unfold poll_next at h
  dsimp only at h
  split at h
  · cases h
  · next found hfind =>
    obtain ⟨hnext, before, after, hpending, hbefore⟩ := find?_eq_some_iff_append.mp hfind
    have herase : (before ++ found :: after).eraseP (fun t => t.number == number && t.result.isSome) =
        before ++ after := by
      rw [eraseP_append_right _ (by simpa [imp_iff_not_or] using hbefore)]
      simp [hnext]
    simp only [hpending, herase, Option.map_eq_some_iff, Prod.mk.injEq] at h
    obtain ⟨_, hresult, rfl, rfl, rfl⟩ := h
    refine ⟨before, after, hpending, ?_, hresult, rfl⟩
    exact beq_iff_eq.mp (Bool.and_eq_true_iff.mp hnext).1

theorem release_taken (handles : Map UnminedTxId (Nat × Gossip)) {l : List Task}
    (hother : ∀ t ∈ l, t.txid ≠ txid) : (release ⟨l, handles⟩ (· = txid)).pending = l ∧
      ∀ k, (release ⟨l, handles⟩ (· = txid)).cancel_handles.lookup k =
        if k = txid then none else handles.lookup k := by
  constructor
  · simp only [release]
    refine (map_congr_left fun t ht => ?_).trans (map_id l)
    simp [hother t ht]
  · intro k
    simp only [release, Map.lookup_filter]
    by_cases hk : k = txid <;> cases handles.lookup k <;> simp [hk]

theorem poll_next_takes (h : Sound w) (horderly : Orderly w (.poll number))
    (hpoll : w.downloads.poll_next number = some (t, result, d')) :
    ∃ before after, w.downloads.pending = before ++ t :: after ∧ t.result = some result ∧
      d'.pending = before ++ after ∧ (∀ t' ∈ before ++ after, t'.txid ≠ t.txid) ∧
      ∀ k, d'.cancel_handles.lookup k =
        if k = t.txid then none else w.downloads.cancel_handles.lookup k := by
  obtain ⟨before, after, hpending, hnumber, hresult, rfl⟩ := poll_next_eq_some hpoll
  have hmem : t ∈ w.downloads.pending := hpending ▸ mem_append_right _ mem_cons_self
  have hanswered := h.answered t hmem
  have hother : ∀ t' ∈ before ++ after, t'.txid ≠ t.txid := by
    have hdistinct := h.distinct
    rw [hpending, map_append, map_cons, nodup_middle, nodup_cons, ← map_append] at hdistinct
    exact fun t' ht' heq => hdistinct.1 (heq ▸ mem_map_of_mem ht')
  have hrelease := release_taken w.downloads.cancel_handles hother
  unfold Answered at hanswered
  rw [hresult] at hanswered
  refine ⟨before, after, hpending, hresult, ?_⟩
  cases result with
  | verified tx spent_mempool_outpoints tip_height =>
    dsimp only [remove_handle] at hanswered ⊢
    rw [hanswered]
    exact ⟨hrelease.1, hother, hrelease.2⟩
  | failed error txid =>
    dsimp only [remove_handle] at hanswered ⊢
    rw [hanswered.1]
    exact ⟨hrelease.1, hother, hrelease.2⟩
  | elapsed =>
    -- The task was cancelled, so its handle is gone already.
    have hnamed := horderly t hmem hnumber hresult
    have hnone : w.downloads.cancel_handles.lookup t.txid = none := by
      refine Finmap.lookup_eq_none.mpr fun hhandle => ?_
      obtain ⟨t', ht', htxid, hnot⟩ := (h.handles _).mp hhandle
      rw [hpending, mem_append, mem_cons, or_left_comm, ← mem_append] at ht'
      rcases ht' with rfl | ht'
      · simp [hnamed] at hnot
      · exact hother t' ht' htxid
    refine ⟨rfl, hother, fun k => ?_⟩
    split
    · next hk => exact hk ▸ hnone
    · rfl

theorem Sound.poll (h : Sound w) (horderly : Orderly w (.poll number)) : Sound (w.poll number) := by
  unfold DownloadSystem.poll
  split
  · exact h
  · next t result d' hpoll =>
    obtain ⟨before, after, hpending, hresult, hpending', hother, hlookup⟩ := poll_next_takes h horderly hpoll
    have hmem : t ∈ w.downloads.pending := hpending ▸ mem_append_right _ mem_cons_self
    have hmem_iff : ∀ t', t' ∈ w.downloads.pending ↔ t' = t ∨ t' ∈ d'.pending := by
      intro t'
      rw [hpending, hpending', mem_append, mem_cons, or_left_comm, mem_append]
    rw [← hpending'] at hother
    have hperm : w.downloads.pending.Perm (t :: d'.pending) := by
      rw [hpending, hpending']
      exact perm_middle
    refine {
      once := h.once, fresh := h.fresh, leaving := h.leaving, named_leaving := h.named_leaving
      handles := ?handles, bounded := ?bounded, cancelled := ?cancelled, channels := ?channels
      distinct := ?distinct, handle_of := ?handle_of, signalled := ?signalled, answered := ?answered }
    case handles =>
      intro txid
      have hhandles := h.handles txid
      rw [← Finmap.lookup_isSome] at hhandles ⊢
      rw [hlookup]
      split
      · next heq =>
        simpa using fun t' ht' htxid => absurd (htxid.trans heq) (hother t' ht')
      · next hne =>
        rw [hhandles]
        refine exists_congr fun t' => ?_
        rw [hmem_iff]
        constructor
        · rintro ⟨rfl | ht', htxid, hnamed⟩
          · exact absurd htxid.symm hne
          · exact ⟨ht', htxid, hnamed⟩
        · exact fun ⟨ht', hrest⟩ => ⟨.inr ht', hrest⟩
    case bounded =>
      have hlength := hperm.length_eq
      have hbounded := h.bounded
      rw [length_cons] at hlength
      dsimp only
      omega
    case cancelled =>
      intro t' ht' txid hcancelled
      refine h.cancelled t' ?_ txid hcancelled
      simp only [mem_append, mem_singleton, hmem_iff] at ht' ⊢
      tauto
    case channels =>
      have hanswered := h.answered t hmem
      unfold Answered at hanswered
      rw [hresult] at hanswered
      have hheld : (w.downloads.pending.filterMap (·.rsp_tx)).Perm (t.rsp_tx.toList ++ d'.pending.filterMap (·.rsp_tx)) := by
        refine (hperm.filterMap _).trans ?_
        cases hrsp : t.rsp_tx <;> simp [hrsp]
      refine perm_iff_count.mpr fun c => ?_
      have hcount := h.channels.count_eq c
      have hheld := hheld.count_eq c
      cases result with
      | verified tx spent_mempool_outpoints tip_height =>
        simp only [held, filterMap_append, count_append, map_append, map_map,
          Function.comp_def, map_id'] at hcount hheld ⊢
        omega
      | failed error txid =>
        rw [hanswered.2] at hheld
        simp only [held, filterMap_append, count_append, append_nil, Option.toList_none,
          nil_append] at hcount hheld ⊢
        omega
      | elapsed =>
        rw [hanswered] at hheld
        simp only [held, filterMap_append, count_append, append_nil, Option.toList_none,
          nil_append] at hcount hheld ⊢
        omega
    case distinct =>
      have hdistinct := (hperm.map (·.txid)).nodup_iff.mp h.distinct
      exact (nodup_cons.mp hdistinct).2
    case handle_of =>
      intro t' ht' hnamed
      rw [hlookup, if_neg (hother t' ht')]
      exact h.handle_of t' ((hmem_iff t').mpr (.inr ht')) hnamed
    case signalled => exact fun t' ht' => h.signalled t' ((hmem_iff t').mpr (.inr ht'))
    case answered => exact fun t' ht' => h.answered t' ((hmem_iff t').mpr (.inr ht'))

/-! ## Every interleaving -/

theorem step_keeps (w : DownloadSystem) (e : DownloadEvent) (h : Sound w) (horderly : Orderly w e) :
    ∃ w', w.step e = .ok w' ∧ Sound w' := by
  cases e with
  | queue gossiped_tx wants_answer => exact h.queue horderly
  | cancel mined_ids => exact ⟨_, rfl, h.cancel mined_ids⟩
  | cancel_all => exact ⟨_, rfl, h.cancel_all horderly⟩
  | complete number verification => exact ⟨_, rfl, h.complete number verification⟩
  | poll number => exact ⟨_, rfl, h.poll horderly⟩

/-- In an orderly run the books of the downloader are right after every event. -/
theorem downloads_bookkept {events : List DownloadEvent} (h : Meets step Orderly new events) :
    ∀ done, done <+: events → ∃ w, run step new done = .ok w ∧ w.Bookkept := by
  intro done hdone
  obtain ⟨w, hrun, hsound⟩ := run_keeps step_keeps sound_new h hdone
  exact ⟨w, hrun, hsound.toBookkept⟩

end DownloadSystem

open DownloadSystem

namespace Sample

def advertised : Gossip := .Id (.Legacy (poolId 1))

def verification : Verification := .verified (pooled 1 0 10) [] none

def polledFirst : List DownloadEvent :=
  [.queue advertised true, .cancel [poolId 1], .complete 0 .elapsed, .poll 0, .queue advertised true,
    .complete 1 verification, .poll 1]

theorem polledFirst_orderly : Meets step Orderly .new polledFirst := by
  refine ⟨(fun t ht => by cases ht), fun w hw => ?_⟩
  cases hw
  refine ⟨trivial, fun w hw => ?_⟩
  cases hw
  refine ⟨trivial, fun w hw => ?_⟩
  cases hw
  refine ⟨fun t ht _ hresult => ?_, fun w hw => ?_⟩
  · cases mem_singleton.mp ht
    cases hresult
  cases hw
  refine ⟨(fun t ht => by cases ht), fun w hw => ?_⟩
  cases hw
  refine ⟨trivial, fun w hw => ?_⟩
  cases hw
  refine ⟨fun t ht _ hresult => ?_, fun _ _ => trivial⟩
  cases mem_singleton.mp ht
  cases hresult

end Sample

open mempool.Sample

theorem polledFirst_bookkept : Meets DownloadSystem.step DownloadSystem.Orderly .new polledFirst ∧
    ∃ w, run DownloadSystem.step .new polledFirst = .ok w ∧ w.Bookkept :=
  ⟨polledFirst_orderly, DownloadSystem.downloads_bookkept polledFirst_orderly _ List.prefix_rfl⟩

/-- The handle of a task that timed out stays. A cancelled task takes the handle of the next task
for its id with it. The channel of a verified transaction is lost if all is cancelled before the
poll. -/
theorem downloads_not_bookkept : (∃ w, run DownloadSystem.step .new
        [.queue advertised true, .complete 0 .elapsed, .poll 0] = .ok w ∧ ¬ w.Bookkept) ∧
    (∃ w, run DownloadSystem.step .new
        [.queue advertised true, .cancel [poolId 1], .queue advertised true,
          .complete 0 verification, .poll 0, .complete 1 verification] = .ok w ∧ ¬ w.Bookkept) ∧
    ∃ w, run DownloadSystem.step .new
        [.queue advertised true, .complete 0 verification, .cancel_all] = .ok w ∧ ¬ w.Bookkept := by
  refine ⟨⟨_, rfl, fun h => ?_⟩, ⟨_, rfl, fun h => ?_⟩, ⟨_, rfl, fun h => ?_⟩⟩
  · obtain ⟨t, ht, -⟩ := (h.handles (.Legacy (poolId 1))).mp (by decide)
    cases ht
  · have hnamed := h.cancelled ⟨1, .Legacy (poolId 1), none, true, false,
      some (.failed .Cancelled (.Legacy (poolId 1)))⟩ (by decide) _ rfl
    cases hnamed
  · exact absurd h.channels (by decide)

end ZebraCrosslink.mempool
