/-
The send queue of `AsyncSocketStream` (`async_socket_stream.cpp`): any number of fibers in `enqueue`, one fiber in
`doWrite`, on a stream that stays connected and whose sends succeed.

`enqueue` appends under `_queueMutex` and, if the queue was empty, notifies `_sem` after it has released the lock.
`doWrite` waits on `_sem`, swaps the queue out under the lock and sends what it got. `_sem` may start with tokens of an
earlier connection. `appended` and `sent` are ghost logs.

Results:
- `writes_in_order`: in every run, for any number of fibers in `enqueue`, what was sent, then what the writer has in
  hand, then the queue is the log of what was appended (so messages are sent in the order in which they were appended,
  and none twice); while the queue is not empty, the semaphore has a token, or a fiber is about to notify it, or the
  writer is past its wait and before its swap; and from here the writer can send everything that was appended.
-/
import CoServer.Core.Run
import CoServer.Core.Update
import CoServer.Mutex.FiberSemaphore

namespace CoServer.AsyncStream.WriteQueue

open CoServer.Core Mutex

/-! ## Model -/

section Model

variable {M : Type}

/-- the fiber in `doWrite` -/
inductive Writer (M : Type) where
  /-- before `_sem.wait()` -/
  | waiting
  /-- queued in the semaphore -/
  | queued
  /-- past `_sem.wait()`, before the swap -/
  | woken
  /-- in the loop over the swapped list, of which these are left -/
  | sending (ctxs : List M)
deriving DecidableEq

structure St (M : Type) where
  queue : List M
  sem : FiberSemaphore Unit
  writer : Writer M
  /-- the fibers between the unlock of `enqueue` and its `_sem.notify()` -/
  notifying : ℕ → Bool
  appended : List M
  sent : List M

inductive Op (M : Type) where
  /-- the locked section of `enqueue` in fiber `f` -/
  | enqueue (f : ℕ) (m : M)
  /-- the `_sem.notify()` of `enqueue` -/
  | notify (f : ℕ)
  /-- the `_sem.wait()` of `doWrite` -/
  | wait
  | swap
  /-- `doSend` of the next message -/
  | send
  /-- the list is empty: back to the head of the loop of `doWrite` -/
  | loop
deriving DecidableEq

/-- the writer at the head of its loop; `tokens` are in the semaphore -/
def init (tokens : ℕ) : St M := ⟨[], .make tokens, .waiting, fun _ => false, [], []⟩

/-- the locked section of `enqueue`: whether it has to notify -/
def enqueueSection (s : St M) (f : ℕ) (m : M) : St M :=
  { s with
    queue := s.queue ++ [m]
    appended := s.appended ++ [m]
    notifying := Function.update s.notifying f s.queue.isEmpty }

/-- `_sem.notify()`: the writer is scheduled if it was queued -/
def notifySection (s : St M) (f : ℕ) : St M :=
  let r := s.sem.notify
  { s with
    sem := r.1
    writer := if r.2.isSome then .woken else s.writer
    notifying := Function.update s.notifying f false }

def step (s : St M) : Op M → St M
  | .enqueue f m => if s.notifying f then s else enqueueSection s f m
  | .notify f => if s.notifying f then notifySection s f else s
  | .wait =>
    match s.writer with
    | .waiting => { s with sem := (s.sem.wait ()).1, writer := if (s.sem.wait ()).2 then .woken else .queued }
    | _ => s
  | .swap =>
    match s.writer with
    | .woken => { s with queue := [], writer := .sending s.queue }
    | _ => s
  | .send =>
    match s.writer with
    | .sending (m :: ms) => { s with sent := s.sent ++ [m], writer := .sending ms }
    | _ => s
  | .loop =>
    match s.writer with
    | .sending [] => { s with writer := .waiting }
    | _ => s

/-- what the writer has swapped out of the queue and not sent -/
def Writer.inHand : Writer M → List M
  | .sending ms => ms
  | _ => []

def Writer.isQueued : Writer M → Bool
  | .queued => true
  | _ => false

/-- somebody is going to look at the queue -/
def Attended (s : St M) : Prop := 0 < s.sem.concurrency ∨ (∃ f, s.notifying f = true) ∨ s.writer = .woken

end Model

/-! ## The invariant -/

section Proofs

variable {M : Type}

structure Inv (s : St M) : Prop where
  log : s.appended = s.sent ++ s.writer.inHand ++ s.queue
  idle : s.sem.Idle
  queued : s.sem.waiters = if s.writer.isQueued then [()] else []
  attended : s.queue ≠ [] → Attended s

theorem inv_init (tokens : ℕ) : Inv (init tokens : St M) :=
  ⟨rfl, FiberSemaphore.idle_make tokens, rfl, fun h => absurd rfl h⟩

variable {s : St M}

theorem enqueueSection_inv (h : Inv s) {f : ℕ} (hf : s.notifying f = false) (m : M) : Inv (enqueueSection s f m) := by
  refine ⟨?_, h.idle, h.queued, fun _ => ?_⟩
  · simp [enqueueSection, h.log]
  by_cases hq : s.queue = []
  · exact .inr (.inl ⟨f, by simp [enqueueSection, hq]⟩)
  rcases h.attended hq with hc | ⟨g, hg⟩ | hw
  · exact .inl hc
  · -- the notifier is another fiber: `f` was not in `enqueue`
    have hne : g ≠ f := by rintro rfl; rw [hf] at hg; cases hg
    exact .inr (.inl ⟨g, by simpa [enqueueSection, hne] using hg⟩)
  · exact .inr (.inr hw)

theorem notifySection_inv (h : Inv s) (f : ℕ) : Inv (notifySection s f) := by
  have hidle := h.idle.notify
  have hqueued := h.queued
  unfold notifySection
  rcases s.sem.notify_cases with ⟨w, ws, hw, he⟩ | ⟨hnil, he⟩
  · -- the writer was queued, alone
    have hwr : s.writer.isQueued = true := by
      by_contra hn
      rw [if_neg hn, hw] at hqueued
      cases hqueued
    rw [if_pos hwr, hw] at hqueued
    have hws : ws = [] := (List.cons.inj hqueued).2
    have hhand : s.writer.inHand = [] := by
      cases hx : s.writer with
      | sending ms => rw [hx] at hwr; cases hwr
      | _ => rfl
    have hlog := h.log
    rw [hhand] at hlog
    rw [he] at hidle ⊢
    subst hws
    exact ⟨by simpa [Writer.inHand] using hlog, hidle, rfl, fun _ => .inr (.inr rfl)⟩
  · have hwr : s.writer.isQueued = false := by
      by_contra hn
      rw [if_pos (by simpa using hn), hnil] at hqueued
      cases hqueued
    rw [he] at hidle ⊢
    refine ⟨by simpa using h.log, hidle, by simp [hwr], fun _ => .inl (Nat.succ_pos _)⟩

theorem step_inv (s : St M) (o : Op M) (h : Inv s) : Inv (step s o) := by
  have hlog := h.log
  have hqueued := h.queued
  have hatt := h.attended
  cases o with
  | enqueue f m =>
    simp only [step]
    split_ifs with hf
    · exact h
    · exact enqueueSection_inv h (by simpa using hf) m
  | notify f => exact inv_ite h fun hf => notifySection_inv h f
  | wait =>
    simp only [step]
    split
    next hw =>
      have hidle := h.idle.wait ()
      rw [hw] at hlog hqueued
      rcases s.sem.wait_cases () with ⟨hpos, he⟩ | ⟨hzero, he⟩
      · rw [he] at hidle ⊢
        exact ⟨hlog, hidle, hqueued, fun _ => .inr (.inr rfl)⟩
      -- no token: whoever attends to the queue still does
      rw [he] at hidle ⊢
      refine ⟨hlog, hidle, by simpa [Writer.isQueued] using hqueued, fun hq => ?_⟩
      rcases hatt hq with hc | hf | hwoken
      · omega
      · exact .inr (.inl hf)
      · rw [hw] at hwoken; cases hwoken
    next => exact h
  | swap =>
    simp only [step]
    split
    next hw =>
      rw [hw] at hlog hqueued
      exact ⟨by simpa [Writer.inHand] using hlog, h.idle, hqueued, fun hq => absurd rfl hq⟩
    next => exact h
  | send | loop =>
    simp only [step]
    split
    next hw =>
      rw [hw] at hlog hqueued
      refine ⟨by simpa [Writer.inHand] using hlog, h.idle, hqueued, fun hq => ?_⟩
      rcases hatt hq with hc | hf | hwoken
      · exact .inl hc
      · exact .inr (.inl hf)
      · rw [hw] at hwoken; cases hwoken
    next => exact h

theorem inv_run (tokens : ℕ) (ops : List (Op M)) : Inv (run step (init tokens : St M) ops) :=
  run_inv_of_step step_inv _ ops (inv_init tokens)

/-! ## The writer can send everything -/

def Op.isEnqueue : Op M → Bool
  | .enqueue .. => true
  | _ => false

/-- everything that was appended can be sent, without a further `enqueue` -/
def Drains (s : St M) : Prop :=
  ∃ ops : List (Op M), (∀ o ∈ ops, o.isEnqueue = false) ∧ (run step s ops).sent = s.appended

theorem Drains.of_step {o : Op M} (ho : o.isEnqueue = false) (happ : (step s o).appended = s.appended)
    (h : Drains (step s o)) : Drains s := by
  obtain ⟨ops, hops, hsent⟩ := h
  refine ⟨o :: ops, ?_, ?_⟩
  · exact List.forall_mem_cons.2 ⟨ho, hops⟩
  · rw [run_cons, hsent, happ]

theorem drains_sending (ms : List M)
    (hsent : ∀ s' : St M, Inv s' → s'.writer = .sending [] → s'.queue = s.queue → Drains s') (h : Inv s)
    (hw : s.writer = .sending ms) : Drains s := by
  induction ms generalizing s with
  | nil => exact hsent s h hw rfl
  | cons m ms ih =>
    have hstep : step s .send = { s with sent := s.sent ++ [m], writer := .sending ms } := by simp only [step, hw]
    refine Drains.of_step (o := .send) rfl (by rw [hstep]) (ih (fun s' h' hw' hq => ?_) (step_inv s .send h) ?_)
    · rw [hstep] at hq
      exact hsent s' h' hw' hq
    · rw [hstep]

theorem drains_woken (h : Inv s) (hw : s.writer = .woken) : Drains s := by
  have hstep : step s .swap = { s with queue := [], writer := .sending s.queue } := by simp only [step, hw]
  refine Drains.of_step (o := .swap) rfl (by rw [hstep]) ?_
  refine drains_sending s.queue (fun s' h' hw' hq => ⟨[], by simp, ?_⟩) (step_inv s .swap h) (by rw [hstep])
  rw [hstep] at hq
  simpa [hw', hq, Writer.inHand] using h'.log.symm

theorem drains_waiting_token (h : Inv s) (hw : s.writer = .waiting) (hc : 0 < s.sem.concurrency) : Drains s := by
  have hstep : (step s .wait).writer = .woken ∧ (step s .wait).appended = s.appended := by
    rcases s.sem.wait_cases () with ⟨-, he⟩ | ⟨hzero, -⟩
    · simp [step, hw, he]
    · omega
  exact Drains.of_step (o := .wait) rfl hstep.2 (drains_woken (step_inv s .wait h) hstep.1)

theorem drains_attended (h : Inv s) (hw : s.writer = .waiting ∨ s.writer = .queued) (ha : Attended s) : Drains s := by
  rcases ha with hc | ⟨f, hf⟩ | hwoken
  · rcases hw with hw | hw
    · exact drains_waiting_token h hw hc
    -- a queued writer leaves no token
    have hqueued := h.queued
    rw [h.idle hc, hw] at hqueued
    cases hqueued
  · have hinv := step_inv s (.notify f) h
    have hstep : step s (.notify f) = notifySection s f := by simp [step, hf]
    refine Drains.of_step (o := .notify f) rfl (by rw [hstep]; rfl) ?_
    rw [hstep] at hinv ⊢
    rcases s.sem.notify_cases with ⟨w, ws, -, he⟩ | ⟨hnil, he⟩
    · exact drains_woken hinv (by simp [notifySection, he])
    refine drains_waiting_token hinv ?_ (by simp [notifySection, he])
    rcases hw with hw | hw
    · simp [notifySection, he, hw]
    · have hqueued := h.queued
      rw [hnil, hw] at hqueued
      cases hqueued
  · exact drains_woken h hwoken

theorem drains_blocked (h : Inv s) (hw : s.writer = .waiting ∨ s.writer = .queued) : Drains s := by
  by_cases hq : s.queue = []
  · have hlog := h.log
    have hhand : s.writer.inHand = [] := by rcases hw with hw | hw <;> rw [hw] <;> rfl
    refine ⟨[], by simp, ?_⟩
    simpa [hq, hhand] using hlog.symm
  · exact drains_attended h hw (h.attended hq)

theorem drains_loop (h : Inv s) (hw : s.writer = .sending []) : Drains s := by
  have hstep : step s .loop = { s with writer := .waiting } := by simp only [step, hw]
  refine Drains.of_step (o := .loop) rfl (by rw [hstep]) (drains_blocked (step_inv s .loop h) ?_)
  rw [hstep]
  exact .inl rfl

theorem Inv.drains (h : Inv s) : Drains s := by
  cases hw : s.writer with
  | waiting => exact drains_blocked h (.inl hw)
  | queued => exact drains_blocked h (.inr hw)
  | woken => exact drains_woken h hw
  | sending ms => exact drains_sending ms (fun s' h' hw' _ => drains_loop h' hw') h hw

/-- **Sends follow the queue and no wakeup is lost.** -/
theorem writes_in_order (tokens : ℕ) (ops : List (Op M)) :
    let s := run step (init tokens) ops
    s.appended = s.sent ++ s.writer.inHand ++ s.queue ∧ (s.queue ≠ [] → Attended s) ∧ Drains s :=
  have h := inv_run tokens ops
  ⟨h.log, h.attended, h.drains⟩

/-- two fibers append to the empty queue before the writer is woken; both messages go out in one swap -/
example : (run step (init 0 : St ℕ) [.wait, .enqueue 1 5, .enqueue 2 6, .notify 1, .swap, .send, .send]).sent =
    [5, 6] := by decide

end Proofs

end CoServer.AsyncStream.WriteQueue
