/-
`WorkerGroup` (`worker.cpp`): a group of tasks of which at most `batch_size` are under way, and the barrier `waitAll`.

`schedule` takes a token of the semaphore and hands `doWork` to the scheduler; `doWork` runs the task and gives the
token back; `waitAll` takes all tokens. Each call is a party of the machine, and a call of `schedule` goes on as the
task it was given. The steps are the locked sections of the semaphore, the hand-over to the scheduler, the end of a
task, and the test and the store of `_finish`. A fiber queued in the semaphore is resumed only by the `notify` that
takes it from the queue. A task that throws leaves `doWork` without the `notify`: its token is lost.

Results:
- `group_barrier`: in every run, for every batch size, any callers and any tasks, at most `batch_size` tasks are
  scheduled and unfinished; and in every state in which a `waitAll` that found `_finish` unset has returned and nobody
  is inside `schedule`, every task ever passed to `schedule` has ended.
- `second_waitAll_returns`: a second `waitAll` finds `_finish` set by the first one and returns while the only task is
  unfinished.
-/
import CoServer.Core.Run
import CoServer.Mutex.Ledger

namespace CoServer.Worker

open CoServer.Core Mutex Function Finset

/-! ## Model -/

inductive Call where
  | none
  /-- in `schedule`, before `_sem.wait()` -/
  | entering
  /-- in `schedule`, queued in the semaphore -/
  | queued
  /-- in `schedule`, past `_sem.wait()` -/
  | granted
  /-- the task is scheduled and has not ended -/
  | running
  /-- the task has returned, before `_sem.notify()` -/
  | returned
  /-- the task has thrown -/
  | threw
  /-- `doWork` has returned -/
  | finished
  /-- in `waitAll`, before the test of `_finish` -/
  | testing
  /-- before `_finish = true` -/
  | setting
  /-- in the loop, with `i` tokens, before the next `_sem.wait()` -/
  | draining (i : ℕ)
  /-- in the loop, with `i` tokens, queued in the semaphore -/
  | drainQueued (i : ℕ)
  /-- `waitAll` has returned from its loop -/
  | drained
  /-- `waitAll` found `_finish` set and has returned -/
  | skipped
deriving DecidableEq

structure St where
  /-- `_batchSize` -/
  batchSize : ℕ
  /-- `_finish` -/
  finish : Bool
  /-- `_sem` -/
  sem : FiberSemaphore ℕ
  calls : ℕ → Call
  /-- calls `0 .. next - 1` were made -/
  next : ℕ

inductive Op where
  /-- a fiber calls `schedule` with a new task -/
  | schedule
  /-- the locked section of the `_sem.wait()` of a call -/
  | wait (c : ℕ)
  /-- `_scheduler->schedule(doWork)` -/
  | submit (c : ℕ)
  /-- the task of a call ends -/
  | finish (c : ℕ) (throws : Bool)
  /-- the `_sem.notify()` of `doWork` -/
  | notify (c : ℕ)
  /-- a fiber calls `waitAll` -/
  | waitAll
  /-- `if(!_finish)` -/
  | test (c : ℕ)
  /-- `_finish = true` -/
  | set (c : ℕ)
deriving DecidableEq

/-- the group after its constructor -/
def init (batchSize : ℕ) : St := ⟨batchSize, false, .make batchSize, fun _ => .none, 0⟩

variable (s : St)

def St.move (c : ℕ) (x : Call) : St := { s with calls := update s.calls c x }

/-- the head of the loop of `waitAll`, with `i` tokens taken -/
def St.loop (i : ℕ) : Call := if i < s.batchSize then .draining i else .drained

/-- what a call that waits becomes with its token -/
def St.resumed : Call → Call
  | .drainQueued i | .draining i => s.loop (i + 1)
  | _ => .granted

/-- what a call becomes when it is queued -/
def Call.waiting : Call → Call
  | .draining i => .drainQueued i
  | _ => .queued

/-- the call is about to enter `_sem.wait()` -/
def Call.waits : Call → Bool
  | .entering | .draining _ => true
  | _ => false

/-- a new call -/
def St.enter (x : Call) : St := { s.move s.next x with next := s.next + 1 }

/-- the section of `wait` for call `c` -/
def waitSection (c : ℕ) : St :=
  let r := s.sem.wait c
  { s with sem := r.1 }.move c (if r.2 then s.resumed (s.calls c) else (s.calls c).waiting)

/-- the section of `notify` for the task of call `c` -/
def notifySection (c : ℕ) : St :=
  let r := s.sem.notify
  let s := { s with sem := r.1 }.move c .finished
  match r.2 with
  | some w => s.move w (s.resumed (s.calls w))
  | none => s

def step : Op → St
  | .schedule => s.enter .entering
  | .wait c => if (s.calls c).waits then waitSection s c else s
  | .submit c => if s.calls c = .granted then s.move c .running else s
  | .finish c throws => if s.calls c = .running then s.move c (if throws then .threw else .returned) else s
  | .notify c => if s.calls c = .returned then notifySection s c else s
  | .waitAll => s.enter .testing
  | .test c => if s.calls c = .testing then s.move c (if s.finish then .skipped else .setting) else s
  | .set c => if s.calls c = .setting then { s with finish := true }.move c (s.loop 0) else s

/-! ## Tokens -/

/-- the tokens a call holds; one that a task lost by throwing counts as held -/
def Call.tokens (b : ℕ) : Call → ℕ
  | .granted | .running | .returned | .threw => 1
  | .draining i | .drainQueued i => i
  | .drained => b
  | _ => 0

/-- the call is in the queue of the semaphore -/
def Call.isQueued : Call → Bool
  | .queued | .drainQueued _ => true
  | _ => false

/-- the place of a call in the loop of `waitAll` -/
def Call.loopIndex : Call → Option ℕ
  | .draining i | .drainQueued i => some i
  | _ => Option.none

/-- the calls as parties of the semaphore's ledger -/
def accounts (b : ℕ) : Accounts Call := ⟨.none, Call.tokens b, Call.isQueued, rfl⟩

structure Inv (s : St) : Prop extends Ledger (accounts s.batchSize) s.batchSize s.sem s.calls s.next where
  index : ∀ c, ∀ i ∈ (s.calls c).loopIndex, i < s.batchSize

theorem inv_init (b : ℕ) : Inv (init b) := ⟨ledger_make _ b, by simp [init, Call.loopIndex]⟩

variable {s : St} {c : ℕ} {x : Call}

theorem Inv.sum_tokens (h : Inv s) :
    s.sem.concurrency + ∑ c ∈ range s.next, (s.calls c).tokens s.batchSize = s.batchSize :=
  h.tokens

theorem Inv.lt_next (h : Inv s) (hc : s.calls c ≠ .none) : c < s.next := h.toLedger.lt_next hc

theorem index_update {calls : ℕ → Call} {b : ℕ} (h : ∀ d, ∀ i ∈ (calls d).loopIndex, i < b)
    (hx : ∀ i ∈ x.loopIndex, i < b) : ∀ d, ∀ i ∈ (update calls c x d).loopIndex, i < b := by
  exact (forall_update_iff calls (p := fun _ x => ∀ i ∈ x.loopIndex, i < b)).2 ⟨hx, fun d _ => h d⟩

theorem loop_tokens (s : St) {i : ℕ} (hi : i ≤ s.batchSize) : (s.loop i).tokens s.batchSize = i := by
  unfold St.loop
  split_ifs with hlt
  · rfl
  · simp only [Call.tokens]; omega

theorem loop_isQueued (s : St) (i : ℕ) : (s.loop i).isQueued = false := by
  unfold St.loop
  split_ifs <;> rfl

theorem loop_index (s : St) (i : ℕ) : ∀ j ∈ (s.loop i).loopIndex, j < s.batchSize := by
  unfold St.loop
  split_ifs with hlt
  · intro j hj
    cases hj
    exact hlt
  · simp [Call.loopIndex]

theorem Inv.move_self (h : Inv s) {y : Call} (hc : s.calls c = y) (hy : y ≠ .none)
    (htok : x.tokens s.batchSize = y.tokens s.batchSize) (hq : x.isQueued = y.isQueued)
    (hidx : ∀ i ∈ x.loopIndex, i < s.batchSize) : Inv (s.move c x) := by
  subst hc
  exact ⟨h.toLedger.move (h.lt_next hy) htok hq, index_update h.index hidx⟩

theorem Inv.finish (h : Inv s) : Inv { s with finish := true } := ⟨h.toLedger, h.index⟩

theorem Inv.enter (h : Inv s) (htok : x.tokens s.batchSize = 0) (hq : x.isQueued = false)
    (hidx : x.loopIndex = Option.none) : Inv (s.enter x) :=
  ⟨h.toLedger.enter htok hq, index_update h.index (by simp [hidx])⟩

theorem resumed_spec (h : Inv s) (hc : (s.calls c).waits = true ∨ (s.calls c).isQueued = true) :
    (s.resumed (s.calls c)).tokens s.batchSize = (s.calls c).tokens s.batchSize + 1 ∧
      (s.resumed (s.calls c)).isQueued = false ∧ ∀ i ∈ (s.resumed (s.calls c)).loopIndex, i < s.batchSize := by
  have hidx := h.index c
  cases hx : s.calls c with
  | draining i | drainQueued i =>
    rw [hx] at hidx
    have hi : i < s.batchSize := hidx i rfl
    exact ⟨loop_tokens s hi, loop_isQueued s _, loop_index s _⟩
  | entering | queued => exact ⟨rfl, rfl, nofun⟩
  | _ => rw [hx] at hc; rcases hc with hc | hc <;> cases hc

theorem waiting_spec (h : Inv s) (hc : (s.calls c).waits = true) :
    (s.calls c).waiting.tokens s.batchSize = (s.calls c).tokens s.batchSize ∧ (s.calls c).waiting.isQueued = true ∧
      ∀ i ∈ (s.calls c).waiting.loopIndex, i < s.batchSize := by
  have hidx := h.index c
  cases hx : s.calls c with
  | draining i => rw [hx] at hidx; exact ⟨rfl, rfl, hidx⟩
  | entering => exact ⟨rfl, rfl, nofun⟩
  | _ => rw [hx] at hc; cases hc

theorem waits_ne_none (h : x.waits = true) : x ≠ .none := by rintro rfl; cases h

theorem waits_not_queued (h : x.waits = true) : x.isQueued = false := by cases x <;> first | rfl | cases h

theorem waitSection_inv (h : Inv s) (hc : (s.calls c).waits = true) : Inv (waitSection s c) := by
  obtain ⟨htok, hq, hidx⟩ := resumed_spec h (Or.inl hc)
  obtain ⟨htok', hq', hidx'⟩ := waiting_spec h hc
  refine ⟨h.toLedger.wait (h.lt_next (waits_ne_none hc)) (waits_not_queued hc) htok hq htok' hq',
    index_update h.index ?_⟩
  split_ifs
  · exact hidx
  · exact hidx'

theorem notifySection_eq (s : St) (c : ℕ) :
    notifySection s c = { s with
      sem := s.sem.notify.1
      calls := handOver s.resumed (update s.calls c .finished) s.sem.notify.2 } := by
  have hsame : ∀ (s' : St) (x : Call), s'.batchSize = s.batchSize → s'.resumed x = s.resumed x := by
    intro s' x hb
    cases x <;> simp [St.resumed, St.loop, hb]
  rcases s.sem.notify_cases with ⟨w, ws, -, he⟩ | ⟨-, he⟩
  · simp only [notifySection, he, St.move, handOver]
    rw [hsame { s with sem := ⟨s.sem.concurrency, ws⟩, calls := update s.calls c .finished } _ rfl]
  · simp only [notifySection, he, St.move, handOver]

theorem notifySection_inv (h : Inv s) (hc : s.calls c = .returned) : Inv (notifySection s c) := by
  have hlt := h.lt_next (c := c) (by rw [hc]; simp)
  have hout : (s.calls c).isQueued = false := by rw [hc]; rfl
  rw [notifySection_eq]
  refine ⟨h.toLedger.notify hlt hout (by rw [hc]; rfl) rfl s.resumed fun w hw => ?_, ?_⟩
  · exact ⟨(resumed_spec h (Or.inr hw)).1, (resumed_spec h (Or.inr hw)).2.1⟩
  have hfinished := index_update (c := c) h.index (x := .finished) (fun i hi => by cases hi)
  rcases s.sem.notify_cases with ⟨w, ws, hw, he⟩ | ⟨-, he⟩
  · have hmem : w ∈ s.sem.waiters := hw ▸ List.mem_cons_self
    have hne : w ≠ c := by
      rintro rfl
      exact absurd ((h.queue w).1 hmem) (Bool.eq_false_iff.1 hout)
    rw [he]
    simp only [handOver, update_of_ne hne]
    exact index_update hfinished (resumed_spec h (Or.inr ((h.queue w).1 hmem))).2.2
  · rw [he]
    exact hfinished

theorem step_inv (s : St) (o : Op) (h : Inv s) : Inv (step s o) := by
  cases o with
  | schedule | waitAll => exact h.enter rfl rfl rfl
  | wait c => exact inv_ite h fun hc => waitSection_inv h hc
  | submit c => exact inv_ite h fun hc => h.move_self hc nofun rfl rfl nofun
  | finish c throws =>
    refine inv_ite h fun hc => ?_
    cases throws with
    | false | true => exact h.move_self hc nofun rfl rfl nofun
  | notify c => exact inv_ite h fun hc => notifySection_inv h hc
  | test c =>
    refine inv_ite h fun hc => ?_
    cases s.finish with
    | false | true => exact h.move_self hc nofun rfl rfl nofun
  | set c =>
    exact inv_ite h fun hc =>
      h.finish.move_self hc nofun (loop_tokens s (Nat.zero_le _)) (loop_isQueued s 0) (loop_index s 0)

theorem inv_run (b : ℕ) (ops : List Op) : Inv (run step (init b) ops) := run_inv_of_step step_inv _ ops (inv_init b)

theorem batchSize_run (b : ℕ) (ops : List Op) : (run step (init b) ops).batchSize = b := by
  refine run_inv_of_step (I := fun s : St => s.batchSize = b) (fun s o h => ?_) _ ops rfl
  cases o with
  | notify c =>
    simp only [step, notifySection]
    split_ifs
    · split <;> exact h
    · exact h
  | _ =>
    simp only [step, waitSection]
    repeat' split
    all_goals exact h

/-! ## The bound and the barrier -/

/-- the calls of `schedule` whose task is scheduled and unfinished -/
def St.running (s : St) : Finset ℕ := {c ∈ range s.next | s.calls c = .running}

/-- a fiber is inside `schedule` -/
def Call.inSchedule : Call → Bool
  | .entering | .queued | .granted => true
  | _ => false

/-- the call was one of `schedule` -/
def Call.isTask : Call → Bool
  | .entering | .queued | .granted | .running | .returned | .threw | .finished => true
  | _ => false

/-- the task of the call has returned or thrown -/
def Call.ended : Call → Bool
  | .returned | .threw | .finished => true
  | _ => false

/-- what the group promises its users -/
structure Barrier (s : St) : Prop where
  /-- at most `batch_size` tasks are scheduled and unfinished -/
  bounded : s.running.card ≤ s.batchSize
  /-- when a `waitAll` has returned from its loop and nobody is inside `schedule`, every task has ended -/
  barrier : (∃ w, s.calls w = .drained) → (∀ c, (s.calls c).inSchedule = false) →
    ∀ c, (s.calls c).isTask = true → (s.calls c).ended = true

theorem Inv.bounded (h : Inv s) : s.running.card ≤ s.batchSize := by
  have hone : ∀ c ∈ s.running, (s.calls c).tokens s.batchSize = 1 := by
    intro c hc
    rw [(mem_filter.1 hc).2]
    rfl
  calc s.running.card
    _ = ∑ c ∈ s.running, (s.calls c).tokens s.batchSize := by
      rw [sum_congr rfl hone, sum_const, smul_eq_mul, mul_one]
    _ ≤ ∑ c ∈ range s.next, (s.calls c).tokens s.batchSize := sum_le_sum_of_subset (filter_subset _ _)
    _ ≤ s.batchSize := by have := h.sum_tokens; omega

theorem Inv.drained_tokens (h : Inv s) {w : ℕ} (hw : s.calls w = .drained) (hne : c ≠ w) :
    (s.calls c).tokens s.batchSize = 0 := by
  by_cases hc : c < s.next
  · have hpair : (s.calls c).tokens s.batchSize + (s.calls w).tokens s.batchSize ≤ s.batchSize :=
      h.toLedger.add_le hc (h.lt_next (by rw [hw]; simp)) hne
    have hall : (s.calls w).tokens s.batchSize = s.batchSize := by rw [hw]; rfl
    omega
  · rw [h.fresh c (by omega)]
    rfl

/-- **Bound and barrier of a worker group.** -/
theorem group_barrier (b : ℕ) (ops : List Op) : (run step (init b) ops).batchSize = b ∧
    Barrier (run step (init b) ops) := by
  have h := inv_run b ops
  refine ⟨batchSize_run b ops, h.bounded, ?_⟩
  rintro ⟨w, hw⟩ hin c htask
  have hne : c ≠ w := by rintro rfl; rw [hw] at htask; cases htask
  have htok := h.drained_tokens hw hne
  have hsched := hin c
  cases hx : (run step (init b) ops).calls c with
  | returned | threw | finished => rfl
  | running => rw [hx] at htok; cases htok
  | entering | queued | granted => rw [hx] at hsched; cases hsched
  | _ => rw [hx] at htask; cases htask

/-- one task of a group of one is running; the first `waitAll` waits for it, a second one is called -/
def secondWaitAll : List Op := [.schedule, .wait 0, .submit 0, .waitAll, .test 1, .set 1, .wait 1, .waitAll, .test 2]

/-- **A second `waitAll` does not wait.** -/
theorem second_waitAll_returns :
    (run step (init 1) secondWaitAll).calls 2 = .skipped ∧
      (run step (init 1) secondWaitAll).calls 0 = .running ∧
      (run step (init 1) secondWaitAll).calls 1 = .drainQueued 0 ∧
      (∀ c, ((run step (init 1) secondWaitAll).calls c).inSchedule = false) := by
  refine ⟨by decide, by decide, by decide, fun c => ?_⟩
  have hfresh := (inv_run 1 secondWaitAll).fresh c
  by_cases hc : c < 3
  · interval_cases c <;> decide
  · rw [hfresh (by have : (run step (init 1) secondWaitAll).next = 3 := by decide
                   omega)]
    rfl

end CoServer.Worker
