/-
Fibers and the scheduler loop (`fiber.cpp`, `scheduler.cpp`, the tickle pipe of `iomanager.cpp`) as one machine.

Parties, interleaved arbitrarily: worker threads executing `Scheduler::run` (named by kernel thread ids); callers of
`schedule` and `tickle` (any other code); and the code of the fibers, of which the scheduler sees only which way a run
of the fiber ends (`Leave`).

Each lock-protected section, each atomic operation, each read or write of a fiber's `_state` and each context save or
restore is one step. `Pc` is the program counter of a worker inside `run`, with the locals that are live there. The idle
fiber of a worker is private to it, so its state is a local of the worker; the body of `IOManager::idle` is the six
`idle..` counters (`Scheduler::idle` is the case that wakes at once). Failed assertions abort: `aborted` is set and
nothing moves any more.

Ghost data: the `ticket` of a queue entry (a serial number given by the push), the logs `pushed`, `removed` (entry and
the worker that took it), `started` (ticket and function of every callback call made by `mainFunc`) and `retired`
(tickets whose decrement of `_activeThreadCount` has run), and `saved` (the `swapOut` of the fiber's last run has stored
the context).
-/
import CoServer.Core.Run

namespace CoServer.Scheduler

open Function

/-! ## Data -/

/-- `Fiber::FiberState` -/
inductive FiberState where
  | init
  | holding
  | execute
  | terminate
  | ready
  | exception
deriving DecidableEq

/-- what `_context` holds: the entry of `mainFunc` (`makecontext`), a point inside a `swapOut` of the fiber's code, or
the last `swapOut` of `mainFunc` -/
inductive Ctx where
  | entry
  | suspended
  | finished
deriving DecidableEq

/-- `_callback`: the function, and the ticket of the queue entry it came from (none for a fiber made by user code) -/
structure Job where
  fn : ℕ
  ticket : Option ℕ
deriving DecidableEq

/-- the two overloads of `scheduleLock`: a fiber pointer (none: null) or a function (none: empty) -/
inductive Task where
  | fiber (f : Option ℕ)
  | callback (fn : Option ℕ)
deriving DecidableEq

/-- what a `schedule` call pushes -/
structure Item where
  task : Task
  thread : ℤ
deriving DecidableEq

/-- `Scheduler::FiberAndThread`, with the ghost ticket of its push; one of `fiber` and `callback` is always null -/
structure FiberAndThread where
  task : Task
  thread : ℤ
  ticket : ℕ
deriving DecidableEq

def Task.fiberPtr : Task → Option ℕ
  | .fiber f => f
  | .callback _ => none

def Task.function : Task → Option ℕ
  | .fiber _ => none
  | .callback fn => fn

def FiberAndThread.fiber (e : FiberAndThread) : Option ℕ := e.task.fiberPtr

def FiberAndThread.callback (e : FiberAndThread) : Option ℕ := e.task.function

/-- how a run of a fiber ends: `yieldToHold`, `yieldToReady`, a bare `swapOut`, return or throw of the callback -/
inductive Leave where
  | hold
  | ready
  | swap
  | finish
  | throw
deriving DecidableEq

/-- the branch of `run` that holds the fiber: `ft.fiber` or `cb_fiber` -/
inductive Branch where
  | fiber
  | callback
deriving DecidableEq

/-- `Fiber::swapIn`: the assertion, the write of the state, the `swapcontext` -/
inductive SwapInPhase where
  | test
  | set
  | restore
deriving DecidableEq

/-- `Fiber::reset`: the three reads of the assertion, callback and context, the write of the state -/
inductive ResetPhase where
  | terminate
  | exception
  | init
  | context
  | set
deriving DecidableEq

/-- the reads and the write of the state after a run of the fiber -/
inductive AfterPhase where
  | ready
  | first
  | second
  | hold
deriving DecidableEq

/-- where `run` continues after `tickle()` -/
inductive Cont where
  | dispatch (ft : Option FiberAndThread)
  | loop
deriving DecidableEq

/-- program counter of a worker -/
inductive Pc where
  /-- not running `run` yet -/
  | off
  /-- top of the loop, before the locked scan of the queue -/
  | scan
  /-- inside `tickle`, before `hasIdleThreads()` -/
  | tickle (k : Cont)
  /-- inside `tickle`, before the `write` -/
  | tickleWrite (k : Cont)
  /-- `ft.fiber && getState() != Terminate` -/
  | dispatch (ft : Option FiberAndThread)
  /-- `.. && getState() != Exception` -/
  | dispatch2 (ft : FiberAndThread) (f : ℕ)
  /-- inside `reset` of the cached `cb_fiber`: for a taken callback, or `reset(nullptr)` after a run -/
  | reset (p : ResetPhase) (ft : Option FiberAndThread) (f : ℕ)
  | swapIn (p : SwapInPhase) (b : Branch) (ft : FiberAndThread) (f : ℕ)
  /-- the code of fiber `f` is running on this worker -/
  | running (b : Branch) (ft : FiberAndThread) (f : ℕ)
  /-- the code of `f` is about to write its own state -/
  | leaving (y : Leave) (b : Branch) (ft : FiberAndThread) (f : ℕ)
  /-- the state is written, the `swapcontext` of `swapOut` is not done -/
  | swapOut (fin : Bool) (b : Branch) (ft : FiberAndThread) (f : ℕ)
  /-- `swapIn` has returned, before `--_activeThreadCount` -/
  | count (b : Branch) (ft : FiberAndThread) (f : ℕ)
  | after (p : AfterPhase) (b : Branch) (f : ℕ)
  /-- before the `schedule` of a fiber found Ready -/
  | requeue (b : Branch) (f : ℕ)
  /-- `is_active` without work: before `--_activeThreadCount; continue` -/
  | skip (ft : FiberAndThread)
  /-- `idle_fiber->getState() == Terminate` -/
  | idleTest
  /-- before `++_idleThreadCount` -/
  | idleInc
  /-- in `idle`, before `stopping(next_timeout)` -/
  | idleCheck
  /-- blocked in `epoll_wait` -/
  | idleWait
  /-- `epoll_wait` has returned -/
  | idleWoke
  /-- back in `run`, before `--_idleThreadCount` -/
  | idleDec
  | exited
deriving DecidableEq

/-- a caller of `schedule`: outside, or inside `tickle` before `hasIdleThreads()`, or before the `write` -/
inductive Caller where
  | outside
  | tickle
  | write
deriving DecidableEq

structure St where
  /-- `_fibers` -/
  queue : List FiberAndThread
  /-- `_activeThreadCount` -/
  active : ℕ
  /-- `_idleThreadCount` -/
  idleCount : ℕ
  autoStop : Bool
  stopping : Bool
  /-- unread bytes in the tickle pipe -/
  pipe : ℕ
  /-- threads that entered `run` -/
  threads : List ℕ
  pc : ℕ → Pc
  /-- the local `cb_fiber` of a worker -/
  cbFiber : ℕ → Option ℕ
  /-- the state of the worker's `idle_fiber` -/
  idle : ℕ → FiberState
  state : ℕ → FiberState
  callback : ℕ → Option Job
  ctx : ℕ → Ctx
  saved : ℕ → Bool
  /-- fibers `0 .. nextFiber - 1` exist -/
  nextFiber : ℕ
  callers : ℕ → Caller
  nextTicket : ℕ
  pushed : List FiberAndThread
  removed : List (FiberAndThread × ℕ)
  started : List (ℕ × ℕ)
  retired : List ℕ
  aborted : Bool

inductive Op where
  /-- a thread enters `run` -/
  | start (w : ℕ)
  /-- the next step of worker `w` inside `run` -/
  | work (w : ℕ)
  /-- the fiber code running on `w` yields, returns or throws -/
  | leave (w : ℕ) (y : Leave)
  /-- `stopping(next_timeout)` in `idle`; `quiet`: no timer and no pending event -/
  | check (w : ℕ) (quiet : Bool)
  /-- `epoll_wait` returns on `w` -/
  | wake (w : ℕ)
  /-- `w` reads the tickle pipe empty -/
  | drain (w : ℕ)
  /-- one locked section that pushes these items: `schedule(fc, thread)`, or `schedule(begin, end)` -/
  | schedule (c : ℕ) (items : List Item)
  /-- caller `c` calls `tickle` on its own (`stop`, `onTimerInsertedAtFront`) -/
  | call (c : ℕ)
  /-- the next step of caller `c` inside `tickle` -/
  | caller (c : ℕ)
  /-- user code makes a fiber -/
  | newFiber (fn : ℕ)
  /-- `start` and `stop` write `_autoStop` and `_stopping` -/
  | setStop (autoStop stopping : Bool)
deriving DecidableEq

def init : St where
  queue := []
  active := 0
  idleCount := 0
  autoStop := false
  stopping := true
  pipe := 0
  threads := []
  pc := fun _ => .off
  cbFiber := fun _ => none
  idle := fun _ => .init
  state := fun _ => .init
  callback := fun _ => none
  ctx := fun _ => .entry
  saved := fun _ => true
  nextFiber := 0
  callers := fun _ => .outside
  nextTicket := 0
  pushed := []
  removed := []
  started := []
  retired := []
  aborted := false

/-! ## The locked sections -/

/-- `--_activeThreadCount` on a 64-bit `size_t` -/
def decCount (n : ℕ) : ℕ := if n = 0 then 2 ^ 64 - 1 else n - 1

/-- `it->thread != -1 && it->thread != getCurrentThreadId()` -/
def foreign (w : ℕ) (e : FiberAndThread) : Prop := e.thread ≠ -1 ∧ e.thread ≠ (w : ℤ)

instance (w : ℕ) (e : FiberAndThread) : Decidable (foreign w e) := by unfold foreign; infer_instance

/-- `it->fiber && it->fiber->getState() == Execute` -/
def executing (state : ℕ → FiberState) (e : FiberAndThread) : Prop := ∃ f ∈ e.fiber, state f = .execute

instance (state : ℕ → FiberState) (e : FiberAndThread) : Decidable (executing state e) := by
  unfold executing; infer_instance

/-- result of the scan: `tickle_me`, `ft`, the queue left, and whether the assertion failed -/
structure Scan where
  tickleMe : Bool
  taken : Option FiberAndThread
  queue : List FiberAndThread
  failed : Bool
deriving DecidableEq

/-- the scan loop of `run` over the rest of the queue, with the `tickle_me` collected so far -/
def scanQueue (state : ℕ → FiberState) (w : ℕ) : List FiberAndThread → Bool → Scan
  | [], t => ⟨t, none, [], false⟩
  | e :: q, t =>
    if foreign w e then
      let r := scanQueue state w q true
      { r with queue := e :: r.queue }
    else if e.fiber = none ∧ e.callback = none then ⟨t, none, e :: q, true⟩
    else if executing state e then
      let r := scanQueue state w q t
      { r with queue := e :: r.queue }
    else ⟨t || !q.isEmpty, some e, q, false⟩

/-- `scheduleLock`: the queue, and `need_tickle` -/
def scheduleLock (queue : List FiberAndThread) (e : FiberAndThread) : List FiberAndThread × Bool :=
  (queue ++ [e], queue.isEmpty)

/-- the locked section of `schedule`: pushes every item and collects `need_tickle` -/
def scheduleItems (queue : List FiberAndThread) (ticket : ℕ) : List Item → List FiberAndThread × Bool
  | [] => (queue, false)
  | i :: is =>
    let r := scheduleLock queue ⟨i.task, i.thread, ticket⟩
    let rs := scheduleItems r.1 (ticket + 1) is
    (rs.1, r.2 || rs.2)

section

variable (s : St) (w : ℕ)

/-- `Scheduler::stopping` -/
def stoppingNow : Bool := s.autoStop && s.stopping && s.queue.isEmpty && s.active == 0

/-! ## Steps of a worker -/

def Cont.pc : Cont → Pc
  | .dispatch ft => .dispatch ft
  | .loop => .scan

def St.goto (p : Pc) : St := { s with pc := update s.pc w p }

def St.abort : St := { s with aborted := true }

/-- the locked scan of `run` and what follows it -/
def scanStep : St :=
  let r := scanQueue s.state w s.queue false
  let next : Pc := if r.tickleMe then .tickle (.dispatch r.taken) else .dispatch r.taken
  if r.failed then s.abort
  else match r.taken with
    | none => s.goto w next
    | some e => { s with queue := r.queue, active := s.active + 1, removed := s.removed ++ [(e, w)] }.goto w next

/-- `else if(ft.callback)`: reuse `cb_fiber`, or make a new one -/
def callbackStep (e : FiberAndThread) (fn : ℕ) : St :=
  match s.cbFiber w with
  | some g => s.goto w (.reset .terminate (some e) g)
  | none =>
    { s with
      state := update s.state s.nextFiber .init
      callback := update s.callback s.nextFiber (some ⟨fn, some e.ticket⟩)
      ctx := update s.ctx s.nextFiber .entry
      saved := update s.saved s.nextFiber true
      nextFiber := s.nextFiber + 1
      cbFiber := update s.cbFiber w (some s.nextFiber) }.goto w (.swapIn .test .callback e s.nextFiber)

/-- the three-way test on a taken entry: its fiber unless dead, else its callback, else nothing to run. An entry with a
fiber has no callback, so a dead fiber falls through to the last case. -/
def dispatchStep (e : FiberAndThread) : St :=
  match e.task with
  | .fiber (some f) => s.goto w (if s.state f = .terminate then .skip e else .dispatch2 e f)
  | .callback (some fn) => callbackStep s w e fn
  | .fiber none | .callback none => s.goto w (.skip e)

def resetStep (ft : Option FiberAndThread) (f : ℕ) : ResetPhase → St
  | .terminate => s.goto w (.reset (if s.state f = .terminate then .context else .exception) ft f)
  | .exception => s.goto w (.reset (if s.state f = .exception then .context else .init) ft f)
  | .init => if s.state f = .init then s.goto w (.reset .context ft f) else s.abort
  | .context =>
    { s with
      callback := update s.callback f (ft.bind fun e => e.callback.map fun fn => ⟨fn, some e.ticket⟩)
      ctx := update s.ctx f .entry }.goto w (.reset .set ft f)
  | .set =>
    { s with state := update s.state f .init }.goto w
      (match ft with
      | some e => .swapIn .test .callback e f
      | none => .scan)

/-- the call of `_callback` by `mainFunc`, in the log -/
def startLog (started : List (ℕ × ℕ)) (j : Job) : List (ℕ × ℕ) :=
  match j.ticket with
  | some t => started ++ [(t, j.fn)]
  | none => started

variable (b : Branch)

variable (e : FiberAndThread)

variable (f : ℕ)

def swapInStep : SwapInPhase → St
  | .test => if s.state f = .execute then s.abort else s.goto w (.swapIn .set b e f)
  | .set => { s with state := update s.state f .execute }.goto w (.swapIn .restore b e f)
  | .restore =>
    match s.ctx f, s.callback f with
    | .entry, some j =>
      { s with saved := update s.saved f false, started := startLog s.started j }.goto w (.running b e f)
    | .entry, none => { s with saved := update s.saved f false }.goto w (.leaving .finish b e f)
    | .suspended, _ => { s with saved := update s.saved f false }.goto w (.running b e f)
    | .finished, _ => s.abort

/-- the write of the state by the fiber's own code -/
def leavingStep : Leave → St
  | .hold => { s with state := update s.state f .holding }.goto w (.swapOut false b e f)
  | .ready => { s with state := update s.state f .ready }.goto w (.swapOut false b e f)
  | .swap => s.goto w (.swapOut false b e f)
  | .finish =>
    { s with
      callback := update s.callback f none
      state := update s.state f .terminate }.goto w (.swapOut true b e f)
  | .throw => { s with state := update s.state f .exception }.goto w (.swapOut true b e f)

/-- the fiber code on `w` leaves; `yieldToHold` and `yieldToReady` assert the state Execute first -/
def leaveStep (y : Leave) : St :=
  if (y = .hold ∨ y = .ready) ∧ s.state f ≠ .execute then s.abort else s.goto w (.leaving y b e f)

/-- the reads of the state after the run; the order of the two tests differs between the branches -/
def afterStep : AfterPhase → St
  | .ready => s.goto w (if s.state f = .ready then .requeue b f else .after .first b f)
  | .first =>
    match b with
    | .fiber => s.goto w (if s.state f = .terminate then .scan else .after .second .fiber f)
    | .callback => s.goto w (if s.state f = .exception then .reset .terminate none f else .after .second .callback f)
  | .second =>
    match b with
    | .fiber => s.goto w (if s.state f = .exception then .scan else .after .hold .fiber f)
    | .callback => s.goto w (if s.state f = .terminate then .reset .terminate none f else .after .hold .callback f)
  | .hold =>
    match b with
    | .fiber => { s with state := update s.state f .holding }.goto w .scan
    | .callback =>
      { s with
        state := update s.state f .holding
        cbFiber := update s.cbFiber w none }.goto w .scan

/-- `schedule(fiber)` by the worker itself; the callback branch then drops `cb_fiber` -/
def requeueStep : St :=
  let e : FiberAndThread := ⟨.fiber (some f), -1, s.nextTicket⟩
  let r := scheduleLock s.queue e
  { s with
    queue := r.1
    nextTicket := s.nextTicket + 1
    pushed := s.pushed ++ [e]
    cbFiber := if b = Branch.callback then update s.cbFiber w none else s.cbFiber }.goto w
      (if r.2 then .tickle .loop else .scan)

/-- `--_activeThreadCount` for the taken entry `e` -/
def countStep (p : Pc) : St :=
  { s with active := decCount s.active, retired := s.retired ++ [e.ticket] }.goto w p

def work : St :=
  match s.pc w with
  | .scan => scanStep s w
  | .tickle k => s.goto w (if 0 < s.idleCount then .tickleWrite k else k.pc)
  | .tickleWrite k => { s with pipe := s.pipe + 1 }.goto w k.pc
  | .dispatch none => s.goto w .idleTest
  | .dispatch (some e) => dispatchStep s w e
  | .dispatch2 e f => s.goto w (if s.state f = .exception then .skip e else .swapIn .test .fiber e f)
  | .reset p ft f => resetStep s w ft f p
  | .swapIn p b e f => swapInStep s w b e f p
  | .leaving y b e f => leavingStep s w b e f y
  | .swapOut fin b e f =>
    { s with
      ctx := update s.ctx f (if fin then .finished else .suspended)
      saved := update s.saved f true }.goto w (.count b e f)
  | .count b e f => countStep s w e (.after .ready b f)
  | .after p b f => afterStep s w b f p
  | .requeue b f => requeueStep s w b f
  | .skip e => countStep s w e .scan
  | .idleTest => s.goto w (if s.idle w = .terminate then .exited else .idleInc)
  | .idleInc => { s with idleCount := s.idleCount + 1, idle := update s.idle w .execute }.goto w .idleCheck
  | .idleWoke => s.goto w .idleDec
  | .idleDec =>
    { s with
      idleCount := decCount s.idleCount
      idle := update s.idle w (if s.idle w = FiberState.terminate then .terminate else .holding) }.goto w .scan
  | .off | .running .. | .idleCheck | .idleWait | .exited => s

/-- `if(stopping(next_timeout)) break;` in `idle`: the last writer of the cascade, or the wait -/
def checkStep (quiet : Bool) : St :=
  if quiet && stoppingNow s then
    { s with pipe := s.pipe + 1, idle := update s.idle w .terminate }.goto w .idleDec
  else s.goto w .idleWait

/-- user code can only name fibers that exist -/
def Item.known (i : Item) : Prop := ∀ f ∈ i.task.fiberPtr, f < s.nextFiber

end

instance (s : St) (i : Item) : Decidable (i.known s) := by unfold Item.known; infer_instance

def scheduleStep (s : St) (c : ℕ) (items : List Item) : St :=
  if s.callers c = .outside ∧ ∀ i ∈ items, i.known s then
    let r := scheduleItems s.queue s.nextTicket items
    { s with
      queue := r.1
      nextTicket := s.nextTicket + items.length
      pushed := s.pushed ++ r.1.drop s.queue.length
      callers := update s.callers c (if r.2 then .tickle else .outside) }
  else s

/-- the two steps of `IOManager::tickle` for a caller -/
def callerStep (s : St) (c : ℕ) : St :=
  match s.callers c with
  | .outside => s
  | .tickle => { s with callers := update s.callers c (if 0 < s.idleCount then .write else .outside) }
  | .write => { s with pipe := s.pipe + 1, callers := update s.callers c .outside }

/-- one step; operations that are not enabled leave the state alone -/
def stepLive (s : St) : Op → St
  | .start w => if s.pc w = .off then { s with threads := s.threads ++ [w] }.goto w .scan else s
  | .work w => work s w
  | .leave w y =>
    match s.pc w with
    | .running b e f => leaveStep s w b e f y
    | _ => s
  | .check w quiet => if s.pc w = .idleCheck then checkStep s w quiet else s
  | .wake w => if s.pc w = .idleWait then s.goto w .idleWoke else s
  | .drain w => if s.pc w = .idleWoke then { s with pipe := 0 } else s
  | .schedule c items => scheduleStep s c items
  | .call c => if s.callers c = .outside then { s with callers := update s.callers c .tickle } else s
  | .caller c => callerStep s c
  | .newFiber fn =>
    { s with
      state := update s.state s.nextFiber .init
      callback := update s.callback s.nextFiber (some ⟨fn, none⟩)
      ctx := update s.ctx s.nextFiber .entry
      saved := update s.saved s.nextFiber true
      nextFiber := s.nextFiber + 1 }
  | .setStop a b => { s with autoStop := a, stopping := b }

def step (s : St) (o : Op) : St := if s.aborted then s else stepLive s o

end CoServer.Scheduler
