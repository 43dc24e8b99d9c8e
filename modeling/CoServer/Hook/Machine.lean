/-
Hooked socket calls (`hook.cpp`): `doIo` and `connect_with_timeout`, with their timeout callbacks, over the `IOManager`
machine.

A step is one locked section or one access to shared data. `addEvent` and `cancelEvent` are the calls of the `IOManager`
machine, made by threads of their own: `caller c` for the hooked call `c`, `runner j` for the callback of timer `j`; the
remaining threads belong to the rest of the program. A timer is armed until it is cancelled or its callback is taken for
execution, at any time; `timer->cancel()` has no effect after that.
-/
import CoServer.IOManager.Contexts

namespace CoServer.Hook

open Scheduler (Task FiberState)
open IOManager (Event AddArgs)

/-! ## Entering a hooked call -/

/-- an `FdCtx`, as far as the hooks read it -/
structure FdCtx where
  isSocket : Bool
  isClosed : Bool
  userNonblock : Bool
  recvTimeout : ℕ
  sendTimeout : ℕ
deriving DecidableEq

/-- `SO_RCVTIMEO`, `SO_SNDTIMEO` -/
inductive TimeoutType where
  | recv
  | send
deriving DecidableEq

def FdCtx.getTimeout (ctx : FdCtx) : TimeoutType → ℕ
  | .recv => ctx.recvTimeout
  | .send => ctx.sendTimeout

/-- how a hooked call begins: it calls the original function, fails with `EBADF`, or goes through the `IOManager` -/
inductive Entry where
  | direct
  | badFd
  | hooked (timeout : ℕ)
deriving DecidableEq

def doIoEntry (hookEnable : Bool) (ctx : Option FdCtx) (timeoutSo : TimeoutType) : Entry :=
  if hookEnable = false then .direct
  else match ctx with
    | none => .direct
    | some ctx =>
      if ctx.isClosed then .badFd
      else if ctx.isSocket = false ∨ ctx.userNonblock = true then .direct
      else .hooked (ctx.getTimeout timeoutSo)

def connectEntry (hookEnable : Bool) (ctx : Option FdCtx) (timeoutMs : ℕ) : Entry :=
  if hookEnable = false then .direct
  else match ctx with
    | none => .badFd
    | some ctx =>
      if ctx.isClosed then .badFd
      else if ctx.isSocket = false then .direct
      else if ctx.userNonblock then .direct
      else .hooked timeoutMs

/-- `static_cast<uint64_t>(-1)`: wait without a timer -/
def noTimeout : ℕ := 2 ^ 64 - 1

/-! ## Data -/

/-- which function is called, with what its entry reads -/
inductive Kind where
  | doIo (event : Event) (timeoutSo : TimeoutType)
  | connect (timeoutMs : ℕ)
deriving DecidableEq

/-- `connect_with_timeout` waits for `Write` -/
def Kind.event : Kind → Event
  | .doIo event _ => event
  | .connect _ => .write

def Kind.entry (kind : Kind) (hookEnable : Bool) (ctx : Option FdCtx) : Entry :=
  match kind with
  | .doIo _ timeoutSo => doIoEntry hookEnable ctx timeoutSo
  | .connect timeoutMs => connectEntry hookEnable ctx timeoutMs

/-- the result of the original function: `n != -1`, `EINTR`, `EAGAIN` (of `connect`: `EINPROGRESS`), another error -/
inductive Attempt where
  | done
  | interrupted
  | wouldBlock
  | failed
deriving DecidableEq

/-- a place in a call -/
inductive Pc where
  | idle
  /-- at `retry`, before the original function -/
  | trying
  /-- before `addConditionTimer` -/
  | arming
  /-- in `addEvent` -/
  | adding (timer : Option ℕ)
  /-- the event is registered, before `yieldToHold` -/
  | holding (timer : Option ℕ) (ticket : ℕ)
  | suspended (timer : Option ℕ) (ticket : ℕ)
  /-- before `timer->cancel()` -/
  | resumed (timer : Option ℕ)
  /-- `addEvent` failed, before `timer->cancel()` -/
  | addFailed (timer : Option ℕ)
  /-- before `if(tinfo->cancelled)` -/
  | checking
  | returned
deriving DecidableEq

structure Call where
  kind : Kind
  fd : ℕ
  timeout : ℕ
  scheduler : ℕ
  fiber : ℕ
  /-- `tinfo->cancelled` is set -/
  cancelled : Bool := false
  pc : Pc := .idle
deriving DecidableEq

/-- what `addEvent` is called with: no callback, so the running fiber is registered -/
def Call.args (x : Call) : AddArgs := ⟨x.kind.event, none, some x.scheduler, x.fiber, .execute⟩

/-- a timer and its callback -/
inductive TimerStage where
  | unused
  | armed
  /-- dropped by `timer->cancel()` -/
  | cancelled
  /-- taken for execution, before `winfo.lock()` -/
  | due
  /-- before it reads `t->cancelled` -/
  | locked
  /-- before it sets `t->cancelled` -/
  | passed
  /-- before the lookup of `cancelEvent` -/
  | marked
  /-- in `cancelEvent`, before the lock of the context -/
  | cancelling
  | done
deriving DecidableEq

structure Timer where
  owner : ℕ
  stage : TimerStage
deriving DecidableEq

structure St where
  io : IOManager.St
  calls : ℕ → Call
  timers : ℕ → Timer
  nextTimer : ℕ

/-- the threads of the `IOManager` machine -/
def caller (c : ℕ) : ℕ := 3 * c

def runner (j : ℕ) : ℕ := 3 * j + 1

/-- a step of the rest of the program: a thread of its own, or the loop of `idle`, or the kernel -/
def Foreign : IOManager.Op → Prop
  | .call t _ _ | .resize t | .enter t _ => t % 3 = 2
  | .wait .. | .deliver .. | .close _ => True

instance : (o : IOManager.Op) → Decidable (Foreign o)
  | .call t _ _ | .resize t | .enter t _ => inferInstanceAs (Decidable (t % 3 = 2))
  | .wait .. | .deliver .. | .close _ => isTrue trivial

inductive Op where
  /-- fiber `fiber` of scheduler `scd` makes a hooked call on `fd` -/
  | call (c : ℕ) (kind : Kind) (fd scd fiber : ℕ) (hookEnable : Bool) (ctx : Option FdCtx)
  /-- the original function -/
  | attempt (c : ℕ) (res : Attempt)
  /-- `addConditionTimer` -/
  | arm (c : ℕ)
  /-- the lookup of `addEvent` -/
  | addLookup (c : ℕ)
  /-- the write-locked section of `addEvent` -/
  | addResize (c : ℕ)
  /-- the section of `addEvent` under the lock of the context, and its return -/
  | addEnter (c : ℕ) (ok : Bool)
  | hold (c : ℕ)
  | resume (c : ℕ)
  /-- `if(timer) timer->cancel()` -/
  | cancelTimer (c : ℕ)
  /-- `if(tinfo->cancelled)` -/
  | check (c : ℕ)
  /-- the callback of timer `j` is taken for execution -/
  | expire (j : ℕ)
  | lock (j : ℕ)
  | read (j : ℕ)
  /-- `t->cancelled = ETIMEDOUT` -/
  | mark (j : ℕ)
  /-- the lookup of `cancelEvent` -/
  | cancelLookup (j : ℕ)
  /-- the section of `cancelEvent` under the lock of the context -/
  | cancelEnter (j : ℕ) (ok : Bool)
  | other (o : IOManager.Op)
deriving DecidableEq

def init : St where
  io := IOManager.init
  calls := fun _ => { kind := .connect 0, fd := 0, timeout := 0, scheduler := 0, fiber := 0 }
  timers := fun _ => ⟨0, .unused⟩
  nextTimer := 0

/-! ## Steps -/

variable (s : St)

def St.setCall (c : ℕ) (x : Call) : St := { s with calls := Function.update s.calls c x }

def St.setPc (c : ℕ) (pc : Pc) : St := s.setCall c { s.calls c with pc := pc }

def St.setStage (j : ℕ) (stage : TimerStage) : St :=
  { s with timers := Function.update s.timers j { s.timers j with stage := stage } }

/-- after the original function returned -/
def afterAttempt : Kind → Attempt → Pc
  | _, .wouldBlock => .arming
  | .doIo _ _, .interrupted => .trying
  | _, _ => .returned

/-- `addConditionTimer` if the timeout is finite -/
def arm (c : ℕ) : St :=
  if (s.calls c).timeout = noTimeout then s.setPc c (.adding none)
  else { s with
    timers := Function.update s.timers s.nextTimer ⟨c, .armed⟩
    nextTimer := s.nextTimer + 1 }.setPc c (.adding (some s.nextTimer))

/-- where the call goes on after the locked section of `addEvent` -/
def afterAdd (io io' : IOManager.St) (c : ℕ) (timer : Option ℕ) : Pc :=
  match io'.calls (caller c) with
  | .returned true => .holding timer io.registered.length
  | .returned false => .addFailed timer
  | _ => .adding timer

/-- `timer->cancel()`: no effect on a callback that was taken for execution -/
def cancelTimer : Option ℕ → St
  | none => s
  | some j => if (s.timers j).stage = .armed then s.setStage j .cancelled else s

/-- `cancelEvent` has returned, or waits for the lock of the context -/
def afterCancel (io : IOManager.St) (j : ℕ) : TimerStage := if (io.calls (runner j)).free then .done else .cancelling

/-- after `if(tinfo->cancelled)`: `doIo` tries again, `connect_with_timeout` asks for `SO_ERROR` and returns -/
def afterCheck (x : Call) : Pc :=
  if x.cancelled then .returned
  else match x.kind with
    | .doIo _ _ => .trying
    | .connect _ => .returned

def stepLive : Op → St
  | .call c kind fd scd fiber hookEnable ctx =>
    if (s.calls c).pc = .idle then
      match kind.entry hookEnable ctx with
      | .hooked timeout => s.setCall c { kind, fd, timeout, scheduler := scd, fiber, pc := .trying }
      | .direct | .badFd => s.setPc c .returned
    else s
  | .attempt c res => if (s.calls c).pc = .trying then s.setPc c (afterAttempt (s.calls c).kind res) else s
  | .arm c => if (s.calls c).pc = .arming then arm s c else s
  | .addLookup c =>
    match (s.calls c).pc with
    | .adding _ => { s with io := IOManager.step s.io (.call (caller c) (.add (s.calls c).args) (s.calls c).fd) }
    | _ => s
  | .addResize c =>
    match (s.calls c).pc with
    | .adding _ => { s with io := IOManager.step s.io (.resize (caller c)) }
    | _ => s
  | .addEnter c ok =>
    match (s.calls c).pc with
    | .adding timer =>
      if (s.io.calls (caller c)).free then s
      else
        let io' := IOManager.step s.io (.enter (caller c) ok)
        { s with io := io' }.setPc c (afterAdd s.io io' c timer)
    | _ => s
  | .hold c =>
    match (s.calls c).pc with
    | .holding timer ticket => s.setPc c (.suspended timer ticket)
    | _ => s
  | .resume c =>
    match (s.calls c).pc with
    | .suspended timer ticket =>
      -- the registration was resolved by scheduling the fiber
      if ∃ y ∈ s.io.resolved, y.1 = ticket ∧ y.2 ≠ .dropped then s.setPc c (.resumed timer) else s
    | _ => s
  | .cancelTimer c =>
    match (s.calls c).pc with
    | .resumed timer => (cancelTimer s timer).setPc c .checking
    | .addFailed timer => (cancelTimer s timer).setPc c .returned
    | _ => s
  | .check c => if (s.calls c).pc = .checking then s.setPc c (afterCheck (s.calls c)) else s
  | .expire j => if (s.timers j).stage = .armed then s.setStage j .due else s
  | .lock j =>
    if (s.timers j).stage = .due then
      -- `tinfo` lives as long as the call
      s.setStage j (if (s.calls (s.timers j).owner).pc = .returned then .done else .locked)
    else s
  | .read j =>
    if (s.timers j).stage = .locked then
      s.setStage j (if (s.calls (s.timers j).owner).cancelled then .done else .passed)
    else s
  | .mark j =>
    if (s.timers j).stage = .passed then
      let c := (s.timers j).owner
      (s.setCall c { s.calls c with cancelled := true }).setStage j .marked
    else s
  | .cancelLookup j =>
    if (s.timers j).stage = .marked then
      let x := s.calls (s.timers j).owner
      let io' := IOManager.step s.io (.call (runner j) (.cancel x.kind.event) x.fd)
      { s with io := io' }.setStage j (afterCancel io' j)
    else s
  | .cancelEnter j ok =>
    if (s.timers j).stage = .cancelling then
      let io' := IOManager.step s.io (.enter (runner j) ok)
      { s with io := io' }.setStage j (afterCancel io' j)
    else s
  | .other o => if Foreign o then { s with io := IOManager.step s.io o } else s

/-- after a failed assertion nothing moves -/
def step (o : Op) : St := if s.io.aborted.isSome then s else stepLive s o

end CoServer.Hook
