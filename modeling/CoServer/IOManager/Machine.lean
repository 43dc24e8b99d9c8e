/-
The event side of `IOManager` (`iomanager.cpp`): `addEvent`, `delEvent`, `cancelEvent`, `cancelAll`, and the delivery
loop of `idle`, interleaved by any number of threads over any number of fds.

A call is a read-locked lookup of the `FdContext`, for `addEvent` possibly a write-locked `contextResize`, then one
section under the lock of the context. `epoll_wait` is a step of its own: it takes a snapshot of reports, and each is
delivered later, under the lock of its context.

`FdContext` objects live in a heap (`ctxs`, by address) and are never freed while the manager runs. `kernel` is the
interest list of the epoll instance: an fd with the pointer and the mask last given to `epoll_ctl`. `ADD` of a present
fd and `MOD` or `DEL` of an absent one fail; any call may fail for other reasons (`ok = false`); closing an fd drops its
entry.

Failed assertions abort, as do the call through a null `Scheduler*` and a read outside the vector: nothing moves any
more. What a call reads from its thread is part of the operation: `Scheduler::getThis()`, `Fiber::getThis()` and the
state of that fiber.

Ghost data: the `ticket` of an `EventContext` (serial number of the successful `addEvent`), and the logs `registered`
and `resolved`.
-/
import CoServer.Scheduler.Machine

namespace CoServer.IOManager

open Function
open Scheduler (Task FiberState decCount)

/-! ## Data -/

/-- `IOManager::Event` -/
inductive Event where
  | none
  | read
  | write
deriving DecidableEq

/-- a set of the bits `Read` and `Write` (equal to `EPOLLIN` and `EPOLLOUT`) -/
structure Mask where
  read : Bool
  write : Bool
deriving DecidableEq

namespace Mask

def empty : Mask := ⟨false, false⟩

variable (m : Mask)

/-- `m & event` -/
def has : Event → Bool
  | .none => false
  | .read => m.read
  | .write => m.write

/-- `m | event` -/
def add : Event → Mask
  | .none => m
  | .read => { m with read := true }
  | .write => { m with write := true }

/-- `m & ~event` -/
def remove : Event → Mask
  | .none => m
  | .read => { m with read := false }
  | .write => { m with write := false }

def inter (m n : Mask) : Mask := ⟨m.read && n.read, m.write && n.write⟩

def union (m n : Mask) : Mask := ⟨m.read || n.read, m.write || n.write⟩

def diff (m n : Mask) : Mask := ⟨m.read && !n.read, m.write && !n.write⟩

def isEmpty : Bool := !m.read && !m.write

def card : ℕ := m.read.toNat + m.write.toNat

end Mask

/-- `FdContext::EventContext`, with the ghost ticket of its registration -/
structure EventContext where
  scheduler : Option ℕ := none
  fiber : Option ℕ := none
  callback : Option ℕ := none
  ticket : Option ℕ := none
deriving DecidableEq

/-- `scheduler || fiber || callback` -/
def EventContext.nonempty (x : EventContext) : Bool := x.scheduler.isSome || x.fiber.isSome || x.callback.isSome

structure FdContext where
  fd : ℕ
  read : EventContext := {}
  write : EventContext := {}
  events : Mask := .empty
deriving DecidableEq

/-- failed assertions, the call through a null scheduler, and a read outside the vector -/
inductive Abort where
  | alreadyAdded
  | contextInUse
  | fiberState
  | invalidEvent
  | trigger
  | nullScheduler
  | cancelAll
  | outOfRange
deriving DecidableEq

/-- what `epoll_ctl` was last told about an fd -/
structure Interest where
  ptr : ℕ
  mask : Mask
deriving DecidableEq

inductive CtlOp where
  | add
  | mod
  | del
deriving DecidableEq

/-- an element of the array filled by `epoll_wait`: the pointer, `EPOLLIN` and `EPOLLOUT`, and `EPOLLERR | EPOLLHUP` -/
structure Report where
  ptr : ℕ
  bits : Mask
  err : Bool
deriving DecidableEq

/-- the arguments of `addEvent`, and what it reads from its thread -/
structure AddArgs where
  event : Event
  callback : Option ℕ
  scheduler : Option ℕ
  fiber : ℕ
  fiberState : FiberState
deriving DecidableEq

inductive Request where
  | add (a : AddArgs)
  | del (e : Event)
  | cancel (e : Event)
  | cancelAll
deriving DecidableEq

/-- a thread with respect to the manager -/
inductive Call where
  | idle
  /-- `addEvent` whose lookup failed, before the write lock -/
  | resize (fd : ℕ) (a : AddArgs)
  /-- holds the pointer, before the lock of the context -/
  | found (r : Request) (fd ptr : ℕ)
  /-- has returned 0 or true, respectively -1 or false -/
  | returned (ok : Bool)
deriving DecidableEq

/-- what a successful `addEvent` registered -/
structure Registration where
  ptr : ℕ
  event : Event
  scheduler : Option ℕ
  task : Task
deriving DecidableEq

inductive Outcome where
  | scheduled (scheduler : ℕ) (task : Task)
  | dropped
deriving DecidableEq

structure St where
  /-- the heap of contexts; addresses `0 .. nextCtx - 1` are allocated -/
  ctxs : ℕ → FdContext
  nextCtx : ℕ
  /-- `_fdContexts` -/
  vec : List ℕ
  /-- `_pendingEventCount` -/
  pending : ℕ
  kernel : ℕ → Option Interest
  calls : ℕ → Call
  /-- reports of a thread's last `epoll_wait` that are not delivered -/
  reports : ℕ → List Report
  registered : List Registration
  resolved : List (ℕ × Outcome)
  aborted : Option Abort

inductive Op where
  /-- the read-locked lookup at the start of a call; `fd` is a non-negative `int` -/
  | call (t : ℕ) (r : Request) (fd : ℕ)
  /-- the write-locked section of `addEvent` -/
  | resize (t : ℕ)
  /-- the section under the lock of the context; `ok`: `epoll_ctl` does not fail for reasons of its own -/
  | enter (t : ℕ) (ok : Bool)
  /-- `epoll_wait` reports these fds, each with some of its interest bits and possibly an error or hangup -/
  | wait (t : ℕ) (evs : List (ℕ × Mask × Bool))
  /-- the delivery of the next report -/
  | deliver (t : ℕ) (ok : Bool)
  /-- an fd is closed -/
  | close (fd : ℕ)
deriving DecidableEq

/-! ## The vector of contexts -/

variable (s : St)

/-- `_fdContexts.resize(size)`, and a new context for every null pointer -/
def contextResize (size : ℕ) : St :=
  let kept := s.vec.take size
  let fresh := size - kept.length
  { s with
    vec := kept ++ List.range' s.nextCtx fresh
    nextCtx := s.nextCtx + fresh
    ctxs := fun p => if s.nextCtx ≤ p then { fd := kept.length + (p - s.nextCtx) } else s.ctxs p }

/-- `static_cast<int>(size)` -/
def intOfSize (size : ℕ) : ℤ := if size % 2 ^ 32 < 2 ^ 31 then (size % 2 ^ 32 : ℕ) else (size % 2 ^ 32 : ℕ) - 2 ^ 32

/-- the read-locked lookup -/
def lookup (fd : ℕ) : Option ℕ := if intOfSize s.vec.length > (fd : ℤ) then s.vec[fd]? else none

/-- `static_cast<size_t>(fd * 1.5)` -/
def resizeTo (fd : ℕ) : ℕ := fd * 3 / 2

/-- the manager after its constructor -/
def init : St :=
  contextResize
    { ctxs := fun _ => { fd := 0 }
      nextCtx := 0
      vec := []
      pending := 0
      kernel := fun _ => none
      calls := fun _ => .idle
      reports := fun _ => []
      registered := []
      resolved := []
      aborted := none } 32

/-! ## `FdContext` -/

def FdContext.getContext (c : FdContext) : Event → Option EventContext
  | .none => none
  | .read => some c.read
  | .write => some c.write

/-- writes through the reference that `getContext` returned -/
def FdContext.setContext (c : FdContext) (e : Event) (x : EventContext) : FdContext :=
  match e with
  | .none => c
  | .read => { c with read := x }
  | .write => { c with write := x }

def FdContext.resetContext (c : FdContext) (e : Event) : FdContext := c.setContext e {}

/-- the log entry of the registration held by a context, if it holds one -/
def resolve (x : EventContext) (o : Outcome) : List (ℕ × Outcome) := (x.ticket.map fun k => (k, o)).toList

/-- `ctx.callback` if there is one, else `ctx.fiber` -/
def EventContext.task (x : EventContext) : Task :=
  match x.callback with
  | some fn => .callback (some fn)
  | none => .fiber x.fiber

/-- `FdContext::triggerEvent` on the context at `p` -/
def triggerEvent (p : ℕ) (e : Event) : Except Abort St :=
  let c := s.ctxs p
  if c.events.has e = false then .error .trigger
  else match c.getContext e with
    | none => .error .invalidEvent
    | some x => match x.scheduler with
      | none => .error .nullScheduler
      | some sch =>
        .ok { s with
          ctxs := update s.ctxs p ({ c with events := c.events.remove e }.resetContext e)
          resolved := s.resolved ++ resolve x (.scheduled sch x.task) }

def decPending : St := { s with pending := decCount s.pending }

/-- `if(b) { triggerEvent(e); --_pendingEventCount; }` -/
def triggerIf (b : Bool) (s : St) (p : ℕ) (e : Event) : Except Abort St :=
  if b then (triggerEvent s p e).map decPending else .ok s

/-! ## The kernel -/

variable (kernel : ℕ → Option Interest)

/-- `epoll_ctl`: none is a failure -/
def epollCtl (op : CtlOp) (fd : ℕ) (i : Interest) (ok : Bool) :
    Option (ℕ → Option Interest) :=
  match op with
  | .add => if ok ∧ kernel fd = none then some (update kernel fd (some i)) else none
  | .mod => if ok ∧ kernel fd ≠ none then some (update kernel fd (some i)) else none
  | .del => if ok ∧ kernel fd ≠ none then some (update kernel fd none) else none

/-- the reports that `epoll_wait` can make: bits of the interest mask only -/
def takeReports (evs : List (ℕ × Mask × Bool)) : List Report :=
  evs.filterMap fun v => (kernel v.1).map fun i => ⟨i.ptr, v.2.1.inter i.mask, v.2.2⟩

/-! ## Sections under the lock of a context -/

def St.ret (t : ℕ) (ok : Bool) : St := { s with calls := update s.calls t (.returned ok) }

/-- the `EventContext` that `addEvent` fills in -/
def AddArgs.slot (a : AddArgs) (ticket : ℕ) : EventContext :=
  match a.callback with
  | some fn => { scheduler := a.scheduler, callback := some fn, ticket := some ticket }
  | none => { scheduler := a.scheduler, fiber := some a.fiber, ticket := some ticket }

/-- the registration is complete -/
def register (p : ℕ) (a : AddArgs) (kernel : ℕ → Option Interest) : St :=
  let c := s.ctxs p
  let x := a.slot s.registered.length
  { s with
    kernel := kernel
    pending := s.pending + 1
    ctxs := update s.ctxs p ({ c with events := c.events.add a.event }.setContext a.event x)
    registered := s.registered ++ [⟨p, a.event, a.scheduler, x.task⟩] }

variable (t fd p : ℕ)

def addSection (a : AddArgs) (ok : Bool) : Except Abort St :=
  let c := s.ctxs p
  if c.events.has a.event then .error .alreadyAdded
  else
    let op := if c.events.isEmpty then CtlOp.add else .mod
    match epollCtl s.kernel op fd ⟨p, c.events.add a.event⟩ ok with
    | none => .ok (s.ret t false)
    | some kernel =>
      match c.getContext a.event with
      | none => .error .invalidEvent
      | some x =>
        if x.nonempty then .error .contextInUse
        else if a.callback = none ∧ a.fiberState ≠ .execute then .error .fiberState
        else .ok ((register s p a kernel).ret t true)

def delSection (e : Event) (ok : Bool) : Except Abort St :=
  let c := s.ctxs p
  if c.events.has e = false then .ok (s.ret t false)
  else
    let left := c.events.remove e
    match epollCtl s.kernel (if left.isEmpty then .del else .mod) fd ⟨p, left⟩ ok with
    | none => .ok (s.ret t false)
    | some kernel =>
      match c.getContext e with
      | none => .error .invalidEvent
      | some x =>
        .ok ((decPending { s with
          kernel := kernel
          ctxs := update s.ctxs p ({ c with events := left }.resetContext e)
          resolved := s.resolved ++ resolve x .dropped }).ret t true)

def cancelSection (e : Event) (ok : Bool) : Except Abort St :=
  let c := s.ctxs p
  if c.events.has e = false then .ok (s.ret t false)
  else
    let left := c.events.remove e
    match epollCtl s.kernel (if left.isEmpty then .del else .mod) fd ⟨p, left⟩ ok with
    | none => .ok (s.ret t false)
    | some kernel => do
      let s ← triggerIf true { s with kernel := kernel } p e
      return s.ret t true

def cancelAllSection (ok : Bool) : Except Abort St :=
  let c := s.ctxs p
  if c.events.isEmpty then .ok (s.ret t false)
  else
    match epollCtl s.kernel .del fd ⟨p, .empty⟩ ok with
    | none => .ok (s.ret t false)
    | some kernel => do
      let s ← triggerIf (c.events.has .read) { s with kernel := kernel } p .read
      let s ← triggerIf ((s.ctxs p).events.has .write) s p .write
      if (s.ctxs p).events.isEmpty then return s.ret t true else throw .cancelAll

/-- `real_events`: the reported bits, widened by the registered ones on an error or hangup -/
def realEvents (r : Report) (events : Mask) : Mask := if r.err then r.bits.union events else r.bits

/-- one turn of the delivery loop of `idle` -/
def deliverSection (r : Report) (ok : Bool) : Except Abort St :=
  let c := s.ctxs r.ptr
  let real := realEvents r c.events
  if (c.events.inter real).isEmpty then .ok s
  else
    let left := c.events.diff real
    match epollCtl s.kernel (if left.isEmpty then .del else .mod) c.fd ⟨r.ptr, left⟩ ok with
    | none => .ok s
    | some kernel => do
      let s ← triggerIf real.read { s with kernel := kernel } r.ptr .read
      triggerIf real.write s r.ptr .write

def requestSection (ok : Bool) : Request → Except Abort St
  | .add a => addSection s t fd p a ok
  | .del e => delSection s t fd p e ok
  | .cancel e => cancelSection s t fd p e ok
  | .cancelAll => cancelAllSection s t fd p ok

/-! ## Steps -/

/-- the thread is not inside a call -/
def Call.free : Call → Bool
  | .idle | .returned _ => true
  | _ => false

/-- the lookup: a pointer, or a resize for `addEvent`, or the return of false -/
def afterLookup (r : Request) (fd : ℕ) : Call :=
  match lookup s fd, r with
  | some p, r => .found r fd p
  | none, .add a => .resize fd a
  | none, _ => .returned false

/-- the write-locked section -/
def resizeSection (t fd : ℕ) (a : AddArgs) : Except Abort St :=
  let s := contextResize s (resizeTo fd)
  match s.vec[fd]? with
  | some p => .ok { s with calls := update s.calls t (.found (.add a) fd p) }
  | none => .error .outOfRange

/-- a section that fails an assertion aborts the program -/
def St.commit : Except Abort St → St
  | .ok s' => s'
  | .error a => { s with aborted := some a }

def stepLive : Op → St
  | .call t r fd =>
    if (s.calls t).free = true ∧ fd < 2 ^ 31 then { s with calls := update s.calls t (afterLookup s r fd) }
    else s
  | .resize t =>
    match s.calls t with
    | .resize fd a => s.commit (resizeSection s t fd a)
    | _ => s
  | .enter t ok =>
    match s.calls t with
    | .found r fd p => s.commit (requestSection s t fd p ok r)
    | _ => s
  | .wait t evs => if s.reports t = [] then { s with reports := update s.reports t (takeReports s.kernel evs) } else s
  | .deliver t ok =>
    match s.reports t with
    | [] => s
    | r :: rs => s.commit (deliverSection { s with reports := update s.reports t rs } r ok)
  | .close fd => { s with kernel := update s.kernel fd none }

def step (o : Op) : St := if s.aborted.isSome then s else stepLive s o

end CoServer.IOManager
