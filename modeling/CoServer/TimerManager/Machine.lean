/-
`Timer` and `TimerManager` (`timer.cpp`) as one machine: any number of threads calling `addTimer`, `cancel`, `refresh`,
`reset`, `getNextTimer` and `listExpiredCb`.

Each read- or write-locked section is one step, and so is each clock reading made outside the lock (the constructor of a
timer, the first line of `listExpiredCb`), the unlocked comparison at the start of `reset`, and the call of
`onTimerInsertedAtFront` after the lock is released. A timer is named by a serial number; its address, by which the set
breaks ties, is chosen by the allocator among those that no live object has. `free` ends the life of a timer that is not
in the set. All times are 64-bit: sums and differences wrap.

Every operation that takes place at some clock time carries that time, whether or not the code reads it; the `clock` log
records them. Further ghost data: `base` (the clock reading a deadline counts from), `setAt` (the position in the clock
log at which it was last set), the logs `added`, `cancelled` and `fired`; and for the last `getNextTimer` the deadlines
it had before it (`seen`) and whether `onTimerInsertedAtFront` was called since (`notified`).
-/
import CoServer.Core.OrderedSet
import CoServer.Core.Run

namespace CoServer.TimerManager

open CoServer.Core Function

/-! ## Data -/

/-- `a + b` of 64-bit values -/
def add64 (a b : ℕ) : ℕ := (a + b) % 2 ^ 64

/-- `a - b` of 64-bit values -/
def sub64 (a b : ℕ) : ℕ := (a + (2 ^ 64 - b % 2 ^ 64)) % 2 ^ 64

structure Timer where
  recurring : Bool
  ms : ℕ
  next : ℕ
  callback : Option ℕ
  addr : ℕ
deriving DecidableEq

/-- `Timer::Comparator`; the pointers in the set are never null -/
def less (a b : Timer) : Bool :=
  if a.next < b.next then true
  else if b.next < a.next then false
  else a.addr < b.addr

/-- a thread with respect to the manager -/
inductive Call where
  | idle
  /-- `addTimer`, the timer made and the lock not taken -/
  | adding (id : ℕ)
  /-- the lock released, before `onTimerInsertedAtFront()` -/
  | notify
  /-- `reset`, before the lock -/
  | resetting (id ms : ℕ) (fromNow : Bool)
  /-- `listExpiredCb`, before the read-locked test; with the time read, and its position in the clock log -/
  | expiring (now pos : ℕ)
  /-- `listExpiredCb`, before the write lock -/
  | collecting (now pos : ℕ)
  | returned (ok : Bool)
  /-- has returned from `getNextTimer` -/
  | timeout (ms : ℕ)
deriving DecidableEq

structure St where
  timers : ℕ → Timer
  /-- timers `0 .. nextId - 1` were made -/
  nextId : ℕ
  freed : List ℕ
  /-- `_timers` -/
  set : List ℕ
  /-- `_tickled` -/
  tickled : Bool
  previousTime : ℕ
  calls : ℕ → Call
  base : ℕ → ℕ
  setAt : ℕ → ℕ
  clock : List ℕ
  added : List ℕ
  cancelled : List ℕ
  fired : List (ℕ × Option ℕ)
  seen : Option (List ℕ)
  notified : Bool

inductive Op where
  /-- the constructor, called by `addTimer` -/
  | construct (t now ms : ℕ) (callback : Option ℕ) (recurring : Bool) (addr : ℕ)
  /-- the locked section of `addTimer` -/
  | insert (t : ℕ)
  | notify (t : ℕ)
  | cancel (t id : ℕ)
  | refresh (t now id : ℕ)
  /-- the comparison at the start of `reset` -/
  | reset (t id ms : ℕ) (fromNow : Bool)
  | resetLocked (t now : ℕ)
  | getNextTimer (t now : ℕ)
  /-- the clock reading of `listExpiredCb` -/
  | expire (t now : ℕ)
  /-- its read-locked test -/
  | expireTest (t : ℕ)
  /-- its write-locked section; `addr` is the address of `now_timer` -/
  | expireLocked (t addr : ℕ)
  /-- the last pointer to a timer is dropped -/
  | free (id : ℕ)
deriving DecidableEq

/-- the manager after its constructor, at time `now` -/
def init (now : ℕ) : St where
  timers := fun _ => ⟨false, 0, 0, none, 0⟩
  nextId := 0
  freed := []
  set := []
  tickled := false
  previousTime := now
  calls := fun _ => .idle
  base := fun _ => 0
  setAt := fun _ => 0
  clock := [now]
  added := []
  cancelled := []
  fired := []
  seen := none
  notified := false

/-! ## The set -/

section

variable (s : St)

/-- the comparator on the timers of the set -/
def St.lt (a b : ℕ) : Bool := less (s.timers a) (s.timers b)

def St.setTimer (id : ℕ) (x : Timer) : St := { s with timers := update s.timers id x }

/-- a clock reading -/
def St.tick (now : ℕ) : St := { s with clock := s.clock ++ [now] }

/-- the deadline of a timer becomes `next`, counted from the reading `base` at position `pos` of the clock log -/
def St.arm (id : ℕ) (next base pos : ℕ) : St :=
  { s with
    timers := update s.timers id { s.timers id with next := next }
    base := update s.base id base
    setAt := update s.setAt id pos }

def St.insertTimer (id : ℕ) : St := { s with set := OrderedSet.insert s.lt id s.set }

def St.ret (t : ℕ) (c : Call) : St := { s with calls := update s.calls t c }

/-- `addTimer(timer, lock)` up to the release of the lock -/
def addTimerLocked (t id : ℕ) : St :=
  let s := s.insertTimer id
  let atFront := s.set.head? == some id && !s.tickled
  { s with tickled := s.tickled || atFront }.ret t (if atFront then .notify else .returned true)

/-! ## `Timer` -/

/-- the constructor, called by `addTimer` at the clock reading `now` -/
def construct (t now ms : ℕ) (callback : Option ℕ) (recurring : Bool) (addr : ℕ) : St :=
  let id := s.nextId
  let s := { (s.tick now).setTimer id ⟨recurring, ms, 0, callback, addr⟩ with nextId := id + 1 }
  (s.arm id (add64 now ms) now (s.clock.length - 1)).ret t (.adding id)

def cancelLocked (t id : ℕ) : St :=
  match (s.timers id).callback with
  | some _ =>
    let s := s.setTimer id { s.timers id with callback := none }
    let set := match OrderedSet.find s.lt id s.set with
      | some y => s.set.erase y
      | none => s.set
    { s with set := set, cancelled := s.cancelled ++ [id] }.ret t (.returned true)
  | none => s.ret t (.returned false)

def refreshLocked (t now id : ℕ) : St :=
  if (s.timers id).callback = none then s.ret t (.returned false)
  else match OrderedSet.find s.lt id s.set with
    | none => s.ret t (.returned false)
    | some y =>
      let s := { s with set := s.set.erase y }
      let s := s.arm id (add64 now (s.timers id).ms) now (s.clock.length - 1)
      (s.insertTimer id).ret t (.returned true)

def resetLocked (t now id ms : ℕ) (fromNow : Bool) : St :=
  if (s.timers id).callback = none then s.ret t (.returned false)
  else match OrderedSet.find s.lt id s.set with
    | none => s.ret t (.returned false)
    | some y =>
      let s := { s with set := s.set.erase y }
      let start := if fromNow then now else sub64 (s.timers id).next (s.timers id).ms
      let base := if fromNow then now else s.base id
      let s := s.setTimer id { s.timers id with ms := ms }
      addTimerLocked (s.arm id (add64 start ms) base (s.clock.length - 1)) t id

/-! ## `TimerManager` -/

/-- the value returned by `getNextTimer` -/
def nextTimeout (now : ℕ) : ℕ :=
  match s.set with
  | [] => 2 ^ 64 - 1
  | id :: _ => if (s.timers id).next ≤ now then 0 else (s.timers id).next - now

def hasTimer : Bool := !s.set.isEmpty

/-- the result of `detectClockRollover`; one hour is 60 * 60 * 1000 ms -/
def rolledOver (previousTime now : ℕ) : Bool := now < previousTime && now < sub64 previousTime (60 * 60 * 1000)

/-- the cut of the set at `now`: `lower_bound(now_timer)`, then past the timers due exactly now -/
def cut (now addr : ℕ) : List ℕ × List ℕ :=
  let nowTimer : Timer := ⟨false, 0, now, none, addr⟩
  let before := s.set.takeWhile fun id => less (s.timers id) nowTimer
  let rest := s.set.dropWhile fun id => less (s.timers id) nowTimer
  (before ++ rest.takeWhile (fun id => (s.timers id).next = now), rest.dropWhile fun id => (s.timers id).next = now)

/-- the loop body over the expired timers -/
def expireOne (now pos : ℕ) (s : St) (id : ℕ) : St :=
  let s := { s with fired := s.fired ++ [(id, (s.timers id).callback)] }
  if (s.timers id).recurring then (s.arm id (add64 now (s.timers id).ms) now pos).insertTimer id
  else s.setTimer id { s.timers id with callback := none }

/-- the timers that the section expires, and those it leaves -/
def due (now addr : ℕ) : List ℕ × List ℕ := if rolledOver s.previousTime now then (s.set, []) else cut s now addr

/-- the write-locked section of `listExpiredCb` -/
def expireSection (now pos addr : ℕ) : St :=
  match s.set with
  | [] => s
  | first :: _ =>
    let d := due s now addr
    if !rolledOver s.previousTime now && decide ((s.timers first).next > now) then { s with previousTime := now }
    else d.1.foldl (expireOne now pos) { s with previousTime := now, set := d.2 }

/-! ## Steps -/

/-- the thread is not inside a call -/
def Call.free : Call → Bool
  | .idle | .returned _ | .timeout _ => true
  | _ => false

/-- an object is alive unless it was freed -/
def St.alive (id : ℕ) : Prop := id < s.nextId ∧ id ∉ s.freed

end

instance (s : St) (id : ℕ) : Decidable (s.alive id) := by unfold St.alive; infer_instance

/-- user code has the timer from the return of `addTimer` until it drops the pointer -/
def St.usable (s : St) (id : ℕ) : Prop := id ∈ s.added ∧ id ∉ s.freed

instance (s : St) (id : ℕ) : Decidable (s.usable id) := by unfold St.usable; infer_instance

def step (s : St) : Op → St
  | .construct t now ms callback recurring addr =>
    if (s.calls t).free = true ∧ ∀ i < s.nextId, i ∉ s.freed → (s.timers i).addr ≠ addr then
      construct s t now ms callback recurring addr
    else s
  | .insert t =>
    match s.calls t with
    | .adding id => addTimerLocked { s with added := s.added ++ [id] } t id
    | _ => s
  | .notify t => if s.calls t = .notify then { s with notified := true }.ret t (.returned true) else s
  | .cancel t id => if (s.calls t).free = true ∧ s.usable id then cancelLocked s t id else s
  | .refresh t now id => if (s.calls t).free = true ∧ s.usable id then refreshLocked (s.tick now) t now id else s
  | .reset t id ms fromNow =>
    if (s.calls t).free = true ∧ s.usable id then
      s.ret t (if ms = (s.timers id).ms ∧ fromNow = false then .returned true else .resetting id ms fromNow)
    else s
  | .resetLocked t now =>
    match s.calls t with
    | .resetting id ms fromNow => if s.usable id then resetLocked (s.tick now) t now id ms fromNow else s
    | _ => s
  | .getNextTimer t now =>
    if (s.calls t).free then
      { s.tick now with
        tickled := false
        seen := some (s.set.map fun id => (s.timers id).next)
        notified := false }.ret t (.timeout (nextTimeout s now))
    else s
  | .expire t now => if (s.calls t).free then (s.tick now).ret t (.expiring now s.clock.length) else s
  | .expireTest t =>
    match s.calls t with
    | .expiring now pos => s.ret t (if s.set = [] then .returned true else .collecting now pos)
    | _ => s
  | .expireLocked t addr =>
    match s.calls t with
    | .collecting now pos => (expireSection s now pos addr).ret t (.returned true)
    | _ => s
  | .free id => if id ∈ s.added ∧ id ∉ s.set ∧ id ∉ s.freed then { s with freed := s.freed ++ [id] } else s

end CoServer.TimerManager
