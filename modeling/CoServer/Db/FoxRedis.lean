/-
`FoxRedis` (src/db/redis.cpp): one asynchronous redis connection, on its event thread.

Everything happens in callbacks of the event thread: `pinit` and `pcmd` are dispatched to it, hiredis calls `ConnectCb`,
`DisconnectCb` and `CmdCb`, libevent calls `TimeCb` for the keep-alive timer and `EventCb` for the timer of a command.
hiredis may call back for every context it has not freed, in any order; it frees one after the callback of a failed
connect or of a disconnect returns. It calls the callback of a command once, and that of a SUBSCRIBE, PSUBSCRIBE or
MONITOR for every message. `_context` is never reset when its context is freed. `trace` is kept for the statements.

Results:
- `step_steps`: what an event can do;
- `contexts_alive_iff`: in every order of events, no command is given to hiredis on a freed context iff the keep-alive
  timer does not fire while the connection is unconnected;
- `ping_after_disconnect`: a run in which it does.
-/
import CoServer.Core.Run
import CoServer.Core.Update

namespace CoServer.Db.FoxRedis

open CoServer.Core List

/-! ## The code -/

inductive Status where
  | unconnected
  | connecting
  | connected
deriving DecidableEq

/-- what `redisAsyncConnect` returns: null, or a context with or without an error -/
inductive Connect where
  | null
  | err
  | ok
deriving DecidableEq

/-- what `CmdCb` finds: `ac->err`, no reply, `REDIS_REPLY_ERROR` or another reply -/
inductive Reply where
  | err
  | null
  | error
  | value
deriving DecidableEq

/-- what hiredis has of a command's callback: nothing, to be called once, or to be called for every message -/
inductive Callback where
  | none
  | once
  | kept
deriving DecidableEq

/-- what it has after a call -/
def Callback.called : Callback → Callback
  | .none | .once => .none
  | .kept => .kept

/-- the `Ctx` of a command, on the heap -/
structure Ctx where
  timeout : Bool
  /-- its timer is added and has not fired -/
  armed : Bool
  pending : Callback
deriving DecidableEq

/-- a call of `cmd` -/
inductive Call where
  | idle
  /-- `pcmd` is dispatched -/
  | dispatched (cmd : List UInt8)
  | allocated (ctx : Ctx)
  /-- there is no `Ctx`, or it is deleted, with what its memory held -/
  | closed (ctx : Option Ctx)
deriving DecidableEq

inductive Act where
  /-- a command is given to hiredis on this context -/
  | use (c : Option ℕ) (alive : Bool)
  /-- a field of the caller's `FCtx` is read or written -/
  | touch (k : ℕ)
  | schedule (k : ℕ)
  | dispatch (k : ℕ)
  /-- the timer of the command fires -/
  | timeout (k : ℕ)
  /-- the callback of the command is called -/
  | reply (k : ℕ)
  /-- with a `Ctx` that is deleted -/
  | freed (k : ℕ)
deriving DecidableEq

structure State where
  status : Status
  context : Option ℕ
  /-- `_event` is not null -/
  event : Bool
  /-- the contexts that are attached to the event loop and not freed -/
  live : List ℕ
  /-- number of contexts attached -/
  next : ℕ
  call : ℕ → Call
  trace : List Act

inductive Event where
  /-- a fiber calls `cmd` -/
  | cmd (k : ℕ) (command : List UInt8)
  /-- the dispatched `pcmd` runs; `cb` says whether hiredis takes the command, and as which kind -/
  | pcmd (k : ℕ) (r : Connect) (cb : Callback)
  | pinit (r : Connect)
  | connect (c : ℕ) (ok : Bool)
  | disconnect (c : ℕ)
  /-- the keep-alive timer -/
  | timer
  | reply (k : ℕ) (r : Reply)
  | timeout (k : ℕ)

namespace State

variable (s : State)

def log (acts : List Act) : State := { s with trace := s.trace ++ acts }

/-- `redisAsyncCommand(_context.get(), ...)` -/
def use (s : State) : State := s.log [.use s.context (s.context.any fun c => s.live.contains c)]

def setCall (k : ℕ) (call : Call) : State := { s with call := Function.update s.call k call }

/-- `TimeCb` -/
def timeCb : State := s.use

def pinit (r : Connect) : State :=
  if s.status ≠ .unconnected then s
  else
    match r with
    | .null | .err => s
    | .ok =>
      timeCb { s with
        status := .connecting
        context := some s.next
        event := true
        live := s.next :: s.live
        next := s.next + 1 }

def connectCb (passwd : Bool) (s : State) (ok : Bool) : State :=
  if ok then
    if passwd then use { s with status := .connected } else { s with status := .connected }
  else { s with status := .unconnected }

def disconnectCb : State := { s with status := .unconnected }

/-- hiredis frees a context -/
def free (c : ℕ) : State := { s with live := s.live.erase c }

def pcmd (k : ℕ) (cmd : List UInt8) (r : Connect) (cb : Callback) : State :=
  if s.status = .unconnected then (((s.log [.touch k]).pinit r).log [.touch k, .schedule k]).setCall k (.closed none)
  else
    let s := s.log [.touch k]
    if cmd = [] then s.setCall k (.allocated ⟨false, true, .none⟩)
    else s.use.setCall k (.allocated ⟨false, true, cb⟩)

/-- `CmdCb`; the destructor of `Ctx` deletes the timer -/
def cmdCb (k : ℕ) (ctx : Ctx) (r : Reply) : State :=
  let deleted := Call.closed (some { ctx with pending := ctx.pending.called })
  if ctx.timeout then s.setCall k deleted
  else
    match r with
    | .err | .null | .error => (s.log [.touch k, .schedule k]).setCall k deleted
    | .value => (s.log [.touch k, .touch k, .schedule k]).setCall k deleted

/-- `Ctx::EventCb`; the timer is not persistent -/
def eventCb (k : ℕ) (ctx : Ctx) : State :=
  (s.log [.touch k, .schedule k]).setCall k (.allocated { ctx with timeout := true, armed := false })

def step (passwd : Bool) (s : State) : Event → State
  | .cmd k command =>
    match s.call k with
    | .idle => (s.log [.dispatch k]).setCall k (.dispatched command)
    | _ => s
  | .pcmd k r cb =>
    match s.call k with
    | .dispatched cmd => s.pcmd k cmd r cb
    | _ => s
  | .pinit r => s.pinit r
  | .connect c ok =>
    if c ∈ s.live then if ok then s.connectCb passwd true else (s.connectCb passwd false).free c else s
  | .disconnect c => if c ∈ s.live then s.disconnectCb.free c else s
  | .timer => if s.event then s.timeCb else s
  | .reply k r =>
    match s.call k with
    | .allocated ctx => if ctx.pending ≠ .none then (s.log [.reply k]).cmdCb k ctx r else s
    -- the freed memory holds what it held
    | .closed (some ctx) => if ctx.pending ≠ .none then (s.log [.reply k, .freed k]).cmdCb k ctx r else s
    | _ => s
  | .timeout k =>
    match s.call k with
    | .allocated ctx => if ctx.armed then (s.log [.timeout k]).eventCb k ctx else s
    | _ => s

end State

namespace State

def init : State := ⟨.unconnected, none, false, [], 0, fun _ => .idle, []⟩

/-- what an event can do, and when -/
inductive Steps (passwd : Bool) (s : State) : Event → State → Prop where
  | ignored (e : Event) : Steps passwd s e s
  | cmd (k : ℕ) (command : List UInt8) (hcall : s.call k = .idle) :
    Steps passwd s (.cmd k command) ((s.log [.dispatch k]).setCall k (.dispatched command))
  | pcmd (k : ℕ) (cmd : List UInt8) (r : Connect) (cb : Callback) (hcall : s.call k = .dispatched cmd) :
    Steps passwd s (.pcmd k r cb) (s.pcmd k cmd r cb)
  | pinit (r : Connect) : Steps passwd s (.pinit r) (s.pinit r)
  | connected (c : ℕ) (hc : c ∈ s.live) : Steps passwd s (.connect c true) (s.connectCb passwd true)
  | failed (c : ℕ) (hc : c ∈ s.live) : Steps passwd s (.connect c false) ((s.connectCb passwd false).free c)
  | disconnect (c : ℕ) (hc : c ∈ s.live) : Steps passwd s (.disconnect c) (s.disconnectCb.free c)
  | timer (hevent : s.event = true) : Steps passwd s .timer s.timeCb
  | reply (k : ℕ) (ctx : Ctx) (r : Reply) (hcall : s.call k = .allocated ctx) (hpending : ctx.pending ≠ .none) :
    Steps passwd s (.reply k r) ((s.log [.reply k]).cmdCb k ctx r)
  | freed (k : ℕ) (ctx : Ctx) (r : Reply) (hcall : s.call k = .closed (some ctx)) (hpending : ctx.pending ≠ .none) :
    Steps passwd s (.reply k r) ((s.log [.reply k, .freed k]).cmdCb k ctx r)
  | timeout (k : ℕ) (ctx : Ctx) (hcall : s.call k = .allocated ctx) (harmed : ctx.armed = true) :
    Steps passwd s (.timeout k) ((s.log [.timeout k]).eventCb k ctx)

theorem step_steps (passwd : Bool) (s : State) (e : Event) : Steps passwd s e (s.step passwd e) := by
  cases e with
  | cmd k command =>
    cases hcall : s.call k with
    | idle =>
      simp only [step, hcall]
      exact .cmd k command hcall
    | dispatched _ | allocated _ | closed _ =>
      simp only [step, hcall]
      exact .ignored _
  | pcmd k r cb =>
    cases hcall : s.call k with
    | dispatched cmd =>
      simp only [step, hcall]
      exact .pcmd k cmd r cb hcall
    | idle | allocated _ | closed _ =>
      simp only [step, hcall]
      exact .ignored _
  | pinit r => exact .pinit r
  | connect c ok =>
    by_cases hc : c ∈ s.live
    · rw [step, if_pos hc]
      cases ok with
      | true => exact .connected c hc
      | false => exact .failed c hc
    · rw [step, if_neg hc]
      exact .ignored _
  | disconnect c =>
    by_cases hc : c ∈ s.live
    · rw [step, if_pos hc]
      exact .disconnect c hc
    · rw [step, if_neg hc]
      exact .ignored _
  | timer =>
    by_cases hevent : s.event = true
    · rw [step, if_pos hevent]
      exact .timer hevent
    · rw [step, if_neg hevent]
      exact .ignored _
  | reply k r =>
    cases hcall : s.call k with
    | allocated ctx =>
      simp only [step, hcall]
      split_ifs with hpending
      · exact .reply k ctx r hcall hpending
      · exact .ignored _
    | closed freed =>
      cases freed with
      | none =>
        simp only [step, hcall]
        exact .ignored _
      | some ctx =>
        simp only [step, hcall]
        split_ifs with hpending
        · exact .freed k ctx r hcall hpending
        · exact .ignored _
    | idle | dispatched _ =>
      simp only [step, hcall]
      exact .ignored _
  | timeout k =>
    cases hcall : s.call k with
    | allocated ctx =>
      simp only [step, hcall]
      split_ifs with harmed
      · exact .timeout k ctx hcall harmed
      · exact .ignored _
    | idle | dispatched _ | closed _ =>
      simp only [step, hcall]
      exact .ignored _

/-! ## Freed contexts -/

/-- every command was given to hiredis on a context that existed -/
def Safe (s : State) : Prop := ∀ c alive, Act.use c alive ∈ s.trace → alive = true

/-- the keep-alive timer does not fire while the connection is unconnected -/
def Awake (s : State) : Event → Prop
  | .timer => s.event = true → s.status ≠ .unconnected
  | _ => True

/-- `_context` is the only context that exists, unless the connection is unconnected -/
structure Attached (s : State) : Prop where
  safe : s.Safe
  unconnected : s.status = .unconnected → s.live = []
  attached : s.status ≠ .unconnected → ∃ c, s.context = some c ∧ s.live = [c]

variable {s : State}

section

variable (h : s.Attached)
include h

theorem Attached.log {acts : List Act} (hacts : ∀ c alive, Act.use c alive ∉ acts) : (s.log acts).Attached := by
  refine ⟨fun c alive hmem => ?_, h.unconnected, h.attached⟩
  rcases mem_append.1 hmem with hmem | hmem
  · exact h.safe c alive hmem
  · exact absurd hmem (hacts c alive)

theorem Attached.setCall (k : ℕ) (call : Call) : (s.setCall k call).Attached := ⟨h.safe, h.unconnected, h.attached⟩

theorem Attached.use (hstatus : s.status ≠ .unconnected) : s.use.Attached := by
  obtain ⟨c₀, hcontext, hlive⟩ := h.attached hstatus
  refine ⟨fun c alive hmem => ?_, h.unconnected, h.attached⟩
  rcases mem_append.1 hmem with hmem | hmem
  · exact h.safe c alive hmem
  · simp only [hcontext, hlive, mem_singleton, Act.use.injEq] at hmem
    rw [hmem.2]
    simp

theorem Attached.pinit (r : Connect) : (s.pinit r).Attached := by
  unfold State.pinit
  split_ifs with hstatus
  · exact h
  have hidle := h.unconnected (not_not.1 hstatus)
  cases r with
  | null | err => exact h
  | ok =>
    refine Attached.use ⟨h.safe, nofun, fun _ => ⟨s.next, rfl, ?_⟩⟩ nofun
    rw [hidle]

theorem Attached.free {c : ℕ} (hc : c ∈ s.live) : ({ s with status := .unconnected }.free c).Attached := by
  have hstatus : s.status ≠ .unconnected := by
    intro hidle
    rw [h.unconnected hidle] at hc
    cases hc
  obtain ⟨c₀, -, hlive⟩ := h.attached hstatus
  refine ⟨h.safe, fun _ => ?_, fun hne => absurd rfl hne⟩
  rw [hlive] at hc
  obtain rfl := mem_singleton.1 hc
  rw [hlive]
  exact erase_cons_head ..

theorem Attached.connectCb (passwd : Bool) (hstatus : s.status ≠ .unconnected) :
    (s.connectCb passwd true).Attached := by
  have hconnected : Attached { s with status := .connected } := ⟨h.safe, nofun, fun _ => h.attached hstatus⟩
  cases passwd with
  | false => exact hconnected
  | true => exact hconnected.use nofun

theorem Attached.pcmd (k : ℕ) (cmd : List UInt8) (r : Connect) (cb : Callback) : (s.pcmd k cmd r cb).Attached := by
  have htouch : (s.log [.touch k]).Attached := h.log (by simp)
  unfold State.pcmd
  split_ifs with hstatus hcmd
  · exact ((htouch.pinit r).log (by simp)).setCall k _
  · exact htouch.setCall k _
  · exact (htouch.use hstatus).setCall k _

theorem Attached.cmdCb (k : ℕ) (ctx : Ctx) (r : Reply) : (s.cmdCb k ctx r).Attached := by
  unfold State.cmdCb
  split_ifs
  · exact h.setCall k _
  · cases r with
    | err | null | error | value => exact (h.log (by simp)).setCall k _

theorem Attached.steps {passwd : Bool} {e : Event} {s' : State} (hsteps : Steps passwd s e s') (hawake : s.Awake e) :
    s'.Attached := by
  cases hsteps with
  | ignored => exact h
  | cmd k command _ => exact (h.log (by simp)).setCall k _
  | pcmd k cmd r cb _ => exact h.pcmd k cmd r cb
  | pinit r => exact h.pinit r
  | connected c hc =>
    refine h.connectCb passwd fun hidle => ?_
    rw [h.unconnected hidle] at hc
    cases hc
  | failed c hc | disconnect c hc => exact h.free hc
  | timer hevent => exact h.use (hawake hevent)
  | reply k ctx r _ _ | freed k ctx r _ _ => exact (h.log (by simp)).cmdCb k ctx r
  | timeout k ctx _ _ =>
    have htimeout : (s.log [.timeout k]).Attached := h.log (by simp)
    exact (htimeout.log (by simp)).setCall k _

end

theorem attached_step (passwd : Bool) (e : Event) (hawake : s.Awake e) (h : s.Attached) : (s.step passwd e).Attached :=
  h.steps (step_steps passwd s e) hawake

theorem awake_of_safe (passwd : Bool) {e : Event} (h : s.Attached) (hsafe : (s.step passwd e).Safe) : s.Awake e := by
  cases e with
  | timer =>
    intro hevent hidle
    have hdead : (s.context.any fun c => s.live.contains c) = false := by
      rw [h.unconnected hidle]
      simp
    have hmem : Act.use s.context false ∈ (s.step passwd .timer).trace := by
      rw [step, if_pos hevent, timeCb, State.use, hdead]
      exact mem_append_right _ (mem_singleton_self _)
    cases hsafe _ _ hmem
  | cmd _ _ | pcmd _ _ _ | pinit _ | connect _ _ | disconnect _ | reply _ _ | timeout _ => trivial

theorem safe_iff_awake (passwd : Bool) (e : Event) (h : s.Attached) : (s.step passwd e).Safe ↔ s.Awake e :=
  ⟨awake_of_safe passwd h, fun hawake => (attached_step passwd e hawake h).safe⟩

theorem attached_init : init.Attached := ⟨nofun, fun _ => rfl, fun hne => absurd rfl hne⟩

/-- **Contexts.** In every order of events no command is given to hiredis on a context that it has freed iff the
keep-alive timer does not fire between a failed connect or a disconnect and the next connect. -/
theorem contexts_alive_iff (passwd : Bool) (events : List Event) :
    Meets (step passwd) (fun s e => (s.step passwd e).Safe) init events ↔ Meets (step passwd) Awake init events :=
  meets_congr (fun _ e hawake h => attached_step passwd e hawake h)
  (fun _ e h => safe_iff_awake passwd e h) attached_init events

/-- connected, disconnected, and the timer fires -/
theorem ping_after_disconnect :
    let s := run (step false) init [.pinit .ok, .connect 0 true, .disconnect 0, .timer]
    s.trace = [.use (some 0) true, .use (some 0) false] ∧ ¬ s.Safe := by
  intro s
  have htrace : s.trace = [.use (some 0) true, .use (some 0) false] := by decide
  refine ⟨htrace, fun hsafe => ?_⟩
  cases hsafe (some 0) false (by rw [htrace]; decide)

end State

end CoServer.Db.FoxRedis
