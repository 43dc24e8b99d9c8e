/-
Requests of a `RockStream` (`rock_stream.cpp`, `async_socket_stream.cpp`): the fibers in `request`, the response path
(`doRecv`, then `doRsp` in `doRead`), the timeout callbacks (`onTimeOut`) and `innerClose`, interleaved.

Every locked section, every atomic operation and every assignment to a field of the shared `Ctx` is one step, in the
order of the source; a resumed request reads the result and the response in either order (they are arguments of one
constructor call). The send queue is in `WriteQueue`.

A timer is named by its context: each request adds one. `timer->cancel()` has no effect on a callback that was taken for
execution. Ghost data: where a result comes from (`origin`), the response a receiver took the context for (`taken`), and
the contexts whose fiber `doRsp` has scheduled (`scheduled`).
-/
import CoServer.Core.Run
import CoServer.Core.Update

namespace CoServer.AsyncStream.Requests

/-! ## Data -/

/-- a `RockResponse`, as far as the stream reads it -/
structure Response where
  sn : ℕ
  result : ℕ
deriving DecidableEq

/-- who assigned a result -/
inductive Origin where
  | unset
  | response
  | timeout
  | ioError
  | notConnect
deriving DecidableEq

/-- a value of `uint32_t result` -/
structure Result where
  code : ℕ
  origin : Origin
deriving DecidableEq

/-- `TIMEOUT` is -1 as an unsigned 32-bit value -/
def resultTimeout : Result := ⟨2 ^ 32 - 1, .timeout⟩

/-- `IO_ERROR` is -2 -/
def resultIoError : Result := ⟨2 ^ 32 - 2, .ioError⟩

/-- `NOT_CONNECT` is -3 -/
def resultNotConnect : Result := ⟨2 ^ 32 - 3, .notConnect⟩

/-- `RockCtx` -/
structure Ctx where
  sn : ℕ
  scheduler : Option ℕ
  fiber : Option ℕ
  /-- `timer` is not null -/
  timer : Bool := false
  timed : Bool := false
  result : Result := ⟨0, .unset⟩
  response : Option Response := none
  taken : Option Response := none
deriving DecidableEq

/-- a fiber in `request` -/
inductive Request where
  | none
  /-- the context is filled in, before `addCtx` -/
  | created
  /-- before `addTimer` -/
  | added
  /-- before the assignment of `ctx->timer` -/
  | armed
  /-- before `yieldToHold` -/
  | assigned
  | held
  /-- resumed; what it has read of `ctx->result` and `ctx->response` -/
  | reading (result : Option Result) (response : Option (Option Response))
  /-- not connected: returned at once -/
  | refused
deriving DecidableEq

/-- a place in `doRsp` -/
inductive Stage where
  /-- before `scd = scheduler` -/
  | start
  /-- before the compare-and-swap -/
  | swap (scd : Option ℕ)
  /-- it has won; before `if(timer) timer->cancel()` -/
  | cancel (scd : ℕ)
  /-- before `timer = nullptr` -/
  | clear (scd : ℕ)
  /-- before `if(timed)` -/
  | test (scd : ℕ)
  /-- before `result = TIMEOUT` -/
  | stamp (scd : ℕ)
  /-- before `scd->schedule(fiber)` -/
  | schedule (scd : ℕ)
deriving DecidableEq

/-- the parties besides the requesting fibers: receivers, the timer of each context, closers -/
inductive Party where
  | receiver (i : ℕ)
  | timer (c : ℕ)
  | closer (i : ℕ)
deriving DecidableEq

/-- what a party is doing -/
inductive Act where
  | idle
  /-- a receiver has the context out of the map, before `ctx->result = rsp->getResult()` -/
  | took (c : ℕ) (rsp : Response)
  /-- before `ctx->response = rsp` -/
  | wrote (c : ℕ) (rsp : Response)
  /-- a timer in the timer set -/
  | armed
  /-- its callback is taken for execution, before the erase -/
  | due
  /-- before `ctx->timed = true` -/
  | erased
  /-- a closer, before `result = IO_ERROR` of the first of these -/
  | closing (cs : List ℕ)
  /-- in `doRsp` of context `c`; a closer goes on with the rest -/
  | rsp (c : ℕ) (stage : Stage) (rest : List ℕ)
  /-- a timer whose callback has completed -/
  | done
  /-- a timer whose callback was dropped by `cancel` -/
  | cancelled
deriving DecidableEq

structure St where
  ctxs : ℕ → Ctx
  /-- contexts `0 .. next - 1` are allocated -/
  next : ℕ
  /-- `_ctxs` -/
  map : List (ℕ × ℕ)
  requests : ℕ → Request
  acts : Party → Act
  scheduled : List ℕ

inductive Op where
  /-- `request` on a connected stream, or not, from fiber `fiber` of scheduler `scd` -/
  | request (sn scd fiber : ℕ) (connected : Bool)
  | addCtx (c : ℕ)
  | addTimer (c : ℕ)
  | assignTimer (c : ℕ)
  | hold (c : ℕ)
  | resume (c : ℕ)
  | readResult (c : ℕ)
  | readResponse (c : ℕ)
  /-- the callback of the timer of `c` is taken for execution -/
  | expire (c : ℕ)
  /-- the locked erase of `onTimeOut` -/
  | erase (c : ℕ)
  /-- `ctx->timed = true` -/
  | setTimed (c : ℕ)
  /-- `getAndDelCtx` for a response -/
  | recv (i : ℕ) (rsp : Response)
  | setResult (i : ℕ)
  | setResponse (i : ℕ)
  /-- the locked swap of `innerClose`; the order in which it goes over the contexts -/
  | close (i : ℕ) (order : List ℕ)
  /-- `result = IO_ERROR` -/
  | setIoError (i : ℕ)
  /-- the next step of the `doRsp` of a party -/
  | doRsp (p : Party)
deriving DecidableEq

def init : St where
  ctxs := fun _ => { sn := 0, scheduler := none, fiber := none }
  next := 0
  map := []
  requests := fun _ => .none
  acts := fun _ => .idle
  scheduled := []

/-! ## Steps -/

def St.setCtx (s : St) (c : ℕ) (x : Ctx) : St := { s with ctxs := Function.update s.ctxs c x }

def St.setRequest (s : St) (c : ℕ) (r : Request) : St := { s with requests := Function.update s.requests c r }

def St.setAct (s : St) (p : Party) (a : Act) : St := { s with acts := Function.update s.acts p a }

variable (map : List (ℕ × ℕ))

/-- `_ctxs.insert(...)`: a key that is present keeps its context -/
def insertCtx (sn c : ℕ) : List (ℕ × ℕ) := if sn ∈ map.map Prod.fst then map else map ++ [(sn, c)]

/-- `_ctxs.erase(sn)` -/
def eraseCtx (sn : ℕ) : List (ℕ × ℕ) := map.filter fun e => e.1 ≠ sn

/-- `_ctxs.find(sn)` -/
def findCtx (sn : ℕ) : Option ℕ := (map.find? fun e => e.1 = sn).map Prod.snd

def request (s : St) (sn scd fiber : ℕ) (connected : Bool) : St :=
  let s' := { s with next := s.next + 1 }
  if connected then
    (s'.setCtx s.next { sn := sn, scheduler := some scd, fiber := some fiber }).setRequest s.next .created
  else s'.setRequest s.next .refused

/-- where a party goes on after `doRsp` -/
def after (p : Party) (rest : List ℕ) : Act :=
  match p with
  | .receiver _ => .idle
  | .timer _ => .done
  | .closer _ => if rest = [] then .idle else .closing rest

/-- one step of `doRsp` -/
def rspStep (s : St) (p : Party) (c : ℕ) (rest : List ℕ) : Stage → St
  | .start => s.setAct p (.rsp c (.swap (s.ctxs c).scheduler) rest)
  | .swap scd =>
    if (s.ctxs c).scheduler = scd then
      let s' := s.setCtx c { s.ctxs c with scheduler := none }
      match scd, (s.ctxs c).fiber with
      | some sch, some _ => s'.setAct p (.rsp c (.cancel sch) rest)
      | _, _ => s'.setAct p (after p rest)
    else s.setAct p (after p rest)
  | .cancel scd =>
    if (s.ctxs c).timer then
      -- a callback that was taken for execution is past cancelling
      let s' := if s.acts (.timer c) = .armed then s.setAct (.timer c) .cancelled else s
      s'.setAct p (.rsp c (.clear scd) rest)
    else s.setAct p (.rsp c (.test scd) rest)
  | .clear scd => (s.setCtx c { s.ctxs c with timer := false }).setAct p (.rsp c (.test scd) rest)
  | .test scd => s.setAct p (.rsp c (if (s.ctxs c).timed then .stamp scd else .schedule scd) rest)
  | .stamp scd => (s.setCtx c { s.ctxs c with result := resultTimeout }).setAct p (.rsp c (.schedule scd) rest)
  | .schedule _ => { s with scheduled := s.scheduled ++ [c] }.setAct p (after p rest)

def step (s : St) : Op → St
  | .request sn scd fiber connected => request s sn scd fiber connected
  | .addCtx c => if s.requests c = .created
      then { s with map := insertCtx s.map (s.ctxs c).sn c }.setRequest c .added else s
  | .addTimer c => if s.requests c = .added then (s.setAct (.timer c) .armed).setRequest c .armed else s
  | .assignTimer c => if s.requests c = .armed
      then (s.setCtx c { s.ctxs c with timer := true }).setRequest c .assigned else s
  | .hold c => if s.requests c = .assigned then s.setRequest c .held else s
  | .resume c => if s.requests c = .held ∧ c ∈ s.scheduled then s.setRequest c (.reading none none) else s
  | .readResult c =>
    match s.requests c with
    | .reading none rsp => s.setRequest c (.reading (some (s.ctxs c).result) rsp)
    | _ => s
  | .readResponse c =>
    match s.requests c with
    | .reading res none => s.setRequest c (.reading res (some (s.ctxs c).response))
    | _ => s
  | .expire c => if s.acts (.timer c) = .armed then s.setAct (.timer c) .due else s
  | .erase c => if s.acts (.timer c) = .due
      then { s with map := eraseCtx s.map (s.ctxs c).sn }.setAct (.timer c) .erased else s
  | .setTimed c =>
    if s.acts (.timer c) = .erased then
      (s.setCtx c { s.ctxs c with timed := true }).setAct (.timer c) (.rsp c .start [])
    else s
  | .recv i rsp =>
    if s.acts (.receiver i) = .idle then
      match findCtx s.map rsp.sn with
      | some c =>
        ({ s with map := eraseCtx s.map rsp.sn }.setCtx c { s.ctxs c with taken := some rsp }).setAct (.receiver i)
          (.took c rsp)
      | none => s
    else s
  | .setResult i =>
    match s.acts (.receiver i) with
    | .took c rsp =>
      (s.setCtx c { s.ctxs c with result := ⟨rsp.result, .response⟩ }).setAct (.receiver i) (.wrote c rsp)
    | _ => s
  | .setResponse i =>
    match s.acts (.receiver i) with
    | .wrote c rsp => (s.setCtx c { s.ctxs c with response := some rsp }).setAct (.receiver i) (.rsp c .start [])
    | _ => s
  | .close i order =>
    if s.acts (.closer i) = .idle ∧ order.Perm (s.map.map Prod.snd) then
      { s with map := [] }.setAct (.closer i) (if order = [] then .idle else .closing order)
    else s
  | .setIoError i =>
    match s.acts (.closer i) with
    | .closing (c :: rest) =>
      (s.setCtx c { s.ctxs c with result := resultIoError }).setAct (.closer i) (.rsp c .start rest)
    | _ => s
  | .doRsp p =>
    match s.acts p with
    | .rsp c stage rest => rspStep s p c rest stage
    | _ => s

end CoServer.AsyncStream.Requests
