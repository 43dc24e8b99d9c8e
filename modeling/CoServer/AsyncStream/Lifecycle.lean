/-
Starting, running and restarting an `AsyncSocketStream` (`async_socket_stream.cpp`). `_waitSem` has two tokens. `start`
takes both, connects, and hands one to the fiber `doRead` and one to `doWrite`, which give theirs back when they end; on
a failure `start` gives both back.

Any number of fibers call `start`, also from timers. A call of `start` is a party of the machine, with the two fibers it
may have scheduled; the steps are the sections of `_waitSem` and the parts between them. The connection may be lost at
any time, and a loop of `doRead` or `doWrite` may end then or by an exception. The callbacks are user code and may throw
out of `start` and out of `doRead` after its loop: the tokens are then lost. A fiber runs from the moment it is
scheduled until its `_waitSem.notify()`.

Results:
- `step_changes`: what a step does to the tokens and the calls.
- `Balanced.sole`: a call past `waitFiber` has both tokens, so no fiber runs and no other call is there.
- `two_tokens`: in every run, from a stream with or without a connection and with or without `_autoConnect`, the tokens
  that are free, taken, held by a running `doRead` or `doWrite` or lost by an exception are two, and at most one of each
  fiber runs.
-/
import CoServer.Core.Run
import CoServer.Mutex.Ledger

namespace CoServer.AsyncStream.Lifecycle

open CoServer.Core Mutex Function Finset

/-! ## Model -/

/-- where a call of `start` is, before it has scheduled a fiber -/
inductive Start where
  | none
  /-- before the first `_waitSem.wait()` -/
  | waitFirst
  | queuedFirst
  /-- before the second, with one token -/
  | waitSecond
  | queuedSecond
  /-- past `waitFiber`, before the timer is cancelled -/
  | ready
  /-- before `if(!isConnected())` -/
  | connecting
  /-- before `_connectCb` -/
  | accepting
  /-- before `innerClose()` -/
  | failing
  /-- before the first `_waitSem.notify()` -/
  | notifyFirst
  | notifySecond
  /-- before `if(_autoConnect)` -/
  | retrying
  /-- has returned false -/
  | failed
  /-- before `startRead()` -/
  | startRead
  /-- left by an exception -/
  | threw
deriving DecidableEq

/-- the fiber `doRead` -/
inductive Reader where
  /-- in the loop, or scheduled -/
  | looping
  /-- before `innerClose()` -/
  | closing
  /-- before `_waitSem.notify()` -/
  | notifying
  /-- before `if(_autoConnect)` -/
  | leaving
  | returned
  /-- left by an exception -/
  | threw
deriving DecidableEq

/-- the fiber `doWrite` -/
inductive Writer where
  | looping
  /-- before `_queue.clear()` and `_waitSem.notify()` -/
  | notifying
  | returned
deriving DecidableEq

/-- a call of `start` and the fibers it scheduled -/
inductive Party where
  | start (x : Start)
  /-- before `startWrite()` -/
  | startWrite (reader : Reader)
  /-- has returned true -/
  | started (reader : Reader) (writer : Writer)
deriving DecidableEq

open Party

structure St where
  /-- `_waitSem` -/
  sem : FiberSemaphore ℕ
  calls : ℕ → Party
  /-- calls `0 .. next - 1` were made -/
  next : ℕ
  /-- `isConnected()` -/
  connected : Bool
  autoConnect : Bool
  /-- `_timer` -/
  timer : Option ℕ
  /-- the timers that will call `start` -/
  armed : List ℕ
  nextTimer : ℕ

/-- what `_connectCb` does; a stream without one goes on as if it had answered true -/
inductive Answer where
  | accepts
  | refuses
  | throws
deriving DecidableEq

inductive Op where
  /-- a fiber calls `start` -/
  | start
  /-- a timer calls `start` -/
  | fire (i : ℕ)
  /-- the section of a `_waitSem.wait()` of `waitFiber` -/
  | wait (c : ℕ)
  | cancelTimer (c : ℕ)
  /-- `isConnected()`, and `reconnect()` with its answer -/
  | connect (c : ℕ) (ok : Bool)
  | connectCb (c : ℕ) (answer : Answer)
  /-- `innerClose()` of `start`, in which `_disconnectCb` may throw -/
  | innerClose (c : ℕ) (throws : Bool)
  /-- the section of a `_waitSem.notify()` of `start` -/
  | notify (c : ℕ)
  | retry (c : ℕ)
  | startRead (c : ℕ)
  | startWrite (c : ℕ)
  /-- the loop of `doRead` ends, by an exception or at its test -/
  | readerLeave (c : ℕ) (throws : Bool)
  | readerClose (c : ℕ) (throws : Bool)
  | readerNotify (c : ℕ)
  | readerReturn (c : ℕ)
  | writerLeave (c : ℕ) (throws : Bool)
  | writerNotify (c : ℕ)
  /-- the connection is lost: by the peer, or by an `innerClose()` inside one of the loops -/
  | lose
  /-- `close()` -/
  | close
  | setAutoConnect (v : Bool)
deriving DecidableEq

/-- the stream after its constructor, over a socket that may be connected -/
def init (connected autoConnect : Bool) : St := ⟨.make 2, fun _ => .start .none, 0, connected, autoConnect, none, [], 0⟩

variable (s : St)

def St.move (c : ℕ) (p : Party) : St := { s with calls := update s.calls c p }

/-- a new call of `start` -/
def St.enter : St := { s.move s.next (.start .waitFirst) with next := s.next + 1 }

/-- the fiber `doRead` of a call -/
def Party.reader : Party → Option Reader
  | .start _ => none
  | .startWrite r | .started r _ => some r

def Party.setReader (r : Reader) : Party → Party
  | .start x => .start x
  | .startWrite _ => .startWrite r
  | .started _ w => .started r w

/-- the fiber `doWrite` of a call -/
def Party.writer : Party → Option Writer
  | .start _ | .startWrite _ => none
  | .started _ w => some w

def Party.setWriter (w : Writer) : Party → Party
  | .started r _ => .started r w
  | p => p

/-- a call with its next token -/
def Party.resumed : Party → Party
  | .start .waitFirst | .start .queuedFirst => .start .waitSecond
  | .start .waitSecond | .start .queuedSecond => .start .ready
  | p => p

def Party.enqueued : Party → Party
  | .start .waitFirst => .start .queuedFirst
  | .start .waitSecond => .start .queuedSecond
  | p => p

def waitSection (c : ℕ) : St :=
  let r := s.sem.wait c
  { s with sem := r.1 }.move c (if r.2 then (s.calls c).resumed else (s.calls c).enqueued)

/-- the section of `notify`, after which the party goes on as `p` -/
def notifySection (c : ℕ) (p : Party) : St :=
  let r := s.sem.notify
  { s with sem := r.1, calls := handOver resumed (update s.calls c p) r.2 }

/-- `_timer->cancel()` -/
def St.cancelTimer : St := { s with armed := s.armed.filter fun i => s.timer ≠ some i }

/-- `_iomanager->addTimer(.., start)` -/
def St.addTimer : St := { s with armed := s.armed ++ [s.nextTimer], nextTimer := s.nextTimer + 1 }

def step : Op → St
  | .start => s.enter
  | .fire i => if i ∈ s.armed then { s with armed := s.armed.erase i }.enter else s
  | .wait c =>
    match s.calls c with
    | .start .waitFirst | .start .waitSecond => waitSection s c
    | _ => s
  | .cancelTimer c => if s.calls c = .start .ready
      then { s.cancelTimer with timer := none }.move c (.start .connecting) else s
  | .connect c ok =>
    if s.calls c = .start .connecting then
      if s.connected then s.move c (.start .accepting)
      else if ok then { s with connected := true }.move c (.start .accepting)
      else s.move c (.start .failing)
    else s
  | .connectCb c answer =>
    if s.calls c = .start .accepting then
      match answer with
      | .accepts => s.move c (.start .startRead)
      | .refuses => s.move c (.start .failing)
      | .throws => s.move c (.start .threw)
    else s
  | .innerClose c throws =>
    if s.calls c = .start .failing then
      if s.connected && throws then s.move c (.start .threw)
      else { s with connected := false }.move c (.start .notifyFirst)
    else s
  | .notify c =>
    match s.calls c with
    | .start .notifyFirst => notifySection s c (.start .notifySecond)
    | .start .notifySecond => notifySection s c (.start .retrying)
    | _ => s
  | .retry c =>
    if s.calls c = .start .retrying then
      if s.autoConnect then { s.cancelTimer.addTimer with timer := some s.nextTimer }.move c (.start .failed)
      else s.move c (.start .failed)
    else s
  | .startRead c => if s.calls c = .start .startRead then s.move c (.startWrite .looping) else s
  | .startWrite c =>
    match s.calls c with
    | .startWrite r => s.move c (.started r .looping)
    | _ => s
  | .readerLeave c throws =>
    if (s.calls c).reader = some .looping ∧ (s.connected = false ∨ throws = true) then
      s.move c ((s.calls c).setReader .closing)
    else s
  | .readerClose c throws =>
    if (s.calls c).reader = some .closing then
      if s.connected && throws then s.move c ((s.calls c).setReader .threw)
      else { s with connected := false }.move c ((s.calls c).setReader .notifying)
    else s
  | .readerNotify c => if (s.calls c).reader = some .notifying
      then notifySection s c ((s.calls c).setReader .leaving) else s
  | .readerReturn c =>
    if (s.calls c).reader = some .leaving then
      (if s.autoConnect then s.addTimer else s).move c ((s.calls c).setReader .returned)
    else s
  | .writerLeave c throws =>
    if (s.calls c).writer = some .looping ∧ (s.connected = false ∨ throws = true) then
      s.move c ((s.calls c).setWriter .notifying)
    else s
  | .writerNotify c => if (s.calls c).writer = some .notifying
      then notifySection s c ((s.calls c).setWriter .returned) else s
  | .lose => { s with connected := false }
  | .close => { s.cancelTimer with autoConnect := false, connected := false }
  | .setAutoConnect v => { s with autoConnect := v }

/-! ## Counts -/

/-- the tokens a call of `start` in progress has taken and not passed on -/
def Start.taken : Start → ℕ
  | .waitSecond | .queuedSecond | .notifySecond => 1
  | .ready | .connecting | .accepting | .failing | .notifyFirst | .startRead => 2
  | _ => 0

def Party.taken : Party → ℕ
  | .start x => x.taken
  | .startWrite _ => 1
  | .started _ _ => 0

def Reader.running : Reader → Bool
  | .looping | .closing | .notifying => true
  | _ => false

def Writer.running : Writer → Bool
  | .looping | .notifying => true
  | _ => false

/-- its `doRead` runs -/
def Party.reads (p : Party) : Bool := p.reader.any Reader.running

/-- its `doWrite` runs -/
def Party.writes (p : Party) : Bool := p.writer.any Writer.running

/-- the tokens that went with an exception -/
def Party.lost : Party → ℕ
  | .start .threw => 2
  | .startWrite .threw | .started .threw _ => 1
  | _ => 0

def Party.tokens (p : Party) : ℕ := p.taken + (if p.reads then 1 else 0) + (if p.writes then 1 else 0) + p.lost

def St.taken : ℕ := ∑ c ∈ range s.next, (s.calls c).taken

def St.readers : Finset ℕ := {c ∈ range s.next | (s.calls c).reads = true}

def St.writers : Finset ℕ := {c ∈ range s.next | (s.calls c).writes = true}

def St.lost : ℕ := ∑ c ∈ range s.next, (s.calls c).lost

/-- the step is an exception of a callback that nothing catches -/
def Op.throws : Op → Bool
  | .connectCb _ answer => answer = .throws
  | .innerClose _ throws | .readerClose _ throws => throws
  | _ => false

/-! ## The invariant -/

def Party.isQueued : Party → Bool
  | .start .queuedFirst | .start .queuedSecond => true
  | _ => false

/-- the calls as parties of the ledger of `_waitSem` -/
def accounts : Accounts Party := ⟨.start .none, tokens, isQueued, rfl⟩

/-- the call is past `waitFiber` and has not failed, or one of its fibers runs -/
def Party.active : Party → Bool
  | .start .ready | .start .connecting | .start .accepting | .start .failing | .start .startRead | .startWrite _ => true
  | .start _ => false
  | .started r w => r.running || w.running

structure Balanced (sem : FiberSemaphore ℕ) (calls : ℕ → Party) (next : ℕ) : Prop where
  ledger : Ledger accounts 2 sem calls next
  sole : ∀ j k, (calls j).active = true → (calls k).active = true → j = k

theorem balanced_init (connected autoConnect : Bool) :
    Balanced (init connected autoConnect).sem (init connected autoConnect).calls (init connected autoConnect).next where
  ledger := ledger_make accounts 2
  sole _ _ hj := by cases hj

variable {p : Party} {c : ℕ} {r : Reader}

theorem active_tokens (h : p.active = true) : 1 ≤ p.tokens := by
  cases p with
  | start x => cases x <;> first | exact absurd h Bool.false_ne_true | decide
  | startWrite r =>
    simp only [tokens, taken]
    omega
  | started r w => cases r <;> cases w <;> first | exact absurd h Bool.false_ne_true | decide

variable {calls : ℕ → Party}

theorem sole_ready {sem : FiberSemaphore ℕ} {next : ℕ} (h : Ledger accounts 2 sem calls next)
    (hc : calls c = .start .ready) {d : ℕ} (hd : (calls d).active = true) : d = c := by
  by_contra hne
  have hdtok := active_tokens hd
  have hctok : (calls c).tokens = 2 := by rw [hc]; rfl
  have hdlt : d < next := h.lt_next fun heq => by rw [heq] at hd; cases hd
  have hclt : c < next := h.lt_next fun heq => by rw [heq] at hc; cases hc
  have hle : (calls d).tokens + (calls c).tokens ≤ 2 := h.add_le hdlt hclt hne
  omega

theorem sole_update (h : ∀ j k, (calls j).active = true → (calls k).active = true → j = k)
    (hp : p.active = true → (calls c).active = true) :
    ∀ j k, (update calls c p j).active = true → (update calls c p k).active = true → j = k := by
  have hback : ∀ j, (update calls c p j).active = true → (calls j).active = true := by
    intro j hj
    by_cases heq : j = c
    · subst heq
      exact hp (by simpa using hj)
    · simpa [heq] using hj
  exact fun j k hj hk => h j k (hback j hj) (hback k hk)

/-- the call is before a `_waitSem.wait()` -/
def Party.waits : Party → Bool
  | .start .waitFirst | .start .waitSecond => true
  | _ => false

theorem resumed_spec (hp : p.waits = true ∨ p.isQueued = true) :
    p.resumed.tokens = p.tokens + 1 ∧ p.resumed.isQueued = false ∧
      (p.resumed = .start .ready ∨ p.resumed.active = false) := by
  cases p with
  | start x => cases x <;> first | decide | (rcases hp with hp | hp <;> cases hp)
  | startWrite r | started r w => rcases hp with hp | hp <;> cases hp

theorem enqueued_spec (hp : p.waits = true) :
    p.isQueued = false ∧ p.enqueued.tokens = p.tokens ∧ p.enqueued.isQueued = true ∧ p.enqueued.active = false := by
  cases p with
  | start x => cases x <;> first | decide | cases hp
  | startWrite r | started r w => cases hp

/-- the token of a `doRead`, also when an exception took it -/
def Reader.tokens : Reader → ℕ
  | .looping | .closing | .notifying | .threw => 1
  | .leaving | .returned => 0

theorem setReader_spec (hp : p.reader = some r) (r' : Reader) :
    p.isQueued = false ∧ (p.setReader r').isQueued = false ∧
      (p.setReader r').tokens + r.tokens = p.tokens + r'.tokens ∧
      ((r'.running = true → r.running = true) → (p.setReader r').active = true → p.active = true) := by
  cases p with
  | start x => cases hp
  | startWrite _ =>
    cases hp
    cases r <;> cases r' <;> decide
  | started _ w =>
    cases hp
    cases r <;> cases r' <;> cases w <;> decide

theorem setWriter_spec {w : Writer} (hp : p.writer = some w) (w' : Writer) :
    p.isQueued = false ∧ (p.setWriter w').isQueued = false ∧
      (p.setWriter w').tokens + (if w.running then 1 else 0) = p.tokens + (if w'.running then 1 else 0) ∧
      ((w'.running = true → w.running = true) → (p.setWriter w').active = true → p.active = true) := by
  cases p with
  | start x | startWrite _ => cases hp
  | started r _ =>
    cases hp
    cases r <;> cases w <;> cases w' <;> decide

/-! ## What a step does -/

/-- a party goes on with its tokens; it loses one only by an exception -/
structure Party.Goes (throws : Bool) (q p : Party) : Prop where
  called : q ≠ .start .none
  tokens : p.tokens = q.tokens
  queued : p.isQueued = q.isQueued
  active : p.active = true → q.active = true
  lost : throws = false → q.lost = 0 → p.lost = 0

/-- a party gives one of its tokens back -/
structure Party.Gives (q p : Party) : Prop where
  called : q ≠ .start .none
  tokens : p.tokens + 1 = q.tokens
  queued : q.isQueued = false ∧ p.isQueued = false
  active : p.active = true → q.active = true
  lost : q.lost = 0 → p.lost = 0

/-- the changes of the semaphore and the calls -/
inductive Changes (sem : FiberSemaphore ℕ) (calls : ℕ → Party) (next : ℕ) (throws : Bool) :
    FiberSemaphore ℕ → (ℕ → Party) → ℕ → Prop
  | stay : Changes sem calls next throws sem calls next
  | enter : Changes sem calls next throws sem (update calls next (.start .waitFirst)) (next + 1)
  | wait {c : ℕ} (hc : (calls c).waits = true) : Changes sem calls next throws (sem.wait c).1
      (update calls c (if (sem.wait c).2 then (calls c).resumed else (calls c).enqueued)) next
  | move {c : ℕ} {q p : Party} (hc : calls c = q) (h : q.Goes throws p) :
      Changes sem calls next throws sem (update calls c p) next
  | notify {c : ℕ} {q p : Party} (hc : calls c = q) (h : q.Gives p) :
      Changes sem calls next throws sem.notify.1 (handOver resumed (update calls c p) sem.notify.2) next

theorem reader_called (hp : p.reader = some r) : p ≠ .start .none := by
  rintro rfl
  cases hp

theorem writer_called {w : Writer} (hp : p.writer = some w) : p ≠ .start .none := by
  rintro rfl
  cases hp

theorem setReader_lost (h : p.lost = 0) (hr : r ≠ .threw) : (p.setReader r).lost = 0 := by
  cases p with
  | start x => exact h
  | startWrite _ | started _ w => cases r <;> first | rfl | exact absurd rfl hr

theorem setWriter_lost (p : Party) (w : Writer) : (p.setWriter w).lost = p.lost := by
  cases p with
  | started r _ => cases r <;> rfl
  | _ => rfl

variable {throws : Bool}

theorem goes_reader {r' : Reader} (hp : p.reader = some r) (htok : r'.tokens = r.tokens)
    (hrun : r'.running = true → r.running = true) (hthrow : r' = .threw → throws = true) :
    p.Goes throws (p.setReader r') := by
  obtain ⟨hout, hq, hsum, hact⟩ := setReader_spec hp r'
  refine ⟨reader_called hp, by omega, hq.trans hout.symm, hact hrun, fun hquiet hl => setReader_lost hl ?_⟩
  intro heq
  exact Bool.false_ne_true (hquiet.symm.trans (hthrow heq))

theorem gives_reader (hp : p.reader = some .notifying) : p.Gives (p.setReader .leaving) := by
  obtain ⟨hout, hq, hsum, hact⟩ := setReader_spec hp .leaving
  exact ⟨reader_called hp, hsum, ⟨hout, hq⟩, hact nofun, fun hl => setReader_lost hl nofun⟩

theorem goes_writer (hp : p.writer = some .looping) : p.Goes throws (p.setWriter .notifying) := by
  obtain ⟨hout, hq, hsum, hact⟩ := setWriter_spec hp .notifying
  exact ⟨writer_called hp, Nat.add_right_cancel hsum, hq.trans hout.symm, hact id, fun _ => (setWriter_lost p _).trans⟩

theorem gives_writer (hp : p.writer = some .notifying) : p.Gives (p.setWriter .returned) := by
  obtain ⟨hout, hq, hsum, hact⟩ := setWriter_spec hp .returned
  exact ⟨writer_called hp, hsum, ⟨hout, hq⟩, hact nofun, (setWriter_lost p _).trans⟩

theorem goes_startWrite (r : Reader) : Goes throws (.startWrite r) (.started r .looping) where
  called := nofun
  tokens := by cases r <;> rfl
  queued := rfl
  active _ := rfl
  lost _ hl := by cases r <;> first | rfl | cases hl

/-- the operation changes the state in one of these ways -/
def Op.Changes (o : Op) (s s' : St) : Prop :=
  Lifecycle.Changes s.sem s.calls s.next o.throws s'.sem s'.calls s'.next

theorem step_changes (s : St) (o : Op) : o.Changes s (step s o) := by
  cases o with
  | start => exact .enter
  | fire i => exact inv_ite .stay fun _ => .enter
  | wait c =>
    simp only [step]
    split
    next hc => exact .wait (by rw [hc]; rfl)
    next hc => exact .wait (by rw [hc]; rfl)
    next => exact .stay
  | cancelTimer c => exact inv_ite .stay fun hc => .move hc ⟨nofun, rfl, rfl, id, fun _ => id⟩
  | connect c ok =>
    refine inv_ite .stay fun hc => ?_
    split_ifs
    all_goals exact .move hc ⟨nofun, rfl, rfl, id, fun _ => id⟩
  | connectCb c answer =>
    refine inv_ite .stay fun hc => ?_
    cases answer with
    | accepts | refuses => exact .move hc ⟨nofun, rfl, rfl, id, fun _ => id⟩
    | throws => exact .move hc ⟨nofun, rfl, rfl, nofun, nofun⟩
  | innerClose c throws =>
    refine inv_ite .stay fun hc => ?_
    split_ifs with hthrow
    · refine .move hc ⟨nofun, rfl, rfl, nofun, fun hquiet => ?_⟩
      rw [show throws = false from hquiet, Bool.and_false] at hthrow
      cases hthrow
    · exact .move hc ⟨nofun, rfl, rfl, nofun, fun _ => id⟩
  | notify c =>
    simp only [step]
    split
    next hc => exact .notify hc ⟨nofun, rfl, ⟨rfl, rfl⟩, nofun, id⟩
    next hc => exact .notify hc ⟨nofun, rfl, ⟨rfl, rfl⟩, nofun, id⟩
    next => exact .stay
  | retry c =>
    refine inv_ite .stay fun hc => ?_
    split_ifs
    all_goals exact .move hc ⟨nofun, rfl, rfl, nofun, fun _ => id⟩
  | startRead c =>
    -- one of the two tokens goes to the fiber
    exact inv_ite .stay fun hc => .move hc ⟨nofun, rfl, rfl, id, fun _ => id⟩
  | startWrite c =>
    simp only [step]
    split
    next r hc => exact .move hc (goes_startWrite r)
    next => exact .stay
  | readerLeave c throws => exact inv_ite .stay fun hc => .move rfl (goes_reader hc.1 rfl id nofun)
  | readerClose c throws =>
    refine inv_ite .stay fun hc => ?_
    split_ifs with hthrow
    · exact .move rfl (goes_reader hc rfl (fun _ => rfl) fun _ => (Bool.and_eq_true_iff.1 hthrow).2)
    · exact .move rfl (goes_reader hc rfl id nofun)
  | readerNotify c => exact inv_ite .stay fun hc => .notify rfl (gives_reader hc)
  | readerReturn c =>
    refine inv_ite .stay fun hc => ?_
    split_ifs
    all_goals exact .move rfl (goes_reader hc rfl id nofun)
  | writerLeave c throws => exact inv_ite .stay fun hc => .move rfl (goes_writer hc.1)
  | writerNotify c => exact inv_ite .stay fun hc => .notify rfl (gives_writer hc)
  | lose | close | setAutoConnect v => exact .stay

/-! ## Every step keeps the balance -/

namespace Balanced

variable {sem : FiberSemaphore ℕ} {calls : ℕ → Party} {next : ℕ}

theorem move (h : Balanced sem calls next) {throws : Bool} (hp : (calls c).Goes throws p) :
    Balanced sem (update calls c p) next :=
  ⟨h.ledger.move (h.ledger.lt_next hp.called) hp.tokens hp.queued, sole_update h.sole hp.active⟩

theorem enter (h : Balanced sem calls next) : Balanced sem (update calls next (.start .waitFirst)) (next + 1) :=
  ⟨h.ledger.enter rfl rfl, sole_update h.sole fun hp => by cases hp⟩

theorem sole_resumed {w : ℕ} (hl : Ledger accounts 2 sem (update calls w (calls w).resumed) next)
    (hsole : ∀ j k, (calls j).active = true → (calls k).active = true → j = k)
    (hw : (calls w).resumed = .start .ready ∨ (calls w).resumed.active = false) :
    ∀ j k, (update calls w (calls w).resumed j).active = true →
      (update calls w (calls w).resumed k).active = true → j = k := by
  rcases hw with hw | hw
  · have hready : update calls w (calls w).resumed w = .start .ready := by rw [update_self, hw]
    exact fun j k hj hk => (sole_ready hl hready hj).trans (sole_ready hl hready hk).symm
  · exact sole_update hsole fun hact => absurd (hw.symm.trans hact) Bool.false_ne_true

theorem wait (h : Balanced sem calls next) (hc : (calls c).waits = true) :
    Balanced (sem.wait c).1
      (update calls c (if (sem.wait c).2 then (calls c).resumed else (calls c).enqueued)) next := by
  have hlt : c < next := h.ledger.lt_next fun heq => by rw [heq] at hc; cases hc
  obtain ⟨htok, hq, hready⟩ := resumed_spec (.inl hc)
  obtain ⟨hout, htok', hq', hact⟩ := enqueued_spec hc
  have hl := h.ledger.wait hlt hout htok hq htok' hq'
  refine ⟨hl, ?_⟩
  cases hr : (sem.wait c).2 with
  | true =>
    rw [hr] at hl
    exact sole_resumed hl h.sole hready
  | false => exact sole_update h.sole fun hp => absurd (hact.symm.trans hp) Bool.false_ne_true

theorem notify (h : Balanced sem calls next) (hp : (calls c).Gives p) :
    Balanced sem.notify.1 (handOver resumed (update calls c p) sem.notify.2) next := by
  have hres : ∀ w, (calls w).isQueued = true →
      (calls w).resumed.tokens = (calls w).tokens + 1 ∧ (calls w).resumed.isQueued = false := fun w hw =>
    ⟨(resumed_spec (.inr hw)).1, (resumed_spec (.inr hw)).2.1⟩
  have hl := h.ledger.notify (h.ledger.lt_next hp.called) hp.queued.1 hp.tokens hp.queued.2 resumed hres
  have hsole := sole_update h.sole hp.active
  refine ⟨hl, ?_⟩
  rcases sem.notify_cases with ⟨w, ws, hw, he⟩ | ⟨-, he⟩
  · have hwq := (h.ledger.queue w).1 (hw ▸ List.mem_cons_self)
    have hne : w ≠ c := by
      rintro rfl
      exact absurd (hp.queued.1.symm.trans hwq) Bool.false_ne_true
    have hsame : update calls c p w = calls w := update_of_ne hne p calls
    rw [he] at hl ⊢
    exact sole_resumed hl hsole (by rw [hsame]; exact (resumed_spec (.inr hwq)).2.2)
  · rw [he]
    exact hsole

end Balanced

theorem Changes.balanced {sem sem' : FiberSemaphore ℕ} {calls' : ℕ → Party} {next next' : ℕ}
    (hch : Changes sem calls next throws sem' calls' next') (h : Balanced sem calls next) :
    Balanced sem' calls' next' := by
  cases hch with
  | stay => exact h
  | enter => exact h.enter
  | wait hc => exact h.wait hc
  | move hc hp =>
    subst hc
    exact h.move hp
  | notify hc hp =>
    subst hc
    exact h.notify hp

theorem balanced_run (connected autoConnect : Bool) (ops : List Op) :
    Balanced (run step (init connected autoConnect) ops).sem (run step (init connected autoConnect) ops).calls
      (run step (init connected autoConnect) ops).next :=
  run_inv_of_step (I := fun s : St => Balanced s.sem s.calls s.next) (fun s o => (step_changes s o).balanced) _ ops
    (balanced_init connected autoConnect)

/-! ## Tokens lost by exceptions -/

theorem lost_update (h : ∀ d, (calls d).lost = 0) (hp : p.lost = 0) : ∀ d, (update calls c p d).lost = 0 := by
  intro d
  by_cases hd : d = c
  · subst hd; rwa [update_self]
  · rw [update_of_ne hd]; exact h d

theorem resumed_lost (p : Party) : p.resumed.lost = p.lost := by
  cases p with
  | start x => cases x <;> rfl
  | _ => rfl

theorem enqueued_lost (p : Party) : p.enqueued.lost = p.lost := by
  cases p with
  | start x => cases x <;> rfl
  | _ => rfl

theorem Changes.lost {sem sem' : FiberSemaphore ℕ} {calls' : ℕ → Party} {next next' : ℕ}
    (hch : Changes sem calls next false sem' calls' next') (h : ∀ c, (calls c).lost = 0) :
    ∀ c, (calls' c).lost = 0 := by
  cases hch with
  | stay => exact h
  | enter => exact lost_update h rfl
  | wait hc =>
    refine lost_update h ?_
    split_ifs
    · exact (resumed_lost _).trans (h _)
    · exact (enqueued_lost _).trans (h _)
  | move hc hp =>
    subst hc
    exact lost_update h (hp.lost rfl (h _))
  | @notify c q p hc hp =>
    subst hc
    have hback := lost_update (c := c) h (hp.lost (h c))
    cases sem.notify.2 with
    | none => exact hback
    | some w => exact lost_update hback ((resumed_lost _).trans (hback w))

theorem lost_step (s : St) (o : Op) (ho : o.throws = false) (h : ∀ c, (s.calls c).lost = 0) :
    ∀ c, ((step s o).calls c).lost = 0 := by
  have hch := step_changes s o
  rw [Op.Changes, ho] at hch
  exact hch.lost h

/-! ## The result -/

theorem Balanced.total {s : St} (h : Balanced s.sem s.calls s.next) :
    s.sem.concurrency + s.taken + s.readers.card + s.writers.card + s.lost = 2 := by
  have hsum : ∑ c ∈ range s.next, (s.calls c).tokens = s.taken + s.readers.card + s.writers.card + s.lost := by
    simp only [St.taken, St.readers, St.writers, St.lost, card_filter, ← sum_add_distrib]
    rfl
  have htok : s.sem.concurrency + ∑ c ∈ range s.next, (s.calls c).tokens = 2 := h.ledger.tokens
  omega

theorem reads_active (h : p.reads = true) : p.active = true := by
  cases p with
  | start x => cases h
  | startWrite r => rfl
  | started r w =>
    simp only [active, Bool.or_eq_true]
    exact .inl h

theorem writes_active (h : p.writes = true) : p.active = true := by
  cases p with
  | start x | startWrite r => cases h
  | started r w =>
    simp only [active, Bool.or_eq_true]
    exact .inr h

/-- **Two tokens, one reader, one writer.** -/
theorem two_tokens (connected autoConnect : Bool) (ops : List Op) :
    let s := run step (init connected autoConnect) ops
    s.sem.concurrency + s.taken + s.readers.card + s.writers.card + s.lost = 2 ∧
    ((∀ o ∈ ops, o.throws = false) → s.sem.concurrency + s.taken + s.readers.card + s.writers.card = 2) ∧
    s.readers.card ≤ 1 ∧ s.writers.card ≤ 1 := by
  intro s
  have h : Balanced s.sem s.calls s.next := balanced_run connected autoConnect ops
  refine ⟨h.total, fun hops => ?_, ?_, ?_⟩
  · have hguard : Meets step (fun _ o => o.throws = false) (init connected autoConnect) ops := meets_of_forall hops _
    have hnone := run_inv (I := fun s : St => ∀ c, (s.calls c).lost = 0) lost_step hguard fun _ => rfl
    have hzero : s.lost = 0 := sum_eq_zero fun c _ => hnone c
    have := h.total
    omega
  · refine card_le_one.2 fun j hj k hk => ?_
    exact h.sole j k (reads_active (mem_filter.1 hj).2) (reads_active (mem_filter.1 hk).2)
  · refine card_le_one.2 fun j hj k hk => ?_
    exact h.sole j k (writes_active (mem_filter.1 hj).2) (writes_active (mem_filter.1 hk).2)

/-- a start that fails to connect and tries again by its timer; the second one starts both fibers, the connection is
lost, and while they end a third call waits in the queue -/
def restarted : List Op :=
  [.start, .wait 0, .wait 0, .cancelTimer 0, .connect 0 false, .innerClose 0 false, .notify 0, .notify 0,
    .retry 0, .fire 0,
   .wait 1, .wait 1, .cancelTimer 1, .connect 1 true, .connectCb 1 .accepts, .startRead 1, .startWrite 1,
   .start, .wait 2,
   .lose, .readerLeave 1 false, .readerClose 1 false, .readerNotify 1, .wait 2, .writerLeave 1 false, .writerNotify 1,
   .readerReturn 1, .cancelTimer 2, .connect 2 true, .connectCb 2 .accepts, .startRead 2]

theorem two_tokens_restarted : (∀ o ∈ restarted, o.throws = false) ∧
    (run step (init false true) restarted).calls 2 = .startWrite .looping ∧
    (run step (init false true) restarted).sem.concurrency + (run step (init false true) restarted).taken +
      (run step (init false true) restarted).readers.card + (run step (init false true) restarted).writers.card = 2 :=
  ⟨by decide, by decide, (two_tokens false true restarted).2.1 (by decide)⟩

end CoServer.AsyncStream.Lifecycle
