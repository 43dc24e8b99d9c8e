/-
`FoxThreadPool` (src/db/fox_thread.cpp) in advance mode: callbacks wait in the pool until a thread is free.

`check` takes a free thread and a callback under the lock, makes a shared pointer to the thread whose deleter is
`releaseFoxThread`, and dispatches both to the thread. Whoever drops the pointer last gives the thread back and checks
again, inside the check that is running or at the end of `read_cb`. So every agent has a stack of the calls it is in,
and a step is one locked section, one dispatch or one drop. A worker may call the pool whenever it is in none of these
calls. The send that wakes a thread always succeeds, and no null callback is given to a thread.

Results:
- `step_moves`: everything an event can do, as items that the state loses and gains.
- `Moves.weigh`: whatever the items weigh, an event changes the weight of the state by what it adds and takes away.
-/
import CoServer.Core.Run
import CoServer.Core.Update

namespace CoServer.Db.FoxPool

open CoServer.Core Function

/-! ## The code -/

/-- an element of `FoxThread::_callbacks`; `lease` is the number of the shared pointer that `check` has bound to it -/
structure Task where
  cb : ℕ
  lease : Option ℕ
deriving DecidableEq

structure FoxThread where
  start : Bool
  callbacks : List Task
  /-- the list of `read_cb`: not called yet -/
  batch : List Task
  running : Option Task
  /-- the list of `read_cb`: called -/
  spent : List Task
  /-- the use counts of the shared pointers to the thread, in the order in which they were made -/
  refs : List ℕ
deriving DecidableEq

open FoxPool.FoxThread

namespace FoxThread

variable (th : FoxThread)

def uses (k : ℕ) : ℕ := th.refs.getD k 0

/-- a copy of a shared pointer is dropped -/
def unref (k : ℕ) : FoxThread := { th with refs := th.refs.set k (th.uses k - 1) }

def dispatch (x : Task) : FoxThread := { th with callbacks := th.callbacks ++ [x] }

/-- the dispatch in `check`: the task has a copy of the shared pointer -/
def dispatchLease (k cb : ℕ) : FoxThread := { th.dispatch ⟨cb, some k⟩ with refs := th.refs.set k (th.uses k + 1) }

end FoxThread

/-- where an agent is in a call -/
inductive Frame where
  /-- `check`, before its locked section -/
  | checking
  /-- `check`, with a thread, its shared pointer and a callback -/
  | holding (t k cb : ℕ)
  /-- `check`, with a shared pointer -/
  | held (t k : ℕ)
  /-- `releaseFoxThread`, before its locked section -/
  | releasing (t : ℕ)
deriving DecidableEq

/-- the pool; the agents below `size` are its threads, `size` is the one that has called `start` -/
structure State where
  size : ℕ
  callers : ℕ
  start : Bool
  callbacks : List ℕ
  freeFoxThreads : List ℕ
  threads : ℕ → FoxThread
  calls : ℕ → List Frame
  executed : List ℕ
  passed : ℕ

namespace State

section

variable (s : State)

def agents : ℕ := s.size + 1 + s.callers

def setCalls (a : ℕ) (calls : List Frame) : State := { s with calls := update s.calls a calls }

variable (t : ℕ)

def setThread (th : FoxThread) : State := { s with threads := update s.threads t th }

/-- the locked sections of `dispatch` and `batchDispatch` -/
def enqueue (n : ℕ) : State := { s with callbacks := s.callbacks ++ List.range' s.passed n, passed := s.passed + n }

/-- `dispatch` with a thread -/
def direct : State := { s.setThread t ((s.threads t).dispatch ⟨s.passed, none⟩) with passed := s.passed + 1 }

/-- the locked section of `check` that has found a thread and a callback -/
def take (free callbacks : List ℕ) : State :=
  { s.setThread t { s.threads t with refs := (s.threads t).refs ++ [1] } with
    freeFoxThreads := free, callbacks := callbacks }

/-- the next step of an agent in its innermost call -/
def act (a : ℕ) : State :=
  match s.calls a with
  | [] => s
  | .checking :: rest =>
    if s.start then
      match s.freeFoxThreads, s.callbacks with
      | t :: free, cb :: callbacks =>
        (s.take t free callbacks).setCalls a (.holding t (s.threads t).refs.length cb :: rest)
      | _, _ => s.setCalls a rest
    else s.setCalls a rest
  | .holding t k cb :: rest =>
    if (s.threads t).start then (s.setThread t ((s.threads t).dispatchLease k cb)).setCalls a (.held t k :: rest)
    else { s with callbacks := cb :: s.callbacks }.setCalls a (.held t k :: rest)
  | .held t k :: rest =>
    (s.setThread t ((s.threads t).unref k)).setCalls a
      (if ((s.threads t).unref k).uses k = 0 then .releasing t :: .checking :: rest else .checking :: rest)
  | .releasing t :: rest => { s with freeFoxThreads := s.freeFoxThreads ++ [t] }.setCalls a (.checking :: rest)

/-- `read_cb`: the callbacks are swapped -/
def readCb : State := s.setThread t { s.threads t with batch := (s.threads t).callbacks, callbacks := [] }

/-- `read_cb` calls a callback -/
def begin (x : Task) (batch : List Task) : State :=
  { s.setThread t { s.threads t with batch := batch, running := some x } with executed := s.executed ++ [x.cb] }

/-- the callback returns, or throws -/
def finish (x : Task) : State :=
  s.setThread t { s.threads t with running := none, spent := (s.threads t).spent ++ [x] }

/-- `read_cb` returns: an element of its list is destroyed, and its shared pointer is dropped -/
def discard (x : Task) (spent : List Task) : State :=
  match x.lease with
  | none => s.setThread t { s.threads t with spent := spent }
  | some k =>
    (s.setThread t { (s.threads t).unref k with spent := spent }).setCalls t
      (if ((s.threads t).unref k).uses k = 0 then [.releasing t] else [])

inductive Event where
  | dispatch (a : ℕ)
  | batchDispatch (a n : ℕ)
  /-- `dispatch` with an id -/
  | dispatchTo (a id : ℕ)
  | check (a : ℕ)
  | act (a : ℕ)
  | readCb (t : ℕ)
  | begin (t : ℕ)
  | finish (t : ℕ)
  | discard (t : ℕ)
deriving DecidableEq

/-- the calls of the pool; the other events belong to calls that have begun -/
def Event.isCall : Event → Bool
  | .dispatch _ | .batchDispatch _ _ | .dispatchTo _ _ | .check _ => true
  | _ => false

/-- an agent that is in no call of the pool -/
def Outside (a : ℕ) : Prop := a < s.agents ∧ s.calls a = []

end

instance (s : State) (a : ℕ) : Decidable (s.Outside a) := inferInstanceAs (Decidable (_ ∧ _))

/-- a thread in its event loop or in `read_cb`, in no call of the pool -/
def Working (s : State) (t : ℕ) : Prop := t < s.size ∧ s.calls t = []

instance (s : State) (t : ℕ) : Decidable (s.Working t) := inferInstanceAs (Decidable (_ ∧ _))

def step (s : State) : Event → State
  | .dispatch a => if s.Outside a then (s.enqueue 1).setCalls a [.checking] else s
  | .batchDispatch a n => if s.Outside a then (s.enqueue n).setCalls a [.checking] else s
  | .dispatchTo a id => if s.Outside a ∧ 0 < s.size then s.direct (id % s.size) else s
  | .check a => if s.Outside a then s.setCalls a [.checking] else s
  | .act a => if a < s.agents then s.act a else s
  | .readCb t => if s.Working t ∧ (s.threads t).batch = [] ∧ (s.threads t).running = none ∧
      (s.threads t).spent = [] then s.readCb t else s
  | .begin t =>
    match (s.threads t).running, (s.threads t).batch with
    | none, x :: batch => if s.Working t then s.begin t x batch else s
    | _, _ => s
  | .finish t =>
    match (s.threads t).running with
    | some x => if s.Working t then s.finish t x else s
    | none => s
  | .discard t =>
    match (s.threads t).running, (s.threads t).batch, (s.threads t).spent with
    | none, [], x :: spent => if s.Working t then s.discard t x spent else s
    | _, _, _ => s

/-- a thread that was started and has nothing to do -/
def started : FoxThread := ⟨true, [], [], none, [], []⟩

/-- `start`, before its check; `n` callbacks were dispatched before -/
def begun (size callers n : ℕ) : State where
  size := size
  callers := callers
  start := true
  callbacks := List.range n
  freeFoxThreads := List.range size
  threads := fun _ => started
  calls := update (fun _ => []) size [.checking]
  executed := []
  passed := n

end State

/-! ## Moves -/

/-- what the state is made of -/
inductive Item where
  | queued (cb : ℕ)
  | free (t : ℕ)
  | frame (f : Frame)
  | waiting (t : ℕ) (x : Task)
  | batch (t : ℕ) (x : Task)
  | running (t : ℕ) (x : Task)
  | spent (t : ℕ) (x : Task)
  | executed (cb : ℕ)

variable (w : Item → ℕ)

/-- the sum of the weights of some items -/
def total (items : List Item) : ℕ := (items.map w).sum

@[simp] theorem total_nil : total w [] = 0 := rfl

@[simp] theorem total_cons (i : Item) (items : List Item) : total w (i :: items) = w i + total w items :=
  List.sum_cons

@[simp] theorem total_append (items items' : List Item) :
    total w (items ++ items') = total w items + total w items' := by
  simp [total]

def Frame.thread : Frame → Option ℕ
  | .checking => none
  | .holding t _ _ | .held t _ | .releasing t => some t

namespace FoxThread

def items (th : FoxThread) (t : ℕ) : List Item :=
  th.callbacks.map (.waiting t) ++ th.batch.map (.batch t) ++ th.running.toList.map (.running t) ++
  th.spent.map (.spent t)

end FoxThread

namespace State

/-- the sum of the weights of all items -/
def weigh (s : State) (w : Item → ℕ) : ℕ :=
  total w (s.callbacks.map .queued) + total w (s.freeFoxThreads.map .free) +
    (∑ a ∈ Finset.range s.agents, total w ((s.calls a).map .frame)) +
    (∑ t ∈ Finset.range s.size, total w ((s.threads t).items t)) + total w (s.executed.map .executed)

variable {s s' : State} {w : Item → ℕ}

/-- the weight of the lists of the pool -/
def lists (s : State) (w : Item → ℕ) : ℕ :=
  total w (s.callbacks.map .queued) + total w (s.freeFoxThreads.map .free) + total w (s.executed.map .executed)

/-- the rest of the pool -/
abbrev rest (s : State) : ℕ × ℕ × (ℕ → List Frame) × (ℕ → FoxThread) := (s.size, s.callers, s.calls, s.threads)

variable {a t : ℕ} {lost gained : List Item}

theorem weigh_change {calls : List Frame} {th : FoxThread} (ha : a < s.agents)
    (ht : t < s.size ∨ th = s.threads t)
    (hrest : s'.rest = (s.size, s.callers, update s.calls a calls, update s.threads t th))
    (h : s'.lists w + total w (calls.map .frame) + total w (th.items t) + total w lost =
      s.lists w + total w ((s.calls a).map .frame) + total w ((s.threads t).items t) + total w gained) :
    s'.weigh w + total w lost = s.weigh w + total w gained := by
  have hframes := sum_range_update (fun _ (calls : List Frame) => total w (calls.map .frame)) s.calls ha calls
  have hitems :
    (∑ q ∈ Finset.range s.size, total w ((update s.threads t th q).items q)) + total w ((s.threads t).items t) =
      (∑ q ∈ Finset.range s.size, total w ((s.threads q).items q)) + total w (th.items t) := by
    rcases ht with ht | rfl
    · exact sum_range_update (fun t (th : FoxThread) => total w (th.items t)) s.threads ht th
    · rw [update_eq_self]
  obtain ⟨hsize, hcallers, hcalls, hthreads⟩ : _ ∧ _ ∧ _ ∧ _ := by simpa only [Prod.mk.injEq] using hrest
  unfold lists at h
  unfold agents at hframes
  unfold weigh agents
  rw [hsize, hcallers, hcalls, hthreads]
  omega

theorem Working.agent (h : s.Working t) : t < s.agents := by
  have := h.1
  unfold agents
  omega

/-- what an event can do: whether it is a call, the state after it, the items that are gone and those that are new -/
inductive Moves (s : State) : Bool → State → List Item → List Item → Prop
  | stay (called : Bool) : Moves s called s [] []
  | call {a : ℕ} (h : s.Outside a) (n : ℕ) :
      Moves s true ((s.enqueue n).setCalls a [.checking]) [] (.frame .checking :: (List.range' s.passed n).map .queued)
  | direct {t : ℕ} (h : t < s.size) : Moves s true (s.direct t) [] [.waiting t ⟨s.passed, none⟩]
  | check {a : ℕ} (h : s.Outside a) : Moves s true (s.setCalls a [.checking]) [] [.frame .checking]
  | leave {a : ℕ} {rest : List Frame} (ha : a < s.agents) (h : s.calls a = .checking :: rest)
      (hidle : s.start = false ∨ s.freeFoxThreads = [] ∨ s.callbacks = []) :
      Moves s false (s.setCalls a rest) [.frame .checking] []
  | take {a t cb : ℕ} {rest : List Frame} {free callbacks : List ℕ} (ha : a < s.agents) (ht : t < s.size)
      (h : s.calls a = .checking :: rest) (hfree : s.freeFoxThreads = t :: free) (hcb : s.callbacks = cb :: callbacks) :
      Moves s false ((s.take t free callbacks).setCalls a (.holding t (s.threads t).refs.length cb :: rest))
        [.frame .checking, .free t, .queued cb] [.frame (.holding t (s.threads t).refs.length cb)]
  | hand {a t k cb : ℕ} {rest : List Frame} (ha : a < s.agents) (ht : t < s.size)
      (h : s.calls a = .holding t k cb :: rest) (hstart : (s.threads t).start = true) :
      Moves s false ((s.setThread t ((s.threads t).dispatchLease k cb)).setCalls a (.held t k :: rest))
        [.frame (.holding t k cb)] [.frame (.held t k), .waiting t ⟨cb, some k⟩]
  | back {a t k cb : ℕ} {rest : List Frame} (ha : a < s.agents) (h : s.calls a = .holding t k cb :: rest)
      (hstart : (s.threads t).start = false) :
      Moves s false ({ s with callbacks := cb :: s.callbacks }.setCalls a (.held t k :: rest))
        [.frame (.holding t k cb)] [.frame (.held t k), .queued cb]
  | drop {a t k : ℕ} {rest : List Frame} (ha : a < s.agents) (ht : t < s.size) (h : s.calls a = .held t k :: rest)
      (huse : ((s.threads t).unref k).uses k ≠ 0) :
      Moves s false ((s.setThread t ((s.threads t).unref k)).setCalls a (.checking :: rest)) [.frame (.held t k)]
        [.frame .checking]
  | dropLast {a t k : ℕ} {rest : List Frame} (ha : a < s.agents) (ht : t < s.size) (h : s.calls a = .held t k :: rest)
      (huse : ((s.threads t).unref k).uses k = 0) :
      Moves s false ((s.setThread t ((s.threads t).unref k)).setCalls a (.releasing t :: .checking :: rest))
        [.frame (.held t k)] [.frame (.releasing t), .frame .checking]
  | release {a t : ℕ} {rest : List Frame} (ha : a < s.agents) (h : s.calls a = .releasing t :: rest) :
      Moves s false ({ s with freeFoxThreads := s.freeFoxThreads ++ [t] }.setCalls a (.checking :: rest))
        [.frame (.releasing t)] [.frame .checking, .free t]
  | read {t : ℕ} (h : s.Working t) (hbatch : (s.threads t).batch = []) :
      Moves s false (s.readCb t) ((s.threads t).callbacks.map (.waiting t)) ((s.threads t).callbacks.map (.batch t))
  | begin {t : ℕ} {x : Task} {batch : List Task} (h : s.Working t) (hrunning : (s.threads t).running = none)
      (hbatch : (s.threads t).batch = x :: batch) :
      Moves s false (s.begin t x batch) [.batch t x] [.running t x, .executed x.cb]
  | finish {t : ℕ} {x : Task} (h : s.Working t) (hrunning : (s.threads t).running = some x) :
      Moves s false (s.finish t x) [.running t x] [.spent t x]
  | discard {t : ℕ} {x : Task} {spent : List Task} (h : s.Working t) (hspent : (s.threads t).spent = x :: spent)
      (hlease : x.lease = none) : Moves s false (s.setThread t { s.threads t with spent := spent }) [.spent t x] []
  | unrefTask {t k : ℕ} {x : Task} {spent : List Task} (h : s.Working t) (hspent : (s.threads t).spent = x :: spent)
      (hlease : x.lease = some k) (huse : ((s.threads t).unref k).uses k ≠ 0) :
      Moves s false ((s.setThread t { (s.threads t).unref k with spent := spent }).setCalls t []) [.spent t x] []
  | unrefTaskLast {t k : ℕ} {x : Task} {spent : List Task} (h : s.Working t) (hspent : (s.threads t).spent = x :: spent)
      (hlease : x.lease = some k) (huse : ((s.threads t).unref k).uses k = 0) :
      Moves s false ((s.setThread t { (s.threads t).unref k with spent := spent }).setCalls t [.releasing t])
        [.spent t x] [.frame (.releasing t)]

/-- only threads of the pool are free, held or released -/
structure Bounded (s : State) : Prop where
  free : ∀ t ∈ s.freeFoxThreads, t < s.size
  frames : ∀ a < s.agents, ∀ f ∈ s.calls a, ∀ t, f.thread = some t → t < s.size

theorem moves_ite {p : Prop} [Decidable p] {b : Bool} (h : p → ∃ lost gained, Moves s b s' lost gained) :
    ∃ lost gained, Moves s b (if p then s' else s) lost gained := by
  split_ifs with hp
  · exact h hp
  · exact ⟨_, _, .stay _⟩

theorem act_moves (hs : s.Bounded) (ha : a < s.agents) : ∃ lost gained, Moves s false (s.act a) lost gained := by
  have hhead : ∀ {f rest t}, s.calls a = f :: rest → f.thread = some t → t < s.size :=
    fun hcalls => hs.frames a ha _ (hcalls ▸ List.mem_cons_self) _
  unfold act
  split
  · exact ⟨_, _, .stay false⟩
  · rename_i rest hcalls
    split_ifs with hstart
    · split
      · rename_i t free cb callbacks hfree hcb
        have ht : t < s.size := hs.free t (by rw [hfree]; exact List.mem_cons_self)
        exact ⟨_, _, .take ha ht hcalls hfree hcb⟩
      rename_i hnone
      refine ⟨_, _, .leave ha hcalls (.inr ?_)⟩
      cases hfree : s.freeFoxThreads with
      | nil => exact .inl rfl
      | cons t free =>
        cases hcb : s.callbacks with
        | nil => exact .inr rfl
        | cons cb callbacks => exact absurd hcb (hnone t free cb callbacks hfree)
    · exact ⟨_, _, .leave ha hcalls (.inl (by simpa using hstart))⟩
  · rename_i t k cb rest hcalls
    split_ifs with hstart
    · exact ⟨_, _, .hand ha (hhead hcalls rfl) hcalls hstart⟩
    · exact ⟨_, _, .back ha hcalls (by simpa using hstart)⟩
  · rename_i t k rest hcalls
    split_ifs with huse
    · exact ⟨_, _, .dropLast ha (hhead hcalls rfl) hcalls huse⟩
    · exact ⟨_, _, .drop ha (hhead hcalls rfl) hcalls huse⟩
  · rename_i t rest hcalls
    exact ⟨_, _, .release ha hcalls⟩

theorem discard_moves {x : Task} {spent : List Task} (h : s.Working t) (hspent : (s.threads t).spent = x :: spent) :
    ∃ lost gained, Moves s false (s.discard t x spent) lost gained := by
  unfold discard
  split
  · rename_i hlease
    exact ⟨_, _, .discard h hspent hlease⟩
  rename_i k hlease
  split_ifs with huse
  · exact ⟨_, _, .unrefTaskLast h hspent hlease huse⟩
  · exact ⟨_, _, .unrefTask h hspent hlease huse⟩

theorem step_moves (hs : s.Bounded) (e : Event) : ∃ lost gained, Moves s e.isCall (s.step e) lost gained := by
  cases e with
  | dispatch a => exact moves_ite fun h => ⟨_, _, .call h 1⟩
  | batchDispatch a n => exact moves_ite fun h => ⟨_, _, .call h n⟩
  | dispatchTo a id => exact moves_ite fun h => ⟨_, _, .direct (Nat.mod_lt id h.2)⟩
  | check a => exact moves_ite fun h => ⟨_, _, .check h⟩
  | act a => exact moves_ite (act_moves hs)
  | readCb t => exact moves_ite fun h => ⟨_, _, .read h.1 h.2.1⟩
  | begin t =>
    simp only [step]
    split
    · rename_i x batch hrunning hbatch
      exact moves_ite fun h => ⟨_, _, .begin h hrunning hbatch⟩
    · exact ⟨_, _, .stay _⟩
  | finish t =>
    simp only [step]
    split
    · rename_i x hrunning
      exact moves_ite fun h => ⟨_, _, .finish h hrunning⟩
    · exact ⟨_, _, .stay _⟩
  | discard t =>
    simp only [step]
    split
    · rename_i x spent hrunning hbatch hspent
      exact moves_ite fun h => discard_moves h hspent
    · exact ⟨_, _, .stay _⟩

theorem weigh_calls {calls : List Frame} (ha : a < s.agents)
    (hrest : s'.rest = (s.size, s.callers, update s.calls a calls, s.threads))
    (h : s'.lists w + total w (calls.map .frame) + total w lost = s.lists w + total w ((s.calls a).map .frame) +
      total w gained) :
    s'.weigh w + total w lost = s.weigh w + total w gained := by
  rw [← update_eq_self 0 s.threads] at hrest
  refine weigh_change ha (.inr rfl) hrest ?_
  omega

theorem weigh_thread {th : FoxThread} (ht : t < s.size)
    (hrest : s'.rest = (s.size, s.callers, s.calls, update s.threads t th))
    (h : s'.lists w + total w (th.items t) + total w lost = s.lists w + total w ((s.threads t).items t) +
      total w gained) :
    s'.weigh w + total w lost = s.weigh w + total w gained := by
  rw [← update_eq_self s.size s.calls] at hrest
  refine weigh_change ?_ (.inl ht) hrest ?_
  · unfold agents
    omega
  · omega

/-- **Accounting.** -/
theorem Moves.weigh {called : Bool} (hm : Moves s called s' lost gained) (w : Item → ℕ) :
    s'.weigh w + total w lost = s.weigh w + total w gained := by
  cases hm with
  | stay => rfl
  | call h | check h =>
    refine weigh_calls h.1 rfl ?_
    simp +arith [lists, enqueue, setCalls, h.2]
  | leave ha h | back ha h | release ha h =>
    refine weigh_calls ha rfl ?_
    simp +arith [lists, setCalls, h]
  | direct ht =>
    refine weigh_thread ht rfl ?_
    simp +arith [lists, State.direct, setThread, items, dispatch]
  | take ha ht h hfree hcb =>
    refine weigh_change ha (.inl ht) rfl ?_
    simp +arith [lists, State.take, setCalls, setThread, items, h, hfree, hcb]
  | hand ha ht h =>
    refine weigh_change ha (.inl ht) rfl ?_
    simp +arith [lists, setCalls, setThread, items, dispatchLease, dispatch, h]
  | drop ha ht h | dropLast ha ht h =>
    refine weigh_change ha (.inl ht) rfl ?_
    simp +arith [lists, setCalls, setThread, items, unref, h]
  | read h hbatch =>
    refine weigh_thread h.1 rfl ?_
    simp +arith [lists, readCb, setThread, items, hbatch]
  | begin h hrunning hbatch =>
    refine weigh_thread h.1 rfl ?_
    simp +arith [lists, State.begin, setThread, items, hrunning, hbatch]
  | finish h hrunning =>
    refine weigh_thread h.1 rfl ?_
    simp +arith [lists, State.finish, setThread, items, hrunning]
  | discard h hspent =>
    refine weigh_thread h.1 rfl ?_
    simp +arith [lists, setThread, items, hspent]
  | unrefTask h hspent | unrefTaskLast h hspent =>
    refine weigh_change h.agent (.inl h.1) rfl ?_
    simp +arith [lists, setCalls, setThread, items, unref, h.2, hspent]

end State

end CoServer.Db.FoxPool
