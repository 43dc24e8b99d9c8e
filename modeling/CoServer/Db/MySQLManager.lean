/-
`MySQL` and `MySQLManager` (src/db/mysql.cpp): connections to databases, and the pools of the idle ones.

Three tests are the wrong way round. `isNeedCheck` answers no for a connection that was used less than five seconds ago
AND has an error; `ping` answers no for every connection that is there; `connect` answers yes, without connecting, for
one that is there and has an error. So `get` hands out an idle connection with an error as it is, and replaces one
without an error; if that fails, it returns null and no one has the object. The idle connections are one list, in the
order of their lists; objects are numbered in the order of their creation. The clock and the answers of the server are
inputs. `good` and `deleted` are kept for the statements only.

Results:
- `right_iff_lucky`: one call of the managed pools, in a state in which every object is in one place.
- `pool_health_iff`: in a sequence of calls every handle that `get` returns is connected or answered a ping in that
  call, or was used with success in the last five seconds and without an error since, and every object is idle, borrowed
  or deleted, in one place only, iff every idle connection that `get` takes has no error and can be connected anew, or
  has an error and was used lately.
- `erring_handed_out_and_object_lost`: a statement fails and the connection is handed out a second later; a connection
  without an error cannot be connected anew, and its object is neither idle nor borrowed nor deleted.
-/
import CoServer.Core.Run
import CoServer.Core.Update
import Mathlib.Data.List.Perm.Basic

namespace CoServer.Db.Sql

open CoServer.Core List

/-! ## Connections -/

structure MySQL where
  /-- `_mysql` is not null -/
  mysql : Bool
  lastUsedTime : UInt64
  hasError : Bool
  poolSize : Int32
  /-- what `_params` has for "pool", 5 if it has nothing -/
  pool : Int32
  /-- when a statement last succeeded, if none has failed since -/
  good : Option UInt64
deriving DecidableEq

namespace MySQL

def new (pool : Int32) : MySQL := ⟨false, 0, false, 10, pool, none⟩

variable (m : MySQL)

/-- `connected` is whether `mysql_init` gives a connection -/
def connect (connected : Bool) : MySQL × Bool :=
  if m.mysql ∧ m.hasError then (m, true)
  else if connected then ({ m with mysql := true, hasError := false, poolSize := m.pool }, true)
  else ({ m with hasError := true, good := none }, false)

def isNeedCheck (now : UInt64) : Bool := ¬ (now - m.lastUsedTime < 5 ∧ m.hasError)

/-- `answers` is whether `mysql_ping` succeeds -/
def ping (answers : Bool) : MySQL × Bool :=
  if m.mysql then (m, false)
  else if answers then ({ m with hasError := false }, true)
  else ({ m with hasError := true, good := none }, false)

/-- `execute` and `query`; the result is `rt == 0` -/
def execute (now : UInt64) (ok : Bool) : MySQL × Bool :=
  ({ m with hasError := !ok, good := if ok then some now else none }, ok)

/-- a prepared statement, which leaves `_hasError` alone -/
def executeStmt (now : UInt64) (ok : Bool) : MySQL := { m with good := if ok then some now else none }

end MySQL

/-! ## The manager -/

structure MySQLManager where
  /-- `_conns` -/
  conns : List (String × ℕ)
  object : ℕ → MySQL
  /-- number of objects created -/
  count : ℕ
  deleted : List ℕ

open MySQLManager

/-- what `get` asks the system -/
structure Input where
  now : UInt64
  answers : Bool
  connected : Bool
  /-- the clock, at the end -/
  later : UInt64

/-- how `get` came to return a handle -/
inductive Check where
  /-- connected in this call -/
  | connected
  /-- answered a ping in this call -/
  | pinged
  | unchecked
deriving DecidableEq

namespace MySQLManager

variable (m : MySQLManager)

def set (r : ℕ) (o : MySQL) : MySQLManager := { m with object := Function.update m.object r o }

/-- `_lastUsedTime` is set before the object is returned -/
def handOut (r : ℕ) (o : MySQL) (later : UInt64) : MySQLManager := m.set r { o with lastUsedTime := later }

/-- the first connection of a name leaves its list -/
def popFront (name : String) : MySQLManager := { m with conns := m.conns.eraseP fun e => e.1 = name }

/-- the branch of `get` for an idle connection, which is out of the list already -/
def getIdle (r : ℕ) (i : Input) : MySQLManager × Option (ℕ × Check) :=
  let o := m.object r
  if o.isNeedCheck i.now = false then (m.handOut r o i.later, some (r, .unchecked))
  else if (o.ping i.answers).2 then (m.handOut r (o.ping i.answers).1 i.later, some (r, .pinged))
  else
    let p := (o.ping i.answers).1
    if (p.connect i.connected).2 then
      (m.handOut r (p.connect i.connected).1 i.later, some (r, if p.mysql ∧ p.hasError then .unchecked else .connected))
    else (m.set r (p.connect i.connected).1, none)

/-- the branch for a new connection -/
def getNew (pool : Int32) (i : Input) : MySQLManager × Option (ℕ × Check) :=
  let o := (MySQL.new pool).connect i.connected
  if o.2 then ({ m with count := m.count + 1 }.handOut m.count o.1 i.later, some (m.count, .connected))
  else ({ m with count := m.count + 1, deleted := m.count :: m.deleted }, none)

/-- `args` has the databases of the configuration and those registered -/
def get (args : String → Option Int32) (m : MySQLManager) (name : String) (i : Input) :
    MySQLManager × Option (ℕ × Check) :=
  match m.conns.find? fun e => e.1 = name with
  | some e => (m.popFront name).getIdle e.2 i
  | none =>
    match args name with
    | some pool => m.getNew pool i
    | none => (m, none)

def freeMySQL (name : String) (r : ℕ) : MySQLManager :=
  if (m.object r).mysql ∧ (m.conns.countP fun e => e.1 = name) < (m.object r).poolSize.toInt64.toUInt64.toNat then
    { m with conns := m.conns ++ [(name, r)] }
  else { m with deleted := r :: m.deleted }

/-- a connection that was not used for `sec` seconds -/
def isStale (sec : Int32) (now : UInt64) (e : String × ℕ) : Bool :=
  (now - (m.object e.2).lastUsedTime).toUInt32.toInt32 ≥ sec

def checkConnection (sec : Int32) (now : UInt64) : MySQLManager :=
  { m with
    conns := m.conns.filter fun e => !m.isStale sec now e
    deleted := (m.conns.filter (m.isStale sec now)).map Prod.snd ++ m.deleted }

end MySQLManager

/-! ## Borrowers -/

structure State where
  mgr : MySQLManager
  /-- the handles that are in use -/
  handles : List (String × ℕ)

inductive Op where
  | get (name : String) (i : Input)
  /-- the last copy of a handle is dropped -/
  | release (k : ℕ)
  /-- `execute` or `query` on a handle -/
  | execute (k : ℕ) (now : UInt64) (ok : Bool)
  | executeStmt (k : ℕ) (now : UInt64) (ok : Bool)
  | checkConnection (sec : Int32) (now : UInt64)

namespace State

/-- a borrower uses its connection -/
def use (s : State) (k : ℕ) (f : MySQL → MySQL) : State :=
  match s.handles[k]? with
  | none => s
  | some (_, r) => { s with mgr := s.mgr.set r (f (s.mgr.object r)) }

def step (args : String → Option Int32) (s : State) : Op → State
  | .get name i => ⟨(s.mgr.get args name i).1, s.handles ++ (s.mgr.get args name i).2.toList.map fun h => (name, h.1)⟩
  | .release k =>
    match s.handles[k]? with
    | none => s
    | some (name, r) => ⟨s.mgr.freeMySQL name r, s.handles.eraseIdx k⟩
  | .execute k now ok => s.use k fun m => (m.execute now ok).1
  | .executeStmt k now ok => s.use k fun m => m.executeStmt now ok
  | .checkConnection sec now => { s with mgr := s.mgr.checkConnection sec now }

def init : State := ⟨⟨[], fun _ => .new 5, 0, []⟩, []⟩

/-- a statement succeeded at most five seconds ago and none has failed since -/
def Lately (m : MySQL) (now : UInt64) : Prop := ∃ t ∈ m.good, now.toNat ≤ t.toNat + 5

/-- what `get` returns was connected or pinged in this call, or used lately -/
def Healthy (args : String → Option Int32) (s : State) : Op → Prop
  | .get name i => ∀ r check, (s.mgr.get args name i).2 = some (r, check) → check = .unchecked →
      Lately (s.mgr.object r) i.now
  | _ => True

/-- every object that was created is idle, borrowed or deleted, and in one place only -/
def Owned (s : State) : Prop :=
  (s.mgr.conns.map Prod.snd ++ s.handles.map Prod.snd ++ s.mgr.deleted).Perm (range s.mgr.count)

/-- an idle connection that is taken has no error and can be connected anew, or has an error and was used lately -/
def Lucky (s : State) : Op → Prop
  | .get name i => ∀ e ∈ s.mgr.conns.find? fun e => e.1 = name,
      if (s.mgr.object e.2).hasError then Lately (s.mgr.object e.2) i.now else i.connected = true
  | _ => True

/-! ## What `get` does -/

/-- no idle connection is null -/
def Present (m : MySQLManager) : Prop := ∀ e ∈ m.conns, (m.object e.2).mysql = true

variable {args : String → Option Int32} {m : MySQLManager} {s : State}

variable {r : ℕ}

theorem getIdle_error (hmysql : (m.object r).mysql = true) (herror : (m.object r).hasError = true) (i : Input) :
    m.getIdle r i = (m.handOut r (m.object r) i.later, some (r, .unchecked)) := by
  have hping : (m.object r).ping i.answers = (m.object r, false) := if_pos hmysql
  have hconnect : (m.object r).connect i.connected = (m.object r, true) := if_pos ⟨hmysql, herror⟩
  simp [getIdle, hping, hconnect, hmysql, herror]

theorem getIdle_fresh (hmysql : (m.object r).mysql = true) (herror : (m.object r).hasError = false) (i : Input) :
    m.getIdle r i = if i.connected then
        (m.handOut r ((m.object r).connect i.connected).1 i.later, some (r, .connected))
      else (m.set r ((m.object r).connect i.connected).1, none) := by
  have hcheck : (m.object r).isNeedCheck i.now = true := by simp [MySQL.isNeedCheck, herror]
  have hping : (m.object r).ping i.answers = (m.object r, false) := if_pos hmysql
  have hconnect : ((m.object r).connect i.connected).2 = i.connected := by
    cases hc : i.connected <;> simp [MySQL.connect, herror]
  simp [getIdle, hcheck, hping, hconnect, herror]

theorem mysql_connect {o : MySQL} (h : o.mysql = true) (connected : Bool) : (o.connect connected).1.mysql = true := by
  unfold MySQL.connect
  split_ifs
  · exact h
  · rfl
  · exact h

theorem find_perm {α : Type} {p : α → Bool} {l : List α} {e : α} (h : l.find? p = some e) :
    l.Perm (e :: l.eraseP p) := by
  obtain ⟨hp, as, bs, rfl, has⟩ := find?_eq_some_iff_append.1 h
  have hskip : ∀ a ∈ as, ¬ p a = true := fun a ha => by simpa using has a ha
  rw [eraseP_append_right _ hskip, eraseP_cons_of_pos hp]
  exact perm_middle

/-! ## Owners -/

theorem present_set {o : MySQL} (h : Present m) (ho : o.mysql = true ∨ o.mysql = (m.object r).mysql) :
    Present (m.set r o) := by
  intro e he
  change (Function.update m.object r o e.2).mysql = true
  have hold := h e he
  by_cases her : e.2 = r
  · rw [her, Function.update_self]
    rcases ho with ho | ho
    · exact ho
    · rw [ho, ← her, hold]
  · rw [Function.update_of_ne her, hold]

variable {name : String} {e : String × ℕ}

theorem owned_getIdle (h : Owned s) (hfind : (s.mgr.conns.find? fun e => e.1 = name) = some e) (o : MySQL) :
    Owned ⟨(s.mgr.popFront name).set e.2 o, s.handles ++ [(name, e.2)]⟩ ∧
      ¬ Owned ⟨(s.mgr.popFront name).set e.2 o, s.handles⟩ := by
  have hperm : (s.mgr.conns.map Prod.snd).Perm (e.2 :: ((s.mgr.popFront name).set e.2 o).conns.map Prod.snd) :=
    (find_perm hfind).map Prod.snd
  constructor
  · refine Perm.trans ?_ h
    refine Perm.append_right _ ?_
    rw [map_append, ← append_assoc]
    refine (perm_append_singleton _ _).trans ?_
    exact (hperm.append_right _).symm
  · intro hlost
    have hlen :
      (((s.mgr.popFront name).set e.2 o).conns.map Prod.snd ++ s.handles.map Prod.snd ++ s.mgr.deleted).length =
        (s.mgr.conns.map Prod.snd ++ s.handles.map Prod.snd ++ s.mgr.deleted).length :=
        hlost.length_eq.trans h.length_eq.symm
    rw [length_append, length_append, length_append, length_append, hperm.length_eq, length_cons] at hlen
    omega

theorem get_some (hfind : (m.conns.find? fun e => e.1 = name) = some e) (i : Input) :
    m.get args name i = (m.popFront name).getIdle e.2 i := by
  unfold MySQLManager.get
  rw [hfind]

theorem get_idle_iff (howned : Owned s) (hpresent : Present s.mgr)
    (hfind : (s.mgr.conns.find? fun e => e.1 = name) = some e) (i : Input) :
    Healthy args s (.get name i) ∧ Owned (s.step args (.get name i)) ↔ s.Lucky (.get name i) := by
  have hmysql : (s.mgr.object e.2).mysql = true := hpresent e (mem_of_find?_eq_some hfind)
  simp only [Healthy, step, Lucky, get_some hfind, hfind, Option.mem_some_iff, forall_eq']
  cases herror : (s.mgr.object e.2).hasError with
  | true =>
    rw [getIdle_error (m := s.mgr.popFront name) hmysql herror]
    simp only [Option.some.injEq, Prod.mk.injEq, Option.toList_some, map_singleton]
    constructor
    · intro h
      exact h.1 e.2 .unchecked ⟨rfl, rfl⟩ rfl
    intro hlately
    refine ⟨?_, (owned_getIdle howned hfind _).1⟩
    rintro r check ⟨rfl, -⟩ -
    exact hlately
  | false =>
    rw [getIdle_fresh (m := s.mgr.popFront name) hmysql herror]
    simp only [Bool.false_eq_true, if_false]
    cases hconnected : i.connected with
    | true =>
      simp only [if_true, Option.some.injEq, Prod.mk.injEq, Option.toList_some, map_singleton, iff_true]
      refine ⟨?_, (owned_getIdle howned hfind _).1⟩
      rintro r check ⟨-, rfl⟩ hcheck
      cases hcheck
    | false =>
      simp only [Bool.false_eq_true, if_false, Option.toList_none, map_nil, append_nil, iff_false]
      intro h
      exact (owned_getIdle howned hfind _).2 h.2

theorem get_new (howned : Owned s) (hfind : (s.mgr.conns.find? fun e => e.1 = name) = none) (i : Input) :
    Healthy args s (.get name i) ∧ Owned (s.step args (.get name i)) := by
  have hrange : (s.mgr.count :: (s.mgr.conns.map Prod.snd ++ s.handles.map Prod.snd ++ s.mgr.deleted)).Perm
      (range (s.mgr.count + 1)) := by
    rw [range_succ]
    exact (howned.cons _).trans (perm_append_singleton _ _).symm
  simp only [Healthy, step, MySQLManager.get, hfind]
  cases args name with
  | none => exact ⟨nofun, by simpa using howned⟩
  | some pool =>
    have hnew : ((MySQL.new pool).connect i.connected).2 = i.connected := by
      cases hc : i.connected <;> simp [MySQL.connect, MySQL.new]
    simp only [MySQLManager.getNew, hnew]
    cases i.connected with
    | true =>
      refine ⟨?_, ?_⟩
      · rintro r check ⟨-, rfl⟩ hcheck
        cases hcheck
      refine Perm.trans ?_ hrange
      change (s.mgr.conns.map Prod.snd ++ (s.handles ++ [(name, s.mgr.count)]).map Prod.snd ++ s.mgr.deleted).Perm _
      rw [map_append, map_singleton, ← append_assoc, append_assoc _ [s.mgr.count]]
      exact perm_middle
    | false =>
      simp only [Bool.false_eq_true, if_false, Option.toList_none, map_nil, append_nil]
      exact ⟨nofun, perm_middle.trans hrange⟩

theorem owned_release (h : Owned s) (k : ℕ) : Owned (s.step args (.release k)) := by
  cases hk : s.handles[k]? with
  | none =>
    simp only [step, hk]
    exact h
  | some e =>
    obtain ⟨name, r⟩ := e
    obtain ⟨hlt, hget⟩ := List.getElem?_eq_some_iff.1 hk
    have hperm : (r :: (s.handles.eraseIdx k).map Prod.snd).Perm (s.handles.map Prod.snd) := by
      have hcons := (getElem_cons_eraseIdx_perm hlt).map Prod.snd
      rwa [hget] at hcons
    simp only [step, hk, freeMySQL]
    split_ifs
    · refine Perm.trans ?_ h
      rw [map_append, map_singleton, append_assoc _ [r]]
      exact (hperm.append_left _).append_right _
    · refine Perm.trans ?_ h
      refine perm_middle.trans (Perm.trans ?_ ((hperm.append_left _).append_right _))
      exact perm_middle.symm.append_right _

theorem owned_checkConnection (h : Owned s) (sec : Int32) (now : UInt64) :
    Owned (s.step args (.checkConnection sec now)) := by
  have hsplit := (filter_append_perm (s.mgr.isStale sec now) s.mgr.conns).map Prod.snd
  rw [map_append] at hsplit
  refine Perm.trans ?_ h
  change ((s.mgr.conns.filter _).map Prod.snd ++ s.handles.map Prod.snd ++
    ((s.mgr.conns.filter _).map Prod.snd ++ s.mgr.deleted)).Perm _
  rw [← append_assoc]
  refine Perm.append_right _ ?_
  refine (perm_append_comm.trans ?_)
  rw [← append_assoc]
  exact hsplit.append_right _

theorem owned_use (h : Owned s) (k : ℕ) (f : MySQL → MySQL) : Owned (s.use k f) := by
  unfold use
  split
  · exact h
  · exact h

theorem present_use (h : Present s.mgr) (k : ℕ) {f : MySQL → MySQL} (hf : ∀ o, (f o).mysql = o.mysql) :
    Present (s.use k f).mgr := by
  unfold use
  split
  · exact h
  · exact present_set h (Or.inr (hf _))

theorem present_getIdle (h : Present m) (hr : (m.object r).mysql = true) (i : Input) : Present (m.getIdle r i).1 := by
  cases herror : (m.object r).hasError with
  | true =>
    rw [getIdle_error hr herror]
    exact present_set h (Or.inl hr)
  | false =>
    rw [getIdle_fresh hr herror]
    split_ifs
    all_goals exact present_set h (Or.inl (mysql_connect hr _))

theorem present_get (h : Present m) (name : String) (i : Input) : Present (m.get args name i).1 := by
  cases hfind : m.conns.find? fun e => e.1 = name with
  | some e =>
    rw [get_some hfind]
    have hpop : Present (m.popFront name) := fun e he => h e (mem_of_mem_eraseP he)
    exact present_getIdle hpop (h e (mem_of_find?_eq_some hfind)) i
  | none =>
    simp only [MySQLManager.get, hfind]
    cases args name with
    | none => exact h
    | some pool =>
      dsimp only [MySQLManager.getNew]
      split_ifs with hconnected
      · refine present_set (m := { m with count := m.count + 1 }) h (Or.inl ?_)
        cases hc : i.connected with
        | true => rfl
        | false =>
          rw [hc] at hconnected
          cases hconnected
      · exact h

theorem present_step (h : Present s.mgr) (o : Op) : Present (s.step args o).mgr := by
  cases o with
  | get name i => exact present_get h name i
  | release k =>
    cases hk : s.handles[k]? with
    | none =>
      simp only [step, hk]
      exact h
    | some e =>
      simp only [step, hk, freeMySQL]
      split_ifs with hkeep
      · exact forall_mem_append.2 ⟨h, forall_mem_singleton.2 hkeep.1⟩
      · exact h
  | execute k now ok | executeStmt k now ok => exact present_use h k fun _ => rfl
  | checkConnection sec now => exact fun e he => h e (mem_of_mem_filter he)

theorem right_iff_lucky (howned : Owned s) (hpresent : Present s.mgr) (o : Op) :
    Healthy args s o ∧ Owned (s.step args o) ↔ s.Lucky o := by
  cases o with
  | get name i =>
    cases hfind : s.mgr.conns.find? fun e => e.1 = name with
    | some e => exact get_idle_iff howned hpresent hfind i
    | none => exact iff_of_true (get_new howned hfind i) (by simp [Lucky, hfind])
  | release k => exact iff_of_true ⟨trivial, owned_release howned k⟩ trivial
  | execute k now ok | executeStmt k now ok => exact iff_of_true ⟨trivial, owned_use howned k _⟩ trivial
  | checkConnection sec now => exact iff_of_true ⟨trivial, owned_checkConnection howned sec now⟩ trivial

/-- **The pools.** -/
theorem pool_health_iff (args : String → Option Int32) (ops : List Op) :
    Meets (step args) (fun s o => Healthy args s o ∧ Owned (s.step args o)) init ops ↔
      Meets (step args) Lucky init ops := by
  refine meets_congr (I := fun s => Owned s ∧ Present s.mgr) ?_ (fun s o h => right_iff_lucky h.1 h.2 o) ?_ ops
  · intro s o hlucky h
    exact ⟨((right_iff_lucky h.1 h.2 o).2 hlucky).2, present_step h.2 o⟩
  · exact ⟨Perm.refl _, nofun⟩

/-- one database -/
def oneDb (name : String) : Option Int32 := if name = "blog" then some 5 else none

/-- at this time the server can be reached -/
def reachableAt (now : UInt64) : Input := ⟨now, true, true, now⟩

theorem erring_handed_out_and_object_lost :
    let s := run (step oneDb) init [.get "blog" (reachableAt 100), .execute 0 100 false, .release 0]
    let s' := run (step oneDb) init [.get "blog" (reachableAt 100), .release 0, .get "blog" ⟨101, true, false, 101⟩]
    ((s.mgr.get oneDb "blog" (reachableAt 101)).2 = some (0, .unchecked) ∧ (s.mgr.object 0).hasError = true ∧
        ¬ Healthy oneDb s (.get "blog" (reachableAt 101))) ∧
      s'.mgr.conns = [] ∧ s'.handles = [] ∧ s'.mgr.deleted = [] ∧ s'.mgr.count = 1 ∧ ¬ Owned s' := by
  intro s s'
  have hget : (s.mgr.get oneDb "blog" (reachableAt 101)).2 = some (0, .unchecked) := by decide
  refine ⟨⟨hget, by decide, fun h => ?_⟩, by decide, by decide, by decide, by decide, fun h => ?_⟩
  · obtain ⟨t, ht, -⟩ := h 0 .unchecked hget rfl
    cases ht
  · exact absurd h.length_eq (by decide)

end State

end CoServer.Db.Sql
