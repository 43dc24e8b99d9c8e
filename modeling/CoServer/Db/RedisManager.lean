/-
`RedisManager` (src/db/redis.cpp): the pools of redis connections, by name.

`get(name)` takes the first connection of the pool: an asynchronous one is put back at once and shared, a synchronous
one leaves the pool until its handle is released, unless it was not used for 30 seconds and both the ping and
`reconnect()` return false. The release puts it into the pool of the name stored in the object. Only the asynchronous
connections are given a name by `init`, so a synchronous one comes back to the pool with the empty name. Objects are
numbered in the order of their creation; the clock and the return values of the ping and of `reconnect()` are inputs.
`init` does not return for a negative pool size; the loop that waits is left out.

Results:
- `conserved_iff_unnamed`: one call, in a state in which the pools are as they should be.
- `pools_conserved_iff`: after every step of a sequence of `get` and releases each pool has as many connections, idle or
  borrowed under its name, as `init` created for it, and `get` succeeds once they are back and `reconnect()` returns
  true, iff no synchronous connection is released that was borrowed under another name than the empty one.
- `released_connection_lost`: the connection is in the pool with the empty name, and `get("cache")` fails from now on.
-/
import CoServer.Core.Run
import CoServer.Core.Update
import CoServer.TypeUtil

namespace CoServer.Db.Redis

open CoServer.Core CString Function List

/-! ## The code -/

abbrev Str := List UInt8

/-- `IRedis::Type` -/
inductive Kind where
  | redis
  | redisCluster
  | foxRedis
  | foxRedisCluster
deriving DecidableEq

/-- the connections that are shared and not taken out of the pool -/
def Kind.isFox : Kind → Bool
  | .redis | .redisCluster => false
  | .foxRedis | .foxRedisCluster => true

structure IRedis where
  type : Kind
  name : Str
  /-- of an `ISyncRedis` -/
  lastActiveTime : UInt64
deriving DecidableEq

inductive Deleter where
  | nop
  | freeRedis
deriving DecidableEq

/-- what `get` returns -/
structure Handle where
  redis : ℕ
  deleter : Deleter
deriving DecidableEq

structure RedisManager where
  /-- `_datas`; a name that is not in the map has no connections -/
  datas : Str → List ℕ
  object : ℕ → IRedis
  /-- number of objects created -/
  count : ℕ

open RedisManager

/-- the settings of one name -/
abbrev Conf := Str → Option Str

def getValue (m : Conf) (key : String) : Str := (m (lit key)).getD []

/-- the pool size of the settings, an `int64_t` -/
def poolOf (conf : Conf) : ℤ := (TypeUtil.atoi (getValue conf "pool")).toBitVec.toInt

def kindOf (type : Str) : Option Kind :=
  if type = lit "redis" then some .redis
  else if type = lit "redis_cluster" then some .redisCluster
  else if type = lit "fox_redis" then some .foxRedis
  else if type = lit "fox_redis_cluster" then some .foxRedisCluster
  else none

/-- what `get` asks the system -/
structure Input where
  now : UInt64
  ping : Bool
  reconnect : Bool
  /-- the clock, after them -/
  later : UInt64

namespace RedisManager

variable (clock : ℕ → UInt64) (m : RedisManager)

/-- one turn of the inner loop of `init`: `setName` is called for the asynchronous connections only -/
def create (name : Str) (type : Kind) (m : RedisManager) : RedisManager where
  datas := update m.datas name (m.datas name ++ [m.count])
  object := update m.object m.count ⟨type, if type.isFox then name else [], clock m.count⟩
  count := m.count + 1

/-- one turn of the outer loop -/
def createPool (i : Str × Conf) : RedisManager :=
  match kindOf (getValue i.2 "type") with
  | none => m
  | some type => (create clock i.1 type)^[(poolOf i.2).toNat] m

def empty : RedisManager := ⟨fun _ => [], fun _ => ⟨.redis, [], 0⟩, 0⟩

def init (config : List (Str × Conf)) : RedisManager := config.foldl (createPool clock) empty

def get (name : Str) (i : Input) : RedisManager × Option Handle :=
  match m.datas name with
  | [] => (m, none)
  | r :: rest =>
    if (m.object r).type.isFox then ({ m with datas := update m.datas name (rest ++ [r]) }, some ⟨r, .nop⟩)
    else if i.now - (m.object r).lastActiveTime > 30 ∧ i.ping = false ∧ i.reconnect = false then
      ({ m with datas := update m.datas name (rest ++ [r]) }, none)
    else
      ({ m with
          datas := update m.datas name rest
          object := update m.object r { m.object r with lastActiveTime := i.later } }, some ⟨r, .freeRedis⟩)

def freeRedis (r : ℕ) : RedisManager :=
  { m with datas := update m.datas (m.object r).name (m.datas (m.object r).name ++ [r]) }

end RedisManager

/-! ## Borrowers -/

structure State where
  mgr : RedisManager
  /-- the handles that are in use, with the name they were asked for -/
  handles : List (Str × Handle)

inductive Op where
  | get (name : Str) (i : Input)
  /-- the last copy of a handle is dropped -/
  | release (k : ℕ)

namespace State

def step (s : State) : Op → State
  | .get name i => ⟨(s.mgr.get name i).1, s.handles ++ (s.mgr.get name i).2.toList.map (Prod.mk name)⟩
  | .release k =>
    match s.handles[k]? with
    | none => s
    | some (_, ⟨_, .nop⟩) => { s with handles := s.handles.eraseIdx k }
    | some (_, ⟨r, .freeRedis⟩) => ⟨s.mgr.freeRedis r, s.handles.eraseIdx k⟩

def start (clock : ℕ → UInt64) (config : List (Str × Conf)) : State := ⟨.init clock config, []⟩

/-- a connection that is out of the pool of this name -/
def isOut (name : Str) (e : Str × Handle) : Bool := e.1 = name ∧ e.2.deleter = .freeRedis

/-- the connections borrowed under a name -/
def borrowed (s : State) (name : Str) : ℕ := s.handles.countP (isOut name)

/-- what the configuration asks for under a name -/
def poolSize (conf : Conf) : ℕ := if (kindOf (getValue conf "type")).isSome then (poolOf conf).toNat else 0

def created (config : List (Str × Conf)) (name : Str) : ℕ :=
  ((config.filter fun i => i.1 = name).map fun i => poolSize i.2).sum

/-- idle and borrowed connections of every pool are as many as `init` created for it -/
def Conserved (created : Str → ℕ) (s : State) : Prop :=
  ∀ name, (s.mgr.datas name).length + s.borrowed name = created name

/-- `get` succeeds again when every handle of the pool is back and `reconnect()` returns true. That of `Redis` is the
`int` of `redisReconnect`, which is 0 on success: true is a failure, so the condition is on the value returned and not
on the server -/
def Serves (created : Str → ℕ) (s : State) : Prop :=
  ∀ name i, 0 < created name → s.borrowed name = 0 → i.reconnect = true → (s.mgr.get name i).2 ≠ none

/-- a synchronous connection is released only if it was borrowed under the empty name -/
def Unnamed (s : State) : Op → Prop
  | .get _ _ => True
  | .release k => ∀ e ∈ s.handles[k]?, e.2.deleter = .freeRedis → e.1 = []

/-! ## What a call does to the pools -/

section

variable (m : RedisManager)

theorem get_cases (name : Str) (i : Input) :
    (m.datas name = [] ∧ m.get name i = (m, none)) ∨
      ∃ r rest, m.datas name = r :: rest ∧
        ((m.object r).type.isFox = true ∧
            m.get name i = ({ m with datas := update m.datas name (rest ++ [r]) }, some ⟨r, .nop⟩) ∨
          i.reconnect = false ∧ m.get name i = ({ m with datas := update m.datas name (rest ++ [r]) }, none) ∨
          (m.object r).type.isFox = false ∧
            m.get name i = ({ m with
              datas := update m.datas name rest
              object := update m.object r { m.object r with lastActiveTime := i.later } }, some ⟨r, .freeRedis⟩)) := by
  unfold RedisManager.get
  cases hdatas : m.datas name with
  | nil => exact .inl ⟨rfl, rfl⟩
  | cons r rest =>
    refine .inr ⟨r, rest, rfl, ?_⟩
    dsimp only
    split_ifs with hfox hdead
    · exact .inl ⟨hfox, rfl⟩
    · exact .inr (.inl ⟨hdead.2.2, rfl⟩)
    · exact .inr (.inr ⟨Bool.eq_false_iff.2 hfox, rfl⟩)

theorem get_length (name : Str) (i : Input) (pool : Str) :
    ((m.get name i).1.datas pool).length + ((m.get name i).2.toList.map (Prod.mk name)).countP (isOut pool) =
      (m.datas pool).length := by
  rcases get_cases m name i with ⟨-, hget⟩ | ⟨r, rest, hdatas, hcases⟩
  · rw [hget]
    rfl
  by_cases hp : pool = name
  · subst hp
    rcases hcases with ⟨-, hget⟩ | ⟨-, hget⟩ | ⟨-, hget⟩
    · simp [hget, hdatas, isOut]
    · simp [hget, hdatas]
    · simp [hget, hdatas, isOut]
  · rcases hcases with ⟨-, hget⟩ | ⟨-, hget⟩ | ⟨-, hget⟩
    · simp [hget, hp, isOut]
    · simp [hget, hp]
    · simp [hget, hp, Ne.symm hp, isOut]

theorem free_length (r : ℕ) (pool : Str) :
    ((m.freeRedis r).datas pool).length = (m.datas pool).length + if (m.object r).name = pool then 1 else 0 := by
  unfold freeRedis
  by_cases hp : pool = (m.object r).name
  · subst hp
    simp
  · simp [hp, Ne.symm hp]

theorem borrowed_erase {handles : List (Str × Handle)} {k : ℕ} {e : Str × Handle} (h : handles[k]? = some e)
    (pool : Str) :
    (handles.eraseIdx k).countP (isOut pool) + (if isOut pool e then 1 else 0) = handles.countP (isOut pool) := by
  obtain ⟨hk, rfl⟩ := List.getElem?_eq_some_iff.1 h
  rw [← (getElem_cons_eraseIdx_perm hk).countP_eq, countP_cons]

/-! ## Names -/

/-- synchronous connections have no name, and only they are out of the pool -/
structure Names (s : State) : Prop where
  unnamed : ∀ r, (s.mgr.object r).type.isFox = false → (s.mgr.object r).name = []
  out : ∀ e ∈ s.handles, e.2.deleter = .freeRedis → (s.mgr.object e.2.redis).type.isFox = false

theorem get_object (name : Str) (i : Input) (r : ℕ) :
    ((m.get name i).1.object r).type = (m.object r).type ∧ ((m.get name i).1.object r).name = (m.object r).name := by
  rcases get_cases m name i with ⟨-, hget⟩ | ⟨c, rest, -, ⟨-, hget⟩ | ⟨-, hget⟩ | ⟨-, hget⟩⟩
  · rw [hget]
    exact ⟨rfl, rfl⟩
  · rw [hget]
    exact ⟨rfl, rfl⟩
  · rw [hget]
    exact ⟨rfl, rfl⟩
  rw [hget]
  by_cases hr : r = c
  · subst hr
    simp
  · simp [hr]

end

theorem get_out {m : RedisManager} {name : Str} {i : Input} {h : Handle} (hsome : (m.get name i).2 = some h)
    (hfree : h.deleter = .freeRedis) : (m.object h.redis).type.isFox = false := by
  rcases get_cases m name i with ⟨-, hget⟩ | ⟨r, rest, -, ⟨-, hget⟩ | ⟨-, hget⟩ | ⟨hsync, hget⟩⟩
  · rw [hget] at hsome
    cases hsome
  · rw [hget] at hsome
    cases hsome
    cases hfree
  · rw [hget] at hsome
    cases hsome
  · rw [hget] at hsome
    cases hsome
    exact hsync

variable {s : State} (clock : ℕ → UInt64)

theorem names_step (o : Op) (h : Names s) : Names (s.step o) := by
  cases o with
  | get name i =>
    refine ⟨fun r hr => ?_, fun e he hfree => ?_⟩
    · obtain ⟨htype, hname⟩ := get_object s.mgr name i r
      exact hname.trans (h.unnamed r (htype ▸ hr))
    have hkept : (s.mgr.object e.2.redis).type.isFox = false := by
      rcases mem_append.1 he with he | he
      · exact h.out e he hfree
      · obtain ⟨hd, hmem, rfl⟩ := mem_map.1 he
        exact get_out (Option.mem_toList.1 hmem) hfree
    exact (get_object s.mgr name i e.2.redis).1 ▸ hkept
  | release k =>
    have hsub : ∀ e ∈ s.handles.eraseIdx k, e ∈ s.handles := fun e he => (eraseIdx_sublist _ _).subset he
    unfold step
    dsimp only
    split
    · exact h
    · exact ⟨h.unnamed, fun e he => h.out e (hsub e he)⟩
    · exact ⟨h.unnamed, fun e he => h.out e (hsub e he)⟩

/-! ## Conservation -/

theorem serves_of_conserved {created : Str → ℕ} (h : Conserved created s) : Serves created s := by
  intro name i hpos hback hreconnect
  rcases get_cases s.mgr name i with ⟨hdatas, -⟩ | ⟨r, rest, -, ⟨-, hget⟩ | ⟨hfail, -⟩ | ⟨-, hget⟩⟩
  · have hlen := h name
    rw [hdatas, hback] at hlen
    exact absurd hlen hpos.ne
  · rw [hget]
    exact Option.some_ne_none _
  · rw [hreconnect] at hfail
    cases hfail
  · rw [hget]
    exact Option.some_ne_none _

theorem conserved_get {created : Str → ℕ} (h : Conserved created s) (name : Str) (i : Input) :
    Conserved created (s.step (.get name i)) := by
  intro pool
  have hlen := get_length s.mgr name i pool
  have hpool := h pool
  simp only [borrowed] at hpool
  simp only [step, borrowed, countP_append]
  omega

theorem release_length {k : ℕ} {name : Str} {r : ℕ} (hk : s.handles[k]? = some (name, ⟨r, .freeRedis⟩)) (pool : Str) :
    ((s.step (.release k)).mgr.datas pool).length + (s.step (.release k)).borrowed pool +
    (if name = pool then 1 else 0) =
      (s.mgr.datas pool).length + s.borrowed pool + if (s.mgr.object r).name = pool then 1 else 0 := by
  have hfree := free_length s.mgr r pool
  have herase := borrowed_erase hk pool
  have hout : isOut pool (name, ⟨r, .freeRedis⟩) = decide (name = pool) := by simp [isOut]
  rw [hout] at herase
  simp only [decide_eq_true_eq] at herase
  simp only [step, hk, borrowed]
  omega

theorem release_nop {k : ℕ} {name : Str} {r : ℕ} (hk : s.handles[k]? = some (name, ⟨r, .nop⟩)) (pool : Str) :
    (s.step (.release k)).mgr.datas pool = s.mgr.datas pool ∧
      (s.step (.release k)).borrowed pool = s.borrowed pool := by
  have herase := borrowed_erase hk pool
  have hout : isOut pool (name, ⟨r, .nop⟩) = false := by simp [isOut]
  rw [hout] at herase
  refine ⟨by simp only [step, hk], ?_⟩
  simp only [step, hk]
  exact herase

theorem conserved_release_iff {created : Str → ℕ} (h : Conserved created s) (hnames : Names s) (k : ℕ) :
    Conserved created (s.step (.release k)) ↔ s.Unnamed (.release k) := by
  cases hk : s.handles[k]? with
  | none => simp [step, Unnamed, hk, h]
  | some e =>
    obtain ⟨name, r, deleter⟩ := e
    cases deleter with
    | nop =>
      have hsame : Conserved created (s.step (.release k)) := by
        intro pool
        rw [(release_nop hk pool).1, (release_nop hk pool).2]
        exact h pool
      simp [Unnamed, hk, hsame]
    | freeRedis =>
      have hname : (s.mgr.object r).name = [] := hnames.unnamed r (hnames.out _ (mem_of_getElem? hk) rfl)
      have hlen := fun pool => release_length hk pool
      rw [hname] at hlen
      simp only [Unnamed, hk, Option.mem_some_iff, forall_eq', forall_const]
      constructor
      · intro hconserved
        by_contra hne
        have hpool := hlen name
        rw [if_pos rfl, if_neg (Ne.symm hne)] at hpool
        have hbefore := h name
        have hafter := hconserved name
        omega
      · rintro rfl pool
        have hpool := hlen pool
        have hbefore := h pool
        omega

theorem conserved_iff_unnamed {created : Str → ℕ} (h : Conserved created s) (hnames : Names s) (o : Op) :
    Conserved created (s.step o) ∧ Serves created (s.step o) ↔ s.Unnamed o := by
  rw [and_iff_left_of_imp serves_of_conserved]
  cases o with
  | get name i => exact iff_of_true (conserved_get h name i) trivial
  | release k => exact conserved_release_iff h hnames k

/-! ## After `init` -/

theorem length_create (name : Str) (type : Kind) (n : ℕ) (m : RedisManager) (pool : Str) :
    (((create clock name type)^[n] m).datas pool).length = (m.datas pool).length + if name = pool then n else 0 := by
  induction n generalizing m with
  | zero => simp
  | succ n ih =>
    have hone : ((m.create clock name type).datas pool).length = (m.datas pool).length + if name = pool then 1
        else 0 := by
      unfold create
      by_cases hp : pool = name
      · subst hp
        simp
      · simp [hp, Ne.symm hp]
    rw [iterate_succ_apply, ih, hone]
    split_ifs
    · omega
    · rfl

theorem length_createPool (m : RedisManager) (i : Str × Conf) (pool : Str) :
    ((m.createPool clock i).datas pool).length = (m.datas pool).length + if i.1 = pool then poolSize i.2 else 0 := by
  unfold createPool poolSize
  cases kindOf (getValue i.2 "type") with
  | none => simp
  | some type => simp [length_create]

theorem length_init (config : List (Str × Conf)) (name : Str) :
    ((init clock config).datas name).length = created config name := by
  have hfold : ∀ m : RedisManager,
      ((config.foldl (createPool clock) m).datas name).length = (m.datas name).length + created config name := by
    induction config with
    | nil => intro m; rfl
    | cons i config ih =>
      intro m
      rw [foldl_cons, ih, length_createPool, created, created]
      by_cases hi : i.1 = name
      · simp [hi, Nat.add_assoc]
      · simp [hi]
  have hempty : (empty.datas name).length = 0 := rfl
  rw [init, hfold, hempty, Nat.zero_add]

theorem names_create {clock : ℕ → UInt64} {m : RedisManager} (h : Names ⟨m, []⟩) (name : Str) (type : Kind) :
    Names ⟨m.create clock name type, []⟩ := by
  refine ⟨fun r hr => ?_, fun e he => nomatch he⟩
  change (update m.object m.count _ r).name = []
  change (update m.object m.count _ r).type.isFox = false at hr
  by_cases hc : r = m.count
  · subst hc
    rw [update_self] at hr ⊢
    exact if_neg (Bool.eq_false_iff.1 hr)
  · rw [update_of_ne hc] at hr ⊢
    exact h.unnamed r hr

theorem names_start (config : List (Str × Conf)) : Names (start clock config) := by
  have hpool : ∀ (m : RedisManager) (i : Str × Conf), Names ⟨m, []⟩ → Names ⟨m.createPool clock i, []⟩ := by
    intro m i h
    unfold createPool
    split
    · exact h
    · exact Iterate.rec (fun m => Names ⟨m, []⟩) h (fun _ h => names_create h _ _) _
  refine run_inv_of_step (I := fun m => Names ⟨m, []⟩) hpool _ config ?_
  exact ⟨fun _ _ => rfl, fun e he => nomatch he⟩

/-- **Pools.** -/
theorem pools_conserved_iff (clock : ℕ → UInt64) (config : List (Str × Conf)) (ops : List Op) :
    Meets step (fun s o => Conserved (created config) (s.step o) ∧ Serves (created config) (s.step o))
    (start clock config) ops ↔
      Meets step Unnamed (start clock config) ops := by
  refine meets_congr (I := fun s => Conserved (created config) s ∧ Names s) ?_
    (fun s o h => conserved_iff_unnamed h.1 h.2 o) ?_ ops
  · intro s o hunnamed h
    exact ⟨((conserved_iff_unnamed h.1 h.2 o).2 hunnamed).1, names_step o h.2⟩
  · exact ⟨fun name => length_init clock config name, names_start clock config⟩

/-- one synchronous connection, in the pool "cache" -/
def oneRedis : List (Str × Conf) :=
  [(lit "cache", fun key => if key = lit "type" then some (lit "redis") else if key = lit "pool"
    then some (lit "1") else none)]

/-- it is active, so it is not checked -/
def active : Input := ⟨0, false, true, 0⟩

theorem released_connection_lost :
    let s := run step (start (fun _ => 0) oneRedis) [.get (lit "cache") active, .release 0]
    s.handles = [] ∧ s.mgr.datas (lit "cache") = [] ∧ s.mgr.datas [] = [0] ∧ (s.mgr.get (lit "cache") active).2 = none ∧
      ¬ Conserved (created oneRedis) s := by
  refine ⟨by decide, by decide, by decide, by decide, ?_⟩
  intro h
  exact absurd (h (lit "cache")) (by decide)

end State

end CoServer.Db.Redis
