/-
Service discovery and the load balancer of one service (`service_discovery.cpp`, `load_balance.cpp`).

`getChildren` reads the children of the service's path, swaps the snapshot of the service under the lock, and then calls
back with the old and the new snapshot; `onServiceChange` gives the balancer the difference of the two. `getChildren` is
called at any time, so a callback may run after one whose swap came later. `pending` holds the callbacks that have not
run, in the order of their swaps; a callback is one step. `inet_addr` is a parameter, and so is whether a stream can be
created for an info.

Everything is said at one id: a difference of two snapshots sets the membership of the id or leaves it alone (`amend`).
The pending callbacks, run in the order of the swaps, would bring the balancer to the snapshot (`follows_step`).

Results:
- `has_onServiceChange`: with every stream created, a callback gives the balancer the difference of its two snapshots.
- `balancer_follows`: in a run in which no callback runs as the last pending one to change an id that an earlier
  callback is still to change, the balancer has the ids of the snapshot once every call has finished.
- `stale_callback_wins`: the timer has read the provider, the watcher sees it gone; the timer's callback runs last.
-/
import CoServer.Core.KeyMap
import CoServer.Core.Run
import CoServer.Core.Update
import CoServer.TypeUtil

namespace CoServer.LoadBalance.Discovery

open CoServer.Core CString List KeyMap

/-! ## Snapshots -/

structure ServiceItemInfo where
  id : UInt64
  ip : List UInt8
  port : UInt16
  data : List UInt8
deriving DecidableEq

variable (inetAddr : List UInt8 → UInt32)

/-- `ServiceItemInfo::Create` -/
def ServiceItemInfo.create (ipAndPort data : List UInt8) : Option ServiceItemInfo :=
  match cut 58 ipAndPort with
  | none => none
  | some (ip, rest) =>
    let port := TypeUtil.atoi rest
    let ipAddr := inetAddr (cstr ip)
    if ipAddr = 0 then none else some ⟨(ipAddr.toUInt64 <<< 32) ||| port, ip, port.toUInt16, data⟩

/-- `std::unordered_map<uint64_t, ServiceItemInfo::ptr>` -/
abbrev Snapshot := KeyMap ServiceItemInfo.id

/-- the loop of `getChildren` over the children's names -/
def readChildren (vals : List (List UInt8)) : Snapshot :=
  vals.foldl (fun infos i =>
    match ServiceItemInfo.create inetAddr i [] with
    | none => infos
    | some info => infos.add info) empty

/-! ## The balancer -/

/-- `LoadBalanceItem`, with the info its stream was created for -/
structure LoadBalanceItem where
  id : UInt64
  stream : ServiceItemInfo
  weight : UInt32
deriving DecidableEq

/-- `LoadBalance::_datas` -/
abbrev Items := KeyMap LoadBalanceItem.id

/-- `LoadBalance::update` -/
def update (datas : Items) (adds : List LoadBalanceItem) (dels : List UInt64) : Items :=
  adds.foldl add (dels.foldl erase datas)

variable (created : ServiceItemInfo → Bool)

/-- `SDLoadBalance::onServiceChange`; `created` says whether the callback gives a stream for an info -/
def onServiceChange (lb : Items) (oldValue newValue : Snapshot) : Items :=
  let delInfos := (oldValue.values.map ServiceItemInfo.id).filter fun id => newValue.find id = none
  let addValues := newValue.values.filter fun i => oldValue.find i.id = none
  let addInfos := (addValues.filter created).map fun i => ⟨i.id, i, 10000⟩
  update lb addInfos delInfos

/-! ## The machine -/

structure State where
  /-- `_datas[domain][service]` of the discovery -/
  datas : Snapshot
  balancer : Items
  /-- the callbacks still to run, old and new snapshot, in the order of the swaps -/
  pending : List (Snapshot × Snapshot)

inductive Op where
  /-- a `getChildren` call that has read these children, or has failed, gets to its locked section -/
  | swap (vals : Option (List (List UInt8)))
  /-- the callback with that place among the pending ones -/
  | callback (j : ℕ)
deriving DecidableEq

def init : State := ⟨empty, empty, []⟩

def step (s : State) : Op → State
  | .swap none => s
  | .swap (some vals) =>
    { s with datas := readChildren inetAddr vals, pending := s.pending ++ [(s.datas, readChildren inetAddr vals)] }
  | .callback j =>
    match s.pending[j]? with
    | none => s
    | some (oldValue, newValue) =>
      { s with balancer := onServiceChange created s.balancer oldValue newValue, pending := s.pending.eraseIdx j }

/-- the map has the id -/
def Has {ν : Type} {key : ν → UInt64} (m : KeyMap key) (id : UInt64) : Bool := (m.find id).isSome

/-- the callback adds or removes the id -/
def Changes (d : Snapshot × Snapshot) (id : UInt64) : Prop := Has d.1 id ≠ Has d.2 id

/-- a callback runs while an earlier one is pending that changes one of its ids only if a later one is pending that
changes it too -/
def Orderly (s : State) : Op → Prop
  | .swap _ => True
  | .callback j => ∀ d ∈ s.pending[j]?, ∀ id, Changes d id →
      (∃ e ∈ s.pending.take j, Changes e id) → ∃ e ∈ s.pending.drop (j + 1), Changes e id

/-! ## Differences at one id -/

/-- the membership after the difference of two snapshots with memberships `o` and `n` -/
def amend (b o n : Bool) : Bool := if o = n then b else n

/-- the membership after all differences -/
def amendAll (b : Bool) (l : List (Bool × Bool)) : Bool := l.foldl (fun b d => amend b d.1 d.2) b

theorem amend_old (o n : Bool) : amend o o n = n := by
  unfold amend
  split
  · assumption
  · rfl

theorem amendAll_cons (b : Bool) (d : Bool × Bool) (l : List (Bool × Bool)) :
    amendAll b (d :: l) = amendAll (amend b d.1 d.2) l := rfl

theorem amendAll_append (b : Bool) (l l' : List (Bool × Bool)) : amendAll b (l ++ l') = amendAll (amendAll b l) l' :=
  foldl_append

theorem amendAll_of_same {l : List (Bool × Bool)} (h : ∀ d ∈ l, d.1 = d.2) (b : Bool) : amendAll b l = b := by
  induction l with
  | nil => rfl
  | cons d l ih =>
    rw [amendAll_cons, amend, if_pos (h d mem_cons_self)]
    exact ih fun e he => h e (mem_cons_of_mem d he)

theorem amendAll_of_changes {l : List (Bool × Bool)} (h : ∃ d ∈ l, d.1 ≠ d.2) (b b' : Bool) :
    amendAll b l = amendAll b' l := by
  induction l generalizing b b' with
  | nil =>
    obtain ⟨d, hd, -⟩ := h
    cases hd
  | cons d l ih =>
    rw [amendAll_cons, amendAll_cons]
    by_cases hd : d.1 = d.2
    · refine ih ?_ _ _
      obtain ⟨e, he, hne⟩ := h
      rcases mem_cons.1 he with rfl | he
      · exact absurd hd hne
      · exact ⟨e, he, hne⟩
    · rw [amend, amend, if_neg hd, if_neg hd]

theorem amendAll_ahead {pre post : List (Bool × Bool)} {d : Bool × Bool}
    (h : d.1 ≠ d.2 → (∃ e ∈ pre, e.1 ≠ e.2) → ∃ e ∈ post, e.1 ≠ e.2) (b : Bool) :
    amendAll (amend b d.1 d.2) (pre ++ post) = amendAll b (pre ++ d :: post) := by
  rw [amendAll_append, amendAll_append, amendAll_cons]
  by_cases hd : d.1 = d.2
  · rw [amend, amend, if_pos hd, if_pos hd]
  by_cases hpre : ∃ e ∈ pre, e.1 ≠ e.2
  · exact amendAll_of_changes (h hd hpre) _ _
  have hsame : ∀ e ∈ pre, e.1 = e.2 := by
    intro e he
    by_contra hne
    exact hpre ⟨e, he, hne⟩
  rw [amendAll_of_same hsame, amendAll_of_same hsame]

/-! ## What a callback does -/

variable {ν : Type}

theorem has_add {key : ν → UInt64} (m : KeyMap key) (v : ν) (id : UInt64) :
    Has (m.add v) id = if id = key v then true else Has m id := by
  rw [Has, find_add]
  split
  · rfl
  · rfl

theorem has_erase {key : ν → UInt64} (m : KeyMap key) (k id : UInt64) :
    Has (m.erase k) id = if id = k then false else Has m id := by
  rw [Has, find_erase]
  split
  · rfl
  · rfl

theorem has_iff {key : ν → UInt64} {m : KeyMap key} {id : UInt64} : Has m id = true ↔ ∃ v ∈ m.values, key v = id := by
  rw [Has, Option.isSome_iff_exists]
  constructor
  · rintro ⟨v, hv⟩
    obtain rfl := key_of_find hv
    exact ⟨v, mem_values.2 hv, rfl⟩
  · rintro ⟨v, hv, rfl⟩
    exact ⟨v, mem_values.1 hv⟩

theorem has_eq_false_iff {key : ν → UInt64} {m : KeyMap key} {id : UInt64} : Has m id = false ↔ m.find id = none := by
  rw [Has, Option.isSome_eq_false_iff, Option.isNone_iff_eq_none]

theorem has_update (datas : Items) (adds : List LoadBalanceItem) (dels : List UInt64) (id : UInt64) :
    Has (update datas adds dels) id =
      if ∃ i ∈ adds, id = i.id then true else if ∃ k ∈ dels, id = k then false else Has datas id := by
  have hadd := foldl_write (fun (m : Items) i => m.add i) (fun m => Has m id) (fun i => id = i.id) true
    (fun m i => has_add m i id) adds
  have hdel := foldl_write (fun (m : Items) k => m.erase k) (fun m => Has m id) (fun k => id = k) false
    (fun m k => has_erase m k id) dels
  exact (hadd _).trans (if_congr Iff.rfl rfl (hdel datas))

theorem has_onServiceChange {created : ServiceItemInfo → Bool} (hcreated : ∀ i, created i = true) (lb : Items)
    (oldValue newValue : Snapshot) (id : UInt64) :
    Has (onServiceChange created lb oldValue newValue) id = amend (Has lb id) (Has oldValue id) (Has newValue id) := by
  have hadds : (∃ i ∈ ((newValue.values.filter fun i => oldValue.find i.id = none).filter created).map
      fun i => (⟨i.id, i, 10000⟩ : LoadBalanceItem), id = i.id) ↔ Has newValue id = true ∧ Has oldValue id = false := by
    rw [has_iff, has_eq_false_iff]
    constructor
    · rintro ⟨item, hitem, rfl⟩
      obtain ⟨i, hmem, rfl⟩ := mem_map.1 hitem
      obtain ⟨hv, hnone⟩ := mem_filter.1 (mem_filter.1 hmem).1
      exact ⟨⟨i, hv, rfl⟩, of_decide_eq_true hnone⟩
    · rintro ⟨⟨i, hv, rfl⟩, hnone⟩
      refine ⟨_, mem_map_of_mem (mem_filter.2 ⟨mem_filter.2 ⟨hv, ?_⟩, hcreated i⟩), rfl⟩
      exact decide_eq_true hnone
  have hdels : (∃ k ∈ (oldValue.values.map ServiceItemInfo.id).filter fun id => newValue.find id = none, id = k) ↔
      Has oldValue id = true ∧ Has newValue id = false := by
    rw [has_iff, has_eq_false_iff]
    constructor
    · rintro ⟨k, hk, rfl⟩
      obtain ⟨hv, hnone⟩ := mem_filter.1 hk
      exact ⟨mem_map.1 hv, of_decide_eq_true hnone⟩
    · rintro ⟨hv, hnone⟩
      exact ⟨id, mem_filter.2 ⟨mem_map.2 hv, decide_eq_true hnone⟩, rfl⟩
  unfold onServiceChange
  rw [has_update, if_congr hadds rfl rfl, if_congr hdels rfl rfl, amend]
  cases Has oldValue id with
  | true | false =>
    cases Has newValue id with
    | true | false => simp

/-! ## Runs -/

/-- the memberships of an id in the two snapshots of a callback -/
def memberships (id : UInt64) (d : Snapshot × Snapshot) : Bool × Bool := (Has d.1 id, Has d.2 id)

/-- the pending callbacks, in the order of the swaps, bring the balancer to the snapshot -/
def Follows (s : State) : Prop := ∀ id, amendAll (Has s.balancer id) (s.pending.map (memberships id)) = Has s.datas id

theorem follows_init : Follows init := fun _ => rfl

theorem exists_changes_map {l : List (Snapshot × Snapshot)} {id : UInt64} :
    (∃ e ∈ l.map (memberships id), e.1 ≠ e.2) ↔ ∃ e ∈ l, Changes e id := by
  simp only [mem_map, exists_exists_and_eq_and, memberships, Changes]

section
variable {inetAddr : List UInt8 → UInt32} {created : ServiceItemInfo → Bool} (hcreated : ∀ i, created i = true)
include hcreated

theorem follows_callback {s : State} {j : ℕ} (hord : Orderly s (.callback j)) (h : Follows s) :
    Follows (step inetAddr created s (.callback j)) := by
  rw [step]
  cases hj : s.pending[j]? with
  | none => exact h
  | some d =>
    intro id
    have hsplit : s.pending = s.pending.take j ++ d :: s.pending.drop (j + 1) := by
      obtain ⟨hlt, rfl⟩ := List.getElem?_eq_some_iff.1 hj
      rw [getElem_cons_drop, take_append_drop]
    calc amendAll (Has (onServiceChange created s.balancer d.1 d.2) id) ((s.pending.eraseIdx j).map (memberships id))
        = amendAll (amend (Has s.balancer id) (Has d.1 id) (Has d.2 id))
            ((s.pending.take j).map (memberships id) ++ (s.pending.drop (j + 1)).map (memberships id)) := by
          rw [has_onServiceChange hcreated, eraseIdx_eq_take_drop_succ, map_append]
      _ = amendAll (Has s.balancer id)
            ((s.pending.take j).map (memberships id) ++ memberships id d ::
              (s.pending.drop (j + 1)).map (memberships id)) := by
          refine amendAll_ahead (d := memberships id d) ?_ _
          rw [exists_changes_map, exists_changes_map]
          exact hord d hj id
      _ = amendAll (Has s.balancer id) (s.pending.map (memberships id)) := by rw [← map_cons, ← map_append, ← hsplit]
      _ = Has s.datas id := h id

theorem follows_step {s : State} {o : Op} (hord : Orderly s o) (h : Follows s) :
    Follows (step inetAddr created s o) := by
  cases o with
  | callback j => exact follows_callback hcreated hord h
  | swap vals =>
    cases vals with
    | none => exact h
    | some vals =>
      intro id
      -- the new callback is the last of the pending ones, and its old snapshot is what the earlier ones lead to
      rw [step, map_append, amendAll_append, h id]
      exact amend_old _ _

/-- **Discovery and balancer.** -/
theorem balancer_follows {ops : List Op} (hops : Meets (step inetAddr created) Orderly init ops)
    (hdone : (run (step inetAddr created) init ops).pending = []) (id : UInt64) :
    Has (run (step inetAddr created) init ops).balancer id = Has (run (step inetAddr created) init ops).datas id := by
  have h : Follows (run (step inetAddr created) init ops) :=
    run_inv (fun _ _ hord h => follows_step hcreated hord h) hops follows_init
  have hid := h id
  rwa [hdone] at hid

end

theorem orderly_first (s : State) : Orderly s (.callback 0) := by
  intro d _ id _ hearlier
  obtain ⟨e, he, -⟩ := hearlier
  cases he

/-- two providers at one address -/
def blog : List UInt8 := lit "127.0.0.1:8080"

def shop : List UInt8 := lit "127.0.0.1:8081"

/-- the watcher's swap comes before the timer's callback, and the callbacks run in the order of the swaps -/
theorem balancer_follows_replacement :
    let s := run (step (fun _ => 0x0100007F) fun _ => true) init
      [.swap (some [blog]), .swap (some [shop]), .callback 0, .callback 0]
    Has s.balancer 0x0100007F00001F91 = Has s.datas 0x0100007F00001F91 := by
  refine balancer_follows (fun _ => rfl) ?_ ?_ _
  · exact ⟨trivial, trivial, orderly_first _, orderly_first _, trivial⟩
  · decide +kernel

theorem stale_callback_wins :
    let s := run (step (fun _ => 0x0100007F) fun _ => true) init
      [.swap (some [blog]), .swap (some []), .callback 1, .callback 0]
    s.pending = [] ∧ Has s.datas 0x0100007F00001F90 = false ∧ Has s.balancer 0x0100007F00001F90 = true := by
  decide +kernel

end CoServer.LoadBalance.Discovery
