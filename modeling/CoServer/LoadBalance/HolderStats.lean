/-
The statistics of a load balancer's item: five slots, one per second, that the clock moves through (`load_balance.cpp`,
`RockSDLoadBalance::request` of `rock_stream.cpp`).

`get(now)` first shifts the window: every second since the last update clears its slot, five at most. A request keeps a
reference to the slot of its start second while it waits for its reply, and other requests shift the window meanwhile.
Each update of a counter and each shift is one step; the clock never goes back. Counters have 32 bits, and so has a
second.
-/
import CoServer.Core.Run
import CoServer.Core.Update

namespace CoServer.LoadBalance.Stats

open List

/-! ## Slots -/

structure HolderStats where
  usedTime : UInt32 := 0
  total : UInt32 := 0
  doing : UInt32 := 0
  timeouts : UInt32 := 0
  oks : UInt32 := 0
  errs : UInt32 := 0
deriving DecidableEq

namespace HolderStats

variable (h : HolderStats) (v : UInt32)

def incUsedTime : HolderStats := { h with usedTime := h.usedTime + v }

def incTotal : HolderStats := { h with total := h.total + v }

def incDoing : HolderStats := { h with doing := h.doing + v }

def incTimeouts : HolderStats := { h with timeouts := h.timeouts + v }

def incOks : HolderStats := { h with oks := h.oks + v }

def incErrs : HolderStats := { h with errs := h.errs + v }

def decDoing : HolderStats := { h with doing := h.doing - v }

end HolderStats

/-! ## The window -/

structure HolderStatsSet where
  /-- `_stats`, below its size -/
  stats : ℕ → HolderStats := fun _ => {}
  lastUpdateTime : UInt32 := 0

/-- the loop of `init`, with the turns left; `t` has 32 bits and wraps -/
def clearSlots (size : ℕ) (now : UInt32) : ℕ → UInt32 → (ℕ → HolderStats) → ℕ → HolderStats
  | 0, _, stats => stats
  | n + 1, t, stats => if t ≤ now
      then clearSlots size now n (t + 1) (Function.update stats (t.toNat % size) {}) else stats

def HolderStatsSet.init (size : ℕ) (s : HolderStatsSet) (now : UInt32) : HolderStatsSet :=
  if s.lastUpdateTime < now then ⟨clearSlots size now size (s.lastUpdateTime + 1) s.stats, now⟩ else s

/-- `_stats.size()` of an item, which has the default size -/
def size : ℕ := 5

/-- the second of a time in milliseconds, as `get` takes it -/
def second (ts : UInt64) : UInt32 := (ts / 1000).toUInt32

def slot (ts : UInt64) : ℕ := (second ts).toNat % size

theorem slot_lt (ts : UInt64) : slot ts < size := Nat.mod_lt _ (by decide)

/-! ## Requests -/

/-- where a request is: the step it takes next, with its local variables; `ts` is its start -/
inductive Phase where
  /-- `conn->get(ts / 1000)` -/
  | started (ts : UInt64)
  /-- `incDoing` -/
  | counting (ts : UInt64)
  /-- `incTotal` -/
  | totalling (ts : UInt64)
  /-- in the stream's `request` -/
  | waiting (ts : UInt64)
  /-- the result's counter -/
  | replied (ts ts2 : UInt64) (result : ℤ)
  /-- `incUsedTime` -/
  | timing (ts : UInt64) (used : UInt32)
  /-- `decDoing` -/
  | finishing (ts : UInt64)
  | returned
deriving DecidableEq

/-- the start of a request that has raised `_doing` and not lowered it yet -/
def Phase.inFlight : Phase → Option UInt64
  | .totalling ts | .waiting ts | .replied ts _ _ | .timing ts _ | .finishing ts => some ts
  | _ => none

structure State extends HolderStatsSet where
  /-- `getCurrentMS` -/
  clock : UInt64
  requests : List Phase

variable (s : State)

/-- `HolderStatsSet::init` of the item -/
def State.init (now : UInt32) : State := { s with toHolderStatsSet := s.toHolderStatsSet.init size now }

/-- an update of the slot that a request refers to -/
def State.modify (ts : UInt64) (f : HolderStats → HolderStats) : State :=
  { s with stats := Function.update s.stats (slot ts) (f (s.stats (slot ts))) }

/-- one step of a request; `result` is what the stream answers if it waits for that. A time-out is the result -1. -/
def turn (result : ℤ) : Phase → Phase × State
  | .started ts => (.counting ts, s.init (second ts))
  | .counting ts => (.totalling ts, s.modify ts (·.incDoing 1))
  | .totalling ts => (.waiting ts, s.modify ts (·.incTotal 1))
  | .waiting ts => (.replied ts s.clock result, s)
  | .replied ts ts2 result =>
    if result = 0 then (.timing ts (ts2 - ts).toUInt32, s.modify ts (·.incOks 1))
    else if result = -1 then (.finishing ts, s.modify ts (·.incTimeouts 1))
    else if result < 0 then (.finishing ts, s.modify ts (·.incErrs 1))
    else (.finishing ts, s)
  | .timing ts used => (.finishing ts, s.modify ts (·.incUsedTime used))
  | .finishing ts => (.returned, s.modify ts (·.decDoing 1))
  | .returned => (.returned, s)

inductive Op where
  /-- the clock shows this time, if it is not earlier than before -/
  | tick (now : UInt64)
  /-- a request starts and reads the clock -/
  | request
  /-- the request with that number takes its next step -/
  | advance (k : ℕ) (result : ℤ)
  /-- `HolderStatsSet::getWeight`, which shifts the window too -/
  | weigh
deriving DecidableEq

def step : Op → State
  | .tick now => { s with clock := max s.clock now }
  | .request => { s with requests := s.requests ++ [.started s.clock] }
  | .advance k result =>
    match s.requests[k]? with
    | none => s
    | some p => { (turn s result p).2 with requests := s.requests.set k (turn s result p).1 }
  | .weigh => s.init (second s.clock)

def start : State := ⟨{}, 0, []⟩

/-! ## The slots that a shift clears -/

section

variable {size : ℕ} {now : UInt32}

/-- the slots of the seconds that the loop passes -/
def clearedFrom (size : ℕ) (now : UInt32) : ℕ → UInt32 → List ℕ
  | 0, _ => []
  | n + 1, t => if t ≤ now then (t.toNat % size) :: clearedFrom size now n (t + 1) else []

theorem clearSlots_apply (n : ℕ) (t : UInt32) (stats : ℕ → HolderStats) (i : ℕ) :
    clearSlots size now n t stats i = if i ∈ clearedFrom size now n t then {} else stats i := by
  induction n generalizing t stats with
  | zero => rfl
  | succ n ih =>
    rw [clearSlots, clearedFrom]
    by_cases ht : t ≤ now
    · rw [if_pos ht, if_pos ht, ih]
      by_cases hi : i = t.toNat % size
      · subst hi
        rw [Function.update_self, ite_self, if_pos mem_cons_self]
      · simp [hi]
    · rw [if_neg ht, if_neg ht]
      rfl

theorem toNat_succ {t : UInt32} (h : t.toNat < now.toNat) : (t + 1).toNat = t.toNat + 1 := by
  have hnow := now.toNat_lt
  rw [UInt32.toNat_add, UInt32.toNat_one, Nat.mod_eq_of_lt (by omega)]

theorem mem_clearedFrom {n : ℕ} {t : UInt32} {u : ℕ} (htu : t.toNat ≤ u) (hun : u ≤ now.toNat) (hlt : u < t.toNat + n) :
    u % size ∈ clearedFrom size now n t := by
  induction n generalizing t with
  | zero => omega
  | succ n ih =>
    have hle : t ≤ now := UInt32.le_iff_toNat_le.2 (htu.trans hun)
    rw [clearedFrom, if_pos hle]
    rcases Nat.eq_or_lt_of_le htu with heq | hlt'
    · rw [heq]
      exact mem_cons_self
    · have hsucc := toNat_succ (hlt'.trans_le hun)
      exact mem_cons_of_mem _ (ih (by omega) (by omega))

theorem of_mem_clearedFrom (hnow : now.toNat + 1 < 2 ^ 32) {n : ℕ} {t : UInt32} {i : ℕ}
    (h : i ∈ clearedFrom size now n t) : ∃ u, t.toNat ≤ u ∧ u ≤ now.toNat ∧ u < t.toNat + n ∧ i = u % size := by
  induction n generalizing t with
  | zero => cases h
  | succ n ih =>
    rw [clearedFrom] at h
    split at h
    · rename_i hle
      rw [UInt32.le_iff_toNat_le] at hle
      rcases mem_cons.1 h with rfl | h
      · exact ⟨t.toNat, le_rfl, hle, by omega, rfl⟩
      obtain ⟨u, htu, hun, hlt, rfl⟩ := ih h
      have hsucc : (t + 1).toNat = t.toNat + 1 := by
        rw [UInt32.toNat_add, UInt32.toNat_one, Nat.mod_eq_of_lt (by omega)]
      exact ⟨u, by omega, hun, by omega, rfl⟩
    · cases h

end

/-- the slots that a shift of an item's window clears -/
def cleared (last now : UInt32) : List ℕ := clearedFrom size now size (last + 1)

end CoServer.LoadBalance.Stats
