/-
Hooked sleeping (`hook.cpp`): `sleep`, `usleep` and `nanosleep` arm a timer that schedules the fiber again, and yield.
Without hooking, or outside an `IOManager`, the original function is called.

The delay is in milliseconds, and each call computes it in the type of its own argument before `addTimer` takes it as a
`uint64_t`: `sleep` multiplies 32-bit numbers, `usleep` divides and drops the rest, `nanosleep` drops the rest and
stores the sum in an `int`. A sum beyond `long` is undefined.

Results:
- `delay_iff`: for every admitted argument of the three calls, the delay handed to `addTimer` is at least the requested
  time and less than a millisecond longer iff the time is a whole number of milliseconds, below 2^32 for `sleep` and
  below 2^31 for `nanosleep`.
- `wrong_delays`: 4294968 s wrap around to 704 ms; the rest of 1500 µs and of 1500000 ns is dropped; 2147484 s are a
  negative `int` and a delay of half a billion years.
-/
import Mathlib.Tactic

namespace CoServer.Hook

/-! ## The code -/

/-- conversion to `int` -/
def toInt32 (x : ℤ) : ℤ := x.bmod (2 ^ 32)

/-- conversion to `uint64_t` -/
def toUInt64 (x : ℤ) : ℕ := (x % 2 ^ 64).toNat

/-- what a hooked call does: it calls the original function, or arms a timer with this delay; or its behaviour is
undefined -/
inductive Sleeps where
  | original
  | timer (ms : ℕ)
  | undefined
deriving DecidableEq

variable (hookEnable iom : Bool)

def sleep (seconds : BitVec 32) : Sleeps :=
  if hookEnable = false then .original
  else if iom = false then .original
  else .timer (seconds * 1000#32).toNat

def usleep (usec : BitVec 32) : Sleeps :=
  if hookEnable = false then .original
  else if iom = false then .original
  else .timer (usec / 1000#32).toNat

structure Timespec where
  tvSec : ℤ
  tvNsec : ℤ
deriving DecidableEq

/-- `long` -/
def IsLong (x : ℤ) : Prop := -2 ^ 63 ≤ x ∧ x < 2 ^ 63

instance (x : ℤ) : Decidable (IsLong x) := by unfold IsLong; infer_instance

def nanosleep (req : Timespec) : Sleeps :=
  if hookEnable = false then .original
  else if IsLong (req.tvSec * 1000) ∧ IsLong (req.tvSec * 1000 + (req.tvNsec.tdiv 1000).tdiv 1000) then
    let timeoutMs := toInt32 (req.tvSec * 1000 + (req.tvNsec.tdiv 1000).tdiv 1000)
    if iom = false then .original else .timer (toUInt64 timeoutMs)
  else .undefined

/-! ## Requests -/

/-- a call with its argument -/
inductive Request where
  | sleep (seconds : BitVec 32)
  | usleep (usec : BitVec 32)
  | nanosleep (req : Timespec)
deriving DecidableEq

/-- a call in a hooked thread of an `IOManager` -/
def Request.call : Request → Sleeps
  | .sleep seconds => Hook.sleep true true seconds
  | .usleep usec => Hook.usleep true true usec
  | .nanosleep req => Hook.nanosleep true true req

/-- the arguments of `nanosleep` that POSIX admits: a `time_t` that is not negative, and less than a second of
nanoseconds -/
def Request.Admitted : Request → Prop
  | .nanosleep req => (0 ≤ req.tvSec ∧ req.tvSec < 2 ^ 63) ∧ 0 ≤ req.tvNsec ∧ req.tvNsec < 10 ^ 9
  | _ => True

/-- the requested time in nanoseconds -/
def Request.duration : Request → ℤ
  | .sleep seconds => seconds.toNat * 10 ^ 9
  | .usleep usec => usec.toNat * 10 ^ 3
  | .nanosleep req => req.tvSec * 10 ^ 9 + req.tvNsec

/-- the delay is at least the requested time and less than a millisecond longer -/
def Delays (r : Sleeps) (duration : ℤ) : Prop :=
  ∃ ms : ℕ, r = .timer ms ∧ duration ≤ ms * 10 ^ 6 ∧ ms * 10 ^ 6 < duration + 10 ^ 6

/-- the requested time is a whole number of milliseconds that the types of the call can hold -/
def Request.Fits : Request → Prop
  | .sleep seconds => seconds.toNat * 1000 < 2 ^ 32
  | .usleep usec => usec.toNat % 1000 = 0
  | .nanosleep req => req.tvNsec % 10 ^ 6 = 0 ∧ req.tvSec * 1000 + req.tvNsec / 10 ^ 6 < 2 ^ 31

theorem delays_timer {ms : ℕ} {duration : ℤ} : Delays (.timer ms) duration ↔
    duration ≤ ms * 10 ^ 6 ∧ ms * 10 ^ 6 < duration + 10 ^ 6 := by
  constructor
  · rintro ⟨ms', hms, h⟩
    cases hms
    exact h
  · exact fun h => ⟨ms, rfl, h⟩

theorem sleep_delay_iff (seconds : BitVec 32) :
    Delays (sleep true true seconds) (seconds.toNat * 10 ^ 9) ↔ seconds.toNat * 1000 < 2 ^ 32 := by
  have hms : (seconds * 1000#32).toNat = seconds.toNat * 1000 % 2 ^ 32 := by rw [BitVec.toNat_mul, BitVec.toNat_ofNat]
  rw [show sleep true true seconds = .timer (seconds * 1000#32).toNat from rfl, delays_timer]
  omega

theorem usleep_delay_iff (usec : BitVec 32) : Delays (usleep true true usec) (usec.toNat * 10 ^ 3) ↔
    usec.toNat % 1000 = 0 := by
  have hms : (usec / 1000#32).toNat = usec.toNat / 1000 := by rw [BitVec.toNat_udiv, BitVec.toNat_ofNat]
  rw [show usleep true true usec = .timer (usec / 1000#32).toNat from rfl, delays_timer]
  omega

theorem toUInt64_toInt32 (x : ℤ) :
    (toUInt64 (toInt32 x) : ℤ) = if x % 2 ^ 32 < 2 ^ 31 then x % 2 ^ 32 else 2 ^ 64 - 2 ^ 32 + x % 2 ^ 32 := by
  rw [toUInt64, toInt32, Int.bmod_def]
  split_ifs <;> omega

theorem nanosleep_delay_iff {req : Timespec} (h : (Request.nanosleep req).Admitted) :
    Delays (nanosleep true true req) (req.tvSec * 10 ^ 9 + req.tvNsec) ↔
      req.tvNsec % 10 ^ 6 = 0 ∧ req.tvSec * 1000 + req.tvNsec / 10 ^ 6 < 2 ^ 31 := by
  obtain ⟨⟨hsec, hmax⟩, hnsec, hlt⟩ := h
  have hdiv : (req.tvNsec.tdiv 1000).tdiv 1000 = req.tvNsec / 10 ^ 6 := by
    rw [Int.tdiv_eq_ediv_of_nonneg hnsec, Int.tdiv_eq_ediv_of_nonneg (by omega)]
    omega
  simp only [nanosleep, hdiv, Bool.true_eq_false, if_false]
  split_ifs with hlong
  · rw [delays_timer, toUInt64_toInt32]
    obtain ⟨-, -, hsum⟩ := hlong
    split_ifs <;> omega
  · refine iff_of_false (fun ⟨ms, hms, _⟩ => nomatch hms) fun ⟨_, hfit⟩ => hlong ?_
    exact ⟨⟨by omega, by omega⟩, by omega, by omega⟩

/-! ## Result -/

/-- **The delay of a hooked sleep.** -/
theorem delay_iff (r : Request) (h : r.Admitted) : Delays r.call r.duration ↔ r.Fits := by
  cases r with
  | sleep seconds => exact sleep_delay_iff seconds
  | usleep usec => exact usleep_delay_iff usec
  | nanosleep req => exact nanosleep_delay_iff h

/-- a second and a half -/
theorem delay_of_nanosleep :
    (Request.nanosleep ⟨1, 500000000⟩).call = .timer 1500 ∧
      Delays (Request.nanosleep ⟨1, 500000000⟩).call (Request.nanosleep ⟨1, 500000000⟩).duration :=
  ⟨by decide, (delay_iff (.nanosleep ⟨1, 500000000⟩) ⟨⟨by decide, by decide⟩, by decide, by decide⟩).2 ⟨by decide,
    by decide⟩⟩

/-- **Delays that are too short and too long.** -/
theorem wrong_delays :
    (Request.sleep 4294968#32).call = .timer 704 ∧ ¬ Delays (Request.sleep 4294968#32).call
    (Request.sleep 4294968#32).duration ∧
      (Request.usleep 1500#32).call = .timer 1 ∧ ¬ Delays (Request.usleep 1500#32).call
    (Request.usleep 1500#32).duration ∧
      (Request.nanosleep ⟨0, 1500000⟩).call = .timer 1 ∧
      ¬ Delays (Request.nanosleep ⟨0, 1500000⟩).call (Request.nanosleep ⟨0, 1500000⟩).duration ∧
      (Request.nanosleep ⟨2147484, 0⟩).call = .timer (2 ^ 64 - 2147483296) ∧
      ¬ Delays (Request.nanosleep ⟨2147484, 0⟩).call (Request.nanosleep ⟨2147484, 0⟩).duration := by
  have hsleep : (Request.sleep 4294968#32).call = .timer 704 := by decide
  have husleep : (Request.usleep 1500#32).call = .timer 1 := by decide
  have hnano : (Request.nanosleep ⟨0, 1500000⟩).call = .timer 1 := by decide
  have hlong : (Request.nanosleep ⟨2147484, 0⟩).call = .timer (2 ^ 64 - 2147483296) := by decide
  refine ⟨hsleep, ?_, husleep, ?_, hnano, ?_, hlong, ?_⟩
  · rw [hsleep, delays_timer]
    decide
  · rw [husleep, delays_timer]
    decide
  · rw [hnano, delays_timer]
    decide
  · rw [hlong, delays_timer]
    decide

end CoServer.Hook
