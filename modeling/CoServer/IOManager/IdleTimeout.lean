/-
The timeout that `IOManager::idle` passes to `epoll_wait` (`iomanager.cpp`).

`idle` asks `getNextTimer` for the time to the earliest deadline, a 64-bit number with `~0` for no timer, compares it as
an `int` with 3000, and passes the result on as an `int`. A distance whose low 32 bits are at least 2^31 is negative as
an `int`: it is not cut, and `epoll_wait` blocks until an event comes. A call that a signal interrupts is made again
with the same number, though time has passed.

Results:
- `timeout_nonneg_iff`, `timeout_le`, `timeout_eq`: what the casts make of a distance;
- `idle_timeout_iff`: when all timeouts of a turn are right, by the distance of the earliest deadline and the times of
  the signals, for every set of timers and every turn that does not stop;
- `idle_blocks_and_oversleeps`: a wait without end, and one past a deadline.
-/
import CoServer.TimerManager.Moves

namespace CoServer.IOManager

open CoServer.Core List
open TimerManager (nextTimeout)

/-! ## The code -/

/-- `static_cast<int>` of a 64-bit number -/
def asInt (n : ℕ) : ℤ := (n : ℤ).bmod (2 ^ 32)

def MAX_TIMEOUT : ℕ := 3000

/-- the assignment to `next_timeout` in the inner loop -/
def cutTimeout (nextTimeout : ℕ) : ℕ :=
  if nextTimeout ≠ 2 ^ 64 - 1 then
    if asInt nextTimeout > MAX_TIMEOUT then MAX_TIMEOUT else nextTimeout
  else MAX_TIMEOUT

/-- what is passed to `epoll_wait` after it -/
def timeout (nextTimeout : ℕ) : ℤ := asInt (cutTimeout nextTimeout)

/-- the calls of `epoll_wait` in the inner loop, each with its timeout and its clock reading: all but the last one are
interrupted -/
def epollWaits (nextTimeout : ℕ) : List ℕ → List (ℤ × ℕ)
  | [] => []
  | now :: nows => (timeout nextTimeout, now) :: epollWaits (cutTimeout nextTimeout) nows

/-- `IOManager::stopping(timeout)`; `quiet`: no event is pending and the scheduler is stopping -/
def stoppingAt (nextTimeout : ℕ) (quiet : Bool) : Bool := decide (nextTimeout = 2 ^ 64 - 1) && quiet

/-- one turn of `idle` up to the end of the inner loop: `getNextTimer` at `now`, and the readings of the calls after an
interrupted one -/
def idleWaits (s : TimerManager.St) (quiet : Bool) (now : ℕ) (interrupted : List ℕ) : List (ℤ × ℕ) :=
  if stoppingAt (nextTimeout s now) quiet then [] else epollWaits (nextTimeout s now) (now :: interrupted)

/-! ## The casts -/

theorem asInt_of_lt {n : ℕ} (h : n % 2 ^ 32 < 2 ^ 31) : asInt n = ((n % 2 ^ 32 : ℕ) : ℤ) := by
  unfold asInt
  rw [Int.bmod_def, if_pos]
  · norm_cast
  · omega

theorem asInt_neg {n : ℕ} (h : 2 ^ 31 ≤ n % 2 ^ 32) : asInt n < 0 := by
  unfold asInt
  rw [Int.bmod_def, if_neg]
  · omega
  · omega

theorem cutTimeout_idem (n : ℕ) : cutTimeout (cutTimeout n) = cutTimeout n := by
  have hmax : cutTimeout MAX_TIMEOUT = MAX_TIMEOUT := by decide
  by_cases hn : n = 2 ^ 64 - 1
  · rw [show cutTimeout n = MAX_TIMEOUT from if_neg (not_not.2 hn), hmax]
  by_cases hgt : asInt n > MAX_TIMEOUT
  · rw [show cutTimeout n = MAX_TIMEOUT by rw [cutTimeout, if_pos hn, if_pos hgt], hmax]
  · have hsame : cutTimeout n = n := by rw [cutTimeout, if_pos hn, if_neg hgt]
    rw [hsame, hsame]

theorem mem_epollWaits {n : ℕ} {nows : List ℕ} {t : ℤ} {r : ℕ} : (t, r) ∈ epollWaits n nows ↔
    t = timeout n ∧ r ∈ nows := by
  induction nows generalizing n with
  | nil => simp [epollWaits]
  | cons now nows ih =>
    have hcut : timeout (cutTimeout n) = timeout n := congrArg asInt (cutTimeout_idem n)
    rw [epollWaits, mem_cons, ih, hcut, mem_cons, Prod.mk.injEq, and_or_left]

theorem timeout_nonneg_iff (n : ℕ) : 0 ≤ timeout n ↔ n = 2 ^ 64 - 1 ∨ n % 2 ^ 32 < 2 ^ 31 := by
  have hmax : 0 ≤ asInt MAX_TIMEOUT := by decide
  unfold timeout cutTimeout
  by_cases hn : n = 2 ^ 64 - 1
  · rw [if_neg (not_not.2 hn)]
    exact iff_of_true hmax (Or.inl hn)
  rw [if_pos hn]
  rcases Nat.lt_or_ge (n % 2 ^ 32) (2 ^ 31) with hlt | hge
  · refine iff_of_true ?_ (Or.inr hlt)
    split_ifs
    · exact hmax
    · rw [asInt_of_lt hlt]
      exact Int.natCast_nonneg _
  · have hneg := asInt_neg hge
    have hcut : ¬ asInt n > MAX_TIMEOUT := by omega
    rw [if_neg hcut]
    exact iff_of_false (not_le.2 hneg) (not_or.2 ⟨hn, not_lt.2 hge⟩)

theorem timeout_le_max (n : ℕ) : timeout n ≤ MAX_TIMEOUT := by
  have hmax : asInt MAX_TIMEOUT = MAX_TIMEOUT := by decide
  unfold timeout cutTimeout
  split_ifs with hn hgt
  · exact hmax.le
  · exact not_lt.1 hgt
  · exact hmax.le

theorem timeout_eq {n : ℕ} (h : n = 2 ^ 64 - 1 ∨ n % 2 ^ 32 < 2 ^ 31) : timeout n = min 3000 (n % 2 ^ 32 : ℕ) := by
  by_cases hn : n = 2 ^ 64 - 1
  · subst hn
    decide
  have hint := asInt_of_lt (h.resolve_left hn)
  have hmax : asInt MAX_TIMEOUT = 3000 := by decide
  unfold timeout cutTimeout
  rw [if_pos hn]
  split_ifs with hgt
  all_goals
    rw [MAX_TIMEOUT] at hgt
    omega

theorem timeout_le (n : ℕ) : timeout n ≤ n := by
  by_cases h : 0 ≤ timeout n
  · have hle := Nat.mod_le n (2 ^ 32)
    rw [timeout_eq ((timeout_nonneg_iff n).1 h)]
    omega
  · omega

/-! ## Deadlines -/

/-- the time from a clock reading to the deadline of a timer, 0 when it has passed -/
def timeTo (s : TimerManager.St) (now id : ℕ) : ℕ := (s.timers id).next - now

variable {s : TimerManager.St}

theorem nextTimeout_cons {first : ℕ} {rest : List ℕ} (h : s.set = first :: rest) (now : ℕ) :
    nextTimeout s now = timeTo s now first := by
  unfold nextTimeout
  rw [h]
  simp only
  split_ifs with hle
  · exact (Nat.sub_eq_zero_of_le hle).symm
  · rfl

theorem timeTo_first_le (hi : TimerManager.Inv s) {first : ℕ} {rest : List ℕ} (h : s.set = first :: rest) (now : ℕ) :
    ∀ id ∈ s.set, timeTo s now first ≤ timeTo s now id := by
  have hsorted := hi.sorted
  rw [h] at hsorted ⊢
  intro id hid
  rcases mem_cons.1 hid with rfl | hid
  · exact le_rfl
  · exact Nat.sub_le_sub_right (TimerManager.next_le_of_key_lt ((pairwise_cons.1 hsorted).1 id hid)) now

/-- a call of `epoll_wait` with this timeout at this clock reading ends within 3 s and before any deadline -/
structure RightWait (s : TimerManager.St) (timeout : ℤ) (now : ℕ) : Prop where
  /-- a negative timeout is none -/
  nonneg : 0 ≤ timeout
  short : timeout ≤ MAX_TIMEOUT
  in_time : ∀ id ∈ s.set, timeout ≤ timeTo s now id

theorem rightWait_empty (h : s.set = []) (now r : ℕ) : RightWait s (timeout (nextTimeout s now)) r := by
  have hnone : nextTimeout s now = 2 ^ 64 - 1 := by rw [nextTimeout, h]
  refine ⟨(timeout_nonneg_iff _).2 (Or.inl hnone), timeout_le_max _, fun id hid => ?_⟩
  rw [h] at hid
  cases hid

/-- the time passed from `now` to `r` is at most the distance at `now` less 3000 or, if they are fewer, its low 32 bits;
with no such bits there is no wait -/
def Unspent (s : TimerManager.St) (now first r : ℕ) : Prop :=
  let d := timeTo s now first
  d % 2 ^ 32 = 0 ∨ r - now ≤ d - min 3000 (d % 2 ^ 32)

theorem unspent_iff {now first : ℕ} (hd : timeTo s now first = 2 ^ 64 - 1 ∨ timeTo s now first % 2 ^ 32 < 2 ^ 31)
    (r : ℕ) : timeout (timeTo s now first) ≤ timeTo s r first ↔ Unspent s now first r := by
  have hmod := Nat.mod_le (timeTo s now first) (2 ^ 32)
  rw [timeout_eq hd, Unspent]
  simp only [timeTo] at hmod ⊢
  omega

theorem rightWait_iff (hi : TimerManager.Inv s) {first : ℕ} {rest : List ℕ} (h : s.set = first :: rest) (now r : ℕ) :
    RightWait s (timeout (timeTo s now first)) r ↔
      (timeTo s now first = 2 ^ 64 - 1 ∨ timeTo s now first % 2 ^ 32 < 2 ^ 31) ∧ Unspent s now first r := by
  constructor
  · intro hright
    have hcast := (timeout_nonneg_iff _).1 hright.nonneg
    exact ⟨hcast, (unspent_iff hcast r).1 (hright.in_time first (by rw [h]; exact mem_cons_self))⟩
  · rintro ⟨hcast, htime⟩
    refine ⟨(timeout_nonneg_iff _).2 hcast, timeout_le_max _, fun id hid => ((unspent_iff hcast r).2 htime).trans ?_⟩
    exact_mod_cast timeTo_first_le hi h r id hid

/-! ## Result -/

/-- **The timeout of an idle thread.** For every set of armed timers and every clock reading, in a turn of `idle` that
does not stop: all calls of `epoll_wait` have a timeout from 0 to 3000 that is at most the time to the earliest deadline
iff there is no timer, or the distance of the first deadline is not negative as an `int` and, at each call after a
signal, no more time has passed than the distance less 3000 or, if they are fewer, its low 32 bits. -/
theorem idle_timeout_iff (now₀ : ℕ) (ops : List TimerManager.Op) (quiet : Bool) (now : ℕ) (interrupted : List ℕ)
    (hgo : stoppingAt (nextTimeout (run TimerManager.step (TimerManager.init now₀) ops) now) quiet = false) :
    let s := run TimerManager.step (TimerManager.init now₀) ops
    (∀ t r, (t, r) ∈ idleWaits s quiet now interrupted → RightWait s t r) ↔
      ∀ first ∈ s.set.head?, (timeTo s now first = 2 ^ 64 - 1 ∨ timeTo s now first % 2 ^ 32 < 2 ^ 31) ∧
        ∀ r ∈ interrupted, Unspent s now first r := by
  intro s
  have hi : TimerManager.Inv s := TimerManager.inv_run now₀ ops
  have hwaits : (∀ t r, (t, r) ∈ idleWaits s quiet now interrupted → RightWait s t r) ↔
      ∀ r ∈ now :: interrupted, RightWait s (timeout (nextTimeout s now)) r := by
    rw [idleWaits, if_neg (by rw [hgo]; exact Bool.false_ne_true)]
    constructor
    · intro h r hr
      exact h _ r (mem_epollWaits.2 ⟨rfl, hr⟩)
    intro h t r hw
    obtain ⟨ht, hr⟩ := mem_epollWaits.1 hw
    rw [ht]
    exact h r hr
  rw [hwaits]
  cases hset : s.set with
  | nil => exact iff_of_true (fun r _ => rightWait_empty hset now r) nofun
  | cons first rest =>
    simp only [nextTimeout_cons hset, rightWait_iff hi hset, List.head?_cons, Option.mem_some_iff, forall_eq',
      forall_mem_cons]
    constructor
    · rintro ⟨⟨hcast, -⟩, hrest⟩
      exact ⟨hcast, fun r hr => (hrest r hr).2⟩
    · rintro ⟨hcast, hrest⟩
      exact ⟨⟨hcast, (unspent_iff hcast now).1 (timeout_le _)⟩, fun r hr => ⟨hcast, hrest r hr⟩⟩

/-- the manager with one timer, added at 0 -/
def oneTimer (ms : ℕ) : TimerManager.St :=
  run TimerManager.step (TimerManager.init 0) [.construct 0 0 ms (some 1) false 100, .insert 0]

/-- a timer of 4000 ms, and a signal after 900 ms -/
theorem idle_timeout_second :
    idleWaits (oneTimer 4000) false 0 [900] = [(3000, 0), (3000, 900)] ∧
      ∀ t r, (t, r) ∈ idleWaits (oneTimer 4000) false 0 [900] → RightWait (oneTimer 4000) t r := by
  refine ⟨by decide, ?_⟩
  refine (idle_timeout_iff 0 [.construct 0 0 4000 (some 1) false 100, .insert 0] false 0 [900] (by decide)).2 ?_
  intro first hfirst
  obtain rfl : 0 = first := Option.some.inj hfirst
  refine ⟨by decide, fun r hr => .inr ?_⟩
  obtain rfl := mem_singleton.1 hr
  decide

/-- **Blocking forever, and sleeping past a timer.** A timer of 2^31 ms gives the timeout -2^31. A timer of 1000 ms
gives the timeout 1000 again when a signal comes after 900 ms, 100 ms before the deadline. -/
theorem idle_blocks_and_oversleeps :
    idleWaits (oneTimer (2 ^ 31)) false 0 [] = [(-2 ^ 31, 0)] ∧ ¬ RightWait (oneTimer (2 ^ 31)) (-2 ^ 31) 0 ∧
      idleWaits (oneTimer 1000) false 0 [900] = [(1000, 0), (1000, 900)] ∧ ¬ RightWait (oneTimer 1000) 1000 900 := by
  refine ⟨by decide, fun h => ?_, by decide, fun h => ?_⟩
  · exact absurd h.nonneg (by decide)
  · exact absurd (h.in_time 0 (by decide)) (by decide)

end CoServer.IOManager
