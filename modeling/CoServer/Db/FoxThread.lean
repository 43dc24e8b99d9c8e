/-
`FoxThread` (src/db/fox_thread.cpp): callbacks for one event loop.

`dispatch` and `batchDispatch` queue their callbacks under the lock, and then send a byte that wakes the loop; `read_cb`
takes the bytes and the whole queue. A `send` that fails is answered by false and nothing else.

Results:
- `kept_step`: an event other than a stop keeps every callback queued or executed, as often as it was passed, and a byte
  on the way to the loop while a callback of an accepted call is queued.
- `dispatch_right_iff`: when the loop has read every byte, a refused call has left nothing behind and an accepted one
  was executed once, for every call, iff no call with a callback was refused; in runs without a stop.
- `refused_executed`: a call is refused, and its callback is executed with that of the next one.
-/
import CoServer.Core.Run
import CoServer.Core.Update
import Mathlib.Data.List.TakeWhile

namespace CoServer.Db.FoxThread

open CoServer.Core Function List

/-! ## The code -/

/-- `dispatch` is a batch of one; calls are numbered in the order in which they queue -/
structure St where
  /-- the number of the call, or the null callback of `stop` -/
  callbacks : List (Option ℕ) := []
  /-- bytes in the socket pair -/
  bytes : ℕ := 0
  /-- the event loop runs -/
  start : Bool := false
  executed : List (Option ℕ) := []
  calls : ℕ := 0
  /-- how many callbacks a call has queued -/
  size : ℕ → ℕ := fun _ => 0
  answer : ℕ → Option Bool := fun _ => none

inductive Event
  | queue (n : ℕ)
  | send (i : ℕ) (sent : Bool)
  | stop (sent : Bool)
  | start
  | read

variable (s : St)

def St.batchDispatch (n : ℕ) : St :=
  { s with
    callbacks := s.callbacks ++ replicate n (some s.calls), size := update s.size s.calls n, calls := s.calls + 1 }

/-- the end of the call -/
def St.send (i : ℕ) (sent : Bool) : St :=
  { s with bytes := s.bytes + sent.toNat, answer := update s.answer i (some sent) }

/-- `stop` sends under the lock -/
def St.stop (sent : Bool) : St := { s with callbacks := s.callbacks ++ [none], bytes := s.bytes + sent.toNat }

/-- the batch up to a null callback, which ends the loop; `cmd` has 4096 bytes -/
def St.readCb : St :=
  { s with
    callbacks := [], bytes := s.bytes - 4096, executed := s.executed ++ s.callbacks.takeWhile Option.isSome,
    start := !s.callbacks.contains none }

def St.step : Event → St
  | .queue n => s.batchDispatch n
  | .send i sent => if i < s.calls ∧ s.answer i = none then s.send i sent else s
  | .stop sent => s.stop sent
  | .start => { s with start := true }
  | .read => if s.start ∧ 0 < s.bytes then s.readCb else s

/-! ## Callbacks are kept -/

structure Kept (s : St) : Prop where
  noNull : none ∉ s.callbacks
  count : ∀ i, s.callbacks.count (some i) + s.executed.count (some i) = s.size i
  fresh : ∀ i, s.calls ≤ i → s.size i = 0 ∧ s.answer i = none
  woken : ∀ i, s.answer i = some true → some i ∈ s.callbacks → 0 < s.bytes

variable {s : St}

theorem kept_step (h : Kept s) {e : Event} (he : ∀ sent, e ≠ .stop sent) : Kept (s.step e) := by
  cases e with
  | queue n =>
    have hnew := h.fresh s.calls le_rfl
    refine ⟨by simp [St.step, St.batchDispatch, h.noNull], fun i => ?_, fun i hi => ?_, fun i ha hmem => ?_⟩
    · have hcount := h.count i
      by_cases hi : i = s.calls
      · subst hi
        simp [St.step, St.batchDispatch]
        omega
      · simpa [St.step, St.batchDispatch, hi, count_replicate, Ne.symm hi] using hcount
    · obtain ⟨hsize, hans⟩ := h.fresh i (Nat.le_of_succ_le hi)
      exact ⟨by rw [← hsize]; exact update_of_ne (Nat.ne_of_gt hi) _ _, hans⟩
    · rcases mem_append.1 hmem with hmem | hmem
      · exact h.woken i ha hmem
      · cases eq_of_mem_replicate hmem
        cases hnew.2.symm.trans ha
  | send i sent =>
    refine inv_ite h fun ⟨hi, hnone⟩ => ⟨h.noNull, h.count, fun j hj => ⟨(h.fresh j hj).1, ?_⟩, fun j ha hmem => ?_⟩
    · rw [← (h.fresh j hj).2]
      exact update_of_ne (ne_of_gt (hi.trans_le hj)) _ _
    · rcases update_cases ha with ⟨-, ha⟩ | ⟨-, ha⟩
      · cases ha
        exact Nat.succ_pos _
      · exact Nat.lt_add_right _ (h.woken j ha hmem)
  | stop sent => exact absurd rfl (he sent)
  | start => exact ⟨h.noNull, h.count, h.fresh, h.woken⟩
  | read =>
    have hall : s.callbacks.takeWhile Option.isSome = s.callbacks :=
      takeWhile_eq_self_iff.2 fun x hx => Option.isSome_iff_ne_none.2 fun hnone => h.noNull (hnone ▸ hx)
    refine inv_ite h fun _ => ⟨not_mem_nil, fun i => ?_, h.fresh, fun i _ hmem => by cases hmem⟩
    have hcount := h.count i
    simp only [St.readCb, hall, count_append, count_nil]
    omega

/-- **The answers.** -/
theorem dispatch_right_iff (events : List Event) (hstop : ∀ e ∈ events, ∀ sent, e ≠ .stop sent)
    (hread : (run St.step {} events).bytes = 0) :
    let s := run St.step {} events
    (∀ i, (s.answer i = some false → some i ∉ s.callbacks ∧ some i ∉ s.executed) ∧
      (s.answer i = some true → s.executed.count (some i) = s.size i)) ↔
      ∀ i, s.answer i = some false → s.size i = 0 := by
  intro s
  have hmeets : Meets St.step (fun _ e => ∀ sent, e ≠ .stop sent) {} events := meets_of_forall hstop _
  have h : Kept s := run_inv (fun s e he h => kept_step h he) hmeets
    ⟨not_mem_nil, fun _ => rfl, fun _ _ => ⟨rfl, rfl⟩, fun _ ha => by cases ha⟩
  refine forall_congr' fun i => ?_
  rw [← count_eq_zero, ← count_eq_zero, ← h.count i]
  constructor
  · intro hright hans
    rw [(hright.1 hans).1, (hright.1 hans).2]
  · intro hnone
    refine ⟨fun hans => Nat.add_eq_zero_iff.1 (hnone hans), fun hans => ?_⟩
    have hout : some i ∉ s.callbacks := fun hmem => (h.woken i hans hmem).ne' hread
    rw [count_eq_zero.2 hout, Nat.zero_add]

/-- accepted before the thread starts, and executed -/
theorem dispatch_right_iff_started :
    let s := run St.step {} [.queue 2, .send 0 true, .start, .read]
    (∀ i, (s.answer i = some false → some i ∉ s.callbacks ∧ some i ∉ s.executed) ∧
      (s.answer i = some true → s.executed.count (some i) = s.size i)) ↔ ∀ i, s.answer i = some false → s.size i = 0 :=
  dispatch_right_iff _ (by simp) rfl

theorem refused_executed :
    let s := run St.step {} [.start, .queue 1, .send 0 false, .queue 1, .send 1 true, .read]
    s.answer 0 = some false ∧ s.executed = [some 0, some 1] := by
  decide

end CoServer.Db.FoxThread
