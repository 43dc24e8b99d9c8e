/-
What a step can do to the timer manager, said once. Under the invariant of the set, `cancel`, `refresh` and `reset` find
the timer they look for, so the locked sections reduce to one change each (`Move`).

Results:
- `step_move`: everything a step can do, under the invariant.
- `inv_run`: the invariant holds in every run.
- `calls_run`: a thread that makes no step is in no call.
-/
import CoServer.TimerManager.TimerSet

namespace CoServer.TimerManager

open CoServer.Core

/-! ## What a step can do -/

/-- the clock reading a thread carries through `listExpiredCb`, with its position in the clock log -/
def Call.reading : Call → Option (ℕ × ℕ)
  | .expiring now pos | .collecting now pos => some (now, pos)
  | _ => none

/-- the thread that makes the step -/
def Op.thread : Op → Option ℕ
  | .construct t .. | .insert t | .notify t | .cancel t _ | .refresh t .. | .reset t .. | .resetLocked t _
  | .getNextTimer t _ | .expire t _ | .expireTest t | .expireLocked t _ => some t
  | .free _ => none

/-- a thread goes on or returns, without leaving a notification undone and without a new clock reading -/
structure St.Continues (s : St) (o : Op) (t : ℕ) (c : Call) : Prop where
  thread : o.thread = some t
  settled : s.calls t ≠ .notify
  adding : ∀ id, c ≠ .adding id
  reading : ∀ r, c.reading = some r → (s.calls t).reading = some r

inductive Move (s : St) : Op → St → Prop
  | stay (o : Op) : Move s o s
  | call {o : Op} {t : ℕ} {c : Call} (h : s.Continues o t c) : Move s o (s.ret t c)
  /-- `refresh` or `reset` of a timer that is gone -/
  | failed {o : Op} {t : ℕ} (now : ℕ) (h : s.Continues o t (.returned false)) :
      Move s o ((s.tick now).ret t (.returned false))
  | construct {t : ℕ} (now ms : ℕ) (callback : Option ℕ) (recurring : Bool) (addr : ℕ) (ht : (s.calls t).free = true)
      (hfresh : ∀ i < s.nextId, i ∉ s.freed → (s.timers i).addr ≠ addr) :
      Move s (.construct t now ms callback recurring addr) (construct s t now ms callback recurring addr)
  | insert {t id : ℕ} (ht : s.calls t = .adding id) :
      Move s (.insert t) (addTimerLocked { s with added := s.added ++ [id] } t id)
  | notify {t : ℕ} (ht : s.calls t = .notify) : Move s (.notify t) ({ s with notified := true }.ret t (.returned true))
  | cancel {t id : ℕ} (h : s.Continues (.cancel t id) t (.returned true)) (hid : id ∈ s.set) :
      Move s (.cancel t id) ({ s.setTimer id { s.timers id with callback := none } with
        set := s.set.erase id, cancelled := s.cancelled ++ [id] }.ret t (.returned true))
  | refresh {t now id : ℕ} (h : s.Continues (.refresh t now id) t (.returned true)) (hid : id ∈ s.set) :
      Move s (.refresh t now id)
        ((((s.tick now).rearmed id (s.timers id).ms (add64 now (s.timers id).ms) now).insertTimer
        id).ret t (.returned true))
  | reset {t now id ms : ℕ} {fromNow : Bool} (ht : s.calls t = .resetting id ms fromNow) (hid : id ∈ s.set) :
      Move s (.resetLocked t now) (addTimerLocked ((s.tick now).rearmed id ms
        (add64 (if fromNow then now else sub64 (s.timers id).next (s.timers id).ms) ms)
        (if fromNow then now else s.base id)) t id)
  | getNextTimer {t : ℕ} (now : ℕ) (ht : (s.calls t).free = true) :
      Move s (.getNextTimer t now) ({ s.tick now with
        tickled := false
        seen := some (s.set.map fun id => (s.timers id).next)
        notified := false }.ret t (.timeout (nextTimeout s now)))
  | expire {t : ℕ} (now : ℕ) (ht : (s.calls t).free = true) :
      Move s (.expire t now) ((s.tick now).ret t (.expiring now s.clock.length))
  | collect {t now pos : ℕ} (addr : ℕ) (ht : s.calls t = .collecting now pos) :
      Move s (.expireLocked t addr) ((expireSection s now pos addr).ret t (.returned true))
  | free {id : ℕ} (hid : id ∈ s.added) (hset : id ∉ s.set) : Move s (.free id) { s with freed := s.freed ++ [id] }

theorem Call.free_settled {c : Call} (h : c.free = true) : c ≠ .notify := by rintro rfl; cases h

variable {s : St} {t : ℕ}

theorem St.continues_returned {o : Op} (ho : o.thread = some t) (ht : s.calls t ≠ .notify) (ok : Bool) :
    s.Continues o t (.returned ok) :=
  ⟨ho, ht, by simp, by simp [Call.reading]⟩

theorem find_own (h : Inv s) {id : ℕ} (hid : id ∈ s.set) : OrderedSet.find s.lt id s.set = some id :=
  OrderedSet.find_mem (lt_keyed s) h.sorted hid

theorem cancelLocked_move (h : Inv s) {id : ℕ} (ht : (s.calls t).free = true) (hid : id ∈ s.added) :
    Move s (.cancel t id) (cancelLocked s t id) := by
  unfold cancelLocked
  cases hcb : (s.timers id).callback with
  | none => exact .call (St.continues_returned rfl (Call.free_settled ht) false)
  | some cb =>
    have hset : id ∈ s.set := h.mem_set hid (by simp [hcb])
    -- the key does not contain the callback
    have hlt : (s.setTimer id { s.timers id with callback := none }).lt = s.lt := by
      funext a b
      have hkey : ∀ z, ((s.setTimer id { s.timers id with callback := none }).timers z).next = (s.timers z).next ∧
          ((s.setTimer id { s.timers id with callback := none }).timers z).addr = (s.timers z).addr := by
        intro z
        exact ⟨proj_update Timer.next (by rfl) z, proj_update Timer.addr (by rfl) z⟩
      simp only [St.lt, less, hkey]
    have hfind : OrderedSet.find (s.setTimer id { s.timers id with callback := none }).lt id s.set = some id := by
      rw [hlt, find_own h hset]
    dsimp only
    rw [show (s.setTimer id { s.timers id with callback := none }).set = s.set from rfl, hfind]
    exact .cancel (St.continues_returned rfl (Call.free_settled ht) true) hset

theorem refreshLocked_move (h : Inv s) {id : ℕ} (now : ℕ) (ht : (s.calls t).free = true) (hid : id ∈ s.added) :
    Move s (.refresh t now id) (refreshLocked (s.tick now) t now id) := by
  unfold refreshLocked
  split_ifs with hcb
  · exact .failed now (St.continues_returned rfl (Call.free_settled ht) false)
  · have hset : id ∈ s.set := h.mem_set hid hcb
    rw [find_own (h.tick now) hset]
    exact .refresh (St.continues_returned rfl (Call.free_settled ht) true) hset

theorem resetLocked_move (h : Inv s) {id ms : ℕ} {fromNow : Bool} (now : ℕ) (ht : s.calls t = .resetting id ms fromNow)
    (hid : id ∈ s.added) : Move s (.resetLocked t now) (resetLocked (s.tick now) t now id ms fromNow) := by
  unfold resetLocked
  by_cases hcb : (s.timers id).callback = none
  · rw [if_pos (by exact hcb)]
    exact .failed now (St.continues_returned rfl (by rw [ht]; simp) false)
  have hset : id ∈ s.set := h.mem_set hid hcb
  rw [if_neg (by exact hcb), find_own (h.tick now) hset]
  have hmove : Move s (.resetLocked t now) _ := .reset ht hset
  simpa [St.rearmed, St.arm, St.setTimer, St.tick] using hmove

theorem Move.guard {o : Op} {s' : St} {p : Prop} [Decidable p] (h : p → Move s o s') :
    Move s o (if p then s' else s) := by
  split_ifs with hp
  · exact h hp
  · exact .stay o

/-- **Inversion.** -/
theorem step_move (h : Inv s) (o : Op) : Move s o (step s o) := by
  cases o with
  | construct t now ms callback recurring addr =>
    exact .guard fun hg => .construct now ms callback recurring addr hg.1 hg.2
  | insert t =>
    simp only [step]
    split
    next id ht => exact .insert ht
    next => exact .stay _
  | notify t => exact .guard .notify
  | cancel t id => exact .guard fun hg => cancelLocked_move h hg.1 hg.2.1
  | refresh t now id => exact .guard fun hg => refreshLocked_move h now hg.1 hg.2.1
  | reset t id ms fromNow =>
    refine .guard fun hg => .call ⟨rfl, Call.free_settled hg.1, fun z => ?_, fun r hr => ?_⟩
    · split_ifs <;> simp
    · split_ifs at hr <;> cases hr
  | resetLocked t now =>
    simp only [step]
    split
    next id ms fromNow ht => exact .guard fun hu => resetLocked_move h now ht hu.1
    next => exact .stay _
  | getNextTimer t now => exact .guard (.getNextTimer now)
  | expire t now => exact .guard (.expire now)
  | expireTest t =>
    simp only [step]
    split
    next now pos ht =>
      refine .call ⟨rfl, by rw [ht]; simp, fun z => ?_, fun r hr => ?_⟩
      · split_ifs <;> simp
      rw [ht]
      split_ifs at hr
      · cases hr
      · exact hr
    next => exact .stay _
  | expireLocked t addr =>
    simp only [step]
    split
    next now pos ht => exact .collect addr ht
    next => exact .stay _
  | free id => exact .guard fun hg => .free hg.1 hg.2.1

theorem Inv.move {s' : St} {o : Op} (h : Inv s) (hm : Move s o s') : Inv s' := by
  cases hm with
  | stay => exact h
  | call hc => exact h.ret _ hc.adding
  | failed now _ | expire now _ => exact (h.tick now).ret _ (by simp)
  | construct now ms callback recurring addr _ hfresh => exact h.construct _ now ms addr _ _ hfresh
  | insert ht => exact h.insert ht _ (by intro z; split_ifs <;> simp)
  | notify _ => exact (h.observed s.tickled s.seen true).ret _ (by simp)
  | cancel _ hid => exact (h.cancel hid).ret _ (by simp)
  | refresh _ hid => exact ((h.tick _).rearm hid _ _ _ _).ret _ (by simp)
  | reset _ hid => exact ((h.tick _).rearm hid _ _ _ _).ret _ (by intro z; split_ifs <;> simp)
  | getNextTimer now _ => exact ((h.tick now).observed false _ false).ret _ (by simp)
  | collect addr _ => exact (h.expire _ _ addr).ret _ (by simp)
  | free hid hset => exact h.free hid hset

theorem step_inv (s : St) (o : Op) (h : Inv s) : Inv (step s o) := h.move (step_move h o)

theorem inv_run (now : ℕ) (ops : List Op) : Inv (run step (init now) ops) :=
  run_inv_of_step step_inv _ ops (init_inv now)

theorem Move.calls_other {s' : St} {o : Op} (hi : Inv s) (hm : Move s o s') {u : ℕ} (hu : o.thread ≠ some u) :
    s'.calls u = s.calls u := by
  have hret : ∀ {s' : St} {t : ℕ} {c : Call}, o.thread = some t → (s'.ret t c).calls u = s'.calls u := by
    intro s' t c ht
    have hne : u ≠ t := by rintro rfl; exact hu ht
    simp [St.ret, hne]
  cases hm with
  | stay | free => rfl
  | call h | failed now h => exact hret h.thread
  | @collect t now pos addr =>
    refine (hret rfl).trans ?_
    by_cases hne : s.set = []
    · rw [expireSection_nil hne]
    · rw [(hi.expires hne now pos addr).frame]
  | _ => exact hret rfl

theorem calls_run (now : ℕ) (ops : List Op) (u : ℕ) (hu : ∀ o ∈ ops, o.thread ≠ some u) :
    (run step (init now) ops).calls u = .idle := by
  suffices h : ∀ s, Inv s → s.calls u = .idle → (run step s ops).calls u = .idle from h _ (init_inv now) rfl
  induction ops with
  | nil => exact fun s _ hs => hs
  | cons o ops ih =>
    intro s hi hs
    refine ih (fun o' ho' => hu o' (List.mem_cons_of_mem _ ho')) (step s o) (step_inv s o hi) ?_
    exact ((step_move hi o).calls_other hi (hu o List.mem_cons_self)).trans hs

end CoServer.TimerManager
