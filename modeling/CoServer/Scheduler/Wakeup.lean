/-
Wakeups of idle workers: `schedule` calls `tickle` when the queue was empty, and `tickle` writes a byte to the pipe when
`_idleThreadCount` is positive. Neither is read together with the enqueue.

A worker is BLOCKING from the moment its scan found nothing until `epoll_wait` returns: nothing it does in between looks
at the queue again. It counts as idle only from `++_idleThreadCount` on, in the middle of that time; an earlier tickle
writes nothing.

The push onto a queue that is not empty never tickles. That it is covered all the same is the invariant `Watch`: over a
non-empty queue a blocking worker is never the last one awake. It holds through a scan that finds only entries of
executing fibers because each of these is held by a worker that has yet to scan (`executing_held`).

Results:
- `idle_counted`: `_idleThreadCount` is the number of workers between its increment and its decrement, in every run.
- `no_lost_wakeup`: in every run in which a `tickle` finds no idle thread only while nothing is queued, nobody is on the
  way to block or some worker will still scan, no entry for any thread is left to a worker blocked in `epoll_wait`.
- `tickle_before_idle`: a callback for any thread is queued, the only worker is blocked, and nobody is about to write to
  the pipe.
-/
import CoServer.Scheduler.Flight

namespace CoServer.Scheduler

open CoServer.Core Pc Finset

/-! ## Where a worker is with respect to the queue -/

/-- inside the part of the loop counted by `_idleThreadCount` -/
def Pc.idling : Pc → Bool
  | .idleCheck | .idleWait | .idleWoke | .idleDec => true
  | _ => false

/-- after a scan that found nothing, up to the return of `epoll_wait` -/
def Pc.blocking : Pc → Bool
  | .tickle (.dispatch none) | .tickleWrite (.dispatch none) | .dispatch none => true
  | .idleTest | .idleInc | .idleCheck | .idleWait => true
  | _ => false

/-- the worker scans the queue before it can block (it may be in the code of a fiber, or on its way out of `idle`) -/
def Pc.willScan : Pc → Bool
  | .off | .exited => false
  | p => !p.blocking

/-- the worker is inside `tickle` -/
def Pc.tickling : Pc → Bool
  | .tickle _ | .tickleWrite _ => true
  | _ => false

/-- .. and has not read `hasIdleThreads()` yet -/
def Pc.asking : Pc → Bool
  | .tickle _ => true
  | _ => false

/-- the fiber that the worker has marked Execute, until the steps after the run that count it and test its state are
over -/
def Pc.executes : Pc → Option ℕ
  | .swapIn .restore _ _ f | .running _ _ f | .leaving _ _ _ f | .swapOut _ _ _ f | .count _ _ f
  | .after _ _ f => some f
  | _ => none

variable {s : St} {w : ℕ} {p q : Pc}

theorem executes_willScan {f : ℕ} (h : f ∈ p.executes) : p.willScan = true := by
  unfold executes at h
  split at h
  all_goals first
    | rfl
    | simp at h

theorem willScan_not_blocking (h : p.willScan = true) : p.blocking = false := by
  unfold willScan at h
  split at h <;> simp_all

theorem blocking_not_off (h : p.blocking = true) : p ≠ .off := by rintro rfl; simp [blocking] at h

/-! ## The counter of idle threads -/

/-- `_idleThreadCount` is the number of workers inside the idle part -/
def IdleCounted (s : St) : Prop := ∃ l : Finset ℕ, l.card = s.idleCount ∧ ∀ w, w ∈ l ↔ (s.pc w).idling = true

theorem IdleCounted.goto {s' : St} (h : IdleCounted s) (hpc : s'.pc = (s.goto w q).pc)
    (hc : s'.idleCount = s.idleCount) (hq : q.idling = (s.pc w).idling) : IdleCounted s' := by
  obtain ⟨l, hl, hm⟩ := h
  refine ⟨l, by rw [hl, hc], fun v => ?_⟩
  rw [hm, hpc]
  by_cases hv : v = w
  · subst hv; rw [goto_pc_self, hq]
  · rw [goto_pc_ne _ _ _ hv]

theorem Move.idling (h : Move s w p q) : q.idling = p.idling := by
  cases h with
  | tickleDrop k => rcases k with ft | _ <;> rfl
  | scan => split_ifs <;> rfl
  | _ => rfl

theorem step_idle_counted (s : St) (o : Op) (h : IdleCounted s) : IdleCounted (step s o) := by
  have ht := step_trans s o
  generalize step s o = s' at ht
  cases ht with
  | same | abort | setStop | drain | call | callerGo | callerDrop | callerWrite | newFiber | schedule => exact h
  | move _ w q _ hm => exact h.goto rfl rfl hm.idling
  | idleInc w hp =>
    obtain ⟨l, hl, hm⟩ := h
    have hw : w ∉ l := by simp [hm, hp, idling]
    refine ⟨insert w l, by simp [St.goto, card_insert_of_notMem hw, hl], fun v => ?_⟩
    by_cases hv : v = w
    · subst hv; simp [idling]
    · simp [hv, hm]
  | idleDec w st hp =>
    obtain ⟨l, hl, hm⟩ := h
    have hw : w ∈ l := by simp [hm, hp, idling]
    have hpos : 0 < l.card := card_pos.2 ⟨w, hw⟩
    refine ⟨l.erase w, ?_, fun v => ?_⟩
    · show (l.erase w).card = decCount s.idleCount
      rw [card_erase_of_mem hw, decCount, ← hl, if_neg (by omega)]
    · by_cases hv : v = w
      · subst hv; simp [idling]
      · simp [hv, hm]
  | take w e q hp he hq => exact h.goto rfl rfl (by rcases hq with rfl | rfl <;> simp [hp, idling])
  | requeue w b f q cb hp hcb hq => exact h.goto rfl rfl (by rcases hq with ⟨-, rfl⟩ | ⟨-, rfl⟩ <;> simp [hp, idling])
  | tickleWrite w k hp => exact h.goto rfl rfl (by rcases k with ft | _ <;> simp [hp, idling, Cont.pc])
  | _ => exact h.goto rfl rfl (by simp_all [idling])

theorem idle_counted (ops : List Op) : IdleCounted (run step init ops) :=
  run_inv_of_step step_idle_counted _ ops ⟨∅, rfl, by simp [init, idling]⟩

theorem IdleCounted.pos (h : IdleCounted s) (hw : (s.pc w).idling = true) : 0 < s.idleCount := by
  obtain ⟨l, hl, hm⟩ := h
  rw [← hl]
  exact card_pos.2 ⟨w, (hm w).2 hw⟩

/-! ## A fiber in state Execute is held by a worker -/

def ExecuteHeld (s : St) : Prop := ∀ f, s.state f = .execute → ∃ w, f ∈ (s.pc w).executes

theorem executes_goto {f : ℕ} (h : ∃ v, f ∈ (s.pc v).executes)
    (hw : f ∈ (s.pc w).executes → f ∈ q.executes) : ∃ v, f ∈ ((s.goto w q).pc v).executes := by
  obtain ⟨v, hv⟩ := h
  by_cases hvw : v = w
  · subst hvw; exact ⟨v, by simpa using hw hv⟩
  · exact ⟨v, by simpa [hvw] using hv⟩

theorem Move.executes (h : Move s w p q) {f : ℕ} (hst : s.state f = .execute) (hf : f ∈ p.executes) :
    f ∈ q.executes := by
  cases h with
  | isReady b g hg | dropDead p g hg | recycle p g hg =>
    obtain rfl : g = f := by simpa [executes] using hf
    simp [hst] at hg
  | _ => simp_all [executes]

theorem step_execute_held (s : St) (o : Op) (h : ExecuteHeld s) : ExecuteHeld (step s o) := by
  have ht := step_trans s o
  generalize step s o = s' at ht
  intro f hf
  cases ht with
  | same | abort | setStop | drain | call | callerGo | callerDrop | callerWrite | schedule => exact h f hf
  | newFiber fn =>
    by_cases hn : f = s.nextFiber
    · simp [hn] at hf
    · exact h f (by simpa [hn] using hf)
  | move _ w q _ hm => exact executes_goto (h f hf) (hm.executes hf)
  | setExecute w b e g hp =>
    by_cases hfg : f = g
    · exact ⟨w, by simp [hfg, executes]⟩
    · exact executes_goto (h f (by simpa [St.goto, hfg] using hf)) (by simp [hp, executes])
  | mark w y b e g st fin hp hst =>
    obtain ⟨hfg, hf⟩ := state_of_update hst.1 hf
    exact executes_goto (h f hf) (by simp [hp, executes])
  | hold w g hp | holdCb w g hp =>
    obtain ⟨hfg, hf⟩ := state_of_update (by decide) hf
    exact executes_goto (h f hf) (by simp [hp, executes, Ne.symm hfg])
  | finish | newCb | resetRun | resetDrop =>
    obtain ⟨hfg, hf⟩ := state_of_update (by decide) hf
    exact executes_goto (h f hf) (by simp_all [executes])
  | _ => exact executes_goto (h f hf) (by simp_all [executes])

theorem executing_held (ops : List Op) : ExecuteHeld (run step init ops) :=
  run_inv_of_step step_execute_held _ ops fun f hf => by simp [init] at hf

/-! ## The last worker awake -/

/-- a byte is in the pipe, or a thread is inside `tickle`, or a worker will scan -/
def Alert (s : St) : Prop := 0 < s.pipe ∨ (∃ c, s.callers c ≠ .outside) ∨ (∃ v, (s.pc v).tickling = true) ∨
    ∃ v, (s.pc v).willScan = true

/-- over a non-empty queue, a blocking worker is not alone -/
def Watch (s : St) : Prop := s.queue ≠ [] → (∃ w, (s.pc w).blocking = true) → Alert s

/-- a dropped tickle does no harm: nothing is queued, or nobody is blocking, or some worker will scan -/
def Harmless (s : St) : Prop :=
  s.queue = [] ∨ (∀ v ∈ s.threads, (s.pc v).blocking = false) ∨ ∃ v ∈ s.threads, (s.pc v).willScan = true

/-- a `tickle` that finds `hasIdleThreads()` false does so only where that does no harm -/
def Answered (s : St) : Op → Prop
  | .work w => (s.pc w).asking = true → s.idleCount = 0 → Harmless s
  | .caller c => s.callers c = .tickle → s.idleCount = 0 → Harmless s
  | _ => True

instance (s : St) : Decidable (Harmless s) := by unfold Harmless; infer_instance

instance (s : St) : (o : Op) → Decidable (Answered s o)
  | .work w => inferInstanceAs (Decidable ((s.pc w).asking = true → s.idleCount = 0 → Harmless s))
  | .caller c => inferInstanceAs (Decidable (s.callers c = .tickle → s.idleCount = 0 → Harmless s))
  | .start _ | .leave .. | .check .. | .wake _ | .drain _ | .schedule .. | .call _ | .newFiber _ | .setStop .. =>
    isTrue trivial

theorem Harmless.watch (hk : Known s) (h : Harmless s) (hq : s.queue ≠ [])
    (hb : ∃ w, (s.pc w).blocking = true) : ∃ v, (s.pc v).willScan = true := by
  obtain ⟨w, hw⟩ := hb
  rcases h with h | h | ⟨v, -, hv⟩
  · exact absurd h hq
  · simp [h w (hk.thread w (blocking_not_off hw))] at hw
  · exact ⟨v, hv⟩

theorem Alert.self (h : (s.pc w).willScan = true ∨ (s.pc w).tickling = true) : Alert s := by
  rcases h with h | h
  · exact .inr (.inr (.inr ⟨w, h⟩))
  · exact .inr (.inr (.inl ⟨w, h⟩))

theorem Watch.goto {s' : St} (h : Watch s) (hpc : s'.pc = (s.goto w q).pc)
    (hq : s'.queue = s.queue) (hp : s'.pipe = s.pipe) (hc : s'.callers = s.callers) (hb : (s.pc w).blocking = true)
    (ht : (s.pc w).tickling = false) : Watch s' := by
  intro hne _
  rw [hq] at hne
  have hother : ∀ v, v ≠ w → s'.pc v = s.pc v := fun v hv => by rw [hpc, goto_pc_ne _ _ _ hv]
  rcases h hne ⟨w, hb⟩ with hA | ⟨c, hA⟩ | ⟨v, hA⟩ | ⟨v, hA⟩
  · exact .inl (hp ▸ hA)
  · exact .inr (.inl ⟨c, hc ▸ hA⟩)
  · have hv : v ≠ w := by rintro rfl; simp [ht] at hA
    exact .inr (.inr (.inl ⟨v, by rwa [hother v hv]⟩))
  · have hv : v ≠ w := by rintro rfl; simp [willScan_not_blocking hA] at hb
    exact .inr (.inr (.inr ⟨v, by rwa [hother v hv]⟩))

theorem scan_alert (he : ExecuteHeld s) (hp : s.pc w = .scan) (hq : s.queue ≠ [])
    (hn : (scanQueue s.state w s.queue false).taken = none) (hok : (scanQueue s.state w s.queue false).failed = false) :
    Alert (s.goto w
      (if (scanQueue s.state w s.queue false).tickleMe then .tickle (.dispatch none) else .dispatch none)) := by
  obtain ⟨hnone, htick⟩ := scanQueue_none _ _ _ _ hn hok
  split_ifs with ht
  · exact Alert.self (w := w) (.inr (by simp [tickling]))
  obtain ⟨x, hx⟩ := List.exists_mem_of_ne_nil _ hq
  have hfor : ¬ foreign w x := fun hf => ht (htick.2 (.inr ⟨x, hx, hf⟩))
  have hexec : executing s.state x := by
    by_contra hne
    exact hnone x hx ⟨hfor, hne⟩
  obtain ⟨f, -, hf⟩ := hexec
  obtain ⟨v, hv⟩ := he f hf
  have hvw : v ≠ w := by rintro rfl; simp [hp, executes] at hv
  exact Alert.self (w := v) (.inl (by rw [goto_pc_ne _ _ _ hvw]; exact executes_willScan hv))

theorem Move.watch (h : Move s w p q) (hp : s.pc w = p) (hk : Known s) (he : ExecuteHeld s)
    (hdrop : p.asking = true → s.idleCount = 0 → Harmless s) (hw : Watch s) : Watch (s.goto w q) := by
  have hself : (q.willScan = true ∨ q.tickling = true) → Watch (s.goto w q) :=
    fun hq _ _ => Alert.self (w := w) (by simpa using hq)
  cases h with
  | scan hn hok => exact fun hq _ => scan_alert he hp hq hn hok
  | tickleDrop k h0 =>
    rcases k with (_ | e) | _
    · intro hq _
      obtain ⟨v, hv⟩ := (hdrop rfl h0).watch hk hq ⟨w, by simp [hp, blocking]⟩
      have hvw : v ≠ w := by rintro rfl; simp [hp, willScan, blocking] at hv
      exact Alert.self (w := v) (.inl (by simpa [hvw] using hv))
    all_goals exact hself (by simp [Cont.pc, willScan, blocking])
  | toIdle | exit | toSleep | wait => exact hw.goto rfl rfl rfl rfl (by simp [hp, blocking]) (by simp [hp, tickling])
  | resetTest p p' ft f => exact hself (by cases ft <;> simp [willScan, blocking])
  | _ => exact hself (by simp [willScan, blocking, tickling])

theorem waiting_asking (h : p.waiting = true) : p.asking = false := by
  unfold waiting at h
  split at h <;> simp_all [asking]

theorem step_watch (s : St) (o : Op) (hx : Answered s o) (hk : Known s) (he : ExecuteHeld s) (h : Watch s) :
    Watch (step s o) := by
  have ht := step_trans s o
  generalize step s o = s' at ht
  cases ht with
  | same | abort | setStop | newFiber => exact h
  | move _ w q _ hm hw =>
    refine hm.watch rfl hk he ?_ h
    rcases hw with rfl | hw
    · exact hx
    · simp [waiting_asking hw]
  | tickleWrite w k hp | callerWrite c hc => exact fun _ _ => .inl (Nat.succ_pos _)
  | idleInc w hp => exact h.goto rfl rfl rfl rfl (by simp [hp, blocking]) (by simp [hp, tickling])
  | drain w hp =>
    exact fun _ _ => Alert.self (s := { s with pipe := 0 }) (w := w) (.inl (by simp [hp, willScan, blocking]))
  | schedule c items hc hkn =>
    intro hq hb
    by_cases hempty : s.queue = []
    · -- the push onto the empty queue tickles
      have hit : items ≠ [] := by
        rintro rfl
        simp [hempty, entriesOf] at hq
      exact .inr (.inl ⟨c, by simp [hempty, hit]⟩)
    · rcases h hempty hb with hA | ⟨d, hA⟩ | hA | hA
      · exact .inl hA
      · have hdc : d ≠ c := by rintro rfl; exact hA hc
        exact .inr (.inl ⟨d, by simpa [hdc] using hA⟩)
      · exact .inr (.inr (.inl hA))
      · exact .inr (.inr (.inr hA))
  | call c | callerGo c hc hi => exact fun _ _ => .inr (.inl ⟨c, by simp⟩)
  | callerDrop c hc hi =>
    intro hq hb
    obtain ⟨v, hv⟩ := (hx hc hi).watch hk hq hb
    exact .inr (.inr (.inr ⟨v, hv⟩))
  | take w e q hp he hq =>
    exact fun _ _ => Alert.self (w := w) (by rcases hq with rfl | rfl <;> simp [willScan, blocking])
  | requeue w b f q cb hp hcb hq =>
    exact fun _ _ => Alert.self (w := w)
      (by rcases hq with ⟨-, rfl⟩ | ⟨-, rfl⟩ <;> simp [willScan, blocking])
  | resetContext w ft f hp => exact fun _ _ => Alert.self (w := w) (by cases ft <;> simp [willScan, blocking])
  | _ => exact fun _ _ => Alert.self (w := _) (.inl (by rw [goto_pc_self]; rfl))

theorem watch_run (ops : List Op) (hops : Meets step Answered init ops) : Watch (run step init ops) := by
  have h := run_inv (I := fun s => Known s ∧ ExecuteHeld s ∧ Watch s)
    (fun s o hx h => ⟨step_known s o h.1, step_execute_held s o h.2.1, step_watch s o hx h.1 h.2.1 h.2.2⟩) hops
    ⟨known_init, fun f hf => by simp [init] at hf, fun hq => absurd rfl hq⟩
  exact h.2.2

/-! ## No lost wakeup -/

/-- some thread is about to write a byte to the pipe: it has decided to, or it is inside `tickle` and finds a thread
idle -/
def AboutToWrite (s : St) : Prop :=
  (∃ c, s.callers c = .write ∨ s.callers c = .tickle ∧ 0 < s.idleCount) ∨
    ∃ v k, s.pc v = .tickleWrite k ∨ s.pc v = .tickle k ∧ 0 < s.idleCount

/-- an entry that any thread may run, with a worker blocked in `epoll_wait`: a byte is in the pipe, or a thread is about
to write one, or some worker will scan the queue before it can block -/
def WakeupKept (s : St) : Prop :=
  ∀ e ∈ s.queue, e.thread = -1 → ¬ executing s.state e → ∀ w, s.pc w = .idleWait →
    0 < s.pipe ∨ AboutToWrite s ∨ ∃ v, v ≠ w ∧ (s.pc v).willScan = true

/-- **No lost wakeup**, in every run in which each `tickle` is answered. -/
theorem no_lost_wakeup (ops : List Op) (hops : Meets step Answered init ops) : WakeupKept (run step init ops) := by
  have hwatch := watch_run ops hops
  have hcount := idle_counted ops
  generalize run step init ops = s at hwatch hcount ⊢
  intro e he _ _ w hw
  have hidle : 0 < s.idleCount := hcount.pos (w := w) (by simp [hw, idling])
  rcases hwatch (List.ne_nil_of_mem he) ⟨w, by simp [hw, blocking]⟩ with hA | ⟨c, hA⟩ | ⟨v, hA⟩ | ⟨v, hA⟩
  · exact .inl hA
  · refine .inr (.inl (.inl ⟨c, ?_⟩))
    cases hc : s.callers c with
    | outside => exact absurd hc hA
    | tickle => exact .inr ⟨rfl, hidle⟩
    | write => exact .inl rfl
  · refine .inr (.inl (.inr ⟨v, ?_⟩))
    unfold tickling at hA
    split at hA
    · rename_i k hv; exact ⟨k, .inr ⟨hv, hidle⟩⟩
    · rename_i k hv; exact ⟨k, .inl hv⟩
    · cases hA
  · have hvw : v ≠ w := by rintro rfl; simp [hw, willScan, blocking] at hA
    exact .inr (.inr ⟨v, hvw, hA⟩)

/-- worker 10 is blocked before the entry comes: the tickle finds it and writes -/
def tickleAfterIdle : List Op :=
  [.start 10, .work 10, .work 10, .work 10, .work 10, .check 10 false,
    .schedule 0 [⟨.callback (some 7), -1⟩], .caller 0,
    .caller 0]

theorem no_lost_wakeup_after_idle :
    Meets step Answered init tickleAfterIdle ∧ (run step init tickleAfterIdle).pipe = 1 ∧
      WakeupKept (run step init tickleAfterIdle) :=
  ⟨by decide, by decide, no_lost_wakeup tickleAfterIdle (by decide)⟩

/-- the entry and the tickle fall between the scan of worker 10 and its `++_idleThreadCount` -/
def tickleBeforeIdle : List Op :=
  [.start 10, .work 10, .work 10, .work 10, .schedule 0 [⟨.callback (some 7), -1⟩], .caller 0, .work 10,
    .check 10 false]

/-- **A lost wakeup.** -/
theorem tickle_before_idle :
    (run step init tickleBeforeIdle).pc 10 = .idleWait ∧
      (run step init tickleBeforeIdle).queue = [⟨.callback (some 7), -1, 0⟩] ∧
      (run step init tickleBeforeIdle).pipe = 0 ∧ ¬ WakeupKept (run step init tickleBeforeIdle) := by
  refine ⟨by decide, by decide, by decide, fun h => ?_⟩
  have hk : Known (run step init tickleBeforeIdle) := run_inv_of_step step_known _ _ known_init
  have hpc : ∀ v, v ≠ 10 → (run step init tickleBeforeIdle).pc v = .off := by
    intro v hv
    by_contra hne
    have hmem := hk.thread v hne
    rw [show (run step init tickleBeforeIdle).threads = [10] by decide, List.mem_singleton] at hmem
    exact hv hmem
  have hcallers : ∀ c, (run step init tickleBeforeIdle).callers c = .outside := by
    intro c
    have : (run step init tickleBeforeIdle).callers =
        Function.update (Function.update (fun _ => .outside) 0 .tickle) 0 .outside := rfl
    by_cases hc : c = 0 <;> simp [this]
  rcases h ⟨.callback (some 7), -1, 0⟩ (by decide) rfl (by decide) 10 (by decide) with
    hp | (⟨c, hc⟩ | ⟨v, k, hv⟩) | ⟨v, hne, hv⟩
  · exact absurd hp (by decide)
  · simp [hcallers c] at hc
  · by_cases hvw : v = 10
    · subst hvw
      simp [show (run step init tickleBeforeIdle).pc 10 = .idleWait by decide] at hv
    · simp [hpc v hvw] at hv
  · simp [hpc v hne, willScan] at hv

end CoServer.Scheduler
