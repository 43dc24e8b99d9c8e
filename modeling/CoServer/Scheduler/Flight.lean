/-
A fiber runs on one worker at a time, and `swapIn` is applied to saved contexts only, as long as no worker takes work
for a fiber that another worker has in flight.

A fiber is IN FLIGHT on a worker from the locked scan that took work for it until the `swapcontext` of `swapOut` has
stored its context. The scan skips fibers whose `_state` is Execute, but that is written inside `swapIn`, after the
queue lock was released, and `yieldToHold` / `yieldToReady` overwrite it BEFORE the context is saved. In both gaps a
second queue entry for the fiber can be taken by another worker.

Results:
- `run_flight`: the invariant of the fibers in flight, in every run with `Exclusive` steps (none takes work for a fiber
  that another worker has in flight).
- `fiber_runs_once`: then, for any number of workers, fibers and callers, no fiber executes on two workers at once, and
  `swapIn` is applied only to a fiber whose context the `swapOut` of its last run has saved.
- `hold_before_save`: a run with a step that is not exclusive, after which one fiber executes on two workers.
-/
import CoServer.Scheduler.Steps

namespace CoServer.Scheduler

open CoServer.Core Function List Pc FiberAndThread

/-! ## Fibers named by the locals of a worker -/

/-- the fiber that a taken entry is run on, with `cb` the cached `cb_fiber` -/
def FiberAndThread.target (cb : Option ℕ) (e : FiberAndThread) : Option ℕ :=
  match e.task with
  | .fiber f => f
  | .callback _ => cb

/-- the fiber in flight at a program counter -/
def Pc.flight (cb : Option ℕ) : Pc → Option ℕ
  | .tickle (.dispatch (some e)) | .tickleWrite (.dispatch (some e)) | .dispatch (some e) => e.target cb
  | .dispatch2 _ f | .reset _ (some _) f | .swapIn _ _ _ f => some f
  | .running _ _ f | .leaving _ _ _ f | .swapOut _ _ _ f => some f
  | _ => none

/-- the fiber whose code occupies the worker: its context was restored and is not saved again -/
def Pc.onCpu : Pc → Option ℕ
  | .running _ _ f | .leaving _ _ _ f | .swapOut _ _ _ f => some f
  | _ => none

/-- the fiber on which `swapIn` has been called and has not restored the context yet -/
def Pc.swappingIn : Pc → Option ℕ
  | .swapIn _ _ _ f => some f
  | _ => none

/-- every fiber the locals name -/
def Pc.names : Pc → Option ℕ
  | .tickle (.dispatch (some e)) | .tickleWrite (.dispatch (some e)) | .dispatch (some e) => e.fiber
  | .dispatch2 _ f | .reset _ _ f | .swapIn _ _ _ f | .running _ _ f | .leaving _ _ _ f | .swapOut _ _ _ f => some f
  | .count _ _ f | .after _ _ f | .requeue _ f => some f
  | _ => none

/-- the fiber in flight on worker `w` -/
def St.flight (s : St) (w : ℕ) : Option ℕ := (s.pc w).flight (s.cbFiber w)

variable {f w : ℕ} {s : St} {p q : Pc} {cb : Option ℕ}

theorem target_names {e : FiberAndThread} (h : f ∈ e.target cb) : f ∈ e.fiber ∨ f ∈ cb := by
  unfold target at h
  unfold fiber Task.fiberPtr
  split at h <;> simp_all

theorem flight_names (h : f ∈ p.flight cb) : f ∈ p.names ∨ f ∈ cb := by
  unfold flight at h
  split at h
  all_goals first
    | exact target_names h
    | exact .inl h
    | simp at h

theorem onCpu_flight (h : f ∈ p.onCpu) : f ∈ p.flight cb := by
  unfold onCpu at h
  split at h
  all_goals first
    | exact h
    | simp at h

theorem swappingIn_flight (h : f ∈ p.swappingIn) : f ∈ p.flight cb := by
  unfold swappingIn at h
  split at h
  · exact h
  · simp at h

theorem Move.names (h : Move s w p q) (hf : f ∈ q.names) : f ∈ p.names ∨ f ∈ s.cbFiber w := by
  cases h with
  | tickleDrop k => rcases k with (_ | e) | _ <;> simp_all [names, Cont.pc]
  | tickleGo k => rcases k with (_ | e) | _ <;> simp_all [names]
  | scan => split_ifs at hf <;> simp [names] at hf
  | dispatch e g he => simp_all [names, fiber, Task.fiberPtr]
  | _ => simp_all [names]

/-- the fibers named anywhere exist, and only started threads are inside `run` -/
structure Known (s : St) : Prop where
  thread : ∀ w, s.pc w ≠ .off → w ∈ s.threads
  pc : ∀ w, ∀ f ∈ (s.pc w).names, f < s.nextFiber
  cb : ∀ w, ∀ f ∈ s.cbFiber w, f < s.nextFiber
  queue : ∀ e ∈ s.queue, ∀ f ∈ e.fiber, f < s.nextFiber

theorem known_init : Known init := by constructor <;> simp [init, names]

theorem Known.goto (h : Known s) (hw : s.pc w ≠ .off) (hq : ∀ f ∈ q.names, f < s.nextFiber) : Known (s.goto w q) :=
  { h with
    thread := (forall_update_iff s.pc (p := fun v p => p ≠ .off → v ∈ s.threads)).2
      ⟨fun _ => h.thread w hw, fun v _ => h.thread v⟩
    pc := (forall_update_iff s.pc (p := fun _ p => ∀ f ∈ p.names, f < s.nextFiber)).2
      ⟨hq, fun v _ => h.pc v⟩ }

theorem Known.grow (h : Known s) (state : ℕ → FiberState) (callback : ℕ → Option Job) (ctx : ℕ → Ctx)
    (saved : ℕ → Bool) :
    Known { s with state, callback, ctx, saved, nextFiber := s.nextFiber + 1 } :=
  ⟨h.thread, fun w f hf => Nat.lt_succ_of_lt (h.pc w f hf), fun w f hf => Nat.lt_succ_of_lt (h.cb w f hf),
    fun e he f hf => Nat.lt_succ_of_lt (h.queue e he f hf)⟩

theorem Known.update_cb (h : Known s) (hcb : ∀ f ∈ cb, f < s.nextFiber) :
    ∀ v, ∀ f ∈ update s.cbFiber w cb v, f < s.nextFiber :=
  (forall_update_iff s.cbFiber (p := fun _ c => ∀ f ∈ c, f < s.nextFiber)).2 ⟨hcb, fun v _ => h.cb v⟩

theorem step_known (s : St) (o : Op) (h : Known s) : Known (step s o) := by
  have ht := step_trans s o
  generalize step s o = s' at ht
  cases ht with
  | same => exact h
  | abort | setStop | drain | call | callerGo | callerDrop | callerWrite => exact ⟨h.thread, h.pc, h.cb, h.queue⟩
  | start w hp =>
    refine ⟨?_, ?_, h.cb, h.queue⟩
    · refine (forall_update_iff s.pc (p := fun v p => p ≠ .off → v ∈ s.threads ++ [w])).2
        ⟨fun _ => by simp, fun v _ hv => mem_append_left _ (h.thread v hv)⟩
    · exact (forall_update_iff s.pc (p := fun _ p => ∀ f ∈ p.names, f < s.nextFiber)).2
        ⟨by simp [names], fun v _ => h.pc v⟩
  | move _ w q _ hm =>
    refine h.goto (fun hp => by rw [hp] at hm; cases hm) fun f hf => ?_
    rcases hm.names hf with hf | hf
    · exact h.pc w f hf
    · exact h.cb w f hf
  | take w e q hp he hq =>
    obtain ⟨l, r, hqe, hqr, -⟩ := scanQueue_some _ _ _ _ _ (takes_scan he)
    have hmem : e ∈ s.queue := takes_mem he
    apply Known.goto
    · refine ⟨h.thread, h.pc, h.cb, fun x hx => h.queue x ?_⟩
      rw [hqr] at hx
      rw [hqe]
      rcases mem_append.1 hx with hx | hx
      · exact mem_append_left _ hx
      · exact mem_append_right _ (mem_cons_of_mem _ hx)
    · simp [hp]
    · intro f hf
      rcases hq with rfl | rfl <;> exact h.queue e hmem f hf
  | newCb w e fn hp he hn =>
    apply Known.goto
    · have hg := h.grow (update s.state s.nextFiber .init)
        (update s.callback s.nextFiber (some ⟨fn, some e.ticket⟩)) (update s.ctx s.nextFiber .entry)
        (update s.saved s.nextFiber true)
      exact { hg with cb := hg.update_cb (by simp) }
    · simp [hp]
    · simp [names]
  | requeue w b f q cb hp hcb hq =>
    have hf : f < s.nextFiber := h.pc w f (by simp [hp, names])
    apply Known.goto
    · refine ⟨h.thread, h.pc, ?_, ?_⟩
      · rcases hcb with rfl | rfl
        · exact h.cb
        · exact h.update_cb (by simp)
      · intro x hx
        rcases mem_append.1 hx with hx | hx
        · exact h.queue x hx
        · simp only [mem_singleton] at hx; subst hx
          simpa [fiber, Task.fiberPtr] using hf
    · simp [hp]
    · rcases hq with ⟨-, rfl⟩ | ⟨-, rfl⟩ <;> simp [names]
  | schedule c items hc hk =>
    refine ⟨h.thread, h.pc, h.cb, fun x hx => ?_⟩
    rcases mem_append.1 hx with hx | hx
    · exact h.queue x hx
    obtain ⟨⟨i, hi, hxi, -⟩, -⟩ := mem_entriesOf hx
    unfold fiber
    rw [hxi]
    exact hk i hi
  | newFiber fn => exact h.grow _ _ _ _
  | holdCb w f hp =>
    apply Known.goto
    · exact ⟨h.thread, h.pc, h.update_cb (by simp), h.queue⟩
    · simp [hp]
    · simp [names]
  | tickleWrite w k hp =>
    apply Known.goto
    · exact ⟨h.thread, h.pc, h.cb, h.queue⟩
    · simp [hp]
    · intro f hf
      apply h.pc w f
      rcases k with (_ | e) | _ <;> simp_all [names, Cont.pc]
  | _ =>
    apply Known.goto
    · exact ⟨h.thread, h.pc, h.cb, h.queue⟩
    · simp_all
    intro f hf
    first
      | (simp [names] at hf; done)
      | exact h.pc _ f (by rw [‹s.pc _ = _›]; exact hf)

/-! ## What a step does to the fibers in flight -/

theorem Move.flight (h : Move s w p q) (hf : f ∈ q.flight (s.cbFiber w)) : f ∈ p.flight (s.cbFiber w) := by
  cases h with
  | tickleDrop k => rcases k with (_ | e) | _ <;> simp_all [flight, Cont.pc]
  | tickleGo k => rcases k with (_ | e) | _ <;> simp_all [flight]
  | scan => split_ifs at hf <;> simp [flight] at hf
  | dispatch e g he | reuse e fn g he hg => simp_all [flight, target]
  | resetTest p p' ft g => cases ft <;> simp_all [flight]
  | _ => simp_all [flight]

theorem Trans.flight {s' : St} {o : Op} (h : Trans s o s') (ho : o.worker = some w) (hf : f ∈ s'.flight w) :
    f ∈ s.flight w ∨ (o = .work w ∧ ∃ e ∈ takes s w, f ∈ e.target (s.cbFiber w)) ∨ f = s.nextFiber := by
  unfold St.flight at hf ⊢
  cases h with
  | same | abort | drain => exact .inl hf
  | schedule | call | callerGo | callerDrop | callerWrite | newFiber | setStop => cases ho
  | move _ v q hv hm =>
    obtain rfl : v = w := Option.some.inj (hv.symm.trans ho)
    exact .inl (hm.flight (by simpa [St.goto] using hf))
  | take v e q hp he hq =>
    obtain rfl : v = w := Option.some.inj ho
    refine .inr (.inl ⟨rfl, e, he, ?_⟩)
    rcases hq with rfl | rfl <;> simpa [St.goto, flight] using hf
  | newCb v e fn hp he hn =>
    obtain rfl : v = w := Option.some.inj ho
    exact .inr (.inr (by simpa [flight, eq_comm] using hf))
  | tickleWrite v k hp =>
    obtain rfl : v = w := Option.some.inj ho
    rcases k with (_ | e) | _ <;> simp_all [St.goto, flight, Cont.pc]
  | resetContext v ft g hp =>
    obtain rfl : v = w := Option.some.inj ho
    cases ft <;> simp_all [flight]
  | requeue v b g q cb hp hcb hq =>
    obtain rfl : v = w := Option.some.inj ho
    rcases hq with ⟨-, rfl⟩ | ⟨-, rfl⟩ <;> simp [Pc.flight] at hf
  | _ =>
    cases ho
    simp_all [Pc.flight]

theorem onCpu_goto (h : ∃ v, f ∈ (s.pc v).onCpu) (hw : f ∈ (s.pc w).onCpu → f ∈ q.onCpu) :
    ∃ v, f ∈ ((s.goto w q).pc v).onCpu := by
  obtain ⟨v, hv⟩ := h
  by_cases hvw : v = w
  · subst hvw; exact ⟨v, by simpa using hw hv⟩
  · exact ⟨v, by simpa [hvw] using hv⟩

theorem Move.onCpu (h : Move s w p q) (hf : f ∈ p.onCpu) : f ∈ q.onCpu := by cases h <;> simp_all [onCpu]

/-- the worker on whose cpu an unsaved context sits -/
def Seated (s : St) : Prop := ∀ f, s.saved f = false → ∃ w, f ∈ (s.pc w).onCpu

theorem Trans.seated {s' : St} {o : Op} (h : Trans s o s') (hs : Seated s) : Seated s' := by
  intro f hf
  cases h with
  | same | abort | drain | schedule | call | callerGo | callerDrop | callerWrite | setStop => exact hs f hf
  | newFiber fn =>
    by_cases hn : f = s.nextFiber
    · simp [hn] at hf
    · exact hs f (by simpa [hn] using hf)
  | newCb w e fn hp he hn =>
    by_cases hn : f = s.nextFiber
    · simp [St.goto, hn] at hf
    · exact onCpu_goto (hs f (by simpa [St.goto, hn] using hf)) (by simp [hp, onCpu])
  | move _ w q _ hm => exact onCpu_goto (hs f hf) hm.onCpu
  | enter w b e g j hp hc hj | enterEmpty w b e g hp hc hj | resume w b e g hp hc =>
    by_cases hg : f = g
    · exact ⟨w, by simp [hg, onCpu]⟩
    · exact onCpu_goto (hs f (by simpa [St.goto, hg] using hf)) (by simp [hp, onCpu])
  | save w fin b e g c hp hc =>
    by_cases hg : f = g
    · simp [St.goto, hg] at hf
    · exact onCpu_goto (hs f (by simpa [St.goto, hg] using hf)) (by simp [hp, onCpu, Ne.symm hg])
  | _ => exact onCpu_goto (hs f hf) (by simp_all [onCpu])

/-! ## One worker at a time -/

/-- the step does not take work for a fiber that is in flight on another worker -/
def Exclusive (s : St) : Op → Prop
  | .work w => ∀ e ∈ takes s w, ∀ f ∈ e.target (s.cbFiber w), ∀ v ∈ s.threads, v ≠ w → f ∉ s.flight v
  | _ => True

instance (s : St) : (o : Op) → Decidable (Exclusive s o)
  | .work w => inferInstanceAs
      (Decidable (∀ e ∈ takes s w, ∀ f ∈ e.target (s.cbFiber w), ∀ v ∈ s.threads, v ≠ w → f ∉ s.flight v))
  | .start _ | .leave .. | .check .. | .wake _ | .drain _ | .schedule .. | .call _ | .caller _ | .newFiber _
  | .setStop .. => isTrue trivial

structure Flight (s : St) : Prop where
  known : Known s
  seated : Seated s
  unique : ∀ v w f, f ∈ s.flight v → f ∈ s.flight w → v = w

theorem flight_init : Flight init :=
  ⟨known_init, fun f hf => by simp [init] at hf, fun v w f hv => by simp [St.flight, init, flight] at hv⟩

theorem Known.flight_lt (h : Known s) (hf : f ∈ s.flight w) : f < s.nextFiber := by
  rcases flight_names hf with hf | hf
  · exact h.pc w f hf
  · exact h.cb w f hf

theorem Known.thread_of_flight (h : Known s) (hf : f ∈ s.flight w) : w ∈ s.threads := by
  apply h.thread w
  intro hp
  simp [St.flight, hp, flight] at hf

theorem step_flight (s : St) (o : Op) (hx : Exclusive s o) (h : Flight s) : Flight (step s o) := by
  have ht := step_trans s o
  refine ⟨step_known s o h.known, ht.seated h.seated, ?_⟩
  generalize step s o = s' at ht
  -- a fiber in flight on the acting worker after the step was so before, or is not in flight anywhere else
  have hact : ∀ w v f, o.worker = some w → v ≠ w → f ∈ s'.flight w → f ∉ s'.flight v := by
    intro w v f ho hvw hfw hfv
    obtain ⟨hpc, hcb, -⟩ := ht.other (v := v) (by rw [ho]; simpa using Ne.symm hvw)
    have hfv' : f ∈ s.flight v := by simpa [St.flight, hpc, hcb] using hfv
    rcases ht.flight ho hfw with hf | ⟨rfl, e, he, hf⟩ | rfl
    · exact hvw (h.unique v w f hfv' hf)
    · exact hx e he f hf v (h.known.thread_of_flight hfv') hvw hfv'
    · exact absurd (h.known.flight_lt hfv') (lt_irrefl _)
  intro v w f hv hw
  by_contra hvw
  by_cases hov : o.worker = some v
  · exact hact v w f hov (Ne.symm hvw) hv hw
  by_cases how : o.worker = some w
  · exact hact w v f how hvw hw hv
  obtain ⟨hpv, hcv, -⟩ := ht.other hov
  obtain ⟨hpw, hcw, -⟩ := ht.other how
  exact hvw (h.unique v w f (by simpa [St.flight, hpv, hcv] using hv) (by simpa [St.flight, hpw, hcw] using hw))

theorem run_flight (ops : List Op) (hops : Meets step Exclusive init ops) : Flight (run step init ops) :=
  run_inv step_flight hops flight_init

theorem Flight.saved_of_swapIn (h : Flight s) (hf : f ∈ (s.pc w).swappingIn) : s.saved f = true := by
  cases hs : s.saved f with
  | true => rfl
  | false =>
    -- an unsaved fiber sits on some cpu, which by uniqueness is this worker's; but this worker is still inside `swapIn`
    obtain ⟨v, hv⟩ := h.seated f hs
    have hvw : v = w := h.unique v w f (onCpu_flight hv) (swappingIn_flight hf)
    subst hvw
    cases hp : s.pc v <;> simp_all [onCpu, swappingIn]

/-- fiber `f` executes on worker `w` -/
def ExecutesOn (s : St) (f w : ℕ) : Prop := f ∈ (s.pc w).onCpu

instance (s : St) (f w : ℕ) : Decidable (ExecutesOn s f w) := by unfold ExecutesOn; infer_instance

/-- no fiber executes on two workers, and every `swapIn` in progress is on a context that was saved -/
def RunsOnce (s : St) : Prop :=
  (∀ f v w, ExecutesOn s f v → ExecutesOn s f w → v = w) ∧ ∀ w, ∀ f ∈ (s.pc w).swappingIn, s.saved f = true

/-- **One worker at a time**, in every run in which no step takes work for a fiber in flight on another worker. -/
theorem fiber_runs_once (ops : List Op) (hops : Meets step Exclusive init ops) : RunsOnce (run step init ops) := by
  have h := run_flight ops hops
  exact ⟨fun f v w hv hw => h.unique v w f (onCpu_flight hv) (onCpu_flight hw), fun w f hf => h.saved_of_swapIn hf⟩

/-! ## The gap between the state and the context -/

/-- worker 10 runs callback 7 on a new fiber 0, which yields Ready and is saved and queued again; worker 11 takes it
over -/
def handover : List Op :=
  [.start 10, .start 11, .schedule 0 [⟨.callback (some 7), -1⟩], .work 10, .work 10, .work 10, .work 10, .work 10,
    .leave 10 .ready, .work 10, .work 10, .work 10, .work 10, .work 10, .work 11, .work 11, .work 11,
    .work 11, .work 11,
    .work 11]

/-- the handover meets the condition -/
theorem fiber_runs_once_handover :
    Meets step Exclusive init handover ∧ ExecutesOn (run step init handover) 0 11 ∧ RunsOnce (run step init handover) :=
  ⟨by decide, by decide, fiber_runs_once handover (by decide)⟩

/-- the fiber of callback 7 writes Holding on worker 10; before its `swapOut` saves the context, an event schedules it
and worker 11 takes it -/
def holdBeforeSave : List Op :=
  [.start 10, .start 11, .schedule 0 [⟨.callback (some 7), -1⟩], .work 10, .work 10, .work 10, .work 10, .work 10,
    .leave 10 .hold, .work 10, .schedule 1 [⟨.fiber (some 0), -1⟩], .work 11, .work 11, .work 11, .work 11, .work 11,
    .work 11]

/-- **Two workers, one fiber.** One step earlier worker 11 is inside `swapIn` of fiber 0 while its context is not saved.
-/
theorem hold_before_save :
    (ExecutesOn (run step init holdBeforeSave) 0 10 ∧ ExecutesOn (run step init holdBeforeSave) 0 11) ∧
      ((run step init holdBeforeSave.dropLast).pc 11).swappingIn = some 0 ∧
      (run step init holdBeforeSave.dropLast).saved 0 = false ∧ ¬ RunsOnce (run step init holdBeforeSave) := by
  refine ⟨by decide, by decide, by decide, fun h => ?_⟩
  exact absurd (h.1 0 10 11 (by decide) (by decide)) (by decide)

end CoServer.Scheduler
