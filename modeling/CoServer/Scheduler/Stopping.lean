/-
`Scheduler::stopping()`: when it is true, is anything still owed?

`stopping` reads `_autoStop`, `_stopping`, the queue and `_activeThreadCount` in one locked section. The counter covers
a taken entry from the scan to the decrement after its run (`Ledger`), but the decrement comes BEFORE the fiber that
yielded as Ready is put back: in between nothing accounts for it.

Results:
- `step_held`: a `Settled` step keeps it that, while the scheduler ends, every fiber to be run is held by a worker.
- `stopping_owes_nothing`: in every run of such steps, if `stopping()` is true then the queue is empty and no worker
  holds a fiber that it took and that is still to be run or to be put back because it yielded as Ready.
- `stopping_with_ready_fiber`: `stopping()` is true while a worker has yet to put a Ready fiber back; two steps later it
  is queued.
-/
import CoServer.Scheduler.Accounting

namespace CoServer.Scheduler

open CoServer.Core Pc

/-! ## What a worker owes -/

/-- the worker holds a fiber it took that is still to be run, or to be put back because it yielded as Ready -/
def Pc.owes (state : ℕ → FiberState) : Pc → Prop
  | .tickle (.dispatch ft) | .tickleWrite (.dispatch ft) | .dispatch ft | .reset _ ft _ => ft ≠ none
  | .dispatch2 .. | .swapIn .. | .running .. | .leaving .. | .requeue .. => True
  | .swapOut _ _ _ f | .count _ _ f | .after .ready _ f => state f = .ready
  | _ => False

/-- the decrement has run, and the fiber is Ready and not in the queue -/
def Pc.uncounted (state : ℕ → FiberState) : Pc → Prop
  | .after .ready _ f => state f = .ready
  | .requeue .. => True
  | _ => False

instance (state : ℕ → FiberState) (p : Pc) : Decidable (p.uncounted state) := by
  unfold uncounted; split <;> infer_instance

/-- the fiber whose run has ended and whose state the worker has not examined -/
def Pc.returned : Pc → Option ℕ
  | .count _ _ f | .after .ready _ f => some f
  | _ => none

/-- the fiber that has written its state, while the worker still owes the decrement -/
def Pc.yielded : Pc → Option ℕ
  | .swapOut _ _ _ f | .count _ _ f => some f
  | _ => none

variable {p : Pc}

theorem owes_cases {state : ℕ → FiberState} (h : p.owes state) : p.taken ≠ none ∨ p.uncounted state := by
  unfold owes at h
  split at h <;> simp_all [taken, uncounted]

theorem yielded_taken {f : ℕ} (h : f ∈ p.yielded) : p.taken ≠ none := by
  unfold yielded at h
  split at h <;> simp_all [taken]

/-! ## While the scheduler is being stopped -/

def St.ending (s : St) : Prop := s.autoStop = true ∧ s.stopping = true

instance (s : St) : Decidable s.ending := by unfold St.ending; infer_instance

/-- once the scheduler is being stopped, no worker passes the decrement or the test that follows it for a Ready fiber;
and it is not told to stop while some worker is between the decrement for a Ready fiber and putting it back -/
def Settled (s : St) : Op → Prop
  | .work w => s.ending → ∀ f ∈ (s.pc w).returned, s.state f ≠ .ready
  | .setStop a b => a = true ∧ b = true → ∀ w ∈ s.threads, ¬ (s.pc w).uncounted s.state
  | _ => True

instance (s : St) : (o : Op) → Decidable (Settled s o)
  | .work w => inferInstanceAs (Decidable (s.ending → ∀ f ∈ (s.pc w).returned, s.state f ≠ .ready))
  | .setStop a b => inferInstanceAs (Decidable (a = true ∧ b = true → ∀ w ∈ s.threads, ¬ (s.pc w).uncounted s.state))
  | .start _ | .leave .. | .check .. | .wake _ | .drain _ | .schedule .. | .call _ | .caller _ | .newFiber _ =>
    isTrue trivial

/-- a Ready fiber that a worker is about to examine is held by a worker that still owes its decrement -/
structure Held (s : St) : Prop where
  ready : ∀ w b f, s.pc w = .after .ready b f → s.state f = .ready → ∃ v, f ∈ (s.pc v).yielded
  requeue : ∀ w b f, s.pc w ≠ .requeue b f

theorem yielded_goto {s : St} {w f : ℕ} {q : Pc} (h : ∃ v, f ∈ (s.pc v).yielded)
    (hw : f ∈ (s.pc w).yielded → f ∈ q.yielded) : ∃ v, f ∈ ((s.goto w q).pc v).yielded := by
  obtain ⟨v, hv⟩ := h
  by_cases hvw : v = w
  · subst hvw; exact ⟨v, by simpa using hw hv⟩
  · exact ⟨v, by simpa [hvw] using hv⟩

theorem Held.goto {s s' : St} (h : Held s) {w : ℕ} {q : Pc} (hpc : s'.pc = (s.goto w q).pc)
    (hst : ∀ f, s'.state f = .ready → s.state f = .ready) (hq : ∀ b f, q ≠ .after .ready b f ∧ q ≠ .requeue b f)
    (hw : ∀ f ∈ (s.pc w).yielded, f ∈ q.yielded) : Held s' := by
  refine ⟨fun v b f hv hf => ?_, fun v b f hv => ?_⟩
  · rw [hpc] at hv ⊢
    by_cases hvw : v = w
    · subst hvw; exact absurd (by simpa using hv) (hq b f).1
    · exact yielded_goto (h.ready v b f (by simpa [hvw] using hv) (hst f hf)) fun hf' => hw f hf'
  · rw [hpc] at hv
    by_cases hvw : v = w
    · subst hvw; exact (hq b f).2 (by simpa using hv)
    · exact h.requeue v b f (by simpa [hvw] using hv)

theorem Move.held {s : St} {w : ℕ} {q : Pc} (h : Move s w p q) (hr : ∀ f ∈ p.returned, s.state f ≠ .ready) :
    (∀ b f, q ≠ .after .ready b f ∧ q ≠ .requeue b f) ∧ p.yielded = none := by
  cases h with
  | tickleDrop k => rcases k with ft | _ <;> simp [Cont.pc, yielded]
  | scan => split_ifs <;> simp [yielded]
  | isReady b f h => exact absurd h (hr f rfl)
  | _ => simp [yielded]

theorem waiting_returned (h : p.waiting = true) : p.returned = none := by
  unfold waiting at h
  split at h <;> simp_all [returned]

theorem step_held (s : St) (o : Op) (hx : Settled s o) (hk : Known s) (h : s.ending → Held s) :
    (step s o).ending → Held (step s o) := by
  have ht := step_trans s o
  generalize step s o = s' at ht
  intro hend
  cases ht with
  | setStop a b =>
    have hno : ∀ w, ¬ (s.pc w).uncounted s.state := by
      intro w
      by_cases hw : s.pc w = .off
      · simp [hw, uncounted]
      · exact hx hend w (hk.thread w hw)
    exact ⟨fun w b f hp hf => absurd (by simpa [show s.pc w = _ from hp, uncounted] using hf) (hno w),
      fun w b f hp => hno w (by simp [show s.pc w = _ from hp, uncounted])⟩
  | same => exact h hend
  | abort | drain | call | callerGo | callerDrop | callerWrite | schedule =>
    have hs := h hend
    exact ⟨hs.ready, hs.requeue⟩
  | newFiber fn =>
    have hs := h hend
    exact ⟨fun w b f hp hf => hs.ready w b f hp (state_of_update (by decide) hf).2, hs.requeue⟩
  | move _ w q _ hm hw =>
    have hr : ∀ f ∈ (s.pc w).returned, s.state f ≠ .ready := by
      rcases hw with rfl | hw
      · exact hx hend
      · simp [waiting_returned hw]
    obtain ⟨hq, hy⟩ := hm.held hr
    exact (h hend).goto rfl (fun _ hf => hf) hq (by simp [hy])
  | count w b e f hp =>
    -- the fiber is not Ready, by the condition, so the test that follows owes nothing
    have hs := h hend
    have hnr : s.state f ≠ .ready := hx hend f (by simp [hp, returned])
    refine ⟨fun v b' g hv hg => ?_, fun v b' g hv => ?_⟩
    · by_cases hvw : v = w
      · subst hvw
        obtain ⟨-, rfl⟩ : b = b' ∧ f = g := by simpa using hv
        exact absurd hg hnr
      · refine yielded_goto (hs.ready v b' g (by simpa [hvw] using hv) hg) fun hgw => ?_
        obtain rfl : f = g := by simpa [hp, yielded] using hgw
        exact absurd hg hnr
    · by_cases hvw : v = w
      · subst hvw; simp at hv
      · exact hs.requeue v b' g (by simpa [hvw] using hv)
  | mark w y b e f st fin hp hst =>
    have hs := h hend
    refine ⟨fun v b' g hv hg => ?_, fun v b' g hv => ?_⟩
    · by_cases hgf : g = f
      · exact ⟨w, by simp [hgf, yielded]⟩
      by_cases hvw : v = w
      · subst hvw; simp at hv
      · exact yielded_goto (hs.ready v b' g (by simpa [hvw] using hv) (by simpa [St.goto, hgf] using hg))
          (by simp [hp, yielded])
    · by_cases hvw : v = w
      · subst hvw; simp at hv
      · exact hs.requeue v b' g (by simpa [hvw] using hv)
  | requeue w b f q cb hp hcb hq => exact absurd hp ((h hend).requeue w b f)
  | take w e q hp he hq =>
    exact (h hend).goto rfl (fun _ hf => hf) (by rcases hq with rfl | rfl <;> simp) (by simp [hp, yielded])
  | tickleWrite w k hp =>
    exact (h hend).goto rfl (fun _ hf => hf) (by rcases k with ft | _ <;> simp [Cont.pc]) (by simp [hp, yielded])
  | save w fin b e f c hp hc => exact (h hend).goto rfl (fun _ hf => hf) (by simp) (by simp [hp, yielded])
  | _ =>
    refine (h hend).goto rfl ?_ (by simp) (by simp_all [yielded])
    first
      | exact fun _ hf => hf
      | exact fun _ hf => (state_of_update (by decide) hf).2

theorem held_run (ops : List Op) (hops : Meets step Settled init ops) :
    Known (run step init ops) ∧ ((run step init ops).ending → Held (run step init ops)) :=
  run_inv (I := fun s => Known s ∧ (s.ending → Held s))
    (fun s o hx h => ⟨step_known s o h.1, step_held s o hx h.1 h.2⟩) hops
    ⟨known_init, fun h => by simp [St.ending, init] at h⟩

/-! ## The test for the end -/

/-- nothing is queued, and no worker holds a fiber to be run or to be put back -/
def NothingOwed (s : St) : Prop := s.queue = [] ∧ ∀ w, ¬ (s.pc w).owes s.state

/-- **Stopping owes nothing**, in every run that meets the condition. -/
theorem stopping_owes_nothing (ops : List Op) (hops : Meets step Settled init ops)
    (hstop : stoppingNow (run step init ops) = true) : NothingOwed (run step init ops) := by
  have hl := ledger_run ops
  obtain ⟨-, hheld⟩ := held_run ops hops
  generalize run step init ops = s at hl hheld hstop ⊢
  have hs : ((s.autoStop = true ∧ s.stopping = true) ∧ s.queue = []) ∧ s.active = 0 := by
    simpa [stoppingNow] using hstop
  obtain ⟨⟨hend, hq⟩, hact⟩ := hs
  have hnone : ∀ w, (s.pc w).taken = none := by
    intro w
    by_contra hne
    have := hl.active_pos hne
    omega
  refine ⟨hq, fun w how => ?_⟩
  rcases owes_cases how with ht | hu
  · exact ht (hnone w)
  have hh := hheld hend
  unfold uncounted at hu
  split at hu
  · rename_i b f hp
    obtain ⟨v, hv⟩ := hh.ready w b f hp hu
    exact yielded_taken hv (hnone v)
  · rename_i b f hp; exact hh.requeue w b f hp
  · exact hu

/-- one worker runs one callback to its end while the scheduler is being stopped -/
def stopAfterFinish : List Op :=
  [.start 10, .schedule 0 [⟨.callback (some 7), -1⟩], .setStop true true, .work 10, .work 10, .work 10, .work 10,
    .work 10, .leave 10 .finish, .work 10, .work 10, .work 10]

theorem stopping_owes_nothing_finish :
    Meets step Settled init stopAfterFinish ∧ stoppingNow (run step init stopAfterFinish) = true ∧
      NothingOwed (run step init stopAfterFinish) :=
  ⟨by decide, by decide, stopping_owes_nothing stopAfterFinish (by decide) (by decide)⟩

/-- the same run with a callback that yields as Ready, up to the decrement -/
def stopBeforeRequeue : List Op :=
  [.start 10, .schedule 0 [⟨.callback (some 7), -1⟩], .setStop true true, .work 10, .work 10, .work 10, .work 10,
    .work 10, .leave 10 .ready, .work 10, .work 10, .work 10]

/-- **Stopping with a Ready fiber in hand.** -/
theorem stopping_with_ready_fiber :
    stoppingNow (run step init stopBeforeRequeue) = true ∧ ¬ NothingOwed (run step init stopBeforeRequeue) ∧
      (run step init (stopBeforeRequeue ++ [.work 10, .work 10])).queue = [⟨.fiber (some 0), -1, 1⟩] := by
  refine ⟨by decide, fun h => h.2 10 ?_, by decide⟩
  exact (by decide : (run step init stopBeforeRequeue).state 0 = .ready)

end CoServer.Scheduler
