/-
Where the tokens of a worker group are. A task takes its token in `schedule` and `doWork` gives it back after the task;
when the task throws, `doWork` is left before its `notify` and the fiber's entry function swallows the exception, so the
token is neither free nor held by anybody who will give it back.

Results:
- `group_tokens_iff`: in every state of every run, between the semaphore operations the tokens add up exactly if no task
  has thrown; the calls that were made come to rest; and then, if every task has ended, every `waitAll` has returned
  exactly if at most one of them entered the loop and, if one did, no task has thrown.
- `never_drained`: after a task has thrown no `waitAll` comes out of its loop, in any continuation.
- `throwing_task_blocks`: such a run, with nothing left to do; and two `waitAll` without any task, each queued with one
  token of two.
-/
import CoServer.Worker.Group

namespace CoServer.Worker

open CoServer.Core Mutex Finset Call St Function

/-! ## Counts -/

variable (s : St)

/-- the tasks that have thrown -/
def St.threw : Finset ℕ := {c ∈ range s.next | s.calls c = .threw}

/-- the tokens a `waitAll` has taken -/
def Call.taken (b : ℕ) : Call → ℕ
  | .draining i | .drainQueued i => i
  | .drained => b
  | _ => 0

def St.taken : ℕ := ∑ c ∈ range s.next, (s.calls c).taken s.batchSize

/-- no semaphore operation is in progress: no token is on its way to a task or back from one -/
def St.quiet : Prop := ∀ c, s.calls c ≠ .granted ∧ s.calls c ≠ .returned

/-- the calls of `waitAll` that found `_finish` unset and are in the loop or past it -/
def Call.inLoop : Call → Bool
  | .draining _ | .drainQueued _ | .drained => true
  | _ => false

def St.loops : Finset ℕ := {c ∈ range s.next | (s.calls c).inLoop = true}

/-- the call is one of `waitAll` that has not returned -/
def Call.inWaitAll : Call → Bool
  | .testing | .setting | .draining _ | .drainQueued _ => true
  | _ => false

/-- every task passed to `schedule` has ended -/
def St.allEnded : Prop := ∀ c, (s.calls c).isTask = true → (s.calls c).ended = true

/-- the call that makes the step can make it -/
def St.enabled : Op → Bool
  | .wait c => (s.calls c).waits
  | .submit c => s.calls c = .granted
  | .finish c _ => s.calls c = .running
  | .notify c => s.calls c = .returned
  | .test c => s.calls c = .testing
  | .set c => s.calls c = .setting
  | .schedule | .waitAll => false

/-- no call can make a step -/
def St.settled : Prop := ∀ o, s.enabled o = false

/-! ## Conservation -/

theorem tokens_eq {b : ℕ} {x : Call} (hg : x ≠ .granted) (hr : x ≠ .returned) :
    x.tokens b = (if x = .running then 1 else 0) + x.taken b + if x = .threw then 1 else 0 := by
  cases x <;> first | rfl | exact absurd rfl hg | exact absurd rfl hr | simp [Call.tokens, Call.taken]

section

variable {s : St}

theorem Inv.conserved (h : Inv s) (hq : s.quiet) :
    s.sem.concurrency + s.running.card + s.taken + s.threw.card = s.batchSize := by
  have hsum : ∑ c ∈ range s.next, (s.calls c).tokens s.batchSize = s.running.card + s.taken + s.threw.card := by
    rw [St.running, St.threw, St.taken, card_filter, card_filter, ← sum_add_distrib, ← sum_add_distrib]
    exact sum_congr rfl fun c _ => tokens_eq (hq c).1 (hq c).2
  have := h.sum_tokens
  omega

/-! ## Rest -/

/-- a bound on the steps a call can still make -/
def Call.rank (b : ℕ) : Call → ℕ
  | .entering => 6
  | .queued => 5
  | .granted => 4
  | .running => 3
  | .returned => 2
  | .testing => 2 * b + 4
  | .setting => 2 * b + 3
  | .draining i => 2 * (b - i) + 1
  | .drainQueued i => 2 * (b - i)
  | .none | .threw | .finished | .drained | .skipped => 0

def St.work (s : St) : ℕ := ∑ c ∈ range s.next, (s.calls c).rank s.batchSize

theorem loop_rank (s : St) (i : ℕ) : (s.loop i).rank s.batchSize ≤ 2 * (s.batchSize - i) + 1 := by
  unfold loop
  split_ifs
  · exact le_rfl
  · exact Nat.zero_le _

theorem resumed_rank (h : Inv s) {c : ℕ} (hc : (s.calls c).waits = true ∨ (s.calls c).isQueued = true) :
    (s.resumed (s.calls c)).rank s.batchSize < (s.calls c).rank s.batchSize := by
  have hidx := h.index c
  cases hx : s.calls c with
  | draining i | drainQueued i =>
    rw [hx] at hidx
    have hi : i < s.batchSize := hidx i rfl
    refine lt_of_le_of_lt (loop_rank s (i + 1)) ?_
    simp only [rank]
    omega
  | entering | queued => simp [resumed, rank]
  | _ => rw [hx] at hc; rcases hc with hc | hc <;> cases hc

theorem waiting_rank {x : Call} (b : ℕ) (hx : x.waits = true) : x.waiting.rank b < x.rank b := by
  cases x with
  | entering | draining i => simp [waiting, rank]
  | _ => cases hx

theorem work_move (h : Inv s) {c : ℕ} {x y : Call} (hc : s.calls c = y) (hx : x.rank s.batchSize < y.rank s.batchSize) :
    (s.move c x).work < s.work := by
  subst hc
  have hlt : c < s.next := h.lt_next fun hnone => by rw [hnone] at hx; cases hx
  have hsum := sum_range_update (fun _ => rank s.batchSize) s.calls hlt x
  simp only [work, move]
  omega

theorem notifySection_work (h : Inv s) {c : ℕ} (hc : s.calls c = .returned) : (notifySection s c).work < s.work := by
  have hback : (s.move c .finished).work < s.work := work_move h hc (by simp [rank])
  rw [notifySection_eq]
  rcases s.sem.notify_cases with ⟨w, ws, hw, he⟩ | ⟨-, he⟩
  · have hwq : (s.calls w).isQueued = true := (h.queue w).1 (hw ▸ List.mem_cons_self)
    have hne : w ≠ c := by
      rintro rfl
      rw [hc] at hwq
      cases hwq
    have hsum := sum_range_update (fun _ => rank s.batchSize) (s.move c .finished).calls (h.toLedger.lt_of_queued hwq)
      (s.resumed (s.calls w))
    have hrank := resumed_rank h (.inr hwq)
    rw [he]
    simp only [work, move, handOver, update_of_ne hne] at hback hsum ⊢
    omega
  · rw [he]
    exact hback

theorem step_work (h : Inv s) {o : Op} (ho : s.enabled o = true) : (step s o).work < s.work := by
  cases o with
  | schedule | waitAll => cases ho
  | wait c =>
    have hc : (s.calls c).waits = true := ho
    rw [step, if_pos hc]
    refine work_move h rfl ?_
    split_ifs
    · exact resumed_rank h (.inl hc)
    · exact waiting_rank _ hc
  | submit c =>
    have hc := of_decide_eq_true ho
    rw [step, if_pos hc]
    exact work_move h hc (by simp [rank])
  | finish c throws =>
    have hc := of_decide_eq_true ho
    rw [step, if_pos hc]
    exact work_move h hc (by split_ifs <;> simp [rank])
  | notify c =>
    have hc := of_decide_eq_true ho
    rw [step, if_pos hc]
    exact notifySection_work h hc
  | test c =>
    have hc := of_decide_eq_true ho
    rw [step, if_pos hc]
    exact work_move h hc (by split_ifs <;> simp [rank])
  | set c =>
    have hc := of_decide_eq_true ho
    rw [step, if_pos hc]
    exact work_move h hc ((loop_rank s 0).trans_lt (by simp [rank]))

theorem enabled_bounded (h : Inv s) {ops : List Op} (hops : Meets step (fun s o => s.enabled o = true) s ops) :
    ops.length ≤ s.work := by
  induction ops generalizing s with
  | nil => exact Nat.zero_le _
  | cons o ops ih =>
    have hrest := ih (step_inv s o h) hops.2
    have hlt := step_work h hops.1
    rw [List.length_cons]
    omega

/-! ## The semaphore of a settled group -/

theorem idle_run (b : ℕ) (ops : List Op) : (run step (init b) ops).sem.Idle := by
  refine run_inv_of_step (I := fun s : St => s.sem.Idle) (fun s o h => ?_) _ ops (FiberSemaphore.idle_make b)
  cases o with
  | wait c => exact inv_ite (I := fun s : St => s.sem.Idle) h fun _ => h.wait c
  | notify c =>
    refine inv_ite (I := fun s : St => s.sem.Idle) h fun _ => ?_
    rw [notifySection_eq]
    exact h.notify
  | _ =>
    simp only [step]
    repeat' split
    all_goals exact h

theorem settled_cases (hs : s.settled) (he : s.allEnded) (c : ℕ) :
    (s.calls c).tokens s.batchSize = 0 ∧ (s.calls c).inWaitAll = false ∧ (s.calls c).inLoop = false ∨
      s.calls c = .threw ∨
      (∃ i, s.calls c = .drainQueued i) ∨ s.calls c = .drained := by
  have hwait := hs (.wait c)
  have htest := hs (.test c)
  have hset := hs (.set c)
  have hnotify := hs (.notify c)
  have htask := he c
  cases hx : s.calls c with
  | none | finished | skipped => exact .inl ⟨rfl, rfl, rfl⟩
  | threw => exact .inr (.inl rfl)
  | drainQueued i => exact .inr (.inr (.inl ⟨i, rfl⟩))
  | drained => exact .inr (.inr (.inr rfl))
  | entering | queued | granted | running => rw [hx] at htask; exact absurd (htask rfl) Bool.false_ne_true
  | returned => simp [enabled, hx] at hnotify
  | testing => simp [enabled, hx] at htest
  | setting => simp [enabled, hx] at hset
  | draining i => simp [enabled, hx, waits] at hwait

variable (h : Inv s)
include h

theorem mem_loops {c : ℕ} : c ∈ s.loops ↔ (s.calls c).inLoop = true := by
  refine ⟨fun hc => (mem_filter.1 hc).2, fun hc => mem_filter.2 ⟨mem_range.2 (h.lt_next ?_), hc⟩⟩
  intro hnone
  rw [hnone] at hc
  cases hc

theorem mem_threw {c : ℕ} : c ∈ s.threw ↔ s.calls c = .threw := by
  refine ⟨fun hc => (mem_filter.1 hc).2, fun hc => mem_filter.2 ⟨mem_range.2 (h.lt_next ?_), hc⟩⟩
  rw [hc]
  simp

theorem Inv.not_queued (hidle : s.sem.Idle) (hs : s.settled) (he : s.allEnded) {c i : ℕ}
    (hc : s.calls c = .drainQueued i) (hloops : s.loops.card = 1) (hthrew : s.threw = ∅) : False := by
  have hlt : c < s.next := h.lt_next (by rw [hc]; simp)
  have hi : i < s.batchSize := h.index c i (by rw [hc]; rfl)
  have hmem : c ∈ s.sem.waiters := (h.queue c).2 (by rw [hc]; rfl)
  have hzero : s.sem.concurrency = 0 := by
    by_contra hpos
    rw [hidle (Nat.pos_of_ne_zero hpos)] at hmem
    cases hmem
  -- it is the only one with tokens, and does not have all
  have hsole : ∀ d, (s.calls d).inLoop = true → d = c := fun d hd =>
    card_le_one.1 hloops.le d ((mem_loops h).2 hd) c ((mem_loops h).2 (by rw [hc]; rfl))
  have hother : ∀ d ∈ range s.next, d ≠ c → (s.calls d).tokens s.batchSize = 0 := by
    intro d _ hd
    rcases settled_cases hs he d with ⟨h0, -⟩ | hx | ⟨j, hx⟩ | hx
    · exact h0
    · have := (mem_threw h).2 hx
      rw [hthrew] at this
      cases this
    · exact absurd (hsole d (by rw [hx]; rfl)) hd
    · exact absurd (hsole d (by rw [hx]; rfl)) hd
  have hsum := h.sum_tokens
  rw [sum_eq_single c hother (fun hn => absurd (mem_range.2 hlt) hn), hc] at hsum
  simp only [Call.tokens] at hsum
  omega

theorem Inv.drained_no_throw {w : ℕ} (hw : s.calls w = .drained) (c : ℕ) : s.calls c ≠ .threw := by
  intro hc
  have hne : c ≠ w := by
    rintro rfl
    rw [hw] at hc
    cases hc
  have h0 := h.drained_tokens hw hne
  rw [hc] at h0
  cases h0

theorem Inv.drained_sole (hb : 0 < s.batchSize) {w c : ℕ} (hw : s.calls w = .drained)
    (hc : s.calls c = .drained) : c = w := by
  by_contra hne
  have h0 := h.drained_tokens hw hne
  rw [hc] at h0
  exact hb.ne' h0

theorem Inv.returned_iff (hidle : s.sem.Idle) (hs : s.settled) (he : s.allEnded) :
    (∀ c, (s.calls c).inWaitAll = false) ↔ s.batchSize = 0 ∨ s.loops = ∅ ∨ s.loops.card = 1 ∧ s.threw = ∅ := by
  constructor
  · intro hret
    by_cases hb : s.batchSize = 0
    · exact .inl hb
    by_cases hloops : s.loops = ∅
    · exact .inr (.inl hloops)
    obtain ⟨w, hw⟩ := nonempty_iff_ne_empty.2 hloops
    have hdrained : ∀ c ∈ s.loops, s.calls c = .drained := by
      intro c hc
      have hin := (mem_loops h).1 hc
      have hout := hret c
      rcases settled_cases hs he c with ⟨-, -, hnot⟩ | hx | ⟨i, hx⟩ | hx
      · rw [hnot] at hin; cases hin
      · rw [hx] at hin; cases hin
      · rw [hx] at hout; cases hout
      · exact hx
    refine .inr (.inr ⟨card_eq_one.2 ⟨w, eq_singleton_iff_unique_mem.2 ⟨hw, fun c hc => ?_⟩⟩, ?_⟩)
    · exact h.drained_sole (Nat.pos_of_ne_zero hb) (hdrained w hw) (hdrained c hc)
    · exact eq_empty_of_forall_notMem fun c hc => h.drained_no_throw (hdrained w hw) c ((mem_threw h).1 hc)
  · intro hcond c
    rcases settled_cases hs he c with ⟨-, hout, -⟩ | hx | ⟨i, hx⟩ | hx
    · exact hout
    · rw [hx]; rfl
    · exfalso
      have hi : i < s.batchSize := h.index c i (by rw [hx]; rfl)
      have hmem : c ∈ s.loops := (mem_loops h).2 (by rw [hx]; rfl)
      rcases hcond with hb | hnone | ⟨hone, hthrew⟩
      · omega
      · rw [hnone] at hmem; cases hmem
      · exact h.not_queued hidle hs he hx hone hthrew
    · rw [hx]; rfl

theorem threw_step {c : ℕ} (hc : s.calls c = .threw) (o : Op) : (step s o).calls c = .threw := by
  -- whoever moves is somebody else
  have hother : ∀ {s' : St} {d : ℕ} {x y : Call}, s'.calls = s.calls → s.calls d = y → y ≠ .threw →
      (s'.move d x).calls c = .threw := by
    intro s' d x y hcalls hd hy
    have hne : c ≠ d := by
      rintro rfl
      exact hy (hd.symm.trans hc)
    calc (s'.move d x).calls c = s'.calls c := update_of_ne hne _ _
      _ = .threw := by rw [hcalls, hc]
  cases o with
  | schedule | waitAll => exact hother rfl (h.fresh _ le_rfl) nofun
  | wait d =>
    exact inv_ite (I := fun s : St => s.calls c = .threw) hc fun hd => hother rfl rfl fun heq =>
      by rw [heq] at hd; cases hd
  | submit d | set d | finish d throws | test d =>
    exact inv_ite (I := fun s : St => s.calls c = .threw) hc fun hd => hother rfl hd nofun
  | notify d =>
    refine inv_ite (I := fun s : St => s.calls c = .threw) hc fun hd => ?_
    have hfinished : (s.move d .finished).calls c = .threw := hother rfl hd nofun
    rw [notifySection_eq]
    rcases s.sem.notify_cases with ⟨w, ws, hw, he⟩ | ⟨-, he⟩
    · have hne : c ≠ w := by
        rintro rfl
        have hq := (h.queue c).1 (hw ▸ List.mem_cons_self)
        rw [hc] at hq
        cases hq
      rw [he]
      simp only [handOver, update_of_ne hne]
      exact hfinished
    · rw [he]
      exact hfinished

end

/-! ## Results -/

/-- **A lost token is never replaced.** -/
theorem never_drained (b : ℕ) (ops more : List Op) (c : ℕ) (hc : (run step (init b) ops).calls c = .threw) (w : ℕ) :
    (run step (init b) (ops ++ more)).calls w ≠ .drained := by
  rw [run_append]
  obtain ⟨hi, hthrew⟩ := run_inv_of_step (I := fun s => Inv s ∧ s.calls c = .threw)
    (fun s o h => ⟨step_inv s o h.1, threw_step h.1 h.2 o⟩) (run step (init b) ops) more ⟨inv_run b ops, hc⟩
  exact fun hw => hi.drained_no_throw hw c hthrew

/-- **Tokens of a worker group.** -/
theorem group_tokens_iff (b : ℕ) (ops : List Op) :
    ((run step (init b) ops).quiet →
      ((run step (init b) ops).sem.concurrency + (run step (init b) ops).running.card +
        (run step (init b) ops).taken = b ↔
        (run step (init b) ops).threw = ∅)) ∧
    (∀ more, Meets step (fun s o => s.enabled o = true) (run step (init b) ops) more →
      more.length ≤ (run step (init b) ops).work) ∧
    ((run step (init b) ops).settled → (run step (init b) ops).allEnded →
      ((∀ c, ((run step (init b) ops).calls c).inWaitAll = false) ↔
        b = 0 ∨ (run step (init b) ops).loops = ∅ ∨
          (run step (init b) ops).loops.card = 1 ∧ (run step (init b) ops).threw = ∅)) := by
  have h := inv_run b ops
  have hb := batchSize_run b ops
  refine ⟨fun hq => ?_, fun more hmore => enabled_bounded h hmore, fun hs he => ?_⟩
  · have hsum := h.conserved hq
    rw [← card_eq_zero]
    omega
  · have hiff := h.returned_iff (idle_run b ops) hs he
    rwa [hb] at hiff

/-- the task of a group of one throws; then `waitAll` -/
def throwingTask : List Op := [.schedule, .wait 0, .submit 0, .finish 0 true, .waitAll, .test 1, .set 1, .wait 1]

/-- two calls of `waitAll` of a group of two both find `_finish` unset, and each takes one token -/
def twoWaitAlls : List Op := [.waitAll, .waitAll, .test 0, .test 1, .set 0, .set 1, .wait 0, .wait 1, .wait 0, .wait 1]

/-- **A throwing task blocks `waitAll`.** -/
theorem throwing_task_blocks :
    (run step (init 1) throwingTask).calls 0 = .threw ∧ (run step (init 1) throwingTask).calls 1 = .drainQueued 0 ∧
    (run step (init 1) throwingTask).quiet ∧
    (run step (init 1) throwingTask).sem.concurrency + (run step (init 1) throwingTask).running.card +
      (run step (init 1) throwingTask).taken = 0 ∧
    (∀ more, (run step (init 1) (throwingTask ++ more)).calls 1 ≠ .drained) ∧
    (run step (init 2) twoWaitAlls).calls 0 = .drainQueued 1 ∧
    (run step (init 2) twoWaitAlls).calls 1 = .drainQueued 1 := by
  refine ⟨by decide, by decide, fun c => ?_, by decide, fun more => ?_, by decide, by decide⟩
  · by_cases hc : c < 2
    · interval_cases c <;> decide
    · have hnext : (run step (init 1) throwingTask).next = 2 := by decide
      rw [(inv_run 1 throwingTask).fresh c (by omega)]
      simp [accounts]
  · exact never_drained 1 throwingTask more 0 (by decide) 1

end CoServer.Worker
