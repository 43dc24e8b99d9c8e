/-
What the steps of the scheduler machine do, said once: the locked sections (`scanQueue_some`, `scanQueue_none`,
`scheduleItems_eq`), every transition of the machine (`step_trans`), and what a step leaves alone at the other workers
(`Trans.other`).
-/
import CoServer.Scheduler.Machine

namespace CoServer.Scheduler

open Function List

/-! ## The scan -/

variable (state : ℕ → FiberState)

/-- the entry may be taken by worker `w` now -/
def Eligible (w : ℕ) (e : FiberAndThread) : Prop := ¬ foreign w e ∧ ¬ executing state e

theorem scanQueue_some (w : ℕ) (q : List FiberAndThread) (t : Bool) (e : FiberAndThread)
    (h : (scanQueue state w q t).taken = some e) :
    ∃ l r, q = l ++ e :: r ∧ (scanQueue state w q t).queue = l ++ r ∧ Eligible state w e ∧
      (e.fiber ≠ none ∨ e.callback ≠ none) ∧ (scanQueue state w q t).failed = false := by
  induction q generalizing t with
  | nil => simp [scanQueue] at h
  | cons x q ih =>
    unfold scanQueue at h ⊢
    split_ifs at h ⊢ with hf ha hx
    · obtain ⟨l, r, rfl, hq, hrest⟩ := ih true h
      exact ⟨x :: l, r, rfl, by simp [hq], hrest⟩
    · obtain ⟨l, r, rfl, hq, hrest⟩ := ih t h
      exact ⟨x :: l, r, rfl, by simp [hq], hrest⟩
    · simp only [Option.some.injEq] at h
      subst h
      exact ⟨[], q, rfl, rfl, ⟨hf, hx⟩, by tauto, rfl⟩

theorem scanQueue_none (w : ℕ) (q : List FiberAndThread) (t : Bool)
    (h : (scanQueue state w q t).taken = none) (hok : (scanQueue state w q t).failed = false) :
    (∀ e ∈ q, ¬ Eligible state w e) ∧ ((scanQueue state w q t).tickleMe = true ↔ t = true ∨ ∃ e ∈ q, foreign w e) := by
  induction q generalizing t with
  | nil => simp [scanQueue]
  | cons x q ih =>
    unfold scanQueue at h hok ⊢
    split_ifs at h hok ⊢ with hf ha hx
    · obtain ⟨h1, h2⟩ := ih true h hok
      refine ⟨?_, by simp only [h2, mem_cons]; simp [hf]⟩
      exact forall_mem_cons.2 ⟨fun hE => hE.1 hf, h1⟩
    · obtain ⟨h1, h2⟩ := ih t h hok
      refine ⟨?_, by simp only [h2, mem_cons]; simp [hf]⟩
      exact forall_mem_cons.2 ⟨fun hE => hE.2 hx, h1⟩

/-- the entry that worker `w` takes if it does its next step now -/
def takes (s : St) (w : ℕ) : Option FiberAndThread :=
  if s.pc w = .scan then (scanQueue s.state w s.queue false).taken else none

theorem takes_scan {s : St} {w : ℕ} {e : FiberAndThread} (h : takes s w = some e) :
    (scanQueue s.state w s.queue false).taken = some e := by
  simp only [takes, Option.ite_none_right_eq_some] at h
  exact h.2

theorem takes_mem {s : St} {w : ℕ} {e : FiberAndThread} (h : e ∈ takes s w) : e ∈ s.queue := by
  obtain ⟨l, r, hq, -⟩ := scanQueue_some _ _ _ _ _ (takes_scan h)
  rw [hq]; simp

/-! ## The push -/

/-- the queue entries of a list of items, with consecutive tickets -/
def entriesOf (ticket : ℕ) : List Item → List FiberAndThread
  | [] => []
  | i :: is => ⟨i.task, i.thread, ticket⟩ :: entriesOf (ticket + 1) is

theorem scheduleItems_eq (q : List FiberAndThread) (ticket : ℕ) (items : List Item) :
    scheduleItems q ticket items = (q ++ entriesOf ticket items, q.isEmpty && !items.isEmpty) := by
  induction items generalizing q ticket with
  | nil => simp [scheduleItems, entriesOf]
  | cons i is ih => simp [scheduleItems, scheduleLock, ih, entriesOf]

theorem mem_entriesOf {ticket : ℕ} {items : List Item} {e : FiberAndThread} (h : e ∈ entriesOf ticket items) :
    (∃ i ∈ items, e.task = i.task ∧ e.thread = i.thread) ∧ ticket ≤ e.ticket ∧ e.ticket < ticket + items.length := by
  induction items generalizing ticket with
  | nil => simp [entriesOf] at h
  | cons i is ih =>
    rcases mem_cons.1 h with rfl | h
    · exact ⟨⟨i, mem_cons_self, rfl, rfl⟩, le_rfl, by simp⟩
    · obtain ⟨⟨j, hj, hje⟩, h1, h2⟩ := ih h
      exact ⟨⟨j, mem_cons_of_mem _ hj, hje⟩, by omega, by simp only [length_cons]; omega⟩

theorem entriesOf_tickets (ticket : ℕ) (items : List Item) :
    (entriesOf ticket items).map (·.ticket) = List.range' ticket items.length := by
  induction items generalizing ticket with
  | nil => rfl
  | cons i is ih => simp [entriesOf, ih, range'_succ]

/-! ## What a step can do -/

@[simp] theorem goto_pc_self (s : St) (w : ℕ) (p : Pc) : (s.goto w p).pc w = p := by simp [St.goto]

@[simp] theorem goto_pc_ne (s : St) (w : ℕ) (p : Pc) {v : ℕ} (h : v ≠ w) : (s.goto w p).pc v = s.pc v := by
  simp [St.goto, h]

/-- the worker whose locals an operation may change -/
def Op.worker : Op → Option ℕ
  | .start w | .work w | .leave w _ | .check w _ | .wake w | .drain w => some w
  | .schedule .. | .call _ | .caller _ | .newFiber _ | .setStop .. => none

/-- the steps of worker `w` that change nothing but its program counter -/
inductive Move (s : St) (w : ℕ) : Pc → Pc → Prop
  | scan (hn : (scanQueue s.state w s.queue false).taken = none)
      (hok : (scanQueue s.state w s.queue false).failed = false) :
      Move s w .scan
        (if (scanQueue s.state w s.queue false).tickleMe then .tickle (.dispatch none) else .dispatch none)
  | tickleDrop (k : Cont) (h : s.idleCount = 0) : Move s w (.tickle k) k.pc
  | tickleGo (k : Cont) (h : 0 < s.idleCount) : Move s w (.tickle k) (.tickleWrite k)
  | toIdle : Move s w (.dispatch none) .idleTest
  | dispatch (e : FiberAndThread) (f : ℕ) (he : e.task = .fiber (some f)) :
      Move s w (.dispatch (some e)) (.dispatch2 e f)
  | dead (e : FiberAndThread) (he : e.callback = none) : Move s w (.dispatch (some e)) (.skip e)
  | dispatch2 (e : FiberAndThread) (f : ℕ) : Move s w (.dispatch2 e f) (.swapIn .test .fiber e f)
  | dead2 (e : FiberAndThread) (f : ℕ) : Move s w (.dispatch2 e f) (.skip e)
  | reuse (e : FiberAndThread) (fn g : ℕ) (he : e.task = .callback (some fn)) (hg : s.cbFiber w = some g) :
      Move s w (.dispatch (some e)) (.reset .terminate (some e) g)
  | resetTest (p p' : ResetPhase) (ft : Option FiberAndThread) (f : ℕ) (hp : p ≠ .set) (hp' : p' ≠ .set) :
      Move s w (.reset p ft f) (.reset p' ft f)
  | swapInTest (b : Branch) (e : FiberAndThread) (f : ℕ) : Move s w (.swapIn .test b e f) (.swapIn .set b e f)
  | leave (y : Leave) (b : Branch) (e : FiberAndThread) (f : ℕ) : Move s w (.running b e f) (.leaving y b e f)
  | bareSwap (b : Branch) (e : FiberAndThread) (f : ℕ) : Move s w (.leaving .swap b e f) (.swapOut false b e f)
  | isReady (b : Branch) (f : ℕ) (h : s.state f = .ready) : Move s w (.after .ready b f) (.requeue b f)
  | notReady (b : Branch) (f : ℕ) : Move s w (.after .ready b f) (.after .first b f)
  | notFirst (b : Branch) (f : ℕ) : Move s w (.after .first b f) (.after .second b f)
  | notSecond (b : Branch) (f : ℕ) : Move s w (.after .second b f) (.after .hold b f)
  | dropDead (p : AfterPhase) (f : ℕ) (h : s.state f = .terminate ∨ s.state f = .exception) :
      Move s w (.after p .fiber f) .scan
  | recycle (p : AfterPhase) (f : ℕ) (h : s.state f = .terminate ∨ s.state f = .exception) :
      Move s w (.after p .callback f) (.reset .terminate none f)
  | exit (h : s.idle w = .terminate) : Move s w .idleTest .exited
  | toSleep (h : s.idle w ≠ .terminate) : Move s w .idleTest .idleInc
  | wait : Move s w .idleCheck .idleWait
  | wake : Move s w .idleWait .idleWoke
  | out : Move s w .idleWoke .idleDec

/-- points of `run` where the next step is not the worker's own: fiber code, the timer manager and `epoll_wait`
decide -/
def Pc.waiting : Pc → Bool
  | .running .. | .idleCheck | .idleWait => true
  | _ => false

/-- everything one step can do -/
inductive Trans (s : St) : Op → St → Prop
  | same (o : Op) : Trans s o s
  | abort (o : Op) : Trans s o s.abort
  | start (w : ℕ) (hp : s.pc w = .off) : Trans s (.start w) ({ s with threads := s.threads ++ [w] }.goto w .scan)
  | move (o : Op) (w : ℕ) (q : Pc) (ho : o.worker = some w) (hm : Move s w (s.pc w) q)
      (hw : o = .work w ∨ (s.pc w).waiting = true) : Trans s o (s.goto w q)
  | take (w : ℕ) (e : FiberAndThread) (q : Pc) (hp : s.pc w = .scan) (he : takes s w = some e)
      (hq : q = .tickle (.dispatch (some e)) ∨ q = .dispatch (some e)) :
      Trans s (.work w)
        ({ s with
          queue := (scanQueue s.state w s.queue false).queue
          active := s.active + 1
          removed := s.removed ++ [(e, w)] }.goto w q)
  | tickleWrite (w : ℕ) (k : Cont) (hp : s.pc w = .tickleWrite k) :
      Trans s (.work w) ({ s with pipe := s.pipe + 1 }.goto w k.pc)
  | newCb (w : ℕ) (e : FiberAndThread) (fn : ℕ) (hp : s.pc w = .dispatch (some e))
      (he : e.task = .callback (some fn)) (hn : s.cbFiber w = none) :
      Trans s (.work w)
        ({ s with
          state := update s.state s.nextFiber .init
          callback := update s.callback s.nextFiber (some ⟨fn, some e.ticket⟩)
          ctx := update s.ctx s.nextFiber .entry
          saved := update s.saved s.nextFiber true
          nextFiber := s.nextFiber + 1
          cbFiber := update s.cbFiber w (some s.nextFiber) }.goto w (.swapIn .test .callback e s.nextFiber))
  | resetContext (w : ℕ) (ft : Option FiberAndThread) (f : ℕ) (hp : s.pc w = .reset .context ft f) :
      Trans s (.work w)
        ({ s with
          callback := update s.callback f (ft.bind fun e => e.callback.map fun fn => ⟨fn, some e.ticket⟩)
          ctx := update s.ctx f .entry }.goto w (.reset .set ft f))
  | resetRun (w : ℕ) (e : FiberAndThread) (f : ℕ) (hp : s.pc w = .reset .set (some e) f) :
      Trans s (.work w)
        ({ s with state := update s.state f .init }.goto w (.swapIn .test .callback e f))
  | resetDrop (w f : ℕ) (hp : s.pc w = .reset .set none f) :
      Trans s (.work w) ({ s with state := update s.state f .init }.goto w .scan)
  | setExecute (w : ℕ) (b : Branch) (e : FiberAndThread) (f : ℕ) (hp : s.pc w = .swapIn .set b e f) :
      Trans s (.work w)
        ({ s with state := update s.state f .execute }.goto w (.swapIn .restore b e f))
  | enter (w : ℕ) (b : Branch) (e : FiberAndThread) (f : ℕ) (j : Job) (hp : s.pc w = .swapIn .restore b e f)
      (hc : s.ctx f = .entry) (hj : s.callback f = some j) :
      Trans s (.work w)
        ({ s with saved := update s.saved f false, started := startLog s.started j }.goto w (.running b e f))
  | enterEmpty (w : ℕ) (b : Branch) (e : FiberAndThread) (f : ℕ) (hp : s.pc w = .swapIn .restore b e f)
      (hc : s.ctx f = .entry) (hj : s.callback f = none) :
      Trans s (.work w) ({ s with saved := update s.saved f false }.goto w (.leaving .finish b e f))
  | resume (w : ℕ) (b : Branch) (e : FiberAndThread) (f : ℕ) (hp : s.pc w = .swapIn .restore b e f)
      (hc : s.ctx f = .suspended) :
      Trans s (.work w) ({ s with saved := update s.saved f false }.goto w (.running b e f))
  | mark (w : ℕ) (y : Leave) (b : Branch) (e : FiberAndThread) (f : ℕ) (st : FiberState) (fin : Bool)
      (hp : s.pc w = .leaving y b e f) (hst : st ≠ .execute ∧ (st = .ready ↔ y = .ready)) :
      Trans s (.work w) ({ s with state := update s.state f st }.goto w (.swapOut fin b e f))
  | finish (w : ℕ) (b : Branch) (e : FiberAndThread) (f : ℕ) (hp : s.pc w = .leaving .finish b e f) :
      Trans s (.work w)
        ({ s with
          callback := update s.callback f none
          state := update s.state f .terminate }.goto w (.swapOut true b e f))
  | save (w : ℕ) (fin : Bool) (b : Branch) (e : FiberAndThread) (f : ℕ) (c : Ctx) (hp : s.pc w = .swapOut fin b e f)
      (hc : c ≠ .entry) :
      Trans s (.work w)
        ({ s with
          ctx := update s.ctx f c
          saved := update s.saved f true }.goto w (.count b e f))
  | count (w : ℕ) (b : Branch) (e : FiberAndThread) (f : ℕ) (hp : s.pc w = .count b e f) :
      Trans s (.work w)
        ({ s with active := decCount s.active, retired := s.retired ++ [e.ticket] }.goto w (.after .ready b f))
  | skip (w : ℕ) (e : FiberAndThread) (hp : s.pc w = .skip e) :
      Trans s (.work w)
        ({ s with active := decCount s.active, retired := s.retired ++ [e.ticket] }.goto w .scan)
  | hold (w f : ℕ) (hp : s.pc w = .after .hold .fiber f) :
      Trans s (.work w) ({ s with state := update s.state f .holding }.goto w .scan)
  | holdCb (w f : ℕ) (hp : s.pc w = .after .hold .callback f) :
      Trans s (.work w)
        ({ s with
          state := update s.state f .holding
          cbFiber := update s.cbFiber w none }.goto w .scan)
  | requeue (w : ℕ) (b : Branch) (f : ℕ) (q : Pc) (cb : ℕ → Option ℕ) (hp : s.pc w = .requeue b f)
      (hcb : cb = s.cbFiber ∨ cb = update s.cbFiber w none)
      (hq : (s.queue = [] ∧ q = .tickle .loop) ∨ (s.queue ≠ [] ∧ q = .scan)) :
      Trans s (.work w)
        ({ s with
          queue := s.queue ++ [(⟨.fiber (some f), -1, s.nextTicket⟩ : FiberAndThread)]
          nextTicket := s.nextTicket + 1
          pushed := s.pushed ++ [(⟨.fiber (some f), -1, s.nextTicket⟩ : FiberAndThread)]
          cbFiber := cb }.goto w q)
  | idleInc (w : ℕ) (hp : s.pc w = .idleInc) :
      Trans s (.work w)
        ({ s with idleCount := s.idleCount + 1, idle := update s.idle w .execute }.goto w .idleCheck)
  | idleDec (w : ℕ) (st : FiberState) (hp : s.pc w = .idleDec) :
      Trans s (.work w)
        ({ s with idleCount := decCount s.idleCount, idle := update s.idle w st }.goto w .scan)
  | idleStop (w : ℕ) (quiet : Bool) (hp : s.pc w = .idleCheck) :
      Trans s (.check w quiet)
        ({ s with pipe := s.pipe + 1, idle := update s.idle w .terminate }.goto w .idleDec)
  | drain (w : ℕ) (hp : s.pc w = .idleWoke) : Trans s (.drain w) { s with pipe := 0 }
  | schedule (c : ℕ) (items : List Item) (hc : s.callers c = .outside) (hk : ∀ i ∈ items, i.known s) :
      Trans s (.schedule c items)
        { s with
          queue := s.queue ++ entriesOf s.nextTicket items
          nextTicket := s.nextTicket + items.length
          pushed := s.pushed ++ entriesOf s.nextTicket items
          callers := update s.callers c
            (if (s.queue.isEmpty && !items.isEmpty) = true then .tickle else .outside) }
  | call (c : ℕ) : Trans s (.call c) { s with callers := update s.callers c .tickle }
  | callerGo (c : ℕ) (hc : s.callers c = .tickle) (h : 0 < s.idleCount) :
      Trans s (.caller c) { s with callers := update s.callers c .write }
  | callerDrop (c : ℕ) (hc : s.callers c = .tickle) (h : s.idleCount = 0) :
      Trans s (.caller c) { s with callers := update s.callers c .outside }
  | callerWrite (c : ℕ) (hc : s.callers c = .write) :
      Trans s (.caller c) { s with pipe := s.pipe + 1, callers := update s.callers c .outside }
  | newFiber (fn : ℕ) :
      Trans s (.newFiber fn)
        { s with
          state := update s.state s.nextFiber .init
          callback := update s.callback s.nextFiber (some ⟨fn, none⟩)
          ctx := update s.ctx s.nextFiber .entry
          saved := update s.saved s.nextFiber true
          nextFiber := s.nextFiber + 1 }
  | setStop (a b : Bool) : Trans s (.setStop a b) { s with autoStop := a, stopping := b }

variable (s : St) (w : ℕ)

theorem scanStep_trans (hp : s.pc w = .scan) : Trans s (.work w) (scanStep s w) := by
  unfold scanStep
  dsimp only
  cases hf : (scanQueue s.state w s.queue false).failed with
  | true => simpa using Trans.abort _
  | false =>
    cases ht : (scanQueue s.state w s.queue false).taken with
    | none =>
      have := Trans.move (s := s) (.work w) w _ rfl (by rw [hp]; exact Move.scan ht hf) (.inl rfl)
      simpa using this
    | some e => exact Trans.take w e _ hp (by simp [takes, hp, ht]) (by split_ifs <;> simp)

theorem resetStep_trans (p : ResetPhase) (ft : Option FiberAndThread) (f : ℕ)
    (hp : s.pc w = .reset p ft f) : Trans s (.work w) (resetStep s w ft f p) := by
  cases p with
  | terminate | exception =>
    exact .move _ w _ rfl (hp ▸ .resetTest _ _ ft f (by decide) (by split_ifs <;> decide)) (.inl rfl)
  | init =>
    simp only [resetStep]
    split_ifs
    · exact .move _ w _ rfl (hp ▸ .resetTest _ _ ft f (by decide) (by decide)) (.inl rfl)
    · exact .abort _
  | context => exact .resetContext w ft f hp
  | set =>
    cases ft with
    | none => exact .resetDrop w f hp
    | some e => exact .resetRun w e f hp

theorem swapInStep_trans (p : SwapInPhase) (b : Branch) (e : FiberAndThread) (f : ℕ)
    (hp : s.pc w = .swapIn p b e f) : Trans s (.work w) (swapInStep s w b e f p) := by
  cases p with
  | test =>
    simp only [swapInStep]
    split_ifs
    · exact .abort _
    · exact .move _ w _ rfl (hp ▸ .swapInTest b e f) (.inl rfl)
  | set => exact .setExecute w b e f hp
  | restore =>
    simp only [swapInStep]
    split
    · rename_i j hc hj; exact .enter w b e f j hp hc hj
    · rename_i hc hj; exact .enterEmpty w b e f hp hc hj
    · rename_i hc; exact .resume w b e f hp hc
    · exact .abort _

theorem leavingStep_trans (y : Leave) (b : Branch) (e : FiberAndThread) (f : ℕ)
    (hp : s.pc w = .leaving y b e f) : Trans s (.work w) (leavingStep s w b e f y) := by
  cases y with
  | hold => exact .mark w .hold b e f .holding false hp (by decide)
  | ready => exact .mark w .ready b e f .ready false hp (by decide)
  | swap => exact .move _ w _ rfl (hp ▸ .bareSwap b e f) (.inl rfl)
  | finish => exact .finish w b e f hp
  | throw => exact .mark w .throw b e f .exception true hp (by decide)

theorem afterStep_trans (p : AfterPhase) (b : Branch) (f : ℕ) (hp : s.pc w = .after p b f) :
    Trans s (.work w) (afterStep s w b f p) := by
  cases p with
  | ready =>
    simp only [afterStep]
    split_ifs with h
    · exact .move _ w _ rfl (hp ▸ .isReady b f h) (.inl rfl)
    · exact .move _ w _ rfl (hp ▸ .notReady b f) (.inl rfl)
  | first =>
    cases b <;> simp only [afterStep] <;> split_ifs with h
    · exact .move _ w _ rfl (hp ▸ .dropDead _ f (.inl h)) (.inl rfl)
    · exact .move _ w _ rfl (hp ▸ .notFirst _ f) (.inl rfl)
    · exact .move _ w _ rfl (hp ▸ .recycle _ f (.inr h)) (.inl rfl)
    · exact .move _ w _ rfl (hp ▸ .notFirst _ f) (.inl rfl)
  | second =>
    cases b <;> simp only [afterStep] <;> split_ifs with h
    · exact .move _ w _ rfl (hp ▸ .dropDead _ f (.inr h)) (.inl rfl)
    · exact .move _ w _ rfl (hp ▸ .notSecond _ f) (.inl rfl)
    · exact .move _ w _ rfl (hp ▸ .recycle _ f (.inl h)) (.inl rfl)
    · exact .move _ w _ rfl (hp ▸ .notSecond _ f) (.inl rfl)
  | hold =>
    cases b with
    | fiber => exact .hold w f hp
    | callback => exact .holdCb w f hp

theorem dispatchStep_trans (e : FiberAndThread) (hp : s.pc w = .dispatch (some e)) :
    Trans s (.work w) (dispatchStep s w e) := by
  unfold dispatchStep
  split
  · rename_i f he
    split_ifs
    · exact .move _ w _ rfl (hp ▸ .dead e (by simp [FiberAndThread.callback, he, Task.function])) (.inl rfl)
    · exact .move _ w _ rfl (hp ▸ .dispatch e f he) (.inl rfl)
  · rename_i fn he
    unfold callbackStep
    split
    · rename_i g hg; exact .move _ w _ rfl (hp ▸ .reuse e fn g he hg) (.inl rfl)
    · rename_i hn; exact .newCb w e fn hp he hn
  all_goals
    rename_i he
    exact .move _ w _ rfl (hp ▸ .dead e (by simp [FiberAndThread.callback, he, Task.function])) (.inl rfl)

theorem requeueStep_trans (b : Branch) (f : ℕ) (hp : s.pc w = .requeue b f) :
    Trans s (.work w) (requeueStep s w b f) := by
  refine .requeue w b f _ _ hp ?_ ?_
  · cases b
    · exact Or.inl rfl
    · exact Or.inr rfl
  · cases hq : s.queue with
    | nil => exact Or.inl ⟨rfl, by simp [scheduleLock]⟩
    | cons x q => exact Or.inr ⟨by simp, by simp [scheduleLock]⟩

theorem work_trans : Trans s (.work w) (work s w) := by
  have hmove : ∀ q, Move s w (s.pc w) q → Trans s (.work w) (s.goto w q) := fun q hm => .move _ w q rfl hm (.inl rfl)
  unfold work
  cases hp : s.pc w with
  | scan => exact scanStep_trans s w hp
  | tickle k =>
    dsimp only
    split_ifs with h
    · exact hmove _ (hp ▸ .tickleGo k h)
    · exact hmove _ (hp ▸ .tickleDrop k (by omega))
  | tickleWrite k => exact .tickleWrite w k hp
  | dispatch ft =>
    cases ft with
    | none => exact hmove _ (hp ▸ .toIdle)
    | some e => exact dispatchStep_trans s w e hp
  | dispatch2 e f =>
    dsimp only
    split_ifs
    · exact hmove _ (hp ▸ .dead2 e f)
    · exact hmove _ (hp ▸ .dispatch2 e f)
  | reset p ft f => exact resetStep_trans s w p ft f hp
  | swapIn p b e f => exact swapInStep_trans s w p b e f hp
  | leaving y b e f => exact leavingStep_trans s w y b e f hp
  | swapOut fin b e f => exact .save w fin b e f _ hp (by split_ifs <;> decide)
  | count b e f => exact .count w b e f hp
  | after p b f => exact afterStep_trans s w p b f hp
  | requeue b f => exact requeueStep_trans s w b f hp
  | skip e => exact .skip w e hp
  | idleTest =>
    dsimp only
    split_ifs with h
    · exact hmove _ (hp ▸ .exit h)
    · exact hmove _ (hp ▸ .toSleep h)
  | idleInc => exact .idleInc w hp
  | idleWoke => exact hmove _ (hp ▸ .out)
  | idleDec => exact .idleDec w _ hp
  | off | running b e f | idleCheck | idleWait | exited => exact .same _

theorem step_trans (o : Op) : Trans s o (step s o) := by
  unfold step
  split_ifs
  · exact .same o
  cases o with
  | start w =>
    simp only [stepLive]
    split_ifs with h
    · exact .start w h
    · exact .same _
  | work w => exact work_trans s w
  | leave w y =>
    simp only [stepLive]
    split
    · rename_i b e f hp
      unfold leaveStep
      split_ifs
      · exact .abort _
      · exact .move _ w _ rfl (hp ▸ .leave y b e f) (.inr (by simp [hp, Pc.waiting]))
    · exact .same _
  | check w quiet =>
    simp only [stepLive, checkStep]
    split_ifs with h hs
    · exact .idleStop w quiet h
    · exact .move _ w _ rfl (h ▸ .wait) (.inr (by simp [h, Pc.waiting]))
    · exact .same _
  | wake w =>
    simp only [stepLive]
    split_ifs with h
    · exact .move _ w _ rfl (h ▸ .wake) (.inr (by simp [h, Pc.waiting]))
    · exact .same _
  | drain w =>
    simp only [stepLive]
    split_ifs with h
    · exact .drain w h
    · exact .same _
  | schedule c items =>
    simp only [stepLive, scheduleStep, scheduleItems_eq, drop_left]
    by_cases h : s.callers c = .outside ∧ ∀ i ∈ items, i.known s
    · rw [if_pos h]; exact .schedule c items h.1 h.2
    · rw [if_neg h]; exact .same _
  | call c =>
    simp only [stepLive]
    split_ifs
    · exact .call c
    · exact .same _
  | caller c =>
    simp only [stepLive, callerStep]
    split
    · exact .same _
    · rename_i hc
      split_ifs with h
      · exact .callerGo c hc h
      · exact .callerDrop c hc (by omega)
    · rename_i hc; exact .callerWrite c hc
  | newFiber fn => exact .newFiber fn
  | setStop a b => exact .setStop a b

/-! ## Frame -/

theorem state_of_update {state : ℕ → FiberState} {f g : ℕ} {st x : FiberState} (hst : st ≠ x)
    (h : update state g st f = x) : f ≠ g ∧ state f = x := by
  by_cases hf : f = g
  · subst hf; simp [hst] at h
  · exact ⟨hf, by simpa [hf] using h⟩

theorem Trans.other {s s' : St} {o : Op} (h : Trans s o s') {v : ℕ} (hv : o.worker ≠ some v) :
    s'.pc v = s.pc v ∧ s'.cbFiber v = s.cbFiber v ∧ s'.idle v = s.idle v := by
  cases h with
  | move o w q ho hm =>
    have hne : v ≠ w := fun e => hv (e ▸ ho)
    simp [St.goto, hne]
  | requeue w b f q cb hp hcb hq =>
    have hne : v ≠ w := fun e => hv (by simp [Op.worker, e])
    rcases hcb with rfl | rfl <;> simp [St.goto, hne]
  | same | abort | drain | schedule | call | callerGo | callerDrop | callerWrite | newFiber | setStop =>
    exact ⟨rfl, rfl, rfl⟩
  | _ =>
    simp only [Op.worker, ne_eq, Option.some.injEq] at hv
    simp [St.goto, Ne.symm hv]

end CoServer.Scheduler
