/-
Timeouts of hooked calls: does the callback of the timer reach the event?

The timer is armed before the event is registered, so the callback may call `cancelEvent` before `addEvent` has
registered anything; and a callback of an earlier wait of the same call, taken for execution before `timer->cancel()`,
may set the mark that the callback of the next wait then takes for its own.

Results:
- `timeout_bounds_wait`: in a run whose steps are `InTime` (no timer is armed while an earlier one of the call may still
  act, no callback looks for the event before `addEvent` has returned, and its `epoll_ctl` succeeds), no call of `doIo`
  or `connect_with_timeout` with a finite timeout is ever suspended on a registered event with its timeout callback
  completed or dropped.
- `timeout_before_add`: the callback finds nothing registered; the call then registers its event and suspends, with
  nothing left that would wake it except the fd.
-/
import CoServer.Hook.Machine
import CoServer.IOManager.Frame

namespace CoServer.Hook

open CoServer.Core Function List IOManager St Call
open Scheduler (Task FiberState)

/-! ## Statement -/

/-- the timer will not act any more: never armed, dropped, or its callback has completed -/
def TimerStage.over : TimerStage → Bool
  | .unused | .cancelled | .done => true
  | _ => false

variable (s : St)

/-- the registration with this ticket is not resolved: its bit is set, in its context -/
def Pending (ticket : ℕ) : Prop := ticket ∉ s.io.resolved.map Prod.fst

instance (s : St) (ticket : ℕ) : Decidable (Pending s ticket) :=
  inferInstanceAs (Decidable (ticket ∉ s.io.resolved.map Prod.fst))

/-- suspended on a registered event with a timeout whose callback has run or was dropped -/
def Stranded (c : ℕ) : Prop :=
  ∃ j k, (s.calls c).pc = .suspended (some j) k ∧ Pending s k ∧ (s.timers j).stage.over = true

/-- the timer of a place -/
def Pc.timer : Pc → Option ℕ
  | .adding tm | .holding tm _ | .suspended tm _ | .resumed tm | .addFailed tm => tm
  | _ => none

/-- the call is between arming its timer and the return of `addEvent` -/
def Pc.inAdd : Pc → Bool
  | .adding _ => true
  | _ => false

/-- the `epoll_ctl` of a `cancelEvent` that is before its locked section does not fail; it makes one if the bit is
set -/
def Reaches (io : IOManager.St) (ok : Bool) : IOManager.Call → Prop
  | .found (.cancel e) fd p => (io.ctxs p).events.has e = true → ok = true ∧ io.kernel fd ≠ none
  | _ => True

/-- the condition on the steps -/
def InTime : Op → Prop
  | .arm c => (s.calls c).cancelled = false ∧ ∀ i < s.nextTimer, (s.timers i).owner = c → (s.timers i).stage.over = true
  | .addResize c => Grows s.io (.resize (caller c))
  | .cancelLookup j => (s.calls (s.timers j).owner).pc.inAdd = false
  | .cancelEnter j ok => Reaches s.io ok (s.io.calls (runner j))
  | .other o => Grows s.io o
  | _ => True

instance (io : IOManager.St) (ok : Bool) : (x : IOManager.Call) → Decidable (Reaches io ok x)
  | .found (.cancel e) fd p =>
    inferInstanceAs (Decidable ((io.ctxs p).events.has e = true → ok = true ∧ io.kernel fd ≠ none))
  | .found (.add _) _ _ | .found (.del _) _ _ | .found .cancelAll _ _ | .idle | .resize _ _ | .returned _ =>
    isTrue trivial

instance (s : St) (o : Op) : Decidable (InTime s o) :=
  match o with
  | .arm c => inferInstanceAs (Decidable ((s.calls c).cancelled = false ∧
      ∀ i < s.nextTimer, (s.timers i).owner = c → (s.timers i).stage.over = true))
  | .addResize c => inferInstanceAs (Decidable (Grows s.io (.resize (caller c))))
  | .cancelLookup j => inferInstanceAs (Decidable ((s.calls (s.timers j).owner).pc.inAdd = false))
  | .cancelEnter j ok => inferInstanceAs (Decidable (Reaches s.io ok (s.io.calls (runner j))))
  | .other o => inferInstanceAs (Decidable (Grows s.io o))
  | .call .. | .attempt .. | .addLookup _ | .addEnter .. | .hold _ | .resume _ | .cancelTimer _ | .check _
  | .expire _ | .lock _
  | .read _ | .mark _ => isTrue trivial

/-! ## The invariant -/

/-- timer `j` is the one of call `c` that still acts, and nobody else has set its mark -/
structure Current (s : St) (c j : ℕ) : Prop where
  owner : (s.timers j).owner = c
  alone : ∀ i, i ≠ j → (s.timers i).owner = c → (s.timers i).stage.over = true
  acts : (s.timers j).stage.over = false
  mark : (s.calls c).cancelled = true → (s.timers j).stage = .marked ∨ (s.timers j).stage = .cancelling

/-- the ticket is that of a registration of the event of call `c`, in the context of its fd -/
def Registered (c k : ℕ) : Prop :=
  ∃ p sch task, s.io.vec[(s.calls c).fd]? = some p ∧ s.io.registered[k]? = some ⟨p, (s.calls c).kind.event, sch, task⟩

/-- a call that waits with a timer has a timer that will reach the event -/
def Safe (c : ℕ) : Prop :=
  match (s.calls c).pc with
  | .adding (some j) => Current s c j ∧ (s.timers j).stage ≠ .cancelling
  | .holding (some j) k | .suspended (some j) k => Pending s k → Current s c j ∧ Registered s c k
  | _ => True

/-- the thread of a call is in its own `addEvent` -/
def CallerOk (c : ℕ) : Prop :=
  match s.io.calls (caller c) with
  | .found r fd _ => (s.calls c).pc.inAdd = true ∧ r = .add (s.calls c).args ∧ fd = (s.calls c).fd
  | .resize fd a => (s.calls c).pc.inAdd = true ∧ a = (s.calls c).args ∧ fd = (s.calls c).fd
  | _ => True

/-- the thread of a callback is in its own `cancelEvent` -/
def RunnerOk (j : ℕ) : Prop :=
  match s.io.calls (runner j) with
  | .found r fd _ => (s.timers j).stage = .cancelling ∧ r = .cancel (s.calls (s.timers j).owner).kind.event ∧
      fd = (s.calls (s.timers j).owner).fd
  | .resize _ _ => False
  | _ => (s.timers j).stage ≠ .cancelling

structure Inv (s : St) : Prop where
  books : Books s.io
  growing : Growing s.io
  fresh : ∀ i, s.nextTimer ≤ i → (s.timers i).stage = .unused
  started : ∀ j, (s.timers j).stage ≠ .unused → (s.calls (s.timers j).owner).pc ≠ .idle
  owned : ∀ c j, (s.calls c).pc.timer = some j → (s.timers j).owner = c ∧ j < s.nextTimer
  safe : ∀ c, Safe s c
  callers : ∀ c, CallerOk s c
  runners : ∀ j, RunnerOk s j

theorem inv_init : Inv init := by
  have hidle : ∀ t, init.io.calls t = .idle := fun t => rfl
  refine ⟨books_init, growing_init, fun i _ => rfl, fun j hj => absurd rfl hj, fun c j hj => (by cases hj),
    fun c => trivial, fun c => ?_, fun j => ?_⟩
  · simp only [CallerOk, hidle]
  · simp only [RunnerOk, hidle]
    simp [init]

/-! ## Frames -/

variable {s s' : St} {c i j k : ℕ} {st : TimerStage} {o : IOManager.Op}

/-- what the `IOManager` may do meanwhile -/
structure Goes (io io' : IOManager.St) : Prop where
  books : Books io'
  growing : Growing io'
  vec : io.vec <+: io'.vec
  logs : Extends io io'

theorem Registered.frame (h : Registered s c k) (hio : Goes s.io s'.io)
    (hcall : ∃ b pc, s'.calls c = { s.calls c with cancelled := b, pc := pc }) : Registered s' c k := by
  obtain ⟨p, sch, task, hp, hk⟩ := h
  obtain ⟨b, pc, hcall⟩ := hcall
  obtain ⟨rest, hrest⟩ := hio.logs.1
  refine ⟨p, sch, task, ?_, ?_⟩
  · rw [hcall]; exact getElem_of_extends hio.vec hp
  · rw [hcall, ← hrest, List.getElem?_append_left (List.getElem?_eq_some_iff.1 hk).1]
    exact hk

theorem Pending.frame (h : Pending s' k) (hio : Goes s.io s'.io) : Pending s k :=
  fun hk => h ((hio.logs.2.map Prod.fst).subset hk)

theorem Safe.imp (h : Safe s c) (hpc : (s'.calls c).pc = (s.calls c).pc)
    (hadd : ∀ j, (s.calls c).pc.inAdd = true → Current s c j ∧ (s.timers j).stage ≠ .cancelling →
      Current s' c j ∧ (s'.timers j).stage ≠ .cancelling)
    (hwait : ∀ j k, (Pending s k → Current s c j ∧ Registered s c k) → Pending s' k → Current s' c j ∧
      Registered s' c k) :
    Safe s' c := by
  unfold Safe at h ⊢
  rw [hpc]
  cases hp : (s.calls c).pc with
  | adding tm =>
    rw [hp] at h hadd
    cases tm with
    | none => trivial
    | some j => exact hadd j rfl h
  | holding tm k | suspended tm k =>
    rw [hp] at h
    cases tm with
    | none => trivial
    | some j => exact hwait j k h
  | _ => trivial

theorem Safe.frame (h : Safe s c) (hcall : s'.calls c = s.calls c)
    (htimers : ∀ i, (s.timers i).owner = c ∧ (s.timers i).stage.over = false ∨ (s'.timers i).owner = c →
      s'.timers i = s.timers i)
    (hio : Goes s.io s'.io) : Safe s' c := by
  have hcur : ∀ {j}, Current s c j → Current s' c j ∧ s'.timers j = s.timers j := by
    intro j hj
    have hjj := htimers j (.inl ⟨hj.owner, hj.acts⟩)
    refine ⟨⟨?_, fun i hi ho => ?_, ?_, ?_⟩, hjj⟩
    · rw [hjj]; exact hj.owner
    · rw [htimers i (.inr ho)]
      exact hj.alone i hi (by rw [← htimers i (.inr ho)]; exact ho)
    · rw [hjj]; exact hj.acts
    · rw [hjj, hcall]; exact hj.mark
  refine h.imp (by rw [hcall]) (fun j _ hj => ?_) fun j k hw hk => ?_
  · obtain ⟨h1, h2⟩ := hcur hj.1
    exact ⟨h1, by rw [h2]; exact hj.2⟩
  · obtain ⟨h1, h2⟩ := hw (hk.frame hio)
    exact ⟨(hcur h1).1, h2.frame hio ⟨_, _, hcall⟩⟩

theorem Safe.turn (h : Safe s c) (ho : (s.timers i).owner = c) (hact : (s.timers i).stage.over = false)
    (hio : Goes s.io s'.io)
    (hcall : ∃ b, s'.calls c = { s.calls c with cancelled := b })
    (hadd : (s.calls c).pc.inAdd = true → (s.timers i).stage ≠ .cancelling → Current s c i →
      Current s' c i ∧ (s'.timers i).stage ≠ .cancelling)
    (hwait : ∀ k, Pending s' k → Registered s c k → Current s c i → Current s' c i) : Safe s' c := by
  obtain ⟨b, hcall⟩ := hcall
  -- the current timer is the one that acts
  have heq : ∀ {j}, Current s c j → j = i := by
    intro j hj
    by_contra hne
    have := hj.alone i (fun he => hne he.symm) ho
    rw [hact] at this
    cases this
  refine h.imp (by rw [hcall]) (fun j hin hj => ?_) fun j k hw hk => ?_
  · obtain rfl := heq hj.1
    exact hadd hin hj.2 hj.1
  · obtain ⟨h1, h2⟩ := hw (hk.frame hio)
    obtain rfl := heq h1
    exact ⟨hwait k hk h2 h1, h2.frame hio ⟨b, _, hcall⟩⟩

theorem CallerOk.frame (h : CallerOk s c) (hio : s'.io.calls (caller c) = s.io.calls (caller c))
    (hcall : s'.calls c = s.calls c) : CallerOk s' c := by
  unfold CallerOk at h ⊢
  rw [hio, hcall]
  exact h

theorem callerOk_of_free (h : (s.io.calls (caller c)).free = true) : CallerOk s c := by
  unfold CallerOk
  cases hc : s.io.calls (caller c) with
  | found r fd p | resize fd a => rw [hc] at h; cases h
  | _ => trivial

theorem CallerOk.free (h : CallerOk s c) (hpc : (s.calls c).pc.inAdd = false) :
    (s.io.calls (caller c)).free = true := by
  unfold CallerOk at h
  cases hc : s.io.calls (caller c) with
  | found r fd p | resize fd a => rw [hc, hpc] at h; cases h.1
  | _ => rfl

theorem RunnerOk.frame (h : RunnerOk s j) (hio : s'.io.calls (runner j) = s.io.calls (runner j))
    (htimer : s'.timers j = s.timers j)
    (hcall : (s.timers j).stage = .cancelling → (s'.calls (s.timers j).owner).kind = (s.calls (s.timers j).owner).kind ∧
      (s'.calls (s.timers j).owner).fd = (s.calls (s.timers j).owner).fd) : RunnerOk s' j := by
  unfold RunnerOk at h ⊢
  rw [hio, htimer]
  cases hc : s.io.calls (runner j) with
  | found r fd p =>
    rw [hc] at h
    obtain ⟨h1, h2, h3⟩ := h
    obtain ⟨hk, hf⟩ := hcall h1
    exact ⟨h1, by rw [hk]; exact h2, by rw [hf]; exact h3⟩
  | _ => rw [hc] at h; exact h

theorem caller_ne_runner (c j : ℕ) : caller c ≠ runner j := by
  unfold caller runner
  omega

theorem caller_inj {d : ℕ} (h : caller c = caller d) : c = d := by
  unfold caller at h
  omega

theorem runner_inj (h : runner i = runner j) : i = j := by
  unfold runner at h
  omega

theorem RunnerOk.free (h : RunnerOk s j) (hst : (s.timers j).stage ≠ .cancelling) :
    (s.io.calls (runner j)).free = true := by
  unfold RunnerOk at h
  cases hc : s.io.calls (runner j) with
  | found r fd p => rw [hc] at h; exact absurd h.1 hst
  | resize fd a => rw [hc] at h; exact h.elim
  | _ => rfl

theorem runnerOk_of_free (h : (s.io.calls (runner j)).free = true) (hst : (s.timers j).stage ≠ .cancelling) :
    RunnerOk s j := by
  unfold RunnerOk
  cases hc : s.io.calls (runner j) with
  | found r fd p | resize fd a => rw [hc] at h; cases h
  | _ => exact hst

theorem Inv.stays (h : Inv s) : Goes s.io s.io := ⟨h.books, h.growing, prefix_rfl, Extends.refl _⟩

theorem Inv.goes (h : Inv s) (hgrows : Grows s.io o) : Goes s.io (IOManager.step s.io o) :=
  have ⟨hgrowing, hvec⟩ := step_growing s.io o hgrows h.growing
  ⟨step_books s.io o h.books, hgrowing, hvec, step_logs s.io o⟩

/-- a step of call `c`, or of the callback of its timer `i`: what it leaves alone -/
structure Frame (s s' : St) (c : ℕ) (i : Option ℕ) : Prop where
  io : Goes s.io s'.io
  next : s.nextTimer ≤ s'.nextTimer
  calls : ∀ d, d ≠ c → s'.calls d = s.calls d ∧ s'.io.calls (caller d) = s.io.calls (caller d)
  timers : ∀ j, some j ≠ i → s'.timers j = s.timers j ∧ s'.io.calls (runner j) = s.io.calls (runner j)
  timer : ∀ j, some j = i → (s'.timers j).owner = c ∧ (j < s.nextTimer → (s.timers j).owner = c) ∧ j < s'.nextTimer
  started : (s'.calls c).pc ≠ .idle
  same : (s.calls c).pc ≠ .idle → (s'.calls c).kind = (s.calls c).kind ∧ (s'.calls c).fd = (s.calls c).fd

theorem Inv.change {i : Option ℕ} (h : Inv s) (hf : Frame s s' c i)
    (howned : ∀ j, (s'.calls c).pc.timer = some j → (s'.timers j).owner = c ∧ j < s'.nextTimer) (hsafe : Safe s' c)
    (hcaller : CallerOk s' c) (hrunner : ∀ j, some j = i → RunnerOk s' j) : Inv s' := by
  have hlt : ∀ {j}, (s.timers j).stage ≠ .unused → j < s.nextTimer :=
    fun hj => Nat.lt_of_not_le fun hle => hj (h.fresh _ hle)
  refine ⟨hf.io.books, hf.io.growing, fun j hj => ?_, fun j hj => ?_, fun d j hj => ?_, fun d => ?_, fun d => ?_,
    fun j => ?_⟩
  · rw [(hf.timers j fun hi => absurd (hf.timer j hi).2.2 (Nat.not_lt.2 hj)).1]
    exact h.fresh j (hf.next.trans hj)
  · by_cases hd : (s'.timers j).owner = c
    · rw [hd]
      exact hf.started
    · have hsame := (hf.timers j fun hi => hd (hf.timer j hi).1).1
      rw [(hf.calls _ hd).1, hsame]
      exact h.started j (hsame ▸ hj)
  · by_cases hd : d = c
    · subst hd
      exact howned j hj
    rw [(hf.calls d hd).1] at hj
    obtain ⟨h₁, h₂⟩ := h.owned d j hj
    rw [(hf.timers j fun hi => hd (h₁.symm.trans ((hf.timer j hi).2.1 h₂))).1]
    exact ⟨h₁, h₂.trans_le hf.next⟩
  · by_cases hd : d = c
    · subst hd
      exact hsafe
    refine (h.safe d).frame (hf.calls d hd).1 (fun j hj => (hf.timers j fun hi => hd ?_).1) hf.io
    obtain ⟨h₁, h₂, -⟩ := hf.timer j hi
    rcases hj with ⟨ho, hover⟩ | ho
    · exact ho.symm.trans (h₂ (hlt fun hu => by rw [hu] at hover; cases hover))
    · exact ho.symm.trans h₁
  · by_cases hd : d = c
    · subst hd
      exact hcaller
    · exact (h.callers d).frame (hf.calls d hd).2 (hf.calls d hd).1
  · by_cases hi : some j = i
    · exact hrunner j hi
    refine (h.runners j).frame (hf.timers j hi).2 (hf.timers j hi).1 fun hst => ?_
    by_cases hd : (s.timers j).owner = c
    · rw [hd]
      exact hf.same (hd ▸ h.started j (by rw [hst]; simp))
    · rw [(hf.calls _ hd).1]
      exact ⟨rfl, rfl⟩

/-! ## Steps of the calls -/

theorem Inv.setCall (h : Inv s) {x : Call} (hx : x.pc ≠ .idle)
    (hsame : (s.calls c).pc ≠ .idle → x.kind = (s.calls c).kind ∧ x.fd = (s.calls c).fd)
    (howned : ∀ j, x.pc.timer = some j → (s.timers j).owner = c ∧ j < s.nextTimer) (hsafe : Safe (s.setCall c x) c)
    (hcaller : CallerOk (s.setCall c x) c) : Inv (s.setCall c x) := by
  have hself : (s.setCall c x).calls c = x := update_self _ _ _
  refine h.change (i := none) ⟨h.stays, le_rfl, fun d hd => ⟨update_of_ne hd _ _, rfl⟩, fun j _ => ⟨rfl, rfl⟩,
    fun j hj => (by cases hj), by rwa [hself], by rwa [hself]⟩ (by rwa [hself]) hsafe hcaller fun j hj => (by cases hj)

variable {pc : Pc}

theorem Inv.goto (h : Inv s) (hpc : pc ≠ .idle)
    (howned : ∀ j, pc.timer = some j → (s.timers j).owner = c ∧ j < s.nextTimer) (hsafe : Safe (s.setPc c pc) c)
    (hcaller : CallerOk (s.setPc c pc) c) : Inv (s.setPc c pc) :=
  h.setCall hpc (fun _ => ⟨rfl, rfl⟩) howned hsafe hcaller

theorem Inv.pass (h : Inv s) (hold : (s.calls c).pc.inAdd = false) (hpc : pc ≠ .idle)
    (htimer : pc.timer = none ∨ pc.timer = (s.calls c).pc.timer) (hsafe : Safe (s.setPc c pc) c) :
    Inv (s.setPc c pc) := by
  refine h.goto hpc (fun j hj => ?_) hsafe (callerOk_of_free ((h.callers c).free hold))
  rcases htimer with hn | heq
  · rw [hn] at hj; cases hj
  · exact h.owned c j (heq ▸ hj)

/-- a place where the call does not wait -/
def Pc.quiet : Pc → Bool
  | .adding (some _) | .holding (some _) _ | .suspended (some _) _ => false
  | _ => true

theorem safe_of_quiet (h : (s.calls c).pc.quiet = true) : Safe s c := by
  unfold Safe
  split
  iterate 3 next hpc => rw [hpc] at h; cases h
  trivial

theorem setPc_pc (s : St) (c : ℕ) (pc : Pc) : ((s.setPc c pc).calls c).pc = pc := by simp [setPc, setCall]

theorem Inv.leave (h : Inv s) (hold : (s.calls c).pc.inAdd = false) (hpc : pc ≠ .idle)
    (htimer : pc.timer = none ∨ pc.timer = (s.calls c).pc.timer) (hquiet : pc.quiet = true) : Inv (s.setPc c pc) :=
  h.pass hold hpc htimer (safe_of_quiet (by rw [setPc_pc]; exact hquiet))

theorem setPc_self (h : (s.calls c).pc = pc) : s.setPc c pc = s := by
  subst h
  exact congrArg (fun f => { s with calls := f }) (update_eq_self c s.calls)

/-- the `IOManager` makes a step -/
abbrev ioStep (s : St) (o : IOManager.Op) : St := { s with io := IOManager.step s.io o }

theorem Inv.io (h : Inv s) (hgrows : Grows s.io o)
    (hcaller : ∀ c, o.thread = some (caller c) → CallerOk (ioStep s o) c)
    (hrunner : ∀ j, o.thread ≠ some (runner j)) : Inv (ioStep s o) := by
  have hgoes := h.goes hgrows
  refine ⟨hgoes.books, hgoes.growing, h.fresh, h.started, h.owned, fun c => ?_, fun c => ?_, fun j => ?_⟩
  · exact (h.safe c).frame rfl (fun _ _ => rfl) hgoes
  · by_cases hc : o.thread = some (caller c)
    · exact hcaller c hc
    · exact (h.callers c).frame (step_calls_of_ne s.io o hc) rfl
  · exact (h.runners j).frame (step_calls_of_ne s.io o (hrunner j)) rfl fun _ => ⟨rfl, rfl⟩

theorem foreign_thread (h : Foreign o) {t : ℕ} (ht : o.thread = some t) : t % 3 = 2 := by
  cases o with
  | call v r fd | resize v | enter v ok => cases ht; exact h
  | _ => cases ht

theorem Inv.foreign (h : Inv s) (ho : Foreign o) (hgrows : Grows s.io o) : Inv (ioStep s o) := by
  refine h.io hgrows (fun c hc => ?_) fun j hj => ?_
  · have := foreign_thread ho hc
    unfold caller at this
    omega
  · have := foreign_thread ho hj
    unfold runner at this
    omega

theorem addLookup_inv (h : Inv s) (hpc : (s.calls c).pc.inAdd = true) :
    Inv (ioStep s (.call (caller c) (.add (s.calls c).args) (s.calls c).fd)) := by
  refine h.io trivial (fun d hd => ?_) fun j hj => ?_
  · obtain rfl := caller_inj (Option.some.inj hd)
    rcases step_call_cases s.io (caller c) (.add (s.calls c).args) (s.calls c).fd with heq | heq
    · exact (h.callers c).frame heq rfl
    unfold CallerOk
    rw [heq]
    rcases afterLookup_cases s.io (.add (s.calls c).args) (s.calls c).fd with ⟨p, hp⟩ | ⟨a, ha, hp⟩ | hp
    · rw [hp]; exact ⟨hpc, rfl, rfl⟩
    · cases ha
      rw [hp]; exact ⟨hpc, rfl, rfl⟩
    · rw [hp]; trivial
  · exact caller_ne_runner c j (Option.some.inj hj)

theorem addResize_inv (h : Inv s) (hgrows : Grows s.io (.resize (caller c))) :
    Inv (ioStep s (.resize (caller c))) := by
  refine h.io hgrows (fun d hd => ?_) fun j hj => ?_
  · obtain rfl := caller_inj (Option.some.inj hd)
    have hcaller := h.callers c
    rcases step_resize_cases s.io (caller c) with heq | ⟨fd, a, p, hold, heq⟩
    · exact hcaller.frame heq rfl
    unfold CallerOk at hcaller ⊢
    rw [hold] at hcaller
    rw [heq]
    exact ⟨hcaller.1, by rw [hcaller.2.1], hcaller.2.2⟩
  · exact caller_ne_runner c j (Option.some.inj hj)

theorem Current.of_same (h : Current s c j) (htimers : s'.timers = s.timers)
    (hcancelled : (s'.calls c).cancelled = (s.calls c).cancelled) : Current s' c j := by
  obtain ⟨howner, halone, hacts, hmark⟩ := h
  rw [← htimers] at howner halone hacts hmark
  rw [← hcancelled] at hmark
  exact ⟨howner, halone, hacts, hmark⟩

theorem call_inv (h : Inv s) {x : Call} (hidle : (s.calls c).pc = .idle) (hx : x.pc = .trying) :
    Inv (s.setCall c x) := by
  have hself : (s.setCall c x).calls c = x := update_self _ _ _
  refine h.setCall (by rw [hx]; simp) (fun hne => absurd hidle hne) (fun j hj => ?_)
    (safe_of_quiet (by rw [hself, hx]; rfl))
    (callerOk_of_free ((h.callers c).free (by rw [hidle]; rfl)))
  rw [hx] at hj
  cases hj

/-- the record of a call with its mark set or cleared -/
abbrev Marks (s s' : St) (c : ℕ) : Prop := ∃ b, s'.calls = update s.calls c { s.calls c with cancelled := b }

variable {timer : Option ℕ}

section

variable (h : Inv s)
include h

theorem hold_inv (hpc : (s.calls c).pc = .holding timer k) : Inv (s.setPc c (.suspended timer k)) := by
  refine h.pass (by rw [hpc]; rfl) (by simp) (.inr (by rw [hpc]; rfl)) ?_
  cases timer with
  | none => exact safe_of_quiet (by rw [setPc_pc]; rfl)
  | some j =>
    have hsafe := h.safe c
    unfold Safe at hsafe ⊢
    rw [hpc] at hsafe
    rw [setPc_pc]
    intro hk
    obtain ⟨h1, h2⟩ := hsafe hk
    exact ⟨h1.of_same rfl (proj_update Call.cancelled (by rfl) c), h2.frame h.stays ⟨_, _, update_self _ _ _⟩⟩

theorem addEnter_inv {ok : Bool} (hpc : (s.calls c).pc = .adding timer) (hbusy : (s.io.calls (caller c)).free = false)
    (ho : o = .enter (caller c) ok) : Inv ((ioStep s o).setPc c (afterAdd s.io (IOManager.step s.io o) c timer)) := by
  have hthread : o.thread = some (caller c) := ho ▸ rfl
  -- the step of the `IOManager`, if the thread is in order after it
  have hstep : CallerOk (ioStep s o) c → Inv (ioStep s o) := fun hcaller => by
    refine h.io (ho ▸ trivial) (fun d hd => ?_) fun j hj =>
      caller_ne_runner c j (Option.some.inj (hthread.symm.trans hj))
    obtain rfl := caller_inj (Option.some.inj (hthread.symm.trans hd))
    exact hcaller
  rcases ho ▸ step_enter_cases s.io (caller c) ok with heq | ⟨r, fd, p, ok', hold, hsec, hret⟩
  · -- a failed assertion
    have hstay : afterAdd s.io (IOManager.step s.io o) c timer = .adding timer := by
      unfold afterAdd
      rw [heq]
      cases hc : s.io.calls (caller c) with
      | returned ok => rw [hc] at hbusy; cases hbusy
      | _ => rfl
    rw [hstay, setPc_self (s := ioStep s o) hpc]
    exact hstep ((h.callers c).frame heq rfl)
  · have hfree : ((IOManager.step s.io o).calls (caller c)).free = true := by rw [hret]; rfl
    have hio := hstep (callerOk_of_free hfree)
    have hown : ∀ j, timer = some j → (s.timers j).owner = c ∧ j < s.nextTimer := fun j hj =>
      h.owned c j (by rw [hpc]; exact hj)
    cases ok' with
    | false =>
      have hgo : afterAdd s.io (IOManager.step s.io o) c timer = .addFailed timer := by unfold afterAdd; rw [hret]
      rw [hgo]
      exact hio.goto (by simp) hown (safe_of_quiet (by rw [setPc_pc]; rfl)) (callerOk_of_free hfree)
    | true =>
      have hgo : afterAdd s.io (IOManager.step s.io o) c timer = .holding timer s.io.registered.length := by
        unfold afterAdd; rw [hret]
      rw [hgo]
      refine hio.goto (by simp) hown ?_ (callerOk_of_free hfree)
      unfold Safe
      rw [setPc_pc]
      cases timer with
      | none => trivial
      | some j =>
        intro _
        have hsafe := h.safe c
        unfold Safe at hsafe
        rw [hpc] at hsafe
        have hcaller := h.callers c
        unfold CallerOk at hcaller
        rw [hold] at hcaller
        obtain ⟨-, rfl, rfl⟩ := hcaller
        obtain ⟨task, hreg, -, hvec⟩ := addSection_registered hsec hret
        refine ⟨hsafe.1.of_same rfl (proj_update Call.cancelled (by rfl) c), p, some (s.calls c).scheduler,
          task, ?_, ?_⟩
        · simp only [setPc, setCall, update_self, hvec]
          exact h.growing.held _ _ _ _ hold
        · simp only [setPc, setCall, update_self, hreg]
          simp [args]

theorem arm_inv (hpc : (s.calls c).pc = .arming) (hok : InTime s (.arm c)) : Inv (arm s c) := by
  have hnotadd : (s.calls c).pc.inAdd = false := by rw [hpc]; rfl
  unfold arm
  split_ifs with hto
  · exact h.leave hnotadd (by simp) (.inl rfl) rfl
  obtain ⟨hclear, hover⟩ := hok
  have hne : ∀ {i}, i ≠ s.nextTimer → update s.timers s.nextTimer ⟨c, .armed⟩ i = s.timers i := fun hi =>
    update_of_ne hi _ _
  refine h.change (c := c) (i := some s.nextTimer) ⟨h.stays, Nat.le_succ _, fun d hd => ⟨update_of_ne hd _ _, rfl⟩,
    fun j hj => ⟨hne fun heq => hj (congrArg some heq), rfl⟩, ?_,
    by rw [setPc_pc]; simp, fun _ => ?_⟩ (fun j hj => ?_) ?_
    (callerOk_of_free ((h.callers c).free hnotadd)) ?_
  · rintro j ⟨⟩
    exact ⟨by simp [setPc, setCall], fun hlt => absurd hlt (Nat.lt_irrefl _), Nat.lt_succ_self _⟩
  · exact ⟨proj_update Call.kind (by rfl) _, proj_update Call.fd (by rfl) _⟩
  · rw [setPc_pc] at hj
    cases hj
    exact ⟨by simp [setPc, setCall], Nat.lt_succ_self _⟩
  · unfold Safe
    rw [setPc_pc]
    refine ⟨⟨by simp [setPc, setCall], fun i hi ho => ?_, by simp [setPc, setCall, TimerStage.over], fun hc => ?_⟩,
      by simp [setPc, setCall]⟩
    · simp only [setPc, setCall, hne hi] at ho ⊢
      by_cases hlt : i < s.nextTimer
      · exact hover i hlt ho
      · rw [h.fresh i (by omega)]; rfl
    · have : (s.calls c).cancelled = true := by simpa [setPc, setCall] using hc
      rw [hclear] at this
      cases this
  · rintro j ⟨⟩
    exact runnerOk_of_free ((h.runners _).free (by rw [h.fresh _ le_rfl]; simp)) (by simp [setPc, setCall])

/-! ## Steps of the timers -/

variable (hold : (s.timers i).stage ≠ .unused)
include hold

theorem Inv.turn (hio : Goes s.io s'.io) (hcallers : ∀ d, s'.io.calls (caller d) = s.io.calls (caller d))
    (hrunners : ∀ j, j ≠ i → s'.io.calls (runner j) = s.io.calls (runner j)) (hnext : s'.nextTimer = s.nextTimer)
    (htimers : s'.timers = update s.timers i { s.timers i with stage := st }) (hcalls : Marks s s' (s.timers i).owner)
    (hrunner : RunnerOk s' i) (hsafe : Safe s' (s.timers i).owner) : Inv s' := by
  obtain ⟨b, hcalls⟩ := hcalls
  have howner : ∀ j, (s'.timers j).owner = (s.timers j).owner := fun j => by
    rw [htimers]; exact proj_update Timer.owner (by rfl) j
  have hproj : ∀ {β : Type} (f : Call → β), (∀ x : Call, f { x with cancelled := b } = f x) →
      ∀ d, f (s'.calls d) = f (s.calls d) :=
    fun f hf d => by rw [hcalls]; exact proj_update f (hf _) d
  have hpc := hproj Call.pc fun _ => rfl
  have hlt : i < s.nextTimer := Nat.lt_of_not_le fun hle => hold (h.fresh i hle)
  refine h.change (i := some i) ⟨hio, hnext.ge, fun d hd => ⟨by rw [hcalls]; exact update_of_ne hd _ _, hcallers d⟩,
    fun j hj => ?_, ?_,
    by rw [hpc]; exact h.started i hold, fun _ => ⟨hproj kind (fun _ => rfl) _, hproj fd (fun _ => rfl) _⟩⟩
    (fun j hj => ?_) hsafe ?_ ?_
  · have hji : j ≠ i := fun heq => hj (congrArg some heq)
    exact ⟨by rw [htimers]; exact update_of_ne hji _ _, hrunners j hji⟩
  · rintro j ⟨⟩
    exact ⟨howner _, fun _ => rfl, hnext ▸ hlt⟩
  · rw [hpc] at hj
    rw [howner, hnext]
    exact h.owned _ j hj
  · have hc := h.callers (s.timers i).owner
    unfold CallerOk at hc ⊢
    rw [hcallers, hpc, hproj args (fun _ => rfl), hproj fd fun _ => rfl]
    exact hc
  · rintro j ⟨⟩
    exact hrunner

theorem Inv.act (hin : (s.timers i).stage ≠ .cancelling) (hst : st ≠ .cancelling) (hio : s'.io = s.io)
    (hnext : s'.nextTimer = s.nextTimer) (htimers : s'.timers = update s.timers i { s.timers i with stage := st })
    (hcalls : Marks s s' (s.timers i).owner) (hsafe : Safe s' (s.timers i).owner) : Inv s' := by
  refine h.turn hold (hio ▸ h.stays) (fun _ => by rw [hio]) (fun _ _ => by rw [hio]) hnext htimers hcalls ?_ hsafe
  refine runnerOk_of_free (by rw [hio]; exact (h.runners i).free hin) ?_
  rw [htimers, update_self]
  exact hst

theorem Inv.setStage (hin : (s.timers i).stage ≠ .cancelling) (hst : st ≠ .cancelling)
    (hsafe : Safe (s.setStage i st) (s.timers i).owner) : Inv (s.setStage i st) :=
  h.act hold hin hst rfl rfl rfl ⟨(s.calls (s.timers i).owner).cancelled, (update_eq_self _ s.calls).symm⟩ hsafe

end

theorem Current.setStage (h : Current s c i) (hst : st.over = false)
    (hmark : (s.calls c).cancelled = true → st = .marked ∨ st = .cancelling) : Current (s.setStage i st) c i := by
  refine ⟨by simpa [St.setStage] using h.owner, fun j hj ho => ?_, by simpa [St.setStage] using hst, ?_⟩
  · simp only [St.setStage, update_of_ne hj] at ho ⊢
    exact h.alone j hj ho
  · simpa [St.setStage] using hmark

theorem Inv.forward (h : Inv s) {a : TimerStage} (hi : (s.timers i).stage = a) (hact : a.over = false)
    (hearly : a ≠ .marked ∧ a ≠ .cancelling) (hst : st.over = false) (hnext : st ≠ .cancelling) :
    Inv (s.setStage i st) := by
  subst hi
  have hcur : Current s (s.timers i).owner i → Current (s.setStage i st) (s.timers i).owner i := fun hc =>
    hc.setStage hst fun hm => absurd (hc.mark hm) (by rintro (he | he); exacts [hearly.1 he, hearly.2 he])
  refine h.setStage ?_ hearly.2 hnext ?_
  · intro he
    rw [he] at hact
    cases hact
  · refine (h.safe _).turn rfl hact h.stays ⟨_, rfl⟩ (fun _ _ hc => ⟨hcur hc, ?_⟩) (fun _ _ _ hc => hcur hc)
    simpa [St.setStage] using hnext

theorem mark_inv (h : Inv s) (hst : (s.timers j).stage = .passed) :
    Inv ((s.setCall (s.timers j).owner { s.calls (s.timers j).owner with cancelled := true }).setStage j .marked) := by
  refine h.act (by rw [hst]; simp) (by rw [hst]; simp) (by simp) rfl rfl rfl ⟨true, rfl⟩ ?_
  have hcur : Current s (s.timers j).owner j →
      Current ((s.setCall (s.timers j).owner { s.calls (s.timers j).owner with cancelled := true }).setStage j .marked)
        (s.timers j).owner j := by
    intro hc
    refine ⟨by simp [setStage, setCall], fun i hi ho => ?_, by simp [setStage, TimerStage.over], fun _ => ?_⟩
    · simp only [setStage, setCall, update_of_ne hi] at ho ⊢
      exact hc.alone i hi ho
    · exact .inl (by simp [setStage])
  refine (h.safe _).turn rfl (by rw [hst]; rfl) h.stays ⟨true, update_self _ _ _⟩ (fun _ _ hc => ⟨hcur hc, ?_⟩)
    (fun _ _ _ hc => hcur hc)
  simp [setStage]

theorem cancelTimer_inv (h : Inv s) (hadd : (s.calls c).pc.inAdd = false)
    (htimer : (s.calls c).pc.timer = timer) (hpc : pc ≠ .idle) (hnone : pc.timer = none) (hquiet : pc.quiet = true) :
    Inv ((cancelTimer s timer).setPc c pc) := by
  have hgo : Inv (s.setPc c pc) := h.leave hadd hpc (.inl hnone) hquiet
  cases timer with
  | none => exact hgo
  | some j =>
    simp only [cancelTimer]
    split_ifs with harmed
    · obtain ⟨ho, -⟩ := h.owned c j htimer
      have hstage : ((s.setPc c pc).timers j).stage = .armed := harmed
      refine hgo.setStage (by rw [hstage]; simp) (by rw [hstage]; simp) (by simp) (safe_of_quiet ?_)
      have hpc' : (((s.setPc c pc).setStage j .cancelled).calls ((s.setPc c pc).timers j).owner).pc = pc := by
        rw [show ((s.setPc c pc).timers j).owner = c from ho]
        exact setPc_pc s c pc
      rw [hpc']
      exact hquiet
    · exact hgo

theorem afterAttempt_quiet (kind : Kind) (res : Attempt) :
    afterAttempt kind res ≠ .idle ∧ (afterAttempt kind res).timer = none ∧ (afterAttempt kind res).quiet = true := by
  cases kind <;> cases res <;> exact ⟨by simp [afterAttempt], rfl, rfl⟩

theorem afterCheck_quiet (x : Call) : afterCheck x ≠ .idle ∧ (afterCheck x).timer = none ∧
    (afterCheck x).quiet = true := by
  unfold afterCheck
  split_ifs
  · exact ⟨by simp, rfl, rfl⟩
  · split <;> exact ⟨by simp, rfl, rfl⟩

theorem Inv.cancelStep (h : Inv s) (ho : o.thread = some (runner i)) (hgrows : Grows s.io o)
    (hold : (s.timers i).stage ≠ .unused) (hrunner : RunnerOk ((ioStep s o).setStage i st) i)
    (hsafe : Safe ((ioStep s o).setStage i st) (s.timers i).owner) : Inv ((ioStep s o).setStage i st) := by
  refine h.turn hold (h.goes hgrows) (fun d => step_calls_of_ne s.io o ?_) (fun j hj => step_calls_of_ne s.io o ?_) rfl
    rfl ⟨(s.calls (s.timers i).owner).cancelled, (update_eq_self _ s.calls).symm⟩ hrunner hsafe
  · rw [ho]
    exact fun he => caller_ne_runner d i (Option.some.inj he).symm
  · rw [ho]
    exact fun he => hj (runner_inj (Option.some.inj he)).symm

theorem RunnerOk.found (h : RunnerOk s j) (hst : (s.timers j).stage = .cancelling) :
    ∃ p, s.io.calls (runner j) = .found (.cancel (s.calls (s.timers j).owner).kind.event)
    (s.calls (s.timers j).owner).fd p := by
  unfold RunnerOk at h
  cases hc : s.io.calls (runner j) with
  | found r fd p =>
    rw [hc] at h
    obtain ⟨-, rfl, rfl⟩ := h
    exact ⟨p, rfl⟩
  | resize fd a => rw [hc] at h; exact h.elim
  | idle | returned ok => rw [hc] at h; exact absurd hst h

theorem cancelLookup_inv (h : Inv s) (hlive : s.io.aborted.isSome = false) (hst : (s.timers j).stage = .marked)
    (hok : (s.calls (s.timers j).owner).pc.inAdd = false) {x : Call} (hx : x = s.calls (s.timers j).owner)
    (ho : o = .call (runner j) (.cancel x.kind.event) x.fd) :
    Inv ((ioStep s o).setStage j (afterCancel (IOManager.step s.io o) j)) := by
  have hfree := (h.runners j).free (by rw [hst]; simp)
  have hgrows : Grows s.io o := ho ▸ trivial
  have hgoes := h.goes hgrows
  refine h.cancelStep (ho ▸ rfl) hgrows (by rw [hst]; simp) ?_ ?_
  · -- the thread holds the context, or has returned
    unfold RunnerOk
    simp only [setStage, update_self, ← hx]
    rcases ho ▸ step_call_cases s.io (runner j) (.cancel x.kind.event) x.fd with heq | heq
    · rw [afterCancel, heq, if_pos hfree]
      cases hc : s.io.calls (runner j) with
      | found r fd p | resize fd a => rw [hc] at hfree; cases hfree
      | _ => simp
    · rw [afterCancel, heq]
      rcases afterLookup_cases s.io (.cancel x.kind.event) x.fd with ⟨p, hp⟩ | ⟨a, ha, -⟩ | hp
      · rw [hp]
        exact ⟨rfl, rfl, rfl⟩
      · cases ha
      · rw [hp]
        simp [IOManager.Call.free]
  · refine (h.safe _).turn rfl (by rw [hst]; rfl) hgoes ⟨_, rfl⟩ (fun hadd _ _ => ?_) (fun k _ hreg hc => ?_)
    · rw [hok] at hadd
      cases hadd
    -- the event is registered, so its fd has a context
    obtain ⟨p, sch, task, hp, -⟩ := hreg
    rw [← hx] at hp
    have hlt : x.fd < 2 ^ 31 := lt_trans (List.getElem?_eq_some_iff.1 hp).1 h.growing.high
    have hfound : (IOManager.step s.io o).calls (runner j) = .found (.cancel x.kind.event) x.fd p := by
      unfold IOManager.step
      rw [if_neg (by rw [hlive]; simp), ho]
      simp only [IOManager.stepLive]
      rw [if_pos ⟨hfree, hlt⟩]
      simp [IOManager.afterLookup, h.growing.lookup, hp]
    have hgo : afterCancel (IOManager.step s.io o) j = .cancelling := by
      rw [afterCancel, hfound]
      rfl
    rw [hgo]
    have hc' : Current (ioStep s o) (s.timers j).owner j := hc.of_same rfl rfl
    exact hc'.setStage rfl fun _ => .inr rfl

theorem cancelEnter_inv (h : Inv s) {ok : Bool} (hst : (s.timers j).stage = .cancelling)
    (hok : Reaches s.io ok (s.io.calls (runner j))) (ho : o = .enter (runner j) ok) :
    Inv ((ioStep s o).setStage j (afterCancel (IOManager.step s.io o) j)) := by
  obtain ⟨p, hfound⟩ := (h.runners j).found hst
  have hgrows : Grows s.io o := ho ▸ trivial
  have hgoes := h.goes hgrows
  rcases ho ▸ step_enter_cases s.io (runner j) ok with heq | ⟨r, fd, q, ok', hold, hsec, hret⟩
  · -- a failed assertion
    have hgo : afterCancel (IOManager.step s.io o) j = .cancelling := by
      rw [afterCancel, heq, hfound]
      rfl
    rw [hgo]
    refine h.cancelStep (ho ▸ rfl) hgrows (by rw [hst]; simp) ?_ ?_
    · unfold RunnerOk
      simp [setStage, heq, hfound]
    · refine (h.safe _).turn rfl (by rw [hst]; rfl) hgoes ⟨_, rfl⟩ (fun _ hne _ => absurd hst hne) (fun k _ _ hc => ?_)
      have hc' : Current (ioStep s o) (s.timers j).owner j := hc.of_same rfl rfl
      exact hc'.setStage rfl fun _ => .inr rfl
  · rw [hfound] at hold hok
    cases hold
    have hgo : afterCancel (IOManager.step s.io o) j = .done := by
      rw [afterCancel, hret]
      rfl
    rw [hgo]
    refine h.cancelStep (ho ▸ rfl) hgrows (by rw [hst]; simp) ?_ ?_
    · unfold RunnerOk
      simp only [setStage, update_self, hret]
      simp
    refine (h.safe _).turn rfl (by rw [hst]; rfl) hgoes ⟨_, rfl⟩ (fun _ hne _ => absurd hst hne) (fun k hk hreg _ => ?_)
    -- the registration of the call is resolved by this very section
    obtain ⟨p', sch, task, hp', hg⟩ := hreg
    have hpp : p' = p := Option.some.inj (hp'.symm.trans (h.growing.held _ _ _ _ hfound))
    exact absurd (cancelSection_resolves h.books hsec hg hpp rfl hok) hk

/-! ## Runs -/

theorem step_inv (s : St) (o : Op) (ho : InTime s o) (h : Inv s) : Inv (step s o) := by
  unfold step
  split_ifs with habort
  · exact h
  have hlive : s.io.aborted.isSome = false := by simpa using habort
  cases o with
  | call c kind fd scd fiber hookEnable ctx =>
    refine inv_ite h fun hc => ?_
    split
    · exact call_inv h hc rfl
    all_goals exact h.leave (by rw [hc]; rfl) (by simp) (.inl rfl) rfl
  | attempt c res =>
    refine inv_ite h fun hc => ?_
    obtain ⟨h1, h2, h3⟩ := afterAttempt_quiet (s.calls c).kind res
    exact h.leave (by rw [hc]; rfl) h1 (.inl h2) h3
  | arm c => exact inv_ite h fun hc => arm_inv h hc ho
  | addLookup c =>
    simp only [stepLive]
    split
    · next hc => exact addLookup_inv h (by rw [hc]; rfl)
    · exact h
  | addResize c =>
    simp only [stepLive]
    split
    · exact addResize_inv h ho
    · exact h
  | addEnter c ok =>
    simp only [stepLive]
    split
    · next timer hc =>
      split_ifs with hfree
      · exact h
      · exact addEnter_inv h hc (by simpa using hfree) rfl
    · exact h
  | hold c =>
    simp only [stepLive]
    split
    · next timer ticket hc => exact hold_inv h hc
    · exact h
  | resume c =>
    simp only [stepLive]
    split
    · next timer ticket hc =>
      split_ifs
      · exact h.leave (by rw [hc]; rfl) (by simp) (.inr (by rw [hc]; rfl)) rfl
      · exact h
    · exact h
  | cancelTimer c =>
    simp only [stepLive]
    split
    · next timer hc => exact cancelTimer_inv h (by rw [hc]; rfl) (by rw [hc]; rfl) (by simp) rfl rfl
    · next timer hc => exact cancelTimer_inv h (by rw [hc]; rfl) (by rw [hc]; rfl) (by simp) rfl rfl
    · exact h
  | check c =>
    refine inv_ite h fun hc => ?_
    obtain ⟨h1, h2, h3⟩ := afterCheck_quiet (s.calls c)
    exact h.leave (by rw [hc]; rfl) h1 (.inl h2) h3
  | expire j => exact inv_ite h fun hst => h.forward hst rfl (by simp) rfl (by simp)
  | lock j =>
    simp only [stepLive]
    split_ifs with hst hret
    · refine h.setStage (by rw [hst]; simp) (by rw [hst]; simp) (by simp) (safe_of_quiet ?_)
      rw [show ((s.setStage j .done).calls (s.timers j).owner).pc = .returned from hret]
      rfl
    · exact h.forward hst rfl (by simp) rfl (by simp)
    · exact h
  | read j =>
    simp only [stepLive]
    split_ifs with hst hcanc
    · have hnot : ¬ Current s (s.timers j).owner j := fun hc => absurd (hc.mark hcanc) (by rw [hst]; simp)
      refine h.setStage (by rw [hst]; simp) (by rw [hst]; simp) (by simp) ?_
      exact (h.safe _).turn rfl (by rw [hst]; rfl) h.stays ⟨_, rfl⟩ (fun _ _ hc => absurd hc hnot)
        (fun _ _ _ hc => absurd hc hnot)
    · exact h.forward hst rfl (by simp) rfl (by simp)
    · exact h
  | mark j => exact inv_ite h fun hst => mark_inv h hst
  | cancelLookup j => exact inv_ite h fun hst => cancelLookup_inv h hlive hst ho rfl rfl
  | cancelEnter j ok => exact inv_ite h fun hst => cancelEnter_inv h hst ho rfl
  | other o => exact inv_ite h fun hf => h.foreign hf ho

theorem inv_run (ops : List Op) (hops : Meets step InTime init ops) : Inv (run step init ops) :=
  run_inv (fun s o ho h => step_inv s o ho h) hops inv_init

/-! ## Main results -/

/-- **A timeout bounds the wait**, in a run whose steps meet the condition. -/
theorem timeout_bounds_wait (ops : List Op) (hops : Meets step InTime init ops) (c : ℕ) :
    ¬ Stranded (run step init ops) c := by
  intro ⟨j, k, hpc, hk, hover⟩
  have hsafe := (inv_run ops hops).safe c
  unfold Safe at hsafe
  rw [hpc] at hsafe
  have hacts := (hsafe hk).1.acts
  rw [hover] at hacts
  cases hacts

/-- a socket with a receive timeout of a second -/
def secondToRead : FdCtx := ⟨true, false, false, 1000, noTimeout⟩

/-- a read that times out while it is suspended, and returns -/
def timesOut : List Op :=
  [.call 0 (.doIo .read .recv) 5 0 7 true (some secondToRead), .attempt 0 .wouldBlock, .arm 0, .addLookup 0,
    .addEnter 0 true, .hold 0,
    .expire 0, .lock 0, .read 0, .mark 0, .cancelLookup 0, .cancelEnter 0 true, .resume 0, .cancelTimer 0, .check 0]

theorem timeout_bounds_wait_read : Meets step InTime init timesOut ∧
    ((run step init (timesOut.take 11)).calls 0).pc = .suspended (some 0) 0 ∧
    ((run step init timesOut).calls 0).pc = .returned ∧ ¬ Stranded (run step init timesOut) 0 :=
  have hops : Meets step InTime init timesOut := by decide +kernel
  ⟨hops, by decide +kernel, by decide +kernel, timeout_bounds_wait timesOut hops 0⟩

/-- the timer of a call fires, and its callback completes, before `addEvent` registers the event -/
def firesEarly (kind : Kind) : List Op :=
  [.call 0 kind 5 0 7 true (some secondToRead), .attempt 0 .wouldBlock, .arm 0, .expire 0, .lock 0, .read 0, .mark 0,
    .cancelLookup 0, .cancelEnter 0 true, .addLookup 0, .addEnter 0 true, .hold 0]

/-- **The callback may come before `addEvent`.** -/
theorem timeout_before_add :
    Stranded (run step init (firesEarly (.doIo .read .recv))) 0 ∧
      Stranded (run step init (firesEarly (.connect 1000))) 0 :=
  ⟨⟨0, 0, by decide, by decide, by decide⟩, ⟨0, 0, by decide, by decide, by decide⟩⟩

end CoServer.Hook
