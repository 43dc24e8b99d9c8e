/-
The callers of `FoxRedis::cmd` (src/db/redis.cpp).

A caller keeps its `FCtx` on its stack and yields; the event thread schedules it again. The timer and the reply of a
command may come in either order: a late reply finds `timeout` set, and a reply that is in time deletes the timer with
the `Ctx`. A second reply, as hiredis hands over for a SUBSCRIBE, finds a `Ctx` that is deleted.

Results:
- `waits_step`: every event keeps what the state of a call says about the trace of its caller;
- `scheduled_once`: a caller is scheduled once, after its dispatch, and its `FCtx` is left alone afterwards, in every
  order of events in which no command has a second reply; once `pcmd` has run it is scheduled or its timer is armed;
- `scheduled_again`: a command with two replies.
-/
import CoServer.Db.FoxRedis

namespace CoServer.Db.FoxRedis

open CoServer.Core List

/-- the caller that an act concerns -/
def Act.caller : Act → Option ℕ
  | .use _ _ => none
  | .touch k | .schedule k | .dispatch k | .timeout k | .reply k | .freed k => some k

/-- `pcmd` has run for the call -/
def Call.ran : Call → Prop
  | .idle | .dispatched _ => False
  | .allocated _ | .closed _ => True

/-! ## Traces -/

section Trace

variable {k : ℕ} {trace acts : List Act}

/-- scheduled once, after its dispatch, and its `FCtx` not touched since -/
def Woken (k : ℕ) (trace : List Act) : Prop :=
  ∃ before after, trace = before ++ .schedule k :: after ∧ .schedule k ∉ before ∧ .schedule k ∉ after ∧
    .dispatch k ∈ before ∧ .touch k ∉ after

/-- neither scheduled nor timed out nor answered -/
def Asleep (k : ℕ) (trace : List Act) : Prop := .schedule k ∉ trace ∧ .timeout k ∉ trace ∧ .reply k ∉ trace

/-- dispatched, and nothing else yet -/
def Sent (k : ℕ) (trace : List Act) : Prop := Asleep k trace ∧ .dispatch k ∈ trace

theorem notMem_of_caller {a : Act} (ha : a.caller = some k) (h : ∀ b ∈ acts, b.caller ≠ some k) : a ∉ acts :=
  fun hmem => h a hmem ha

theorem Woken.append (h : Woken k trace) (hschedule : .schedule k ∉ acts) (htouch : .touch k ∉ acts) :
    Woken k (trace ++ acts) := by
  obtain ⟨before, after, rfl, hbefore, hafter, hdispatch, huntouched⟩ := h
  refine ⟨before, after ++ acts, by simp, hbefore, ?_, hdispatch, ?_⟩
  · simp [hafter, hschedule]
  · simp [huntouched, htouch]

theorem Asleep.append (h : Asleep k trace) (hschedule : .schedule k ∉ acts) (htimeout : .timeout k ∉ acts)
    (hreply : .reply k ∉ acts) : Asleep k (trace ++ acts) := by
  unfold Asleep
  simp [h.1, h.2.1, h.2.2, hschedule, htimeout, hreply]

theorem Sent.append (h : Sent k trace) (hschedule : .schedule k ∉ acts) (htimeout : .timeout k ∉ acts)
    (hreply : .reply k ∉ acts) : Sent k (trace ++ acts) :=
  ⟨h.1.append hschedule htimeout hreply, mem_append_left _ h.2⟩

theorem Sent.wake (h : Sent k trace) (hacts : .schedule k ∉ acts) : Woken k (trace ++ (acts ++ [.schedule k])) := by
  refine ⟨trace ++ acts, [], by simp, ?_, by simp, ?_, by simp⟩
  · simp [h.1.1, hacts]
  · simp [h.2]

theorem Woken.count (h : Woken k trace) : trace.count (.schedule k) = 1 := by
  obtain ⟨before, after, rfl, hbefore, hafter, -⟩ := h
  rw [count_append, count_cons_self, count_eq_zero.2 hbefore, count_eq_zero.2 hafter]

theorem Woken.cut (h : Woken k trace) {before after : List Act} (htrace : trace = before ++ .schedule k :: after) :
    .dispatch k ∈ before ∧ .touch k ∉ after := by
  obtain ⟨b, a, rfl, hb, ha, hdispatch, htouch⟩ := h
  obtain ⟨rfl, -, rfl⟩ := (append_cons_inj_of_notMem hb ha).1 htrace
  exact ⟨hdispatch, htouch⟩

end Trace

namespace State

variable {s s' : State} {k : ℕ}

/-! ## Events that concern no caller -/

/-- the calls are left alone and only uses of contexts are logged -/
def Quietly (s s' : State) : Prop := s'.call = s.call ∧ ∃ acts, s'.trace = s.trace ++ acts ∧ ∀ a ∈ acts, a.caller = none

theorem Quietly.of_eq (hcall : s'.call = s.call) (htrace : s'.trace = s.trace) : Quietly s s' :=
  ⟨hcall, [], by rw [htrace, append_nil], nofun⟩

theorem Quietly.acts (h : Quietly s s') (k : ℕ) :
    ∃ acts, s'.trace = s.trace ++ acts ∧ ∀ a ∈ acts, a.caller ≠ some k := by
  obtain ⟨-, acts, htrace, hacts⟩ := h
  exact ⟨acts, htrace, fun a ha => by rw [hacts a ha]; exact nofun⟩

theorem quietly_use (s : State) : Quietly s s.use := ⟨rfl, _, rfl, by simp [Act.caller]⟩

theorem quietly_pinit (s : State) (r : Connect) : Quietly s (s.pinit r) := by
  unfold pinit
  split_ifs
  · exact .of_eq rfl rfl
  · cases r with
    | null | err => exact .of_eq rfl rfl
    | ok => exact ⟨rfl, _, rfl, by simp [Act.caller]⟩

theorem quietly_connectCb (s : State) (passwd ok : Bool) : Quietly s (s.connectCb passwd ok) := by
  unfold connectCb
  split_ifs
  · exact ⟨rfl, _, rfl, by simp [Act.caller]⟩
  all_goals exact .of_eq rfl rfl

/-! ## The state of a call and the trace of its caller -/

/-- a timer that fires sets `timeout` and is not added again; only a reply deletes a `Ctx` -/
def Agrees (k : ℕ) : Call → List Act → Prop
  | .idle, trace => Asleep k trace ∧ .dispatch k ∉ trace
  | .dispatched _, trace => Sent k trace
  | .allocated ctx, trace => if ctx.timeout then Woken k trace ∧ ctx.armed = false else Sent k trace ∧ ctx.armed = true
  | .closed ctx, trace => Woken k trace ∧ (ctx ≠ none → .reply k ∈ trace)

def Waits (s : State) (k : ℕ) : Prop := Agrees k (s.call k) s.trace

variable {trace acts : List Act}

theorem Agrees.append {call : Call} (h : Agrees k call trace) (hacts : ∀ a ∈ acts, a.caller ≠ some k) :
    Agrees k call (trace ++ acts) := by
  have hschedule : .schedule k ∉ acts := notMem_of_caller rfl hacts
  have htimeout : .timeout k ∉ acts := notMem_of_caller rfl hacts
  have hreply : .reply k ∉ acts := notMem_of_caller rfl hacts
  have hwoken : Woken k trace → Woken k (trace ++ acts) := fun hw => hw.append hschedule (notMem_of_caller rfl hacts)
  cases call with
  | idle =>
    have hdispatch : .dispatch k ∉ acts := notMem_of_caller rfl hacts
    exact ⟨h.1.append hschedule htimeout hreply, by simp [h.2, hdispatch]⟩
  | dispatched cmd => exact Sent.append h hschedule htimeout hreply
  | allocated ctx =>
    rw [Agrees] at h ⊢
    split_ifs at h ⊢
    · exact ⟨hwoken h.1, h.2⟩
    · exact ⟨h.1.append hschedule htimeout hreply, h.2⟩
  | closed ctx => exact ⟨hwoken h.1, fun hctx => mem_append_left _ (h.2 hctx)⟩

theorem Waits.frame (h : s.Waits k) (hcall : s'.call k = s.call k) (htrace : s'.trace = s.trace ++ acts)
    (hacts : ∀ a ∈ acts, a.caller ≠ some k) : s'.Waits k := by
  unfold Waits
  rw [hcall, htrace]
  exact Agrees.append h hacts

theorem waits_setCall {call : Call} : (s.setCall k call).Waits k ↔ Agrees k call s.trace := by
  change Agrees k (Function.update s.call k call k) s.trace ↔ _
  rw [Function.update_self]

theorem Waits.quietly (h : s.Waits k) (hq : Quietly s s') : s'.Waits k := by
  obtain ⟨acts, htrace, hacts⟩ := hq.acts k
  exact h.frame (by rw [hq.1]) htrace hacts

theorem Waits.log (h : s.Waits k) (hacts : ∀ a ∈ acts, a.caller ≠ some k) : (s.log acts).Waits k :=
  h.frame rfl rfl hacts

theorem Waits.setCall (h : s.Waits k) {j : ℕ} (hj : k ≠ j) (call : Call) : (s.setCall j call).Waits k :=
  have htrace : (s.setCall j call).trace = s.trace ++ [] := (append_nil _).symm
  h.frame (Function.update_of_ne hj _ _) htrace nofun

/-! ## Events of a caller -/

theorem sent_quietly (h : Sent k s.trace) (hq : Quietly s s') : Sent k s'.trace := by
  obtain ⟨acts, htrace, hacts⟩ := hq.acts k
  rw [htrace]
  exact h.append (notMem_of_caller rfl hacts) (notMem_of_caller rfl hacts) (notMem_of_caller rfl hacts)

theorem waits_pcmd {cmd : List UInt8} (h : Sent k s.trace) (r : Connect) (cb : Callback) :
    (s.pcmd k cmd r cb).Waits k := by
  have htouch : Sent k (s.log [.touch k]).trace := h.append (by simp) (by simp) (by simp)
  unfold State.pcmd
  split_ifs
  · rw [waits_setCall]
    exact ⟨(sent_quietly htouch (quietly_pinit _ r)).wake (show Act.schedule k ∉ [.touch k] by simp), nofun⟩
  · rw [waits_setCall]
    exact ⟨htouch, rfl⟩
  · rw [waits_setCall]
    exact ⟨sent_quietly htouch (quietly_use _), rfl⟩

theorem wake_after (h : Sent k trace) (a : Act) (ha : a ≠ .schedule k) (hacts : .schedule k ∉ acts) :
    Woken k (trace ++ [a] ++ (acts ++ [.schedule k])) := by
  rw [append_assoc, ← append_assoc [a]]
  refine h.wake ?_
  simp [hacts, Ne.symm ha]

section

variable (h : s.Waits k)
include h

theorem waits_reply {ctx : Ctx} (hcall : s.call k = .allocated ctx) (r : Reply) :
    ((s.log [.reply k]).cmdCb k ctx r).Waits k := by
  rw [Waits, hcall, Agrees] at h
  have hreply {acts : List Act} : Act.reply k ∈ (s.log [.reply k]).trace ++ acts := by simp [State.log]
  unfold State.cmdCb
  split_ifs at h ⊢
  · rw [waits_setCall]
    exact ⟨h.1.append (by simp) (by simp), fun _ => by simp [State.log]⟩
  cases r with
  | err | null | error =>
    rw [waits_setCall]
    exact ⟨wake_after h.1 (.reply k) nofun (show Act.schedule k ∉ [.touch k] by simp), fun _ => hreply⟩
  | value =>
    rw [waits_setCall]
    exact ⟨wake_after h.1 (.reply k) nofun (show Act.schedule k ∉ [.touch k, .touch k] by simp), fun _ => hreply⟩

theorem waits_timeout {ctx : Ctx} (hcall : s.call k = .allocated ctx) (harmed : ctx.armed = true) :
    ((s.log [.timeout k]).eventCb k ctx).Waits k := by
  rw [Waits, hcall, Agrees] at h
  unfold State.eventCb
  rw [waits_setCall]
  split_ifs at h
  · rw [h.2] at harmed
    cases harmed
  · exact ⟨wake_after h.1 (.timeout k) nofun (show Act.schedule k ∉ [.touch k] by simp), rfl⟩

/-! ## Every event -/

/-- hiredis does not call the callback of a command again -/
def Once (s : State) : Event → Prop
  | .reply k _ => .reply k ∉ s.trace
  | _ => True

instance (s : State) : (e : Event) → Decidable (s.Once e)
  | .reply k _ => inferInstanceAs (Decidable (Act.reply k ∉ s.trace))
  | .cmd _ _ | .pcmd _ _ _ | .pinit _ | .connect _ _ | .disconnect _ | .timer | .timeout _ =>
    inferInstanceAs (Decidable True)

theorem pcmd_frame {j : ℕ} (hj : k ≠ j) (cmd : List UInt8) (r : Connect) (cb : Callback) :
    (s.pcmd j cmd r cb).Waits k := by
  have htouch : (s.log [.touch j]).Waits k := h.log (by simp [Act.caller, Ne.symm hj])
  unfold State.pcmd
  split_ifs
  · exact ((htouch.quietly (quietly_pinit _ r)).log (by simp [Act.caller, Ne.symm hj])).setCall hj _
  · exact htouch.setCall hj _
  · exact (htouch.quietly (quietly_use _)).setCall hj _

theorem cmdCb_frame {j : ℕ} (hj : k ≠ j) (ctx : Ctx) (r : Reply) : (s.cmdCb j ctx r).Waits k := by
  unfold State.cmdCb
  split_ifs
  · exact h.setCall hj _
  · cases r with
    | err | null | error | value => exact (h.log (by simp [Act.caller, Ne.symm hj])).setCall hj _

theorem Waits.steps {passwd : Bool} {e : Event} (honce : s.Once e) (hsteps : Steps passwd s e s') : s'.Waits k := by
  cases hsteps with
  | ignored => exact h
  | cmd j command hcall =>
    by_cases hj : k = j
    · subst hj
      rw [Waits, hcall] at h
      rw [waits_setCall]
      exact ⟨h.1.append (by simp) (by simp) (by simp), mem_append_right _ (mem_singleton_self _)⟩
    · exact (h.log (by simp [Act.caller, Ne.symm hj])).setCall hj _
  | pcmd j cmd r cb hcall =>
    by_cases hj : k = j
    · subst hj
      rw [Waits, hcall] at h
      exact waits_pcmd h r cb
    · exact pcmd_frame h hj cmd r cb
  | pinit r => exact h.quietly (quietly_pinit s r)
  | connected c _ => exact h.quietly (quietly_connectCb s passwd true)
  | failed c _ => exact (h.quietly (quietly_connectCb s passwd false)).quietly (.of_eq rfl rfl)
  | disconnect c _ => exact h.quietly (.of_eq rfl rfl)
  | timer _ => exact h.quietly (quietly_use s)
  | reply j ctx r hcall _ =>
    by_cases hj : k = j
    · subst hj
      exact waits_reply h hcall r
    · exact cmdCb_frame (h.log (by simp [Act.caller, Ne.symm hj])) hj ctx r
  | freed j ctx r hcall _ =>
    by_cases hj : k = j
    · subst hj
      rw [Waits, hcall] at h
      exact absurd (h.2 nofun) honce
    · exact cmdCb_frame (h.log (by simp [Act.caller, Ne.symm hj])) hj ctx r
  | timeout j ctx hcall harmed =>
    by_cases hj : k = j
    · subst hj
      exact waits_timeout h hcall harmed
    · have hlog : (s.log [.timeout j]).Waits k := h.log (by simp [Act.caller, Ne.symm hj])
      exact (hlog.log (by simp [Act.caller, Ne.symm hj])).setCall hj _

end

theorem waits_step (passwd : Bool) (s : State) (e : Event) (honce : s.Once e) (h : s.Waits k) :
    (s.step passwd e).Waits k :=
  h.steps honce (step_steps passwd s e)

theorem waits_init (k : ℕ) : init.Waits k := ⟨⟨nofun, nofun, nofun⟩, nofun⟩

theorem Agrees.cases {call : Call} (h : Agrees k call trace) : Woken k trace ∨ Asleep k trace := by
  cases call with
  | idle | dispatched cmd => exact .inr h.1
  | allocated ctx =>
    rw [Agrees] at h
    split_ifs at h
    · exact .inl h.1
    · exact .inr h.1.1
  | closed ctx => exact .inl h.1

theorem ran_setCall {j : ℕ} {call : Call} (hcall : call.ran) (h : j = k ∨ (s.call k).ran) :
    ((s.setCall j call).call k).ran := by
  change (Function.update s.call j call k).ran
  by_cases hj : k = j
  · subst hj
    rwa [Function.update_self]
  · rw [Function.update_of_ne hj]
    exact h.resolve_left (Ne.symm hj)

theorem ran_pcmd {j : ℕ} (cmd : List UInt8) (r : Connect) (cb : Callback) (h : j = k ∨ (s.call k).ran) :
    ((s.pcmd j cmd r cb).call k).ran := by
  unfold State.pcmd
  split_ifs
  · exact ran_setCall trivial (h.imp_right fun hr => (quietly_pinit (s.log [.touch j]) r).1.symm ▸ hr)
  · exact ran_setCall trivial h
  · exact ran_setCall trivial h

theorem ran_cmdCb {j : ℕ} (ctx : Ctx) (r : Reply) (h : (s.call k).ran) : ((s.cmdCb j ctx r).call k).ran := by
  unfold State.cmdCb
  split_ifs
  · exact ran_setCall trivial (.inr h)
  · cases r with
    | err | null | error | value => exact ran_setCall trivial (.inr h)

theorem ran_steps {passwd : Bool} {e : Event} (h : (s.call k).ran) (hsteps : Steps passwd s e s') :
    (s'.call k).ran := by
  cases hsteps with
  | ignored | disconnect => exact h
  | cmd j command hcall =>
    have hj : k ≠ j := by
      rintro rfl
      rw [hcall] at h
      exact h
    change (Function.update s.call j (.dispatched command) k).ran
    rwa [Function.update_of_ne hj]
  | pcmd j cmd r cb _ => exact ran_pcmd cmd r cb (.inr h)
  | pinit r => exact (quietly_pinit s r).1.symm ▸ h
  | connected c _ => exact (quietly_connectCb s passwd true).1.symm ▸ h
  | failed c _ => exact (quietly_connectCb s passwd false).1.symm ▸ h
  | timer _ => exact (quietly_use s).1.symm ▸ h
  | reply j ctx r _ _ | freed j ctx r _ _ => exact ran_cmdCb (s := s.log _) ctx r h
  | timeout j ctx _ _ => exact ran_setCall trivial (.inr h)

theorem ran_of_dispatched (passwd : Bool) (h : s.Waits k) (hdispatch : .dispatch k ∈ s.trace) (r : Connect)
    (cb : Callback) : ((s.step passwd (.pcmd k r cb)).call k).ran := by
  cases hcall : s.call k with
  | idle =>
    rw [Waits, hcall] at h
    exact absurd hdispatch h.2
  | dispatched cmd =>
    simp only [step, hcall]
    exact ran_pcmd cmd r cb (.inl rfl)
  | allocated ctx | closed ctx => simp [step, hcall, Call.ran]

/-- **Callers.** In every sequence of events in which no command is answered twice, a caller of `cmd` is scheduled at
most once; exactly once if its timer has fired or its reply has come. Once it is dispatched and the event of its `pcmd`
has come, it has been scheduled, or its timer is armed. It is scheduled after its dispatch, and no callback touches its
`FCtx` afterwards. -/
theorem scheduled_once (passwd : Bool) (events : List Event) (k : ℕ) (hevents : Meets (step passwd) Once init events) :
    let s := run (step passwd) init events
    s.trace.count (.schedule k) ≤ 1 ∧
      (.timeout k ∈ s.trace ∨ .reply k ∈ s.trace → s.trace.count (.schedule k) = 1) ∧
      (∀ before r cb after, events = before ++ .pcmd k r cb :: after →
        .dispatch k ∈ (run (step passwd) init before).trace →
        s.trace.count (.schedule k) = 1 ∨ ∃ ctx, s.call k = .allocated ctx ∧ ctx.armed = true) ∧
      ∀ before after, s.trace = before ++ .schedule k :: after → .dispatch k ∈ before ∧ .touch k ∉ after := by
  intro s
  have h : s.Waits k := run_inv (fun s e honce h => waits_step passwd s e honce h) hevents (waits_init k)
  refine ⟨?_, ?_, ?_, ?_⟩
  · rcases h.cases with hwoken | hasleep
    · exact hwoken.count.le
    · rw [count_eq_zero.2 hasleep.1]
      exact Nat.zero_le 1
  · intro hdone
    rcases h.cases with hwoken | hasleep
    · exact hwoken.count
    rcases hdone with htimeout | hreply
    · exact absurd htimeout hasleep.2.1
    · exact absurd hreply hasleep.2.2
  · rintro before r cb after rfl hdispatch
    have hbefore := run_inv (fun s e honce h => waits_step passwd s e honce h)
      ((meets_append _ _ _ _ _).1 hevents).1 (waits_init k)
    have hran : (s.call k).ran := by
      rw [show s = _ from run_append ..]
      exact run_inv_of_step (I := fun s => (s.call k).ran) (fun s e hr => ran_steps hr (step_steps passwd s e)) _ after
        (ran_of_dispatched passwd hbefore hdispatch r cb)
    unfold Waits at h
    cases hcall : s.call k with
    | idle | dispatched => simp [hcall, Call.ran] at hran
    | closed ctx =>
      rw [hcall] at h
      exact .inl h.1.count
    | allocated ctx =>
      rw [hcall, Agrees] at h
      split_ifs at h
      · exact .inl h.1.count
      · exact .inr ⟨ctx, rfl, h.2⟩
  · intro before after htrace
    rcases h.cases with hwoken | hasleep
    · exact hwoken.cut htrace
    · exact absurd (htrace ▸ by simp) hasleep.1

/-- the timer of the command fires, and its reply comes late -/
theorem scheduled_once_late :
    let events := [.pinit .ok, .connect 0 true, .cmd 0 [1], .pcmd 0 .ok .once, .timeout 0, .reply 0 .value]
    (run (step false) init events).trace.count (.schedule 0) = 1 :=
  (scheduled_once false [.pinit .ok, .connect 0 true, .cmd 0 [1], .pcmd 0 .ok .once, .timeout 0, .reply 0 .value] 0
    (by decide)).2.1 (by decide)

/-- **A second reply.** A command whose callback hiredis keeps is answered twice: the second call works on the `Ctx`
that the first one deleted, touches the `FCtx` of a caller that was scheduled, and schedules it again. -/
theorem scheduled_again :
    (run (step false) init
      [.pinit .ok, .connect 0 true, .cmd 0 [1], .pcmd 0 .ok .kept, .reply 0 .value, .reply 0 .value]).trace =
    [.use (some 0) true, .dispatch 0, .touch 0, .use (some 0) true, .reply 0, .touch 0, .touch 0, .schedule 0, .reply 0,
      .freed 0, .touch 0, .touch 0, .schedule 0] := by
  decide

end State

end CoServer.Db.FoxRedis
