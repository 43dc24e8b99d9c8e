/-
Registrations: the bit of an event, its `EventContext`, `_pendingEventCount`, and how a registration is resolved.

The five operations change the books in two ways only: `register` (a successful `addEvent`) and `release` (a bit taken
back). The section lemmas (`addSection_ok`, ..) say which of these a section does, and the invariant `Books` is kept by
both.

Results:
- `registrations_consistent`: after every run of any number of threads, with `epoll_ctl` failing at will,
  `_pendingEventCount` is the number of registered bits, an `EventContext` is non-empty exactly when its bit is set, and
  every successful `addEvent` is resolved at most once, by one scheduling of its fiber or callback or by a `delEvent`.
-/
import CoServer.Core.Update
import CoServer.IOManager.Machine

namespace CoServer.IOManager

open CoServer.Core Function List Mask FdContext
open Scheduler (Task FiberState decCount)

/-! ## Bits and contexts -/

variable {s s' : St} {fd p q t : ℕ} {e e' : Event} {m : Mask} {ok : Bool} {x y : EventContext} {a : AddArgs}

theorem Mask.card_add (he : e ≠ .none) (h : m.has e = false) : (m.add e).card = m.card + 1 := by
  cases e <;> (simp_all [has, add, card]; try omega)

theorem Mask.card_remove (h : m.has e = true) : (m.remove e).card + 1 = m.card := by
  cases e <;> (simp_all [has, remove, card]; try omega)

theorem Mask.has_add (he : e ≠ .none) : (m.add e).has e' = (m.has e' || decide (e' = e)) := by
  cases e <;> cases e' <;> simp_all [has, add]

theorem Mask.has_remove : (m.remove e).has e' = (m.has e' && !decide (e' = e)) := by
  cases e <;> cases e' <;> simp [has, remove]

variable (c : FdContext)

section

variable (e : Event)

@[simp] theorem FdContext.setContext_events (x : EventContext) :
    (c.setContext e x).events = c.events := by cases e <;> rfl

@[simp] theorem FdContext.setContext_fd (x : EventContext) : (c.setContext e x).fd = c.fd :=
  by cases e <;> rfl

/-- a context with new bits and a new content of event `e` -/
def FdContext.assign (m : Mask) (y : EventContext) : FdContext :=
  { c with events := m }.setContext e y

@[simp] theorem FdContext.assign_events (m : Mask) (y : EventContext) :
    (c.assign e m y).events = m := setContext_events _ e y

@[simp] theorem FdContext.assign_fd (m : Mask) (y : EventContext) :
    (c.assign e m y).fd = c.fd := setContext_fd _ e y

end

theorem FdContext.getContext_assign (e e' : Event) (m : Mask) (y : EventContext) :
    (c.assign e m y).getContext e' = if e' = e ∧ e ≠ .none then some y else c.getContext e' := by
  cases e <;> cases e' <;> simp [getContext, setContext, assign]

/-! ## The two changes of the books -/

/-- the bit `e` of the context at `p` is taken back with outcome `o` -/
def release (s : St) (p : ℕ) (e : Event) (x : EventContext) (o : Outcome) : St :=
  decPending { s with
    ctxs := update s.ctxs p ((s.ctxs p).assign e ((s.ctxs p).events.remove e) {})
    resolved := s.resolved ++ resolve x o }

/-- the bit is set, and the context of the event holds `x` -/
def Releasable (s : St) (p : ℕ) (e : Event) (x : EventContext) : Prop :=
  (s.ctxs p).events.has e = true ∧ (s.ctxs p).getContext e = some x

/-- a scheduled registration is scheduled with its own fiber or callback, on its own scheduler -/
def Registration.Allows (g : Registration) : Outcome → Prop
  | .dropped => True
  | .scheduled sch task => g.scheduler = some sch ∧ g.task = task

/-- the thread whose call an operation moves -/
def Op.thread : Op → Option ℕ
  | .call t _ _ | .resize t | .enter t _ => some t
  | .wait .. | .deliver .. | .close _ => none

theorem triggerIf_ok {b : Bool} (h : triggerIf b s p e = .ok s') :
    (b = false ∧ s' = s) ∨ ∃ x o, b = true ∧ Releasable s p e x ∧ Registration.Allows ⟨p, e, x.scheduler, x.task⟩ o ∧
      s' = release s p e x o := by
  unfold triggerIf at h
  cases b with
  | false => left; cases h; exact ⟨rfl, rfl⟩
  | true =>
    right
    rw [if_pos rfl] at h
    unfold triggerEvent at h
    by_cases hh : (s.ctxs p).events.has e = false
    · rw [if_pos hh] at h; cases h
    rw [if_neg hh] at h
    split at h
    · cases h
    rename_i x hx
    split at h
    · cases h
    · rename_i sch hsch
      cases h
      exact ⟨x, .scheduled sch x.task, rfl, ⟨by simpa using hh, hx⟩, ⟨hsch, rfl⟩, rfl⟩

/-- two triggers in a row, each optional -/
def Triggers (s : St) (p : ℕ) (br bw : Bool) (s' : St) : Prop :=
  ∃ s1, triggerIf br s p .read = .ok s1 ∧ triggerIf bw s1 p .write = .ok s'

/-- a relation that every release makes holds between the ends -/
@[elab_as_elim]
theorem Triggers.induct {R : St → St → Prop} {br bw : Bool} (h : Triggers s p br bw s') (hrefl : ∀ s, R s s)
    (htrans : ∀ {s1 s2 s3}, R s1 s2 → R s2 s3 → R s1 s3) (hone : ∀ s e x o, Releasable s p e x →
      Registration.Allows ⟨p, e, x.scheduler, x.task⟩ o → R s (release s p e x o)) : R s s' := by
  have htrigger : ∀ {b : Bool} {s s' : St} {e : Event}, triggerIf b s p e = .ok s' → R s s' := by
    intro b s s' e h
    rcases triggerIf_ok h with ⟨-, rfl⟩ | ⟨x, o, -, hx, ho, rfl⟩
    · exact hrefl s'
    · exact hone s e x o hx ho
  obtain ⟨s1, h1, h2⟩ := h
  exact htrans (htrigger h1) (htrigger h2)

/-- `epoll_ctl` has taken the bits `m` of the context at `p` for the fd -/
def Told (s : St) (fd p : ℕ) (m : Mask) (kernel : ℕ → Option Interest) : Prop :=
  ∃ op ok, epollCtl s.kernel op fd ⟨p, m⟩ ok = some kernel

variable {kernel : ℕ → Option Interest} {r : Request}

/-- what the section of a request does if no assertion fails -/
inductive Locked (s : St) (t fd p : ℕ) : Request → St → Prop
  | failed {r : Request} : Locked s t fd p r (s.ret t false)
  | add {a : AddArgs} {kernel : ℕ → Option Interest} (hb : (s.ctxs p).events.has a.event = false) (he : a.event ≠ .none)
      (hk : Told s fd p ((s.ctxs p).events.add a.event) kernel) :
      Locked s t fd p (.add a) ((register s p a kernel).ret t true)
  | release {r : Request} {e : Event} {x : EventContext} {o : Outcome} {kernel : ℕ → Option Interest}
      (hr : r = .del e ∨ r = .cancel e) (hk : Told s fd p ((s.ctxs p).events.remove e) kernel)
      (hx : Releasable { s with kernel := kernel } p e x)
      (ho : Registration.Allows ⟨p, e, x.scheduler, x.task⟩ o) :
        Locked s t fd p r ((release { s with kernel := kernel } p e x o).ret t true)
  | all {s' : St} {br bw : Bool} {kernel : ℕ → Option Interest} (hk : Told s fd p .empty kernel)
      (ht : Triggers { s with kernel := kernel } p br bw s') (he : (s'.ctxs p).events.isEmpty = true) :
      Locked s t fd p .cancelAll (s'.ret t true)

theorem section_cases {c : Prop} {_ : Decidable c} {s₀ : St} {x : Option (ℕ → Option Interest)}
    {f : (ℕ → Option Interest) → Except Abort St}
    (h : (if c then Except.ok s₀ else match x with | none => .ok s₀ | some kernel => f kernel) = .ok s') :
    s' = s₀ ∨ ¬ c ∧ ∃ kernel, x = some kernel ∧ f kernel = .ok s' := by
  split_ifs at h with hc
  · cases h; exact .inl rfl
  split at h
  · cases h; exact .inl rfl
  · exact .inr ⟨hc, _, rfl, h⟩

theorem bind_ok {x : Except Abort St} {f : St → Except Abort St} (h : x >>= f = .ok s') :
    ∃ s1, x = .ok s1 ∧ f s1 = .ok s' := by
  cases x with
  | error a => cases h
  | ok s1 => exact ⟨s1, rfl, h⟩

theorem requestSection_ok (h : requestSection s t fd p ok r = .ok s') : Locked s t fd p r s' := by
  cases r with
  | add a =>
    simp only [requestSection, addSection] at h
    by_cases hb : (s.ctxs p).events.has a.event = true
    · rw [if_pos hb] at h; cases h
    rw [if_neg hb] at h
    split at h
    · cases h; exact .failed
    rename_i kernel hk
    split at h
    · cases h
    rename_i x hx
    split_ifs at h
    cases h
    have hn : a.event ≠ .none := by rintro hn; simp [hn, getContext] at hx
    exact .add (by simpa using hb) hn ⟨_, _, hk⟩
  | del e =>
    rcases section_cases h with rfl | ⟨hb, kernel, hk, h⟩
    · exact .failed
    split at h
    · cases h
    · rename_i x hx
      cases h
      exact .release (o := .dropped) (.inl rfl) ⟨_, _, hk⟩ ⟨by simpa using hb, hx⟩ trivial
  | cancel e =>
    rcases section_cases h with rfl | ⟨-, kernel, hk, h⟩
    · exact .failed
    obtain ⟨s1, ht, h⟩ := bind_ok h
    cases h
    rcases triggerIf_ok ht with ⟨hb, -⟩ | ⟨x, o, -, hx, ho, rfl⟩
    · cases hb
    · exact .release (.inr rfl) ⟨_, _, hk⟩ hx ho
  | cancelAll =>
    rcases section_cases h with rfl | ⟨-, kernel, hk, h⟩
    · exact .failed
    obtain ⟨s1, hr, h⟩ := bind_ok h
    obtain ⟨s2, hw, h⟩ := bind_ok h
    split_ifs at h with he
    cases h
    exact .all ⟨_, _, hk⟩ ⟨s1, hr, hw⟩ he

/-- what a step does -/
inductive Moves (s : St) : Op → St → Prop
  | same {o : Op} : Moves s o s
  | abort {o : Op} (a : Abort) : Moves s o { s with aborted := some a }
  | call (t : ℕ) (r : Request) (fd : ℕ) :
      Moves s (.call t r fd) { s with calls := update s.calls t (afterLookup s r fd) }
  | resize {t fd p : ℕ} {a : AddArgs} (hc : s.calls t = .resize fd a)
      (hp : (contextResize s (resizeTo fd)).vec[fd]? = some p) :
      Moves s (.resize t) { contextResize s (resizeTo fd) with calls := update s.calls t (.found (.add a) fd p) }
  | enter {t fd p : ℕ} {ok : Bool} {r : Request} {s' : St} (hc : s.calls t = .found r fd p)
      (hs : requestSection s t fd p ok r = .ok s') : Moves s (.enter t ok) s'
  /-- `epoll_wait`, or the delivery of a report passed over -/
  | reports {o : Op} (ho : o.thread = none) (t : ℕ) (rs : List Report) :
      Moves s o { s with reports := update s.reports t rs }
  | deliver {t : ℕ} {ok : Bool} {r : Report} {rs : List Report} {m : Mask} {kernel : ℕ → Option Interest} {s' : St}
      (hm : m = realEvents r (s.ctxs r.ptr).events) (hne : ((s.ctxs r.ptr).events.inter m).isEmpty = false)
      (hk : Told s (s.ctxs r.ptr).fd r.ptr ((s.ctxs r.ptr).events.diff m) kernel)
      (ht : Triggers { s with reports := update s.reports t rs, kernel := kernel } r.ptr m.read m.write s') :
        Moves s (.deliver t ok) s'
  | close (fd : ℕ) : Moves s (.close fd) { s with kernel := update s.kernel fd none }

theorem Moves.commit {o : Op} {r : Except Abort St} (h : ∀ s', r = .ok s' → Moves s o s') : Moves s o (s.commit r) := by
  cases r with
  | ok s' => exact h s' rfl
  | error a => exact .abort a

theorem step_moves (s : St) (o : Op) : Moves s o (step s o) := by
  unfold step
  split_ifs
  · exact .same
  cases o with
  | call t r fd => exact inv_ite .same fun _ => .call t r fd
  | resize t =>
    simp only [stepLive]
    split
    · rename_i fd a hc
      refine .commit fun s' hs => ?_
      simp only [resizeSection] at hs
      split at hs
      · rename_i p hp; cases hs; exact .resize hc hp
      · cases hs
    · exact .same
  | enter t ok =>
    simp only [stepLive]
    split
    · rename_i r fd p hc
      exact .commit fun s' hs => .enter hc hs
    · exact .same
  | wait t evs => exact inv_ite .same fun _ => .reports rfl t _
  | deliver t ok =>
    simp only [stepLive]
    split
    · exact .same
    refine .commit fun s' hs => ?_
    rcases section_cases hs with rfl | ⟨hne, kernel, hk, hs⟩
    · exact .reports rfl t _
    obtain ⟨s1, hr, hw⟩ := bind_ok hs
    exact .deliver rfl (by simpa using hne) ⟨_, _, hk⟩ ⟨s1, hr, hw⟩
  | close fd => exact .close fd

/-! ## The invariant -/

structure Books (s : St) : Prop where
  pending : s.pending = ∑ p ∈ Finset.range s.nextCtx, (s.ctxs p).events.card
  slot : ∀ p e x, (s.ctxs p).getContext e = some x →
    x.nonempty = (s.ctxs p).events.has e ∧ x.ticket.isSome = (s.ctxs p).events.has e
  fresh : ∀ p, s.nextCtx ≤ p → (s.ctxs p).events = .empty
  /-- the ticket in a context is that of an unresolved registration of this very event -/
  live : ∀ p e x k, (s.ctxs p).getContext e = some x → x.ticket = some k →
    k ∉ s.resolved.map Prod.fst ∧ s.registered[k]? = some ⟨p, e, x.scheduler, x.task⟩
  once : (s.resolved.map Prod.fst).Nodup
  outcome : ∀ y ∈ s.resolved, ∃ g, s.registered[y.1]? = some g ∧ g.Allows y.2
  /-- an unresolved registration is still held by its context -/
  pendingTicket : ∀ k < s.registered.length, k ∈ s.resolved.map Prod.fst ∨
    ∃ p e x, (s.ctxs p).getContext e = some x ∧ x.ticket = some k
  vec : ∀ p ∈ s.vec, p < s.nextCtx
  held : ∀ t r fd p, s.calls t = .found r fd p → p < s.nextCtx

theorem Books.of_same (h : Books s) {calls : ℕ → Call} {reports : ℕ → List Report} {aborted : Option Abort}
    (hc : ∀ t r fd p, calls t = .found r fd p → p < s.nextCtx) :
    Books { s with calls := calls, kernel := kernel, reports := reports, aborted := aborted } :=
  ⟨h.pending, h.slot, h.fresh, h.live, h.once, h.outcome, h.pendingTicket, h.vec, hc⟩

theorem Books.ptr_lt (h : Books s) (hb : (s.ctxs p).events.has e = true) : p < s.nextCtx := by
  by_contra hlt
  rw [h.fresh p (by omega)] at hb
  cases e <;> cases hb

theorem getContext_update (he : e ≠ .none) (h : (update s.ctxs p ((s.ctxs p).assign e m y) q).getContext e' = some x) :
    (q = p ∧ e' = e ∧ x = y) ∨ ((q ≠ p ∨ e' ≠ e) ∧ (s.ctxs q).getContext e' = some x) := by
  by_cases hq : q = p
  · subst hq
    rw [update_self, getContext_assign] at h
    by_cases hee : e' = e
    · rw [if_pos ⟨hee, he⟩] at h
      exact .inl ⟨rfl, hee, (Option.some.inj h).symm⟩
    · rw [if_neg (fun hc => hee hc.1)] at h
      exact .inr ⟨.inr hee, h⟩
  · rw [update_of_ne hq] at h
    exact .inr ⟨.inl hq, h⟩

theorem getContext_update_of_ne (hne : q ≠ p ∨ e' ≠ e) (h : (s.ctxs q).getContext e' = some x) :
    (update s.ctxs p ((s.ctxs p).assign e m y) q).getContext e' = some x := by
  by_cases hq : q = p
  · subst hq
    have hee : e' ≠ e := hne.resolve_left (by simp)
    rw [update_self, getContext_assign, if_neg (fun hc => hee hc.1)]
    exact h
  · rw [update_of_ne hq]; exact h

theorem events_update :
    (update s.ctxs p ((s.ctxs p).assign e m y) q).events = if q = p then m else (s.ctxs q).events := by
  by_cases hq : q = p
  · subst hq; simp
  · simp [hq]

theorem Books.ticket (h : Books s) (hx : Releasable s p e x) : ∃ k, x.ticket = some k := by
  have := (h.slot p e x hx.2).2
  rw [hx.1] at this
  exact Option.isSome_iff_exists.1 this

theorem Releasable.ne_none (hx : Releasable s p e x) : e ≠ .none := by
  rintro rfl
  simp [Releasable, has] at hx

theorem Books.slot_assign (h : Books s) (he : e ≠ .none)
    (hm : ∀ e', e' ≠ e → m.has e' = (s.ctxs p).events.has e') (hy : y.nonempty = m.has e ∧ y.ticket.isSome = m.has e)
    (hx : (update s.ctxs p ((s.ctxs p).assign e m y) q).getContext e' = some x) :
    x.nonempty = (update s.ctxs p ((s.ctxs p).assign e m y) q).events.has e' ∧
      x.ticket.isSome = (update s.ctxs p ((s.ctxs p).assign e m y) q).events.has e' := by
  rw [events_update]
  rcases getContext_update he hx with ⟨rfl, rfl, rfl⟩ | ⟨hne, hold⟩
  · rw [if_pos rfl]
    exact hy
  by_cases hq : q = p
  · subst hq
    rw [if_pos rfl, hm e' (hne.resolve_left fun hn => hn rfl)]
    exact h.slot q e' x hold
  · rw [if_neg hq]
    exact h.slot q e' x hold

theorem Books.fresh_assign (h : Books s) (hlt : p < s.nextCtx)
    (hq : s.nextCtx ≤ q) : (update s.ctxs p ((s.ctxs p).assign e m y) q).events = .empty := by
  rw [events_update, if_neg (by omega)]
  exact h.fresh q hq

theorem card_assign (hlt : p < s.nextCtx) (e : Event) (m : Mask) (y : EventContext) :
    ∑ q ∈ Finset.range s.nextCtx, (update s.ctxs p ((s.ctxs p).assign e m y) q).events.card +
      (s.ctxs p).events.card = ∑ q ∈ Finset.range s.nextCtx, (s.ctxs q).events.card + m.card := by
  have hsum := sum_range_update (fun _ (c : FdContext) => c.events.card) s.ctxs hlt ((s.ctxs p).assign e m y)
  simpa only [assign_events] using hsum

theorem Books.release (h : Books s) {o : Outcome} (hx : Releasable s p e x)
    (ho : Registration.Allows ⟨p, e, x.scheduler, x.task⟩ o) : Books (release s p e x o) := by
  obtain ⟨k, hk⟩ := h.ticket hx
  obtain ⟨hkres, hkreg⟩ := h.live p e x k hx.2 hk
  have hlt := h.ptr_lt hx.1
  have he := hx.ne_none
  have hlog : resolve x o = [(k, o)] := by simp [resolve, hk]
  -- another context never holds the ticket that is resolved here
  have hother : ∀ q e' x' k', (q ≠ p ∨ e' ≠ e) → (s.ctxs q).getContext e' = some x' → x'.ticket = some k' → k' ≠ k := by
    rintro q e' x' k' hne hx' hk' rfl
    have := (h.live q e' x' k' hx' hk').2
    rw [hkreg] at this
    simp only [Option.some.injEq, Registration.mk.injEq] at this
    obtain ⟨rfl, rfl, -⟩ := this
    simp at hne
  have hkey : (s.resolved ++ resolve x o).map Prod.fst = s.resolved.map Prod.fst ++ [k] := by simp [hlog]
  refine ⟨?_, fun q e' x' hx' => ?_, fun q hq => h.fresh_assign hlt hq, ?_, ?_, ?_, ?_, h.vec, h.held⟩
  · have hsum := card_assign hlt e ((s.ctxs p).events.remove e) {}
    have hcard := card_remove hx.1
    have hpend := h.pending
    show decCount s.pending = ∑ q ∈ Finset.range s.nextCtx, (update s.ctxs p _ q).events.card
    rw [decCount, if_neg (by omega)]
    omega
  · exact h.slot_assign he (fun e'' hee => by simp [has_remove, hee])
      (by simp [EventContext.nonempty, has_remove]) hx'
  · intro q e' x' k' hx' hk'
    show k' ∉ (s.resolved ++ resolve x o).map Prod.fst ∧ _
    rw [hkey]
    rcases getContext_update he hx' with ⟨rfl, rfl, rfl⟩ | ⟨hne, hx'⟩
    · cases hk'
    obtain ⟨h1, h2⟩ := h.live q e' x' k' hx' hk'
    refine ⟨fun hm => ?_, h2⟩
    rcases mem_append.1 hm with hm | hm
    · exact h1 hm
    · exact hother q e' x' k' hne hx' hk' (mem_singleton.1 hm)
  · show ((s.resolved ++ resolve x o).map Prod.fst).Nodup
    rw [hkey]
    exact nodup_append.2 ⟨h.once, nodup_singleton k, fun a ha b hb => by
      rw [mem_singleton.1 hb]; rintro rfl; exact hkres ha⟩
  · intro y hy
    rcases mem_append.1 hy with hy | hy
    · exact h.outcome y hy
    rw [hlog, mem_singleton] at hy
    subst hy
    exact ⟨_, hkreg, ho⟩
  · intro j hj
    show j ∈ (s.resolved ++ resolve x o).map Prod.fst ∨ _
    rw [hkey]
    rcases h.pendingTicket j hj with hr | ⟨q, e', x', hx', hk'⟩
    · exact .inl (mem_append_left _ hr)
    by_cases hne : q ≠ p ∨ e' ≠ e
    · exact .inr ⟨q, e', x', getContext_update_of_ne hne hx', hk'⟩
    obtain ⟨rfl, rfl⟩ : q = p ∧ e' = e := by simpa using hne
    obtain rfl : x' = x := Option.some.inj (hx'.symm.trans hx.2)
    obtain rfl : j = k := Option.some.inj (hk'.symm.trans hk)
    exact .inl (by simp)

theorem AddArgs.slot_ticket (a : AddArgs) (k : ℕ) :
    (a.slot k).ticket = some k ∧ (a.slot k).nonempty = true ∧ (a.slot k).scheduler = a.scheduler := by
  unfold AddArgs.slot
  split <;> simp [EventContext.nonempty]

theorem Books.register (h : Books s) (hlt : p < s.nextCtx) (hb : (s.ctxs p).events.has a.event = false)
    (he : a.event ≠ .none) (kernel : ℕ → Option Interest) : Books (register s p a kernel) := by
  obtain ⟨hk, hne, hsch⟩ := a.slot_ticket s.registered.length
  have hctx : (IOManager.register s p a kernel).ctxs = update s.ctxs p
      ((s.ctxs p).assign a.event ((s.ctxs p).events.add a.event) (a.slot s.registered.length)) := rfl
  -- the new ticket is not resolved, and the earlier ones keep their registration
  have hnew : s.registered.length ∉ s.resolved.map Prod.fst := by
    intro hm
    obtain ⟨y, hy, hyk⟩ := mem_map.1 hm
    obtain ⟨g, hg, -⟩ := h.outcome y hy
    rw [hyk] at hg
    simp at hg
  have hkeep : ∀ {k : ℕ} {g}, s.registered[k]? = some g →
      (IOManager.register s p a kernel).registered[k]? = some g := by
    intro k g hg
    exact (List.getElem?_append_left (List.getElem?_eq_some_iff.1 hg).1).trans hg
  refine ⟨?_, fun q e' x' hx' => ?_, fun q hq => h.fresh_assign hlt hq, ?_, h.once, ?_, ?_, h.vec, h.held⟩
  · have hsum := card_assign hlt a.event ((s.ctxs p).events.add a.event) (a.slot s.registered.length)
    have hcard := card_add he hb
    have hpend := h.pending
    rw [hctx]
    show s.pending + 1 = ∑ q ∈ Finset.range s.nextCtx, (update s.ctxs p _ q).events.card
    omega
  · exact h.slot_assign he (fun e'' hee => by simp [has_add he, hee]) (by simp [has_add he, hne, hk]) hx'
  · intro q e' x' k' hx' hk'
    rcases getContext_update he hx' with ⟨rfl, rfl, rfl⟩ | ⟨hneq, hold⟩
    · obtain rfl : s.registered.length = k' := Option.some.inj (hk.symm.trans hk')
      refine ⟨hnew, ?_⟩
      simp [IOManager.register, hsch]
    · obtain ⟨h1, h2⟩ := h.live q e' x' k' hold hk'
      exact ⟨h1, hkeep h2⟩
  · intro y hy
    obtain ⟨g, hg, hall⟩ := h.outcome y hy
    exact ⟨g, hkeep hg, hall⟩
  · intro j hj
    have hj' : j < s.registered.length + 1 := by simpa [IOManager.register] using hj
    rcases Nat.lt_succ_iff_lt_or_eq.1 hj' with hlt' | rfl
    · rcases h.pendingTicket j hlt' with hr | ⟨q, e', x', hx', hk'⟩
      · exact .inl hr
      -- a held ticket means a set bit, so it is not the context just filled
      have hneq : q ≠ p ∨ e' ≠ a.event := by
        by_contra hc
        obtain ⟨rfl, rfl⟩ : q = p ∧ e' = a.event := by simpa using hc
        have := (h.slot q _ x' hx').2
        rw [hb, hk'] at this
        cases this
      exact .inr ⟨q, e', x', getContext_update_of_ne hneq hx', hk'⟩
    · refine .inr ⟨p, a.event, a.slot s.registered.length, ?_, hk⟩
      rw [hctx, update_self, getContext_assign, if_pos ⟨rfl, he⟩]

theorem contextResize_ctxs_lt (s : St) (size : ℕ) (hp : p < s.nextCtx) : (contextResize s size).ctxs p = s.ctxs p := by
  simp [contextResize, not_le.2 hp]

theorem contextResize_ctxs_ge (s : St) (size : ℕ) (hp : s.nextCtx ≤ p) :
    (contextResize s size).ctxs p = { fd := (s.vec.take size).length + (p - s.nextCtx) } := by
  simp [contextResize, hp]

theorem Books.resize (h : Books s) (size : ℕ) : Books (contextResize s size) := by
  have hle : s.nextCtx ≤ (contextResize s size).nextCtx := Nat.le_add_right _ _
  have hnew : ∀ {p e x}, s.nextCtx ≤ p → ((contextResize s size).ctxs p).getContext e = some x → x = {} := by
    intro p e x hp hx
    rw [contextResize_ctxs_ge s size hp] at hx
    cases e <;> simp_all [getContext]
  -- allocated contexts are as before, fresh ones are empty
  have hget : ∀ {p e x}, ((contextResize s size).ctxs p).getContext e = some x → x.ticket ≠ none →
      (s.ctxs p).getContext e = some x := by
    intro p e x hx ht
    by_cases hp : p < s.nextCtx
    · rwa [contextResize_ctxs_lt s size hp] at hx
    · exact absurd (by rw [hnew (not_lt.1 hp) hx]) ht
  refine ⟨?_, ?_, ?_, ?_, h.once, h.outcome, ?_, ?_, ?_⟩
  · have hnext : (contextResize s size).nextCtx = s.nextCtx + (size - (s.vec.take size).length) := rfl
    rw [hnext, Finset.sum_range_add, Finset.sum_congr rfl fun p hp => by
      rw [contextResize_ctxs_lt s size (Finset.mem_range.1 hp)]]
    have hzero : ∑ i ∈ Finset.range (size - (s.vec.take size).length),
        ((contextResize s size).ctxs (s.nextCtx + i)).events.card = 0 :=
      Finset.sum_eq_zero fun i _ => by rw [contextResize_ctxs_ge s size (Nat.le_add_right _ _)]; rfl
    rw [hzero]
    exact h.pending
  · intro p e x hx
    by_cases hp : p < s.nextCtx
    · rw [contextResize_ctxs_lt s size hp] at hx ⊢; exact h.slot p e x hx
    · rw [hnew (not_lt.1 hp) hx, contextResize_ctxs_ge s size (not_lt.1 hp)]
      cases e <;> simp [EventContext.nonempty, has, empty]
  · intro p hp
    rw [contextResize_ctxs_ge s size (hle.trans hp)]
  · intro p e x k hx hk
    exact h.live p e x k (hget hx (by simp [hk])) hk
  · intro k hk
    rcases h.pendingTicket k hk with hr | ⟨p, e, x, hx, ht⟩
    · exact .inl hr
    refine .inr ⟨p, e, x, ?_, ht⟩
    by_cases hp : p < s.nextCtx
    · rwa [contextResize_ctxs_lt s size hp]
    · have := (h.slot p e x hx).2
      rw [ht, h.fresh p (not_lt.1 hp)] at this
      cases e <;> cases this
  · intro p hp
    rcases mem_append.1 hp with hp | hp
    · exact (h.vec p (mem_of_mem_take hp)).trans_le hle
    · exact (mem_range'_1.1 hp).2
  · intro t r fd p hc
    exact (h.held t r fd p hc).trans_le hle

theorem books_init : Books init := by
  apply Books.resize
  have hempty : ∀ {e x}, ({ fd := 0 } : FdContext).getContext e = some x → x = {} := by
    intro e x hx
    cases e <;> cases hx <;> rfl
  refine ⟨rfl, fun p e x hx => ?_, fun _ _ => rfl, fun p e x k hx hk => ?_, nodup_nil, by simp, by simp,
    by simp, by simp⟩
  · rw [hempty hx]
    cases e <;> exact ⟨rfl, rfl⟩
  · rw [hempty hx] at hk
    cases hk

/-! ## Every step keeps the books -/

section

variable (h : Books s)
include h

theorem Books.move {c : Call} (hc : ∀ r fd p, c = .found r fd p → p < s.nextCtx) :
    Books { s with calls := update s.calls t c } := by
  refine h.of_same fun v r fd p hv => ?_
  rcases update_cases hv with ⟨-, hv⟩ | ⟨-, hv⟩
  · exact hc r fd p hv
  · exact h.held v r fd p hv

theorem Books.ret (t : ℕ) (ok : Bool) : Books (s.ret t ok) := h.move fun r fd p hc => by cases hc

theorem Books.triggers {br bw : Bool} (ht : Triggers s p br bw s') : Books s' :=
  ht.induct (R := fun s s' => Books s → Books s') (fun _ => id) (fun h₁ h₂ => h₂ ∘ h₁)
  (fun _ _ _ _ hx ho h => h.release hx ho) h

theorem Books.request (hp : p < s.nextCtx) (hs : requestSection s t fd p ok r = .ok s') : Books s' := by
  cases requestSection_ok hs with
  | failed => exact h.ret t false
  | add hb he hk => exact (h.register hp hb he _).ret t true
  | release hr hk hx ho => exact ((h.of_same h.held).release hx ho).ret t true
  | all hk ht he => exact ((h.of_same h.held).triggers ht).ret t true

end

theorem lookup_mem (h : lookup s fd = some p) : p ∈ s.vec := by
  unfold lookup at h
  split_ifs at h
  exact mem_of_getElem? h

theorem afterLookup_found {r r' : Request} {fd' : ℕ} (h : afterLookup s r fd = .found r' fd' p) :
    fd' = fd ∧ lookup s fd = some p := by
  unfold afterLookup at h
  cases hl : lookup s fd with
  | some q =>
    rw [hl] at h
    cases h
    exact ⟨rfl, rfl⟩
  | none =>
    rw [hl] at h
    cases r <;> cases h

theorem step_books (s : St) (o : Op) (h : Books s) : Books (step s o) := by
  have hm := step_moves s o
  generalize step s o = s' at hm
  cases hm with
  | same => exact h
  | abort a | reports ho t rs | close fd => exact h.of_same h.held
  | call t r fd => exact h.move fun r' fd' p hc => h.vec p (lookup_mem (afterLookup_found hc).2)
  | @resize t fd p a hc hp =>
    have hr := h.resize (resizeTo fd)
    refine hr.move fun r' fd' q hq => ?_
    cases hq
    exact hr.vec _ (mem_of_getElem? hp)
  | enter hc hs => exact h.request (h.held _ _ _ _ hc) hs
  | deliver hm hne hk ht => exact (h.of_same h.held).triggers ht

theorem books_run (ops : List Op) : Books (run step init ops) := run_inv_of_step step_books _ ops books_init

theorem Books.slot_of_pending (h : Books s) {k : ℕ} {g : Registration} (hg : s.registered[k]? = some g)
    (hk : k ∉ s.resolved.map Prod.fst) : ∃ x, Releasable s g.ptr g.event x ∧ x.ticket = some k := by
  have hlt : k < s.registered.length := (List.getElem?_eq_some_iff.1 hg).1
  rcases h.pendingTicket k hlt with hr | ⟨p, e, x, hx, ht⟩
  · exact absurd hr hk
  have hreg := (h.live p e x k hx ht).2
  rw [hg] at hreg
  cases hreg
  refine ⟨x, ⟨?_, hx⟩, ht⟩
  rw [← (h.slot p e x hx).2, ht]
  rfl

/-- the bits, the event contexts, the counter and the registrations agree -/
structure Consistent (s : St) : Prop where
  /-- `_pendingEventCount` is the number of registered bits -/
  pending : s.pending = ∑ p ∈ Finset.range s.nextCtx, (s.ctxs p).events.card
  /-- an `EventContext` is non-empty exactly when its bit is set -/
  slot : ∀ p e x, (s.ctxs p).getContext e = some x → (x.nonempty = true ↔ (s.ctxs p).events.has e = true)
  /-- no registration is resolved twice -/
  once : (s.resolved.map Prod.fst).Nodup
  /-- a resolved registration was dropped, or scheduled with its own fiber or callback on its own scheduler -/
  outcome : ∀ y ∈ s.resolved, ∃ g, s.registered[y.1]? = some g ∧ g.Allows y.2
  /-- one that is not resolved is still set in its context -/
  kept : ∀ k g, s.registered[k]? = some g → k ∉ s.resolved.map Prod.fst → (s.ctxs g.ptr).events.has g.event = true

/-- **Registrations are consistent**, in every run. -/
theorem registrations_consistent (ops : List Op) : Consistent (run step init ops) := by
  have h := books_run ops
  refine ⟨h.pending, fun p e x hx => by rw [(h.slot p e x hx).1], h.once, h.outcome, fun k g hg hk => ?_⟩
  obtain ⟨x, hx, -⟩ := h.slot_of_pending hg hk
  exact hx.1

end CoServer.IOManager
