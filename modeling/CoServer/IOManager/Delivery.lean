/-
Delivery of epoll reports: is an event triggered only while its bit is registered?

`epoll_wait` reports bits that are registered at that moment (`reports_registered`), but the reports are worked off
later, one lock at a time. The delivery loop skips a report none of whose bits is registered any more; if ONE of them
still is, it triggers ALL of them, and the assertion of `triggerEvent` fails on a bit that another thread has removed in
between.

Results:
- `trigger_assertion_holds`: in every run in which a delivery that finds some of the reported bits registered finds all
  of them registered, an event is triggered only while its bit is registered.
- `stale_report_aborts`: both bits of an fd were registered and reported, `delEvent` removed one, and the delivery
  triggers it all the same.
-/
import CoServer.IOManager.Contexts

namespace CoServer.IOManager

open CoServer.Core Function Mask
open Scheduler (Task FiberState)

/-! ## Which sections can fail in `triggerEvent` -/

/-- every bit of `m` is in `n` -/
def Mask.Sub (m n : Mask) : Prop := ∀ e, m.has e = true → n.has e = true

theorem Mask.sub_iff {m n : Mask} : m.Sub n ↔ (m.read = true → n.read = true) ∧ (m.write = true → n.write = true) := by
  refine ⟨fun h => ⟨h .read, h .write⟩, fun h e => ?_⟩
  cases e with
  | none => exact id
  | read => exact h.1
  | write => exact h.2

instance (m n : Mask) : Decidable (m.Sub n) := decidable_of_iff _ sub_iff.symm

variable {s s' : St} {p : ℕ}

theorem triggerIf_error {b : Bool} {e : Event} (h : triggerIf b s p e = .error .trigger) :
    b = true ∧ (s.ctxs p).events.has e = false := by
  unfold triggerIf at h
  cases b with
  | false => cases h
  | true =>
    refine ⟨rfl, ?_⟩
    rw [if_pos rfl] at h
    by_contra hb
    unfold triggerEvent at h
    rw [if_neg hb] at h
    split at h
    · cases h
    · split at h <;> cases h

theorem triggerIf_has {b : Bool} {e e' : Event} (h : triggerIf b s p e = .ok s') (hne : e' ≠ e) :
    (s'.ctxs p).events.has e' = (s.ctxs p).events.has e' := by
  rcases triggerIf_ok h with ⟨-, rfl⟩ | ⟨x, o, -, -, -, rfl⟩
  · rfl
  · simp [release, decPending, has_remove, hne]

theorem bind_error {x : Except Abort St} {f : St → Except Abort St} {a : Abort} (h : x >>= f = .error a) :
    x = .error a ∨ ∃ s1, x = .ok s1 ∧ f s1 = .error a := by
  cases x with
  | error a' => exact .inl h
  | ok s1 => exact .inr ⟨s1, rfl, h⟩

theorem cancelSection_no_trigger (s : St) (t fd p : ℕ) (e : Event) (ok : Bool) :
    cancelSection s t fd p e ok ≠ .error .trigger := by
  intro h
  unfold cancelSection at h
  dsimp only at h
  by_cases hh : (s.ctxs p).events.has e = false
  · rw [if_pos hh] at h; cases h
  rw [if_neg hh] at h
  split at h
  · cases h
  rcases bind_error h with ht | ⟨s1, -, h⟩
  · exact hh (triggerIf_error ht).2
  · cases h

theorem cancelAllSection_no_trigger (s : St) (t fd p : ℕ) (ok : Bool) :
    cancelAllSection s t fd p ok ≠ .error .trigger := by
  -- a bit is triggered only if it is set
  have hset : ∀ {b : Bool} {s : St} {e : Event}, triggerIf b s p e = .error .trigger → (s.ctxs p).events.has e ≠ b :=
    fun ht hb => by
    obtain ⟨h1, h2⟩ := triggerIf_error ht
    rw [hb, h1] at h2
    cases h2
  intro h
  unfold cancelAllSection at h
  dsimp only at h
  split_ifs at h
  split at h
  · cases h
  rcases bind_error h with hr | ⟨s1, -, h⟩
  · exact hset hr rfl
  rcases bind_error h with hw | ⟨s2, -, h⟩
  · exact hset hw rfl
  · split_ifs at h <;> cases h

theorem requestSection_no_trigger (s : St) (t fd p : ℕ) (ok : Bool) (r : Request) :
    requestSection s t fd p ok r ≠ .error .trigger := by
  intro h
  cases r with
  | add a =>
    simp only [requestSection, addSection] at h
    repeat' split at h
    all_goals cases h
  | del e =>
    simp only [requestSection, delSection] at h
    repeat' split at h
    all_goals cases h
  | cancel e => exact cancelSection_no_trigger s t fd p e ok h
  | cancelAll => exact cancelAllSection_no_trigger s t fd p ok h

/-- the report is not partly stale: none of its bits is to be triggered, or all are registered -/
def Report.Current (r : Report) (events : Mask) : Prop :=
  (events.inter (realEvents r events)).isEmpty = true ∨ r.bits.Sub events

instance (r : Report) (events : Mask) : Decidable (r.Current events) := by unfold Report.Current; infer_instance

theorem realEvents_sub {r : Report} {events : Mask} (h : r.bits.Sub events) : (realEvents r events).Sub events := by
  intro e he
  unfold realEvents at he
  split_ifs at he
  · cases e <;> simp_all [has, union, sub_iff] <;> tauto
  · exact h e he

theorem deliverSection_no_trigger (s : St) (r : Report) (ok : Bool) (hr : r.Current (s.ctxs r.ptr).events) :
    deliverSection s r ok ≠ .error .trigger := by
  intro h
  unfold deliverSection at h
  dsimp only at h
  by_cases hh : ((s.ctxs r.ptr).events.inter (realEvents r (s.ctxs r.ptr).events)).isEmpty = true
  · rw [if_pos hh] at h; cases h
  rw [if_neg hh] at h
  have hsub := realEvents_sub (hr.resolve_left hh)
  split at h
  · cases h
  rcases bind_error h with h1 | ⟨s1, h1, h⟩
  · obtain ⟨hb, hn⟩ := triggerIf_error h1
    exact absurd (hsub .read hb) (by simpa using hn)
  · obtain ⟨hb, hn⟩ := triggerIf_error h
    rw [triggerIf_has h1 (by decide)] at hn
    exact absurd (hsub .write hb) (by simpa using hn)

/-! ## Runs -/

/-- a delivery that finds some of the reported bits registered finds all of them registered -/
def Fresh (s : St) : Op → Prop
  | .deliver t _ => ∀ r ∈ (s.reports t).head?, r.Current (s.ctxs r.ptr).events
  | _ => True

instance (s : St) : (o : Op) → Decidable (Fresh s o)
  | .deliver t _ => inferInstanceAs (Decidable (∀ r ∈ (s.reports t).head?, r.Current (s.ctxs r.ptr).events))
  | .call .. | .resize _ | .enter .. | .wait .. | .close _ => isTrue trivial

theorem commit_no_trigger {r : Except Abort St} (hr : r ≠ .error .trigger)
    (hok : ∀ s', r = .ok s' → s'.aborted ≠ some .trigger) : (s.commit r).aborted ≠ some .trigger := by
  cases r with
  | ok s' => exact hok s' rfl
  | error a => rintro h; cases h; exact hr rfl

theorem step_no_trigger (s : St) (o : Op) (hx : Fresh s o) (h : s.aborted ≠ some .trigger) :
    (step s o).aborted ≠ some .trigger := by
  unfold step
  split_ifs
  · exact h
  cases o with
  | call t r fd | wait t evs => simp only [stepLive]; split_ifs <;> exact h
  | close fd => exact h
  | resize t =>
    simp only [stepLive]
    split
    · unfold resizeSection
      dsimp only
      split
      · exact h
      · simp [St.commit]
    · exact h
  | enter t ok =>
    simp only [stepLive]
    split
    · exact commit_no_trigger (requestSection_no_trigger _ _ _ _ _ _) fun s' hs =>
        by rwa [(requestSection_frame hs).1.aborted]
    · exact h
  | deliver t ok =>
    simp only [stepLive]
    split
    · exact h
    rename_i r rs hr
    refine commit_no_trigger (deliverSection_no_trigger _ r ok (hx r (by simp [hr]))) fun s' hs => ?_
    rcases section_cases hs with rfl | ⟨-, kernel, -, hs⟩
    · exact h
    · rw [(Triggers.frame (bind_ok hs)).1.aborted]
      exact h

/-- **The assertion of `triggerEvent` holds**, in every run whose deliveries are fresh. -/
theorem trigger_assertion_holds (ops : List Op) (hops : Meets step Fresh init ops) :
    (run step init ops).aborted ≠ some .trigger :=
  run_inv step_no_trigger hops (by simp [init, contextResize])

/-- callback `fn` for the event, added from scheduler 0 -/
def withCallback (e : Event) (fn : ℕ) : Request := .add ⟨e, some fn, some 0, 0, .execute⟩

/-- both events of fd 5 are added, reported in one go and delivered -/
def bothDelivered : List Op :=
  [.call 1 (withCallback .read 7) 5, .enter 1 true, .call 1 (withCallback .write 8) 5, .enter 1 true,
    .wait 9 [(5, ⟨true, true⟩, false)], .deliver 9 true]

theorem trigger_assertion_holds_both :
    Meets step Fresh init bothDelivered ∧
      (run step init bothDelivered).resolved =
        [(0, .scheduled 0 (.callback (some 7))), (1, .scheduled 0 (.callback (some 8)))] ∧
      (run step init bothDelivered).aborted ≠ some .trigger :=
  ⟨by decide, by decide, trigger_assertion_holds bothDelivered (by decide)⟩

/-- the same, but another thread deletes the read event between the report and its delivery -/
def staleReport : List Op :=
  [.call 1 (withCallback .read 7) 5, .enter 1 true, .call 1 (withCallback .write 8) 5, .enter 1 true,
    .wait 9 [(5, ⟨true, true⟩, false)], .call 1 (.del .read) 5, .enter 1 true, .deliver 9 true]

/-- **A stale report aborts.** -/
theorem stale_report_aborts :
    ((run step init staleReport.dropLast).ctxs 5).events = ⟨false, true⟩ ∧
      (run step init staleReport).aborted = some .trigger := by decide

/-! ## What `epoll_wait` reports is registered -/

/-- the kernel's entry of an fd points to a context of that fd and has its bits -/
def Agrees (s : St) : Prop := ∀ fd i, s.kernel fd = some i → i.ptr < s.nextCtx ∧ (s.ctxs i.ptr).fd = fd ∧
    (s.ctxs i.ptr).events = i.mask

theorem Agrees.locked (h : Agrees s) {fd : ℕ} {m : Mask} {kernel : ℕ → Option Interest} (hp : p < s.nextCtx)
    (hpfd : (s.ctxs p).fd = fd)
    (hn : s'.nextCtx = s.nextCtx) (hk : Told s fd p m kernel) (hs : s'.kernel = kernel) (hm : (s'.ctxs p).events = m)
    (hctx : ∀ q, q ≠ p → s'.ctxs q = s.ctxs q) (hfd : (s'.ctxs p).fd = (s.ctxs p).fd) : Agrees s' := by
  obtain ⟨k, rfl, hki⟩ : ∃ k, kernel = update s.kernel fd k ∧ ∀ j ∈ k, ⟨p, m⟩ = j := by
    obtain ⟨op, ok, hk⟩ := hk
    unfold epollCtl at hk
    cases op <;> simp only [Option.ite_none_right_eq_some, Option.some.injEq] at hk
    case del => exact ⟨none, hk.2.symm, by simp⟩
    all_goals exact ⟨some _, hk.2.symm, by simp⟩
  intro fd' j hfd'
  rw [hs] at hfd'
  rcases update_cases hfd' with ⟨rfl, hj⟩ | ⟨hf, hj⟩
  · cases hki j hj
    exact ⟨hn ▸ hp, hfd.trans hpfd, hm⟩
  obtain ⟨h1, h2, h3⟩ := h fd' j hj
  have hne : j.ptr ≠ p := by rintro heq; rw [heq, hpfd] at h2; exact hf h2.symm
  rw [hn, hctx _ hne]
  exact ⟨h1, h2, h3⟩

theorem Triggers.events {br bw : Bool} (h : Triggers s p br bw s') :
    (s'.ctxs p).events = (s.ctxs p).events.diff ⟨br, bw⟩ ∧ ∀ q, q ≠ p → s'.ctxs q = s.ctxs q := by
  obtain ⟨s1, h1, h2⟩ := h
  have hone : ∀ {b : Bool} {s s' : St} {e : Event}, triggerIf b s p e = .ok s' →
      (s'.ctxs p).events = (if b then (s.ctxs p).events.remove e else (s.ctxs p).events) ∧
        ∀ q, q ≠ p → s'.ctxs q = s.ctxs q := by
    intro b s s' e h
    rcases triggerIf_ok h with ⟨rfl, rfl⟩ | ⟨x, o, rfl, -, -, rfl⟩
    · exact ⟨rfl, fun _ _ => rfl⟩
    · exact ⟨by simp [release, decPending], fun q hq => by simp [release, decPending, hq]⟩
  obtain ⟨a1, a2⟩ := hone h1
  obtain ⟨b1, b2⟩ := hone h2
  refine ⟨?_, fun q hq => (b2 q hq).trans (a2 q hq)⟩
  rw [b1, a1]
  cases br <;> cases bw <;> simp [diff, remove]

theorem Mask.eq_empty {m : Mask} (h : m.isEmpty = true) : m = .empty := by
  obtain ⟨r, w⟩ := m
  cases r <;> cases w <;> simp_all [isEmpty, empty]

theorem Agrees.request (h : Agrees s) {t fd : ℕ} {ok : Bool} {r : Request} (hp : p < s.nextCtx)
    (hpfd : (s.ctxs p).fd = fd) (hs : requestSection s t fd p ok r = .ok s') : Agrees s' := by
  cases requestSection_ok hs with
  | failed => exact h
  | add hb he hk =>
    exact h.locked hp hpfd rfl hk rfl (by simp [St.ret, register]) (fun q hq => update_of_ne hq _ _)
      (by simp [St.ret, register])
  | release hr hk hx ho =>
    exact h.locked hp hpfd rfl hk rfl (by simp [St.ret, release, decPending]) (fun q hq => update_of_ne hq _ _)
      (by simp [St.ret, release, decPending])
  | all hk ht he =>
    obtain ⟨hkeep, -, hkernel⟩ := ht.frame
    exact h.locked hp hpfd hkeep.nextCtx hk hkernel (eq_empty he) ht.events.2 (hkeep.fd p)

theorem step_agrees (s : St) (o : Op) (hb : Books s) (hi : Indexed s) (h : Agrees s) : Agrees (step s o) := by
  have hm := step_moves s o
  generalize step s o = s' at hm
  cases hm with
  | same | abort a | call t r fd | reports ho t rs => exact h
  | close fd =>
    intro fd' i hfd
    by_cases hf : fd' = fd
    · simp [hf] at hfd
    · exact h fd' i (by simpa [hf] using hfd)
  | resize hc hp =>
    intro fd i hfd
    obtain ⟨h1, h2, h3⟩ := h fd i hfd
    refine ⟨h1.trans_le (Nat.le_add_right _ _), ?_⟩
    rw [contextResize_ctxs_lt s _ h1]
    exact ⟨h2, h3⟩
  | enter hc hs => exact h.request (hb.held _ _ _ _ hc) (hi.held _ _ _ _ hc) hs
  | deliver hm hne hk ht =>
    obtain ⟨hkeep, -, hkernel⟩ := ht.frame
    obtain ⟨hev, hother⟩ := ht.events
    refine h.locked ?_ rfl hkeep.nextCtx hk hkernel hev hother (hkeep.fd _)
    by_contra hge
    rw [hb.fresh _ (not_lt.1 hge)] at hne
    simp [inter, empty, isEmpty] at hne

/-- **A report is registered when it is made.** In every run, the bits that `epoll_wait` reports for a context are
registered on it at that moment. -/
theorem reports_registered (ops : List Op) (evs : List (ℕ × Mask × Bool)) :
    ∀ r ∈ takeReports (run step init ops).kernel evs, r.bits.Sub ((run step init ops).ctxs r.ptr).events := by
  have h : Agrees (run step init ops) :=
    (run_inv_of_step (I := fun s => Books s ∧ Indexed s ∧ Agrees s)
      (fun s o h => ⟨step_books s o h.1, step_indexed s o h.1 h.2.1, step_agrees s o h.1 h.2.1 h.2.2⟩) _ ops
      ⟨books_init, indexed_init, fun fd i hi => by simp [init, contextResize] at hi⟩).2.2
  intro r hr e he
  obtain ⟨v, -, hv⟩ := List.mem_filterMap.1 hr
  obtain ⟨i, hi, rfl⟩ := Option.map_eq_some_iff.1 hv
  obtain ⟨-, -, hm⟩ := h v.1 i hi
  cases e <;> simp_all [has, inter]

/-- a report of both bits when only read has been registered -/
theorem first_report_registered : Mask.Sub ⟨true, false⟩ ((run step init (staleReport.take 2)).ctxs 5).events :=
  reports_registered _ [(5, ⟨true, true⟩, false)] ⟨5, ⟨true, false⟩, false⟩ (by decide)

end CoServer.IOManager
