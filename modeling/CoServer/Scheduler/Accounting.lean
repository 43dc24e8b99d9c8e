/-
The books of the scheduler: queue entries, takes, callback calls and `_activeThreadCount`. The four exits of the loop
body all pass through exactly one decrement: `taken` names the entry that a worker owes it for.

Results:
- `ledger_run`: in every run each entry ever pushed is in the queue or was removed, once and by one worker, which is the
  pinned thread if the entry names one; and `_activeThreadCount` is the number of entries taken whose decrement has not
  run.
- `books_balance`: under `Exclusive` (no step takes work for a fiber in flight elsewhere) every taken callback is also
  started exactly once, and the counter never wraps.
- `callback_called_twice`: without it the second worker, which takes the holding fiber before its context is saved,
  enters `mainFunc` on it again.
-/
import CoServer.Core.Update
import CoServer.Scheduler.Flight

namespace CoServer.Scheduler

open CoServer.Core List Pc FiberAndThread

/-! ## The ledger -/

/-- the entry for which a worker still owes the decrement -/
def Pc.taken : Pc → Option FiberAndThread
  | .tickle (.dispatch ft) | .tickleWrite (.dispatch ft) | .dispatch ft | .reset _ ft _ => ft
  | .dispatch2 e _ | .swapIn _ _ e _ | .running _ e _ | .leaving _ _ e _ | .swapOut _ _ e _ | .count _ e _ => some e
  | .skip e => some e
  | _ => none

/-- entries taken whose decrement has not run -/
def outstanding (s : St) : List (FiberAndThread × ℕ) := s.removed.filter fun p => p.1.ticket ∉ s.retired

structure Ledger (s : St) : Prop where
  /-- every entry pushed is in the queue or in the log of removals, once -/
  entries : (s.queue ++ s.removed.map Prod.fst).Perm s.pushed
  tickets : s.pushed.map (·.ticket) = range s.nextTicket
  pinned : ∀ p ∈ s.removed, p.1.thread = -1 ∨ p.1.thread = (p.2 : ℤ)
  held : ∀ w, ∀ e ∈ (s.pc w).taken, (e, w) ∈ s.removed ∧ e.ticket ∉ s.retired
  owed : ∀ p ∈ s.removed, p.1.ticket ∉ s.retired → p.1 ∈ (s.pc p.2).taken
  retired : ∀ t ∈ s.retired, ∃ p ∈ s.removed, p.1.ticket = t
  count : s.active = (outstanding s).length

/-- what the ledger reads besides the places of the workers -/
def St.books (s : St) := (s.queue, s.pushed, s.removed, s.nextTicket, s.retired, s.active)

theorem ledger_init : Ledger init := by constructor <;> simp [init, taken, outstanding]

variable {s s' : St} {f w : ℕ} {p q : Pc} {e : FiberAndThread}

theorem Ledger.nodup (h : Ledger s) : ((s.queue ++ s.removed.map Prod.fst).map (·.ticket)).Nodup :=
  (h.entries.map _).nodup_iff.2 (h.tickets ▸ nodup_range)

theorem Ledger.removed_inj (h : Ledger s) {p q : FiberAndThread × ℕ} (hp : p ∈ s.removed) (hq : q ∈ s.removed)
    (ht : p.1.ticket = q.1.ticket) : p = q := by
  have hn := h.nodup
  rw [map_append, nodup_append] at hn
  have hr := hn.2.1
  rw [map_map] at hr
  exact inj_on_of_nodup_map hr hp hq ht

theorem Ledger.queue_removed (h : Ledger s) (he : e ∈ s.queue) {p : FiberAndThread × ℕ} (hp : p ∈ s.removed) :
    e.ticket ≠ p.1.ticket := by
  have hn := h.nodup
  rw [map_append, nodup_append] at hn
  exact hn.2.2 _ (mem_map_of_mem he) _ (mem_map_of_mem (mem_map_of_mem hp))

theorem Move.taken (h : Move s w p q) : q.taken = p.taken := by
  cases h with
  | tickleDrop k | tickleGo k => rcases k with ft | _ <;> rfl
  | scan => split_ifs <;> rfl
  | _ => rfl

theorem taken_goto (h : q.taken = (s.pc w).taken) (v : ℕ) : ((s.goto w q).pc v).taken = (s.pc v).taken :=
  proj_update taken h v

section

variable (h : Ledger s)
include h

theorem Ledger.push (items : List Item) :
    Ledger { s with
      queue := s.queue ++ entriesOf s.nextTicket items
      pushed := s.pushed ++ entriesOf s.nextTicket items
      nextTicket := s.nextTicket + items.length } := by
  refine ⟨?_, ?_, h.pinned, h.held, h.owed, h.retired, h.count⟩
  · refine Perm.trans ?_ (h.entries.append_right _)
    rw [append_assoc, append_assoc]
    exact Perm.append_left _ perm_append_comm
  · simp only [map_append, h.tickets, entriesOf_tickets, range_eq_range', ← range'_append_1, Nat.zero_add]

theorem Ledger.of_same (hs : s'.books = s.books) (hp : ∀ w, (s'.pc w).taken = (s.pc w).taken) : Ledger s' := by
  simp only [St.books, Prod.mk.injEq] at hs
  obtain ⟨hq, hu, hr, hn, ht, ha⟩ := hs
  refine ⟨?_, ?_, ?_, ?_, ?_, ?_, ?_⟩
  · rw [hq, hr, hu]; exact h.entries
  · rw [hu, hn]; exact h.tickets
  · rw [hr]; exact h.pinned
  · intro w e he; rw [hr, ht]; exact h.held w e (hp w ▸ he)
  · rw [hr, ht]; intro p hpm hpt; rw [hp]; exact h.owed p hpm hpt
  · rw [hr, ht]; exact h.retired
  · rw [ha, h.count, outstanding, outstanding, hr, ht]

theorem Ledger.removed_nodup : s.removed.Nodup := by
  have hn := h.nodup
  rw [map_append, nodup_append, map_map] at hn
  exact Nodup.of_map _ hn.2.1

theorem Ledger.retire_length (he : e ∈ (s.pc w).taken) :
    (s.removed.filter fun p => p.1.ticket ∉ s.retired ++ [e.ticket]).length = (outstanding s).length - 1 := by
  obtain ⟨hrem, hret⟩ := h.held w e he
  have hmem : (e, w) ∈ outstanding s := mem_filter.2 ⟨hrem, by simpa using hret⟩
  have hsplit : (s.removed.filter fun p => p.1.ticket ∉ s.retired ++ [e.ticket]) = (outstanding s).erase (e, w) := by
    unfold outstanding
    rw [(h.removed_nodup.filter _).erase_eq_filter, filter_filter]
    refine filter_congr fun p hp => ?_
    have hinj : p.1.ticket = e.ticket ↔ p = (e, w) := ⟨fun ht => h.removed_inj hp hrem ht, fun hpe => by rw [hpe]⟩
    rw [Bool.eq_iff_iff]
    simp [hinj, and_comm]
  rw [hsplit, length_erase_of_mem hmem]

theorem Ledger.decrement (he : e ∈ (s.pc w).taken) (hq : q.taken = none) :
    Ledger ({ s with active := decCount s.active, retired := s.retired ++ [e.ticket] }.goto w q) := by
  obtain ⟨hrem, hret⟩ := h.held w e he
  refine ⟨h.entries, h.tickets, h.pinned, ?_, ?_, ?_, ?_⟩
  · intro v x hx
    by_cases hv : v = w
    · subst hv; rw [goto_pc_self, hq] at hx; simp at hx
    rw [goto_pc_ne _ _ _ hv] at hx
    obtain ⟨h1, h2⟩ := h.held v x hx
    refine ⟨h1, fun hx => ?_⟩
    rcases mem_append.1 hx with hx | hx
    · exact h2 hx
    · have := h.removed_inj h1 hrem (by simpa using hx)
      exact hv (congrArg Prod.snd this)
  · intro p hp hpt
    have hpt' : p.1.ticket ∉ s.retired ∧ p.1.ticket ≠ e.ticket := by simpa [St.goto] using hpt
    have hpe := h.owed p hp hpt'.1
    have hpw : p.2 ≠ w := by
      intro hpw
      rw [hpw] at hpe
      exact hpt'.2 (congrArg ticket (Option.mem_unique hpe he))
    rw [goto_pc_ne _ _ _ hpw]; exact hpe
  · intro t ht
    rcases mem_append.1 ht with ht | ht
    · exact h.retired t ht
    · exact ⟨(e, w), hrem, (mem_singleton.1 ht).symm⟩
  · show decCount s.active = (s.removed.filter fun p => p.1.ticket ∉ s.retired ++ [e.ticket]).length
    have hpos : 0 < (outstanding s).length := length_pos_of_mem (mem_filter.2 ⟨hrem, by simpa using hret⟩)
    rw [h.retire_length he, decCount, h.count, if_neg (by omega)]

theorem Ledger.take (hp : s.pc w = .scan) (he : takes s w = some e) (hq : q.taken = some e) :
    Ledger ({ s with
      queue := (scanQueue s.state w s.queue false).queue
      active := s.active + 1
      removed := s.removed ++ [(e, w)] }.goto w q) := by
  obtain ⟨l, r, hqe, hqr, hel, -⟩ := scanQueue_some _ _ _ _ _ (takes_scan he)
  have hfresh : ∀ p ∈ s.removed, e.ticket ≠ p.1.ticket := fun p hpm => h.queue_removed (takes_mem he) hpm
  have hret : e.ticket ∉ s.retired := by
    intro ht
    obtain ⟨p, hpm, hpt⟩ := h.retired _ ht
    exact hfresh p hpm hpt.symm
  refine ⟨?_, h.tickets, ?_, ?_, ?_, ?_, ?_⟩
  · refine Perm.trans ?_ h.entries
    show ((scanQueue s.state w s.queue false).queue ++ (s.removed ++ [(e, w)]).map Prod.fst).Perm
      (s.queue ++ s.removed.map Prod.fst)
    rw [hqr, hqe, perm_iff_count]
    simp only [count_append, map_append, map_cons, map_nil, count_cons, count_nil]
    omega
  · intro p hpm
    rcases mem_append.1 hpm with hpm | hpm
    · exact h.pinned p hpm
    obtain rfl : p = (e, w) := by simpa using hpm
    have := hel.1
    simp only [foreign] at this
    tauto
  · intro v x hx
    by_cases hv : v = w
    · subst hv
      rw [goto_pc_self, hq, Option.mem_some_iff] at hx
      subst hx
      exact ⟨by simp [St.goto], hret⟩
    · rw [goto_pc_ne _ _ _ hv] at hx
      obtain ⟨h1, h2⟩ := h.held v x hx
      exact ⟨mem_append_left _ h1, h2⟩
  · intro p hpm hpt
    rcases mem_append.1 hpm with hpm | hpm
    · have hpe := h.owed p hpm hpt
      have hpw : p.2 ≠ w := by
        intro hpw
        rw [hpw, hp] at hpe
        simp [taken] at hpe
      rw [goto_pc_ne _ _ _ hpw]; exact hpe
    · obtain rfl : p = (e, w) := by simpa using hpm
      rw [goto_pc_self, hq]; rfl
  · intro t ht
    obtain ⟨p, hpm, hpt⟩ := h.retired t ht
    exact ⟨p, mem_append_left _ hpm, hpt⟩
  · show s.active + 1 = ((s.removed ++ [(e, w)]).filter fun p => p.1.ticket ∉ s.retired).length
    rw [h.count, outstanding]
    simp [hret]

end

theorem step_ledger (s : St) (o : Op) (h : Ledger s) : Ledger (step s o) := by
  have ht := step_trans s o
  generalize step s o = s' at ht
  cases ht with
  | same => exact h
  | abort | setStop | drain | call | callerGo | callerDrop | callerWrite | newFiber => exact h.of_same rfl fun _ => rfl
  | start w hp => exact h.of_same rfl (taken_goto (by simp [hp, taken]))
  | move _ w q _ hm => exact h.of_same rfl (taken_goto hm.taken)
  | take w e q hp he hq => exact h.take hp he (by rcases hq with rfl | rfl <;> rfl)
  | requeue w b f q cb hp hcb hq =>
    refine (h.push [⟨.fiber (some f), -1⟩]).of_same rfl (taken_goto ?_)
    rcases hq with ⟨-, rfl⟩ | ⟨-, rfl⟩ <;> simp [hp, taken]
  | schedule c items hc hk => exact (h.push items).of_same rfl fun _ => rfl
  | count w b e f hp | skip w e hp => exact h.decrement (by simp [hp, taken]) rfl
  | tickleWrite w k hp =>
    refine h.of_same rfl (taken_goto ?_)
    rcases k with ft | _ <;> simp [hp, taken, Cont.pc]
  | _ => exact h.of_same rfl (taken_goto (by simp_all [taken]))

theorem ledger_run (ops : List Op) : Ledger (run step init ops) := run_inv_of_step step_ledger _ ops ledger_init

/-! ## Callback entries and the fiber that runs them -/

/-- the branch that holds entry `e` on fiber `f`: the callback branch runs callbacks, on `cb_fiber` -/
def Branch.Fits (cb : Option ℕ) (b : Branch) (e : FiberAndThread) (f : ℕ) : Prop :=
  match b with
  | .fiber => e.callback = none
  | .callback => e.callback ≠ none ∧ cb = some f

/-- the locals of a worker fit together -/
def Pc.Wf (cb : Option ℕ) : Pc → Prop
  | .dispatch2 e _ => e.callback = none
  | .reset _ (some e) f => e.callback ≠ none ∧ cb = some f
  | .reset _ none f => cb = some f
  | .swapIn _ b e f | .running b e f | .leaving _ b e f | .swapOut _ b e f | .count b e f => b.Fits cb e f
  | .after _ b f | .requeue b f => b = .callback → cb = some f
  | _ => True

/-- the taken entry that is not called yet, if it is a callback -/
def Pc.toCall : Pc → Option FiberAndThread
  | .tickle (.dispatch ft) | .tickleWrite (.dispatch ft) | .dispatch ft | .reset _ ft _ => ft
  | .swapIn _ .callback e _ => some e
  | _ => none

/-- the context of the fiber is set up to call the entry -/
def Pc.primed : Pc → Option (FiberAndThread × ℕ)
  | .reset .set (some e) f | .swapIn _ .callback e f => some (e, f)
  | _ => none

theorem Move.wf (h : Move s w p q) (hp : p.Wf (s.cbFiber w)) : q.Wf (s.cbFiber w) := by
  cases h with
  | tickleDrop k => rcases k with ft | _ <;> trivial
  | scan => split_ifs <;> trivial
  | dispatch e f he => simp [Wf, callback, he, Task.function]
  | reuse e fn g he hg => exact ⟨by simp [callback, he, Task.function], hg⟩
  | resetTest p p' ft f => cases ft <;> exact hp
  | recycle p f => exact hp rfl
  | _ => first | exact hp | trivial

theorem Move.primed (h : Move s w p q) : q.primed = p.primed := by
  cases h with
  | tickleDrop k => rcases k with ft | _ <;> rfl
  | scan => split_ifs <;> rfl
  | resetTest p p' ft f hp hp' => cases p <;> simp_all [primed]
  | swapInTest b e f => cases b <;> rfl
  | _ => rfl

theorem Move.toCall (h : Move s w p q) (he : e.callback ≠ none) : q.toCall = some e ↔ p.toCall = some e := by
  cases h with
  | tickleDrop k => rcases k with ft | _ <;> rfl
  | tickleGo k => rcases k with ft | _ <;> rfl
  | scan => split_ifs <;> rfl
  | dispatch x f hx =>
    have : x ≠ e := by rintro rfl; exact he (by simp [callback, hx, Task.function])
    simp [toCall, this]
  | dead x hx =>
    have : x ≠ e := by rintro rfl; exact he hx
    simp [toCall, this]
  | swapInTest b x f => cases b <;> rfl
  | _ => rfl

/-- locals fit, and a fiber is the `cb_fiber` of one worker at most -/
structure Locals (s : St) : Prop where
  wf : ∀ w, (s.pc w).Wf (s.cbFiber w)
  cb_unique : ∀ v w f, f ∈ s.cbFiber v → f ∈ s.cbFiber w → v = w

theorem locals_init : Locals init := ⟨fun _ => trivial, fun v w f hv => by simp [init] at hv⟩

theorem Locals.at (h : Locals s) (hp : s.pc w = p) : p.Wf (s.cbFiber w) := hp ▸ h.wf w

theorem Locals.setCb (h : Locals s) {c : Option ℕ}
    (hpc : s'.pc = Function.update s.pc w q) (hcb : s'.cbFiber = Function.update s.cbFiber w c) (hq : q.Wf c)
    (hc : ∀ f ∈ c, ∀ v, v ≠ w → f ∉ s.cbFiber v) : Locals s' := by
  have hne : ∀ v, v ≠ w → s'.cbFiber v = s.cbFiber v := fun v hv => by rw [hcb]; simp [hv]
  have hself : s'.cbFiber w = c := by rw [hcb]; simp
  refine ⟨fun v => ?_, fun v u f hv hu => ?_⟩
  · by_cases hv : v = w
    · subst hv; rw [hself, hpc]; simpa using hq
    · rw [hne v hv, hpc]; simpa [hv] using h.wf v
  by_cases hvw : v = w <;> by_cases huw : u = w
  · rw [hvw, huw]
  · rw [hvw, hself] at hv; rw [hne u huw] at hu; exact absurd hu (hc f hv u huw)
  · rw [huw, hself] at hu; rw [hne v hvw] at hv; exact absurd hv (hc f hu v hvw)
  · rw [hne v hvw] at hv; rw [hne u huw] at hu; exact h.cb_unique v u f hv hu

theorem Locals.goto (h : Locals s) (hpc : s'.pc = Function.update s.pc w q) (hcb : s'.cbFiber = s.cbFiber)
    (hq : q.Wf (s.cbFiber w)) : Locals s' :=
  h.setCb hpc (by rw [hcb, Function.update_eq_self]) hq fun f hf v hv hfv => hv (h.cb_unique v w f hfv hf)

theorem step_locals (s : St) (o : Op) (hk : Known s) (h : Locals s) : Locals (step s o) := by
  have ht := step_trans s o
  generalize step s o = s' at ht
  cases ht with
  | same => exact h
  | abort | setStop | drain | call | callerGo | callerDrop | callerWrite | newFiber | schedule =>
    exact ⟨h.wf, h.cb_unique⟩
  | move _ w q _ hm => exact h.goto rfl rfl (hm.wf (h.wf w))
  | take w e q hp he hq => exact h.goto rfl rfl (by rcases hq with rfl | rfl <;> trivial)
  | tickleWrite w k hp => exact h.goto rfl rfl (by rcases k with ft | _ <;> trivial)
  | newCb w e fn hp he hn =>
    refine h.setCb rfl rfl ⟨by simp [callback, he, Task.function], rfl⟩ ?_
    intro f hf v _ hv
    have := hk.cb v f hv
    simp only [Option.mem_some_iff] at hf
    omega
  | holdCb w f hp => exact h.setCb rfl rfl trivial (by simp)
  | requeue w b f q cb hp hcb hq =>
    rcases hcb with rfl | rfl
    · exact h.goto rfl rfl (by rcases hq with ⟨-, rfl⟩ | ⟨-, rfl⟩ <;> trivial)
    · exact h.setCb rfl rfl (by rcases hq with ⟨-, rfl⟩ | ⟨-, rfl⟩ <;> trivial) (by simp)
  | resetContext w ft f hp =>
    have hw := h.at hp
    exact h.goto rfl rfl (by cases ft <;> exact hw)
  | count w b e f hp => exact h.goto rfl rfl (by rintro rfl; exact (h.at hp).2)
  | _ =>
    have hw := h.at ‹s.pc _ = _›
    refine h.goto rfl rfl ?_
    first
      | exact hw
      | trivial

/-! ## Every taken callback is called once -/

theorem primed_flight {cb : Option ℕ} (h : (e, f) ∈ p.primed) : f ∈ p.flight cb := by
  unfold primed at h
  split at h <;> simp_all [flight]

theorem primed_cb {cb : Option ℕ} (h : (e, f) ∈ p.primed) (hw : p.Wf cb) : cb = some f := by
  unfold primed at h
  split at h <;> simp_all [Wf, Branch.Fits]

/-- the context and the callback of a fiber about to be entered for entry `e` are those of `e` -/
def Primed (s : St) : Prop :=
  ∀ w e f, (e, f) ∈ (s.pc w).primed →
    s.ctx f = .entry ∧ ∃ fn, e.callback = some fn ∧ s.callback f = some ⟨fn, some e.ticket⟩

/-- a saved entry context with the callback of an entry belongs to a worker about to enter it for that entry -/
def Owned (s : St) : Prop :=
  ∀ f fn t, s.saved f = true → s.ctx f = .entry → s.callback f = some ⟨fn, some t⟩ →
    ∃ w e, (e, f) ∈ (s.pc w).primed ∧ e.ticket = t

theorem Primed.goto (h : Primed s) (hctx : s'.ctx = s.ctx) (hcb : s'.callback = s.callback)
    (hpc : s'.pc = Function.update s.pc w q)
    (hq : ∀ e f, (e, f) ∈ q.primed → (e, f) ∈ (s.pc w).primed) : Primed s' := by
  intro v e f hp
  rw [hctx, hcb]
  apply h v e f
  by_cases hv : v = w
  · subst hv; exact hq e f (by simpa [hpc] using hp)
  · simpa [hpc, hv] using hp

theorem Primed.write (h : Primed s) {g : ℕ} {c : Ctx} {j : Option Job} (hpc : s'.pc = Function.update s.pc w q)
    (hctx : s'.ctx = Function.update s.ctx g c) (hcb : s'.callback = Function.update s.callback g j)
    (hw : ∀ e f, (e, f) ∈ q.primed → f = g ∧ c = .entry ∧ ∃ fn, e.callback = some fn ∧ j = some ⟨fn, some e.ticket⟩)
    (hg : ∀ v e, v ≠ w → (e, g) ∉ (s.pc v).primed) : Primed s' := by
  intro v e f hp
  rw [hpc] at hp
  rw [hctx, hcb]
  by_cases hv : v = w
  · subst hv
    rw [Function.update_self] at hp
    obtain ⟨rfl, h2, h3⟩ := hw e f hp
    rw [Function.update_self, Function.update_self]
    exact ⟨h2, h3⟩
  · rw [Function.update_of_ne hv] at hp
    have hfg : f ≠ g := by rintro rfl; exact hg v e hv hp
    rw [Function.update_of_ne hfg, Function.update_of_ne hfg]
    exact h v e f hp

theorem step_primed (s : St) (o : Op) (hf : Flight s) (hl : Locals s) (h : Primed s) : Primed (step s o) := by
  have ht := step_trans s o
  generalize step s o = s' at ht
  have hknown : ∀ v e, (e, s.nextFiber) ∉ (s.pc v).primed := by
    intro v e hp
    exact absurd (hf.known.flight_lt (primed_flight hp)) (lt_irrefl _)
  cases ht with
  | same | abort | setStop | drain | call | callerGo | callerDrop | callerWrite | schedule => exact h
  | move _ w q _ hm => exact h.goto rfl rfl rfl fun e f hq => by rwa [hm.primed] at hq
  | newFiber fn =>
    intro v e f hp
    have hne : f ≠ s.nextFiber := by rintro rfl; exact hknown v e hp
    simpa [hne] using h v e f hp
  | newCb w e fn hp he hn =>
    refine h.write rfl rfl rfl (fun x f hx => ?_) fun v e _ => hknown v e
    simp only [primed, Option.mem_def, Option.some.injEq, Prod.mk.injEq] at hx
    obtain ⟨rfl, rfl⟩ := hx
    exact ⟨rfl, rfl, fn, by simp [callback, he, Task.function], rfl⟩
  | resetContext w ft g hp =>
    have hcb : s.cbFiber w = some g := by
      have := hl.at hp
      cases ft <;> simp_all [Wf]
    refine h.write rfl rfl rfl (fun x f hx => ?_) fun v e hv hpr => ?_
    · cases ft with
      | none => simp [primed] at hx
      | some e =>
        simp only [primed, Option.mem_def, Option.some.injEq, Prod.mk.injEq] at hx
        obtain ⟨rfl, rfl⟩ := hx
        obtain ⟨fn, hfn⟩ := Option.ne_none_iff_exists'.1 (hl.at hp).1
        exact ⟨rfl, rfl, fn, hfn, by simp [hfn]⟩
    · exact hv (hl.cb_unique v w g (by rw [primed_cb hpr (hl.wf v)]; rfl) (by rw [hcb]; rfl))
  | finish w b x g hp =>
    refine h.write rfl (Function.update_eq_self g s.ctx).symm rfl (by simp [primed]) fun v e hv hpr => ?_
    exact hv (hf.unique v w g (primed_flight hpr) (by simp [St.flight, hp, flight]))
  | save w fin b x g c hp hc =>
    refine h.write rfl rfl (Function.update_eq_self g s.callback).symm (by simp [primed]) fun v e hv hpr => ?_
    exact hv (hf.unique v w g (primed_flight hpr) (by simp [St.flight, hp, flight]))
  | take w e q hp he hq => exact h.goto rfl rfl rfl (by rcases hq with rfl | rfl <;> simp [primed])
  | requeue w b f q cb hp hcb hq => exact h.goto rfl rfl rfl (by rcases hq with ⟨-, rfl⟩ | ⟨-, rfl⟩ <;> simp [primed])
  | tickleWrite w k hp => exact h.goto rfl rfl rfl (by rcases k with ft | _ <;> simp [primed, Cont.pc])
  | setExecute w b e f hp => exact h.goto rfl rfl rfl (by cases b <;> simp [hp, primed])
  | _ => exact h.goto rfl rfl rfl (by simp_all [primed])

theorem owner_goto {t : ℕ} (h : ∃ v e, (e, f) ∈ (s.pc v).primed ∧ e.ticket = t)
    (hw : ∀ e, (e, f) ∈ (s.pc w).primed → (e, f) ∈ q.primed) :
    ∃ v e, (e, f) ∈ ((s.goto w q).pc v).primed ∧ e.ticket = t := by
  obtain ⟨v, e, hv, he⟩ := h
  by_cases hvw : v = w
  · subst hvw; exact ⟨v, e, by simpa using hw e hv, he⟩
  · exact ⟨v, e, by simpa [hvw] using hv, he⟩

theorem Trans.owned {o : Op} (ht : Trans s o s') (h : Owned s) : Owned s' := by
  intro f fn t hs hc hj
  cases ht with
  | same | abort | setStop | drain | call | callerGo | callerDrop | callerWrite | schedule => exact h f fn t hs hc hj
  | move _ w q _ hm => exact owner_goto (h f fn t hs hc hj) fun e he => by rwa [hm.primed]
  | newFiber fn' =>
    by_cases hn : f = s.nextFiber
    · simp [hn] at hj
    · exact h f fn t (by simpa [hn] using hs) (by simpa [hn] using hc) (by simpa [hn] using hj)
  | newCb w e fn' hp he hn =>
    by_cases hnf : f = s.nextFiber
    · have hjt : fn' = fn ∧ e.ticket = t := by simpa [St.goto, hnf] using hj
      exact ⟨w, e, by simp [hnf, primed], hjt.2⟩
    · exact owner_goto
        (h f fn t (by simpa [St.goto, hnf] using hs) (by simpa [St.goto, hnf] using hc)
          (by simpa [St.goto, hnf] using hj))
        (by simp [hp, primed])
  | resetContext w ft g hp =>
    by_cases hfg : f = g
    · subst hfg
      cases ft with
      | none => simp [St.goto] at hj
      | some e =>
        have hjt : e.callback = some fn ∧ e.ticket = t := by simpa [St.goto] using hj
        exact ⟨w, e, by simp [primed], hjt.2⟩
    · exact owner_goto
        (h f fn t (by simpa [St.goto] using hs) (by simpa [St.goto, hfg] using hc) (by simpa [St.goto, hfg] using hj))
        (by simp [hp, primed])
  | finish w b e g hp =>
    by_cases hfg : f = g
    · simp [St.goto, hfg] at hj
    · exact owner_goto (h f fn t hs hc (by simpa [St.goto, hfg] using hj)) (by simp [hp, primed])
  | save w fin b e g c hp hcne =>
    by_cases hfg : f = g
    · exact absurd (by simpa [St.goto, hfg] using hc) hcne
    · exact owner_goto (h f fn t (by simpa [St.goto, hfg] using hs) (by simpa [St.goto, hfg] using hc) hj)
        (by simp [hp, primed])
  | enter w b e g j hp hcg hjg | enterEmpty w b e g hp hcg hjg | resume w b e g hp hcg =>
    have hfg : f ≠ g := by rintro rfl; simp [St.goto] at hs
    exact owner_goto (h f fn t (by simpa [St.goto, hfg] using hs) hc hj)
      (by cases b <;> simp [hp, primed, Ne.symm hfg])
  | setExecute w b e g hp => exact owner_goto (h f fn t hs hc hj) (by cases b <;> simp [hp, primed])
  | _ => exact owner_goto (h f fn t hs hc hj) (by simp_all [primed])

/-- the calls of a taken callback entry: none while its worker is on the way to it, one from then on -/
structure Called (s : St) : Prop where
  entry : ∀ x ∈ s.started, ∃ p ∈ s.removed, p.1.ticket = x.1 ∧ p.1.callback = some x.2
  once : ∀ p ∈ s.removed, ∀ fn, p.1.callback = some fn →
    s.started.count (p.1.ticket, fn) = if (s.pc p.2).toCall = some p.1 then 0 else 1

theorem Called.of_same (h : Called s) (hr : s'.removed = s.removed) (hs : s'.started = s.started)
    (hp : ∀ v e, e.callback ≠ none → ((s'.pc v).toCall = some e ↔ (s.pc v).toCall = some e)) : Called s' := by
  refine ⟨by rw [hr, hs]; exact h.entry, fun p hpm fn hfn => ?_⟩
  rw [hr] at hpm
  rw [hs, h.once p hpm fn hfn]
  simp only [hp p.2 p.1 (by simp [hfn])]

theorem toCall_goto (h : q.toCall = some e ↔ (s.pc w).toCall = some e) (v : ℕ) :
    ((s.goto w q).pc v).toCall = some e ↔ (s.pc v).toCall = some e :=
  Eq.to_iff (proj_update (fun p : Pc => p.toCall = some e) (propext h) v)

theorem enter_job (hf : Flight s) (hp : Primed s) (ho : Owned s) {b : Branch}
    {j : Job} (hpc : s.pc w = .swapIn .restore b e f) (hc : s.ctx f = .entry) (hj : s.callback f = some j) :
    (b = .fiber ∧ j.ticket = none) ∨ (b = .callback ∧ e.callback = some j.fn ∧ j.ticket = some e.ticket) := by
  cases b with
  | callback =>
    obtain ⟨-, fn, hfn, hcb⟩ := hp w e f (by simp [hpc, primed])
    obtain rfl : j = ⟨fn, some e.ticket⟩ := Option.some.inj (hj.symm.trans hcb)
    exact Or.inr ⟨rfl, hfn, rfl⟩
  | fiber =>
    refine Or.inl ⟨rfl, ?_⟩
    by_contra hne
    obtain ⟨t, ht⟩ := Option.ne_none_iff_exists'.1 hne
    -- a second worker would be about to enter the same fiber, and both have it in flight
    have hs : s.saved f = true := hf.saved_of_swapIn (w := w) (by simp [hpc, swappingIn])
    obtain ⟨v, x, hx, -⟩ := ho f j.fn t hs hc (by rw [hj, ← ht])
    have hvw : v = w := hf.unique v w f (primed_flight hx) (by simp [St.flight, hpc, flight])
    simp [hvw, hpc, primed] at hx

theorem Called.call (hl : Ledger s) (h : Called s) {fn : ℕ}
    (hpc : s.pc w = .swapIn .restore .callback e f) (hfn : e.callback = some fn) (saved : ℕ → Bool) :
    Called ({ s with saved := saved, started := s.started ++ [(e.ticket, fn)] }.goto w (.running .callback e f)) := by
  have hrem : (e, w) ∈ s.removed := (hl.held w e (by simp [hpc, taken])).1
  refine ⟨?_, fun p hpm fn' hfn' => ?_⟩
  · intro x hx
    rcases mem_append.1 hx with hx | hx
    · exact h.entry x hx
    · obtain rfl : x = (e.ticket, fn) := by simpa using hx
      exact ⟨(e, w), hrem, rfl, hfn⟩
  · have hold := h.once p hpm fn' hfn'
    show (s.started ++ [(e.ticket, fn)]).count (p.1.ticket, fn') = _
    rw [count_append, hold]
    by_cases hpe : p = (e, w)
    · subst hpe
      obtain rfl : fn = fn' := Option.some.inj (hfn.symm.trans hfn')
      simp [hpc, toCall]
    have htick : e.ticket ≠ p.1.ticket := fun ht => hpe (hl.removed_inj hpm hrem ht.symm)
    have hsame : ((s.goto w (.running .callback e f)).pc p.2).toCall = some p.1 ↔ (s.pc p.2).toCall = some p.1 := by
      by_cases hpw : p.2 = w
      · have hne : e ≠ p.1 := fun he => htick (by rw [he])
        simp [hpw, hpc, toCall, hne]
      · simp [hpw]
    have hz : [(e.ticket, fn)].count (p.1.ticket, fn') = 0 := by simp [htick]
    rw [hz]
    exact if_congr hsame.symm rfl rfl

theorem Called.take (hl : Ledger s) (h : Called s) (hp : s.pc w = .scan)
    (he : takes s w = some e) (hq : q.toCall = some e) (queue : List FiberAndThread) (active : ℕ) :
    Called ({ s with queue := queue, active := active, removed := s.removed ++ [(e, w)] }.goto w q) := by
  have hfresh : ∀ p ∈ s.removed, e.ticket ≠ p.1.ticket := fun p hpm => hl.queue_removed (takes_mem he) hpm
  refine ⟨?_, fun p hpm fn hfn => ?_⟩
  · intro x hx
    obtain ⟨p, hpm, hpx⟩ := h.entry x hx
    exact ⟨p, mem_append_left _ hpm, hpx⟩
  show s.started.count (p.1.ticket, fn) = _
  rcases mem_append.1 hpm with hpm | hpm
  · rw [h.once p hpm fn hfn]
    by_cases hpw : p.2 = w
    · have hne : e ≠ p.1 := fun hep => hfresh p hpm (by rw [hep])
      rw [hpw, goto_pc_self, hq, hp]
      simp [toCall, hne]
    · simp [hpw]
  · obtain rfl : p = (e, w) := by simpa using hpm
    rw [goto_pc_self, if_pos hq, count_eq_zero]
    intro hx
    obtain ⟨p, hpm, hpt, -⟩ := h.entry _ hx
    exact hfresh p hpm hpt.symm

theorem step_called (s : St) (o : Op) (hf : Flight s) (hl : Ledger s) (hp : Primed s) (ho : Owned s) (h : Called s) :
    Called (step s o) := by
  have ht := step_trans s o
  generalize step s o = s' at ht
  cases ht with
  | same => exact h
  | abort | setStop | drain | call | callerGo | callerDrop | callerWrite | schedule | newFiber =>
    exact h.of_same rfl rfl fun _ _ _ => Iff.rfl
  | move _ w q _ hm => exact h.of_same rfl rfl fun v e he => toCall_goto (hm.toCall he) v
  | take w e q hpc he hq => exact h.take hl hpc he (by rcases hq with rfl | rfl <;> rfl) _ _
  | enter w b e f j hpc hc hj =>
    rcases enter_job hf hp ho hpc hc hj with ⟨rfl, hn⟩ | ⟨rfl, hfn, ht⟩
    · refine h.of_same rfl (by simp [St.goto, startLog, hn]) fun v x _ => toCall_goto ?_ v
      simp [hpc, toCall]
    · have := h.call hl hpc hfn (Function.update s.saved f false)
      simpa [startLog, ht] using this
  | enterEmpty w b e f hpc hc hj =>
    cases b with
    | fiber => exact h.of_same rfl rfl fun v x _ => toCall_goto (by simp [hpc, toCall]) v
    | callback =>
      obtain ⟨-, fn, -, hcb⟩ := hp w e f (by simp [hpc, primed])
      simp [hcb] at hj
  | resume w b e f hpc hc =>
    cases b with
    | fiber => exact h.of_same rfl rfl fun v x _ => toCall_goto (by simp [hpc, toCall]) v
    | callback =>
      have := (hp w e f (by simp [hpc, primed])).1
      simp [hc] at this
  | requeue w b f q cb hpc hcb hq =>
    refine h.of_same rfl rfl fun v x _ => toCall_goto ?_ v
    rcases hq with ⟨-, rfl⟩ | ⟨-, rfl⟩ <;> simp [hpc, toCall]
  | tickleWrite w k hpc =>
    refine h.of_same rfl rfl fun v x _ => toCall_goto ?_ v
    rcases k with ft | _ <;> simp [hpc, toCall, Cont.pc]
  | setExecute w b e f hpc =>
    refine h.of_same rfl rfl fun v x _ => toCall_goto ?_ v
    cases b <;> simp [hpc, toCall]
  | _ => exact h.of_same rfl rfl fun v x _ => toCall_goto (by simp_all [toCall]) v

/-- everything the call of a callback rests on -/
structure Books (s : St) : Prop where
  flight : Flight s
  ledger : Ledger s
  locals : Locals s
  primed : Primed s
  owned : Owned s
  called : Called s

theorem books_init : Books init where
  flight := flight_init
  ledger := ledger_init
  locals := locals_init
  primed := fun w e f hp => by simp [init, primed] at hp
  owned := fun f fn t _ _ hj => by simp [init] at hj
  called := ⟨by simp [init], by simp [init]⟩

theorem step_books (s : St) (o : Op) (hx : Exclusive s o) (h : Books s) : Books (step s o) where
  flight := step_flight s o hx h.flight
  ledger := step_ledger s o h.ledger
  locals := step_locals s o h.flight.known h.locals
  primed := step_primed s o h.flight h.locals h.primed
  owned := (step_trans s o).owned h.owned
  called := step_called s o h.flight h.ledger h.primed h.owned h.called

/-- the books of the scheduler balance -/
structure Balanced (s : St) : Prop where
  /-- every entry ever pushed is in the queue, or was removed exactly once -/
  entries : (s.queue ++ s.removed.map Prod.fst).Perm s.pushed
  serial : s.pushed.map (·.ticket) = range s.nextTicket
  /-- by the pinned thread, if the entry names one -/
  pinned : ∀ p ∈ s.removed, p.1.thread = -1 ∨ p.1.thread = (p.2 : ℤ)
  /-- only taken callbacks are called -/
  called_taken : ∀ x ∈ s.started, ∃ p ∈ s.removed, p.1.ticket = x.1 ∧ p.1.callback = some x.2
  /-- a taken callback is called once: not yet while its worker is on the way to it -/
  called_once : ∀ p ∈ s.removed, ∀ fn, p.1.callback = some fn →
    s.started.count (p.1.ticket, fn) = if (s.pc p.2).toCall = some p.1 then 0 else 1
  /-- `_activeThreadCount` counts the entries taken whose decrement has not run -/
  count : s.active = (outstanding s).length
  /-- so no decrement wraps -/
  positive : ∀ w, (s.pc w).taken ≠ none → 0 < s.active

theorem Ledger.active_pos (h : Ledger s) (hw : (s.pc w).taken ≠ none) : 0 < s.active := by
  obtain ⟨e, he⟩ := Option.ne_none_iff_exists'.1 hw
  obtain ⟨hrem, hret⟩ := h.held w e he
  rw [h.count]
  exact length_pos_of_mem (mem_filter.2 ⟨hrem, by simpa using hret⟩)

/-- **The books balance**, in every run in which no step takes work for a fiber in flight on another worker. -/
theorem books_balance (ops : List Op) (hops : Meets step Exclusive init ops) : Balanced (run step init ops) := by
  have h : Books (run step init ops) := run_inv step_books hops books_init
  exact
    { entries := h.ledger.entries
      serial := h.ledger.tickets
      pinned := h.ledger.pinned
      called_taken := h.called.entry
      called_once := h.called.once
      count := h.ledger.count
      positive := fun _ => h.ledger.active_pos }

/-- the run that hands a yielded callback from one worker to another meets the condition -/
theorem books_balance_handover :
    Meets step Exclusive init handover ∧ (run step init handover).started = [(0, 7)] ∧
      Balanced (run step init handover) :=
  ⟨by decide, by decide, books_balance handover (by decide)⟩

/-- **A callback can be called twice**: that of ticket 0. -/
theorem callback_called_twice : (run step init holdBeforeSave).started = [(0, 7), (0, 7)] ∧
    ¬ Balanced (run step init holdBeforeSave) := by
  refine ⟨by decide, fun h => ?_⟩
  have := h.called_once (⟨.callback (some 7), -1, 0⟩, 10) (by decide) 7 rfl
  exact absurd this (by decide)

end CoServer.Scheduler
