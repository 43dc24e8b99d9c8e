/-
The pair a request returns: the result code and the response of its context. `onTimeOut` does not look whether its erase
found the context: it sets `timed` in any case, and whoever wins `doRsp` after that stores `TIMEOUT` over the result of
the response.

Results:
- `pair_consistent`: in a run where no timeout callback sets `timed` while a receiver has the context and its fiber is
  not scheduled, every pair that a request returns is consistent.
- `timeout_with_response`: the callback of a request is taken for execution, a receiver takes the context and stores the
  response, and the callback then sets `timed`: the request returns `TIMEOUT` and a response with code 200.
-/
import CoServer.AsyncStream.Completion

namespace CoServer.AsyncStream.Requests

open CoServer.Core Function List St

/-! ## What is returned -/

/-- the result and the response that a request has read for its caller -/
def Request.returned : Request → Option (Result × Option Response)
  | .reading (some res) (some rsp) => some (res, rsp)
  | .refused => some (resultNotConnect, Option.none)
  | _ => Option.none

/-- a result set by the stream comes without a response, and a response comes with its own code -/
def Consistent (r : Result × Option Response) : Prop :=
  (r.1.origin = .timeout ∨ r.1.origin = .ioError → r.2 = none) ∧ ∀ rsp ∈ r.2, r.1.code = rsp.result

/-- `timed` is not set while a receiver is between taking the context and scheduling its fiber -/
def InTime (s : St) : Op → Prop
  | .setTimed c => (s.ctxs c).taken = none ∨ c ∈ s.scheduled
  | _ => True

instance (s : St) (o : Op) : Decidable (InTime s o) :=
  match o with
  | .setTimed c => inferInstanceAs (Decidable ((s.ctxs c).taken = none ∨ c ∈ s.scheduled))
  | .request .. | .addCtx _ | .addTimer _ | .assignTimer _ | .hold _ | .resume _ | .readResult _
  | .readResponse _ | .expire _
  | .erase _ | .recv .. | .setResult _ | .setResponse _ | .close .. | .setIoError _ | .doRsp _ => isTrue trivial

/-! ## The invariant -/

/-- everything the receiver assigns for `rsp` is in the context -/
structure Ctx.Answered (x : Ctx) (rsp : Response) : Prop where
  taken : x.taken = some rsp
  result : x.result = ⟨rsp.result, .response⟩
  response : x.response = some rsp

/-- what the place of a party says about the contexts it deals with -/
def Knows (s : St) : Party → Act → Prop
  | .receiver _, .took c rsp => (s.ctxs c).taken = some rsp
  | .receiver _, .wrote c rsp => (s.ctxs c).taken = some rsp ∧ (s.ctxs c).result = ⟨rsp.result, .response⟩
  | .receiver _, .rsp c st _ => (∃ rsp, (s.ctxs c).Answered rsp) ∧ ∀ scd, st ≠ .stamp scd
  | .timer _, .rsp c _ _ => (s.ctxs c).timed = true
  | .closer _, a => ∀ c ∈ a.ctxs, (s.ctxs c).taken = none
  | _, _ => True

/-- a timer whose callback has not erased the context -/
def Act.early : Act → Bool
  | .idle | .armed | .due | .cancelled => true
  | _ => false

variable {s s' : St} {c i : ℕ} {p : Party} {a : Act} {rest : List ℕ} {rsp : Response}

theorem early_ctxs (h : a.early = true) : a.ctxs = [] := by
  cases a with
  | idle | armed | due | cancelled => rfl
  | _ => cases h

/-- a context that no party has come across -/
structure Untouched (s : St) (c : ℕ) : Prop where
  taken : (s.ctxs c).taken = none
  timed : (s.ctxs c).timed = false
  waiting : c ∉ s.scheduled
  nobody : ∀ p, c ∉ (s.acts p).ctxs
  timer : (s.acts (.timer c)).early = true

/-- what a request has read so far -/
structure Reads (s : St) (c : ℕ) (res : Option Result) (rsp : Option (Option Response)) : Prop where
  scheduled : c ∈ s.scheduled
  result : ∀ r x, res = some r → (s.ctxs c).taken = some x → r = ⟨x.result, .response⟩
  response : ∀ o, rsp = some o → o = (s.ctxs c).taken

structure Paired (s : St) : Prop where
  key : ∀ e ∈ s.map, e.1 = (s.ctxs e.2).sn
  inMap : ∀ e ∈ s.map, Untouched s e.2
  created : ∀ c, s.requests c = .created → Untouched s c ∧ ∀ e ∈ s.map, e.2 ≠ c
  bare : ∀ c, (s.ctxs c).taken = none → (s.ctxs c).response = none
  knows : ∀ p, Knows s p (s.acts p)
  timed : ∀ c, (s.ctxs c).taken ≠ none → (s.ctxs c).timed = true → c ∈ s.scheduled
  answered : ∀ c rsp, c ∈ s.scheduled → (s.ctxs c).taken = some rsp → (s.ctxs c).Answered rsp
  reads : ∀ c res rsp, s.requests c = .reading res rsp → Reads s c res rsp

theorem paired_init : Paired init := by
  have hknows : ∀ p, Knows init p (init.acts p) := by
    intro p
    cases p <;> simp [init, Knows]
  refine ⟨?_, ?_, ?_, ?_, hknows, ?_, ?_, ?_⟩ <;> simp [init]

/-! ## Writes to a context -/

/-- a write that does not undo what a receiver assigned -/
structure Kept (x y : Ctx) : Prop where
  sn : y.sn = x.sn
  taken : y.taken = x.taken
  result : ∀ rsp, x.taken = some rsp → x.result = ⟨rsp.result, .response⟩ → y.result = ⟨rsp.result, .response⟩
  response : ∀ rsp, x.taken = some rsp → x.response = some rsp → y.response = some rsp
  bare : x.taken = none → x.response = none → y.response = none
  timed : x.timed = true → y.timed = true

open Kept

theorem Kept.refl (x : Ctx) {scheduler fiber : Option ℕ} {timer : Bool} :
    Kept x { x with scheduler := scheduler, fiber := fiber, timer := timer } :=
  ⟨rfl, rfl, fun _ _ h => h, fun _ _ h => h, fun _ h => h, fun h => h⟩

theorem kept_update {y : Ctx} (h : Kept (s.ctxs c) y) : ∀ d, Kept (s.ctxs d) (update s.ctxs c y d) :=
  (forall_update_iff s.ctxs fun d y => Kept (s.ctxs d) y).2 ⟨h, fun _ _ => refl _⟩

theorem Ctx.Answered.kept {x y : Ctx} (h : x.Answered rsp) (hk : Kept x y) : y.Answered rsp :=
  ⟨hk.taken.trans h.taken, hk.result rsp h.taken h.result, hk.response rsp h.taken h.response⟩

theorem Knows.kept (h : Knows s p a) (hk : ∀ c, Kept (s.ctxs c) (s'.ctxs c)) : Knows s' p a := by
  cases p with
  | receiver i =>
    cases a with
    | took c rsp => exact (hk c).taken.trans h
    | wrote c rsp => exact ⟨(hk c).taken.trans h.1, (hk c).result rsp h.1 h.2⟩
    | rsp c st rest =>
      obtain ⟨⟨rsp, hrsp⟩, hst⟩ := h
      exact ⟨⟨rsp, hrsp.kept (hk c)⟩, hst⟩
    | _ => trivial
  | timer d =>
    cases a with
    | rsp c st rest => exact (hk c).timed h
    | _ => trivial
  | closer i =>
    intro c hc
    exact (hk c).taken.trans (h c hc)

/-! ## Steps that leave the map of the contexts alone or empty it -/

variable {ctxs : ℕ → Ctx} {next : ℕ} {map : List (ℕ × ℕ)} {requests : ℕ → Request} {acts : Party → Act} {y : Ctx}

section

variable (h : Paired s)
include h

theorem Paired.move (hkeep : ∀ c, Kept (s.ctxs c) (ctxs c))
    (htimed : ∀ c, (s.ctxs c).taken ≠ none → (ctxs c).timed = true → (s.ctxs c).timed = true ∨ c ∈ s.scheduled)
    (hmap : ∀ e ∈ map, e ∈ s.map) (hcreated : ∀ c, requests c = .created → s.requests c = .created)
    (hopen : ∀ c, (∃ e ∈ map, e.2 = c) ∨ s.requests c = .created → Untouched s c →
      (ctxs c).timed = false ∧ (∀ p, c ∉ (acts p).ctxs) ∧ (acts (.timer c)).early = true)
    (hknows : ∀ p, Knows { s with ctxs := ctxs } p (acts p))
    (hreads : ∀ c res rsp, requests c = .reading res rsp → Reads s c res rsp) :
    Paired { s with ctxs := ctxs, next := next, map := map, requests := requests, acts := acts } := by
  have huntouched : ∀ c, (∃ e ∈ map, e.2 = c) ∨ s.requests c = .created → Untouched s c →
      Untouched { s with ctxs := ctxs, next := next, map := map, requests := requests, acts := acts } c := by
    intro c hc hu
    obtain ⟨h1, h2, h3⟩ := hopen c hc hu
    exact ⟨(hkeep c).taken.trans hu.taken, h1, hu.waiting, h2, h3⟩
  refine ⟨fun e he => ?_, fun e he => ?_, fun c hc => ?_, fun c hc => ?_, hknows, fun c hc ht => ?_,
    fun c rsp hc ht => ?_, fun c res rsp hc => ?_⟩
  · rw [(hkeep e.2).sn]; exact h.key e (hmap e he)
  · exact huntouched e.2 (.inl ⟨e, he, rfl⟩) (h.inMap e (hmap e he))
  · obtain ⟨h1, h2⟩ := h.created c (hcreated c hc)
    exact ⟨huntouched c (.inr (hcreated c hc)) h1, fun e he => h2 e (hmap e he)⟩
  · rw [(hkeep c).taken] at hc
    exact (hkeep c).bare hc (h.bare c hc)
  · rw [(hkeep c).taken] at hc
    rcases htimed c hc ht with ht | ht
    · exact h.timed c hc ht
    · exact ht
  · rw [(hkeep c).taken] at ht
    exact (h.answered c rsp hc ht).kept (hkeep c)
  · have hr := hreads c res rsp hc
    exact ⟨hr.scheduled, by rw [(hkeep c).taken]; exact hr.result, by rw [(hkeep c).taken]; exact hr.response⟩

theorem Paired.act (hkeep : ∀ c, Kept (s.ctxs c) (ctxs c))
    (htimed : ∀ c, (s.ctxs c).taken ≠ none → (ctxs c).timed = true → (s.ctxs c).timed = true ∨ c ∈ s.scheduled)
    (hmap : ∀ e ∈ map, e ∈ s.map) (hopen : ∀ c, (∃ e ∈ map, e.2 = c) ∨ s.requests c = .created → Untouched s c →
      (ctxs c).timed = false ∧ c ∉ a.ctxs ∧ (p = .timer c → a.early = true))
    (hknows : Knows { s with ctxs := ctxs } p a) :
    Paired { s with ctxs := ctxs, map := map, acts := update s.acts p a } := by
  refine h.move hkeep htimed hmap (fun d hd => hd) (fun d hd hu => ?_) ?_ h.reads
  · obtain ⟨h1, h2, h3⟩ := hopen d hd hu
    exact ⟨h1, (forall_update_iff s.acts fun _ a => d ∉ a.ctxs).2 ⟨h2, fun q _ => hu.nobody q⟩,
      (forall_update_iff s.acts fun q a => q = .timer d → a.early = true).2 ⟨h3, fun q _ hq => hq ▸ hu.timer⟩ _ rfl⟩
  · exact (forall_update_iff s.acts fun q a => Knows { s with ctxs := ctxs } q a).2
      ⟨hknows, fun q _ => (h.knows q).kept hkeep⟩

theorem Paired.work (hc : c ∈ (s.acts p).ctxs) (hsub : ∀ d ∈ a.ctxs, d ∈ (s.acts p).ctxs)
    (hy : Kept (s.ctxs c) y)
    (htimed : y.timed = (s.ctxs c).timed) (hknows : Knows (s.setCtx c y) p a) : Paired ((s.setCtx c y).setAct p a) := by
  have hsame : ∀ d, (update s.ctxs c y d).timed = (s.ctxs d).timed := proj_update Ctx.timed htimed
  refine h.act (kept_update hy) (fun d _ ht => .inl (hsame d ▸ ht)) (fun e he => he) (fun d _ hd => ?_) hknows
  refine ⟨(hsame d).trans hd.timed, fun hda => hd.nobody p (hsub d hda), ?_⟩
  -- a timer that holds a context is past its erase
  rintro rfl
  rw [early_ctxs hd.timer] at hc
  cases hc

theorem Paired.write (hc : c ∈ (s.acts p).ctxs) (hsub : ∀ d ∈ a.ctxs, d ∈ (s.acts p).ctxs)
    (hknows : Knows s p a)
    (hy : Kept (s.ctxs c) y) (htimed : y.timed = (s.ctxs c).timed) : Paired ((s.setCtx c y).setAct p a) :=
  h.work hc hsub hy htimed (hknows.kept (kept_update hy))

theorem Paired.pass (hc : c ∈ (s.acts p).ctxs) (hsub : ∀ d ∈ a.ctxs, d ∈ (s.acts p).ctxs)
    (hknows : Knows s p a) : Paired (s.setAct p a) := by
  have hwrite := h.write hc hsub hknows (refl _) rfl
  rwa [setCtx, update_eq_self] at hwrite

end

/-! ## Steps of `doRsp` -/

theorem Knows.stage {st st' : Stage} (h : Knows s p (.rsp c st rest)) (hst : ∀ scd, st' ≠ .stamp scd) :
    Knows s p (.rsp c st' rest) := by
  cases p with
  | receiver i => exact ⟨h.1, hst⟩
  | timer d | closer i => exact h

theorem Knows.after {st : Stage} (h : Knows s p (.rsp c st rest)) : Knows s p (after p rest) := by
  cases p with
  | receiver i | timer d => trivial
  | closer i =>
    intro d hd
    simp only [Requests.after] at hd
    split_ifs at hd
    · cases hd
    · exact h d (mem_cons_of_mem c hd)

theorem after_ctxs {d : ℕ} (hd : d ∈ (after p rest).ctxs) : d ∈ rest := by
  cases p with
  | receiver i | timer d => cases hd
  | closer i =>
    simp only [after] at hd
    split_ifs at hd
    · cases hd
    · exact hd

section

variable (h : Paired s)
include h

theorem Paired.stamp_free (hi : Inv s) (hw : (s.acts p).wins = some c) (ht : (s.ctxs c).timed = true) :
    (s.ctxs c).taken = none := by
  by_contra hne
  exact hi.token.pending p c hw (h.timed c hne ht)

theorem Paired.stamp_bare (hi : Inv s) {scd : ℕ} (hp : s.acts p = .rsp c (.stamp scd) rest) :
    (s.ctxs c).taken = none := by
  have hk := h.knows p
  rw [hp] at hk
  cases p with
  | receiver i => exact absurd rfl (hk.2 scd)
  | timer d => exact h.stamp_free hi (by rw [hp]; rfl) hk
  | closer i => exact hk c mem_cons_self

theorem Paired.schedule_answered (hi : Inv s) {scd : ℕ} (hp : s.acts p = .rsp c (.schedule scd) rest)
    (ht : (s.ctxs c).taken = some rsp) : (s.ctxs c).Answered rsp := by
  have hk := h.knows p
  rw [hp] at hk
  cases p with
  | receiver i =>
    obtain ⟨⟨rsp', hrsp⟩, -⟩ := hk
    have heq := hrsp.taken
    rw [ht] at heq
    cases heq
    exact hrsp
  | timer d =>
    have hfree := h.stamp_free hi (by rw [hp]; rfl) hk
    rw [ht] at hfree
    cases hfree
  | closer i =>
    have hfree := hk c mem_cons_self
    rw [ht] at hfree
    cases hfree

theorem Paired.schedule (hheld : ∀ d, Untouched s d → d ≠ c)
    (hans : ∀ rsp, (s.ctxs c).taken = some rsp → (s.ctxs c).Answered rsp) :
    Paired { s with scheduled := s.scheduled ++ [c] } := by
  have huntouched : ∀ d, Untouched s d → Untouched { s with scheduled := s.scheduled ++ [c] } d := by
    intro d hd
    refine ⟨hd.taken, hd.timed, fun hmem => ?_, hd.nobody, hd.timer⟩
    rcases mem_append.1 hmem with hmem | hmem
    · exact hd.waiting hmem
    · exact hheld d hd (mem_singleton.1 hmem)
  refine ⟨h.key, fun e he => huntouched _ (h.inMap e he), fun d hd => ?_, h.bare, fun p => ?_, fun d hd ht => ?_,
    fun d rsp hd ht => ?_, fun d res rsp hd => ?_⟩
  · obtain ⟨h1, h2⟩ := h.created d hd
    exact ⟨huntouched d h1, h2⟩
  · exact (h.knows p).kept fun d => refl _
  · exact mem_append_left _ (h.timed d hd ht)
  · rcases mem_append.1 hd with hd | hd
    · exact h.answered d rsp hd ht
    · rw [mem_singleton.1 hd] at ht ⊢
      exact hans rsp ht
  · have hr := h.reads d res rsp hd
    exact ⟨mem_append_left _ hr.scheduled, hr.result, hr.response⟩

theorem Paired.early (ha : a.early = true) : Paired (s.setAct (.timer c) a) := by
  refine h.act (fun d => refl _) (fun d _ ht => .inl ht) (fun e he => he) (fun d _ hd => ⟨hd.timed, ?_, fun _ => ha⟩) ?_
  · rw [early_ctxs ha]; simp
  · cases a with
    | rsp c st rest => cases ha
    | _ => trivial

theorem rspStep_paired (hi : Inv s) {st : Stage} (hp : s.acts p = .rsp c st rest) : Paired (rspStep s p c rest st) := by
  have hk := h.knows p
  rw [hp] at hk
  have hc : c ∈ (s.acts p).ctxs := by rw [hp]; exact mem_cons_self
  have hstage : ∀ (st' : Stage), ∀ d ∈ (Act.rsp c st' rest).ctxs, d ∈ (s.acts p).ctxs :=
    fun st' d hd => by rw [hp]; exact hd
  have hafter : ∀ d ∈ (after p rest).ctxs, d ∈ (s.acts p).ctxs := fun d hd => by
    rw [hp]; exact mem_cons_of_mem c (after_ctxs hd)
  cases st with
  | start => exact h.pass hc (hstage _) (hk.stage (by simp))
  | swap scd =>
    simp only [rspStep]
    split_ifs with heq
    · split
      next x _ _ => exact h.write hc (hstage _) (hk.stage (by simp)) (refl _) rfl
      next => exact h.write hc hafter hk.after (refl _) rfl
    · exact h.pass hc hafter hk.after
  | cancel scd =>
    simp only [rspStep]
    split_ifs with ht harmed
    · have hne : p ≠ .timer c := by rintro rfl; rw [harmed] at hp; cases hp
      have hp' : (s.setAct (.timer c) .cancelled).acts p = s.acts p := by simp [setAct, hne]
      have hcancelled : Paired (s.setAct (.timer c) .cancelled) := h.early rfl
      exact hcancelled.pass (by rw [hp']; exact hc) (by rw [hp']; exact hstage _) (hk.stage (by simp))
    all_goals exact h.pass hc (hstage _) (hk.stage (by simp))
  | clear scd => exact h.write hc (hstage _) (hk.stage (by simp)) (refl _) rfl
  | test scd =>
    simp only [rspStep]
    split_ifs with ht
    · have hfree := h.stamp_free hi (by rw [hp]; rfl) ht
      refine h.pass hc (hstage _) ?_
      cases p with
      | receiver i =>
        obtain ⟨⟨rsp, hrsp⟩, -⟩ := hk
        have := hrsp.taken
        rw [hfree] at this
        cases this
      | timer d | closer i => exact hk
    · exact h.pass hc (hstage _) (hk.stage (by simp))
  | stamp scd =>
    have hfree := h.stamp_bare hi hp
    have hstamp : Kept (s.ctxs c) { s.ctxs c with result := resultTimeout } := by
      refine ⟨rfl, rfl, fun rsp ht _ => ?_, fun _ _ h => h, fun _ h => h, fun h => h⟩
      rw [hfree] at ht
      cases ht
    exact h.write hc (hstage _) (hk.stage (by simp)) hstamp rfl
  | schedule scd =>
    have hscheduled :=
      h.schedule (fun d hd => by rintro rfl; exact hd.nobody p hc) fun rsp ht => h.schedule_answered hi hp ht
    exact hscheduled.pass hc hafter (hk.after.kept fun d => refl _)

/-! ## Steps of the requests -/

theorem Paired.ask {r : Request} (hr : r ≠ .created)
    (hreads : ∀ res rsp, r = .reading res rsp → Reads s c res rsp) : Paired (s.setRequest c r) := by
  refine h.move (fun d => refl _) (fun d _ ht => .inl ht) (fun e he => he) (fun d hd => ?_)
    (fun d _ hd => ⟨hd.timed, hd.nobody, hd.timer⟩)
    (fun q => (h.knows q).kept fun d => refl _) (fun d res rsp hd => ?_)
  · rcases update_cases hd with ⟨-, he⟩ | ⟨-, he⟩
    · exact absurd he hr
    · exact he
  · rcases update_cases hd with ⟨rfl, he⟩ | ⟨-, he⟩
    · exact hreads res rsp he
    · exact h.reads d res rsp he

theorem Paired.response_eq (hc : c ∈ s.scheduled) : (s.ctxs c).response = (s.ctxs c).taken := by
  cases ht : (s.ctxs c).taken with
  | none => exact h.bare c ht
  | some rsp => exact (h.answered c rsp hc ht).response

end

theorem Knows.elsewhere (h : Knows s p a) (hout : c ∉ a.ctxs) (hctx : ∀ d, d ≠ c → s'.ctxs d = s.ctxs d) :
    Knows s' p a := by
  have hsame : ∀ d ∈ a.ctxs, s'.ctxs d = s.ctxs d := by
    intro d hd
    refine hctx d ?_
    rintro rfl
    exact hout hd
  cases p with
  | receiver i =>
    cases a with
    | took d rsp | wrote d rsp | rsp d st rest =>
      simp only [Knows, hsame d mem_cons_self]
      exact h
    | _ => trivial
  | timer d =>
    cases a with
    | rsp d st rest =>
      simp only [Knows, hsame d mem_cons_self]
      exact h
    | _ => trivial
  | closer i =>
    intro d hd
    rw [hsame d hd]
    exact h d hd

section

variable (h : Paired s)
include h

theorem Paired.replace (rsp : Response) (hctx : ∀ d, d ≠ c → s'.ctxs d = s.ctxs d)
    (hmap : ∀ e ∈ s'.map, e ∈ s.map ∧ e.2 ≠ c)
    (hscd : s'.scheduled = s.scheduled) (hwaiting : c ∉ s.scheduled) (hnobody : ∀ q, c ∉ (s.acts q).ctxs)
    (hacts : ∀ q, s'.acts q = s.acts q ∨ q = .receiver i ∧ s'.acts q = .took c rsp ∧ (s'.ctxs c).taken = some rsp)
    (hbare : (s'.ctxs c).taken = none → (s'.ctxs c).response = none) (htimed : (s'.ctxs c).timed = false)
    (hcreated : ∀ d, s'.requests d = .created → d = c ∧ Untouched s' c ∨ d ≠ c ∧ s.requests d = .created)
    (hreads : ∀ d res rsp, s'.requests d = .reading res rsp → s.requests d = .reading res rsp) : Paired s' := by
  have hopen : ∀ d, d ≠ c → Untouched s d → Untouched s' d := by
    intro d hd hu
    refine ⟨by rw [hctx d hd]; exact hu.taken, by rw [hctx d hd]; exact hu.timed, hscd ▸ hu.waiting, fun q => ?_, ?_⟩
    · rcases hacts q with he | ⟨-, he, -⟩
      · rw [he]; exact hu.nobody q
      · rw [he]; exact fun hda => hd (mem_singleton.1 hda)
    · rcases hacts (.timer d) with he | ⟨hq, -⟩
      · rw [he]; exact hu.timer
      · cases hq
  refine ⟨fun e he => ?_, fun e he => ?_, fun d hd => ?_, fun d hd => ?_, fun q => ?_, fun d hd ht => ?_,
    fun d rsp hd ht => ?_,
    fun d res rsp hd => ?_⟩
  · rw [hctx _ (hmap e he).2]; exact h.key e (hmap e he).1
  · exact hopen _ (hmap e he).2 (h.inMap e (hmap e he).1)
  · rcases hcreated d hd with ⟨rfl, hu⟩ | ⟨hne, hd⟩
    · exact ⟨hu, fun e he => (hmap e he).2⟩
    · exact ⟨hopen d hne (h.created d hd).1, fun e he => (h.created d hd).2 e (hmap e he).1⟩
  · by_cases hne : d = c
    · subst hne; exact hbare hd
    · rw [hctx d hne] at hd ⊢; exact h.bare d hd
  · rcases hacts q with he | ⟨rfl, he, ht⟩
    · rw [he]; exact (h.knows q).elsewhere (hnobody q) hctx
    · rw [he]; exact ht
  · by_cases hne : d = c
    · subst hne; rw [htimed] at ht; cases ht
    · rw [hctx d hne] at hd ht; exact hscd ▸ h.timed d hd ht
  · rw [hscd] at hd
    have hne : d ≠ c := by rintro rfl; exact hwaiting hd
    rw [hctx d hne] at ht ⊢
    exact h.answered d rsp hd ht
  · have hr := h.reads d res rsp (hreads d res rsp hd)
    have hne : d ≠ c := by rintro rfl; exact hwaiting hr.scheduled
    exact ⟨hscd ▸ hr.scheduled, by rw [hctx d hne]; exact hr.result, by rw [hctx d hne]; exact hr.response⟩

theorem request_paired (hi : Inv s) (sn scd fiber : ℕ) (connected : Bool) :
    Paired (request s sn scd fiber connected) := by
  unfold request
  cases connected with
  | false =>
    have hnext : Paired { s with next := s.next + 1 } :=
      h.move (fun d => refl _) (fun d _ ht => .inl ht) (fun e he => he) (fun d hd => hd)
        (fun d _ hd => ⟨hd.timed, hd.nobody, hd.timer⟩) h.knows h.reads
    exact hnext.ask (by simp) (by simp)
  | true =>
    have hdead : ¬ s.live s.next := hi.fresh _ le_rfl
    have hnobody : ∀ p, s.next ∉ (s.acts p).ctxs := fun p hp => hdead ((hi.parties p).live _ hp)
    have hwaiting : s.next ∉ s.scheduled := fun hm => hdead (hi.scheduled _ hm)
    have hidle : s.acts (.timer s.next) = .idle := by
      by_contra hne
      exact hdead ((hi.parties (.timer s.next)).armed _ rfl hne)
    simp only [if_true, setCtx, setRequest]
    refine h.replace (c := s.next) (i := 0) ⟨0, 0⟩ (fun d hd => update_of_ne hd _ _)
      (fun e he => ⟨he, fun heq => hdead (heq ▸ hi.map e he)⟩) rfl hwaiting hnobody (fun q => .inl rfl)
      (by simp) (by simp)
      (fun d hd => ?_) fun d res rsp hd => ?_
    · rcases update_cases hd with ⟨rfl, -⟩ | ⟨hne, hd⟩
      · exact .inl ⟨rfl, by simp, by simp, hwaiting, hnobody, by rw [hidle]; rfl⟩
      · exact .inr ⟨hne, hd⟩
    · rcases update_cases hd with ⟨-, he⟩ | ⟨-, hd⟩
      · cases he
      · exact hd

/-! ## Steps on the map -/

theorem addCtx_paired (hc : s.requests c = .created) :
    Paired ({ s with map := insertCtx s.map (s.ctxs c).sn c }.setRequest c .added) := by
  obtain ⟨hu, -⟩ := h.created c hc
  have huntouched :
      ∀ d, Untouched s d → Untouched ({ s with map := insertCtx s.map (s.ctxs c).sn c }.setRequest c .added) d :=
    fun d hd => ⟨hd.taken, hd.timed, hd.waiting, hd.nobody, hd.timer⟩
  refine ⟨fun e he => ?_, fun e he => ?_, fun d hd => ?_, h.bare, fun p => ?_, h.timed, h.answered,
    fun d res rsp hd => ?_⟩
  · rcases mem_insertCtx he with he | rfl
    · exact h.key e he
    · rfl
  · rcases mem_insertCtx he with he | rfl
    · exact huntouched _ (h.inMap e he)
    · exact huntouched _ hu
  · rcases update_cases hd with ⟨-, he⟩ | ⟨hne, hd⟩
    · cases he
    refine ⟨huntouched d (h.created d hd).1, fun e he => ?_⟩
    rcases mem_insertCtx he with he | rfl
    · exact (h.created d hd).2 e he
    · exact fun heq => hne heq.symm
  · exact (h.knows p).kept fun d => refl _
  · rcases update_cases hd with ⟨-, he⟩ | ⟨-, hd⟩
    · cases he
    · have hr := h.reads d res rsp hd
      exact ⟨hr.scheduled, hr.result, hr.response⟩

theorem recv_paired (hc : findCtx s.map rsp.sn = some c) :
    Paired (({ s with map := eraseCtx s.map rsp.sn }.setCtx c { s.ctxs c with taken := some rsp }).setAct (.receiver i)
      (.took c rsp)) := by
  have hmem := findCtx_mem hc
  have hu : Untouched s c := h.inMap _ hmem
  have hsn : rsp.sn = (s.ctxs c).sn := h.key _ hmem
  refine h.replace (c := c) (i := i) rsp (fun d hd => update_of_ne hd _ _) (fun e he => ?_) rfl hu.waiting hu.nobody
    (fun q => ?_) (by simp [setAct, setCtx]) (by simp [setAct, setCtx, hu.timed])
    (fun d hd => .inr ⟨fun heq => (h.created d hd).2 _ hmem heq.symm, hd⟩) fun d res rsp hd => hd
  · -- no entry for the context is left
    obtain ⟨he, hne⟩ := mem_eraseCtx he
    exact ⟨he, fun heq => hne ((h.key e he).trans (heq ▸ hsn.symm))⟩
  · by_cases hq : q = .receiver i
    · subst hq
      exact .inr ⟨rfl, update_self _ _ _, by simp [setAct, setCtx]⟩
    · exact .inl (update_of_ne hq _ _)

theorem erase_paired (hi : Inv s) (hc : s.acts (.timer c) = .due) :
    Paired ({ s with map := eraseCtx s.map (s.ctxs c).sn }.setAct (.timer c) .erased) := by
  refine h.act (fun d => refl _) (fun d _ ht => .inl ht) (fun e he => (mem_eraseCtx he).1)
    (fun d hopen hd => ?_) trivial
  have hne : d ≠ c := by
    rintro rfl
    rcases hopen with ⟨e, he, heq⟩ | hcreated
    · obtain ⟨he, hkey⟩ := mem_eraseCtx he
      exact hkey (heq ▸ h.key e he)
    · have hidle := hi.unarmed d (by rw [hcreated]; rfl)
      rw [hc] at hidle
      cases hidle
  exact ⟨hd.timed, by simp [Act.ctxs], fun heq => absurd (Party.timer.inj heq).symm hne⟩

theorem setTimed_paired (hc : s.acts (.timer c) = .erased) (hok : (s.ctxs c).taken = none ∨ c ∈ s.scheduled) :
    Paired ((s.setCtx c { s.ctxs c with timed := true }).setAct (.timer c) (.rsp c .start [])) := by
  have hwrite : Kept (s.ctxs c) { s.ctxs c with timed := true } :=
    ⟨rfl, rfl, fun _ _ h => h, fun _ _ h => h, fun _ h => h, fun _ => rfl⟩
  refine h.act (kept_update hwrite) (fun d hd ht => ?_) (fun e he => he) (fun d _ hd => ?_) (by simp [Knows, setCtx])
  · by_cases hne : d = c
    · subst hne
      exact .inr (hok.resolve_left hd)
    · exact .inl (by simpa [setCtx, hne] using ht)
  · have hne : d ≠ c := by
      rintro rfl
      have := hd.timer
      rw [hc] at this
      cases this
    exact ⟨by simpa [setCtx, hne] using hd.timed,
      by simpa [Act.ctxs] using hne, fun heq => absurd (Party.timer.inj heq).symm hne⟩

theorem close_paired (hsub : ∀ d ∈ a.ctxs, d ∈ s.map.map Prod.snd) :
    Paired ({ s with map := [] }.setAct (.closer i) a) := by
  refine h.act (fun d => refl _) (fun d _ ht => .inl ht) (fun e he => (by cases he)) (fun d hopen hd => ?_)
    fun d hd => ?_
  · refine ⟨hd.timed, fun hda => ?_, fun heq => by cases heq⟩
    rcases hopen with ⟨e, he, -⟩ | hcreated
    · cases he
    · obtain ⟨e, he, heq⟩ := mem_map.1 (hsub d hda)
      exact (h.created d hcreated).2 e he heq
  · obtain ⟨e, he, rfl⟩ := mem_map.1 (hsub d hd)
    exact (h.inMap e he).taken

theorem assignTimer_paired (c : ℕ) : Paired (s.setCtx c { s.ctxs c with timer := true }) := by
  have hsame : ∀ d, (update s.ctxs c { s.ctxs c with timer := true } d).timed = (s.ctxs d).timed :=
    proj_update Ctx.timed (by rfl)
  exact h.move (kept_update (refl _)) (fun d _ ht => .inl (hsame d ▸ ht)) (fun e he => he) (fun d hd => hd)
    (fun d _ hd => ⟨(hsame d).trans hd.timed, hd.nobody, hd.timer⟩)
    (fun q => (h.knows q).kept (kept_update (refl _))) h.reads

theorem setResult_paired (hp : s.acts (.receiver i) = .took c rsp) :
    Paired ((s.setCtx c { s.ctxs c with result := ⟨rsp.result, .response⟩ }).setAct (.receiver i) (.wrote c rsp)) := by
  have hk := h.knows (.receiver i)
  rw [hp] at hk
  have hwrite : Kept (s.ctxs c) { s.ctxs c with result := ⟨rsp.result, .response⟩ } := by
    refine ⟨rfl, rfl, fun rsp' ht _ => ?_, fun _ _ h => h, fun _ h => h, fun h => h⟩
    rw [hk] at ht
    cases ht
    rfl
  refine h.work (by rw [hp]; exact mem_cons_self) (fun d hd => by rw [hp]; exact hd) hwrite rfl ?_
  simpa [Knows, setCtx] using hk

theorem setResponse_paired (hp : s.acts (.receiver i) = .wrote c rsp) :
    Paired ((s.setCtx c { s.ctxs c with response := some rsp }).setAct (.receiver i) (.rsp c .start [])) := by
  have hk := h.knows (.receiver i)
  rw [hp] at hk
  have hwrite : Kept (s.ctxs c) { s.ctxs c with response := some rsp } := by
    refine ⟨rfl, rfl, fun _ _ h => h, fun rsp' ht _ => ?_, fun ht => ?_, fun h => h⟩
    · rw [hk.1] at ht
      exact ht
    · rw [hk.1] at ht
      cases ht
  refine h.work (by rw [hp]; exact mem_cons_self) (fun d hd => by rw [hp]; exact hd) hwrite rfl ?_
  refine ⟨⟨rsp, ?_⟩, by simp⟩
  simp only [setCtx, update_self]
  exact ⟨hk.1, hk.2, rfl⟩

theorem setIoError_paired (hp : s.acts (.closer i) = .closing (c :: rest)) :
    Paired ((s.setCtx c { s.ctxs c with result := resultIoError }).setAct (.closer i) (.rsp c .start rest)) := by
  have hk := h.knows (.closer i)
  rw [hp] at hk
  have hwrite : Kept (s.ctxs c) { s.ctxs c with result := resultIoError } := by
    refine ⟨rfl, rfl, fun rsp ht _ => ?_, fun _ _ h => h, fun _ h => h, fun h => h⟩
    rw [hk c mem_cons_self] at ht
    cases ht
  exact h.write (by rw [hp]; exact mem_cons_self) (fun d hd => by rw [hp]; exact hd) (fun d hd => hk d hd) hwrite rfl

end

/-! ## Runs -/

theorem step_paired (s : St) (o : Op) (ho : InTime s o) (hi : Inv s) (h : Paired s) : Paired (step s o) := by
  cases o with
  | request sn scd fiber connected => exact request_paired h hi sn scd fiber connected
  | addCtx c => exact inv_ite h fun hc => addCtx_paired h hc
  | addTimer c =>
    refine inv_ite h fun hc => ?_
    have harmed : Paired (s.setAct (.timer c) .armed) := h.early rfl
    exact harmed.ask (by simp) (by simp)
  | assignTimer c => exact inv_ite h fun hc => (assignTimer_paired h c).ask (by simp) (by simp)
  | hold c => exact inv_ite h fun hc => h.ask (by simp) (by simp)
  | resume c =>
    refine inv_ite h fun hc => h.ask (by simp) fun res rsp he => ?_
    cases he
    exact ⟨hc.2, by simp, by simp⟩
  | readResult c =>
    simp only [step]
    split
    next rsp hc =>
      have hr := h.reads c none rsp hc
      refine h.ask (by simp) fun res' rsp' he => ?_
      cases he
      refine ⟨hr.scheduled, fun r x he ht => ?_, hr.response⟩
      cases he
      exact (h.answered c x hr.scheduled ht).result
    next => exact h
  | readResponse c =>
    simp only [step]
    split
    next res hc =>
      have hr := h.reads c res none hc
      refine h.ask (by simp) fun res' rsp' he => ?_
      cases he
      refine ⟨hr.scheduled, hr.result, fun o he => ?_⟩
      cases he
      exact h.response_eq hr.scheduled
    next => exact h
  | expire c => exact inv_ite h fun hc => h.early rfl
  | erase c => exact inv_ite h fun hc => erase_paired h hi hc
  | setTimed c => exact inv_ite h fun hc => setTimed_paired h hc ho
  | recv i rsp =>
    refine inv_ite h fun hidle => ?_
    split
    next c hc => exact recv_paired h hc
    next => exact h
  | setResult i =>
    simp only [step]
    split
    next c rsp hp => exact setResult_paired h hp
    next => exact h
  | setResponse i =>
    simp only [step]
    split
    next c rsp hp => exact setResponse_paired h hp
    next => exact h
  | close i order =>
    simp only [step]
    split_ifs with hc hnil
    · exact close_paired h (by simp [Act.ctxs])
    · exact close_paired h fun d hd => hc.2.subset hd
    · exact h
  | setIoError i =>
    simp only [step]
    split
    next c rest hp => exact setIoError_paired h hp
    next => exact h
  | doRsp p =>
    simp only [step]
    split
    next c st rest hp => exact rspStep_paired h hi hp
    next => exact h

theorem paired_run (ops : List Op) (hops : Meets step InTime init ops) : Paired (run step init ops) := by
  have h : Inv (run step init ops) ∧ Paired (run step init ops) :=
    run_inv (I := fun s => Inv s ∧ Paired s) (fun s o ho h => ⟨step_inv s o h.1, step_paired s o ho h.1 h.2⟩) hops
      ⟨inv_init, paired_init⟩
  exact h.2

/-! ## Main results -/

/-- **Pairs of requests.** -/
theorem pair_consistent (ops : List Op) (hops : Meets step InTime init ops) (c : ℕ) (r : Result × Option Response)
    (hr : ((run step init ops).requests c).returned = some r) : Consistent r := by
  have h := paired_run ops hops
  cases hc : (run step init ops).requests c with
  | refused =>
    rw [hc] at hr
    cases hr
    exact ⟨fun _ => rfl, by simp⟩
  | reading res rsp =>
    have hreads := h.reads c res rsp hc
    rw [hc] at hr
    cases res with
    | none => cases hr
    | some res =>
      cases rsp with
      | none => cases hr
      | some rsp =>
        cases hr
        have heq := hreads.response rsp rfl
        cases ht : ((run step init ops).ctxs c).taken with
        | none =>
          rw [ht] at heq
          subst heq
          exact ⟨fun _ => rfl, by simp⟩
        | some x =>
          rw [ht] at heq
          subst heq
          have hres := hreads.result res x rfl ht
          subst hres
          exact ⟨by simp, by simp⟩
  | _ =>
    rw [hc] at hr
    cases hr

/-- request 7 is answered, and its timer comes too late -/
def answeredInTime : List Op :=
  [.request 7 0 0 true, .addCtx 0, .addTimer 0, .assignTimer 0, .hold 0, .expire 0, .recv 0 ⟨7, 200⟩, .setResult 0,
    .setResponse 0,
    .doRsp (.receiver 0), .doRsp (.receiver 0), .doRsp (.receiver 0), .doRsp (.receiver 0), .doRsp (.receiver 0),
    .doRsp (.receiver 0), .erase 0, .setTimed 0, .resume 0, .readResult 0, .readResponse 0]

theorem pair_consistent_in_time : Meets step InTime init answeredInTime ∧
    ((run step init answeredInTime).requests 0).returned = some (⟨200, .response⟩, some ⟨7, 200⟩) ∧
    Consistent (⟨200, .response⟩, some ⟨7, 200⟩) :=
  have hops : Meets step InTime init answeredInTime := by decide
  have hret : ((run step init answeredInTime).requests 0).returned = some (⟨200, .response⟩, some ⟨7, 200⟩) := by decide
  ⟨hops, hret, pair_consistent answeredInTime hops 0 _ hret⟩

theorem timeout_with_response :
    let ops : List Op :=
      [.request 7 0 0 true, .addCtx 0, .addTimer 0, .assignTimer 0, .hold 0, .expire 0, .recv 0 ⟨7, 200⟩,
      .setResult 0, .setResponse 0, .erase 0, .setTimed 0, .doRsp (.timer 0), .doRsp (.timer 0), .doRsp (.timer 0),
      .doRsp (.timer 0),
      .doRsp (.timer 0), .doRsp (.timer 0), .doRsp (.timer 0), .resume 0, .readResult 0, .readResponse 0]
    ((run step init ops).requests 0).returned = some (resultTimeout, some ⟨7, 200⟩) ∧
      ¬ Consistent (resultTimeout, some ⟨7, 200⟩) := by
  refine ⟨by decide, fun h => ?_⟩
  have := h.1 (.inl rfl)
  cases this

end CoServer.AsyncStream.Requests
