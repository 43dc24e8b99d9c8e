/-
Who completes a request: the compare-and-swap of `doRsp` on the scheduler of the context. Whoever exchanges a non-null
scheduler for null has won the context and schedules its fiber, some steps later; everybody else returns without
scheduling.

Results:
- `completed_once`: in every run of requests, responses, timeouts and closes `doRsp` has scheduled no fiber of a request
  twice; and when the timeout callback of a request has completed, the fiber has been scheduled, or some party has
  exchanged the scheduler of the context for null and is on its way to `schedule`.
- `timeout_before_schedule`: a receiver wins the context of a request before its timeout callback comes to the exchange.
-/
import CoServer.AsyncStream.Requests

namespace CoServer.AsyncStream.Requests

open CoServer.Core Function List St

/-! ## What a party holds -/

/-- the context that a party has won and not scheduled yet -/
def Act.wins : Act → Option ℕ
  | .rsp c (.cancel _) _ | .rsp c (.clear _) _ | .rsp c (.test _) _ | .rsp c (.stamp _) _
  | .rsp c (.schedule _) _ => some c
  | _ => none

/-- the contexts that a party points to -/
def Act.ctxs : Act → List ℕ
  | .took c _ | .wrote c _ => [c]
  | .closing cs => cs
  | .rsp c _ rest => c :: rest
  | _ => []

/-- a context that a request has filled in -/
def St.live (s : St) (c : ℕ) : Prop := (s.ctxs c).fiber ≠ none

/-- what a party knows about the contexts it deals with -/
structure Local (s : St) (p : Party) (a : Act) : Prop where
  live : ∀ c ∈ a.ctxs, s.live c
  /-- a scheduler that is still there is the one that was read -/
  read : ∀ c scd rest, a = .rsp c (.swap scd) rest → ∀ x, (s.ctxs c).scheduler = some x → scd = some x
  /-- a timer deals with its own context -/
  own : ∀ c, p = .timer c → ∀ c' stage rest, a = .rsp c' stage rest → c' = c ∧ rest = []
  armed : ∀ c, p = .timer c → a ≠ .idle → s.live c
  done : ∀ c, p = .timer c → a = .done → (s.ctxs c).scheduler = none

variable {s s' : St} {c : ℕ} {p : Party} {a : Act} {rest : List ℕ} {st : Stage}

theorem Local.mono (h : Local s p a) (hlive : ∀ c, s.live c → s'.live c)
    (hsch : ∀ c x, s.live c → (s'.ctxs c).scheduler = some x → (s.ctxs c).scheduler = some x) : Local s' p a := by
  refine ⟨fun c hc => hlive c (h.live c hc), ?_, h.own, fun c hp ha => hlive c (h.armed c hp ha), ?_⟩
  · rintro c scd rest rfl x hx
    exact h.read c scd rest rfl x (hsch c x (h.live c (by simp [Act.ctxs])) hx)
  intro c hp ha
  have hlv := h.armed c hp (by rw [ha]; simp)
  have hnone := h.done c hp ha
  cases hx : (s'.ctxs c).scheduler with
  | none => rfl
  | some x => rw [hsch c x hlv hx] at hnone; cases hnone

/-! ## The token -/

/-- for each context: the token is there, or one party has won it, or its fiber was scheduled -/
structure Token (s : St) : Prop where
  free : ∀ c, (s.ctxs c).scheduler ≠ none → c ∉ s.scheduled ∧ ∀ p, (s.acts p).wins ≠ some c
  alone : ∀ p q c, (s.acts p).wins = some c → (s.acts q).wins = some c → p = q
  pending : ∀ p c, (s.acts p).wins = some c → c ∉ s.scheduled
  once : s.scheduled.Nodup
  spent : ∀ c, s.live c → (s.ctxs c).scheduler = none → c ∈ s.scheduled ∨ ∃ p, (s.acts p).wins = some c

/-- the schedulers and the fibers of the contexts are the same -/
def Same (ctxs ctxs' : ℕ → Ctx) : Prop :=
  ∀ c, (ctxs' c).scheduler = (ctxs c).scheduler ∧ (ctxs' c).fiber = (ctxs c).fiber

theorem Same.refl (ctxs : ℕ → Ctx) : Same ctxs ctxs := fun _ => ⟨rfl, rfl⟩

theorem same_update {x : Ctx} (hs : x.scheduler = (s.ctxs c).scheduler) (hf : x.fiber = (s.ctxs c).fiber) :
    Same s.ctxs (update s.ctxs c x) :=
  fun d => ⟨proj_update Ctx.scheduler hs d, proj_update Ctx.fiber hf d⟩

variable {ctxs : ℕ → Ctx} {next : ℕ} {map : List (ℕ × ℕ)} {requests : ℕ → Request} {acts : Party → Act}

theorem Token.same (h : Token s) (hctx : Same s.ctxs ctxs) (hwins : ∀ p, (acts p).wins = (s.acts p).wins) :
    Token { s with ctxs := ctxs, next := next, map := map, requests := requests, acts := acts } := by
  refine ⟨fun c hc => ?_, fun p q c hp hq => ?_, fun p c hp => ?_, h.once, fun c hc hnone => ?_⟩
  · obtain ⟨h1, h2⟩ := h.free c ((hctx c).1 ▸ hc)
    exact ⟨h1, fun p => by rw [hwins]; exact h2 p⟩
  · rw [hwins] at hp hq; exact h.alone p q c hp hq
  · rw [hwins] at hp; exact h.pending p c hp
  simp only [hwins]
  exact h.spent c (by rw [live, ← (hctx c).2]; exact hc) ((hctx c).1 ▸ hnone)

theorem Token.win (h : Token s) {x : ℕ} (hc : (s.ctxs c).scheduler = some x) (hp : (s.acts p).wins = none)
    (ha : a.wins = some c) : Token ((s.setCtx c { s.ctxs c with scheduler := none }).setAct p a) := by
  obtain ⟨hout, hnobody⟩ := h.free c (by rw [hc]; simp)
  -- the winners afterwards: the old ones, and `p` with `c`
  have hwins : ∀ q d, (update s.acts p a q).wins = some d ↔ (q = p ∧ d = c) ∨ (s.acts q).wins = some d := by
    intro q d
    by_cases hq : q = p
    · subst hq
      rw [update_self, ha, hp]
      simp [eq_comm]
    · simp [hq]
  refine ⟨fun d hd => ?_, fun q r d hq hr => ?_, fun q d hq => ?_, h.once, fun d hd hnone => ?_⟩
  · by_cases hdc : d = c
    · subst hdc
      simp [setAct, setCtx] at hd
    have hd' : (s.ctxs d).scheduler ≠ none := by simpa [setAct, setCtx, hdc] using hd
    obtain ⟨h1, h2⟩ := h.free d hd'
    refine ⟨h1, fun q hq => ?_⟩
    rcases (hwins q d).1 hq with ⟨-, he⟩ | hq
    · exact hdc he
    · exact h2 q hq
  · rcases (hwins q d).1 hq with ⟨hq, hdc⟩ | hq <;> rcases (hwins r d).1 hr with ⟨hr, hdc'⟩ | hr
    · rw [hq, hr]
    · exact absurd hr (hdc ▸ hnobody r)
    · exact absurd hq (hdc' ▸ hnobody q)
    · exact h.alone q r d hq hr
  · rcases (hwins q d).1 hq with ⟨-, rfl⟩ | hq
    · exact hout
    · exact h.pending q d hq
  · by_cases hdc : d = c
    · exact .inr ⟨p, (hwins p d).2 (.inl ⟨rfl, hdc⟩)⟩
    have hnone' : (s.ctxs d).scheduler = none := by simpa [setAct, setCtx, hdc] using hnone
    have hd' : s.live d := by simpa [live, setAct, setCtx, hdc] using hd
    rcases h.spent d hd' hnone' with h1 | ⟨q, hq⟩
    · exact .inl h1
    · exact .inr ⟨q, (hwins q d).2 (.inr hq)⟩

theorem Token.schedule (h : Token s) (hp : (s.acts p).wins = some c)
    (ha : a.wins = none) : Token ({ s with scheduled := s.scheduled ++ [c] }.setAct p a) := by
  have hout := h.pending p c hp
  have hspent : (s.ctxs c).scheduler = none := by
    by_contra hc
    exact (h.free c hc).2 p hp
  have hwins : ∀ q d, (update s.acts p a q).wins = some d → (s.acts q).wins = some d ∧ q ≠ p := by
    intro q d hq
    by_cases hqp : q = p
    · subst hqp
      rw [update_self, ha] at hq
      cases hq
    · rw [update_of_ne hqp] at hq
      exact ⟨hq, hqp⟩
  refine ⟨fun d hd => ?_, fun q r d hq hr => ?_, fun q d hq => ?_, ?_, fun d hd hnone => ?_⟩
  · obtain ⟨h1, h2⟩ := h.free d hd
    refine ⟨fun hmem => ?_, fun q hq => h2 q (hwins q d hq).1⟩
    rcases mem_append.1 hmem with hmem | hmem
    · exact h1 hmem
    · rw [mem_singleton.1 hmem] at hd
      exact hd hspent
  · exact h.alone q r d (hwins q d hq).1 (hwins r d hr).1
  · obtain ⟨hq, hne⟩ := hwins q d hq
    intro hmem
    rcases mem_append.1 hmem with hmem | hmem
    · exact h.pending q d hq hmem
    · rw [mem_singleton.1 hmem] at hq
      exact hne (h.alone q p c hq hp)
  · exact nodup_append.2 ⟨h.once, nodup_singleton c, by
      intro x hx y hy; rintro rfl
      rw [mem_singleton.1 hy] at hx
      exact hout hx⟩
  · rcases h.spent d hd hnone with h1 | ⟨q, hq⟩
    · exact .inl (mem_append_left _ h1)
    by_cases hqp : q = p
    · subst hqp
      rw [hq] at hp
      cases hp
      exact .inl (mem_append_right _ (mem_singleton_self _))
    · exact .inr ⟨q, by simpa [setAct, hqp] using hq⟩

/-! ## The invariant -/

/-- a request with a context -/
def Request.active : Request → Bool
  | .none | .refused => false
  | _ => true

/-- a request that has not added its timer -/
def Request.early : Request → Bool
  | .none | .refused | .created | .added => true
  | _ => false

structure Inv (s : St) : Prop where
  parties : ∀ p, Local s p (s.acts p)
  token : Token s
  fresh : ∀ c, s.next ≤ c → ¬ s.live c
  map : ∀ e ∈ s.map, s.live e.2
  scheduled : ∀ c ∈ s.scheduled, s.live c
  requests : ∀ c, (s.requests c).active = true → s.live c
  unarmed : ∀ c, (s.requests c).early = true → s.acts (.timer c) = .idle

theorem inv_init : Inv init := by
  refine ⟨fun p => ⟨?_, ?_, ?_, ?_, ?_⟩, ⟨?_, ?_, ?_, ?_, ?_⟩, ?_, ?_, ?_, ?_, ?_⟩ <;>
    simp [init, Act.ctxs, Act.wins, live, Request.active]

theorem Inv.quiet (h : Inv s) (hctx : Same s.ctxs ctxs) (hmap : ∀ e ∈ map, s.live e.2)
    (hreq : ∀ c, (requests c).active = true → s.live c)
    (hearly : ∀ c, (requests c).early = true → acts (.timer c) = .idle)
    (hacts : ∀ p, (acts p).wins = (s.acts p).wins ∧ Local s p (acts p)) :
    Inv { s with ctxs := ctxs, map := map, requests := requests, acts := acts } := by
  have hlive : ∀ c, (ctxs c).fiber ≠ none ↔ s.live c := fun c => by rw [live, (hctx c).2]
  refine ⟨fun p => ?_, h.token.same hctx fun p => (hacts p).1, fun c hc => ?_, fun e he => ?_, fun c hc => ?_,
    fun c hc => ?_, hearly⟩
  · exact (hacts p).2.mono (fun c hc => (hlive c).2 hc) (fun c x _ hx => (hctx c).1 ▸ hx)
  · exact mt (hlive c).1 (h.fresh c hc)
  · exact (hlive _).2 (hmap e he)
  · exact (hlive _).2 (h.scheduled c hc)
  · exact (hlive _).2 (hreq c hc)

theorem Inv.proceed (h : Inv s) {r : Request} (hctx : Same s.ctxs ctxs) (hmap : ∀ e ∈ map, s.live e.2)
    (hc : (s.requests c).active = true) (hr : r.early = true → (s.requests c).early = true) :
    Inv { s with ctxs := ctxs, map := map, requests := update s.requests c r } := by
  refine h.quiet hctx hmap ?_ ?_ fun p => ⟨rfl, h.parties p⟩
  · exact (forall_update_iff s.requests fun d r => r.active = true → s.live d).2
      ⟨fun _ => h.requests c hc, fun d _ => h.requests d⟩
  · exact (forall_update_iff s.requests fun d r => r.early = true → s.acts (.timer d) = .idle).2
      ⟨fun he => h.unarmed c (hr he), fun d _ => h.unarmed d⟩

theorem local_idle (s : St) (hctxs : a.ctxs = []) (hrsp : ∀ c st rest, a ≠ .rsp c st rest)
    (harmed : ∀ c, p = .timer c → a ≠ .idle → s.live c) (hdone : a ≠ .done) : Local s p a :=
  ⟨fun c hc => (by rw [hctxs] at hc; cases hc), fun c scd rest he => absurd he (hrsp _ _ _),
    fun c _ c' st rest he => absurd he (hrsp _ _ _), harmed, fun c _ he => absurd he hdone⟩

theorem local_holding (hp : ∀ c, p ≠ .timer c) (hrsp : ∀ c st rest, a ≠ .rsp c st rest)
    (hlive : ∀ c ∈ a.ctxs, s.live c) : Local s p a :=
  ⟨hlive, fun _ _ _ he => absurd he (hrsp _ _ _), fun c hc => absurd hc (hp c), fun c hc => absurd hc (hp c),
    fun c hc => absurd hc (hp c)⟩

theorem local_start (hlive : ∀ d ∈ c :: rest, s.live d)
    (hown : ∀ d, p = .timer d → c = d ∧ rest = []) : Local s p (.rsp c .start rest) := by
  refine ⟨hlive, fun c' scd rest' he => (by cases he), fun d hd c' st rest' he => ?_, fun d hd _ => ?_,
    fun d _ he => (by cases he)⟩
  · cases he; exact hown d hd
  · obtain ⟨rfl, -⟩ := hown d hd
    exact hlive c mem_cons_self

theorem mem_eraseCtx {map : List (ℕ × ℕ)} {sn : ℕ} {e : ℕ × ℕ} (h : e ∈ eraseCtx map sn) : e ∈ map ∧ e.1 ≠ sn := by
  simpa [eraseCtx] using h

theorem findCtx_mem {map : List (ℕ × ℕ)} {sn : ℕ} (h : findCtx map sn = some c) : (sn, c) ∈ map := by
  unfold findCtx at h
  cases hf : map.find? (fun e => e.1 = sn) with
  | none => rw [hf] at h; cases h
  | some e =>
    rw [hf] at h
    have hkey : e.1 = sn := by simpa using List.find?_some hf
    have hval : e.2 = c := by simpa using h
    rw [← hkey, ← hval]
    exact mem_of_find?_eq_some hf

theorem mem_insertCtx {map : List (ℕ × ℕ)} {sn : ℕ} {e : ℕ × ℕ} (h : e ∈ insertCtx map sn c) :
    e ∈ map ∨ e = (sn, c) := by
  unfold insertCtx at h
  split_ifs at h
  · exact .inl h
  · simpa using h

/-! ## Steps of `doRsp` -/

theorem Local.stage {st' : Stage} (h : Local s p (.rsp c st rest)) (hst : ∀ scd, st' ≠ .swap scd) :
    Local s p (.rsp c st' rest) := by
  refine ⟨h.live, fun c' scd rest' he => ?_, fun d hd c' st'' rest' he => ?_, fun d hd _ => h.armed d hd (by simp),
    fun d _ he => (by cases he)⟩
  · cases he; exact absurd rfl (hst scd)
  · cases he; exact h.own d hd c st rest rfl

theorem Local.after (h : Local s p (.rsp c st rest)) (hnone : (s.ctxs c).scheduler = none) :
    Local s p (after p rest) := by
  cases p with
  | receiver i => exact local_idle s rfl (by simp [Requests.after]) (by simp) (by simp [Requests.after])
  | timer d =>
    obtain ⟨rfl, -⟩ := h.own d rfl c st rest rfl
    exact ⟨fun x hx => (by cases hx), fun c' scd rest' he => (by cases he), fun d' _ c' st' rest' he => (by cases he),
      fun d' hd _ => h.armed d' hd (by simp), fun d' hd _ => (by cases hd; exact hnone)⟩
  | closer i =>
    simp only [Requests.after]
    split_ifs with hr
    · exact local_idle s rfl (by simp) (by simp) (by simp)
    · exact ⟨fun x hx => h.live x (mem_cons_of_mem _ hx), by simp, by simp, by simp, by simp⟩

theorem after_wins (p : Party) (rest : List ℕ) : (after p rest).wins = none := by
  cases p with
  | closer i => simp only [after]; split_ifs <;> rfl
  | _ => rfl

section

variable (h : Inv s)
include h

theorem Inv.unarmed_act (hp : ∀ c, p = .timer c → s.acts p ≠ .idle) (hc : (s.requests c).early = true) :
    update s.acts p a (.timer c) = .idle := by
  have hidle := h.unarmed c hc
  rw [update_of_ne (by rintro rfl; exact hp c rfl hidle)]
  exact hidle

theorem Inv.local_act (hloc : Local s p a) : ∀ q, Local s q (update s.acts p a q) :=
  (forall_update_iff s.acts (Local s)).2 ⟨hloc, fun q _ => h.parties q⟩

theorem Inv.move (hctx : Same s.ctxs ctxs) (hmap : ∀ e ∈ map, e ∈ s.map) (hp : ∀ c, p = .timer c → s.acts p ≠ .idle)
    (hw : a.wins = (s.acts p).wins) (hloc : Local s p a) :
    Inv { s with ctxs := ctxs, map := map, acts := update s.acts p a } :=
  h.quiet hctx (fun e he => h.map e (hmap e he)) h.requests (fun _ hc => h.unarmed_act hp hc) fun q =>
    ⟨proj_update Act.wins hw q, h.local_act hloc q⟩

theorem Inv.assign {x : Ctx} (hs : x.scheduler = (s.ctxs c).scheduler)
    (hf : x.fiber = (s.ctxs c).fiber) (hp : ∀ d, p = .timer d → s.acts p ≠ .idle) (hw : a.wins = (s.acts p).wins)
    (hloc : Local s p a) : Inv ((s.setCtx c x).setAct p a) :=
  h.move (same_update hs hf) (fun _ he => he) hp hw hloc

theorem Inv.held (hp : s.acts p = a) : ∀ c ∈ a.ctxs, s.live c := hp ▸ (h.parties p).live

theorem Inv.timer_live (hc : s.acts (.timer c) ≠ .idle) : s.live c := (h.parties (.timer c)).armed c rfl hc

theorem Inv.timer (hc : s.acts (.timer c) ≠ .idle) (hmap : ∀ e ∈ map, e ∈ s.map)
    (hw : a.wins = (s.acts (.timer c)).wins) (hctxs : a.ctxs = []) (hrsp : ∀ c st rest, a ≠ .rsp c st rest)
    (hdone : a ≠ .done) : Inv { s with map := map, acts := update s.acts (.timer c) a } := by
  refine h.move (Same.refl _) hmap (fun _ _ => hc) hw (local_idle s hctxs hrsp (fun d hd _ => ?_) hdone)
  cases hd
  exact h.timer_live hc

theorem Inv.stage (hp : s.acts p = .rsp c st rest) (hctx : Same s.ctxs ctxs) (hw : a.wins = (Act.rsp c st rest).wins)
    (hloc : Local s p a) : Inv { s with ctxs := ctxs, acts := update s.acts p a } :=
  h.move hctx (fun _ he => he) (fun _ _ => by rw [hp]; simp) (by rw [hw, hp]) hloc

theorem Inv.win {x : ℕ} (hc : (s.ctxs c).scheduler = some x)
    (hp : (s.acts p).wins = none) (hidle : s.acts p ≠ .idle) (ha : a.wins = some c) (hloc : Local s p a) :
    Inv ((s.setCtx c { s.ctxs c with scheduler := none }).setAct p a) := by
  have hlive : ∀ d, ((s.setCtx c { s.ctxs c with scheduler := none }).setAct p a).live d ↔ s.live d := by
    intro d
    have : (update s.ctxs c { s.ctxs c with scheduler := none } d).fiber = (s.ctxs d).fiber :=
      proj_update Ctx.fiber (by rfl) d
    simp only [live, setAct, setCtx, this]
  have hsch : ∀ d y, (update s.ctxs c { s.ctxs c with scheduler := none } d).scheduler = some y →
      (s.ctxs d).scheduler = some y := by
    intro d y hy
    by_cases hd : d = c
    · subst hd; simp at hy
    · simpa [hd] using hy
  refine ⟨fun q => ?_, h.token.win hc hp ha, fun d hd => ?_, fun e he => ?_, fun d hd => ?_, fun d hd => ?_,
    fun d hd => ?_⟩
  · exact (h.local_act hloc q).mono (fun d hd => (hlive d).2 hd) (fun d y _ hy => hsch d y hy)
  · rw [hlive]; exact h.fresh d hd
  · rw [hlive]; exact h.map e he
  · rw [hlive]; exact h.scheduled d hd
  · rw [hlive]; exact h.requests d hd
  · exact h.unarmed_act (fun _ _ => hidle) hd

theorem rspStep_inv (hp : s.acts p = .rsp c st rest) : Inv (rspStep s p c rest st) := by
  have hloc := h.parties p
  rw [hp] at hloc
  have hsame := Same.refl s.ctxs
  cases st with
  | start =>
    refine h.stage hp hsame rfl ⟨hloc.live, ?_, ?_, ?_, ?_⟩
    · intro c' scd rest' he x hx
      cases he
      exact hx
    · intro d hd c' st' rest' he
      cases he
      exact hloc.own d hd c _ rest rfl
    · exact fun d hd _ => hloc.armed d hd (by simp)
    · exact fun d _ he => (by cases he)
  | swap scd =>
    simp only [rspStep]
    split_ifs with heq
    · cases scd with
      | none =>
        exact h.stage hp (same_update heq.symm rfl) (after_wins p rest) (hloc.after heq)
      | some x =>
        obtain ⟨f, hf⟩ := Option.ne_none_iff_exists'.1 (hloc.live c mem_cons_self)
        have hwon : Local s p (.rsp c (.cancel x) rest) := hloc.stage (by simp)
        have hwin := h.win heq (by rw [hp]; rfl) (by rw [hp]; simp) rfl hwon
        simp only [hf] at hwin ⊢
        exact hwin
    · -- somebody else was faster
      have hnone : (s.ctxs c).scheduler = none := by
        cases hx : (s.ctxs c).scheduler with
        | none => rfl
        | some x => exact absurd (hloc.read c scd rest rfl x hx) (by rw [hx] at heq; exact fun he => heq he.symm)
      exact h.stage hp hsame (after_wins p rest) (hloc.after hnone)
  | cancel scd =>
    simp only [rspStep]
    split_ifs with ht harmed
    · have hne : p ≠ .timer c := by rintro rfl; rw [harmed] at hp; cases hp
      have hcancelled : Inv (s.setAct (.timer c) .cancelled) := by
        have hbegun : s.acts (.timer c) ≠ .idle := by rw [harmed]; simp
        exact h.timer hbegun (fun _ he => he) (by rw [harmed]; rfl) rfl (by simp) (by simp)
      have hp' : (s.setAct (.timer c) .cancelled).acts p = .rsp c (.cancel scd) rest := by simpa [setAct, hne] using hp
      have hloc' := hcancelled.parties p
      rw [hp'] at hloc'
      exact hcancelled.stage hp' (Same.refl _) rfl (hloc'.stage (by simp))
    all_goals exact h.stage hp hsame rfl (hloc.stage (by simp))
  | clear scd | stamp scd => exact h.stage hp (same_update rfl rfl) rfl (hloc.stage (by simp))
  | test scd =>
    simp only [rspStep]
    split_ifs
    all_goals exact h.stage hp hsame rfl (hloc.stage (by simp))
  | schedule scd =>
    have hnone : (s.ctxs c).scheduler = none := by
      by_contra hc
      exact (h.token.free c hc).2 p (by rw [hp]; rfl)
    refine ⟨fun q => ?_, h.token.schedule (by rw [hp]; rfl) (after_wins p rest), h.fresh, h.map, fun d hd => ?_,
      h.requests, fun d hd => ?_⟩
    · have hq := h.local_act (hloc.after hnone) q
      exact ⟨hq.live, hq.read, hq.own, hq.armed, hq.done⟩
    · rcases mem_append.1 hd with hd | hd
      · exact h.scheduled d hd
      · rw [mem_singleton.1 hd]; exact hloc.live c mem_cons_self
    · exact h.unarmed_act (fun _ _ => by rw [hp]; simp) hd

end

/-! ## Runs -/

theorem wins_mem_ctxs (h : a.wins = some c) : c ∈ a.ctxs := by
  cases a with
  | rsp d st rest =>
    cases st with
    | start | swap scd => cases h
    | _ => cases h; exact mem_cons_self
  | _ => cases h

theorem request_inv (h : Inv s) (sn scd fiber : ℕ) (connected : Bool) : Inv (request s sn scd fiber connected) := by
  have hdead : ¬ s.live s.next := h.fresh _ le_rfl
  have hout : s.next ∉ s.scheduled := fun hm => hdead (h.scheduled _ hm)
  have hnobody : ∀ p, (s.acts p).wins ≠ some s.next := fun p hw => hdead ((h.parties p).live _ (wins_mem_ctxs hw))
  -- the timer of the new context has not been added
  have hearly : ∀ {r : Request} (c : ℕ), (update s.requests s.next r c).early = true → s.acts (.timer c) = .idle := by
    intro r c hc
    by_cases hcn : c = s.next
    · by_contra hne
      exact hdead (hcn ▸ (h.parties (.timer c)).armed c rfl hne)
    · rw [update_of_ne hcn] at hc
      exact h.unarmed c hc
  unfold request
  cases connected with
  | false =>
    refine ⟨fun p => ?_, ?_, fun c hc => h.fresh c (Nat.le_of_succ_le hc), h.map, h.scheduled, fun c hc => ?_, hearly⟩
    · have hl := h.parties p
      exact ⟨hl.live, hl.read, hl.own, hl.armed, hl.done⟩
    · exact h.token.same (Same.refl _) fun _ => rfl
    · by_cases hcn : c = s.next
      · subst hcn; simp [setRequest, Request.active] at hc
      · exact h.requests c (by simpa [setRequest, hcn] using hc)
  | true =>
    have hold : ∀ c, c ≠ s.next → ∀ x : Ctx, update s.ctxs s.next x c = s.ctxs c := fun c hc x => update_of_ne hc _ _
    have hne : ∀ c, s.live c → c ≠ s.next := by rintro c hc rfl; exact hdead hc
    have hlive : ∀ c (x : Ctx), s.live c → (update s.ctxs s.next x c).fiber ≠ none := by
      intro c x hc
      rw [hold c (hne c hc)]
      exact hc
    refine ⟨fun p => (h.parties p).mono (fun c hc => hlive c _ hc) ?_,
      ⟨fun c hc => ?_, ?_, ?_, ?_, fun c hc hnone => ?_⟩,
      fun c hc => ?_, fun e he => hlive _ _ (h.map e he), fun c hc => hlive _ _ (h.scheduled c hc),
      fun c hc => ?_, hearly⟩
    · intro c x hc hx
      simpa [setRequest, setCtx, hold c (hne c hc)] using hx
    · by_cases hcn : c = s.next
      · subst hcn; exact ⟨hout, hnobody⟩
      · exact h.token.free c (by simpa [setRequest, setCtx, hcn] using hc)
    · exact h.token.alone
    · exact h.token.pending
    · exact h.token.once
    · by_cases hcn : c = s.next
      · subst hcn; simp [setRequest, setCtx] at hnone
      · exact h.token.spent c (by simpa [live, setRequest, setCtx, hcn] using hc)
          (by simpa [setRequest, setCtx, hcn] using hnone)
    · have hc' : s.next + 1 ≤ c := hc
      have := h.fresh c (by omega)
      simpa [live, setRequest, setCtx, hold c (by omega)] using this
    · by_cases hcn : c = s.next
      · subst hcn; simp [live, setRequest, setCtx]
      · exact hlive c _ (h.requests c (by simpa [setRequest, setCtx, hcn] using hc))

theorem addTimer_inv (h : Inv s) (hc : s.requests c = .added) :
    Inv ((s.setAct (.timer c) .armed).setRequest c .armed) := by
  have hact : (s.requests c).active = true := by rw [hc]; rfl
  have hidle := h.unarmed c (by rw [hc]; rfl)
  refine h.quiet (Same.refl _) h.map ?_ (fun d hd => ?_) fun q => ?_
  · exact (forall_update_iff s.requests fun d r => r.active = true → s.live d).2
      ⟨fun _ => h.requests c hact, fun d _ => h.requests d⟩
  · have hne : d ≠ c := by rintro rfl; simp [Request.early] at hd
    rw [update_of_ne hne] at hd
    exact (update_of_ne (by simpa using hne) _ _).trans (h.unarmed d hd)
  · refine ⟨proj_update Act.wins (by rw [hidle]; rfl) q,
      h.local_act (local_idle s rfl (by simp) (fun d hd _ => ?_) (by simp)) q⟩
    cases hd
    exact h.requests c hact

theorem step_inv (s : St) (o : Op) (h : Inv s) : Inv (step s o) := by
  have hsame := Same.refl s.ctxs
  -- the moves of a request that concern only itself
  have hgo : ∀ {c : ℕ} {r : Request}, (s.requests c).active = true → r.early = false → Inv (s.setRequest c r) :=
    fun hc hr => h.proceed hsame h.map hc fun he => by rw [hr] at he; cases he
  cases o with
  | request sn scd fiber connected => exact request_inv h sn scd fiber connected
  | addCtx c =>
    refine inv_ite h fun hc => ?_
    have hact : (s.requests c).active = true := by rw [hc]; rfl
    refine h.proceed hsame (fun e he => ?_) hact fun _ => by rw [hc]; rfl
    rcases mem_insertCtx he with he | rfl
    · exact h.map e he
    · exact h.requests c hact
  | addTimer c => exact inv_ite h fun hc => addTimer_inv h hc
  | assignTimer c =>
    refine inv_ite h fun hc => ?_
    exact h.proceed (same_update rfl rfl) h.map (by rw [hc]; rfl) fun he => by cases he
  | hold c => exact inv_ite h fun hc => hgo (by rw [hc]; rfl) rfl
  | resume c => exact inv_ite h fun hc => hgo (by rw [hc.1]; rfl) rfl
  | readResult c | readResponse c =>
    simp only [step]
    split
    next hc => exact hgo (by rw [hc]; rfl) rfl
    next => exact h
  | expire c =>
    refine inv_ite h fun hc => ?_
    have hne : s.acts (.timer c) ≠ .idle := by rw [hc]; simp
    exact h.timer hne (fun _ he => he) (by rw [hc]; rfl) rfl (by simp) (by simp)
  | erase c =>
    refine inv_ite h fun hc => ?_
    have hne : s.acts (.timer c) ≠ .idle := by rw [hc]; simp
    exact h.timer hne (fun e he => (mem_eraseCtx he).1) (by rw [hc]; rfl) rfl (by simp) (by simp)
  | setTimed c =>
    refine inv_ite h fun hc => ?_
    have hne : s.acts (.timer c) ≠ .idle := by rw [hc]; simp
    refine h.assign rfl rfl (fun _ _ => hne) (by rw [hc]; rfl) (local_start ?_ ?_)
    · intro d hd
      rw [mem_singleton.1 hd]
      exact h.timer_live hne
    · intro d hd
      cases hd
      exact ⟨rfl, rfl⟩
  | recv i rsp =>
    refine inv_ite h fun hi => ?_
    split
    next c hc =>
      have hlv : s.live c := h.map _ (findCtx_mem hc)
      refine h.move (same_update rfl rfl) (fun e he => (mem_eraseCtx he).1) (by simp) (by rw [hi]; rfl)
        (local_holding (by simp) (by simp) fun d hd => ?_)
      rw [mem_singleton.1 hd]
      exact hlv
    next => exact h
  | setResult i =>
    simp only [step]
    split
    next c rsp hi =>
      exact h.assign rfl rfl (by simp) (by rw [hi]; rfl) (local_holding (by simp) (by simp) fun d hd => h.held hi d hd)
    next => exact h
  | setResponse i =>
    simp only [step]
    split
    next c rsp hi =>
      exact h.assign rfl rfl (by simp) (by rw [hi]; rfl) (local_start (h.held hi) (by simp))
    next => exact h
  | close i order =>
    simp only [step]
    split_ifs with hi hnil
    · exact h.move hsame (by simp) (by simp) (by rw [hi.1]) (local_idle s rfl (by simp) (by simp) (by simp))
    · refine h.move hsame (by simp) (by simp) (by rw [hi.1]; rfl) (local_holding (by simp) (by simp) fun d hd => ?_)
      obtain ⟨e, he, rfl⟩ := mem_map.1 (hi.2.subset hd)
      exact h.map e he
    · exact h
  | setIoError i =>
    simp only [step]
    split
    next c rest hi =>
      exact h.assign rfl rfl (by simp) (by rw [hi]; rfl) (local_start (h.held hi) (by simp))
    next => exact h
  | doRsp p =>
    simp only [step]
    split
    next c st rest hp => exact rspStep_inv h hp
    next => exact h

theorem inv_run (ops : List Op) : Inv (run step init ops) :=
  run_inv_of_step (fun s o h => step_inv s o h) init ops inv_init

/-! ## Main results -/

/-- **Completion of requests.** -/
theorem completed_once (ops : List Op) :
    (run step init ops).scheduled.Nodup ∧
      ∀ c, (run step init ops).acts (.timer c) = .done →
        c ∈ (run step init ops).scheduled ∨ ∃ p, ((run step init ops).acts p).wins = some c := by
  have h := inv_run ops
  refine ⟨h.token.once, fun c hdone => ?_⟩
  have hlive : (run step init ops).live c := h.timer_live (by rw [hdone]; simp)
  have hnone : ((run step init ops).ctxs c).scheduler = none := (h.parties (.timer c)).done c rfl hdone
  exact h.token.spent c hlive hnone

theorem timeout_before_schedule :
    let ops : List Op :=
      [.request 7 0 0 true, .addCtx 0, .addTimer 0, .assignTimer 0, .hold 0, .expire 0, .recv 0 ⟨7, 200⟩,
      .setResult 0, .setResponse 0, .doRsp (.receiver 0), .doRsp (.receiver 0), .erase 0, .setTimed 0,
      .doRsp (.timer 0),
      .doRsp (.timer 0)]
    (run step init ops).acts (.timer 0) = .done ∧ 0 ∉ (run step init ops).scheduled := by
  decide

end CoServer.AsyncStream.Requests
