/-
`AsyncSocketStreamManager` (`async_socket_stream.cpp`): `get` looks for a connected stream, at most once around. Each
turn of its loop increments the shared counter `_idx` and tests the stream at the new value modulo the number of
streams.

Any number of threads call `get`, each under the read lock from its first turn until it returns, while connections come
and go. `add`, `clear` and `setConnection` run while nobody is in `get`; `setConnection` closes the old streams after
its section. The counter and `_size` have 32 bits. `drawn v gaps i` is the value of turn `i` of a call when the counter
was `v` and `gaps j` increments by others came before its turn `j`.

Results:
- `get_finds_iff`: for every number of streams, every value of the counter and all gaps between the turns of a call, a
  stream that stays connected is always found iff the call's turns visit every stream; and in every run a call in
  progress goes on.
- `finds_alone`: of fewer than 2^32 streams, the range of `_size`, one that stays connected is found by a call during
  which nobody else increments the counter, if the counter, `v` when the call starts, does not wrap on the way or the
  number of streams divides 2^32.
- `get_misses`: of two streams the first stays connected, and a call that another one alternates with returns null; of
  three streams the last stays connected, and a call alone returns null when the counter wraps.
-/
import CoServer.Core.Run
import CoServer.Core.Update

namespace CoServer.AsyncStream.Manager

open CoServer.Core Function List Nat

/-! ## Model -/

/-- a call of `get` -/
inductive Get where
  | none
  /-- before the `addFetch` of turn `i` -/
  | scanning (i : ℕ)
  /-- before the test of turn `i`, with the value drawn -/
  | testing (i idx : ℕ)
  | returned (stream : Option ℕ)
deriving DecidableEq

structure St where
  /-- `_datas`; streams are numbered -/
  datas : List ℕ
  /-- `_size` -/
  size : ℕ
  /-- `_idx` -/
  idx : ℕ
  /-- `isConnected()` of each stream -/
  connected : ℕ → Bool
  calls : ℕ → Get
  /-- calls `0 .. next - 1` were made -/
  next : ℕ
  /-- ghost: the values drawn so far, with the call -/
  draws : List (ℕ × ℕ)

inductive Op where
  /-- a thread calls `get` -/
  | get
  | draw (c : ℕ)
  | test (c : ℕ)
  /-- the connection of a stream comes or goes -/
  | connect (x : ℕ) (v : Bool)
  | add (x : ℕ)
  | clear
  | setConnection (streams : List ℕ)
deriving DecidableEq

/-- a manager of the streams `datas` at any value of the counter, with nobody in `get` -/
def init (datas : List ℕ) (idx : ℕ) (connected : ℕ → Bool) : St :=
  ⟨datas, datas.length % 2 ^ 32, idx, connected, fun _ => .none, 0, []⟩

variable (s : St)

def St.move (c : ℕ) (x : Get) : St := { s with calls := update s.calls c x }

/-- the head of the loop, at turn `i` -/
def St.loop (i : ℕ) : Get := if i < s.size then .scanning i else .returned none

def Get.inProgress : Get → Bool
  | .scanning _ | .testing _ _ => true
  | _ => false

/-- nobody holds the read lock -/
def St.unlocked : Prop := ∀ c < s.next, (s.calls c).inProgress = false

instance (s : St) : Decidable s.unlocked := by unfold St.unlocked; infer_instance

def step : Op → St
  | .get => { s.move s.next (s.loop 0) with next := s.next + 1 }
  | .draw c =>
    match s.calls c with
    | .scanning i =>
      let v := (s.idx + 1) % 2 ^ 32
      { s with idx := v, draws := s.draws ++ [(c, v)] }.move c (.testing i v)
    | _ => s
  | .test c =>
    match s.calls c with
    | .testing i v =>
      match s.datas[v % s.size]? with
      | some x => s.move c (if s.connected x then .returned (some x) else s.loop (i + 1))
      | none => s
    | _ => s
  | .connect x v => { s with connected := update s.connected x v }
  | .add x => if s.unlocked then { s with datas := s.datas ++ [x], size := (s.size + 1) % 2 ^ 32 } else s
  | .clear => if s.unlocked
      then { s with datas := [], size := 0, connected := fun x => s.connected x && decide (x ∉ s.datas) } else s
  | .setConnection streams => if s.unlocked then { s with datas := streams, size := streams.length % 2 ^ 32 } else s

/-- the values a call has drawn -/
def St.drawsOf (c : ℕ) : List ℕ := (s.draws.filter fun e => e.1 = c).map Prod.snd

variable {s : St} {c i k n v x : ℕ} {datas : List ℕ} {gaps : ℕ → ℕ}

theorem step_draw (hc : s.calls c = .scanning i) :
    step s (.draw c) = { s with
      idx := (s.idx + 1) % 2 ^ 32
      draws := s.draws ++ [(c, (s.idx + 1) % 2 ^ 32)]
      calls := update s.calls c (.testing i ((s.idx + 1) % 2 ^ 32)) } := by
  simp only [step, hc]
  rfl

theorem step_test (hc : s.calls c = .testing i v) (hx : s.datas[v % s.size]? = some x) :
    step s (.test c) = s.move c (if s.connected x then .returned (some x) else s.loop (i + 1)) := by
  simp only [step, hc, hx]

/-- a call that is not at its `addFetch` does not move -/
theorem draw_cases (s : St) (c : ℕ) : (∃ i, s.calls c = .scanning i) ∨ step s (.draw c) = s := by
  cases hc : s.calls c with
  | scanning i => exact .inl ⟨i, rfl⟩
  | _ => exact .inr (by simp only [step, hc])

/-- nor does one that is not at its test -/
theorem test_cases (s : St) (c : ℕ) :
    (∃ i v x, s.calls c = .testing i v ∧ s.datas[v % s.size]? = some x) ∨ step s (.test c) = s := by
  cases hc : s.calls c with
  | testing i v =>
    cases hx : s.datas[v % s.size]? with
    | some x => exact .inl ⟨i, v, x, rfl, hx⟩
    | none => exact .inr (by simp only [step, hc, hx])
  | _ => exact .inr (by simp only [step, hc])

/-! ## Property -/

/-- the value drawn at turn `i` by a call that found the counter at `v`, with `gaps j` increments by others before turn
`j` -/
def drawn (v : ℕ) (gaps : ℕ → ℕ) : ℕ → ℕ
  | 0 => (v + gaps 0 + 1) % 2 ^ 32
  | i + 1 => (drawn v gaps i + gaps (i + 1) + 1) % 2 ^ 32

/-- the turns visit each of `n` streams; there are as many turns as `_size` says -/
def Visits (n v : ℕ) (gaps : ℕ → ℕ) : Prop := ∀ k < n, ∃ i < n % 2 ^ 32, drawn v gaps i % (n % 2 ^ 32) = k

/-- in every run, a call that finds `n` streams and the counter at `v`, draws with these gaps and has a stream that
stays connected, does not return null -/
def AlwaysFinds (n v : ℕ) (gaps : ℕ → ℕ) : Prop :=
  ∀ (datas : List ℕ) (idx : ℕ) (connected : ℕ → Bool) (before after : List Op) (s₀ s : St) (x : ℕ) (r : Option ℕ),
    s₀ = run step (init datas idx connected) before → s₀.datas.length = n → s₀.idx = v → x ∈ s₀.datas →
    s = run step (step s₀ .get) after →
    Meets step (fun s _ => s.connected x = true) (step s₀ .get) after →
    s.drawsOf s₀.next = (range (s.drawsOf s₀.next).length).map (drawn v gaps) →
    s.calls s₀.next = .returned r → r ≠ none

/-! ## The manager -/

/-- the turn a call is at -/
def Get.turn : Get → Option ℕ
  | .scanning i | .testing i _ => some i
  | _ => Option.none

theorem Get.inProgress_of_turn {x : Get} (h : i ∈ x.turn) : x.inProgress = true := by
  cases x with
  | none | returned r => cases h
  | scanning j | testing j v => rfl

structure Inv (s : St) : Prop where
  size : s.size = s.datas.length % 2 ^ 32
  fresh : ∀ c, s.next ≤ c → s.calls c = .none ∧ s.drawsOf c = []
  turn : ∀ c, ∀ i ∈ (s.calls c).turn, i < s.size

theorem inv_init (datas : List ℕ) (idx : ℕ) (connected : ℕ → Bool) : Inv (init datas idx connected) where
  size := rfl
  fresh _ _ := ⟨rfl, rfl⟩
  turn _ _ h := by cases h

theorem Inv.lt_next (h : Inv s) (hc : s.calls c ≠ .none) : c < s.next := by
  by_contra hlt
  exact hc (h.fresh c (not_lt.1 hlt)).1

theorem drawsOf_append {s' : St} {d : ℕ} (h : s'.draws = s.draws ++ [(d, v)]) (c : ℕ) :
    s'.drawsOf c = if d = c then s.drawsOf c ++ [v] else s.drawsOf c := by
  unfold St.drawsOf
  rw [h]
  by_cases hd : d = c
  · simp [hd]
  · simp [hd]

theorem loop_turn (s : St) (i : ℕ) : ∀ j ∈ (s.loop i).turn, j < s.size := by
  unfold St.loop
  split_ifs with hlt
  · intro j hj
    cases hj
    exact hlt
  · simp [Get.turn]

theorem turn_update (h : ∀ c, ∀ i ∈ (s.calls c).turn, i < s.size) {x : Get} (hx : ∀ i ∈ x.turn, i < s.size) :
    ∀ d, ∀ i ∈ (update s.calls c x d).turn, i < s.size := by
  intro d i hi
  by_cases hd : d = c
  · subst hd
    exact hx i (by simpa using hi)
  · exact h d i (by simpa [hd] using hi)

theorem Inv.move (h : Inv s) {x : Get} (hc : s.calls c ≠ .none) (hx : ∀ i ∈ x.turn, i < s.size) :
    Inv (s.move c x) where
  size := h.size
  fresh d hd := by
    have hne : d ≠ c := by
      rintro rfl
      exact hc (h.fresh d hd).1
    refine ⟨?_, (h.fresh d hd).2⟩
    exact (update_of_ne hne x s.calls).trans (h.fresh d hd).1
  turn := turn_update h.turn hx

theorem Inv.rewrite (h : Inv s) (hu : s.unlocked) {size : ℕ} (hsize : size = datas.length % 2 ^ 32)
    (connected : ℕ → Bool) : Inv { s with datas := datas, size := size, connected := connected } where
  size := hsize
  fresh := h.fresh
  turn c i hi := by
    have hin : (s.calls c).inProgress = true := Get.inProgress_of_turn hi
    have hlt : c < s.next := h.lt_next fun hnone => by rw [hnone] at hin; cases hin
    rw [hu c hlt] at hin
    cases hin

theorem step_inv (s : St) (o : Op) (h : Inv s) : Inv (step s o) := by
  cases o with
  | get =>
    refine ⟨h.size, fun d hd => ?_, turn_update h.turn (loop_turn s 0)⟩
    have hd' : s.next + 1 ≤ d := hd
    have hne : d ≠ s.next := by omega
    have hold := h.fresh d (by omega)
    exact ⟨(update_of_ne hne _ s.calls).trans hold.1, hold.2⟩
  | draw c =>
    rcases draw_cases s c with ⟨i, hc⟩ | hs
    · have hlt := h.lt_next (c := c) (by rw [hc]; simp)
      rw [step_draw hc]
      refine ⟨h.size, fun d hd => ?_, turn_update h.turn fun j hj => h.turn c j (by rw [hc]; exact hj)⟩
      have hne : d ≠ c := (hlt.trans_le hd).ne'
      refine ⟨(update_of_ne hne _ s.calls).trans (h.fresh d hd).1, ?_⟩
      exact (drawsOf_append rfl d).trans ((if_neg (Ne.symm hne)).trans (h.fresh d hd).2)
    · rwa [hs]
  | test c =>
    rcases test_cases s c with ⟨i, v, x, hc, hx⟩ | hs
    · rw [step_test hc hx]
      refine h.move (by rw [hc]; simp) ?_
      split_ifs
      · exact fun j hj => by cases hj
      · exact loop_turn s (i + 1)
    · rwa [hs]
  | connect x v => exact ⟨h.size, h.fresh, h.turn⟩
  | add x =>
    refine inv_ite h fun hu => h.rewrite hu ?_ s.connected
    rw [h.size, length_append, length_singleton, mod_add_mod]
  | clear => exact inv_ite h fun hu => h.rewrite hu rfl _
  | setConnection streams => exact inv_ite h fun hu => h.rewrite hu rfl s.connected

theorem inv_run (datas : List ℕ) (idx : ℕ) (connected : ℕ → Bool) (ops : List Op) :
    Inv (run step (init datas idx connected) ops) := run_inv_of_step step_inv _ ops (inv_init datas idx connected)

/-! ## One call -/

/-- the call that makes the step -/
def Op.call : Op → Option ℕ
  | .draw c | .test c => some c
  | _ => none

/-- what the steps of others leave alone -/
structure Frame (c : ℕ) (s s' : St) : Prop where
  calls : s'.calls c = s.calls c
  draws : s'.drawsOf c = s.drawsOf c
  streams : (s.calls c).inProgress = true → s'.datas = s.datas ∧ s'.size = s.size

theorem frame_step (hc : c < s.next) {o : Op} (ho : o.call ≠ some c) : Frame c s (step s o) := by
  have hself : Frame c s s := ⟨rfl, rfl, fun _ => ⟨rfl, rfl⟩⟩
  -- the read lock is held
  have hlocked : ∀ {s' : St}, s'.calls c = s.calls c → s'.drawsOf c = s.drawsOf c → s.unlocked → Frame c s s' :=
    fun hcalls hdraws hu => ⟨hcalls, hdraws, fun hin => absurd ((hu c hc).symm.trans hin) Bool.false_ne_true⟩
  cases o with
  | get => exact ⟨update_of_ne hc.ne _ s.calls, rfl, fun _ => ⟨rfl, rfl⟩⟩
  | draw d =>
    have hne : c ≠ d := fun heq => ho (congrArg some heq.symm)
    rcases draw_cases s d with ⟨i, hd⟩ | hs
    · rw [step_draw hd]
      exact ⟨update_of_ne hne _ s.calls, (drawsOf_append rfl c).trans (if_neg hne.symm), fun _ => ⟨rfl, rfl⟩⟩
    · rwa [hs]
  | test d =>
    have hne : c ≠ d := fun heq => ho (congrArg some heq.symm)
    rcases test_cases s d with ⟨i, v, x, hd, hx⟩ | hs
    · rw [step_test hd hx]
      exact ⟨update_of_ne hne _ s.calls, rfl, fun _ => ⟨rfl, rfl⟩⟩
    · rwa [hs]
  | connect x v => exact ⟨rfl, rfl, fun _ => ⟨rfl, rfl⟩⟩
  | add x | clear | setConnection streams => exact inv_ite hself fun hu => hlocked rfl rfl hu

/-- a call that has not come to the stream at `k`: none of the values it has tested leads there -/
inductive Missed (c k : ℕ) (datas : List ℕ) (s : St) : Prop
  | scanning {i : ℕ} (hc : s.calls c = .scanning i) (hd : s.datas = datas) (hl : (s.drawsOf c).length = i)
      (hmiss : ∀ w ∈ s.drawsOf c, w % (datas.length % 2 ^ 32) ≠ k)
  | testing {i v : ℕ} {l : List ℕ} (hc : s.calls c = .testing i v) (hd : s.datas = datas)
      (hdraws : s.drawsOf c = l ++ [v]) (hl : l.length = i) (hmiss : ∀ w ∈ l, w % (datas.length % 2 ^ 32) ≠ k)
  | missed (hc : s.calls c = .returned none) (hl : (s.drawsOf c).length = datas.length % 2 ^ 32)
      (hmiss : ∀ w ∈ s.drawsOf c, w % (datas.length % 2 ^ 32) ≠ k)
  | found {y : ℕ} (hc : s.calls c = .returned (some y))

theorem Missed.frame {s' : St} (h : Missed c k datas s) (hf : Frame c s s') : Missed c k datas s' := by
  cases h with
  | scanning hc hd hl hmiss =>
    have hin : (s.calls c).inProgress = true := by rw [hc]; rfl
    exact .scanning (hf.calls.trans hc) ((hf.streams hin).1.trans hd) (by rw [hf.draws, hl]) (by rwa [hf.draws])
  | testing hc hd hdraws hl hmiss =>
    have hin : (s.calls c).inProgress = true := by rw [hc]; rfl
    exact .testing (hf.calls.trans hc) ((hf.streams hin).1.trans hd) (hf.draws.trans hdraws) hl hmiss
  | missed hc hl hmiss => exact .missed (hf.calls.trans hc) (by rw [hf.draws, hl]) (by rwa [hf.draws])
  | found hc => exact .found (hf.calls.trans hc)

theorem missed_loop (hi : Inv s) (hc : s.calls c = s.loop i) (hd : s.datas = datas) (hl : (s.drawsOf c).length = i)
    (hle : i ≤ s.size) (hmiss : ∀ w ∈ s.drawsOf c, w % (datas.length % 2 ^ 32) ≠ k) : Missed c k datas s := by
  have hsize : s.size = datas.length % 2 ^ 32 := hd ▸ hi.size
  unfold St.loop at hc
  split_ifs at hc with hlt
  · exact .scanning hc hd hl hmiss
  · exact .missed hc (by omega) hmiss

theorem Missed.draw (h : Missed c k datas s) : Missed c k datas (step s (.draw c)) := by
  rcases draw_cases s c with ⟨i, hc⟩ | hs
  · rw [step_draw hc]
    cases h with
    | @scanning j hc' hd hl hmiss =>
      refine .testing (i := j) (v := (s.idx + 1) % 2 ^ 32) (l := s.drawsOf c) ?_ hd ?_ hl hmiss
      · rw [hc] at hc'
        cases hc'
        exact update_self c _ s.calls
      · exact (drawsOf_append rfl c).trans (if_pos rfl)
    | testing hc' | missed hc' | found hc' => rw [hc] at hc'; cases hc'
  · rwa [hs]

theorem Missed.test (hi : Inv s) (hx : datas[k]? = some x)
    (hconn : s.connected x = true) (h : Missed c k datas s) : Missed c k datas (step s (.test c)) := by
  rcases test_cases s c with ⟨i, v, y, hc, hget⟩ | hs
  · have hi' := step_inv s (.test c) hi
    rw [step_test hc hget] at hi' ⊢
    by_cases hy : s.connected y = true
    · rw [if_pos hy]
      exact .found (update_self c _ s.calls)
    rw [if_neg hy] at hi' ⊢
    cases h with
    | @testing j w l hc' hd hdraws hl hmiss =>
      rw [hc] at hc'
      cases hc'
      -- the stream at `k` is connected, so this was another one
      have hne : v % (datas.length % 2 ^ 32) ≠ k := by
        intro heq
        rw [hi.size, hd, heq, hx] at hget
        cases hget
        exact hy hconn
      have hdraws' : (s.move c (s.loop (i + 1))).drawsOf c = l ++ [v] := hdraws
      refine missed_loop hi' (update_self c _ s.calls) hd ?_ (hi.turn c i (by rw [hc]; rfl)) ?_
      · rw [hdraws', length_append, hl, length_singleton]
      · rw [hdraws']
        exact forall_mem_append.2 ⟨hmiss, forall_mem_singleton.2 hne⟩
    | scanning hc' | missed hc' | found hc' => rw [hc] at hc'; cases hc'
  · rwa [hs]

theorem Missed.step (hi : Inv s) (hx : datas[k]? = some x)
    (hconn : s.connected x = true) (h : Missed c k datas s) (o : Op) : Missed c k datas (step s o) := by
  by_cases ho : o.call = some c
  · cases o with
    | draw d =>
      cases ho
      exact h.draw
    | test d =>
      cases ho
      exact h.test hi hx hconn
    | _ => cases ho
  · have hlt : c < s.next := by
      refine hi.lt_next fun hnone => ?_
      cases h with
      | scanning hc | testing hc | missed hc | found hc => rw [hc] at hnone; cases hnone
    exact h.frame (frame_step hlt ho)

theorem alwaysFinds_of_visits (h : Visits n v gaps) : AlwaysFinds n v gaps := by
  rintro datas idx connected before after s₀ s x r hs₀ hn hv hx hs hconn hdraws hret rfl
  have hi₀ : Inv s₀ := hs₀ ▸ inv_run datas idx connected before
  obtain ⟨k, hk, hkx⟩ := getElem_of_mem hx
  have hget : s₀.datas[k]? = some x := by rw [getElem?_eq_getElem hk, hkx]
  have hfresh := hi₀.fresh s₀.next le_rfl
  have hstart : Missed s₀.next k s₀.datas (step s₀ .get) := by
    have hempty : (step s₀ .get).drawsOf s₀.next = [] := hfresh.2
    refine missed_loop (i := 0) (step_inv s₀ _ hi₀) (update_self _ _ s₀.calls) rfl ?_ (zero_le _) ?_
    · rw [hempty]; rfl
    · rw [hempty]; simp
  obtain ⟨-, hmissed⟩ := run_inv (I := fun s => Inv s ∧ Missed s₀.next k s₀.datas s)
    (fun s o hc h => ⟨step_inv s o h.1, h.2.step h.1 hget hc o⟩) hconn ⟨step_inv s₀ _ hi₀, hstart⟩
  rw [← hs] at hmissed
  cases hmissed with
  | missed hc hl hmiss =>
    rw [hn] at hl hmiss hk
    obtain ⟨i, hlt, hik⟩ := h k hk
    refine hmiss (drawn v gaps i) ?_ hik
    rw [hdraws, hl]
    exact mem_map.2 ⟨i, mem_range.2 hlt, rfl⟩
  | scanning hc | testing hc | found hc => rw [hret] at hc; cases hc

/-! ## A stream that no turn visits -/

/-- others call `get` and increment the counter once each; their calls are numbered from `id` -/
def otherDraws (id : ℕ) : ℕ → List Op
  | 0 => []
  | g + 1 => .get :: .draw id :: otherDraws (id + 1) g

/-- the first turns of call 0, with its gaps -/
def turns (gaps : ℕ → ℕ) : ℕ → List Op
  | 0 => []
  | m + 1 => turns gaps m ++ (otherDraws (1 + ∑ j ∈ Finset.range m, gaps j) (gaps m) ++ [.draw 0, .test 0])

/-- what others leave alone, and where they leave the counter -/
structure Disturbed (g : ℕ) (s s' : St) : Prop where
  datas : s'.datas = s.datas
  size : s'.size = s.size
  connected : s'.connected = s.connected
  call : s'.calls 0 = s.calls 0
  draws : s'.drawsOf 0 = s.drawsOf 0
  next : s'.next = s.next + g
  idx : (s'.idx + 1) % 2 ^ 32 = (s.idx + g + 1) % 2 ^ 32

theorem disturbed_one (hsize : 0 < s.size) (hnext : 0 < s.next) :
    Disturbed 1 s (step (step s .get) (.draw s.next)) := by
  have hcall : (step s .get).calls s.next = .scanning 0 := by simp [step, St.move, St.loop, hsize]
  have hne : (0 : ℕ) ≠ s.next := hnext.ne
  have hstep : step (step s .get) (.draw s.next) = { s with
      idx := (s.idx + 1) % 2 ^ 32
      draws := s.draws ++ [(s.next, (s.idx + 1) % 2 ^ 32)]
      calls := update (step s .get).calls s.next (.testing 0 ((s.idx + 1) % 2 ^ 32))
      next := s.next + 1 } := by
    rw [step_draw hcall]
    rfl
  rw [hstep]
  refine ⟨rfl, rfl, rfl, ?_, ?_, rfl, ?_⟩
  · show update (update s.calls s.next _) s.next _ 0 = s.calls 0
    rw [update_of_ne hne, update_of_ne hne]
  · exact (drawsOf_append rfl 0).trans (if_neg hne.symm)
  · rw [mod_add_mod]

theorem disturbed (g : ℕ) (hsize : 0 < s.size) (hnext : 0 < s.next) :
    Disturbed g s (run step s (otherDraws s.next g)) := by
  induction g generalizing s with
  | zero => exact ⟨rfl, rfl, rfl, rfl, rfl, rfl, rfl⟩
  | succ g ih =>
    have h1 := disturbed_one hsize hnext
    have h2 := ih (s := step (step s .get) (.draw s.next)) (by rw [h1.size]; exact hsize) (by rw [h1.next]; omega)
    rw [h1.next] at h2
    have hrun : run step s (otherDraws s.next (g + 1)) =
        run step (step (step s .get) (.draw s.next)) (otherDraws (s.next + 1) g) := rfl
    rw [hrun]
    refine ⟨h2.datas.trans h1.datas, h2.size.trans h1.size, h2.connected.trans h1.connected, h2.call.trans h1.call,
      h2.draws.trans h1.draws, ?_, ?_⟩
    · rw [h2.next, h1.next]; omega
    · have := h1.idx
      have := h2.idx
      omega

/-- where the counter is after the first turns -/
def counter (v : ℕ) (gaps : ℕ → ℕ) : ℕ → ℕ
  | 0 => v
  | m + 1 => drawn v gaps m

theorem drawn_eq (v : ℕ) (gaps : ℕ → ℕ) (m : ℕ) : drawn v gaps m = (counter v gaps m + gaps m + 1) % 2 ^ 32 := by
  cases m <;> rfl

/-- call 0 after `m` turns that found nobody connected, with the stream `k` alone connected -/
structure AfterTurns (n k v : ℕ) (gaps : ℕ → ℕ) (m : ℕ) (s : St) : Prop where
  datas : s.datas = range n
  size : s.size = n % 2 ^ 32
  connected : s.connected = fun y => decide (y = k)
  call : s.calls 0 = s.loop m
  draws : s.drawsOf 0 = (range m).map (drawn v gaps)
  next : s.next = 1 + ∑ j ∈ Finset.range m, gaps j
  idx : s.idx = counter v gaps m

theorem afterTurns_succ {m : ℕ} (hm : m < n % 2 ^ 32) (hk : drawn v gaps m % (n % 2 ^ 32) ≠ k)
    (h : AfterTurns n k v gaps m s) :
    AfterTurns n k v gaps (m + 1)
      (run step s (otherDraws (1 + ∑ j ∈ Finset.range m, gaps j) (gaps m) ++ [.draw 0, .test 0])) := by
  have hsize : 0 < s.size := by rw [h.size]; omega
  have hd := disturbed (gaps m) hsize (by rw [h.next]; omega : 0 < s.next)
  rw [h.next] at hd
  rw [run_append]
  generalize run step s (otherDraws (1 + ∑ j ∈ Finset.range m, gaps j) (gaps m)) = t at *
  have hcall : t.calls 0 = .scanning m := by rw [hd.call, h.call, St.loop, if_pos (by rw [h.size]; exact hm)]
  have hv : (t.idx + 1) % 2 ^ 32 = drawn v gaps m := by rw [hd.idx, h.idx, drawn_eq]
  have hts : t.size = n % 2 ^ 32 := hd.size.trans h.size
  have htd : t.datas = range n := hd.datas.trans h.datas
  have htc : t.connected = fun y => decide (y = k) := hd.connected.trans h.connected
  -- the stream of this turn
  have hlt : drawn v gaps m % (n % 2 ^ 32) < n := (mod_lt _ (by omega)).trans_le (mod_le n _)
  have hget : t.datas[drawn v gaps m % t.size]? = some (drawn v gaps m % t.size) := by
    rw [htd, hts]
    exact getElem?_range hlt
  have hoff : t.connected (drawn v gaps m % t.size) = false := by
    rw [htc, hts]
    exact decide_eq_false hk
  have htest : run step t [.draw 0, .test 0] = { t with
      idx := drawn v gaps m
      draws := t.draws ++ [(0, drawn v gaps m)]
      calls := update (update t.calls 0 (.testing m (drawn v gaps m))) 0 (t.loop (m + 1)) } := by
    rw [run_cons, run_cons, step_draw hcall, hv, step_test (i := m) (update_self 0 _ t.calls) (by exact hget)]
    simp only [hoff, Bool.false_eq_true, if_false]
    rfl
  rw [htest]
  refine ⟨htd, hts, htc, ?_, ?_, ?_, rfl⟩
  · rfl
  · rw [range_succ, map_append, ← h.draws, ← hd.draws]
    exact (drawsOf_append rfl 0).trans (if_pos rfl)
  · rw [hd.next, h.next, Finset.sum_range_succ, add_assoc]

theorem afterTurns_turns (hk : ∀ i < n % 2 ^ 32, drawn v gaps i % (n % 2 ^ 32) ≠ k) {m : ℕ} (hm : m ≤ n % 2 ^ 32) :
    AfterTurns n k v gaps m (run step (step (init (range n) v fun y => decide (y = k)) .get) (turns gaps m)) := by
  induction m with
  | zero =>
    refine ⟨rfl, ?_, rfl, ?_, rfl, rfl, rfl⟩
    · show (range n).length % 2 ^ 32 = n % 2 ^ 32
      rw [length_range]
    · rfl
  | succ m ih =>
    rw [turns, run_append]
    exact afterTurns_succ hm (hk m hm) (ih (le_of_succ_le hm))

/-- the operation leaves the connections alone -/
def Op.quiet : Op → Prop
  | .get | .draw _ | .test _ => True
  | _ => False

theorem step_connected {o : Op} (ho : o.quiet) : (step s o).connected = s.connected := by
  cases o with
  | get => rfl
  | draw c =>
    rcases draw_cases s c with ⟨i, hc⟩ | hs
    · rw [step_draw hc]
    · rw [hs]
  | test c =>
    rcases test_cases s c with ⟨i, v, x, hc, hx⟩ | hs
    · rw [step_test hc hx]
      rfl
    · rw [hs]
  | _ => cases ho

theorem otherDraws_quiet (id g : ℕ) : ∀ o ∈ otherDraws id g, o.quiet := by
  induction g generalizing id with
  | zero => exact nofun
  | succ g ih => exact forall_mem_cons.2 ⟨trivial, forall_mem_cons.2 ⟨trivial, ih (id + 1)⟩⟩

theorem turns_quiet (gaps : ℕ → ℕ) (m : ℕ) : ∀ o ∈ turns gaps m, o.quiet := by
  induction m with
  | zero => exact nofun
  | succ m ih =>
    refine forall_mem_append.2 ⟨ih, forall_mem_append.2 ⟨otherDraws_quiet _ _, ?_⟩⟩
    exact forall_mem_cons.2 ⟨trivial, forall_mem_singleton.2 trivial⟩

theorem visits_of_alwaysFinds (h : AlwaysFinds n v gaps) : Visits n v gaps := by
  intro k hkn
  by_contra hnot
  push Not at hnot
  set s₀ := init (range n) v fun y => decide (y = k)
  have hend := afterTurns_turns hnot le_rfl
  have hstays : Meets step (fun s _ => s.connected k = true) (step s₀ .get) (turns gaps (n % 2 ^ 32)) :=
    (meets_of_forall (turns_quiet gaps _) _).imp (I := fun s : St => s.connected k = true)
      (fun s o ho hs => by rw [step_connected ho]; exact hs) (fun _ _ hs _ => hs) (decide_eq_true rfl)
  have hret : (run step (step s₀ .get) (turns gaps (n % 2 ^ 32))).calls 0 = .returned none := by
    rw [hend.call, St.loop, hend.size, if_neg (lt_irrefl _)]
  refine h (range n) v _ [] (turns gaps (n % 2 ^ 32)) s₀ _ k none rfl ?_ rfl ?_ rfl hstays ?_ hret rfl
  · exact length_range
  · exact mem_range.2 hkn
  · show St.drawsOf _ 0 = (range (St.drawsOf _ 0).length).map _
    rw [hend.draws, length_map, length_range]

/-! ## Results -/

/-- the next step of a call -/
def ownStep (c : ℕ) : Get → Op
  | .scanning _ => .draw c
  | _ => .test c

/-- a bound on the steps a call still makes -/
def Get.left (size : ℕ) : Get → ℕ
  | .scanning i => 2 * (size - i)
  | .testing i _ => 2 * (size - i) - 1
  | _ => 0

theorem loop_left (s : St) (i : ℕ) : (s.loop i).left s.size ≤ 2 * (s.size - i) := by
  unfold St.loop
  split_ifs
  · exact le_rfl
  · exact zero_le _

theorem Inv.stream (h : Inv s) (hc : s.calls c = .testing i v) : ∃ x, s.datas[v % s.size]? = some x := by
  have hi : i < s.size := h.turn c i (by rw [hc]; rfl)
  have hle : s.size ≤ s.datas.length := h.size ▸ mod_le _ _
  have hlt : v % s.size < s.datas.length := (mod_lt v (by omega)).trans_le hle
  exact ⟨_, getElem?_eq_getElem hlt⟩

theorem Inv.left_lt (h : Inv s) (hc : (s.calls c).inProgress = true) :
    ((step s (ownStep c (s.calls c))).calls c).left s.size < (s.calls c).left s.size := by
  cases hx : s.calls c with
  | none | returned r => rw [hx] at hc; cases hc
  | scanning i =>
    have hi : i < s.size := h.turn c i (by rw [hx]; rfl)
    rw [ownStep, step_draw hx]
    simp only [update_self, Get.left]
    omega
  | testing i v =>
    have hi : i < s.size := h.turn c i (by rw [hx]; rfl)
    obtain ⟨x, hget⟩ := h.stream hx
    rw [show ownStep c (.testing i v) = .test c from rfl, step_test hx hget]
    simp only [St.move, update_self]
    split_ifs
    · simp only [Get.left]
      omega
    · refine lt_of_le_of_lt (loop_left s (i + 1)) ?_
      simp only [Get.left]
      omega

theorem Inv.returned_connected (hi : Inv s) (hc : (s.calls c).inProgress = true) {o : Op}
    (h : (step s o).calls c = .returned (some x)) : x ∈ s.datas ∧ s.connected x = true := by
  have hlive : s.calls c ≠ .returned (some x) := by
    intro heq
    rw [heq] at hc
    cases hc
  by_cases ho : o.call = some c
  · cases o with
    | draw d =>
      cases ho
      rcases draw_cases s c with ⟨i, hd⟩ | hs
      · rw [step_draw hd] at h
        simp at h
      · exact absurd (hs ▸ h) hlive
    | test d =>
      cases ho
      rcases test_cases s c with ⟨i, v, y, hd, hy⟩ | hs
      · rw [step_test hd hy] at h
        replace h := (update_self c _ s.calls).symm.trans h
        split_ifs at h with hconn
        · cases h
          exact ⟨mem_of_getElem? hy, hconn⟩
        · unfold St.loop at h
          split_ifs at h
          cases h
      · exact absurd (hs ▸ h) hlive
    | _ => cases ho
  · have hlt : c < s.next := hi.lt_next fun hnone => by rw [hnone] at hc; cases hc
    exact absurd ((frame_step hlt ho).calls.symm.trans h) hlive

/-- a call in progress returns only what is connected, and each of its steps brings it nearer to its end -/
structure Progresses (s : St) (c : ℕ) : Prop where
  connected : ∀ o x, (step s o).calls c = .returned (some x) → x ∈ s.datas ∧ s.connected x = true
  nearer : ((step s (ownStep c (s.calls c))).calls c).left s.size < (s.calls c).left s.size

/-- **When `get` finds a connected stream.** -/
theorem get_finds_iff (n v : ℕ) (gaps : ℕ → ℕ) :
    (AlwaysFinds n v gaps ↔ Visits n v gaps) ∧
    ∀ (datas : List ℕ) (idx : ℕ) (connected : ℕ → Bool) (ops : List Op) (c : ℕ),
      ((run step (init datas idx connected) ops).calls c).inProgress = true →
        Progresses (run step (init datas idx connected) ops) c := by
  refine ⟨⟨visits_of_alwaysFinds, alwaysFinds_of_visits⟩, fun datas idx connected ops c hc => ?_⟩
  have hi := inv_run datas idx connected ops
  exact ⟨fun o x h => hi.returned_connected hc h, hi.left_lt hc⟩

theorem drawn_alone (v i : ℕ) : drawn v (fun _ => 0) i = (v + i + 1) % 2 ^ 32 := by
  induction i with
  | zero => rfl
  | succ i ih =>
    rw [drawn, ih, add_zero, mod_add_mod]
    congr 1

theorem exists_residue (hk : k < n) (a : ℕ) : ∃ i < n, (a + i) % n = k := by
  have hpos : 0 < n := zero_lt_of_lt hk
  have ha : a % n < n := mod_lt _ hpos
  refine ⟨(k + (n - a % n)) % n, mod_lt _ hpos, ?_⟩
  calc (a + (k + (n - a % n)) % n) % n = (a % n + (k + (n - a % n))) % n := by rw [add_mod_mod, mod_add_mod]
    _ = (k + n) % n := by congr 1; omega
    _ = k := by rw [add_mod_right, mod_eq_of_lt hk]

/-- **A call alone.** -/
theorem finds_alone (hn : n < 2 ^ 32) (h : v + n < 2 ^ 32 ∨ n ∣ 2 ^ 32) : AlwaysFinds n v fun _ => 0 := by
  refine alwaysFinds_of_visits fun k hk => ?_
  rw [mod_eq_of_lt hn]
  obtain ⟨i, hi, hik⟩ := exists_residue hk (v + 1)
  refine ⟨i, hi, ?_⟩
  have hwrap : (v + i + 1) % 2 ^ 32 % n = (v + i + 1) % n := by
    rcases h with h | h
    · have hlt : v + i + 1 < 2 ^ 32 := by omega
      rw [mod_eq_of_lt hlt]
    · exact mod_mod_of_dvd _ h
  rw [drawn_alone, hwrap, add_right_comm, hik]

theorem finds_alone_wrapping : AlwaysFinds 4 (2 ^ 32 - 2) fun _ => 0 := finds_alone (by decide) (by decide)

/-- two calls take turns; call 0 draws the odd values -/
def alternating : List Op := [.get, .get, .draw 0, .test 0, .draw 1, .draw 0, .test 0]

/-- one call makes three turns -/
def threeTurns : List Op := [.get, .draw 0, .test 0, .draw 0, .test 0, .draw 0, .test 0]

/-- **`get` misses a connected stream.** -/
theorem get_misses :
    Meets step (fun s _ => s.connected 0 = true) (init [0, 1] 0 fun x => decide (x = 0)) alternating ∧
    (run step (init [0, 1] 0 fun x => decide (x = 0)) alternating).calls 0 = .returned none ∧
    Meets step (fun s _ => s.connected 2 = true) (init [0, 1, 2] (2 ^ 32 - 2) fun x => decide (x = 2)) threeTurns ∧
    (run step (init [0, 1, 2] (2 ^ 32 - 2) fun x => decide (x = 2)) threeTurns).calls 0 = .returned none := by
  decide

end CoServer.AsyncStream.Manager
