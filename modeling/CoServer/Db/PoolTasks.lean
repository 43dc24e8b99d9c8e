/-
`FoxThreadPool` (src/db/fox_thread.cpp): where the callbacks are, and which threads are free. `Inv`: every callback that
was passed is at one place, the use count of a shared pointer is the number of its copies, a thread is free, about to be
released or held by one shared pointer, and nobody is outside while a callback and a thread wait.

Results:
- `Moves.work`: an event that is no call does nothing, or some of the work.
- `tasks_executed`: a pool of one thread or more, started, with callbacks that were dispatched before: after any calls
  and any steps of its threads and callers, every callback is at one place, a free thread has no task of the pool, and
  when the work ends, as it does, every callback has been executed once.
- `no_threads`: without threads the callback stays in the pool.
-/
import CoServer.Db.FoxThreadPool

namespace CoServer.Db.FoxPool

open CoServer.Core Function List FoxPool.FoxThread

/-! ## Shared pointers -/

namespace FoxThread

variable {th th' : FoxThread} {k : ℕ}

/-- the shared pointers that are in use -/
def live (th : FoxThread) : ℕ := (th.refs.map (min 1)).sum

theorem getElem_of_uses (h : 0 < th.uses k) : th.refs[k]? = some (th.uses k) := by
  unfold uses at h ⊢
  rw [getD_eq_getElem?_getD] at h ⊢
  cases hk : th.refs[k]? with
  | none =>
    rw [hk] at h
    exact absurd h (Nat.lt_irrefl 0)
  | some n => rfl

theorem uses_set (h : 0 < th.uses k) {n : ℕ} (hset : th'.refs = th.refs.set k n) (j : ℕ) :
    th'.uses j = if j = k then n else th.uses j := by
  have hlt : k < th.refs.length := (List.getElem?_eq_some_iff.1 (getElem_of_uses h)).1
  unfold uses
  rw [hset, getD_eq_getElem?_getD]
  split_ifs with hj
  · subst hj
    rw [getElem?_set_self hlt, Option.getD_some]
  · rw [getElem?_set_ne (Ne.symm hj), ← getD_eq_getElem?_getD]

theorem live_set (h : 0 < th.uses k) {n : ℕ} (hset : th'.refs = th.refs.set k n) :
    th'.live + 1 = th.live + min 1 n := by
  have hsum := sum_map_set (min 1) (getElem_of_uses h) n
  unfold live
  rw [hset]
  omega

theorem uses_append (hnew : th'.refs = th.refs ++ [1]) (k : ℕ) : th'.uses k = th.uses k + if th.refs.length = k then 1
    else 0 := by
  unfold uses
  rw [hnew, getD_eq_getElem?_getD, getD_eq_getElem?_getD]
  rcases Nat.lt_trichotomy k th.refs.length with hlt | heq | hgt
  · rw [getElem?_append_left hlt, if_neg (Nat.ne_of_gt hlt), Nat.add_zero]
  · subst heq
    simp
  · rw [getElem?_eq_none (by simpa using hgt), getElem?_eq_none (Nat.le_of_lt hgt), if_neg (Nat.ne_of_lt hgt),
      Nat.add_zero]

theorem live_append (hnew : th'.refs = th.refs ++ [1]) : th'.live = th.live + 1 := by
  unfold live
  rw [hnew]
  simp

theorem swap_nil (hcb : th.callbacks = []) (hbatch : th.batch = []) :
    ({ th with batch := th.callbacks, callbacks := [] } : FoxThread) = th := by
  cases th with
  | mk start callbacks batch running spent refs =>
    obtain rfl : callbacks = [] := hcb
    obtain rfl : batch = [] := hbatch
    rfl

theorem live_of_uses (h : ∀ k, th.uses k = 0) : th.live = 0 := by
  unfold live
  rw [sum_eq_zero_iff]
  intro n hn
  obtain ⟨m, hm, rfl⟩ := mem_map.1 hn
  obtain ⟨k, hk⟩ := getElem?_of_mem hm
  have hzero := h k
  unfold uses at hzero
  rw [getD_eq_getElem?_getD, hk, Option.getD_some] at hzero
  rw [hzero]
  rfl

theorem uses_of_live (h : th.live = 0) (k : ℕ) : th.uses k = 0 := by
  by_contra hne
  have hmem : th.uses k ∈ th.refs := mem_of_getElem? (getElem_of_uses (Nat.pos_of_ne_zero hne))
  have hle : min 1 (th.uses k) ≤ th.live := le_sum_of_mem (mem_map_of_mem hmem)
  omega

end FoxThread

/-! ## Weights -/

/-- the places of a callback -/
def place (cb : ℕ) : Item → ℕ
  | .queued c | .frame (.holding _ _ c) | .executed c => if c = cb then 1 else 0
  | .waiting _ x | .batch _ x => if x.cb = cb then 1 else 0
  | _ => 0

/-- the copies of a shared pointer -/
def copies (t k : ℕ) : Item → ℕ
  | .frame (.holding t' k' _) | .frame (.held t' k') => if t' = t ∧ k' = k then 1 else 0
  | .waiting t' x | .batch t' x | .running t' x | .spent t' x => if t' = t ∧ x.lease = some k then 1 else 0
  | _ => 0

/-- a thread that is free or about to be -/
def released (t : ℕ) : Item → ℕ
  | .free t' | .frame (.releasing t') => if t' = t then 1 else 0
  | _ => 0

/-- a bound for the number of steps that an item can still cause -/
def steps : Item → ℕ
  | .queued _ | .frame (.holding _ _ _) => 11
  | .frame .checking => 1
  | .frame (.held _ _) => 4
  | .frame (.releasing _) => 2
  | .waiting _ _ => 6
  | .batch _ _ => 5
  | .running _ _ => 4
  | .spent _ _ => 3
  | .free _ | .executed _ => 0

namespace State

variable {s s' : State} {w : Item → ℕ} {called : Bool} {lost gained : List Item}

theorem le_total {i : Item} {items : List Item} (h : i ∈ items) : w i ≤ total w items :=
  le_sum_of_mem (mem_map_of_mem h)

variable {a t : ℕ} {α : Type}

theorem le_weigh_free (h : t ∈ s.freeFoxThreads) : w (.free t) ≤ s.weigh w := by
  have hle : w (.free t) ≤ total w (s.freeFoxThreads.map .free) := le_total (mem_map_of_mem h)
  unfold weigh
  omega

theorem le_weigh_frame (ha : a < s.agents) {f : Frame} (h : f ∈ s.calls a) : w (.frame f) ≤ s.weigh w := by
  have hle : w (.frame f) ≤ total w ((s.calls a).map .frame) := le_total (mem_map_of_mem h)
  have hsum := Finset.single_le_sum (f := fun a => total w ((s.calls a).map .frame)) (fun _ _ => Nat.zero_le _)
    (Finset.mem_range.2 ha)
  unfold weigh
  omega

theorem le_weigh_item (ht : t < s.size) {i : Item} (h : i ∈ (s.threads t).items t) : w i ≤ s.weigh w := by
  have hle : w i ≤ total w ((s.threads t).items t) := le_total h
  have hsum := Finset.single_le_sum (f := fun t => total w ((s.threads t).items t)) (fun _ _ => Nat.zero_le _)
    (Finset.mem_range.2 ht)
  unfold weigh
  omega

/-! ## The invariant -/

structure Inv (s : State) : Prop where
  placed : ∀ cb, s.weigh (place cb) = if cb < s.passed then 1 else 0
  counted : ∀ t k, s.weigh (copies t k) = (s.threads t).uses k
  tokens : ∀ t, s.weigh (released t) + (s.threads t).live = if t < s.size then 1 else 0
  woken : s.start = true → (∀ a < s.agents, s.calls a = []) → s.freeFoxThreads = [] ∨ s.callbacks = []

theorem Inv.lt_size (h : s.Inv) {k : ℕ} (huse : 0 < (s.threads t).uses k) : t < s.size := by
  by_contra hlt
  have htoken := h.tokens t
  rw [if_neg hlt] at htoken
  have hzero := uses_of_live (show (s.threads t).live = 0 by omega) k
  omega

theorem Inv.uses_frame (h : s.Inv) {k : ℕ} {f : Frame} (ha : a < s.agents) (hf : f ∈ s.calls a)
    (hcopy : copies t k (.frame f) = 1) : 0 < (s.threads t).uses k := by
  have hle := le_weigh_frame (w := copies t k) ha hf
  rw [h.counted t k, hcopy] at hle
  exact hle

theorem Inv.uses_spent (h : s.Inv) {k : ℕ} {x : Task} {spent : List Task} (ht : t < s.size)
    (hspent : (s.threads t).spent = x :: spent) (hlease : x.lease = some k) : 0 < (s.threads t).uses k := by
  have hmem : Item.spent t x ∈ (s.threads t).items t := by simp [items, hspent]
  have hle := le_weigh_item (w := copies t k) ht hmem
  have hcopy : copies t k (.spent t x) = 1 := if_pos ⟨rfl, hlease⟩
  rw [h.counted t k, hcopy] at hle
  exact hle

theorem Inv.lt_of_released (h : s.Inv) (hle : 1 ≤ s.weigh (released t)) : t < s.size := by
  by_contra hlt
  have htoken := h.tokens t
  rw [if_neg hlt] at htoken
  omega

theorem le_released (ht : t ∈ s.freeFoxThreads) : 1 ≤ s.weigh (released t) := by
  simpa [released] using le_weigh_free (w := released t) ht

theorem Inv.bounded (h : s.Inv) : s.Bounded := by
  constructor
  · exact fun t ht => h.lt_of_released (le_released ht)
  · intro a ha f hf t ht
    cases f with
    | checking => cases ht
    | holding t' k cb | held t' k =>
      cases ht
      exact h.lt_size (h.uses_frame (k := k) ha hf (if_pos ⟨rfl, rfl⟩))
    | releasing t' =>
      cases ht
      exact h.lt_of_released (by simpa [released] using le_weigh_frame (w := released t) ha hf)

/-! ## One move -/

theorem total_map (f : α → Item) (l : List α) : total w (l.map f) = (l.map fun x => w (f x)).sum := by
  rw [total, map_map]
  rfl

theorem total_map_succ {f g : α → Item} (h : ∀ x, w (f x) = w (g x) + 1) (l : List α) :
    total w (l.map f) = total w (l.map g) + l.length := by
  induction l with
  | nil => rfl
  | cons x l ih =>
    rw [map_cons, map_cons, total_cons, total_cons, h, length_cons]
    omega

theorem total_range {f : ℕ → Item} {c : ℕ} (hf : ∀ x, w (f x) = if x = c then 1 else 0) (p n : ℕ) :
    total w ((range' p n).map f) + (if c < p then 1 else 0) = if c < p + n then 1 else 0 := by
  induction n generalizing p with
  | zero => simp
  | succ n ih =>
    have hrest := ih (p + 1)
    rw [range'_succ, map_cons, total_cons, hf]
    split_ifs at hrest ⊢ <;> omega

theorem Moves.places (hm : Moves s called s' lost gained) (cb : ℕ) :
    ∃ n, s'.passed = s.passed + n ∧
      total (place cb) gained = total (place cb) lost + total (place cb) ((range' s.passed n).map .queued) := by
  cases hm with
  | stay => exact ⟨0, rfl, rfl⟩
  | call h n => exact ⟨n, rfl, by simp [place]⟩
  | direct h => exact ⟨1, rfl, by simp [place]⟩
  | @read t => exact ⟨0, rfl, by simp [total_map, place]⟩
  | check | leave | take | hand | back | drop | dropLast | release | begin | finish | discard | unrefTask
  | unrefTaskLast =>
    exact ⟨0, rfl, by simp [place]⟩

/-- what a move does to the shared pointers, to their copies and to the threads that are free or released -/
inductive Pointers (s s' : State) (lost gained : List Item) : Prop
  | kept (hrefs : ∀ t, (s'.threads t).refs = (s.threads t).refs)
      (hcopies : ∀ t k, total (copies t k) gained = total (copies t k) lost)
      (hreleased : ∀ t, total (released t) gained = total (released t) lost)
  | made (q : ℕ) {th : FoxThread} (hthreads : s'.threads = update s.threads q th)
      (hrefs : th.refs = (s.threads q).refs ++ [1])
      (hcopies : ∀ t k, total (copies t k) gained =
        total (copies t k) lost + if q = t ∧ (s.threads q).refs.length = k then 1 else 0)
      (hreleased : ∀ t, total (released t) lost = total (released t) gained + if q = t then 1 else 0)
  | set (q j n : ℕ) {th : FoxThread} (hthreads : s'.threads = update s.threads q th) (huse : 0 < (s.threads q).uses j)
      (hrefs : th.refs = (s.threads q).refs.set j n)
      (hcopies : ∀ t k, total (copies t k) lost + (if q = t ∧ j = k then n else 0) =
        total (copies t k) gained + if q = t ∧ j = k then (s.threads q).uses j else 0)
      (hreleased : ∀ t, total (released t) gained + (if q = t then min 1 n else 0) = total (released t) lost + if q = t
        then 1 else 0)

theorem Pointers.copied {q j : ℕ} {th : FoxThread} (hthreads : s'.threads = update s.threads q th)
    (huse : 0 < (s.threads q).uses j) (hrefs : th.refs = (s.threads q).refs.set j ((s.threads q).uses j + 1))
    (hcopies : ∀ t k, total (copies t k) gained = total (copies t k) lost + if q = t ∧ j = k then 1 else 0)
    (hreleased : ∀ t, total (released t) gained = total (released t) lost) : Pointers s s' lost gained := by
  refine .set q j _ hthreads huse hrefs (fun t k => ?_) (fun t => ?_)
  · rw [hcopies]
    split_ifs <;> omega
  · rw [hreleased, Nat.min_eq_left (Nat.le_add_left 1 _)]

theorem Pointers.dropped {q j : ℕ} {th : FoxThread} (hthreads : s'.threads = update s.threads q th)
    (huse : 0 < (s.threads q).uses j) (hrefs : th.refs = ((s.threads q).unref j).refs)
    (hcopies : ∀ t k, total (copies t k) lost = total (copies t k) gained + if q = t ∧ j = k then 1 else 0)
    (hreleased : ∀ t, total (released t) gained = total (released t) lost + if q = t ∧
      ((s.threads q).unref j).uses j = 0 then 1 else 0) :
    Pointers s s' lost gained := by
  refine .set q j _ hthreads huse hrefs (fun t k => ?_) (fun t => ?_)
  · rw [hcopies]
    split_ifs <;> omega
  have hleft : ((s.threads q).unref j).uses j = _ := uses_set huse rfl j
  rw [hreleased, hleft]
  by_cases ht : q = t
  · split_ifs <;> omega
  · rw [if_neg ht, if_neg ht, if_neg fun hand => ht hand.1]

theorem Moves.pointers (hm : Moves s called s' lost gained) (h : s.Inv) : Pointers s s' lost gained := by
  cases hm with
  | stay => exact .kept (fun _ => rfl) (fun _ _ => rfl) (fun _ => rfl)
  | call _ n =>
    exact .kept (fun _ => rfl) (by simp [copies, total_map]) (by simp [released, total_map])
  | check | leave | back | release => exact .kept (fun _ => rfl) (by simp [copies]) (by simp [released])
  | @direct q hq =>
    exact .kept (proj_update refs (b := (s.threads q).dispatch ⟨s.passed, none⟩) rfl) (by simp [copies])
      (by simp [released])
  | @read q hq hbatch =>
    refine .kept (proj_update refs (b := { s.threads q with batch := (s.threads q).callbacks, callbacks := [] }) rfl)
      (fun t k => ?_) (fun t => ?_)
    all_goals simp [total_map, copies, released]
  | @begin q x batch hq hrunning hbatch =>
    exact .kept (proj_update refs (b := { s.threads q with batch := batch, running := some x }) rfl)
      (by simp [copies]) (by simp [released])
  | @finish q x hq hrunning =>
    exact .kept
      (proj_update refs (b := { s.threads q with running := none, spent := (s.threads q).spent ++ [x] }) rfl)
      (by simp [copies]) (by simp [released])
  | @discard q x spent hq hspent hlease =>
    exact .kept (proj_update refs (b := { s.threads q with spent := spent }) rfl) (by simp [copies, hlease])
      (by simp [released])
  | @take a q cb rest free callbacks ha hq hcalls hfree hcb =>
    exact .made q rfl rfl (by simp [copies]) (by simp [released])
  | @hand a q j cb rest ha hq hcalls hstart =>
    exact .copied rfl (h.uses_frame (f := .holding q j cb) ha (hcalls ▸ mem_cons_self) (if_pos ⟨rfl, rfl⟩)) rfl
      (by simp [copies]) (by simp [released])
  | @drop a q j rest ha hq hcalls huse | @dropLast a q j rest ha hq hcalls huse =>
    exact .dropped rfl (h.uses_frame (f := .held q j) ha (hcalls ▸ mem_cons_self) (if_pos ⟨rfl, rfl⟩)) rfl
      (by simp [copies]) (by simp [released, huse])
  | @unrefTask q j x spent hq hspent hlease huse | @unrefTaskLast q j x spent hq hspent hlease huse =>
    exact .dropped rfl (h.uses_spent hq.1 hspent hlease) rfl (by simp [copies, hlease]) (by simp [released, huse])

theorem Pointers.uses (hp : Pointers s s' lost gained) (t k : ℕ) :
    (s'.threads t).uses k + total (copies t k) lost = (s.threads t).uses k + total (copies t k) gained := by
  cases hp with
  | kept hrefs hcopies =>
    have hsame : (s'.threads t).uses k = (s.threads t).uses k := congrArg (fun refs : List ℕ => refs.getD k 0) (hrefs t)
    rw [hsame, hcopies]
  | made q hthreads hrefs hcopies =>
    have hcount := hcopies t k
    rw [hthreads]
    rcases eq_or_ne q t with rfl | ht
    · rw [update_self, uses_append hrefs]
      simp only [true_and] at hcount
      omega
    · simp only [ht, false_and, if_false] at hcount
      rw [update_of_ne ht.symm, hcount, Nat.add_zero]
  | set q j n hthreads huse hrefs hcopies =>
    have hcount := hcopies t k
    rw [hthreads]
    rcases eq_or_ne q t with rfl | ht
    · rw [update_self, uses_set huse hrefs]
      rcases eq_or_ne j k with rfl | hk
      · simp only [true_and, if_true] at hcount ⊢
        omega
      · simp only [hk, hk.symm, and_false, if_false] at hcount ⊢
        omega
    · simp only [ht, false_and, if_false] at hcount
      rw [update_of_ne ht.symm]
      omega

theorem Pointers.live (hp : Pointers s s' lost gained) (t : ℕ) :
    (s'.threads t).live + total (released t) gained = (s.threads t).live + total (released t) lost := by
  cases hp with
  | kept hrefs _ hreleased =>
    have hsame : (s'.threads t).live = (s.threads t).live :=
      congrArg (fun refs : List ℕ => (refs.map (min 1)).sum) (hrefs t)
    rw [hsame, hreleased]
  | made q hthreads hrefs _ hreleased =>
    have hcount := hreleased t
    rw [hthreads]
    rcases eq_or_ne q t with rfl | ht
    · rw [if_pos rfl] at hcount
      rw [update_self, live_append hrefs]
      omega
    · rw [if_neg ht] at hcount
      rw [update_of_ne ht.symm, hcount, Nat.add_zero]
  | set q j n hthreads huse hrefs _ hreleased =>
    have hcount := hreleased t
    rw [hthreads]
    rcases eq_or_ne q t with rfl | ht
    · have hlive := live_set huse hrefs
      rw [if_pos rfl, if_pos rfl] at hcount
      rw [update_self]
      omega
    · rw [if_neg ht, if_neg ht] at hcount
      rw [update_of_ne ht.symm]
      omega

theorem Moves.frame (hm : Moves s called s' lost gained) : s'.size = s.size ∧ s'.agents = s.agents ∧
    s'.start = s.start := by
  cases hm with
  | _ => exact ⟨rfl, rfl, rfl⟩

theorem calls_setCalls (a : ℕ) (calls : List Frame) : (s.setCalls a calls).calls a = calls := update_self _ _ _

theorem Moves.woken (hm : Moves s called s' lost gained)
    (h : s.start = true → (∀ a < s.agents, s.calls a = []) → s.freeFoxThreads = [] ∨ s.callbacks = [])
    (hstart : s'.start = true) (hcalls : ∀ a < s'.agents, s'.calls a = []) :
    s'.freeFoxThreads = [] ∨ s'.callbacks = [] := by
  cases hm with
  | stay | direct | read | begin | finish | discard => exact h hstart hcalls
  | leave _ _ hidle =>
    rcases hidle with hoff | hmissing
    · exact absurd (hoff.symm.trans hstart) (by decide)
    · exact hmissing
  | call hout | check hout => exact absurd ((calls_setCalls _ _).symm.trans (hcalls _ hout.1)) (cons_ne_nil _ _)
  | take ha | hand ha | back ha | drop ha | dropLast ha | release ha =>
    exact absurd ((calls_setCalls _ _).symm.trans (hcalls _ ha)) (cons_ne_nil _ _)
  | @unrefTask t k x spent hwork =>
    refine h hstart fun a ha => ?_
    by_cases hat : a = t
    · rw [hat]
      exact hwork.2
    · have hnil := hcalls a ha
      rwa [show ((s.setThread t _).setCalls t []).calls a = s.calls a from update_of_ne hat _ _] at hnil
  | unrefTaskLast hwork => exact absurd ((calls_setCalls _ _).symm.trans (hcalls _ hwork.agent)) (cons_ne_nil _ _)

theorem Inv.moves (h : s.Inv) (hm : Moves s called s' lost gained) : s'.Inv := by
  refine ⟨fun cb => ?_, fun t k => ?_, fun t => ?_, hm.woken h.woken⟩
  · obtain ⟨n, hpassed, hplaces⟩ := hm.places cb
    have hweigh := hm.weigh (place cb)
    have hrange := total_range (w := place cb) (f := .queued) (fun _ => rfl) s.passed n
    have hplaced := h.placed cb
    rw [hpassed]
    omega
  · have hweigh := hm.weigh (copies t k)
    have huses := (hm.pointers h).uses t k
    have hcounted := h.counted t k
    omega
  · have hweigh := hm.weigh (released t)
    have hlive := (hm.pointers h).live t
    have htokens := h.tokens t
    rw [hm.frame.1]
    omega

variable (size callers n : ℕ)

theorem lt_agents : size < (begun size callers n).agents := by
  change size < size + 1 + callers
  omega

theorem weigh_begun (w : Item → ℕ) : (begun size callers n).weigh w =
      total w ((range n).map .queued) + total w ((range size).map .free) + w (.frame .checking) := by
  have hquiet : ({ begun size callers n with calls := fun _ => [] } : State).weigh w =
      total w ((range n).map .queued) + total w ((range size).map .free) := by
    simp [weigh, begun, started, items]
  rw [← hquiet]
  change (begun size callers n).weigh w + total w [] = _ + total w [.frame .checking]
  exact weigh_calls (lt_agents size callers n) rfl (by simp [lists, begun])

theorem inv_begun : (begun size callers n).Inv := by
  refine ⟨fun cb => ?_, fun t k => ?_, fun t => ?_, fun _ hcalls => ?_⟩
  · have hqueued := total_range (w := place cb) (f := .queued) (fun _ => rfl) 0 n
    rw [weigh_begun]
    simpa [total_map, place, range_eq_range', begun, started] using hqueued
  · rw [weigh_begun]
    simp [total_map, copies, begun, started, uses]
  · have hfree := total_range (w := released t) (f := .free) (fun _ => rfl) 0 size
    rw [weigh_begun]
    simpa [total_map, released, range_eq_range', begun, started, live] using hfree
  · have hnil := hcalls size (lt_agents size callers n)
    exact absurd ((calls_setCalls (s := { begun size callers n with calls := fun _ => [] }) size _).symm.trans hnil)
      (cons_ne_nil _ _)

/-! ## The work that is left -/

/-- nothing has stopped -/
structure Started (s : State) : Prop where
  pool : s.start = true
  threads : ∀ t, (s.threads t).start = true

theorem Started.moves (h : s.Started) (hm : Moves s called s' lost gained) : s'.Started := by
  refine ⟨hm.frame.2.2.trans h.pool, fun t => ?_⟩
  cases hm with
  | stay | call | check | leave | back | release => exact h.threads t
  | direct | take | hand | drop | dropLast | read | begin | finish | discard | unrefTask | unrefTaskLast =>
    simp only [State.direct, State.take, setCalls, setThread, readCb, State.begin, State.finish, update_apply]
    split_ifs
    all_goals exact h.threads _

theorem Moves.work (hm : Moves s false s' lost gained) (h : s.Started) :
    s' = s ∨ total steps gained < total steps lost := by
  cases hm with
  | stay => exact Or.inl rfl
  | back _ _ hoff => exact absurd ((h.threads _).symm.trans hoff) (by decide)
  | @read t hwork hbatch =>
    cases hcb : (s.threads t).callbacks with
    | nil =>
      left
      unfold readCb setThread
      rw [swap_nil hcb hbatch, update_eq_self]
    | cons x rest =>
      rw [← hcb]
      have hmore := total_map_succ (w := steps) (f := Item.waiting t) (g := Item.batch t) (fun _ => rfl) (x :: rest)
      rw [hcb, hmore]
      simp
  | leave | take | hand | drop | dropLast | release | begin | finish | discard | unrefTask | unrefTaskLast =>
    simp [steps]

/-- nobody can go on -/
def Stuck (s : State) : Prop := ∀ e : Event, e.isCall = false → s.step e = s

theorem act_calls_ne (h : s.calls a ≠ []) : (s.act a).calls a ≠ s.calls a := by
  cases hcalls : s.calls a with
  | nil => exact absurd hcalls h
  | cons f rest =>
    cases f with
    | checking =>
      simp only [act, hcalls]
      split_ifs
      · split <;> simp [calls_setCalls]
      · simp [calls_setCalls]
    | holding t k cb | held t k =>
      simp only [act, hcalls]
      split_ifs <;> simp [calls_setCalls]
    | releasing t => simp [act, hcalls, calls_setCalls]

theorem Stuck.calls (h : s.Stuck) (ha : a < s.agents) : s.calls a = [] := by
  by_contra hne
  have hact : s.act a = s := (if_pos ha).symm.trans (h (.act a) rfl)
  exact act_calls_ne hne (congrArg (fun s : State => s.calls a) hact)

theorem Stuck.threads (h : s.Stuck) (ht : t < s.size) : (s.threads t).items t = [] := by
  have hcalls : s.calls t = [] := h.calls (ht.trans_le (by unfold agents; omega))
  have hwork : s.Working t := ⟨ht, hcalls⟩
  -- the event that would change a thread does not
  have hsame : ∀ {β : Type} (f : FoxThread → β) (e : Event), e.isCall = false →
      f ((s.step e).threads t) = f (s.threads t) :=
    fun f e he => by rw [h e he]
  have hrunning : (s.threads t).running = none := by
    have hfinish := hsame running (.finish t) rfl
    cases hrun : (s.threads t).running with
    | none => rfl
    | some x => simp [step, hrun, hwork, State.finish, setThread] at hfinish
  have hbatch : (s.threads t).batch = [] := by
    have hbegin := hsame running (.begin t) rfl
    cases hb : (s.threads t).batch with
    | nil => rfl
    | cons x batch => simp [step, hrunning, hb, hwork, State.begin, setThread] at hbegin
  have hspent : (s.threads t).spent = [] := by
    have hdiscard := hsame spent (.discard t) rfl
    cases hs : (s.threads t).spent with
    | nil => rfl
    | cons x spent =>
      cases hlease : x.lease <;>
        simp [step, hrunning, hbatch, hs, hwork, discard, hlease, setThread, setCalls] at hdiscard
  have hcallbacks : (s.threads t).callbacks = [] := by
    have hread := hsame FoxThread.callbacks (.readCb t) rfl
    simpa [step, hwork, hbatch, hrunning, hspent, readCb, setThread] using hread.symm
  simp [items, hrunning, hbatch, hspent, hcallbacks]

theorem Stuck.weigh (h : s.Stuck) (w : Item → ℕ) :
    s.weigh w = total w (s.callbacks.map .queued) + total w (s.freeFoxThreads.map .free) + total w
    (s.executed.map .executed) := by
  have hcalls : ∑ a ∈ Finset.range s.agents, total w ((s.calls a).map .frame) = 0 :=
    Finset.sum_eq_zero fun a ha => by rw [h.calls (Finset.mem_range.1 ha), map_nil, total_nil]
  have hthreads : ∑ t ∈ Finset.range s.size, total w ((s.threads t).items t) = 0 :=
    Finset.sum_eq_zero fun t ht => by rw [h.threads (Finset.mem_range.1 ht), total_nil]
  unfold State.weigh
  omega

theorem Stuck.free (h : s.Stuck) (hinv : s.Inv) (hsize : 0 < s.size) : s.freeFoxThreads ≠ [] := by
  intro hfree
  have huses : ∀ k, (s.threads 0).uses k = 0 := fun k => by
    rw [← hinv.counted 0 k, h.weigh, hfree]
    simp [total_map, copies]
  have htokens := hinv.tokens 0
  simp [h.weigh, hfree, hsize, live_of_uses huses, total_map, released] at htokens

/-! ## Whole runs -/

/-- the callback in the hands of a check -/
def hand : Frame → Option ℕ
  | .holding _ _ cb => some cb
  | _ => none

/-- the number of places at which a callback is: in the pool, in the hands of a check, in the queue of a thread, or
executed -/
def places (s : State) (cb : ℕ) : ℕ :=
  s.callbacks.count cb + (∑ a ∈ Finset.range s.agents, ((s.calls a).filterMap hand).count cb) +
    (∑ t ∈ Finset.range s.size, (((s.threads t).callbacks ++ (s.threads t).batch).map Task.cb).count cb) +
    s.executed.count cb

/-- the tasks of a thread that have not returned -/
def unfinished (th : FoxThread) : List Task := th.callbacks ++ th.batch ++ th.running.toList

theorem total_count {f : α → Item} {g : α → ℕ} {c : ℕ} (hf : ∀ x, w (f x) = if g x = c then 1 else 0) (l : List α) :
    total w (l.map f) = (l.map g).count c := by
  induction l with
  | nil => rfl
  | cons x l ih =>
    rw [map_cons, total_cons, hf, ih, map_cons, count_cons, Nat.add_comm]
    simp

theorem total_hands (cb : ℕ) (calls : List Frame) :
    total (place cb) (calls.map .frame) = (calls.filterMap hand).count cb := by
  induction calls with
  | nil => rfl
  | cons f calls ih =>
    rw [map_cons, total_cons, ih]
    cases f with
    | holding t k c =>
      change (if c = cb then 1 else 0) + _ = (c :: calls.filterMap hand).count cb
      rw [count_cons, Nat.add_comm]
      simp
    | checking | held | releasing => exact Nat.zero_add _

theorem places_eq_weigh (s : State) (cb : ℕ) : s.places cb = s.weigh (place cb) := by
  have hqueued := total_count (w := place cb) (f := .queued) (g := id) (fun _ => rfl) s.callbacks
  have hexecuted := total_count (w := place cb) (f := .executed) (g := id) (fun _ => rfl) s.executed
  have hthread : ∀ t, total (place cb) ((s.threads t).items t) =
      (((s.threads t).callbacks ++ (s.threads t).batch).map Task.cb).count cb := fun t => by
    have hwaiting := total_count (w := place cb) (f := .waiting t) (g := Task.cb) (fun _ => rfl) (s.threads t).callbacks
    have hbatch := total_count (w := place cb) (f := .batch t) (g := Task.cb) (fun _ => rfl) (s.threads t).batch
    simp [items, hwaiting, hbatch, total_map, place]
  simp only [places, weigh, hqueued, hexecuted, hthread, total_hands]
  simp [total_map, place]

/-- what holds at each moment -/
structure Orderly (s : State) : Prop where
  /-- every callback is at one place -/
  once : ∀ cb < s.passed, s.places cb = 1
  /-- a free thread has no task of the pool -/
  free : ∀ t ∈ s.freeFoxThreads, ∀ x ∈ unfinished (s.threads t), x.lease = none
  /-- without new calls the work comes to its end -/
  ends : ∀ more : List Event, Meets step (fun s e => e.isCall = false ∧ s.step e ≠ s) s more →
    more.length ≤ s.weigh steps
  /-- and then every callback has been executed, once -/
  done : s.Stuck → ∀ cb < s.passed, s.executed.count cb = 1

theorem Inv.free (h : s.Inv) (ht : t ∈ s.freeFoxThreads) {x : Task} (hx : x ∈ unfinished (s.threads t)) :
    x.lease = none := by
  have hsize : t < s.size := h.bounded.free t ht
  have hle := le_released ht
  have htokens := h.tokens t
  rw [if_pos hsize] at htokens
  cases hlease : x.lease with
  | none => rfl
  | some k =>
    have hzero := uses_of_live (show (s.threads t).live = 0 by omega) k
    have hcopy : ∃ i ∈ (s.threads t).items t, copies t k i = 1 := by
      simp only [unfinished, mem_append] at hx
      rcases hx with (hx | hx) | hx
      · exact ⟨.waiting t x, by simp [items, hx], if_pos ⟨rfl, hlease⟩⟩
      · exact ⟨.batch t x, by simp [items, hx], if_pos ⟨rfl, hlease⟩⟩
      · exact ⟨.running t x, by simp [items, Option.mem_toList.1 hx], if_pos ⟨rfl, hlease⟩⟩
    obtain ⟨i, hi, hone⟩ := hcopy
    have hitem := le_weigh_item (w := copies t k) hsize hi
    rw [h.counted t k, hzero, hone] at hitem
    exact absurd hitem (by decide)

theorem ends_of_inv (more : List Event) (hinv : s.Inv) (hstarted : s.Started)
    (hmore : Meets step (fun s e => e.isCall = false ∧ s.step e ≠ s) s more) : more.length ≤ s.weigh steps := by
  induction more generalizing s with
  | nil => exact Nat.zero_le _
  | cons e more ih =>
    obtain ⟨⟨hcall, hne⟩, hrest⟩ := hmore
    obtain ⟨lost, gained, hm⟩ := step_moves hinv.bounded e
    have hlength := ih (hinv.moves hm) (hstarted.moves hm) hrest
    have hweigh := hm.weigh steps
    rw [hcall] at hm
    rcases hm.work hstarted with hsame | hless
    · exact absurd hsame hne
    · rw [length_cons]
      omega

theorem Stuck.executed (h : s.Stuck) (hinv : s.Inv) (hstarted : s.Started) (hsize : 0 < s.size) {cb : ℕ}
    (hcb : cb < s.passed) : s.executed.count cb = 1 := by
  have hempty : s.callbacks = [] := (hinv.woken hstarted.pool fun a ha => h.calls ha).resolve_left (h.free hinv hsize)
  have hplaced := hinv.placed cb
  have hexecuted := total_count (w := place cb) (f := .executed) (g := id) (fun _ => rfl) s.executed
  simpa [hcb, h.weigh, hempty, hexecuted, total_map, place] using hplaced

/-- **Executed once.** -/
theorem tasks_executed (size callers n : ℕ) (hsize : 0 < size) (events : List Event) :
    (run step (begun size callers n) events).Orderly := by
  have hinv : (run step (begun size callers n) events).Inv ∧ (run step (begun size callers n) events).Started ∧
      (run step (begun size callers n) events).size = size := by
    refine run_inv_of_step (I := fun s : State => s.Inv ∧ s.Started ∧ s.size = size) ?_ _ events
      ⟨inv_begun size callers n, ⟨rfl, fun _ => rfl⟩, rfl⟩
    rintro s e ⟨hinv, hstarted, hsame⟩
    obtain ⟨lost, gained, hm⟩ := step_moves hinv.bounded e
    exact ⟨hinv.moves hm, hstarted.moves hm, hm.frame.1.trans hsame⟩
  obtain ⟨hinv, hstarted, hsame⟩ := hinv
  refine ⟨fun cb hcb => ?_, fun t ht x hx => hinv.free ht hx, fun more => ends_of_inv more hinv hstarted,
    fun hstuck cb hcb => ?_⟩
  · rw [places_eq_weigh, hinv.placed, if_pos hcb]
  · exact hstuck.executed hinv hstarted (by omega) hcb

/-- one thread, one caller, and a callback that has been executed -/
theorem one_task_executed :
    (run step (begun 1 1 0) [.act 1, .dispatch 2, .act 2, .act 2, .readCb 0, .begin 0]).executed = [0] ∧
      (run step (begun 1 1 0) [.act 1, .dispatch 2, .act 2, .act 2, .readCb 0, .begin 0]).Orderly :=
  ⟨by decide, tasks_executed 1 1 0 (by decide) _⟩

theorem no_threads :
    (run step (begun 0 0 0) [.act 0, .dispatch 0, .act 0]).passed = 1 ∧
      (run step (begun 0 0 0) [.act 0, .dispatch 0, .act 0]).executed = [] ∧
      (run step (begun 0 0 0) [.act 0, .dispatch 0, .act 0]).Stuck := by
  refine ⟨by decide, by decide, ?_⟩
  intro e he
  cases e with
  | dispatch | batchDispatch | dispatchTo | check => cases he
  | act a =>
    by_cases ha : a < 1
    · obtain rfl : a = 0 := Nat.lt_one_iff.1 ha
      rfl
    · exact if_neg ha
  | readCb t =>
    rw [step, if_neg]
    rintro ⟨⟨hlt, -⟩, -⟩
    exact Nat.not_lt_zero t hlt
  | begin | finish | discard => rfl

end State

end CoServer.Db.FoxPool
