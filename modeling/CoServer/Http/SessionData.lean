/-
`SessionDataManager` (session_data.cpp): `get`, and `check`, which removes the sessions that were not accessed for `ts`
seconds.

`check` collects ids under the read lock and deletes each of them in a locked section of its own, without another look
at the session. Its limit is `time(0) - ts` in 64 bits. The holder of a session may use it without the manager, which
does not move the time stamp. `ids` is the order in which the map is iterated; `last` and `accessed` are what the code
does not keep, the moments of the accesses and the sessions accessed since the scan of a check.

Results:
- `removals_right`: every session that a step removes was not accessed since the scan of the check that removes it, nor
  for `ts` seconds, if no session is accessed between its collection and its deletion, a holder uses a session only in
  the second of a `get`, and no `ts` exceeds the clock of its scan;
- `accessed_removed`: a session accessed after its collection is removed all the same.
-/
import CoServer.Core.Run
import CoServer.Core.Update

namespace CoServer.Http.SessionData

open CoServer.Core Function

variable {κ : Type} [DecidableEq κ]

/-! ## The code -/

/-- a call of `check`: its argument, the clock at its scan, and the collected ids that it has not deleted yet -/
structure Check (κ : Type) where
  ts : ℤ
  time : ℕ
  keys : List κ
  accessed : List κ

/-- `datas` gives the time stamp of a session; the calls of `check` are numbered -/
structure St (κ : Type) where
  now : ℕ
  datas : κ → Option ℕ
  last : κ → ℕ
  checks : ℕ → Check κ

inductive Event (κ : Type) where
  | tick (d : ℕ)
  | get (id : κ)
  /-- an access by the holder of a session -/
  | access (id : κ)
  | scan (a : ℕ) (ts : ℤ)
  | del (a : ℕ)

/-- `time(0) - ts` as a `uint64_t` -/
def limit (time : ℕ) (ts : ℤ) : ℕ := ((time - ts) % 2 ^ 64).toNat

/-- an access now -/
def St.touch (s : St κ) (id : κ) : St κ :=
  { s with
    last := update s.last id s.now
    checks := fun a => { s.checks a with accessed := id :: (s.checks a).accessed } }

def step (ids : List κ) (s : St κ) : Event κ → St κ
  | .tick d => { s with now := s.now + d }
  | .get id =>
    match s.datas id with
    | some _ => { s with datas := update s.datas id (some s.now) }.touch id
    | none => s
  | .access id => s.touch id
  | .scan a ts =>
    if (s.checks a).keys = [] then
      { s with checks := update s.checks a ⟨ts, s.now, ids.filter fun k => (s.datas k).any (· < limit s.now ts), []⟩ }
    else s
  | .del a =>
    match (s.checks a).keys with
    | k :: keys => { s with datas := update s.datas k none, checks := update s.checks a { s.checks a with keys } }
    | [] => s

def init (now : ℕ) (datas : κ → Option ℕ) (last : κ → ℕ) : St κ := ⟨now, datas, last, fun _ => ⟨0, now, [], []⟩⟩

/-! ## Removals -/

/-- what the step removes was not accessed since the scan of the check that removes it, nor for `ts` seconds -/
def RightAt (ids : List κ) (s : St κ) (e : Event κ) : Prop :=
  ∀ k, s.datas k ≠ none → (step ids s e).datas k = none →
    ∃ a, e = .del a ∧ k ∉ (s.checks a).accessed ∧ s.last k + (s.checks a).ts ≤ s.now

/-- a session is accessed while no check has it collected, and by its holder only in the second of its last `get`;
`ts` is at most the clock of the scan -/
def Orderly (s : St κ) : Event κ → Prop
  | .get id => s.datas id ≠ none → ∀ a, id ∉ (s.checks a).keys
  | .access id => ∀ t, s.datas id = some t → t = s.now ∧ ∀ a, id ∉ (s.checks a).keys
  | .scan _ ts => ts ≤ s.now
  | .tick _ | .del _ => True

/-- the collected sessions are older than the limit of the scan and were not accessed since -/
def Check.Kept (now : ℕ) (datas : κ → Option ℕ) (c : Check κ) : Prop :=
  c.ts ≤ c.time ∧ c.time ≤ now ∧ ∀ k ∈ c.keys, ∀ t, datas k = some t → t < limit c.time c.ts ∧ k ∉ c.accessed

/-- and the time stamps are the moments of the last accesses -/
def Kept (s : St κ) : Prop :=
  (∀ k t, s.datas k = some t → s.last k = t) ∧ ∀ a, (s.checks a).Kept s.now s.datas

variable {s : St κ}

theorem touch_kept {datas : κ → Option ℕ} {id : κ} (h : Kept s) (hd : ∀ k, k ≠ id → datas k = s.datas k)
    (hid : ∀ t, datas id = some t → t = s.now ∧ ∀ a, id ∉ (s.checks a).keys) : Kept ({ s with datas }.touch id) := by
  refine ⟨fun k t (ht : datas k = some t) => ?_, fun a => ⟨(h.2 a).1, (h.2 a).2.1, fun k hk t ht => ?_⟩⟩
  · by_cases hk : k = id
    · subst hk
      exact (update_self ..).trans (hid t ht).1.symm
    · exact (update_of_ne hk ..).trans (h.1 k t (hd k hk ▸ ht))
  · have hne : k ≠ id := by
      rintro rfl
      exact (hid t ht).2 a hk
    obtain ⟨hlt, hacc⟩ := (h.2 a).2.2 k hk t (hd k hne ▸ ht)
    exact ⟨hlt, List.not_mem_cons_of_ne_of_not_mem hne hacc⟩

theorem step_kept (ids : List κ) (s : St κ) (e : Event κ) (ho : Orderly s e) (h : Kept s) : Kept (step ids s e) := by
  cases e with
  | tick d => exact ⟨h.1, fun a => ⟨(h.2 a).1, (h.2 a).2.1.trans (Nat.le_add_right _ d), (h.2 a).2.2⟩⟩
  | get id =>
    simp only [step]
    split
    · rename_i t ht
      refine touch_kept h (fun k hk => update_of_ne hk _ _) fun u hu => ⟨?_, ho (by simp [ht])⟩
      simpa using hu.symm
    · exact h
  | access id => exact touch_kept h (fun _ _ => rfl) ho
  | scan a ts =>
    refine inv_ite h fun _ => ⟨h.1, forall_update_iff _ _ |>.2 ⟨⟨ho, le_rfl, ?_⟩, fun a' _ => h.2 a'⟩⟩
    intro k hk t (ht : s.datas k = some t)
    exact ⟨by simpa [ht] using (List.mem_filter.1 hk).2, List.not_mem_nil⟩
  | del a =>
    simp only [step]
    split
    · rename_i k keys hk
      -- the other sessions keep their time stamps
      have hsome {k' t} (ht : update s.datas k none k' = some t) : s.datas k' = some t := by
        obtain ⟨-, h⟩ | ⟨-, h⟩ := update_cases ht
        · cases h
        · exact h
      have hless (c : Check κ) (hc : c.Kept s.now s.datas) : c.Kept s.now (update s.datas k none) :=
        ⟨hc.1, hc.2.1, fun k' hk' t ht => hc.2.2 k' hk' t (hsome ht)⟩
      refine ⟨fun k' t ht => h.1 k' t (hsome ht), forall_update_iff _ _ |>.2 ⟨hless _ ?_, fun a' _ => hless _ (h.2 a')⟩⟩
      exact ⟨(h.2 a).1, (h.2 a).2.1, fun k' hk' => (h.2 a).2.2 k' (hk ▸ List.mem_cons_of_mem k hk')⟩
    · exact h

theorem removed {ids : List κ} {e : Event κ} {k : κ} (hk : s.datas k ≠ none) (hr : (step ids s e).datas k = none) :
    ∃ a, e = .del a ∧ k ∈ (s.checks a).keys := by
  cases e with
  | tick d | access id => exact absurd hr hk
  | get id =>
    simp only [step] at hr
    split at hr
    · obtain ⟨-, h⟩ | ⟨-, h⟩ := update_cases hr
      · cases h
      · exact absurd h hk
    · exact absurd hr hk
  | scan a ts =>
    simp only [step] at hr
    split_ifs at hr
    · exact absurd hr hk
    · exact absurd hr hk
  | del a =>
    simp only [step] at hr
    split at hr
    · rename_i k' keys hkeys
      obtain ⟨rfl, -⟩ | ⟨-, h⟩ := update_cases hr
      · exact ⟨a, rfl, by simp [hkeys]⟩
      · exact absurd h hk
    · exact absurd hr hk

theorem Kept.rightAt (ids : List κ) (e : Event κ) (h : Kept s) : RightAt ids s e := by
  intro k hk hr
  obtain ⟨a, rfl, hmem⟩ := removed hk hr
  obtain ⟨t, ht⟩ := Option.ne_none_iff_exists'.1 hk
  obtain ⟨hts, hnow, hold⟩ := h.2 a
  obtain ⟨hlt, hacc⟩ := hold k hmem t ht
  refine ⟨a, rfl, hacc, ?_⟩
  rw [h.1 k t ht]
  rw [limit] at hlt
  omega

/-- **Removals.** Where the time stamps are the last accesses and every step of the run is orderly, `check` removes only
sessions that were not accessed since its scan, and for `ts` seconds. -/
theorem removals_right (ids : List κ) (now : ℕ) (datas : κ → Option ℕ) (last : κ → ℕ) (es : List (Event κ))
    (hlast : ∀ k t, datas k = some t → last k = t) (hes : Meets (step ids) Orderly (init now datas last) es) :
    Meets (step ids) (RightAt ids) (init now datas last) es := by
  have hinit : Kept (init now datas last) := ⟨hlast, fun a => ⟨Int.natCast_nonneg now, le_rfl, by simp [init]⟩⟩
  exact hes.imp (step_kept ids) (fun s e h _ => h.rightAt ids e) hinit

/-- session 0 is accessed at 3 and used by its holder in that second; `check(5)` at 10 removes it, and session 1,
accessed at 8, stays -/
theorem removals_right_two :
    let es : List (Event ℕ) := [.tick 3, .get 0, .access 0, .tick 5, .get 1, .tick 2, .scan 0 5, .del 0]
    Meets (step [0, 1]) (RightAt [0, 1]) (init 0 (fun _ => some 0) fun _ => 0) es ∧
      (run (step [0, 1]) (init 0 (fun _ => some 0) fun _ => 0) es).datas 0 = none ∧
      (run (step [0, 1]) (init 0 (fun _ => some 0) fun _ => 0) es).datas 1 = some 8 := by
  refine ⟨removals_right [0, 1] 0 (fun _ => some 0) (fun _ => 0) _ (by simp) ?_, by decide, by decide⟩
  simp [Meets, Orderly, step, init, St.touch]

/-- session 0, last accessed at 0, is collected at 10 by `check(5)`, accessed, and removed -/
theorem accessed_removed :
    ¬ Meets (step [0]) (RightAt [0]) (init 10 (fun _ => some 0) fun _ => 0) [.scan 0 5, .get 0, .del 0] := by
  intro h
  obtain ⟨a, ha, hacc, -⟩ := h.2.2.1 0 (by decide) (by decide)
  cases ha
  exact hacc (by decide)

end CoServer.Http.SessionData
