/-
What a query lists after any sequence of registrations and disconnects.

The registry keeps one entry per domain, command and node id, and a session that gives a triple up deletes the entry,
whoever else has registered it. `Accurate` compares the answers of every query with the latest registrations of the
streams that are still connected; `Exclusive`: the triple that a stream gives up is in no other connected stream's
latest registration.

Results:
- `accurate_iff_exclusive`: one step.
- `registry_accurate_iff`: after every step of a sequence of registrations and disconnects of any streams, a query lists
  exactly the nodes of the connected streams' latest registrations, with the weight of one of them, iff no step takes a
  triple from one stream that another connected stream has registered too.
- `reconnected_node_lost`: a client registers, reconnects and registers again on the new stream; then its old stream is
  seen to drop.
-/
import CoServer.Core.Run
import CoServer.NameServer.Module

namespace CoServer.NameServer

open CoServer.Core Function List Option

variable {inetAddr : String → UInt32}

/-! ## Runs -/

structure State (inetAddr : String → UInt32) where
  module : NameServerModule inetAddr
  /-- streams whose disconnect has not been handled -/
  connected : ℕ → Bool
  /-- not in the code: the latest accepted registration of each stream -/
  latest : ℕ → RegisterRequest

inductive Op where
  | register (stream : ℕ) (rr : Option RegisterRequest)
  | disconnect (stream : ℕ)
deriving DecidableEq

def init : State inetAddr := ⟨⟨KeyMap.empty, fun _ => none⟩, fun _ => true, fun _ => []⟩

variable (s : State inetAddr)

def step : Op → State inetAddr
  | .register stream rr =>
    match s.module.handleRegister rr stream (s.connected stream) with
    | .error _ => s
    | .ok m => { s with module := m, latest := update s.latest stream (rr.getD []) }
  | .disconnect stream =>
    { s with module := s.module.onDisconnect stream false, connected := update s.connected stream false }

/-- the stream is still connected and its latest registration contains the triple -/
def State.Holds (stream : ℕ) (domain : String) (cmd : UInt32) (id : UInt64) : Prop :=
  s.connected stream = true ∧ Contains inetAddr (s.latest stream) domain cmd id

/-- every query lists under each domain it asks for exactly the nodes that some connected stream has registered there,
with the weight of such a registration -/
def Accurate : Prop :=
  ∀ domains, ∀ domain ∈ domains, ∀ cmd id,
    ((∃ w, Lists (s.module.handleQuery domains) domain cmd id w) ↔ ∃ t, s.Holds t domain cmd id) ∧
    ∀ w, Lists (s.module.handleQuery domains) domain cmd id w → ∃ t, s.Holds t domain cmd id ∧ HasWeight (s.latest t) w

/-- what the step takes from a stream's registration, no other connected stream's registration contains -/
def Exclusive (o : Op) : Prop :=
  ∀ t domain cmd id, s.Holds t domain cmd id → ¬ (step s o).Holds t domain cmd id →
    ∀ u, u ≠ t → ¬ s.Holds u domain cmd id

/-! ## Entries and sessions -/

/-- the entries are those that the sessions' values enter, each with the weight of such a session -/
structure NameServerModule.Agrees (m : NameServerModule inetAddr) : Prop where
  weight : ∀ {d c id n}, entry m.domains d c id = some n →
    ∃ t, ∃ v ∈ m.sessions t, Entered (some v) d c id ∧ n.weight = v.node.weight
  listed : ∀ {t d c id}, Entered (m.sessions t) d c id → entry m.domains d c id ≠ none

open NameServerModule

@[simp] theorem sessions_assign (m : NameServerModule inetAddr) (rs : ℕ) (newValue : Option (NSClientInfo inetAddr)) :
    (m.assign rs newValue).sessions = update m.sessions rs newValue := rfl

theorem agrees_assign {m : NameServerModule inetAddr} (ha : m.Agrees) {rs : ℕ}
    {newValue : Option (NSClientInfo inetAddr)}
    (hid : ∀ o ∈ m.sessions rs, ∀ n ∈ newValue, o.node.id = n.node.id)
    (hex : ∀ d c id, Entered (m.sessions rs) d c id → ¬ Entered newValue d c id →
      ∀ u, u ≠ rs → ¬ Entered (m.sessions u) d c id) :
    (m.assign rs newValue).Agrees where
  weight := by
    intro d c id n hn
    rw [assign, entry_applyDiff m.domains hid d c id] at hn
    -- a stream other than `rs` keeps its value, so an entry that is kept has the weight of that stream or of `rs`
    have hkept : ∀ {t v}, t ≠ rs → v ∈ m.sessions t → v ∈ update m.sessions rs newValue t := by
      intro t v ht hv
      rwa [update_of_ne ht]
    split at hn
    · rename_i hnew
      obtain ⟨v, hv, hcov⟩ := hnew
      have hself : v ∈ update m.sessions rs newValue rs := by rwa [update_self]
      split at hn
      · rename_i hsame
        obtain ⟨t, v', hv', hent, hw⟩ := ha.weight hn
        by_cases ht : t = rs
        · subst ht
          have hweight : v'.node.weight = v.node.weight := by
            by_contra hne
            exact hsame.2 ⟨v', hv', v, hv, hne⟩
          exact ⟨t, v, hself, (entered_some v d c id).2 hcov, hw.trans hweight⟩
        · exact ⟨t, v', hkept ht hv', hent, hw⟩
      · rw [mem_def.1 hv] at hn
        exact ⟨rs, v, hself, (entered_some v d c id).2 hcov, by rw [Option.some.inj hn]⟩
    · split at hn
      · cases hn
      rename_i hold
      obtain ⟨t, v', hv', hent, hw⟩ := ha.weight hn
      refine ⟨t, v', hkept ?_ hv', hent, hw⟩
      rintro rfl
      exact hold (by rwa [mem_def.1 hv'])
  listed := by
    intro t d c id ht
    rw [assign, entry_applyDiff m.domains hid d c id]
    split
    · rename_i hnew
      split
      · rename_i hsame
        exact ha.listed hsame.1
      · obtain ⟨v, hv, -⟩ := hnew
        rw [mem_def.1 hv]
        exact some_ne_none _
    · rename_i hnew
      have hne : t ≠ rs := by
        rintro rfl
        rw [sessions_assign, update_self] at ht
        exact hnew ht
      rw [sessions_assign, update_of_ne hne] at ht
      split
      · rename_i hold
        exact absurd ht (hex d c id hold hnew t hne)
      · exact ha.listed ht

/-! ## The invariant -/

/-- a connected stream's session is built from its latest registration, another stream has none -/
structure Tracks (s : State inetAddr) : Prop where
  built : ∀ t, s.connected t = true → Built (s.latest t) (s.module.sessions t)
  gone : ∀ t, s.connected t = false → s.module.sessions t = none

structure Inv (s : State inetAddr) : Prop extends Tracks s where
  agrees : s.module.Agrees

theorem inv_init : Inv (init : State inetAddr) where
  built _ _ := built_nil
  gone _ h := Bool.noConfusion h
  agrees := { weight := fun h => (some_ne_none _ h.symm).elim, listed := fun h => absurd h (not_entered_none _ _ _) }

variable {s : State inetAddr}

theorem holds_iff_entered (h : Tracks s) (t : ℕ) (d : String) (c : UInt32) (id : UInt64) :
    s.Holds t d c id ↔ Entered (s.module.sessions t) d c id := by
  unfold State.Holds
  cases hc : s.connected t with
  | true => simp [(h.built t hc).entered d c id]
  | false => simp [h.gone t hc, not_entered_none]

theorem step_cases (h : Tracks s) (o : Op) :
    step s o = s ∨ ∃ rs newValue,
      (step s o).module = s.module.assign rs newValue ∧
      (∀ o ∈ s.module.sessions rs, ∀ n ∈ newValue, o.node.id = n.node.id) ∧ Tracks (step s o) := by
  cases o with
  | register rs rr =>
    cases rr with
    | none => exact Or.inl rfl
    | some infos =>
      cases hreg : registerInfos (s.module.sessions rs) none infos with
      | error e => exact Or.inl (by simp only [step, handleRegister, hreg])
      | ok value =>
        obtain ⟨hbuilt, hid⟩ := built_register hreg
        have hstep : step s (.register rs (some infos)) =
            { s with module := s.module.set rs (s.connected rs) value, latest := update s.latest rs infos } := by
          simp [step, handleRegister, hreg]
        rw [hstep]
        refine Or.inr ⟨rs, if s.connected rs then value else none, rfl, ?_, ?_, ?_⟩
        · intro o ho n hn
          cases hc : s.connected rs with
          | true => exact hid o ho n (by simpa [hc] using hn)
          | false => simp [hc] at hn
        · intro t ht
          by_cases htr : t = rs
          · subst htr
            simpa [NameServerModule.set, show s.connected t = true from ht] using hbuilt
          · simpa [NameServerModule.set, htr] using h.built t ht
        · intro t ht
          by_cases htr : t = rs
          · subst htr
            simp [NameServerModule.set, show s.connected t = false from ht]
          · simpa [NameServerModule.set, htr] using h.gone t ht
  | disconnect rs =>
    refine Or.inr ⟨rs, none, rfl, fun o _ n hn => (some_ne_none n hn.symm).elim, ?_, ?_⟩
    · intro t ht
      by_cases htr : t = rs
      · subst htr
        simp [step] at ht
      · have hold : s.connected t = true := by simpa [step, htr] using ht
        simpa [step, NameServerModule.onDisconnect, NameServerModule.set, htr] using h.built t hold
    · intro t ht
      by_cases htr : t = rs
      · subst htr
        simp [step, NameServerModule.onDisconnect, NameServerModule.set]
      · have hold : s.connected t = false := by simpa [step, htr] using ht
        simpa [step, NameServerModule.onDisconnect, NameServerModule.set, htr] using h.gone t hold

theorem inv_step {o : Op} (hex : Exclusive s o) (h : Inv s) : Inv (step s o) := by
  rcases step_cases h.toTracks o with hs | ⟨rs, newValue, hmodule, hid, htracks⟩
  · rwa [hs]
  refine ⟨htracks, ?_⟩
  rw [hmodule]
  refine agrees_assign h.agrees hid ?_
  intro d c id hold hnew u hu
  rw [← holds_iff_entered h.toTracks]
  refine hex rs d c id ((holds_iff_entered h.toTracks rs d c id).2 hold) ?_ u hu
  rw [holds_iff_entered htracks, hmodule, sessions_assign, update_self]
  exact hnew

theorem accurate_of_inv (h : Inv s) : Accurate s := by
  intro domains domain hd cmd id
  have hentry : ∀ {w}, Lists (s.module.handleQuery domains) domain cmd id w →
      ∃ t, s.Holds t domain cmd id ∧ HasWeight (s.latest t) w := by
    intro w hw
    obtain ⟨n, hn, rfl⟩ := (handleQuery_lists s.module hd cmd id w).1 hw
    obtain ⟨t, v, hv, hent, hweight⟩ := h.agrees.weight hn
    have hholds : s.Holds t domain cmd id := by
      rw [holds_iff_entered h.toTracks, mem_def.1 hv]
      exact hent
    refine ⟨t, hholds, ?_⟩
    rw [hweight]
    exact (h.built t hholds.1).weight v hv
  refine ⟨⟨?_, ?_⟩, fun w hw => hentry hw⟩
  · rintro ⟨w, hw⟩
    obtain ⟨t, ht, -⟩ := hentry hw
    exact ⟨t, ht⟩
  · rintro ⟨t, ht⟩
    obtain ⟨n, hn⟩ := ne_none_iff_exists'.1 (h.agrees.listed ((holds_iff_entered h.toTracks t domain cmd id).1 ht))
    exact ⟨n.weight, (handleQuery_lists s.module hd cmd id n.weight).2 ⟨n, hn, rfl⟩⟩

theorem exclusive_of_accurate {o : Op} (h : Tracks s) (ha : Accurate (step s o)) : Exclusive s o := by
  intro t d c id ht hnt u hut hu
  rcases step_cases h o with hs | ⟨rs, newValue, hmodule, hid, htracks⟩
  · exact hnt (by rwa [hs])
  rw [holds_iff_entered htracks, hmodule, sessions_assign] at hnt
  rw [holds_iff_entered h] at ht hu
  obtain rfl : t = rs := by
    by_contra hne
    exact hnt (by rwa [update_of_ne hne])
  rw [update_self] at hnt
  have hu' : (step s o).Holds u d c id := by rwa [holds_iff_entered htracks, hmodule, sessions_assign, update_of_ne hut]
  obtain ⟨w, hw⟩ := ((ha [d] d (mem_singleton_self d) c id).1).2 ⟨u, hu'⟩
  obtain ⟨n, hn, -⟩ := (handleQuery_lists _ (mem_singleton_self d) c id w).1 hw
  rw [hmodule, assign] at hn
  rw [entry_applyDiff s.module.domains hid d c id, if_neg hnt, if_pos ht] at hn
  cases hn

theorem accurate_iff_exclusive (h : Inv s) (o : Op) : Accurate (step s o) ↔ Exclusive s o :=
  ⟨exclusive_of_accurate h.toTracks, fun hex => accurate_of_inv (inv_step hex h)⟩

/-- **The registry and the registrations.** -/
theorem registry_accurate_iff (inetAddr : String → UInt32) (ops : List Op) :
    Meets step (fun s o => Accurate (step s o)) (init : State inetAddr) ops ↔
      Meets step Exclusive (init : State inetAddr) ops :=
  meets_congr (fun _ _ hex h => inv_step hex h) (fun _ o h => accurate_iff_exclusive h o) inv_init ops

/-- `inet_addr` on the one address used below; it answers `INADDR_NONE` for a malformed one -/
def loopback (ip : String) : UInt32 := if ip = "127.0.0.1" then 0x0100007F else 0xFFFFFFFF

/-- one node, one command -/
def blogNode : RegisterRequest := [⟨some "blog", [100], some ⟨some "127.0.0.1", some 8080, some 10⟩⟩]

theorem reconnected_node_lost :
    let s := run step (init : State loopback) [.register 0 (some blogNode), .register 1 (some blogNode), .disconnect 0]
    s.Holds 1 "blog" 100 (getID loopback "127.0.0.1" 8080) ∧ s.module.handleQuery ["blog"] = [] ∧ ¬ Accurate s := by
  intro s
  have hholds : s.Holds 1 "blog" 100 (getID loopback "127.0.0.1" 8080) :=
    ⟨rfl, _, mem_singleton_self _, rfl, mem_singleton_self _, _, rfl, _, rfl, _, rfl, rfl⟩
  have hquery : s.module.handleQuery ["blog"] = [] := by decide +kernel
  refine ⟨hholds, hquery, fun ha => ?_⟩
  obtain ⟨w, info, hinfo, -⟩ := ((ha ["blog"] "blog" (mem_singleton_self _) 100 _).1).2 ⟨1, hholds⟩
  cases hinfo

end CoServer.NameServer
