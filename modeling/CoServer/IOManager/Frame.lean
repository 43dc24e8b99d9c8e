/-
What a step of the `IOManager` machine leaves alone, for machines that use it as a part of their state: only the thread
of an operation moves (`step_calls_of_ne`), and the logs of registrations and resolutions only grow (`step_logs`).
-/
import CoServer.IOManager.Contexts

namespace CoServer.IOManager

open Function List
open Scheduler (Task FiberState)

variable {s s' : St} {p t : ℕ}

theorem step_calls_of_ne (s : St) (o : Op) (ht : o.thread ≠ some t) : (step s o).calls t = s.calls t := by
  have hm := step_moves s o
  generalize step s o = s' at hm
  cases hm with
  | same | abort a | reports ho v rs | close fd => rfl
  | call v r fd | resize hc hp => exact update_of_ne (fun he => ht (by rw [he]; rfl)) _ _
  | enter hc hs =>
    obtain ⟨-, ok', hcalls⟩ := requestSection_frame hs
    rw [hcalls]
    exact update_of_ne (fun he => ht (by rw [he]; rfl)) _ _
  | deliver hm hne hk htr => rw [htr.frame.2.1]

/-! ## The logs -/

/-- both logs of `s` are beginnings of those of `s'` -/
def Extends (s s' : St) : Prop := s.registered <+: s'.registered ∧ s.resolved <+: s'.resolved

theorem Extends.refl (s : St) : Extends s s := ⟨prefix_rfl, prefix_rfl⟩

theorem Extends.trans {s1 s2 s3 : St} (h : Extends s1 s2) (h' : Extends s2 s3) : Extends s1 s3 :=
  ⟨h.1.trans h'.1, h.2.trans h'.2⟩

theorem Triggers.extends {br bw : Bool} (h : Triggers s p br bw s') : Extends s s' :=
  h.induct Extends.refl Extends.trans fun _ _ _ _ _ _ => ⟨prefix_rfl, prefix_append _ _⟩

theorem requestSection_extends {fd : ℕ} {ok : Bool} {r : Request} (h : requestSection s t fd p ok r = .ok s') :
    Extends s s' := by
  cases requestSection_ok h with
  | failed => exact Extends.refl s
  | add hb he hk => exact ⟨prefix_append _ _, prefix_rfl⟩
  | release hr hk hx ho => exact ⟨prefix_rfl, prefix_append _ _⟩
  | all hk ht he => exact ht.extends

theorem step_logs (s : St) (o : Op) : Extends s (step s o) := by
  have hm := step_moves s o
  generalize step s o = s' at hm
  cases hm with
  | same | abort a | call v r fd | resize hc hp | reports ho v rs | close fd => exact Extends.refl s
  | enter hc hs => exact requestSection_extends hs
  | deliver hm hne hk ht => exact ht.extends

/-! ## The steps of one call -/

theorem afterLookup_cases (s : St) (r : Request) (fd : ℕ) :
    (∃ p, afterLookup s r fd = .found r fd p) ∨ (∃ a, r = .add a ∧ afterLookup s r fd = .resize fd a) ∨
      afterLookup s r fd = .returned false := by
  unfold afterLookup
  cases lookup s fd with
  | some p => exact .inl ⟨p, rfl⟩
  | none =>
    cases r with
    | add a => exact .inr (.inl ⟨a, rfl, rfl⟩)
    | _ => exact .inr (.inr rfl)

theorem step_call_cases (s : St) (t : ℕ) (r : Request) (fd : ℕ) :
    (step s (.call t r fd)).calls t = s.calls t ∨ (step s (.call t r fd)).calls t = afterLookup s r fd := by
  have hm := step_moves s (.call t r fd)
  generalize step s (.call t r fd) = s' at hm
  cases hm with
  | same | abort a | reports ho v rs => exact .inl rfl
  | call => exact .inr (update_self _ _ _)

theorem step_resize_cases (s : St) (t : ℕ) :
    (step s (.resize t)).calls t = s.calls t ∨
      ∃ fd a p, s.calls t = .resize fd a ∧ (step s (.resize t)).calls t = .found (.add a) fd p := by
  have hm := step_moves s (.resize t)
  generalize step s (.resize t) = s' at hm
  cases hm with
  | same | abort a | reports ho v rs => exact .inl rfl
  | resize hc hp => exact .inr ⟨_, _, _, hc, update_self _ _ _⟩

theorem step_enter_cases (s : St) (t : ℕ) (ok : Bool) :
    (step s (.enter t ok)).calls t = s.calls t ∨
      ∃ r fd p ok', s.calls t = .found r fd p ∧ requestSection s t fd p ok r = .ok (step s (.enter t ok)) ∧
        (step s (.enter t ok)).calls t = .returned ok' := by
  have hm := step_moves s (.enter t ok)
  generalize step s (.enter t ok) = s' at hm
  cases hm with
  | same | abort a | reports ho v rs => exact .inl rfl
  | enter hc hs =>
    obtain ⟨-, ok', hcalls⟩ := requestSection_frame hs
    exact .inr ⟨_, _, _, ok', hc, hs, by rw [hcalls, update_self]⟩

theorem addSection_registered {fd : ℕ} {a : AddArgs} {ok : Bool} (h : addSection s t fd p a ok = .ok s')
    (hret : s'.calls t = .returned true) :
    ∃ task, s'.registered = s.registered ++ [⟨p, a.event, a.scheduler, task⟩] ∧ s'.resolved = s.resolved ∧
      s'.vec = s.vec := by
  cases requestSection_ok (r := .add a) h with
  | failed => simp [St.ret] at hret
  | add hb he hk => exact ⟨(a.slot s.registered.length).task, rfl, rfl, rfl⟩
  | release hr => simp at hr

theorem cancelSection_resolves (h : Books s) {fd k : ℕ} {e : Event} {ok : Bool} {g : Registration}
    (hs : cancelSection s t fd p e ok = .ok s') (hg : s.registered[k]? = some g) (hp : g.ptr = p) (he : g.event = e)
    (hctl : (s.ctxs p).events.has e = true → ok = true ∧ s.kernel fd ≠ none) : k ∈ s'.resolved.map Prod.fst := by
  by_cases hk : k ∈ s.resolved.map Prod.fst
  · obtain ⟨y, hy, rfl⟩ := mem_map.1 hk
    exact mem_map_of_mem ((requestSection_extends (r := .cancel e) hs).2.subset hy)
  obtain ⟨x, hx, ht⟩ := h.slot_of_pending hg hk
  subst hp he
  obtain ⟨hok, hkernel⟩ := hctl hx.1
  have hepoll : epollCtl s.kernel (if ((s.ctxs g.ptr).events.remove g.event).isEmpty then CtlOp.del else .mod) fd
      ⟨g.ptr, (s.ctxs g.ptr).events.remove g.event⟩ ok ≠ none := by
    split_ifs <;> simp [epollCtl, hok, hkernel]
  unfold cancelSection at hs
  dsimp only at hs
  rw [if_neg (by rw [hx.1]; simp)] at hs
  split at hs
  · next hnone => exact absurd hnone hepoll
  obtain ⟨s1, htr, hs⟩ := bind_ok hs
  cases hs
  rcases triggerIf_ok htr with ⟨hb, -⟩ | ⟨x', o, -, hx', -, rfl⟩
  · cases hb
  obtain rfl : x' = x := Option.some.inj (hx'.2.symm.trans hx.2)
  have hmem : (k, o) ∈ s.resolved ++ resolve x' o := by simp [resolve, ht]
  exact mem_map_of_mem hmem

end CoServer.IOManager
