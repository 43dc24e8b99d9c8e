/-
Refinement of a machine that never fails by one that may. The implementation is a step function with answers that may
fault (runs `exec`), the specification is total (runs `play`). `Simulates R` says that from related states one step does
not fault, gives the specified answer and leads to related states, for the operations the specification admits;
`Simulates.exec_eq` says the same of runs.
-/
import CoServer.Core.Run

namespace CoServer.Core

variable {σ τ α ρ : Type}

/-- the last state and the answers, or nothing if a step faults -/
def exec (step : σ → α → Option (σ × ρ)) : σ → List α → Option (σ × List ρ)
  | s, [] => some (s, [])
  | s, o :: ops =>
    match step s o with
    | none => none
    | some (s', r) =>
      match exec step s' ops with
      | none => none
      | some (s'', rs) => some (s'', r :: rs)

/-- the same for a machine that does not fault -/
def play (step : τ → α → τ × ρ) : τ → List α → τ × List ρ
  | t, [] => (t, [])
  | t, o :: ops => ((play step (step t o).1 ops).1, (step t o).2 :: (play step (step t o).1 ops).2)

theorem play_fst (step : τ → α → τ × ρ) (t : τ) (ops : List α) :
    (play step t ops).1 = run (fun t o => (step t o).1) t ops := by
  induction ops generalizing t with
  | nil => rfl
  | cons o ops ih => exact ih (step t o).1

def Simulates (R : σ → τ → Prop) (step : σ → α → Option (σ × ρ)) (spec : τ → α → τ × ρ) (ok : τ → α → Prop) : Prop :=
  ∀ s t o, R s t → ok t o → ∃ s', step s o = some (s', (spec t o).2) ∧ R s' (spec t o).1

theorem Simulates.exec_eq {R : σ → τ → Prop} {step : σ → α → Option (σ × ρ)} {spec : τ → α → τ × ρ} {ok : τ → α → Prop}
    (h : Simulates R step spec ok) {s : σ} {t : τ} {ops : List α} (hst : R s t)
    (hops : Meets (fun t o => (spec t o).1) ok t ops) :
    ∃ s', exec step s ops = some (s', (play spec t ops).2) ∧ R s' (play spec t ops).1 := by
  induction ops generalizing s t with
  | nil => exact ⟨s, rfl, hst⟩
  | cons o ops ih =>
    obtain ⟨s', hs', hR⟩ := h s t o hst hops.1
    obtain ⟨s'', hs'', hR'⟩ := ih hR hops.2
    refine ⟨s'', ?_, hR'⟩
    simp only [exec, hs', hs'', play]

theorem Meets.always {step : τ → α → τ} (s : τ) (ops : List α) : Meets step (fun _ _ => True) s ops := by
  induction ops generalizing s with
  | nil => trivial
  | cons o ops ih => exact ⟨trivial, ih _⟩

end CoServer.Core
