/-
Runs of a machine whose steps are total functions, and the invariant rule for guarded runs.

A machine is a step function `σ → α → σ` (an operation that is not enabled leaves the state alone); an interleaving of
any number of parties is one list of operations. `Meets` says that every step of a run satisfies a condition on the
state BEFORE the step and on the operation.

`run_inv`: what one guarded step preserves, a guarded run preserves. `Meets.take_drop`: the first steps of a guarded run
are guarded, and so are the steps after them, so that a result about the last state is one about every state on the way.
-/
import Mathlib.Tactic

namespace CoServer.Core

open List

variable {σ α : Type}

/-- the state after a list of operations -/
def run (step : σ → α → σ) (s : σ) (ops : List α) : σ := ops.foldl step s

/-- every step of the run meets the condition `ok`, in the state before the step -/
def Meets (step : σ → α → σ) (ok : σ → α → Prop) : σ → List α → Prop
  | _, [] => True
  | s, o :: ops => ok s o ∧ Meets step ok (step s o) ops

instance Meets.decidable (step : σ → α → σ) (ok : σ → α → Prop) [∀ s o, Decidable (ok s o)] (s : σ) (ops : List α) :
    Decidable (Meets step ok s ops) :=
  match ops with
  | [] => isTrue trivial
  | o :: ops =>
    have := Meets.decidable step ok (step s o) ops
    inferInstanceAs (Decidable (ok s o ∧ Meets step ok (step s o) ops))

section

variable (step : σ → α → σ)

@[simp] theorem run_nil (s : σ) : run step s [] = s := rfl

@[simp] theorem run_cons (s : σ) (o : α) (ops : List α) : run step s (o :: ops) = run step (step s o) ops := rfl

theorem run_append (s : σ) (a b : List α) : run step s (a ++ b) = run step (run step s a) b := by simp [run]

theorem meets_append (ok : σ → α → Prop) (s : σ) (a b : List α) :
    Meets step ok s (a ++ b) ↔ Meets step ok s a ∧ Meets step ok (run step s a) b := by
  induction a generalizing s with
  | nil => simp [Meets]
  | cons o a ih => simp [Meets, ih, and_assoc]

theorem run_take_drop (s : σ) (ops : List α) (n : ℕ) : run step s ops = run step (run step s (ops.take n))
    (ops.drop n) := by
  rw [← run_append, take_append_drop]

end

variable {ok : σ → α → Prop} {s : σ} {ops : List α} {I : σ → Prop}

theorem inv_ite {s' : σ} {p : Prop} [Decidable p] (h : I s) (h' : p → I s') : I (if p then s' else s) := by
  split_ifs with hp
  · exact h' hp
  · exact h

variable {step : σ → α → σ}

theorem Meets.take_drop (h : Meets step ok s ops) (n : ℕ) :
    Meets step ok s (ops.take n) ∧ Meets step ok (run step s (ops.take n)) (ops.drop n) := by
  rw [← meets_append, take_append_drop]
  exact h

theorem run_inv (hstep : ∀ s o, ok s o → I s → I (step s o)) (hops : Meets step ok s ops) (h : I s) :
    I (run step s ops) := by
  induction ops generalizing s with
  | nil => exact h
  | cons o ops ih => exact ih hops.2 (hstep s o hops.1 h)

theorem run_inv_of_step (hstep : ∀ s o, I s → I (step s o)) (s : σ) (ops : List α) (h : I s) : I (run step s ops) := by
  induction ops generalizing s with
  | nil => exact h
  | cons o ops ih => exact ih _ (hstep s o h)

variable {ok' : σ → α → Prop}

theorem meets_congr (hstep : ∀ s o, ok s o → I s → I (step s o)) (hiff : ∀ s o, I s → (ok' s o ↔ ok s o)) (h : I s)
    (ops : List α) : Meets step ok' s ops ↔ Meets step ok s ops := by
  induction ops generalizing s with
  | nil => exact Iff.rfl
  | cons o ops ih =>
    constructor
    · intro ⟨ho, hops⟩
      have ho' := (hiff s o h).1 ho
      exact ⟨ho', (ih (hstep s o ho' h)).1 hops⟩
    · intro ⟨ho, hops⟩
      exact ⟨(hiff s o h).2 ho, (ih (hstep s o ho h)).2 hops⟩

theorem Meets.imp (hstep : ∀ s o, ok s o → I s → I (step s o)) (himp : ∀ s o, I s → ok s o → ok' s o) (h : I s)
    (hops : Meets step ok s ops) : Meets step ok' s ops := by
  induction ops generalizing s with
  | nil => trivial
  | cons o ops ih => exact ⟨himp s o h hops.1, ih (hstep s o hops.1 h) hops.2⟩

theorem meets_of_forall {p : α → Prop} (h : ∀ o ∈ ops, p o) (s : σ) : Meets step (fun _ o => p o) s ops := by
  induction ops generalizing s with
  | nil => trivial
  | cons o ops ih => exact ⟨h o mem_cons_self, ih (fun o' ho' => h o' (mem_cons_of_mem _ ho')) (step s o)⟩

theorem Meets.and (h : Meets step ok s ops) (h' : Meets step ok' s ops) :
    Meets step (fun s o => ok s o ∧ ok' s o) s ops := by
  induction ops generalizing s with
  | nil => trivial
  | cons o ops ih => exact ⟨⟨h.1, h'.1⟩, ih h.2 h'.2⟩

/-! ## Histories -/

/-- the value the latest event gives -/
def latest {β : Type} (f : α → Option β) (hist : List α) : Option β := hist.reverse.findSome? f

theorem latest_snoc {β : Type} (f : α → Option β) (hist : List α) (o : α) :
    latest f (hist ++ [o]) = (f o).or (latest f hist) := by
  rw [latest, reverse_append, reverse_singleton, singleton_append, List.findSome?_cons]
  cases f o with
  | none | some b => rfl

end CoServer.Core
