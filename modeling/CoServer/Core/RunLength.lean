/-
Run-length segments of a list. `kind` says which elements stand for a value; neighbours that stand for the same value
are collected in runs, every other element is a segment of its own. The encoder `segments` has its pending run as
arguments.
-/
import Mathlib.Tactic

namespace CoServer.Core

open List

inductive Seg (α κ : Type) where
  | lit (a : α)
  | run (v : κ) (n : ℕ)

namespace Seg

variable {α β κ : Type}

/-- the pending run, if there is one -/
def pending (v : κ) (n : ℕ) : List (Seg α κ) := if n = 0 then [] else [.run v n]

variable (f : α → β)

variable (g : κ → β)

/-- the elements a segment stands for -/
def elems : Seg α κ → List β
  | .lit a => [f a]
  | .run v n => replicate n (g v)

def expand (l : List (Seg α κ)) : List β := l.flatMap (elems f g)

/-- not two runs of one value -/
def Distinct : Seg α κ → Seg α κ → Prop
  | .run v _, .run u _ => u ≠ v
  | _, _ => True

@[simp] theorem expand_nil : expand f g ([] : List (Seg α κ)) = [] := rfl

@[simp] theorem expand_cons (s : Seg α κ) (l : List (Seg α κ)) :
    expand f g (s :: l) = s.elems f g ++ expand f g l := rfl

theorem expand_append (l₁ l₂ : List (Seg α κ)) :
    expand f g (l₁ ++ l₂) = expand f g l₁ ++ expand f g l₂ := by
  simp [expand]

theorem expand_pending (v : κ) (n : ℕ) : expand f g (pending v n) = replicate n (g v) := by
  unfold pending
  split_ifs with h
  · simp [h]
  · simp [elems]

theorem forall_pending {P : Seg α κ → Prop} {v : κ} {n : ℕ} (h : n ≠ 0 → P (.run v n)) : ∀ s ∈ pending v n, P s := by
  intro s hs
  unfold pending at hs
  split_ifs at hs with hn
  · simp at hs
  · rw [mem_singleton.1 hs]
    exact h hn

variable [DecidableEq κ] (kind : α → Option κ)

/-- the segments of `n` elements that stand for `v`, and `l` -/
def segments : κ → ℕ → List α → List (Seg α κ)
  | v, n, [] => pending v n
  | v, n, a :: l =>
    match kind a with
    | none => pending v n ++ .lit a :: segments v 0 l
    | some u => if u = v then segments v (n + 1) l else pending v n ++ segments u 1 l

theorem expand_segments {f : α → β} {g : κ → β} (h : ∀ a u, kind a = some u → f a = g u) (v : κ) (n : ℕ) (l : List α) :
    expand f g (segments kind v n l) = replicate n (g v) ++ l.map f := by
  induction l generalizing v n with
  | nil => simp [segments, expand_pending]
  | cons a l ih =>
    unfold segments
    cases hk : kind a with
    | none => simp [expand_append, expand_pending, elems, ih]
    | some u =>
      simp only
      split_ifs with hu
      · subst hu
        simp [ih, replicate_succ', h a u hk]
      · simp [expand_append, expand_pending, ih, h a u hk]

theorem head?_segments (v : κ) (n : ℕ) (l : List α) (hn : n ≠ 0) :
    ∃ m, (segments kind v n l).head? = some (.run v m) := by
  induction l generalizing n with
  | nil => exact ⟨n, by simp [segments, pending, hn]⟩
  | cons a l ih =>
    unfold segments
    cases kind a with
    | none => exact ⟨n, by simp [pending, hn]⟩
    | some u =>
      simp only
      split_ifs
      · exact ih (n + 1) (Nat.succ_ne_zero n)
      · exact ⟨n, by simp [pending, hn]⟩

theorem isChain_segments (v : κ) (n : ℕ) (l : List α) : (segments kind v n l).IsChain Distinct := by
  have hcons : ∀ (v : κ) (n : ℕ) (l : List (Seg α κ)), l.IsChain Distinct → (∀ s ∈ l.head?, Distinct (.run v n) s) →
      (pending v n ++ l).IsChain Distinct := by
    intro v n l hl hd
    unfold pending
    split_ifs
    · exact hl
    · exact isChain_cons.2 ⟨hd, hl⟩
  induction l generalizing v n with
  | nil => simpa [segments] using hcons v n [] isChain_nil (by simp)
  | cons a l ih =>
    unfold segments
    cases kind a with
    | none =>
      apply hcons
      · exact isChain_cons.2 ⟨fun s _ => trivial, ih v 0⟩
      · simp [Distinct]
    | some u =>
      simp only
      split_ifs with hu
      · exact ih v (n + 1)
      apply hcons _ _ _ (ih u 1)
      obtain ⟨m, hm⟩ := head?_segments kind u 1 l Nat.one_ne_zero
      intro s hs
      rw [hm, Option.mem_some_iff] at hs
      subst hs
      exact hu

theorem forall_segments {P : Seg α κ → Prop} {l : List α} (v : κ) (n : ℕ) (hlit : ∀ a ∈ l, kind a = none → P (.lit a))
    (hrun : ∀ v m, m ≠ 0 → m ≤ n + l.length → P (.run v m)) : ∀ s ∈ segments kind v n l, P s := by
  induction l generalizing v n with
  | nil => exact forall_pending fun hn => hrun v n hn le_rfl
  | cons a l ih =>
    rw [length_cons] at hrun
    have hpending : ∀ s ∈ pending v n, P s := forall_pending fun hn => hrun v n hn (by omega)
    have ih' : ∀ (v : κ) (m : ℕ), m ≤ n + 1 → ∀ s ∈ segments kind v m l, P s := by
      intro v m hm
      apply ih v m
      · exact fun b hb => hlit b (mem_cons_of_mem a hb)
      · exact fun u k hk hle => hrun u k hk (by omega)
    unfold segments
    cases hk : kind a with
    | none =>
      intro s hs
      rcases mem_append.1 hs with hs | hs
      · exact hpending s hs
      rcases mem_cons.1 hs with hs | hs
      · rw [hs]
        exact hlit a mem_cons_self hk
      · exact ih' v 0 (by omega) s hs
    | some u =>
      simp only
      split_ifs
      · exact ih' v (n + 1) le_rfl
      exact forall_mem_append.2 ⟨hpending, ih' u 1 (by omega)⟩

end Seg

end CoServer.Core
