/-
A loop that asks for what is left until nothing is left or a call fails, as
`while(left > 0) { len = call(left); … left -= len; }`.

`transfer_rule`: what each successful call preserves holds when the loop is done, and what a failed call leaves holds
when it stops; the loop ends, since each successful call makes progress. `notes_rule` says what the calls are given.
-/
import Mathlib.Tactic

namespace CoServer.Core

variable {ε σ τ ν : Type}

/-- at most `fuel` calls; a call that is asked for `left` gives how much it did, or a number that is not positive -/
def transfer (call : ℕ → σ → Except ε (ℤ × σ)) (ret : ℤ) : ℕ → ℕ → σ → Except ε (ℤ × σ)
  | 0, _, st => .ok (ret, st)
  | fuel + 1, left, st =>
    if left = 0 then .ok (ret, st)
    else
      match call left st with
      | .error e => .error e
      | .ok (len, st') => if len ≤ 0 then .ok (len, st') else transfer call ret fuel (left - len.toNat) st'

/-- what a call that is asked for `left` does: it fails, or makes progress -/
def Answers (P Q : ℕ → σ → Prop) (call : ℕ → σ → Except ε (ℤ × σ)) : Prop :=
  ∀ left st, 0 < left → P left st → ∃ len st', call left st = .ok (len, st') ∧
    (len ≤ 0 ∧ Q left st' ∨ ∃ n : ℕ, len = n ∧ 0 < n ∧ n ≤ left ∧ P (left - n) st')

variable {call : ℕ → σ → Except ε (ℤ × σ)}

theorem transfer_rule {P Q : ℕ → σ → Prop} (hcall : Answers P Q call) (ret : ℤ) (st : σ)
    {fuel left : ℕ} (hfuel : left ≤ fuel) (h : P left st) :
    ∃ r st', transfer call ret fuel left st = .ok (r, st') ∧
      (r = ret ∧ P 0 st' ∨ r ≤ 0 ∧ ∃ left', 0 < left' ∧ left' ≤ left ∧ Q left' st') := by
  induction fuel generalizing left st with
  | zero =>
    obtain rfl : left = 0 := by omega
    exact ⟨ret, st, rfl, .inl ⟨rfl, h⟩⟩
  | succ fuel ih =>
    rw [transfer]
    by_cases hleft : left = 0
    · subst hleft
      exact ⟨ret, st, if_pos rfl, .inl ⟨rfl, h⟩⟩
    rw [if_neg hleft]
    obtain ⟨len, st', hc, hres⟩ := hcall left st (Nat.pos_of_ne_zero hleft) h
    rw [hc]
    rcases hres with ⟨hle, hq⟩ | ⟨n, rfl, hpos, hn, hp⟩
    · exact ⟨len, st', if_pos hle, .inr ⟨hle, left, Nat.pos_of_ne_zero hleft, le_rfl, hq⟩⟩
    have hgt : ¬ ((n : ℤ) ≤ 0) := by omega
    obtain ⟨r, st'', h1, h2⟩ := ih st' (show left - n ≤ fuel by omega) hp
    refine ⟨r, st'', by simp only [if_neg hgt, Int.toNat_natCast]; exact h1, ?_⟩
    rcases h2 with h2 | ⟨hr, left', h3, h4, h5⟩
    · exact .inl h2
    · exact .inr ⟨hr, left', h3, by omega, h5⟩

/-- what is noted at the calls of the loop, in order -/
def notes (call : ℕ → σ → Except ε (ℤ × σ)) (note : ℕ → σ → Option ν) : ℕ → ℕ → σ → List ν
  | 0, _, _ => []
  | fuel + 1, left, st =>
    if left = 0 then []
    else
      (note left st).toList ++
        match call left st with
        | .error _ => []
        | .ok (len, st') => if len ≤ 0 then [] else notes call note fuel (left - len.toNat) st'

theorem notes_rule {P Q : ℕ → σ → Prop} (hcall : Answers P Q call) {note : ℕ → σ → Option ν} {R : ν → Prop}
    (hnote : ∀ left st, 0 < left → P left st → ∀ v ∈ note left st, R v) (st : σ) (fuel left : ℕ) (h : P left st) :
    ∀ v ∈ notes call note fuel left st, R v := by
  induction fuel generalizing left st with
  | zero => exact fun v hv => nomatch hv
  | succ fuel ih =>
    intro v hv
    rw [notes] at hv
    split_ifs at hv with hleft
    · cases hv
    have hpos := Nat.pos_of_ne_zero hleft
    obtain ⟨len, st', hc, hres⟩ := hcall left st hpos h
    rcases List.mem_append.1 hv with hv | hv
    · exact hnote left st hpos h v (Option.mem_toList.1 hv)
    simp only [hc] at hv
    split_ifs at hv with hlen
    · cases hv
    · rcases hres with ⟨hle, -⟩ | ⟨n, rfl, -, -, hp⟩
      · exact absurd hle hlen
      · exact ih st' (left - n) hp v hv

theorem mem_notes {note : ℕ → σ → Option ν} {st : σ} {fuel left : ℕ} (hfuel : 0 < fuel) (hleft : 0 < left)
    {v : ν} (h : note left st = some v) : v ∈ notes call note fuel left st := by
  obtain ⟨fuel, rfl⟩ := Nat.exists_eq_add_one_of_ne_zero hfuel.ne'
  rw [notes, if_neg hleft.ne', h]
  exact List.mem_append_left _ (List.mem_singleton_self v)

theorem transfer_map {call' : ℕ → τ → Except ε (ℤ × τ)} (f : σ → τ)
    (hcall : ∀ left st, call' left (f st) = (call left st).map fun r => (r.1, f r.2)) (ret : ℤ)
    (fuel left : ℕ) (st : σ) :
    transfer call' ret fuel left (f st) = (transfer call ret fuel left st).map fun r => (r.1, f r.2) := by
  induction fuel generalizing left st with
  | zero => rfl
  | succ fuel ih =>
    rw [transfer, transfer, hcall]
    split_ifs with hleft
    · rfl
    cases call left st with
    | error e => rfl
    | ok r =>
      obtain ⟨len, st'⟩ := r
      simp only [Except.map]
      split_ifs with hlen
      · rfl
      · exact ih (left - len.toNat) st'

theorem transfer_ret {ret r : ℤ} {fuel left : ℕ} {st st' : σ} (h : transfer call ret fuel left st = .ok (r, st')) :
    r = ret ∨ r ≤ 0 := by
  induction fuel generalizing left st with
  | zero =>
    cases h
    exact Or.inl rfl
  | succ fuel ih =>
    rw [transfer] at h
    split_ifs at h with hleft
    · cases h
      exact Or.inl rfl
    cases hc : call left st with
    | error e =>
      rw [hc] at h
      cases h
    | ok a =>
      rw [hc] at h
      simp only at h
      split_ifs at h with hlen
      · cases h
        exact Or.inr hlen
      · exact ih h

theorem transfer_ok (hcall : ∀ left st, ∃ r, call left st = .ok r) (ret : ℤ) (fuel left : ℕ)
    (st : σ) : ∃ r, transfer call ret fuel left st = .ok r := by
  induction fuel generalizing left st with
  | zero => exact ⟨_, rfl⟩
  | succ fuel ih =>
    rw [transfer]
    split_ifs with hleft
    · exact ⟨_, rfl⟩
    obtain ⟨⟨len, st'⟩, hc⟩ := hcall left st
    rw [hc]
    simp only
    split_ifs with hlen
    · exact ⟨_, rfl⟩
    · exact ih _ st'

end CoServer.Core
