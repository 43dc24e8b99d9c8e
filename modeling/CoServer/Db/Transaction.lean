/-
`MySQLTransaction` (src/db/mysql.cpp): BEGIN, statements, and COMMIT or ROLLBACK.

`commit` does nothing when a statement has failed before, and then answers that it has succeeded: it returns
`_hasError`. The destructor of a transaction that commits by itself relies on `commit`, so after a failure it ends
nothing. `sent` is kept for the statements only.

Results:
- `tidy_step`, `right_iff_sound`, `ends_iff`: one call and the destructor, on a transaction that has sent nothing after
  its end.
- `transaction_iff`: of a transaction whose BEGIN succeeded, with any calls and any answers: nothing is sent after a
  COMMIT or ROLLBACK that succeeded, `commit` returns true only if a COMMIT has succeeded, and a COMMIT or ROLLBACK has
  been sent when the object is destroyed, iff every call is `Sound` and the destructor finds the transaction so.
- `failed_statement_committed`: a statement fails; `commit` returns true, and nothing but BEGIN and the statement is
  sent.
-/
import CoServer.Db.MySQLManager

namespace CoServer.Db.Sql

open CoServer.Core List

/-! ## The code -/

structure MySQLTransaction where
  mysql : MySQL
  autoCommit : Bool
  isFinished : Bool
  hasError : Bool
  sent : List (String × Bool)
deriving DecidableEq

/-- the answer of the server to a statement, and the time -/
structure Answer where
  ok : Bool
  now : UInt64

namespace MySQLTransaction

variable (t : MySQLTransaction)

/-- the result is `rt == 0` -/
def execute (sql : String) (a : Answer) : MySQLTransaction × Bool :=
  if t.isFinished then (t, false)
  else
    let (mysql, ok) := t.mysql.execute a.now a.ok
    ({ t with mysql := mysql, hasError := t.hasError || !ok, sent := t.sent ++ [(sql, ok)] }, ok)

/-- what `commit` and `rollback` do with the result of their statement -/
def finish (t : MySQLTransaction × Bool) : MySQLTransaction × Bool :=
  (if t.2 then { t.1 with isFinished := true } else { t.1 with hasError := true }, t.2)

def commit (a : Answer) : MySQLTransaction × Bool :=
  if t.isFinished || t.hasError then (t, t.hasError) else finish (t.execute "COMMIT" a)

def rollback (a : Answer) : MySQLTransaction × Bool :=
  if t.isFinished then (t, true) else finish (t.execute "ROLLBACK" a)

/-- `create`, none if BEGIN fails -/
def create (mysql : MySQL) (autoCommit : Bool) (a : Answer) : Option MySQLTransaction :=
  let t := execute ⟨mysql, autoCommit, false, false, []⟩ "BEGIN" a
  if t.2 then some t.1 else none

section

variable (t : MySQLTransaction)

/-- the destructor -/
def destroy (a : Answer) : MySQLTransaction := if t.autoCommit then (t.commit a).1 else (t.rollback a).1

/-! ## Sequences of calls -/

inductive Call where
  | execute (sql : String) (a : Answer)
  | commit (a : Answer)
  | rollback (a : Answer)

def step : Call → MySQLTransaction
  | .execute sql a => (t.execute sql a).1
  | .commit a => (t.commit a).1
  | .rollback a => (t.rollback a).1

/-- the texts that end a transaction -/
def isEnding (sql : String) : Prop := sql = "COMMIT" ∨ sql = "ROLLBACK"

/-- a COMMIT or ROLLBACK has been sent -/
def EndSent : Prop := ∃ e ∈ t.sent, isEnding e.1

/-- a COMMIT or ROLLBACK has succeeded -/
def Ended : Prop := ∃ e ∈ t.sent, isEnding e.1 ∧ e.2 = true

instance : DecidablePred isEnding := fun sql => inferInstanceAs (Decidable (sql = "COMMIT" ∨ sql = "ROLLBACK"))

instance : Decidable t.EndSent := inferInstanceAs (Decidable (∃ e ∈ t.sent, isEnding e.1))

instance : Decidable t.Ended := inferInstanceAs (Decidable (∃ e ∈ t.sent, isEnding e.1 ∧ e.2 = true))

/-- nothing was sent after a COMMIT or ROLLBACK that succeeded -/
def Quiet : Prop := ∀ before e after, t.sent = before ++ e :: after → isEnding e.1 → e.2 = true → after = []

/-- a call sends nothing after the end, and `commit` returns true only if a COMMIT has succeeded -/
def Right (c : Call) : Prop :=
  (t.step c).Quiet ∧ ∀ a, c = .commit a → (t.commit a).2 = true → ("COMMIT", true) ∈ (t.commit a).1.sent

/-- the destructor sends nothing after the end, and a COMMIT or ROLLBACK has been sent -/
def RightEnd (a : Answer) : Prop := (t.destroy a).Quiet ∧ (t.destroy a).EndSent

/-- after an ending that was given to `execute` only a `commit` that does nothing is called, and a `commit` finds no
failure or a COMMIT that has succeeded -/
def Sound : Call → Prop
  | .execute _ _ | .rollback _ => t.Ended → t.isFinished = true
  | .commit _ => (t.Ended → t.isFinished = true ∨ t.hasError = true) ∧ (t.hasError = true → ("COMMIT", true) ∈ t.sent)

def SoundEnd : Prop :=
  (t.Ended → t.isFinished = true ∨ t.autoCommit = true ∧ t.hasError = true) ∧
    (t.autoCommit = true → t.hasError = true → t.EndSent)

end

/-! ## What is sent -/

variable {t : MySQLTransaction} {a : Answer} {sql : String}

theorem execute_sent (h : t.isFinished = false) (sql : String) (a : Answer) :
    (t.execute sql a).1.sent = t.sent ++ [(sql, a.ok)] ∧ (t.execute sql a).2 = a.ok := by
  unfold execute
  rw [h]
  exact ⟨rfl, rfl⟩

theorem execute_isFinished (h : t.isFinished = false) (sql : String) (a : Answer) :
    (t.execute sql a).1.isFinished = false := by
  unfold execute
  rw [h]
  rfl

theorem execute_finished (h : t.isFinished = true) (sql : String) (a : Answer) :
    t.execute sql a = (t, false) := if_pos h

theorem finish_sent (p : MySQLTransaction × Bool) : (finish p).1.sent = p.1.sent := by
  unfold finish
  split_ifs
  · rfl
  · rfl

theorem commit_sent (hfinished : t.isFinished = false) (herror : t.hasError = false) (a : Answer) :
    (t.commit a).1.sent = t.sent ++ [("COMMIT", a.ok)] ∧ (t.commit a).2 = a.ok := by
  obtain ⟨hsent, hok⟩ := execute_sent hfinished "COMMIT" a
  have hcommit : t.commit a = finish (t.execute "COMMIT" a) := if_neg (by simp [hfinished, herror])
  rw [hcommit]
  exact ⟨(finish_sent _).trans hsent, hok⟩

theorem commit_skipped (h : t.isFinished = true ∨ t.hasError = true) (a : Answer) : t.commit a = (t, t.hasError) :=
  if_pos (by simpa using h)

theorem rollback_sent (hfinished : t.isFinished = false) (a : Answer) :
    (t.rollback a).1.sent = t.sent ++ [("ROLLBACK", a.ok)] := by
  have hrollback : t.rollback a = finish (t.execute "ROLLBACK" a) := if_neg (by simp [hfinished])
  rw [hrollback]
  exact (finish_sent _).trans (execute_sent hfinished "ROLLBACK" a).1

theorem rollback_finished (h : t.isFinished = true) (a : Answer) : t.rollback a = (t, true) := if_pos h

theorem quiet_append {t' : MySQLTransaction} {e : String × Bool} (h : t'.sent = t.sent ++ [e]) : t'.Quiet ↔
    ¬ t.Ended := by
  unfold Quiet
  rw [h]
  constructor
  · rintro hquiet ⟨x, hx, hend, hok⟩
    obtain ⟨before, after, hsent⟩ := append_of_mem hx
    have hcut : t.sent ++ [e] = before ++ x :: (after ++ [e]) := by rw [hsent, append_assoc, cons_append]
    exact absurd (hquiet before x (after ++ [e]) hcut hend hok) (by simp)
  · intro hnot before x after hcut hend hok
    rcases eq_nil_or_concat after with hnil | ⟨init, last, hafter⟩
    · exact hnil
    · rw [hafter, concat_eq_append, ← cons_append, ← append_assoc] at hcut
      have hsent := (append_inj' hcut rfl).1
      exact absurd ⟨x, by rw [hsent]; simp, hend, hok⟩ hnot

/-! ## One call -/

/-- what is kept: nothing follows the end, and `_isFinished` is set for a reason -/
structure Tidy (t : MySQLTransaction) : Prop where
  quiet : t.Quiet
  ended : t.isFinished = true → t.Ended

/-- a call that is no commit sends its statement once -/
theorem right_iff_ended {c : Call} (h : t.Tidy) (hc : ∀ a, c ≠ .commit a) (hdone : t.isFinished = true → t.step c = t)
    (hsent : t.isFinished = false → ∃ e, (t.step c).sent = t.sent ++ [e]) :
    t.Right c ↔ (t.Ended → t.isFinished = true) := by
  rw [Right, and_iff_left fun a ha => absurd ha (hc a)]
  cases hfinished : t.isFinished with
  | true =>
    rw [hdone hfinished]
    exact iff_of_true h.quiet fun _ => rfl
  | false =>
    obtain ⟨e, he⟩ := hsent hfinished
    rw [quiet_append he]
    simp

theorem right_execute_iff (h : t.Tidy) (sql : String) (a : Answer) : t.Right (.execute sql a) ↔
    t.Sound (.execute sql a) :=
  right_iff_ended h nofun (fun hf => by rw [step, execute_finished hf]) fun hf => ⟨_, (execute_sent hf sql a).1⟩

theorem right_rollback_iff (h : t.Tidy) (a : Answer) : t.Right (.rollback a) ↔ t.Sound (.rollback a) :=
  right_iff_ended h nofun (fun hf => by rw [step, rollback_finished hf]) fun hf => ⟨_, rollback_sent hf a⟩

theorem right_commit_iff (h : t.Tidy) (a : Answer) : t.Right (.commit a) ↔ t.Sound (.commit a) := by
  simp only [Right, step, Call.commit.injEq, forall_eq', Sound]
  by_cases hskip : t.isFinished = true ∨ t.hasError = true
  · rw [commit_skipped hskip]
    exact and_congr (iff_of_true h.quiet fun _ => hskip) Iff.rfl
  obtain ⟨hfinished, herror⟩ := not_or.1 hskip
  rw [Bool.not_eq_true] at hfinished herror
  obtain ⟨hsent, hok⟩ := commit_sent hfinished herror a
  rw [quiet_append hsent, hsent, hok, hfinished, herror]
  simp +contextual

theorem right_iff_sound (h : t.Tidy) (c : Call) : t.Right c ↔ t.Sound c := by
  cases c with
  | execute sql a => exact right_execute_iff h sql a
  | commit a => exact right_commit_iff h a
  | rollback a => exact right_rollback_iff h a

theorem ended_finish {ending : String} (hending : isEnding ending) (hfinished : t.isFinished = false) (a : Answer)
    (h : (finish (t.execute ending a)).1.isFinished = true) : (finish (t.execute ending a)).1.Ended := by
  obtain ⟨hsent, hok⟩ := execute_sent hfinished ending a
  have hflag := execute_isFinished hfinished ending a
  unfold Ended
  rw [finish_sent, hsent]
  cases ha : a.ok with
  | true => exact ⟨(ending, true), by simp, hending, rfl⟩
  | false =>
    rw [ha] at hok
    simp [finish, hok, hflag] at h

theorem ended_step (h : t.Tidy) (c : Call) (hfinished : (t.step c).isFinished = true) : (t.step c).Ended := by
  cases hbefore : t.isFinished with
  | true =>
    have hsame : t.step c = t := by
      cases c with
      | execute sql a => rw [step, execute_finished hbefore]
      | commit a => rw [step, commit_skipped (.inl hbefore)]
      | rollback a => rw [step, rollback_finished hbefore]
    rw [hsame]
    exact h.ended hbefore
  | false =>
    cases c with
    | execute sql a => exact absurd ((execute_isFinished hbefore sql a).symm.trans hfinished) (by decide)
    | commit a =>
      by_cases hskip : t.isFinished = true ∨ t.hasError = true
      · rw [step, commit_skipped hskip] at hfinished
        exact absurd (hbefore.symm.trans hfinished) (by decide)
      · have hcommit : t.commit a = finish (t.execute "COMMIT" a) := if_neg (by simpa using hskip)
        rw [step, hcommit] at hfinished ⊢
        exact ended_finish (.inl rfl) hbefore a hfinished
    | rollback a =>
      have hrollback : t.rollback a = finish (t.execute "ROLLBACK" a) := if_neg (by simp [hbefore])
      rw [step, hrollback] at hfinished ⊢
      exact ended_finish (.inr rfl) hbefore a hfinished

theorem tidy_step (c : Call) (hsound : t.Sound c) (h : t.Tidy) : (t.step c).Tidy :=
  ⟨((right_iff_sound h c).2 hsound).1, ended_step h c⟩

/-! ## The destructor -/

theorem endSent_of_ended (h : t.Ended) : t.EndSent := h.imp fun _ he => ⟨he.1, he.2.1⟩

theorem endSent_append {t' : MySQLTransaction} {ending : String} {ok : Bool} (hending : isEnding ending)
    (h : t'.sent = t.sent ++ [(ending, ok)]) : t'.EndSent := ⟨(ending, ok), by rw [h]; simp, hending⟩

theorem ends_iff (h : t.Tidy) (a : Answer) : t.RightEnd a ↔ t.SoundEnd := by
  unfold RightEnd destroy SoundEnd
  cases hauto : t.autoCommit with
  | true =>
    simp only [if_true, true_and, forall_const]
    by_cases hskip : t.isFinished = true ∨ t.hasError = true
    · rw [commit_skipped hskip]
      constructor
      · intro hright
        exact ⟨fun _ => hskip, fun _ => hright.2⟩
      intro hsound
      refine ⟨h.quiet, ?_⟩
      rcases hskip with hfinished | herror
      · exact endSent_of_ended (h.ended hfinished)
      · exact hsound.2 herror
    · obtain ⟨hfinished, herror⟩ := not_or.1 hskip
      rw [Bool.not_eq_true] at hfinished herror
      obtain ⟨hsent, -⟩ := commit_sent hfinished herror a
      rw [quiet_append hsent, and_iff_left (endSent_append (.inl rfl) hsent), hfinished, herror]
      simp
  | false =>
    simp only [Bool.false_eq_true, if_false, false_and, or_false, false_imp_iff, and_true]
    cases hfinished : t.isFinished with
    | true =>
      rw [rollback_finished hfinished]
      exact iff_of_true ⟨h.quiet, endSent_of_ended (h.ended hfinished)⟩ fun _ => rfl
    | false =>
      have hsent := rollback_sent hfinished a
      rw [quiet_append hsent, and_iff_left (endSent_append (.inr rfl) hsent)]
      simp

theorem tidy_create {mysql : MySQL} {autoCommit : Bool} (h : create mysql autoCommit a = some t) : t.Tidy := by
  unfold create at h
  dsimp only at h
  split_ifs at h with hok
  cases h
  have hsent := (execute_sent (t := ⟨mysql, autoCommit, false, false, []⟩) rfl "BEGIN" a).1
  refine ⟨(quiet_append hsent).2 ?_, nofun⟩
  rintro ⟨e, he, -⟩
  cases he

/-- **Transactions.** -/
theorem transaction_iff (mysql : MySQL) (autoCommit : Bool) (begun : Answer) (t : MySQLTransaction)
    (h : create mysql autoCommit begun = some t) (calls : List Call) (a : Answer) :
    Meets step Right t calls ∧ (run step t calls).RightEnd a ↔
      Meets step Sound t calls ∧ (run step t calls).SoundEnd := by
  have hcalls : Meets step Right t calls ↔ Meets step Sound t calls :=
    meets_congr (fun _ c hsound h => tidy_step c hsound h) (fun _ c h => right_iff_sound h c) (tidy_create h) calls
  rw [hcalls]
  refine and_congr_right fun hsound => ends_iff ?_ a
  exact run_inv (fun _ c hsound h => tidy_step c hsound h) hsound (tidy_create h)

/-- a connection that is there -/
def idleMySQL : MySQL := ⟨true, 0, false, 5, 5, none⟩

def succeeds : Answer := ⟨true, 0⟩

def fails : Answer := ⟨false, 0⟩

/-- one statement, and a commit -/
theorem transaction_committed :
    ∃ t, create idleMySQL true succeeds = some t ∧
      Meets step Right t [.execute "INSERT" succeeds, .commit succeeds] ∧
        (run step t [.execute "INSERT" succeeds, .commit succeeds]).RightEnd succeeds := by
  refine ⟨_, rfl, (transaction_iff idleMySQL true succeeds _ rfl _ succeeds).2 ⟨⟨?_, ⟨?_, ?_⟩, trivial⟩, ?_, ?_⟩⟩
  · show Ended _ → _
    decide
  · decide
  · decide
  · decide
  · decide

theorem failed_statement_committed :
    ∃ t, create idleMySQL true succeeds = some t ∧
      ((t.step (.execute "INSERT" fails)).commit succeeds).2 = true ∧
      ((run step t [.execute "INSERT" fails, .commit succeeds]).destroy succeeds).sent =
      [("BEGIN", true), ("INSERT", false)] ∧
      ¬ ((run step t [.execute "INSERT" fails, .commit succeeds]).destroy succeeds).EndSent :=
  ⟨_, rfl, by decide, by decide, by decide⟩

end MySQLTransaction

end CoServer.Db.Sql
