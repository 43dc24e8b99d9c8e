/-
The text that `SmtpClient::send` (smtp.cpp) transmits after DATA, with `EMailEntity::toString` (email.cpp).

The addresses, the title, the body and the attachments of the e-mail are written as they are: no dot at the beginning of
a line is doubled. The server takes the first line that holds a single dot for the end of the message, and what follows
it for commands. Between two parts of the e-mail the code writes a text of its own that has a byte other than CR, LF and
the dot at both ends (`Solid`), so that the terminator cannot reach from one part into the next; it can begin or end in
the line ends that the code writes around a part.

Results:
- `message_free_iff`: the message has no terminator in it iff no part has, each with the line ends around it;
- `terminator_last_iff`: so the terminator occurs at the very end only, for every e-mail and every random boundary;
- `body_ends_message`: a body that ends the message and goes on with a command.
-/
import CoServer.Core.CString

namespace CoServer.Email

open CoServer.Core.CString List

abbrev Text := List UInt8

/-! ## The code -/

/-- the headers are in the order of the map -/
structure EMailEntity where
  headers : List (Text × Text)
  content : Text

structure EMail where
  fromEMailAddress : Text
  toEMailAddress : List Text
  ccEMailAddress : List Text
  title : Text
  body : Text
  entitys : List EMailEntity

def crlf : Text := [13, 10]

variable (rand : Fin 16 → ℕ)

/-- `random_string(16)`: `rand` gives the results of the calls of `rand()` -/
def random_string : Text :=
  let chars := lit "0123456789abcdefghijklmnopqrstuvwxyzABCDEFGHIJKLMNOPQRSTUVWXYZ"
  ofFn fun i => chars.getD (rand i % chars.length) 0

def EMailEntity.toString (e : EMailEntity) : Text :=
  (e.headers.flatMap fun i => i.1 ++ lit ": " ++ i.2 ++ crlf) ++ e.content ++ crlf

/-- the loop over the addresses of one kind -/
def addresses : List Text → Text
  | [] => []
  | [a] => lit "<" ++ a ++ lit ">" ++ crlf
  | a :: v => lit "<" ++ a ++ lit ">," ++ addresses v

variable (email : EMail)

/-- the text up to its last line, which is a dot -/
def message : Text :=
  let boundary := if email.entitys = [] then [] else random_string rand
  lit "From: <" ++ email.fromEMailAddress ++ lit ">" ++ crlf ++ lit "To: " ++ addresses email.toEMailAddress ++
    (if email.ccEMailAddress = [] then [] else lit "Cc: " ++ addresses email.ccEMailAddress) ++
    lit "Subject: " ++ email.title ++ crlf ++
    (if email.entitys = [] then [] else lit "Content-Type: multipart/mixed;boundary=" ++ boundary ++ crlf) ++
    lit "MIME-Version: 1.0" ++ crlf ++ (if boundary = [] then [] else crlf ++ lit "--" ++ boundary ++ crlf) ++
    lit "Content-Type: text/html;charset=\"utf-8\"" ++ crlf ++ crlf ++ email.body ++ crlf ++
    (email.entitys.flatMap fun i => crlf ++ lit "--" ++ boundary ++ crlf ++ i.toString) ++
    (if boundary = [] then [] else crlf ++ lit "--" ++ boundary ++ lit "--" ++ crlf) ++ crlf

def data : Text := message rand email ++ lit "." ++ crlf

/-! ## Where the terminator occurs -/

def terminator : Text := crlf ++ lit "." ++ crlf

/-- the terminator does not occur -/
def Free (t : Text) : Prop := ¬ terminator <:+: t

instance (t : Text) : Decidable (Free t) := inferInstanceAs (Decidable (¬ terminator <:+: t))

/-- the parts of an attachment with `r` in front: the name of the first header; each value, the line end behind it and
the next name; at last the content and the line ends around it -/
def bodyParts : Text → List (Text × Text) → Text → List Text
  | r, [], content => [r ++ content ++ crlf ++ crlf]
  | r, (name, value) :: headers, content => (r ++ name) :: bodyParts (value ++ crlf) headers content

/-- what an e-mail has from its author, with the line ends that stand around it -/
def parts : List Text :=
  email.fromEMailAddress :: (email.toEMailAddress ++ email.ccEMailAddress ++
    [email.title ++ crlf, crlf ++ crlf ++ email.body ++ crlf ++ crlf] ++
    email.entitys.flatMap fun e => bodyParts crlf e.headers e.content)

theorem prefix_append_cons {c : UInt8} {p : Text} (hc : c ∉ p) (a b : Text) : p <+: a ++ c :: b ↔ p <+: a := by
  induction p generalizing a with
  | nil => simp
  | cons x p ih => cases a <;> simp_all [cons_prefix_cons, eq_comm]

theorem free_append_cons {c : UInt8} (hc : c ∉ terminator) (a b : Text) : Free (a ++ c :: b) ↔ Free a ∧ Free b := by
  unfold Free
  rw [← not_or, not_iff_not]
  induction a with
  | nil =>
    have h := prefix_append_cons hc [] b
    simp_all [infix_cons_iff, terminator, crlf]
  | cons x a ih =>
    have h := prefix_append_cons hc (x :: a) b
    rw [cons_append] at h ⊢
    rw [infix_cons_iff, infix_cons_iff, h, ih, or_assoc]

/-- a text of the code that parts what stands before it from what follows -/
def Solid (u : Text) : Prop := ∀ a b, Free (a ++ (u ++ b)) ↔ Free a ∧ Free b

theorem solid {u : Text}
    (h : u ≠ [] ∧ (∀ c ∈ u.head?.toList ++ u.getLast?.toList, c ∉ terminator) ∧ Free u) : Solid u := by
  obtain ⟨hne, hends, hu⟩ := h
  intro a b
  obtain ⟨x, m, rfl⟩ := exists_cons_of_ne_nil hne
  rw [cons_append, free_append_cons (hends x (by simp))]
  refine and_congr_right fun _ => ?_
  rcases eq_nil_or_concat' m with rfl | ⟨m, y, rfl⟩
  · rfl
  · have hy : y ∉ terminator := hends y (by simp [getLast?_cons])
    have hm : Free m := fun h => hu (h.trans ⟨[x], [y], by simp⟩)
    rw [append_assoc, singleton_append, free_append_cons hy, and_iff_right hm]

theorem Solid.append {u m v : Text} (hu : Solid u) (hm : Free m) (hv : Solid v) : Solid (u ++ (m ++ v)) := by
  intro a b
  rw [append_assoc, hu, append_assoc, hv, and_iff_right hm]

theorem free_nil : Free [] := by decide

theorem free_crlf : Free crlf := by decide

theorem Solid.head {u : Text} (hu : Solid u) (b : Text) : Free (u ++ b) ↔ Free b := by
  rw [← nil_append (u ++ b), hu, and_iff_right free_nil]

theorem random_string_ne_nil : random_string rand ≠ [] := by simp [random_string]

theorem solid_random : Solid (random_string rand) := by
  have hchars : ∀ c ∈ lit "0123456789abcdefghijklmnopqrstuvwxyzABCDEFGHIJKLMNOPQRSTUVWXYZ", c ∉ terminator := by
    decide +kernel
  have hmem : ∀ c ∈ random_string rand, c ∉ terminator := by
    intro c hc
    obtain ⟨i, rfl⟩ := (mem_ofFn' ..).1 hc
    refine hchars _ ?_
    dsimp only
    rw [getD_eq_getElem?_getD, getElem?_eq_getElem (Nat.mod_lt _ (by decide +kernel))]
    exact getElem_mem _
  refine solid ⟨random_string_ne_nil rand, fun c hc => ?_, fun h => ?_⟩
  · rcases mem_append.1 hc with hc | hc
    · exact hmem c (mem_of_mem_head? (Option.mem_toList.1 hc))
    · exact hmem c (mem_of_mem_getLast? (Option.mem_toList.1 hc))
  · exact hmem 13 (h.subset (by decide)) (by decide)

/-! ## The parts of a message -/

theorem free_addresses {u : Text} (hu : Solid u) (v : List Text) (b : Text) :
    Free (addresses v ++ (u ++ b)) ↔ (∀ a ∈ v, Free a) ∧ Free b := by
  have hopen : Solid (lit "<") := solid (by decide +kernel)
  have hmore : Solid (lit ">,") := solid (by decide +kernel)
  have hlast : Solid (lit ">") := solid (by decide +kernel)
  fun_induction addresses v with
  | case1 => simpa using hu.head b
  | case2 a =>
    simp only [append_assoc, forall_mem_singleton]
    rw [hopen.head, hlast, hu, and_iff_right free_crlf]
  | case3 a v _ ih =>
    simp only [append_assoc, forall_mem_cons]
    rw [hopen.head, hmore, and_assoc]
    exact and_congr_right' ih

theorem free_toString {x : Text} {P : Prop} (hx : ∀ r, Free (r ++ (crlf ++ x)) ↔ Free (r ++ (crlf ++ crlf)) ∧ P)
    (r : Text) (headers : List (Text × Text)) (content : Text) :
    Free (r ++ (EMailEntity.toString ⟨headers, content⟩ ++ x)) ↔ (∀ p ∈ bodyParts r headers content, Free p) ∧ P := by
  have hcolon : Solid (lit ": ") := solid (by decide +kernel)
  induction headers generalizing r with
  | nil =>
    have h := hx (r ++ content)
    simpa [EMailEntity.toString, bodyParts] using h
  | cons i headers ih =>
    have hi := (hcolon (r ++ i.1) (i.2 ++ crlf ++ (EMailEntity.toString ⟨headers, content⟩ ++ x))).trans
      (and_congr_right' (ih (i.2 ++ crlf)))
    simpa [EMailEntity.toString, bodyParts, and_assoc] using hi

theorem free_entitys {boundary : Text} (hb : Solid boundary) (es : List EMailEntity) (r : Text) :
    Free (r ++ (crlf ++ ((es.flatMap fun i => crlf ++ lit "--" ++ boundary ++ crlf ++ i.toString) ++
        (crlf ++ lit "--" ++ boundary ++ lit "--" ++ crlf ++ crlf)))) ↔
      Free (r ++ (crlf ++ crlf)) ∧ ∀ i ∈ es, ∀ p ∈ bodyParts crlf i.headers i.content, Free p := by
  have hdash : Solid (lit "--") := solid (by decide +kernel)
  have hopen : Solid (lit "--" ++ ([] ++ boundary)) := hdash.append free_nil hb
  have hclose : Solid (lit "--" ++ ([] ++ boundary) ++ ([] ++ lit "--")) := hopen.append free_nil hdash
  have hend : Free (crlf ++ crlf) := by decide
  induction es generalizing r with
  | nil =>
    have h := hclose (r ++ (crlf ++ crlf)) (crlf ++ crlf)
    rw [and_iff_left hend] at h
    simpa using h
  | cons i es ih =>
    have h := hopen (r ++ (crlf ++ crlf)) (crlf ++ (i.toString ++
      ((es.flatMap fun i => crlf ++ lit "--" ++ boundary ++ crlf ++ i.toString) ++
        (crlf ++ lit "--" ++ boundary ++ lit "--" ++ crlf ++ crlf))))
    rw [free_toString ih] at h
    simpa using h

theorem solid_header :
    Solid (lit "MIME-Version: 1.0" ++ crlf ++ lit "Content-Type: text/html;charset=\"utf-8\"") ∧
      Solid (lit "Content-Type: multipart/mixed;boundary=" ++ random_string rand ++ crlf ++ lit "MIME-Version: 1.0" ++
        crlf ++ crlf ++ lit "--" ++ random_string rand ++ crlf ++ lit "Content-Type: text/html;charset=\"utf-8\"") := by
  have hb := solid_random rand
  have hmulti : Solid (lit "Content-Type: multipart/mixed;boundary=") := solid (by decide +kernel)
  have hmime : Solid (lit "MIME-Version: 1.0") := solid (by decide +kernel)
  have hdash : Solid (lit "--") := solid (by decide +kernel)
  have htype : Solid (lit "Content-Type: text/html;charset=\"utf-8\"") := solid (by decide +kernel)
  have hend : Free (crlf ++ crlf) := by decide
  constructor
  · simpa using hmime.append free_crlf htype
  · simpa using hmulti.append free_nil (hb.append free_crlf
      (hmime.append hend (hdash.append free_nil (hb.append free_crlf htype))))

theorem free_front {u : Text} (hu : Solid u) (email : EMail) (z : Text) :
    Free (lit "From: <" ++ email.fromEMailAddress ++ lit ">" ++ crlf ++ lit "To: " ++ addresses email.toEMailAddress ++
        (if email.ccEMailAddress = [] then [] else lit "Cc: " ++ addresses email.ccEMailAddress) ++
        lit "Subject: " ++ email.title ++ crlf ++ (u ++ z)) ↔
      Free email.fromEMailAddress ∧ (∀ a ∈ email.toEMailAddress, Free a) ∧ (∀ a ∈ email.ccEMailAddress, Free a) ∧
        Free (email.title ++ crlf) ∧ Free z := by
  have hfrom : Solid (lit "From: <") := solid (by decide +kernel)
  have hto : Solid (lit ">" ++ (crlf ++ lit "To: ")) := solid (by decide +kernel)
  have hcc : Solid (lit "Cc: ") := solid (by decide +kernel)
  have hsubject : Solid (lit "Subject: ") := solid (by decide +kernel)
  have htitle := hu (email.title ++ crlf) z
  have h := hfrom.head (email.fromEMailAddress ++ (lit ">" ++ (crlf ++ lit "To: ") ++ (addresses email.toEMailAddress ++
    ((if email.ccEMailAddress = [] then [] else lit "Cc: " ++ addresses email.ccEMailAddress) ++
      (lit "Subject: " ++ (email.title ++ crlf ++ (u ++ z)))))))
  rw [hto] at h
  by_cases hnil : email.ccEMailAddress = []
  · rw [if_pos hnil, nil_append, free_addresses hsubject, htitle] at h
    simpa [hnil] using h
  · rw [if_neg hnil, append_assoc (lit "Cc: "), free_addresses hcc, free_addresses hsubject, htitle] at h
    simpa [hnil] using h

theorem message_free_iff :
    Free (message rand email) ↔ ∀ p ∈ parts email, Free p := by
  obtain ⟨hplain, hmulti⟩ := solid_header rand
  have hparts : (∀ p ∈ parts email, Free p) ↔ Free email.fromEMailAddress ∧ (∀ a ∈ email.toEMailAddress, Free a) ∧
      (∀ a ∈ email.ccEMailAddress, Free a) ∧ Free (email.title ++ crlf) ∧
        Free (crlf ++ crlf ++ email.body ++ (crlf ++ crlf)) ∧
        ∀ i ∈ email.entitys, ∀ p ∈ bodyParts crlf i.headers i.content, Free p := by
    simp only [parts, forall_mem_cons, forall_mem_append, forall_mem_flatMap, append_assoc, and_assoc,
      and_iff_right (forall_mem_nil Free)]
  rw [hparts]
  by_cases hes : email.entitys = []
  · have hnone : ∀ i ∈ email.entitys, ∀ p ∈ bodyParts crlf i.headers i.content, Free p := by simp [hes]
    rw [and_iff_left hnone, ← free_front hplain]
    unfold message
    simp only [hes, if_true, flatMap_nil, append_nil, append_assoc]
  · rw [← free_entitys (solid_random rand) email.entitys (crlf ++ crlf ++ email.body), ← free_front hmulti]
    unfold message
    simp only [hes, random_string_ne_nil, if_false, append_assoc]

theorem last_iff (w : Text) : (∀ x y, w ++ lit "." ++ crlf = x ++ terminator ++ y → y = []) ↔ Free w := by
  constructor
  · rintro h ⟨x, y, rfl⟩
    exact absurd (h x (y ++ (lit "." ++ crlf)) (by simp)) (append_ne_nil_of_right_ne_nil y (by decide))
  · intro h x y he
    have hr : 10 :: 13 :: 46 :: w.reverse = y.reverse ++ (terminator.reverse ++ x.reverse) := by
      simpa [crlf, lit] using congrArg reverse he
    rw [← reverse_eq_nil_iff]
    generalize y.reverse = r at hr ⊢
    rcases r with _ | ⟨a, _ | ⟨b, _ | ⟨c, r⟩⟩⟩
    · rfl
    · simp [terminator, crlf, lit] at hr
    · simp [terminator, crlf, lit] at hr
    · refine absurd ⟨x, r.reverse, reverse_injective ?_⟩ h
      simpa using (cons.inj (cons.inj (cons.inj hr).2).2).2.symm

/-- **The end of the message.** The terminator occurs at the end only iff it is in no part of the e-mail: in no address,
not in the title with its line end, the body with the two line ends on either side, a header's name with the line before
it, or an attachment's content with the last header's value and its line ends. -/
theorem terminator_last_iff (rand : Fin 16 → ℕ) (email : EMail) :
    (∀ x y, data rand email = x ++ terminator ++ y → y = []) ↔ ∀ p ∈ parts email, ¬ terminator <:+: p := by
  rw [data, last_iff]
  exact message_free_iff rand email

/-- the body begins with a dot line: the server reads the rest of it as a command -/
theorem body_ends_message :
    ∃ x, data (fun _ => 0) ⟨[], [], [], [], lit ".\r\nQUIT", []⟩ =
      x ++ terminator ++ (lit "QUIT" ++ crlf ++ terminator) :=
  ⟨lit "From: <>\r\nTo: Subject: \r\nMIME-Version: 1.0\r\nContent-Type: text/html;charset=\"utf-8\"\r\n",
    by decide +kernel⟩

end CoServer.Email
