/-
`Uri::create`, `dump` and `createAddress` (uri.cpp).

`create` looks for the first "://" anywhere in the text and takes what precedes it for the scheme, before it looks for
the end of the authority. Printing and parsing are inverse for the components a URI may have, but in a text without
scheme a "://" inside its path, query or fragment is taken for the one behind a scheme, and the text behind it for the
host. A search of the source is modelled by the parts of the text before and after the place found; `lookup` is
`Address::lookupAnyIPAddress`.

Results:
- `create_toString`: a URI whose components are plain is parsed back from its text.
- `schemeless_right_iff`: the host of a text without scheme is chosen before its path iff there is no "://" in it at
  all.
- `query_chooses_host`: a text whose query has the only "://".
-/
import CoServer.Core.CString
import Mathlib.Data.List.TakeWhile

namespace CoServer

open CoServer.Core.CString List

abbrev Text := List UInt8

structure Uri where
  scheme : Text
  userinfo : Text
  host : Text
  path : Text
  query : Text
  fragment : Text
  port : ℤ
deriving DecidableEq

namespace Uri

/-! ## The code -/

/-- `find("://")` -/
def cutScheme : Text → Option (Text × Text)
  | [] => none
  | c :: s => if lit "://" <+: c :: s then some ([], s.drop 2) else (cutScheme s).map fun p => (c :: p.1, p.2)

/-- `rfind(c)` -/
def rcut (c : UInt8) (s : Text) : Option (Text × Text) := (cut c s.reverse).map fun p => (p.2.reverse, p.1.reverse)

/-- `find_first_of("/?#")` goes on -/
def inAuthority (c : UInt8) : Bool := c != 47 && c != 63 && c != 35

/-- `std::atoi`: the `long` of `strtol` converted to `int` -/
def atoi (s : Text) : ℤ := ((strtol s).elim 0 Prod.fst).bmod (2 ^ 32)

/-- the host and the port of an authority without user info -/
def hostPort (authority : Text) : Text × ℤ :=
  match rcut 58 authority with
  | some (host, portStr) => (host, if portStr = [] then 0 else atoi portStr)
  | none => (authority, 0)

def create (uri : Text) : Uri :=
  let (scheme, s) := (cutScheme uri).getD ([], uri)
  let authority := s.takeWhile inAuthority
  let (userinfo, authority) := (rcut 64 authority).getD ([], authority)
  let (rest, fragment) := (cut 35 (s.dropWhile inAuthority)).getD (s.dropWhile inAuthority, [])
  let (rest, query) := (cut 63 rest).getD (rest, [])
  { scheme, userinfo, host := (hostPort authority).1, path := if rest = [] then [47] else rest, query, fragment,
    port := (hostPort authority).2 }

/-- a component that is printed, behind its mark, unless it is empty -/
def printed (c : UInt8) (x : Text) : Text := if x = [] then [] else c :: x

def printedInfo (userinfo : Text) : Text := if userinfo = [] then [] else userinfo ++ [64]

/-- the port is an `int` -/
def printedPort (port : ℤ) : Text :=
  if port = 0 then [] else 58 :: (if port < 0 then 45 :: digits port.natAbs else digits port.natAbs)

def toString (u : Uri) : Text :=
  (if u.scheme = [] then [] else u.scheme ++ lit "://") ++
    (printedInfo u.userinfo ++ (u.host ++ printedPort u.port) ++
      ((if u.path = [] then [47] else u.path) ++ printed 63 u.query ++ printed 35 u.fragment))

def getPort (u : Uri) : ℤ :=
  if u.port ≠ 0 then u.port
  else if u.scheme = lit "http" ∨ u.scheme = lit "ws" then 80
  else if u.scheme = lit "https" ∨ u.scheme = lit "wss" then 443
  else u.port

/-- the address looked up, with its port -/
def createAddress {A : Type} (lookup : Text → Option A) (u : Uri) : Option (A × UInt16) :=
  if u.host = [] then none else (lookup u.host).map fun addr => (addr, UInt16.ofInt u.getPort)

/-! ## Texts without scheme -/

/-- one of the characters '/', '?' and '#' occurs before the first "://" -/
def Schemeless (uri : Text) : Prop :=
  ∃ a c b, uri = a ++ c :: b ∧ inAuthority c = false ∧ ∀ x y, uri = x ++ lit "://" ++ y → a.length < x.length

/-- the scheme is empty, and the authority and the address are those of the text before the first such character -/
def Right (uri : Text) : Prop :=
  let u := create uri
  let v := create (uri.takeWhile inAuthority)
  u.scheme = [] ∧ (u.userinfo, u.host, u.port) = (v.userinfo, v.host, v.port) ∧
    ∀ (A : Type) (lookup : Text → Option A), u.createAddress lookup = v.createAddress lookup

variable {a b s : Text} {c : UInt8}

theorem lit_separator : lit "://" = [58, 47, 47] := by decide

theorem cutScheme_eq_none : cutScheme s = none ↔ ¬ lit "://" <:+: s := by
  induction s with
  | nil => decide
  | cons c s ih =>
    rw [cutScheme, infix_cons_iff]
    split_ifs with h <;> simp [h, ih]

theorem eq_of_cutScheme (h : cutScheme s = some (a, b)) : s = a ++ lit "://" ++ b := by
  induction s generalizing a with
  | nil => cases h
  | cons c s ih =>
    rw [cutScheme] at h
    split_ifs at h with hp
    · obtain ⟨t, ht⟩ := hp
      rw [lit_separator] at ht
      cases ht
      cases h
      rfl
    · obtain ⟨⟨x, y⟩, hs, he⟩ := Option.map_eq_some_iff.1 h
      cases he
      rw [ih hs]
      rfl

theorem cutScheme_append (ha : 58 ∉ a) (b : Text) : cutScheme (a ++ lit "://" ++ b) = some (a, b) := by
  induction a with
  | nil => simp [lit_separator, cutScheme]
  | cons c a ih =>
    obtain ⟨hc, ha⟩ := not_or.1 (mt mem_cons.2 ha)
    rw [cons_append, cons_append, cutScheme, ih ha, if_neg, Option.map_some]
    rw [lit_separator, cons_prefix_cons]
    exact fun h => hc h.1

theorem rcut_append (hb : c ∉ b) (a : Text) : rcut c (a ++ c :: b) = some (a, b) := by
  have h : cut c (b.reverse ++ c :: a.reverse) = some (b.reverse, a.reverse) := cut_append (by simpa using hb) _
  simp [rcut, h]

theorem rcut_eq_none (h : c ∉ s) : rcut c s = none := by simp [rcut, cut_eq_none, h]

/-- **A text without scheme.** -/
theorem schemeless_right_iff (uri : Text) (h : Schemeless uri) : Right uri ↔ ¬ lit "://" <:+: uri := by
  rw [← cutScheme_eq_none]
  cases hc : cutScheme uri with
  | some p =>
    obtain ⟨a, c, b, -, -, hlt⟩ := h
    have hlen := hlt p.1 p.2 (eq_of_cutScheme hc)
    have hs : (create uri).scheme = p.1 := by simp [create, hc]
    simp only [Right, hs, reduceCtorEq, iff_false]
    intro hr
    simp [hr.1] at hlen
  | none =>
    have hv : cutScheme (uri.takeWhile inAuthority) = none := by
      rw [cutScheme_eq_none]
      intro h
      have hmem : 47 ∈ uri.takeWhile inAuthority := h.subset (by decide)
      exact absurd (mem_takeWhile_imp hmem) (by decide)
    simp [Right, create, hc, hv, createAddress, getPort, takeWhile_idem]

theorem schemeless_right_iff_path : Right (lit "u@h:8/a") := by
  have h : Schemeless (lit "u@h:8/a") := by
    refine ⟨lit "u@h:8", 47, lit "a", by decide, by decide, fun x y he => ?_⟩
    have hmem : lit "://" <:+: lit "u@h:8/a" := ⟨x, y, he.symm⟩
    exact absurd hmem (by decide)
  exact (schemeless_right_iff _ h).2 (by decide)

/-- **The query chooses the host.** -/
theorem query_chooses_host :
    Schemeless (lit "/?http://evil") ∧ (create (lit "/?http://evil")).host = lit "evil" ∧
      (create (lit "/?")).host = [] := by
  refine ⟨⟨[], 47, lit "?http://evil", by decide, by decide, fun x y he => by cases x <;> simp_all [lit]⟩, ?_⟩
  decide

/-! ## Printing and parsing -/

/-- the components that a URI may have -/
structure Plain (u : Uri) : Prop where
  scheme : u.scheme ≠ [] ∧ ∀ c ∈ u.scheme, isDigit c ∨ (97 ≤ toLower c ∧ toLower c ≤ 122) ∨ c = 43 ∨ c = 45 ∨ c = 46
  userinfo : ∀ c ∈ u.userinfo, inAuthority c
  host : ∀ c ∈ u.host, inAuthority c ∧ c ≠ 58 ∧ c ≠ 64
  port : 0 ≤ u.port ∧ u.port < 2 ^ 31
  path : u.path.head? = some 47 ∧ 63 ∉ u.path ∧ 35 ∉ u.path
  query : 35 ∉ u.query

theorem atoi_digits {n : ℕ} (hn : n < 2 ^ 31) : atoi (digits n) = n := by
  have h : strtol (digits n ++ []) = some (↑(decimal (digits n)), cstr []) :=
    strtol_digits (digits_ne_nil n) (isDigit_digits n) (by simp [cstr]) (by rw [decimal_digits]; omega)
  rw [append_nil, decimal_digits] at h
  rw [atoi, h, Option.elim_some]
  exact Int.bmod_eq_of_le (by omega) (by omega)

theorem cut_printed (ha : c ∉ a) (x : Text) : (cut c (a ++ printed c x)).getD (a ++ printed c x, []) = (a, x) := by
  unfold printed
  split_ifs with hx
  · rw [append_nil, cut_eq_none ha, hx]
    rfl
  · rw [cut_append ha]
    rfl

variable {host : Text} {port : ℤ}

theorem hostPort_print (hh : 58 ∉ host) (h0 : 0 ≤ port) (hlt : port < 2 ^ 31) :
    hostPort (host ++ printedPort port) = (host, port) := by
  obtain ⟨n, rfl⟩ := Int.eq_ofNat_of_zero_le h0
  unfold hostPort printedPort
  split_ifs with hn
  · rw [append_nil, rcut_eq_none hh, hn]
  · omega
  · rw [Int.natAbs_natCast, rcut_append (not_mem_digits (by decide) n)]
    simp only [if_neg (digits_ne_nil n)]
    rw [atoi_digits (by omega)]

theorem userinfo_print (userinfo : Text) (hs : 64 ∉ s) :
    (rcut 64 (printedInfo userinfo ++ s)).getD ([], printedInfo userinfo ++ s) = (userinfo, s) := by
  unfold printedInfo
  split_ifs with hu
  · rw [nil_append, rcut_eq_none hs, hu]
    rfl
  · rw [append_assoc, singleton_append, rcut_append hs]
    rfl

theorem mem_printedPort (h0 : 0 ≤ port) (hc : c ∈ printedPort port) : inAuthority c ∧ c ≠ 64 := by
  unfold printedPort at hc
  split_ifs at hc with hp hn
  · cases hc
  · omega
  · obtain rfl | hd := mem_cons.1 hc
    · decide
    · have hdigit := isDigit_digits _ c hd
      simp only [inAuthority, Bool.and_eq_true, bne_iff_ne]
      refine ⟨⟨⟨?_, ?_⟩, ?_⟩, ?_⟩ <;> (rintro rfl; exact absurd hdigit (by decide))

/-- **Printing and parsing are inverse.** -/
theorem create_toString (u : Uri) (h : u.Plain) : create u.toString = u := by
  obtain ⟨scheme, userinfo, host, path, query, fragment, port⟩ := u
  obtain ⟨⟨hs, hsc⟩, hu, hh, ⟨hp, hp'⟩, ⟨hpath, hpq, hpf⟩, hq⟩ := h
  obtain ⟨path, rfl⟩ := head?_eq_some_iff.1 hpath
  simp only at *
  have hscheme : 58 ∉ scheme := fun h => absurd (hsc 58 h) (by decide)
  have hauth : ∀ c ∈ printedInfo userinfo ++ (host ++ printedPort port), inAuthority c = true := by
    intro c hc
    rw [mem_append, mem_append, printedInfo] at hc
    obtain hc | hc | hc := hc
    · split_ifs at hc with he
      · cases hc
      · obtain hc | hc := mem_append.1 hc
        · exact hu c hc
        · rw [mem_singleton.1 hc]
          decide
    · exact (hh c hc).1
    · exact (mem_printedPort hp hc).1
  have hat : 64 ∉ host ++ printedPort port := by
    rw [mem_append]
    rintro (hc | hc)
    · exact (hh 64 hc).2.2 rfl
    · exact (mem_printedPort hp hc).2 rfl
  have hcolon : 58 ∉ host := fun hc => (hh 58 hc).2.1 rfl
  have hfrag : 35 ∉ 47 :: path ++ printed 63 query := by
    unfold printed
    split_ifs <;> simp_all
  have htake : (47 :: path ++ printed 63 query ++ printed 35 fragment).takeWhile inAuthority = [] :=
    takeWhile_cons_of_neg (by decide)
  have hdrop : (47 :: path ++ printed 63 query ++ printed 35 fragment).dropWhile inAuthority =
      47 :: path ++ printed 63 query ++ printed 35 fragment := dropWhile_cons_of_neg (by decide)
  unfold toString create
  simp only [if_neg hs, cutScheme_append hscheme, Option.getD_some, takeWhile_append_of_pos hauth,
    dropWhile_append_of_pos hauth, htake, hdrop,
    append_nil, if_neg (cons_ne_nil 47 path), userinfo_print userinfo hat, hostPort_print hcolon hp hp',
    cut_printed hfrag, cut_printed hpq]

theorem create_toString_port : create (Uri.toString ⟨lit "ws", lit "a@b:c", lit "h", lit "/", lit "?", lit "#", 81⟩) =
    ⟨lit "ws", lit "a@b:c", lit "h", lit "/", lit "?", lit "#", 81⟩ :=
  create_toString _ ⟨by decide +kernel, by decide +kernel, by decide +kernel, by decide, by decide, by decide⟩

end CoServer.Uri
