import Nyuka.Foundation.Text

/-! References to a URL, resolved as the URL standard has it against a base with a web scheme, as
far as their origin goes. What a host is, and how one is read, is left open. -/
namespace Urls
open Text

/-- The special schemes with a host. -/
inductive Scheme where
  | http
  | https
  | ws
  | wss
  | ftp
deriving DecidableEq, Repr

namespace Scheme

def name : Scheme → String
  | http => "http"
  | https => "https"
  | ws => "ws"
  | wss => "wss"
  | ftp => "ftp"

def defaultPort : Scheme → ℕ
  | http => 80
  | https => 443
  | ws => 80
  | wss => 443
  | ftp => 21

/-- Names of schemes are in small letters once they are read. -/
def named (s : List Char) : Option Scheme :=
  [http, https, ws, wss, ftp].find? fun scheme => scheme.name.toList = s.map Char.toLower

end Scheme

/-- A scheme, a host, and a port other than the scheme's own. -/
structure Origin (H : Type) where
  scheme : Scheme
  host : H
  port : Option ℕ
deriving DecidableEq, Repr

def isTabOrNewline (c : Char) : Bool := c = '\t' || c = '\n' || c = '\r'

/-- Controls and blanks go from both ends, tabs and line ends from everywhere. -/
def stripped (s : List Char) : List Char :=
  (trimMatches (fun c => c.toNat ≤ 32) s).filter fun c => !isTabOrNewline c

/-- A backslash is a slash where the scheme is special. -/
def isSlash (c : Char) : Bool := c = '/' || c = '\\'

def endsAuthority (c : Char) : Bool := isSlash c || c = '?' || c = '#'

/-- The host and, behind a colon outside of brackets, the port. -/
def splitPort (inside : Bool) : List Char → List Char × Option (List Char)
  | [] => ([], none)
  | c :: s =>
    if c = ':' && !inside then ([], some s)
    else
      let inside := if c = '[' then true else if c = ']' then false else inside
      let r := splitPort inside s
      (c :: r.1, r.2)

/-- A port of 16 bits; the scheme's own, and one that is not written out, are none. -/
def readPort (scheme : Scheme) : Option (List Char) → Option (Option ℕ)
  | none => some none
  | some digits =>
    if digits = [] then some none
    else if digits.all Char.isDigit then
      let n := Nat.ofDigitChars 10 digits 0
      if 65535 < n then none else some (if n = scheme.defaultPort then none else some n)
    else none

/-- Whether a text is a scheme's name, behind its first letter. -/
def isSchemeChar (c : Char) : Bool :=
  c.isAlphanum || c = '+' || c = '-' || c = '.'

/-- The scheme a text begins with, and what follows the colon. -/
def splitScheme (s : List Char) : Option (List Char × List Char) :=
  let name := s.takeWhile isSchemeChar
  if (name.head?.any Char.isAlpha) && (s.drop name.length).head? = some ':' then
    some (name, s.drop (name.length + 1))
  else none

section Resolution
variable {H : Type} (host : List Char → Option H)

/-- The authority at the beginning of a text; the user's name and password are before the last
at sign. -/
def authority (scheme : Scheme) (s : List Char) : Option (Origin H) :=
  let text := s.takeWhile fun c => !endsAuthority c
  let behind := (text.reverse.takeWhile (· ≠ '@')).reverse
  let r := splitPort false behind
  if r.1 = [] then none else do
    let h ← host r.1
    let port ← readPort scheme r.2
    some ⟨scheme, h, port⟩

/-- A reference without a scheme: two slashes or more are followed by an authority. -/
def relative (base : Origin H) (s : List Char) : Option (Origin H) :=
  match s with
  | c :: d :: rest =>
    if isSlash c && isSlash d then authority host base.scheme (rest.dropWhile isSlash)
    else some base
  | _ => some base

/-- The origin of the URL that a reference leads to; none where there is no URL, or one whose
origin is like no other. -/
def resolve (base : Origin H) (s : List Char) : Option (Origin H) :=
  match splitScheme (stripped s) with
  | none => relative host base (stripped s)
  | some (name, rest) =>
    match Scheme.named name with
    | none => none
    | some scheme =>
      if scheme = base.scheme && !"//".toList.isPrefixOf rest then relative host base rest
      else authority host scheme (rest.dropWhile isSlash)

end Resolution

section Slash
variable {H : Type} {host : List Char → Option H} {base : Origin H} {s : List Char}

/-- A reference that begins with a slash has no scheme. -/
@[simp] theorem splitScheme_slash (s : List Char) : splitScheme ('/' :: s) = none := by
  have htake : ('/' :: s).takeWhile isSchemeChar = [] := by
    rw [List.takeWhile_cons_of_neg]
    decide
  rw [splitScheme, htake]
  rfl

theorem stripped_slash (s : List Char) : stripped ('/' :: s) =
    '/' :: (s.rdropWhile fun c => c.toNat ≤ 32).filter fun c => !isTabOrNewline c := by
  have hslash : decide ('/'.toNat ≤ 32) = false := by decide
  have htrim : trimMatches (fun c => c.toNat ≤ 32) ('/' :: s) =
      '/' :: s.rdropWhile fun c => c.toNat ≤ 32 :=
    @trimMatches_append_cons (fun c => c.toNat ≤ 32) '/' hslash [] s
  rw [stripped, htrim, List.filter_cons_of_pos (by decide)]

/-- A slash comes first, tabs and line ends apart. -/
def SlashNext (s : List Char) : Prop :=
  ∃ blanks c rest, s = blanks ++ c :: rest ∧ isSlash c = true ∧
    ∀ d ∈ blanks, isTabOrNewline d = true

theorem slashNext_iff : SlashNext s ↔ ∃ c rest, stripped ('/' :: s) = '/' :: c :: rest ∧
    isSlash c = true := by
  rw [stripped_slash]
  constructor
  · rintro ⟨blanks, c, rest, rfl, hc, hblanks⟩
    have hlarge : decide (c.toNat ≤ 32) = false := by
      simp only [isSlash, Bool.or_eq_true, decide_eq_true_eq] at hc
      rcases hc with rfl | rfl <;> decide
    have hkept : (!isTabOrNewline c) = true := by
      simp only [isSlash, Bool.or_eq_true, decide_eq_true_eq] at hc
      rcases hc with rfl | rfl <;> decide
    have hgone : blanks.filter (fun c => !isTabOrNewline c) = [] := by
      rw [List.filter_eq_nil_iff]
      exact fun d hd => by simp [hblanks d hd]
    refine ⟨c, (rest.rdropWhile fun c => c.toNat ≤ 32).filter fun c => !isTabOrNewline c, ?_, hc⟩
    rw [rdropWhile_append_cons hlarge, List.filter_append, hgone, List.nil_append]
    simp only [List.filter_cons, hkept, if_true]
  · rintro ⟨c, rest, heq, hc⟩
    obtain ⟨blanks, rest', hsplit, hblanks, -, -⟩ :=
      List.filter_eq_cons_iff.mp (List.cons.inj heq).2
    obtain ⟨gone, hgone⟩ := List.rdropWhile_prefix (fun c : Char => decide (c.toNat ≤ 32)) s
    refine ⟨blanks, c, rest' ++ gone, ?_, hc, fun d hd => ?_⟩
    · rw [← hgone, hsplit, List.append_assoc, List.cons_append]
    · simpa using hblanks d hd

/-- Behind two slashes is the authority. -/
theorem resolve_of_slashNext (h : SlashNext s) : resolve host base ('/' :: s) =
    authority host base.scheme ((stripped ('/' :: s)).dropWhile isSlash) := by
  obtain ⟨c, rest, heq, hc⟩ := slashNext_iff.mp h
  have hslash : isSlash '/' = true := by decide
  rw [resolve, heq, splitScheme_slash]
  simp only [relative, hslash, hc, Bool.and_self, if_true]
  rw [List.dropWhile_cons_of_pos hslash, List.dropWhile_cons_of_pos hc]

/-- Behind one slash is a path, and the origin stays. -/
theorem resolve_of_not_slashNext (h : ¬ SlashNext s) :
    resolve host base ('/' :: s) = some base := by
  rw [slashNext_iff, stripped_slash] at h
  rw [resolve, stripped_slash, splitScheme_slash]
  simp only
  cases hrest : (s.rdropWhile fun c => c.toNat ≤ 32).filter fun c => !isTabOrNewline c with
  | nil => rfl
  | cons c rest =>
    have hc : isSlash c ≠ true := fun hc => h ⟨c, rest, by rw [hrest], hc⟩
    rw [ne_eq, Bool.not_eq_true] at hc
    simp only [relative, hc, Bool.and_false, Bool.false_eq_true, if_false]

end Slash

end Urls
