import TeamClaude.Lib.UrlPath
import Mathlib.Data.List.DropRight

/-!
# Parsing a URL

The basic URL parser of the WHATWG URL standard without a base, for the special schemes that have a
host and no file. What the parser takes from elsewhere, the host parser and the percent-encode sets,
are parameters.
-/

namespace Lib

/-- What the parser takes from elsewhere. -/
structure UrlRules (Host : Type*) where
  host : List Char → Option Host
  path : EncodeSet
  query : EncodeSet
  fragment : EncodeSet

/-- Who a URL is asked of. The user information is kept as it is written. -/
structure UrlOrigin (Host : Type*) where
  scheme : List Char
  userinfo : Option (List Char)
  host : Host
  port : Option Nat
  deriving DecidableEq

structure Url (Host : Type*) where
  origin : UrlOrigin Host
  path : UrlPath
  query : Option (List Char)
  fragment : Option (List Char)
  deriving DecidableEq

namespace Url

/-- A C0 control or a space. -/
def isControlOrSpace (c : Char) : Bool :=
  decide (c.toNat ≤ 32)

/-- Controls and spaces are trimmed at both ends, tabs and newlines dropped everywhere. -/
def clean (text : List Char) : List Char :=
  ((text.dropWhile isControlOrSpace).rdropWhile isControlOrSpace).filter fun c => !isTabOrNewline c

def isSchemeChar (c : Char) : Bool :=
  c.isAlphanum || decide (c ∈ ['+', '-', '.'])

/-- The scheme state: the scheme in lowercase, and what follows its colon. -/
def readScheme (text : List Char) : Option (List Char × List Char) :=
  let scheme := text.takeWhile isSchemeChar
  match text.dropWhile isSchemeChar with
  | ':' :: rest =>
    if scheme.head?.any Char.isAlpha then some (scheme.map Char.toLower, rest) else none
  | _ => none

def defaultPort (scheme : List Char) : Option Nat :=
  if scheme = "http".toList then some 80
  else if scheme = "https".toList then some 443
  else none

def isSlash (c : Char) : Bool :=
  decide (c = '/') || decide (c = '\\')

def endsPath (c : Char) : Bool :=
  decide (c = '?') || decide (c = '#')

def endsAuthority (c : Char) : Bool :=
  isSlash c || endsPath c

/-- What stands before the last `@`, and what stands after it. -/
def splitUserinfo (authority : List Char) : Option (List Char) × List Char :=
  let host := authority.rtakeWhile (· ≠ '@')
  match (authority.rdropWhile (· ≠ '@')).getLast? with
  | none => (none, host)
  | some _ => (some (authority.rdropWhile (· ≠ '@')).dropLast, host)

/-- The host state: the text before the first colon outside brackets, and the text after it. -/
def splitPort (inside : Bool) : List Char → List Char × Option (List Char)
  | [] => ([], none)
  | c :: text =>
    if c = ':' ∧ inside = false then ([], some text)
    else
      let inside := if c = '[' then true else if c = ']' then false else inside
      let (host, port) := splitPort inside text
      (c :: host, port)

def readDecimal (digits : List Char) : Nat :=
  digits.foldl (fun n c => 10 * n + (c.toNat - '0'.toNat)) 0

/-- The port state: a port is digits and fits 16 bits, and the default one is none. -/
def readPort (default : Nat) : Option (List Char) → Option (Option Nat)
  | none => some none
  | some [] => some none
  | some digits =>
    if digits.all Char.isDigit ∧ readDecimal digits < 65536 then
      some (if readDecimal digits = default then none else some (readDecimal digits))
    else none

variable {Host : Type*} (R : UrlRules Host)

def readOrigin (scheme authority : List Char) : Option (UrlOrigin Host) :=
  let (userinfo, hostport) := splitUserinfo authority
  let (host, port) := splitPort false hostport
  if host = [] then none
  else
    (defaultPort scheme).bind fun default =>
      (R.host host).bind fun host =>
        (readPort default port).map fun port => { scheme, userinfo, host, port }

/-- The path, query and fragment states. -/
def withTail (origin : UrlOrigin Host) (text : List Char) : Url Host where
  origin := origin
  path := UrlPath.set R.path (text.takeWhile fun c => !endsPath c)
  query :=
    match text.dropWhile fun c => !endsPath c with
    | '?' :: rest => some (R.query.encode (rest.takeWhile (· ≠ '#')))
    | _ => none
  fragment :=
    match text.dropWhile (· ≠ '#') with
    | _ :: rest => some (R.fragment.encode rest)
    | [] => none

/-- The basic URL parser on a special scheme that has a host: slashes of either kind, as many as
there are, stand before the authority. -/
def parse (text : List Char) : Option (Url Host) :=
  (readScheme (clean text)).bind fun (scheme, rest) =>
    let rest := rest.dropWhile isSlash
    (readOrigin R scheme (rest.takeWhile fun c => !endsAuthority c)).map fun origin =>
      withTail R origin (rest.dropWhile fun c => !endsAuthority c)

def pathText (url : Url Host) : List Char :=
  UrlPath.render url.path

/-! ## A text that is a scheme, an authority and a tail -/

theorem clean_printable {text : List Char} (h : ∀ c ∈ text, 32 < c.toNat) : clean text = text := by
  have hcontrol : ∀ c ∈ text, isControlOrSpace c = false := fun c hc => by
    have hlt := h c hc
    simp [isControlOrSpace, hlt]
  have hkept : ∀ c ∈ text, (!isTabOrNewline c) = true := by
    intro c hc
    have hlt := h c hc
    simp only [isTabOrNewline, Bool.not_eq_true', Bool.or_eq_false_iff, decide_eq_false_iff_not]
    refine ⟨⟨?_, ?_⟩, ?_⟩ <;> rintro rfl <;> exact absurd hlt (by decide)
  have hleft : text.dropWhile isControlOrSpace = text := by
    cases text with
    | nil => rfl
    | cons c text => rw [List.dropWhile_cons, hcontrol c List.mem_cons_self]; rfl
  have hright : text.rdropWhile isControlOrSpace = text := by
    rw [List.rdropWhile_eq_self_iff]
    intro hne
    rw [hcontrol _ (List.getLast_mem hne)]
    exact Bool.false_ne_true
  rw [clean, hleft, hright, List.filter_eq_self.mpr hkept]

/-- A scan that ends where the second part begins. -/
theorem take_drop_append {p : Char → Bool} {s t : List Char} (hs : ∀ c ∈ s, p c = true)
    (ht : ∀ c, t.head? = some c → p c = false) :
    (s ++ t).takeWhile p = s ∧ (s ++ t).dropWhile p = t := by
  have htake : t.takeWhile p = [] ∧ t.dropWhile p = t := by
    cases t with
    | nil => exact ⟨rfl, rfl⟩
    | cons c t =>
      rw [List.takeWhile_cons, List.dropWhile_cons, ht c rfl]
      exact ⟨rfl, rfl⟩
  rw [List.takeWhile_append_of_pos hs, List.dropWhile_append_of_pos hs, htake.1, htake.2]
  exact ⟨List.append_nil s, rfl⟩

structure IsScheme (scheme : List Char) : Prop where
  chars : ∀ c ∈ scheme, isSchemeChar c = true
  alpha : scheme.head?.any Char.isAlpha = true

structure IsAuthority (authority : List Char) : Prop where
  chars : ∀ c ∈ authority, endsAuthority c = false
  nonempty : authority ≠ []

/-- What may follow an authority: nothing, or a path, query or fragment. -/
def IsTail (tail : List Char) : Prop :=
  ∀ c, tail.head? = some c → endsAuthority c = true

theorem read_scheme_spelled {scheme : List Char} (h : IsScheme scheme) (rest : List Char) :
    readScheme (scheme ++ ':' :: rest) = some (scheme.map Char.toLower, rest) := by
  obtain ⟨htake, hdrop⟩ := @take_drop_append isSchemeChar scheme (':' :: rest) h.chars (by
    rintro c hc
    obtain rfl := Option.some.inj hc
    decide)
  unfold readScheme
  rw [htake, hdrop]
  simp [h.alpha]

/-- A printable URL is read part by part. -/
theorem parse_spelled {scheme authority tail : List Char} (hscheme : IsScheme scheme)
    (hauthority : IsAuthority authority) (htail : IsTail tail)
    (hprintable : ∀ c ∈ scheme ++ "://".toList ++ authority ++ tail, 32 < c.toNat) :
    parse R (scheme ++ "://".toList ++ authority ++ tail) =
      (readOrigin R (scheme.map Char.toLower) authority).map fun origin =>
        withTail R origin tail := by
  have hspelled : scheme ++ "://".toList ++ authority ++ tail =
      scheme ++ ':' :: '/' :: '/' :: (authority ++ tail) := by
    show scheme ++ [':', '/', '/'] ++ authority ++ tail = _
    simp
  have hslashes : ('/' :: '/' :: (authority ++ tail)).dropWhile isSlash = authority ++ tail := by
    have hfirst : ∀ c, (authority ++ tail).head? = some c → isSlash c = false := by
      intro c hc
      rw [List.head?_append_of_ne_nil _ hauthority.nonempty] at hc
      have hends := hauthority.chars c (List.mem_of_mem_head? hc)
      rw [endsAuthority, Bool.or_eq_false_iff] at hends
      exact hends.1
    exact (@take_drop_append isSlash ['/', '/'] (authority ++ tail) (List.all_eq_true.mp rfl)
      hfirst).2
  obtain ⟨htake, hdrop⟩ := @take_drop_append (fun c => !endsAuthority c) authority tail
    (fun c hc => by rw [hauthority.chars c hc]; rfl) (fun c hc => by rw [htail c hc]; rfl)
  unfold parse
  rw [clean_printable hprintable, hspelled, read_scheme_spelled hscheme, Option.bind_some]
  simp only [hslashes, htake, hdrop]

end Url

end Lib
