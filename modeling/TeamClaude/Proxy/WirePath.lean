import Mathlib.Data.Bool.AllAny
import TeamClaude.Lib.Url
import TeamClaude.Proxy.Paths

/-!
# The path on the wire

A request is classified on the path of its target as it was sent, and goes out to a URL that a second
parser reads from the upstream and the target put together. On every path that is not ambiguous the
two readings are told apart by no rule of the proxy.
-/

namespace TeamClaude

open Lib

/-! ## A request target -/

/-- The characters `http::Uri` admits in a path. -/
def admitsInPath (c : Char) : Bool :=
  let n := c.toNat
  decide (n = 0x21) || decide (0x24 ≤ n ∧ n ≤ 0x3B) || decide (n = 0x3D) ||
    decide (0x40 ≤ n ∧ n ≤ 0x5F) || decide (0x61 ≤ n ∧ n ≤ 0x7A) || decide (n = 0x7C) ||
    decide (0x7E ≤ n) || decide (c ∈ ['"', '{', '}'])

/-- The characters `http::Uri` admits in a query. -/
def admitsInQuery (c : Char) : Bool :=
  let n := c.toNat
  decide (n = 0x21) || decide (0x24 ≤ n ∧ n ≤ 0x3B) || decide (n = 0x3D) || decide (0x3F ≤ n)

/-- An origin-form target that `http::Uri` accepts: a rooted path, and perhaps a query. -/
structure OriginForm where
  path : String
  query : Option String
  rooted : path.toList.head? = some '/'
  pathAdmitted : ∀ c ∈ path.toList, admitsInPath c = true
  queryAdmitted : ∀ q, query = some q → ∀ c ∈ q.toList, admitsInQuery c = true

namespace OriginForm

def queryText (target : OriginForm) : List Char :=
  match target.query with
  | none => []
  | some query => '?' :: query.toList

def pathAndQuery (target : OriginForm) : String :=
  String.ofList (target.path.toList ++ target.queryText)

end OriginForm

/-- A scheme, a host and perhaps a port, and nothing behind them. -/
structure BareOrigin (upstream : String) : Prop where
  spelled : ∃ scheme authority, upstream.toList = scheme ++ "://".toList ++ authority ∧
    Url.IsScheme scheme ∧ scheme.map Char.toLower ∈ ["http".toList, "https".toList] ∧
    Url.IsAuthority authority ∧ '@' ∉ authority
  printable : ∀ c ∈ upstream.toList, 32 < c.toNat

/-- `format!("{}{}", upstream, path_and_query)` -/
def wireText (upstream : String) (target : OriginForm) : List Char :=
  upstream.toList ++ target.pathAndQuery.toList

/-- Every base a path is asked to be under. -/
def routeBases : List String :=
  localPrefix :: clientTokenRefreshPath :: clientCredentialPrefixes

/-- `is_inference_path` of the proxy. -/
def spendsQuota (path : String) : Bool :=
  (Provider.ofPath path).isInferencePath path

/-- No rule tells the two paths apart. -/
structure ClassifiedAlike (path wire : String) : Prop where
  under : ∀ base ∈ routeBases, pathIsUnder wire base = pathIsUnder path base
  provider : Provider.ofPath wire = Provider.ofPath path
  inference : ∀ provider : Provider, provider.isInferencePath wire = provider.isInferencePath path
  spends : spendsQuota wire = spendsQuota path

/-! ## The two readings -/

section Readings

variable {Host : Type*} {R : UrlRules Host} {target : OriginForm} {upstream : String}
  {base path : String}

theorem admits_cases {c : Char} (h : admitsInPath c = true) :
    32 < c.toNat ∧ Url.endsPath c = false := by
  have hdelta : c ≠ '?' ∧ c ≠ '#' ∧ 32 < c.toNat := by
    simp only [admitsInPath, Bool.or_eq_true, decide_eq_true_eq, List.mem_cons,
      List.not_mem_nil, or_false] at h
    refine ⟨?_, ?_, ?_⟩
    · rintro rfl
      revert h
      decide
    · rintro rfl
      revert h
      decide
    · have hquote : c = '"' ∨ c = '{' ∨ c = '}' → 32 < c.toNat := by
        rintro (rfl | rfl | rfl) <;> decide
      rcases h with h | h
      · omega
      · exact hquote h
  obtain ⟨hmark, hhash, hprintable⟩ := hdelta
  exact ⟨hprintable, by simp [Url.endsPath, hmark, hhash]⟩

theorem admits_in_query_printable {c : Char} (h : admitsInQuery c = true) : 32 < c.toNat := by
  simp only [admitsInQuery, Bool.or_eq_true, decide_eq_true_eq] at h
  omega

/-- The path the parser reads from a target is the path that was classified, percent-encoded. -/
theorem tail_path (origin : UrlOrigin Host) (hclear : pathIsAmbiguous target.path = false) :
    (Url.withTail R origin target.pathAndQuery.toList).pathText =
      R.path.encode target.path.toList := by
  have hpath : target.pathAndQuery.toList.takeWhile (fun c => !Url.endsPath c) =
      target.path.toList := by
    rw [OriginForm.pathAndQuery, String.toList_ofList]
    refine (Url.take_drop_append (fun c hc => ?_) fun c hc => ?_).1
    · rw [(admits_cases (target.pathAdmitted c hc)).2]
      rfl
    · unfold OriginForm.queryText at hc
      cases hquery : target.query with
      | none => rw [hquery] at hc; cases hc
      | some query =>
        rw [hquery] at hc
        obtain rfl := Option.some.inj hc
        rfl
  unfold pathIsAmbiguous at hclear
  rw [Bool.or_eq_false_iff, List.any_eq_false] at hclear
  obtain ⟨hback, hdots⟩ := hclear
  unfold Url.pathText Url.withTail
  rw [hpath]
  refine UrlPath.render_set_plain target.rooted (fun c hc => ?_) (by simpa using hback)
    fun segment hs => ?_
  · have hprintable := (admits_cases (target.pathAdmitted c hc)).1
    simp only [isTabOrNewline, Bool.or_eq_false_iff, decide_eq_false_iff_not]
    refine ⟨⟨?_, ?_⟩, ?_⟩ <;> rintro rfl <;> exact absurd hprintable (by decide)
  · have hdot := hdots segment hs
    rw [is_dot_segment_iff, Bool.not_eq_true, Bool.or_eq_false_iff] at hdot
    exact hdot

/-- The URL of a request is that of the upstream with the tail the target gives it. -/
theorem wire_url (hbare : BareOrigin upstream) : Url.parse R (wireText upstream target) =
    (Url.parse R upstream.toList).map fun url =>
      Url.withTail R url.origin target.pathAndQuery.toList := by
  obtain ⟨⟨scheme, authority, hspelled, hscheme, -, hauthority, -⟩, hprintable⟩ := hbare
  have htail : Url.IsTail target.pathAndQuery.toList := by
    intro c hc
    have hhead : target.pathAndQuery.toList.head? = some '/' := by
      have hne : target.path.toList ≠ [] := by
        intro hnil
        have hrooted := target.rooted
        rw [hnil] at hrooted
        cases hrooted
      rw [OriginForm.pathAndQuery, String.toList_ofList, List.head?_append_of_ne_nil _ hne,
        target.rooted]
    rw [hhead, Option.some.injEq] at hc
    subst hc
    decide
  have htext : ∀ c ∈ target.pathAndQuery.toList, 32 < c.toNat := by
    intro c hc
    rw [OriginForm.pathAndQuery, String.toList_ofList, List.mem_append] at hc
    rcases hc with hc | hc
    · exact (admits_cases (target.pathAdmitted c hc)).1
    · unfold OriginForm.queryText at hc
      cases hquery : target.query with
      | none => rw [hquery] at hc; cases hc
      | some query =>
        rw [hquery] at hc
        rcases List.mem_cons.mp hc with rfl | hc
        · decide
        · exact admits_in_query_printable (target.queryAdmitted query hquery c hc)
  have hempty : Url.IsTail ([] : List Char) := fun c hc => by cases hc
  rw [hspelled] at hprintable
  have hupstream := Url.parse_spelled R hscheme hauthority hempty (by simpa using hprintable)
  have hwire := Url.parse_spelled R hscheme hauthority htail fun c hc => by
    rcases List.mem_append.mp hc with hc | hc
    · exact hprintable c hc
    · exact htext c hc
  rw [List.append_nil] at hupstream
  unfold wireText
  rw [hspelled, hwire, hupstream, Option.map_map]
  rfl

/-- A text is percent-encoded to a plain one only if it is that one. -/
theorem encode_eq_plain (E : EncodeSet) {base : List Char}
    (hbase : ∀ b ∈ base, isPlain b = true ∧ b ≠ '%') (text : List Char) :
    E.encode text = base ↔ text = base := by
  have hself : ∀ text : List Char, text = base ↔ base.isPrefixOf? text = some [] := by
    intro text
    rw [List.isPrefixOf?_eq_some_iff_append_eq, List.append_nil]
    exact eq_comm
  rw [hself, hself, EncodeSet.isPrefixOf?_encode hbase, Option.map_eq_some_iff]
  constructor
  · rintro ⟨rest, hrest, hnil⟩
    cases rest with
    | nil => exact hrest
    | cons c rest =>
      have hone := E.encodeChar_length c
      rw [EncodeSet.encode_cons, List.append_eq_nil_iff] at hnil
      rw [hnil.1] at hone
      cases hone
  · exact fun hrest => ⟨[], hrest, rfl⟩

def inferencePaths : List String :=
  ["/v1/messages", "/v1/messages/count_tokens", Provider.codexResponsesPath,
    "/backend-api/codex/images/generations", "/backend-api/codex/images/edits",
    "/backend-api/codex/memories/trace_summarize", "/backend-api/codex/alpha/search"]

/-- The paths and bases the rules compare with are spelled without an escape. -/
theorem plain_bases : ∀ base ∈ inferencePaths ++ Provider.codexPathPrefix :: routeBases,
      ∀ b ∈ base.toList, isPlain b = true ∧ b ≠ '%' := by
  have hall : ∀ base ∈ inferencePaths ++ Provider.codexPathPrefix :: routeBases,
        (base.toList.all fun b => isPlain b && b != '%') = true := by
    unfold inferencePaths routeBases clientCredentialPrefixes
    simp only [List.cons_append, List.nil_append, List.forall_mem_cons,
      Provider.codexResponsesPath, Provider.codexPathPrefix, localPrefix, clientTokenRefreshPath]
    -- a literal is evaluated as the list of its characters, not through its bytes
    repeat rw [String.toList_ofList]
    decide +kernel
  intro base hbase b hb
  have hplain := List.all_eq_true.mp (hall base hbase) b hb
  rwa [Bool.and_eq_true, bne_iff_ne] at hplain

/-- Percent-encoding a path changes no answer of the rules. -/
theorem classified_encoded (E : EncodeSet) (path : String) :
    ClassifiedAlike path (String.ofList (E.encode path.toList)) := by
  set wire := String.ofList (E.encode path.toList) with hwire
  have hprovider : Provider.ofPath wire = Provider.ofPath path := by
    have hcodex : Provider.ofPath wire = .codex ↔ Provider.ofPath path = .codex := by
      rw [of_path_codex_iff, of_path_codex_iff, hwire,
        path_is_under_encode E (plain_bases _ (by simp))]
    cases hp : Provider.ofPath path with
    | codex => exact hcodex.mpr hp
    | anthropic =>
      cases hw : Provider.ofPath wire with
      | anthropic => rfl
      | codex => rw [hcodex.mp hw] at hp; cases hp
  have hexact : ∀ base ∈ inferencePaths, (wire = base ↔ path = base) := by
    intro base hbase
    have hplain := plain_bases base (List.mem_append_left _ hbase)
    rw [hwire, ← String.toList_inj, String.toList_ofList, encode_eq_plain E hplain,
      String.toList_inj]
  have hinference : ∀ provider : Provider,
      provider.isInferencePath wire = provider.isInferencePath path := by
    intro provider
    cases provider with
    | anthropic =>
      simp only [Provider.isInferencePath, hexact "/v1/messages" (by simp [inferencePaths]),
        hexact "/v1/messages/count_tokens" (by simp [inferencePaths])]
    | codex =>
      simp only [Provider.isInferencePath, List.mem_cons, List.not_mem_nil, or_false,
        hexact Provider.codexResponsesPath (by simp [inferencePaths]),
        hexact "/backend-api/codex/images/generations" (by simp [inferencePaths]),
        hexact "/backend-api/codex/images/edits" (by simp [inferencePaths]),
        hexact "/backend-api/codex/memories/trace_summarize" (by simp [inferencePaths]),
        hexact "/backend-api/codex/alpha/search" (by simp [inferencePaths])]
  refine ⟨fun base hbase => path_is_under_encode E (plain_bases base ?_) path, hprovider,
    hinference, ?_⟩
  · exact List.mem_append_right _ (List.mem_cons_of_mem _ hbase)
  · unfold spendsQuota
    rw [hprovider, hinference]

end Readings

/-- The path that was classified is the path on the wire: the URL is read with the upstream's own
origin, and no rule tells its path from the one it decided on. -/
theorem classified_path_on_wire {Host : Type*} (R : UrlRules Host) {upstream : String}
    {target : OriginForm} {origin : Url Host} (hbare : BareOrigin upstream)
    (horigin : Url.parse R upstream.toList = some origin)
    (hclear : pathIsAmbiguous target.path = false) :
    ∃ url, Url.parse R (wireText upstream target) = some url ∧
      url.origin.host = origin.origin.host ∧ url.origin.port = origin.origin.port ∧
      ClassifiedAlike target.path (String.ofList url.pathText) := by
  refine ⟨Url.withTail R origin.origin target.pathAndQuery.toList, ?_, rfl, rfl, ?_⟩
  · rw [wire_url hbare, horigin]
    rfl
  · rw [tail_path origin.origin hclear]
    exact classified_encoded R.path target.path

/-- The rules for a host that is a domain name, and a target with nothing to encode in its query. -/
def domainRules : UrlRules (List Char) where
  host text := some (text.map Char.toLower)
  path := pathEncodeSet
  query := pathEncodeSet
  fragment := pathEncodeSet

def quotedTarget : OriginForm where
  path := "/v1/code/a%2f\x7bb\x7d"
  query := some "beta=true"
  rooted := by decide +kernel
  pathAdmitted := List.all_eq_true.mp (by decide +kernel)
  queryAdmitted := by
    intro q hq
    obtain rfl := Option.some.inj hq
    exact List.all_eq_true.mp (by decide +kernel)

/-- A path with an escape in it and characters the parser encodes is classified alike. -/
theorem quoted_target_on_wire :
    ∃ url, Url.parse domainRules (wireText "https://api.anthropic.com" quotedTarget) = some url ∧
      url.origin.host = "api.anthropic.com".toList ∧ url.origin.port = none ∧
      ClassifiedAlike quotedTarget.path (String.ofList url.pathText) := by
  have hbare : BareOrigin "https://api.anthropic.com" := by
    refine ⟨⟨"https".toList, "api.anthropic.com".toList, by decide +kernel, ⟨?_, by decide +kernel⟩,
      by decide +kernel, ⟨?_, by decide +kernel⟩, by decide +kernel⟩, ?_⟩
    · exact List.all_eq_true.mp (by decide +kernel)
    · exact List.all_iff_forall_prop.mp (by decide +kernel)
    · exact List.all_iff_forall_prop.mp (by decide +kernel)
  have horigin : Url.parse domainRules "https://api.anthropic.com".toList =
      some ⟨⟨"https".toList, none, "api.anthropic.com".toList, none⟩, [[]], none, none⟩ := by
    decide +kernel
  exact classified_path_on_wire domainRules hbare horigin (by decide +kernel)

end TeamClaude
