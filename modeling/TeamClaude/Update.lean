import TeamClaude.Lib.Exec
import TeamClaude.Lib.Numeral
import TeamClaude.Lib.PaddedOrder
import TeamClaude.Lib.Slices
import TeamClaude.Proxy.WirePath

/-!
# Self-update

An installed copy compares its version with the tag of the newest release and runs the installer of
that tag. The tag goes into the path of the installer's URL, and stays in the releases of the one
repository; the versions a copy takes without being forced never go back.
-/

namespace TeamClaude.SelfUpdate

open Lib

/-! ## Versions -/

def normalizeVersion (v : List Char) : List Char :=
  (trimSpace v).dropWhile (· = 'v')

/-- `str::parse::<u64>` of a text without a sign. -/
def parseU64 (text : List Char) : Option Nat :=
  match readNumber 10 none true (2 ^ 64) text with
  | some (n, []) => some n
  | _ => none

/-- `version_parts`: the numbers in front of a prerelease or a build. -/
def versionParts (v : List Char) : Option (List Nat) :=
  let core := v.takeWhile fun c => c ≠ '-' ∧ c ≠ '+'
  if core = [] then none else (core.splitOn '.').mapM parseU64

def compareVersions (a b : List Char) : Option Ordering := do
  let a ← versionParts a
  let b ← versionParts b
  return comparePadded 0 a b

inductive UpdateDecision
  | alreadyCurrent
  | runningNewer
  | install
  deriving DecidableEq

def decideUpdate (current latestTag : List Char) (force : Bool) : UpdateDecision :=
  if force then .install
  else
    let current := normalizeVersion current
    let latest := normalizeVersion latestTag
    if current = latest then .alreadyCurrent
    else
      match compareVersions current latest with
      | some .gt => .runningNewer
      | some .eq => .alreadyCurrent
      | _ => .install

/-! ## Tags and URLs -/

/-- `RELEASE_REPO`, as the segments of a path. -/
def releaseRepo : List (List Char) := ["dhkts1".toList, "tcr".toList]

def installerAsset : List Char := "tcr-installer.sh".toList

/-- Why a tag is no release tag. -/
inductive TagFault
  | empty
  | badStart
  | contains (c : Char)
  deriving DecidableEq

def isTagChar (c : Char) : Bool :=
  c.isAlphanum || decide (c ∈ ['.', '+', '_', '-'])

def validateReleaseTag : List Char → Except TagFault Unit
  | [] => .error .empty
  | first :: rest =>
    if !first.isAlphanum then .error .badStart
    else
      match rest.find? fun c => !isTagChar c with
      | some c => .error (.contains c)
      | none => .ok ()

/-- `parse_latest_tag`, behind the field it reads; a tag that is missing or blank is none. -/
def parseLatestTag (tagName : Option (List Char)) : Except TagFault (List Char) :=
  match (tagName.map trimSpace).filter fun tag => !tag.isEmpty with
  | some tag => (validateReleaseTag tag).map fun _ => tag
  | none => .error .empty

def assetPath (tag asset : List Char) : UrlPath :=
  releaseRepo ++ ["releases".toList, "download".toList, tag, asset]

def assetUrl (tag asset : List Char) : List Char :=
  "https://github.com".toList ++ UrlPath.render (assetPath tag asset)

def installerUrlForTag (tag : List Char) : Except TagFault (List Char) :=
  (validateReleaseTag tag).map fun _ => assetUrl tag installerAsset

def dmgAsset (tag : List Char) : List Char :=
  let version := if tag.head? = some 'v' then tag.tail else tag
  "TcrBar-".toList ++ version ++ ".dmg".toList

def dmgUrlForTag (tag : List Char) : Except TagFault (List Char) :=
  (validateReleaseTag tag).map fun _ => assetUrl tag (dmgAsset tag)

/-! ## Where a URL leads -/

section Urls

variable {tag asset : List Char}

/-- A segment a release path is made of. -/
structure PlainSegment (segment : List Char) : Prop where
  chars : ∀ c ∈ segment, isTagChar c = true
  start : ∃ c, segment.head? = some c ∧ c.isAlphanum = true

theorem validate_ok (h : validateReleaseTag tag = .ok ()) : PlainSegment tag := by
  cases tag with
  | nil => cases h
  | cons first rest =>
    simp only [validateReleaseTag] at h
    split at h
    · cases h
    · rename_i hfirst
      have hfirst : first.isAlphanum = true := by simpa using hfirst
      split at h
      · cases h
      · rename_i hfind
        rw [List.find?_eq_none] at hfind
        refine ⟨fun c hc => ?_, first, rfl, hfirst⟩
        rcases List.mem_cons.mp hc with rfl | hc
        · rw [isTagChar, hfirst, Bool.true_or]
        · simpa using hfind c hc

theorem alphanum_range {c : Char} (h : c.isAlphanum = true) :
    (48 ≤ c.toNat ∧ c.toNat ≤ 57) ∨ (65 ≤ c.toNat ∧ c.toNat ≤ 90) ∨
      (97 ≤ c.toNat ∧ c.toNat ≤ 122) := by
  delta Char.isAlphanum Char.isAlpha Char.isUpper Char.isLower Char.isDigit at h
  simp only [Bool.or_eq_true, Bool.and_eq_true, decide_eq_true_eq, ge_iff_le,
    UInt32.le_iff_toNat_le] at h
  have hA : 'A'.val.toNat = 65 := rfl
  have hZ : 'Z'.val.toNat = 90 := rfl
  have ha : 'a'.val.toNat = 97 := rfl
  have hz : 'z'.val.toNat = 122 := rfl
  have h0 : '0'.val.toNat = 48 := rfl
  have h9 : '9'.val.toNat = 57 := rfl
  have hc : c.val.toNat = c.toNat := rfl
  rw [hA, hZ, ha, hz, h0, h9, hc] at h
  omega

theorem tag_char {c : Char} (h : isTagChar c = true) :
    admitsInPath c = true ∧ c ≠ '/' ∧ c ≠ '\\' ∧ c ≠ '%' ∧ pathEncodeSet.encodes c = false := by
  unfold isTagChar at h
  rw [Bool.or_eq_true, decide_eq_true_eq] at h
  rcases h with h | h
  · have hrange := alphanum_range h
    have hne : ∀ d : Char, (d.toNat < 48 ∨ d.toNat = 92) → c ≠ d := by
      rintro d hd rfl
      omega
    refine ⟨?_, hne '/' (by decide), hne '\\' (by decide), hne '%' (by decide),
      pathEncodeSet.plain c ?_⟩
    · simp only [admitsInPath, Bool.or_eq_true, decide_eq_true_eq]
      omega
    · rw [isPlain, h, Bool.true_or]
  · simp only [List.mem_cons, List.not_mem_nil, or_false] at h
    rcases h with rfl | rfl | rfl | rfl <;> decide +kernel

theorem PlainSegment.no_slash {segment : List Char} (h : PlainSegment segment) : '/' ∉ segment :=
  fun hin => (tag_char (h.chars '/' hin)).2.1 rfl

theorem PlainSegment.no_dots {segment : List Char} (h : PlainSegment segment) :
    isDotSegment segment = false := by
  obtain ⟨c, hhead, hc⟩ := h.start
  have hrange := alphanum_range hc
  cases segment with
  | nil => cases hhead
  | cons first rest =>
    obtain rfl := Option.some.inj hhead
    rw [is_dot_segment_iff, isSingleDot, isDoubleDot, dotCount_none_of_head]
    · rfl
    · rintro rfl
      exact absurd hrange (by decide)
    · rintro rfl
      exact absurd hrange (by decide)

/-- A path is split where it was put together. -/
theorem split_render {path : UrlPath} (h : ∀ segment ∈ path, '/' ∉ segment) :
    (UrlPath.render path).splitOn '/' = [] :: path := by
  induction path with
  | nil => rfl
  | cons segment path ih =>
    have hrest := ih fun s hs => h s (List.mem_cons_of_mem _ hs)
    show ('/' :: (segment ++ UrlPath.render path)).splitOn '/' = _
    rw [UrlPath.split_cons, if_pos rfl, UrlPath.split_append (h segment List.mem_cons_self), hrest]
    simp

theorem plain_asset_path (htag : PlainSegment tag) (hasset : PlainSegment asset) :
    ∀ segment ∈ assetPath tag asset, PlainSegment segment := by
  have hfixed : ∀ segment ∈ releaseRepo ++ ["releases".toList, "download".toList],
      (segment.all isTagChar && segment.head?.any Char.isAlphanum) = true := by
    decide +kernel
  intro segment hsegment
  have hcases : segment ∈ releaseRepo ++ ["releases".toList, "download".toList] ∨
      segment = tag ∨ segment = asset := by
    simpa [assetPath, or_assoc] using hsegment
  rcases hcases with h | rfl | rfl
  · obtain ⟨hall, hany⟩ := Bool.and_eq_true _ _ ▸ hfixed segment h
    exact ⟨List.all_eq_true.mp hall, (Option.any_eq_true _ _).mp hany⟩
  · exact htag
  · exact hasset

theorem encode_self {E : EncodeSet} {text : List Char} (h : ∀ c ∈ text, E.encodes c = false) :
    E.encode text = text := by
  induction text with
  | nil => rfl
  | cons c text ih =>
    rw [EncodeSet.encode_cons, ih fun d hd => h d (List.mem_cons_of_mem _ hd),
      EncodeSet.encodeChar, h c List.mem_cons_self]
    rfl

theorem plain_dmg (htag : PlainSegment tag) : PlainSegment (dmgAsset tag) := by
  refine ⟨fun c hc => ?_, 'T', rfl, by decide⟩
  have hfixed : ∀ c ∈ "TcrBar-".toList ++ ".dmg".toList, isTagChar c = true :=
    List.all_eq_true.mp (by decide +kernel)
  have htail : ∀ c ∈ (if tag.head? = some 'v' then tag.tail else tag), isTagChar c = true := by
    intro c hc
    split at hc
    · exact htag.chars c (List.mem_of_mem_tail hc)
    · exact htag.chars c hc
  unfold dmgAsset at hc
  simp only [List.mem_append] at hc hfixed
  rcases hc with (hc | hc) | hc
  · exact hfixed c (.inl hc)
  · exact htail c hc
  · exact hfixed c (.inr hc)

/-- The URL of a release asset: one origin, and the asset's place under the one repository. -/
structure InRepo {Host : Type*} (R : UrlRules Host) (origin : UrlOrigin Host)
    (tag asset text : List Char) : Prop where
  parsed : ∃ url, Url.parse R text = some url ∧ url.origin = origin ∧
    url.pathText = UrlPath.render (assetPath tag asset) ∧ url.query = none ∧ url.fragment = none

def assetTarget (path : UrlPath) (hne : path ≠ []) (h : ∀ segment ∈ path, PlainSegment segment) :
    OriginForm where
  path := String.ofList (UrlPath.render path)
  query := none
  rooted := by
    cases path with
    | nil => exact absurd rfl hne
    | cons segment path => rw [String.toList_ofList]; rfl
  pathAdmitted c hc := by
    rw [String.toList_ofList] at hc
    obtain ⟨segment, hsegment, hc⟩ := List.mem_flatMap.mp hc
    rcases List.mem_cons.mp hc with rfl | hc
    · decide
    · exact (tag_char ((h segment hsegment).chars c hc)).1
  queryAdmitted := nofun

theorem asset_target_text (path : UrlPath) (hne : path ≠ [])
    (h : ∀ segment ∈ path, PlainSegment segment) :
    (assetTarget path hne h).path.toList = UrlPath.render path ∧
      (assetTarget path hne h).pathAndQuery.toList = UrlPath.render path := by
  have hpath : (assetTarget path hne h).path.toList = UrlPath.render path := String.toList_ofList
  refine ⟨hpath, ?_⟩
  rw [OriginForm.pathAndQuery, String.toList_ofList, hpath]
  exact List.append_nil _

theorem plain_render {path : UrlPath} (h : ∀ segment ∈ path, PlainSegment segment) :
    ∀ c ∈ UrlPath.render path, c = '/' ∨ isTagChar c = true := by
  intro c hc
  obtain ⟨segment, hsegment, hc⟩ := List.mem_flatMap.mp hc
  rcases List.mem_cons.mp hc with rfl | hc
  · exact .inl rfl
  · exact .inr ((h segment hsegment).chars c hc)

/-- Nothing in a path of plain segments moves a parser to another place. -/
theorem asset_unambiguous (path : UrlPath) (hne : path ≠ [])
    (h : ∀ segment ∈ path, PlainSegment segment) :
    pathIsAmbiguous (assetTarget path hne h).path = false := by
  rw [pathIsAmbiguous, (asset_target_text path hne h).1,
    split_render fun s hs => (h s hs).no_slash, Bool.or_eq_false_iff, List.any_eq_false]
  constructor
  · rw [Bool.eq_false_iff]
    intro hback
    rcases plain_render h '\\' (List.contains_iff_mem.mp hback) with hslash | hchar
    · exact absurd hslash (by decide)
    · exact (tag_char hchar).2.2.1 rfl
  · intro segment hs
    rw [Bool.not_eq_true]
    rcases List.mem_cons.mp hs with rfl | hs
    · rfl
    · exact (h segment hs).no_dots

/-- A tail without a mark has neither a query nor a fragment. -/
theorem tail_unmarked {Host : Type*} (R : UrlRules Host) (origin : UrlOrigin Host)
    {text : List Char} (h : ∀ c ∈ text, Url.endsPath c = false) :
    (Url.withTail R origin text).query = none ∧ (Url.withTail R origin text).fragment = none := by
  have hquery : text.dropWhile (fun c => !Url.endsPath c) = [] := by
    rw [List.dropWhile_eq_nil_iff]
    intro c hc
    rw [h c hc]
    rfl
  have hfragment : text.dropWhile (· ≠ '#') = [] := by
    rw [List.dropWhile_eq_nil_iff]
    intro c hc
    rw [decide_eq_true_eq]
    rintro rfl
    exact absurd (h '#' hc) (by decide)
  unfold Url.withTail
  rw [hquery, hfragment]
  exact ⟨rfl, rfl⟩

theorem asset_in_repo {Host : Type*} {R : UrlRules Host} (hpath : R.path = pathEncodeSet)
    {origin : Url Host} (hbare : BareOrigin "https://github.com")
    (horigin : Url.parse R "https://github.com".toList = some origin)
    (htag : PlainSegment tag) (hasset : PlainSegment asset) :
    InRepo R origin.origin tag asset (assetUrl tag asset) := by
  have hplain := plain_asset_path htag hasset
  have hne : assetPath tag asset ≠ [] := List.cons_ne_nil _ _
  obtain ⟨hclassified, htext⟩ := asset_target_text (assetPath tag asset) hne hplain
  have hchars := plain_render hplain
  have hencode : R.path.encode (UrlPath.render (assetPath tag asset)) =
      UrlPath.render (assetPath tag asset) := by
    rw [hpath]
    refine encode_self fun c hc => ?_
    rcases hchars c hc with rfl | h
    · exact pathEncodeSet.plain '/' rfl
    · exact (tag_char h).2.2.2.2
  have hends : ∀ c ∈ UrlPath.render (assetPath tag asset), Url.endsPath c = false := by
    intro c hc
    rcases hchars c hc with rfl | h
    · rfl
    · exact (admits_cases (tag_char h).1).2
  have hparse : Url.parse R (wireText _ (assetTarget (assetPath tag asset) hne hplain)) = _ :=
    wire_url hbare
  have htail := tail_path (R := R) origin.origin
    (asset_unambiguous (assetPath tag asset) hne hplain)
  rw [horigin, wireText, htext] at hparse
  rw [htext, hclassified, hencode] at htail
  have hunmarked := tail_unmarked R origin.origin hends
  exact ⟨_, hparse, rfl, htail, hunmarked.1, hunmarked.2⟩

/-- Whatever tag is taken for a release, its installer and its image are fetched from the releases of
the one repository. -/
theorem release_urls_in_repo {Host : Type*} (R : UrlRules Host) (hpath : R.path = pathEncodeSet)
    {origin : Url Host} (horigin : Url.parse R "https://github.com".toList = some origin)
    (tag text : List Char) :
    (installerUrlForTag tag = .ok text → InRepo R origin.origin tag installerAsset text) ∧
      (dmgUrlForTag tag = .ok text → InRepo R origin.origin tag (dmgAsset tag) text) := by
  have hbare : BareOrigin "https://github.com" := by
    refine ⟨⟨"https".toList, "github.com".toList, by decide +kernel, ⟨?_, by decide +kernel⟩,
      by decide +kernel, ⟨?_, by decide +kernel⟩, by decide +kernel⟩, ?_⟩
    · exact List.all_eq_true.mp (by decide +kernel)
    · exact List.all_iff_forall_prop.mp (by decide +kernel)
    · exact List.all_iff_forall_prop.mp (by decide +kernel)
  have hinstaller : PlainSegment installerAsset :=
    ⟨List.all_eq_true.mp (by decide +kernel), 't', by decide +kernel, by decide⟩
  constructor
  · intro h
    unfold installerUrlForTag at h
    cases hvalid : validateReleaseTag tag with
    | error fault => rw [hvalid] at h; cases h
    | ok u =>
      rw [hvalid] at h
      cases h
      exact asset_in_repo hpath hbare horigin (validate_ok hvalid) hinstaller
  · intro h
    unfold dmgUrlForTag at h
    cases hvalid : validateReleaseTag tag with
    | error fault => rw [hvalid] at h; cases h
    | ok u =>
      rw [hvalid] at h
      cases h
      exact asset_in_repo hpath hbare horigin (validate_ok hvalid) (plain_dmg (validate_ok hvalid))

theorem release_urls_in_repo_once :
    InRepo domainRules ⟨"https".toList, none, "github.com".toList, none⟩ "v1.2.12".toList
      installerAsset "https://github.com/dhkts1/tcr/releases/download/v1.2.12/tcr-installer.sh".toList := by
  have horigin : Url.parse domainRules "https://github.com".toList =
      some ⟨⟨"https".toList, none, "github.com".toList, none⟩, [[]], none, none⟩ := by
    repeat rw [String.toList_ofList]
    decide +kernel
  have htag : installerUrlForTag "v1.2.12".toList =
      .ok "https://github.com/dhkts1/tcr/releases/download/v1.2.12/tcr-installer.sh".toList := by
    repeat rw [String.toList_ofList]
    decide +kernel
  exact (release_urls_in_repo domainRules rfl horigin "v1.2.12".toList _).1 htag

/-- A tag that is not checked leaves the repository. -/
example : (Url.parse domainRules
    (assetUrl "../../../../other/repo/releases/download/v1".toList installerAsset)).map Url.pathText =
      some "/other/repo/releases/download/v1/tcr-installer.sh".toList := by
  unfold assetUrl assetPath releaseRepo installerAsset
  repeat rw [String.toList_ofList]
  decide +kernel

end Urls

/-! ## Updates one after the other -/

/-- What became of the installer: the binary it names is looked for after a zero exit only. -/
inductive InstallerRun
  | notRun
  | failed
  | missing
  | landed
  deriving DecidableEq

/-- A call of `tcr update`: the field the API answers with, `none` for no answer, and whether the
installer could be fetched. -/
structure UpdateCall where
  tagName : Option (List Char)
  force : Bool
  fetched : Bool
  run : InstallerRun
  deriving DecidableEq

inductive UpdateFailure
  | noTag (fault : TagFault)
  | notFetched
  | installer (run : InstallerRun)
  deriving DecidableEq

inductive UpdateEnd
  | alreadyCurrent (tag : List Char)
  | runningNewer (tag : List Char)
  | installed (tag : List Char)
  deriving DecidableEq

def UpdateEnd.tag : UpdateEnd → List Char
  | .alreadyCurrent tag | .runningNewer tag | .installed tag => tag

def updateInstalled (current : List Char) (call : UpdateCall) : Except UpdateFailure UpdateEnd :=
  match parseLatestTag call.tagName with
  | .error fault => .error (.noTag fault)
  | .ok tag =>
    match decideUpdate current tag call.force with
    | .alreadyCurrent => .ok (.alreadyCurrent tag)
    | .runningNewer => .ok (.runningNewer tag)
    | .install =>
      match installerUrlForTag tag with
      | .error fault => .error (.noTag fault)
      | .ok _ =>
        if call.fetched then
          match call.run with
          | .landed => .ok (.installed tag)
          | run => .error (.installer run)
        else .error .notFetched

/-- The versions a pair of texts stands for are ordered, and the first is the older. -/
def Older (a b : List Char) : Prop :=
  compareVersions (normalizeVersion a) (normalizeVersion b) = some .lt

instance (a b : List Char) : Decidable (Older a b) :=
  inferInstanceAs (Decidable (_ = _))

def Orderable (v : List Char) : Prop :=
  (versionParts (normalizeVersion v)).isSome = true

instance (v : List Char) : Decidable (Orderable v) :=
  inferInstanceAs (Decidable (_ = _))

section Runs

-- The version the binary of a release reports.
variable (versionOf : List Char → List Char)

/-- The version a call put in place. -/
def installs (current : List Char) (call : UpdateCall) : Option (List Char) :=
  match updateInstalled current call with
  | .ok (.installed tag) => some (versionOf tag)
  | _ => none

/-- The release a call found, if nothing failed. -/
def finds (current : List Char) (call : UpdateCall) : Option (List Char) :=
  (updateInstalled current call).toOption.map UpdateEnd.tag

/-- The version of the installed copy after a call. -/
def update (current : List Char) (call : UpdateCall) : List Char :=
  (installs versionOf current call).getD current

variable {versionOf} {a b c current tag : List Char} {call : UpdateCall}

theorem older_iff {p q : List Nat} (ha : versionParts (normalizeVersion a) = some p)
    (hb : versionParts (normalizeVersion b) = some q) : Older a b ↔ ¬ PaddedLE 0 q p := by
  rw [Older, compareVersions, ha, hb]
  exact (Option.some.injEq _ _).to_iff.trans compare_padded_lt

/-- An order on versions that all can be read. -/
theorem not_older_trans (ha : Orderable a) (hb : Orderable b) (hc : Orderable c)
    (hab : ¬ Older a b) (hbc : ¬ Older b c) : ¬ Older a c := by
  obtain ⟨p, hp⟩ := Option.isSome_iff_exists.mp ha
  obtain ⟨q, hq⟩ := Option.isSome_iff_exists.mp hb
  obtain ⟨r, hr⟩ := Option.isSome_iff_exists.mp hc
  rw [older_iff hp hq, not_not] at hab
  rw [older_iff hq hr, not_not] at hbc
  rw [older_iff hp hr, not_not]
  exact hbc.trans hab

theorem older_asymm (ha : Orderable a) (hb : Orderable b) (hab : Older a b) : ¬ Older b a := by
  obtain ⟨p, hp⟩ := Option.isSome_iff_exists.mp ha
  obtain ⟨q, hq⟩ := Option.isSome_iff_exists.mp hb
  rw [older_iff hp hq] at hab
  rw [older_iff hq hp, not_not]
  exact (padded_le_total p q).resolve_right hab

theorem older_irrefl (ha : Orderable a) : ¬ Older a a :=
  fun h => older_asymm ha ha h h

theorem older_congr (h : versionParts (normalizeVersion b) = versionParts (normalizeVersion c)) :
    (Older a b ↔ Older a c) ∧ (Older b a ↔ Older c a) := by
  simp only [Older, compareVersions, h, and_self]

/-- A version that is not older than another it can be ordered with is no older than what that one
is newer than. -/
theorem older_of_older_of_not_older (ha : Orderable a) (hb : Orderable b) (hc : Orderable c)
    (hab : Older a b) (hcb : ¬ Older c b) : Older a c := by
  by_contra hac
  exact not_older_trans ha hc hb hac hcb hab

/-- An update that is not forced is for a newer release only, where the two can be ordered. -/
theorem decide_install_iff (hcurrent : Orderable current) (htag : Orderable tag) :
    decideUpdate current tag false = .install ↔ Older current tag := by
  obtain ⟨p, hp⟩ := Option.isSome_iff_exists.mp hcurrent
  obtain ⟨q, hq⟩ := Option.isSome_iff_exists.mp htag
  have hcompare : compareVersions (normalizeVersion current) (normalizeVersion tag) =
      some (comparePadded 0 p q) := by
    rw [compareVersions, hp, hq]
    rfl
  unfold decideUpdate
  rw [if_neg Bool.false_ne_true]
  by_cases hsame : normalizeVersion current = normalizeVersion tag
  · rw [if_pos hsame, older_iff hp hq]
    obtain rfl : p = q := Option.some.inj (by rw [← hp, ← hq, hsame])
    exact iff_of_false nofun (not_not.mpr (padded_le_refl p))
  · rw [if_neg hsame, hcompare, Older, hcompare]
    cases comparePadded 0 p q <;> simp

/-- A call that ends well has found a release, and has installed it exactly where it decided to. -/
theorem update_installed_ok {done : UpdateEnd} (h : updateInstalled current call = .ok done) :
    parseLatestTag call.tagName = .ok done.tag ∧
      (decideUpdate current done.tag call.force = .install ↔ done = .installed done.tag) := by
  unfold updateInstalled at h
  split at h
  · cases h
  · rename_i tag hparse
    split at h
    · rename_i hdecide
      cases h
      exact ⟨hparse, iff_of_false (by rw [UpdateEnd.tag, hdecide]; nofun) nofun⟩
    · rename_i hdecide
      cases h
      exact ⟨hparse, iff_of_false (by rw [UpdateEnd.tag, hdecide]; nofun) nofun⟩
    · rename_i hdecide
      split at h
      · cases h
      · split at h
        · split at h
          · cases h
            exact ⟨hparse, iff_of_true hdecide rfl⟩
          · cases h
        · cases h

/-- What a call that is not forced leaves: the same copy, or a newer release in its place. -/
theorem update_cases
    (hbuilt : ∀ tag, versionParts (normalizeVersion (versionOf tag)) =
      versionParts (normalizeVersion tag))
    (hcurrent : Orderable current) (hforce : call.force = false)
    (htag : ∀ tag, parseLatestTag call.tagName = .ok tag → Orderable tag) :
    (∀ found ∈ finds current call, Orderable found ∧
        ¬ Older (update versionOf current call) found) ∧
      ((installs versionOf current call = none ∧ update versionOf current call = current) ∨
        ∃ version, installs versionOf current call = some version ∧
          update versionOf current call = version ∧ Orderable version ∧ Older current version) := by
  unfold update finds installs
  cases hcall : updateInstalled current call with
  | error failure => exact ⟨nofun, .inl ⟨rfl, rfl⟩⟩
  | ok done =>
    obtain ⟨hparse, hiff⟩ := update_installed_ok hcall
    have horderable := htag _ hparse
    rw [hforce, decide_install_iff hcurrent horderable] at hiff
    cases done with
    | alreadyCurrent tag | runningNewer tag =>
      refine ⟨?_, .inl ⟨rfl, rfl⟩⟩
      rintro found ⟨⟩
      exact ⟨horderable, fun holder => nomatch hiff.mp holder⟩
    | installed tag =>
      have hversion : Orderable (versionOf tag) := by
        rw [Orderable, hbuilt]
        exact horderable
      refine ⟨?_, .inr ⟨_, rfl, rfl, hversion, (older_congr (hbuilt tag)).1.mpr (hiff.mpr rfl)⟩⟩
      rintro found ⟨⟩
      exact ⟨horderable, fun holder =>
        older_irrefl horderable ((older_congr (hbuilt tag)).2.mp holder)⟩

/-- How the versions of a run stand to where it began. -/
structure Forward (start final : List Char) (installed found : List (List Char)) : Prop where
  newer : ∀ version ∈ installed, Orderable version ∧ Older start version
  grows : installed.Pairwise Older
  stays : Orderable final ∧ ¬ Older final start
  reached : ∀ tag ∈ found, ¬ Older final tag

theorem run_forward
    (hbuilt : ∀ tag, versionParts (normalizeVersion (versionOf tag)) =
      versionParts (normalizeVersion tag))
    (hstart : Orderable current) (calls : List UpdateCall)
    (hcalls : ∀ call ∈ calls, call.force = false ∧
      ∀ tag, parseLatestTag call.tagName = .ok tag → Orderable tag) :
    Forward current (exec (update versionOf) current calls)
      (observed (update versionOf) (installs versionOf) current calls)
      (observed (update versionOf) finds current calls) := by
  induction calls generalizing current with
  | nil => exact ⟨nofun, List.Pairwise.nil, ⟨hstart, older_irrefl hstart⟩, nofun⟩
  | cons call calls ih =>
    obtain ⟨⟨hforce, htag⟩, hrest⟩ := List.forall_mem_cons.mp hcalls
    obtain ⟨hfinds, hcase⟩ := update_cases hbuilt hstart hforce htag
    rw [exec_cons, observed, observed]
    rcases hcase with ⟨hinstalls, hstay⟩ | ⟨version, hinstalls, hupdate, hversion, holder⟩
    · have ih := ih hstart hrest
      rw [hstay] at hfinds ⊢
      rw [hinstalls]
      refine ⟨ih.newer, ih.grows, ih.stays, fun tag htag => ?_⟩
      rcases List.mem_append.mp htag with hfound | hlater
      · obtain ⟨horderable, hnot⟩ := hfinds tag (Option.mem_toList.mp hfound)
        exact not_older_trans ih.stays.1 hstart horderable ih.stays.2 hnot
      · exact ih.reached tag hlater
    · have ih := ih hversion hrest
      rw [hupdate] at hfinds ⊢
      rw [hinstalls]
      refine ⟨?_, List.pairwise_cons.mpr ⟨fun later hlater => (ih.newer later hlater).2, ih.grows⟩,
        ⟨ih.stays.1, ?_⟩, fun tag htag => ?_⟩
      · refine List.forall_mem_cons.mpr ⟨⟨hversion, holder⟩, fun later hlater => ?_⟩
        obtain ⟨horderable, hnewer⟩ := ih.newer later hlater
        exact ⟨horderable, older_of_older_of_not_older hstart hversion horderable holder
          (older_asymm hversion horderable hnewer)⟩
      · exact not_older_trans ih.stays.1 hversion hstart ih.stays.2
          (older_asymm hstart hversion holder)
      · rcases List.mem_append.mp htag with hfound | hlater
        · obtain ⟨horderable, hnot⟩ := hfinds tag (Option.mem_toList.mp hfound)
          exact not_older_trans ih.stays.1 hversion horderable ih.stays.2 hnot
        · exact ih.reached tag hlater

/-- As long as nothing is forced, each version that is put in place is newer than every one before
it, and the copy ends no older than any release it found. -/
theorem updates_never_go_back (versionOf : List Char → List Char)
    (hbuilt : ∀ tag, versionParts (normalizeVersion (versionOf tag)) =
      versionParts (normalizeVersion tag))
    (start : List Char) (hstart : Orderable start) (calls : List UpdateCall)
    (hcalls : ∀ call ∈ calls, call.force = false ∧
      ∀ tag, parseLatestTag call.tagName = .ok tag → Orderable tag) :
    (start :: observed (update versionOf) (installs versionOf) start calls).Pairwise Older ∧
      ∀ tag ∈ observed (update versionOf) finds start calls,
        ¬ Older (exec (update versionOf) start calls) tag := by
  have hrun := run_forward hbuilt hstart calls hcalls
  exact ⟨List.pairwise_cons.mpr ⟨fun version h => (hrun.newer version h).2, hrun.grows⟩,
    hrun.reached⟩

/-- A release is taken, the one before it and a candidate of it are not. -/
theorem updates_never_go_back_once :
    ["1.2.9".toList, "v1.3".toList].Pairwise Older ∧
      ∀ tag ∈ ["v1.3".toList, "v1.2.12".toList, "v1.3.0-rc1".toList],
        ¬ Older "v1.3".toList tag := by
  let calls : List UpdateCall := ["v1.3".toList, "v1.2.12".toList, "v1.3.0-rc1".toList].map
    fun tag => ⟨some tag, false, true, .landed⟩
  have hreadable : ∀ call ∈ calls, call.force = false ∧
      (parseLatestTag call.tagName).toOption.all (fun tag => decide (Orderable tag)) = true := by
    decide +kernel
  have hcalls : ∀ call ∈ calls, call.force = false ∧
      ∀ tag, parseLatestTag call.tagName = .ok tag → Orderable tag := by
    intro call hcall
    obtain ⟨hforce, hall⟩ := hreadable call hcall
    refine ⟨hforce, fun tag htag => ?_⟩
    rw [htag] at hall
    exact of_decide_eq_true hall
  have h := updates_never_go_back id (fun _ => rfl) "1.2.9".toList (by decide +kernel) calls hcalls
  have hinstalls : observed (update id) (installs id) "1.2.9".toList calls = ["v1.3".toList] := by
    decide +kernel
  have hfinds : observed (update id) finds "1.2.9".toList calls =
      ["v1.3".toList, "v1.2.12".toList, "v1.3.0-rc1".toList] := by
    decide +kernel
  have hfinal : exec (update id) "1.2.9".toList calls = "v1.3".toList := by
    decide +kernel
  rw [hinstalls, hfinds, hfinal] at h
  exact h

end Runs

end TeamClaude.SelfUpdate
