import TeamClaude.Lib.UrlPath
import TeamClaude.Provider

/-!
# What a request path names

The one prefix rule of the proxy, the lists it is asked about, and the paths a URL parser would read
differently than that rule does.
-/

namespace TeamClaude

def localPrefix : String := "/_tcr"

def clientCredentialPrefixes : List String :=
  ["/v1/code", "/api/oauth/files", "/api/oauth/file_upload", "/api/oauth/organizations",
    "/v1/mcp_servers", "/v1/sessions"]

def clientTokenRefreshPath : String := "/v1/oauth/token"

/-- Does the path name `base` itself, or something beneath it? -/
def pathIsUnder (path base : String) : Bool :=
  match base.toList.isPrefixOf? path.toList with
  | some rest => rest.isEmpty || rest.head? == some '/'
  | none => false

/-- The loop of `is_dot_segment`, which stops at the third dot. -/
def isDotSegmentFrom : List Char → Nat → Bool
  | [], dots => dots == 1 || dots == 2
  | '.' :: rest, dots => if 2 < dots + 1 then false else isDotSegmentFrom rest (dots + 1)
  | '%' :: '2' :: e :: rest, dots =>
    if e = 'e' ∨ e = 'E' then
      if 2 < dots + 1 then false else isDotSegmentFrom rest (dots + 1)
    else false
  | _, _ => false

def isDotSegment (segment : List Char) : Bool :=
  isDotSegmentFrom segment 0

/-- `path_is_ambiguous`: a backslash, or a dot segment in any spelling. -/
def pathIsAmbiguous (path : String) : Bool :=
  path.toList.contains '\\' || (path.toList.splitOn '/').any isDotSegment

/-! ## The rule and the parser -/

/-- The loop counts on from the dots already read, and gives up past two. -/
theorem is_dot_segment_from (segment : List Char) (dots : Nat) : isDotSegmentFrom segment dots =
    (Lib.dotCount segment).any fun n => n + dots == 1 || n + dots == 2 := by
  have hstep : ∀ (found : Option Nat) (dots : Nat),
      (found.map (· + 1)).any (fun n => n + dots == 1 || n + dots == 2) =
        if 2 < dots + 1 then false
        else found.any fun n => n + (dots + 1) == 1 || n + (dots + 1) == 2 := by
    intro found dots
    cases found with
    | none => simp
    | some n =>
      rw [Option.map_some, Option.any_some, Option.any_some, Nat.add_right_comm, Nat.add_assoc]
      split
      · rw [Bool.or_eq_false_iff, beq_eq_false_iff_ne, beq_eq_false_iff_ne]
        omega
      · rfl
  fun_induction Lib.dotCount segment generalizing dots with
  | case1 => simp [isDotSegmentFrom]
  | case2 rest ih =>
    rw [hstep, ← ih]
    rfl
  | case3 e rest he ih =>
    rw [hstep, ← ih]
    simp only [isDotSegmentFrom, if_pos he]
  | case4 e rest he =>
    simp only [isDotSegmentFrom, if_neg he]
    rfl
  | case5 text hnil hdot hesc =>
    unfold isDotSegmentFrom
    split
    · exact absurd rfl hnil
    · exact absurd rfl (hdot _)
    · exact absurd rfl (hesc _ _)
    · rfl

/-- The segments the loop recognises are those the URL parser folds. -/
theorem is_dot_segment_iff (segment : List Char) :
    isDotSegment segment = (Lib.isSingleDot segment || Lib.isDoubleDot segment) := by
  unfold isDotSegment Lib.isSingleDot Lib.isDoubleDot
  rw [is_dot_segment_from]
  cases Lib.dotCount segment with
  | none => rfl
  | some n => rfl

theorem path_is_under_iff {path base : String} : pathIsUnder path base = true ↔
    ∃ rest, path.toList = base.toList ++ rest ∧ (rest = [] ∨ rest.head? = some '/') := by
  unfold pathIsUnder
  constructor
  · intro h
    split at h
    · rename_i rest hrest
      rw [List.isPrefixOf?_eq_some_iff_append_eq] at hrest
      exact ⟨rest, hrest.symm, by simpa using h⟩
    · cases h
  · rintro ⟨rest, hpath, hrest⟩
    rw [List.isPrefixOf?_eq_some_iff_append_eq.mpr hpath.symm]
    simpa using hrest

/-- A path is Codex exactly where it is under the Codex prefix. -/
theorem of_path_codex_iff (path : String) :
    Provider.ofPath path = .codex ↔ pathIsUnder path Provider.codexPathPrefix = true := by
  have hcodex : Provider.ofPath path = .codex ↔
      path = Provider.codexPathPrefix ∨ startsWith path "/backend-api/" = true := by
    unfold Provider.ofPath
    split
    · rename_i h
      exact ⟨fun _ => h, fun _ => rfl⟩
    · rename_i h
      exact ⟨fun hc => absurd hc (by decide), fun hc => absurd hc h⟩
  have hslash : "/backend-api/".toList = Provider.codexPathPrefix.toList ++ ['/'] := rfl
  rw [hcodex, path_is_under_iff]
  constructor
  · rintro (rfl | h)
    · exact ⟨[], (List.append_nil _).symm, .inl rfl⟩
    · unfold startsWith at h
      rw [List.isPrefixOf_iff_prefix] at h
      obtain ⟨rest, hrest⟩ := h
      rw [hslash, List.append_assoc] at hrest
      exact ⟨'/' :: rest, hrest.symm, .inr rfl⟩
  · rintro ⟨rest, hpath, rfl | hrest⟩
    · rw [List.append_nil] at hpath
      exact .inl (String.toList_inj.mp hpath)
    · cases rest with
      | nil => cases hrest
      | cons c rest =>
        rw [List.head?_cons, Option.some.injEq] at hrest
        subst hrest
        refine .inr ?_
        unfold startsWith
        rw [List.isPrefixOf_iff_prefix]
        exact ⟨rest, by rw [hpath, hslash, List.append_assoc]; rfl⟩

/-- Percent-encoding a path moves it neither under a plain base nor out of it. -/
theorem path_is_under_encode (E : Lib.EncodeSet) {base : String}
    (hbase : ∀ b ∈ base.toList, Lib.isPlain b = true ∧ b ≠ '%') (path : String) :
    pathIsUnder (String.ofList (E.encode path.toList)) base = pathIsUnder path base := by
  unfold pathIsUnder
  rw [String.toList_ofList, Lib.EncodeSet.isPrefixOf?_encode hbase]
  cases base.toList.isPrefixOf? path.toList with
  | none => rfl
  | some rest =>
    have hslash := Lib.EncodeSet.head_encode_eq_iff (E := E) (b := '/') (by decide) (by decide) rest
    have hempty : (E.encode rest).isEmpty = rest.isEmpty := by
      cases rest with
      | nil => rfl
      | cons c rest =>
        have hone := E.encodeChar_length c
        rw [List.isEmpty_cons, List.isEmpty_eq_false_iff, Lib.EncodeSet.encode_cons]
        exact List.append_ne_nil_of_left_ne_nil (List.ne_nil_of_length_pos hone) _
    simp only [Option.map_some, hempty]
    rw [Bool.eq_iff_iff]
    simp only [Bool.or_eq_true, beq_iff_eq, hslash]

/-- The percent-encode set of a path in the URL standard. -/
def pathEncodeSet : Lib.EncodeSet where
  encodes c := decide (c.toNat < 0x20) || decide (0x7e < c.toNat) ||
    decide (c ∈
      [' ', '"', '#', '<', '>', '?', '^', Char.ofNat 0x60, Char.ofNat 0x7b, Char.ofNat 0x7d])
  plain c h := by
    have hall : ∀ n < 127, Lib.isPlain (Char.ofNat n) = true →
        (decide (n < 0x20) || decide (0x7e < n) || decide (Char.ofNat n ∈
          [' ', '"', '#', '<', '>', '?', '^', Char.ofNat 0x60, Char.ofNat 0x7b, Char.ofNat 0x7d])) =
            false := by
      decide +kernel
    have hn := hall c.toNat (Lib.toNat_lt_of_isPlain h)
    rw [Char.ofNat_toNat] at hn
    exact hn h

end TeamClaude
