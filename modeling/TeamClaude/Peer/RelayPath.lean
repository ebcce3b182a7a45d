import TeamClaude.Proxy.Paths

/-!
# The path of a relayed request

The gates a lender asks about a path a borrower chose, and the path of the URL it then builds on its
own proxy. The gates compare the raw text and the URL is built by setting its path, so what a gate
has refused has to be refused for the text as the parser reads it.
-/

namespace TeamClaude

/-- `relay_path_is_routable`: rooted, with no escaped separator and no authority, and read the same
by the URL parser. -/
def relayPathIsRoutable (path : String) : Bool :=
  startsWith path "/" &&
    !(decide ("%2f".toList <:+: toAsciiLowercase path) ||
      decide ("%5c".toList <:+: toAsciiLowercase path)) &&
    !startsWith path "//" && !pathIsAmbiguous path

def serveIsAllowedForPath (path : String) : Bool :=
  if !relayPathIsRoutable path then false
  else if !(Provider.ofPath path).onPeerMesh then false
  else if clientCredentialPrefixes.any fun base => pathIsUnder path base then false
  else if pathIsUnder path localPrefix then false
  else !pathIsUnder path clientTokenRefreshPath

/-- The path of the URL of `serve_on_own_account`: the proxy's own origin, its path set to the one in
the frame. -/
def relayedPath (E : Lib.EncodeSet) (path : String) : String :=
  String.ofList (Lib.UrlPath.render (Lib.UrlPath.set E path.toList))

/-! ## What the gates have read -/

/-- A path that reaches none of the routes the gates keep a borrower off, and that names what the
text it was built from names. -/
structure ReadAs (E : Lib.EncodeSet) (path built : String) : Prop where
  notLocal : pathIsUnder built localPrefix = false
  notCredential : ∀ base ∈ clientCredentialPrefixes, pathIsUnder built base = false
  notRefresh : pathIsUnder built clientTokenRefreshPath = false
  notCodex : Provider.ofPath built ≠ .codex
  segments : built.toList.splitOn '/' = (path.toList.splitOn '/').map E.encode

variable {path : String}

theorem routable_of_allowed (h : serveIsAllowedForPath path = true) :
    path.toList.head? = some '/' ∧ '\\' ∉ path.toList ∧
      ∀ segment ∈ path.toList.splitOn '/',
        Lib.isSingleDot segment = false ∧ Lib.isDoubleDot segment = false := by
  have hroutable : relayPathIsRoutable path = true := by
    unfold serveIsAllowedForPath at h
    split at h
    · cases h
    · rename_i hr
      simpa using hr
  unfold relayPathIsRoutable at hroutable
  simp only [Bool.and_eq_true, Bool.not_eq_true'] at hroutable
  obtain ⟨⟨⟨hroot, -⟩, -⟩, hread⟩ := hroutable
  unfold pathIsAmbiguous at hread
  rw [Bool.or_eq_false_iff, List.any_eq_false] at hread
  obtain ⟨hback, hdots⟩ := hread
  refine ⟨?_, by simpa using hback, fun segment hs => ?_⟩
  · unfold startsWith at hroot
    rw [List.isPrefixOf_iff_prefix] at hroot
    obtain ⟨rest, hrest⟩ := hroot
    rw [← hrest]
    rfl
  · have hdot := hdots segment hs
    rw [is_dot_segment_iff, Bool.not_eq_true, Bool.or_eq_false_iff] at hdot
    exact hdot

/-- The gates read a text the way they read it percent-encoded. -/
theorem gates_of_allowed (h : serveIsAllowedForPath path = true) (E : Lib.EncodeSet) :
    ReadAs E path (String.ofList (E.encode path.toList)) := by
  have hplain : ∀ base ∈ Provider.codexPathPrefix :: localPrefix :: clientTokenRefreshPath ::
      clientCredentialPrefixes, ∀ b ∈ base.toList, Lib.isPlain b = true ∧ b ≠ '%' := by
    have hall : ∀ base ∈ Provider.codexPathPrefix :: localPrefix :: clientTokenRefreshPath ::
        clientCredentialPrefixes, (base.toList.all fun b => Lib.isPlain b && b != '%') = true := by
      decide +kernel
    intro base hbase b hb
    have hplain := List.all_eq_true.mp (hall base hbase) b hb
    rwa [Bool.and_eq_true, bne_iff_ne] at hplain
  have hunder : ∀ base ∈ Provider.codexPathPrefix :: localPrefix :: clientTokenRefreshPath ::
      clientCredentialPrefixes,
      pathIsUnder (String.ofList (E.encode path.toList)) base = pathIsUnder path base :=
    fun base hbase => path_is_under_encode E (hplain base hbase) path
  unfold serveIsAllowedForPath at h
  split at h
  · cases h
  split at h
  · cases h
  rename_i hmesh
  split at h
  · cases h
  rename_i hcredential
  split at h
  · cases h
  rename_i hlocal
  rw [Bool.not_eq_true, List.any_eq_false] at hcredential
  constructor
  · rw [hunder localPrefix (by simp)]
    simpa using hlocal
  · intro base hbase
    rw [hunder base (by simp [hbase])]
    simpa using hcredential base hbase
  · rw [hunder clientTokenRefreshPath (by simp)]
    simpa using h
  · rw [Ne, of_path_codex_iff, hunder Provider.codexPathPrefix (by simp), ← of_path_codex_iff]
    intro hcodex
    rw [hcodex] at hmesh
    exact hmesh rfl
  · rw [String.toList_ofList, Lib.UrlPath.split_encode]

/-- An allowed path is built into the URL it was read as exactly when it has no tab or newline in
it, which the URL parser drops. -/
theorem relayed_path_read_as (E : Lib.EncodeSet) (h : serveIsAllowedForPath path = true) :
    ReadAs E path (relayedPath E path) ↔ ∀ c ∈ path.toList, Lib.isTabOrNewline c = false := by
  obtain ⟨hroot, hback, hdots⟩ := routable_of_allowed h
  constructor
  · intro hread
    by_contra hdropped
    push Not at hdropped
    have hne := Lib.UrlPath.render_set_ne (E := E) hroot (by simpa using hdropped)
    have hsegments := hread.segments
    rw [relayedPath, String.toList_ofList, ← Lib.UrlPath.split_encode] at hsegments
    exact hne (Lib.UrlPath.split_injective hsegments)
  · intro hkept
    rw [relayedPath, Lib.UrlPath.render_set_plain hroot hkept hback hdots]
    exact gates_of_allowed h E

/-- A messages call, with a segment that has to be escaped, is sent as it was read. -/
theorem messages_path_read_as :
    ReadAs pathEncodeSet "/v1/messages/a b?" (relayedPath pathEncodeSet "/v1/messages/a b?") :=
  (relayed_path_read_as pathEncodeSet
    (show serveIsAllowedForPath "/v1/messages/a b?" = true by decide +kernel)).mpr fun c hc => by
      have hall : ("/v1/messages/a b?".toList.all fun c => !Lib.isTabOrNewline c) = true := by
        decide +kernel
      simpa using List.all_eq_true.mp hall c hc

/-- A tab inside the local prefix passes the gates, and the URL is built on the local route. -/
theorem tab_reaches_local_route :
    serveIsAllowedForPath "/_t\tcr/accounts/control" = true ∧
    relayedPath pathEncodeSet "/_t\tcr/accounts/control" = "/_tcr/accounts/control" ∧
    ¬ ReadAs pathEncodeSet "/_t\tcr/accounts/control"
      (relayedPath pathEncodeSet "/_t\tcr/accounts/control") := by
  have hbuilt : relayedPath pathEncodeSet "/_t\tcr/accounts/control" = "/_tcr/accounts/control" := by
    decide +kernel
  refine ⟨by decide +kernel, hbuilt, fun hread => ?_⟩
  have hlocal := hread.notLocal
  rw [hbuilt] at hlocal
  exact absurd hlocal (by decide +kernel)

end TeamClaude
