import TeamClaude.Body.RequestBody

/-!
# Rotating the account uuid

The bytes a patch writes over stand inside one string of `user_id`'s raw text, so the body stays a
JSON text in which the same bytes are found again.
-/

namespace TeamClaude

open Lib.JsonText

/-! ## The window stands in one string -/

/-- The prefix is read inside a string, and so is what follows it. -/
theorem prefix_in_string {front z : Bytes}
    (h : Lex.run .out (front ++ (uuidPrefix ++ z)) = some .out) :
    Lex.run .out (front ++ uuidPrefix) = some .inString ∧ Lex.run .inString z = some .out := by
  have hsplit : uuidPrefix = ascii "account_uui" ++ 0x64 :: backslash ::
      [quote, colon, backslash, quote] := by decide
  have hquoted : Lex.run .escape [quote, colon, backslash, quote] = some .inString := by decide
  have hshape : front ++ (uuidPrefix ++ z) = (front ++ ascii "account_uui") ++
      0x64 :: backslash :: ([quote, colon, backslash, quote] ++ z) := by simp [hsplit]
  rw [hshape, Lex.run_append] at h
  obtain ⟨st, hst, h⟩ := Option.bind_eq_some_iff.mp h
  obtain ⟨hd, hz⟩ := Lex.run_slash (by decide) (by decide) (by decide) h
  rw [Lex.run_append, hquoted] at hz
  refine ⟨?_, hz⟩
  have hinside : front ++ uuidPrefix = (front ++ ascii "account_uui") ++
      ([0x64] ++ (backslash :: [quote, colon, backslash, quote])) := by simp [hsplit]
  rw [hinside, Lex.run_append, hst, Option.bind_some, Lex.run_append, hd, Option.bind_some,
    Lex.run_cons, Lex.step_slash]
  exact hquoted

/-! ## A clean value -/

/-- The 36 bytes from the start on are a value without quote or backslash that an escaped quote
ends. -/
structure Validated (body : Bytes) (start : Nat) : Prop where
  inside : start + 38 ≤ body.length
  clean : ((body.drop start).take 36).any isMetachar = false
  slash : body[start + 36]? = some backslash
  quoted : body[start + 37]? = some quote

/-- A 36-character lower-case uuid, its digits and dashes wherever they stand. -/
def isUuid (t : Bytes) : Bool :=
  t.length == 36 && t.all fun b => isDigit b || (0x61 ≤ b && b ≤ 0x66) || b == 0x2D

/-- The body with the uuid in the place of the 36 bytes from the start on. -/
def overwrite (body uuid : Bytes) (start : Nat) : Bytes :=
  body.take start ++ uuid ++ body.drop (start + 36)

theorem uuid_byte {b : UInt8} (h : (isDigit b || (0x61 ≤ b && b ≤ 0x66) || b == 0x2D) = true) :
    Lex.isPlain b = true ∧ b < 0x80 ∧ isMetachar b = false := by
  have hbounds : 0x2D ≤ b ∧ b ≤ 0x66 ∧ b ≠ backslash := by
    simp only [isDigit, Bool.or_eq_true, Bool.and_eq_true, decide_eq_true_eq, beq_iff_eq] at h
    rcases h with (⟨hlow, hhigh⟩ | ⟨hlow, hhigh⟩) | rfl
    · refine ⟨UInt8.le_trans (by decide) hlow, UInt8.le_trans hhigh (by decide), ?_⟩
      rintro rfl
      exact absurd hhigh (by decide)
    · refine ⟨UInt8.le_trans (by decide) hlow, hhigh, ?_⟩
      rintro rfl
      exact absurd hlow (by decide)
    · decide
  obtain ⟨hlow, hhigh, hslash⟩ := hbounds
  have hquote : b ≠ quote := by
    rintro rfl
    revert hlow
    decide
  have hcontrol : (0x20 : UInt8) ≤ b := UInt8.le_trans (by decide) hlow
  refine ⟨?_, UInt8.lt_of_le_of_lt hhigh (by decide), ?_⟩
  · simp [Lex.isPlain, hquote, hslash, hcontrol]
  · simp [isMetachar, hquote, hslash]

theorem uuid_length {t : Bytes} (h : isUuid t = true) : t.length = 36 := by
  rw [isUuid, Bool.and_eq_true] at h
  exact beq_iff_eq.mp h.1

theorem uuid_bytes {t : Bytes} (h : isUuid t = true) :
    ∀ b ∈ t, Lex.isPlain b = true ∧ b < 0x80 ∧ isMetachar b = false := by
  rw [isUuid, Bool.and_eq_true] at h
  exact fun b hb => uuid_byte (List.all_eq_true.mp h.2 b hb)

theorem uuid_clean {t : Bytes} (h : isUuid t = true) : t.any isMetachar = false := by
  rw [List.any_eq_false]
  intro b hb
  simp [(uuid_bytes h b hb).2.2]

theorem validated_of_split {front w r : Bytes} (hlen : w.length = 36)
    (hclean : w.any isMetachar = false) :
    Validated (front ++ (w ++ backslash :: quote :: r)) front.length where
  inside := by simp [hlen]; omega
  clean := by simp [← hlen, hclean]
  slash := by
    rw [List.getElem?_append_right (Nat.le_add_right _ _), Nat.add_sub_cancel_left,
      List.getElem?_append_right (Nat.le_of_eq hlen), hlen]
    rfl
  quoted := by
    rw [List.getElem?_append_right (Nat.le_add_right _ _), Nat.add_sub_cancel_left,
      List.getElem?_append_right (by omega), hlen]
    rfl

theorem validated_split {body : Bytes} {start : Nat} (h : Validated body start) :
    ∃ w r, body.drop start = w ++ backslash :: quote :: r ∧ w.length = 36 ∧
      ∀ b ∈ w, b ≠ quote ∧ b ≠ backslash := by
  obtain ⟨hinside, hclean, hslash, hquoted⟩ := h
  have hafter : (body.drop start).drop 36 = backslash :: quote :: body.drop (start + 38) := by
    obtain ⟨h36, hslash⟩ := List.getElem?_eq_some_iff.mp hslash
    obtain ⟨h37, hquoted⟩ := List.getElem?_eq_some_iff.mp hquoted
    rw [List.drop_drop, List.drop_eq_getElem_cons h36, hslash, List.drop_eq_getElem_cons h37,
      hquoted]
  refine ⟨(body.drop start).take 36, body.drop (start + 38), ?_, ?_, ?_⟩
  · rw [← hafter, List.take_append_drop]
  · simp only [List.length_take, List.length_drop]
    omega
  · intro b hb
    have hb := List.any_eq_false.mp hclean b hb
    simpa [isMetachar] using hb

theorem overwrite_same {body : Bytes} {start : Nat} :
    overwrite body ((body.drop start).take 36) start = body := by
  rw [overwrite, List.append_assoc, ← List.drop_drop, List.take_append_drop, List.take_append_drop]

theorem patch_at_validated {body uuid : Bytes} {start : Nat} (hu : isUuid uuid = true)
    (h : Validated body start) : patchAt body uuid (some start) = overwrite body uuid start := by
  have hlen := uuid_length hu
  have hclean := uuid_clean hu
  have hinside := h.inside
  unfold patchAt
  rw [if_neg (by simp [hlen]), if_neg (by simp [hclean])]
  dsimp only
  rw [if_neg (by omega), if_neg (by simp [h.clean]), if_neg (by simp [h.slash, h.quoted])]
  split
  · rename_i heq
    rw [← heq, overwrite_same]
  · rfl

theorem patch_at_refused {body uuid : Bytes} {start : Nat} (h : ¬Validated body start) :
    patchAt body uuid (some start) = body := by
  unfold patchAt
  split
  · rfl
  split
  · rfl
  dsimp only
  split
  · rfl
  split
  · rfl
  split
  · rfl
  rename_i hinside hclean hends
  obtain ⟨hslash, hquoted⟩ := not_or.mp hends
  exact absurd ⟨by omega, by simpa using hclean, not_not.mp hslash, not_not.mp hquoted⟩ h

theorem overwrite_length {body uuid : Bytes} {start : Nat} (hu : uuid.length = 36)
    (h : start + 36 ≤ body.length) : (overwrite body uuid start).length = body.length := by
  simp only [overwrite, List.length_append, List.length_take, List.length_drop, hu]
  omega

theorem overwrite_overwrite {body a b : Bytes} {start : Nat} (ha : a.length = 36)
    (h : start + 36 ≤ body.length) :
    overwrite (overwrite body a start) b start = overwrite body b start := by
  have hstart : (body.take start).length = start := by
    rw [List.length_take]
    omega
  have htake : (overwrite body a start).take start = body.take start := by
    rw [overwrite, List.append_assoc, List.take_append_of_le_length (Nat.le_of_eq hstart.symm),
      List.take_of_length_le (Nat.le_of_eq hstart)]
  have hdrop : (overwrite body a start).drop (start + 36) = body.drop (start + 36) := by
    have hfront : (body.take start ++ a).length = start + 36 := by
      rw [List.length_append, hstart, ha]
    rw [overwrite, ← hfront, List.drop_left]
  rw [overwrite, htake, hdrop]
  rfl

/-! ## The patched body -/

theorem utf8_exchange {front w a r : Bytes} (ha : ∀ b ∈ a, b < 0x80)
    (h : isUtf8 (front ++ (uuidPrefix ++ (w ++ backslash :: r))) = true) :
    isUtf8 (front ++ (uuidPrefix ++ (a ++ backslash :: r))) = true := by
  have hsplit : uuidPrefix = ascii "account_uuid\\\":\\" ++ [quote] := by decide
  have hshape : ∀ w : Bytes, front ++ (uuidPrefix ++ (w ++ backslash :: r)) =
      (front ++ ascii "account_uuid\\\":\\") ++ quote :: (w ++ backslash :: r) := by
    intro w
    simp [hsplit]
  rw [hshape, utf8_append (by decide), utf8_append (by decide), Bool.and_eq_true,
    Bool.and_eq_true] at h ⊢
  exact ⟨h.1, utf8_of_ascii ha, h.2.2⟩

/-- What the patch does to `user_id`'s raw text: the value in it is exchanged, in one string of it,
for one that is found at the same place. -/
theorem user_id_exchanged {u : Text .value} {front z w r tail a : Bytes} (ha : isUuid a = true)
    (hu : u.render = front ++ (uuidPrefix ++ z)) (hz : z ++ tail = w ++ backslash :: quote :: r)
    (hlen : w.length = 36) (hw : ∀ b ∈ w, b ≠ quote ∧ b ≠ backslash)
    (hutf8 : isUtf8 u.render = true) :
    ∃ y, z = w ++ backslash :: quote :: y ∧ ∃ u' : Text .value,
      u'.render = front ++ (uuidPrefix ++ (a ++ backslash :: quote :: y)) ∧
        u'.isNull = u.isNull ∧ isUtf8 u'.render = true := by
  have hrun : Lex.run .out (front ++ (uuidPrefix ++ z)) = some .out := by
    have hrun := Lex.run_render u []
    rwa [List.append_nil, hu] at hrun
  obtain ⟨hinside, hrest⟩ := prefix_in_string hrun
  obtain ⟨hplain, y, rfl⟩ := Lex.run_window hw hrest hz
  have hrest' : Lex.run .inString (backslash :: quote :: y) = some .out := by
    rw [Lex.run_append, Lex.run_plain hplain] at hrest
    exact hrest
  have haplain : a.all Lex.isPlain = true :=
    List.all_eq_true.mpr fun b hb => (uuid_bytes ha b hb).1
  have hswap : Swap .out (u.render ++ [])
      (front ++ (uuidPrefix ++ (a ++ backslash :: quote :: y))) := by
    have hafter := Swap.after hinside
      (.exchange (hlen.trans (uuid_length ha).symm) hplain haplain (.refl hrest'))
    simpa [hu] using hafter
  obtain ⟨u', s, -, hnull, hrender, hs⟩ := Swap.text u hswap
  cases hs
  rw [List.append_nil] at hrender
  refine ⟨y, rfl, u', hrender.symm, hnull, ?_⟩
  rw [← hrender]
  rw [hu] at hutf8
  exact utf8_exchange (fun b hb => (uuid_bytes ha b hb).2.1) hutf8

/-- The 36 bytes from the start on stand in the raw text of `user_id`. -/
def InUserId (body : Bytes) (start : Nat) : Prop :=
  ∃ pos u, userIdOf body = some (pos, u) ∧ pos ≤ start ∧ start + 36 ≤ pos + u.render.length

theorem patched_located {body a : Bytes} {start : Nat} (ha : isUuid a = true)
    (hstart : locate body = some start) (hv : Validated body start) :
    InUserId body start ∧ (readDocument (overwrite body a start)).isSome = true ∧
      locate (overwrite body a start) = some start ∧ Validated (overwrite body a start) start ∧
        (isUtf8 body = true → isUtf8 (overwrite body a start) = true) := by
  obtain ⟨⟨pos, u⟩, huser, hvalue⟩ := Option.bind_eq_some_iff.mp hstart
  obtain ⟨within, hwithin, hpos⟩ := Option.bind_eq_some_iff.mp hvalue
  obtain ⟨p, hp, rfl⟩ := Option.map_eq_some_iff.mp hwithin
  obtain ⟨x, z, hu, rfl⟩ := find_window_split hp
  obtain ⟨hnull, hutf8, front, back, rfl, rfl, hlocal⟩ := user_id_local huser
  obtain ⟨w, r, hdrop, hlen, hw⟩ := validated_split hv
  cases hpos
  have hbody : front ++ u.render ++ back = (front ++ (x ++ uuidPrefix)) ++ (z ++ back) := by
    simp [hu]
  have hfront : (front ++ (x ++ uuidPrefix)).length =
      front.length + (x.length + uuidPrefix.length) := by simp
  rw [hbody, ← hfront, List.drop_left] at hdrop
  obtain ⟨y, rfl, u', hu', hnull', hutf8'⟩ := user_id_exchanged ha hu hdrop hlen hw hutf8
  have halen := uuid_length ha
  obtain ⟨hread, huser'⟩ := hlocal u' (by simp [hu, hu', hlen, halen]) (hnull'.trans hnull) hutf8'
  have hover : overwrite (front ++ u.render ++ back) a
      (front.length + (x.length + uuidPrefix.length)) = front ++ u'.render ++ back := by
    have hwfront : ((front ++ (x ++ uuidPrefix)) ++ w).length =
        front.length + (x.length + uuidPrefix.length) + 36 := by
      rw [List.length_append, hfront, hlen]
    have htail : (front ++ (x ++ uuidPrefix)) ++ ((w ++ backslash :: quote :: y) ++ back) =
        ((front ++ (x ++ uuidPrefix)) ++ w) ++ (backslash :: quote :: y ++ back) := by simp
    rw [overwrite, hbody, ← hwfront]
    rw [← hfront, List.take_left, htail, List.drop_left, hu']
    simp
  rw [hover]
  have hbody' : front ++ u'.render ++ back =
      (front ++ (x ++ uuidPrefix)) ++ (a ++ backslash :: quote :: (y ++ back)) := by
    simp [hu']
  refine ⟨⟨_, _, huser, Nat.le_add_right _ _, ?_⟩, hread, ?_, ?_, ?_⟩
  · rw [hu]
    simp only [List.length_append, List.length_cons, hlen]
    omega
  · have hfound : findWindow uuidPrefix u'.render = some x.length := by
      rw [hu, ← List.append_assoc] at hp
      rw [hu', ← List.append_assoc]
      exact find_window_front hp (by simp) _
    rw [locate, huser']
    simp only [Option.bind_eq_bind, Option.bind_some, valueStartIn, hfound, Option.map_some]
  · rw [hbody', ← hfront]
    exact validated_of_split halen (uuid_clean ha)
  · intro hbodyUtf8
    have hshape : ∀ w' : Bytes, (front ++ (x ++ uuidPrefix)) ++
        (w' ++ backslash :: quote :: (y ++ back)) =
        (front ++ x) ++ (uuidPrefix ++ (w' ++ backslash :: quote :: (y ++ back))) := by simp
    rw [hbody', hshape]
    rw [hbody] at hbodyUtf8
    have hw : isUtf8 ((front ++ x) ++ (uuidPrefix ++
        (w ++ backslash :: quote :: (y ++ back)))) = true := by simpa using hbodyUtf8
    exact utf8_exchange (fun b hb => (uuid_bytes ha b hb).2.1) hw

/-! ## Rotations -/

/-- The account uuid that `user_id` names: the 36 bytes that a patch writes over. -/
def accountUuidOf (body : Bytes) : Option Bytes :=
  (locate body).map fun start => (body.drop start).take 36

theorem patch_rotates (body a b : Bytes) (ha : isUuid a = true) (hb : isUuid b = true) :
    (patchAccountUuid body a).length = body.length ∧
      ((readDocument body).isSome = true →
        (readDocument (patchAccountUuid body a)).isSome = true) ∧
      (isUtf8 body = true → isUtf8 (patchAccountUuid body a) = true) ∧
      patchAccountUuid (patchAccountUuid body a) b = patchAccountUuid body b ∧
      (∀ start, locate body = some start → Validated body start →
        InUserId body start ∧ patchAccountUuid body a = overwrite body a start ∧
          accountUuidOf (patchAccountUuid body a) = some a) ∧
      ((∀ start, locate body = some start → ¬Validated body start) →
        patchAccountUuid body a = body) := by
  by_cases hfound : ∃ start, locate body = some start ∧ Validated body start
  · obtain ⟨start, hstart, hv⟩ := hfound
    have hpatch : ∀ uuid, isUuid uuid = true →
        patchAccountUuid body uuid = overwrite body uuid start := by
      intro uuid hu
      rw [patchAccountUuid, hstart, patch_at_validated hu hv]
    obtain ⟨hin, hread, hlocate, hv', hutf8⟩ := patched_located ha hstart hv
    have hinside : start + 36 ≤ body.length := Nat.le_trans (by omega) hv.inside
    rw [hpatch a ha, hpatch b hb]
    refine ⟨overwrite_length (uuid_length ha) hinside, fun _ => hread, hutf8, ?_, ?_, ?_⟩
    · rw [patchAccountUuid, hlocate, patch_at_validated hb hv',
        overwrite_overwrite (uuid_length ha) hinside]
    · intro start' hstart' _
      rw [hstart] at hstart'
      cases hstart'
      refine ⟨hin, rfl, ?_⟩
      have hstartLen : (body.take start).length = start := by
        rw [List.length_take]
        omega
      have hdrop : (overwrite body a start).drop start = a ++ body.drop (start + 36) := by
        rw [overwrite, List.append_assoc]
        nth_rewrite 1 [← hstartLen]
        rw [List.drop_left]
      rw [accountUuidOf, hlocate, Option.map_some, hdrop, ← uuid_length ha, List.take_left]
    · intro hnone
      exact absurd hv (hnone start hstart)
  · have hsame : ∀ uuid, patchAccountUuid body uuid = body := by
      intro uuid
      unfold patchAccountUuid
      cases hstart : locate body with
      | none =>
        unfold patchAt
        split
        · rfl
        split <;> rfl
      | some start => exact patch_at_refused fun hv => hfound ⟨start, hstart, hv⟩
    rw [hsame, hsame]
    refine ⟨rfl, id, id, rfl, ?_, fun _ => rfl⟩
    intro start hstart hv
    exact absurd ⟨start, hstart, hv⟩ hfound

/-- A patch writes the uuid over a clean value in `user_id` and changes nothing else, or leaves the
body as it is where there is none; it keeps the body a JSON text, and the last patch of several is
the one that counts. What is sent for an account is the forwarded body so patched, although the value
was found before the rewrite. -/
theorem last_rotation_wins (body a b : Bytes) (ha : isUuid a = true) (hb : isUuid b = true) :
    (patchAccountUuid body a).length = body.length ∧
      ((readDocument body).isSome = true →
        (readDocument (patchAccountUuid body a)).isSome = true) ∧
      (isUtf8 body = true → isUtf8 (patchAccountUuid body a) = true) ∧
      patchAccountUuid (patchAccountUuid body a) b = patchAccountUuid body b ∧
      (∀ start, locate body = some start → Validated body start →
        InUserId body start ∧ patchAccountUuid body a = overwrite body a start ∧
          accountUuidOf (patchAccountUuid body a) = some a) ∧
      ((∀ start, locate body = some start → ¬Validated body start) →
        patchAccountUuid body a = body) ∧
      ∀ inRange rewriteTtl request, request = RequestBody.parse inRange body rewriteTtl →
        request.bytes = (if rewriteTtl then extendAllTtls inRange body else none).getD body ∧
          (request.forAccount a).length = request.bytes.length ∧
          ((∃ root, Reads inRange body root) →
            request.forAccount a = patchAccountUuid request.bytes a ∧
              patchAccountUuid (request.forAccount a) b = request.forAccount b) ∧
          ((∀ root, ¬Reads inRange body root) → request.forAccount a = body) := by
  obtain ⟨hlength, hread, hutf8, hlast, hnamed, hsame⟩ := patch_rotates body a b ha hb
  refine ⟨hlength, hread, hutf8, hlast, hnamed, hsame, ?_⟩
  rintro inRange rewriteTtl request rfl
  obtain ⟨hbytes, hpatches, hleft⟩ := for_account_patches inRange body rewriteTtl
  obtain ⟨hlength, -, -, hlast, -, -⟩ :=
    patch_rotates (RequestBody.parse inRange body rewriteTtl).bytes a b ha hb
  refine ⟨hbytes, ?_, ?_, fun hno => hleft hno a⟩
  · by_cases hreads : ∃ root, Reads inRange body root
    · rw [hpatches hreads, hlength]
    · have hno : ∀ root, ¬Reads inRange body root := fun root hroot => hreads ⟨root, hroot⟩
      rw [hleft hno, parse_of_not_reads hno]
      rfl
  · intro hreads
    rw [hpatches hreads, hpatches hreads]
    exact ⟨rfl, hlast⟩

def uuidOfOnes : Bytes :=
  ascii "11111111-1111-1111-1111-111111111111"

def uuidOfTwos : Bytes :=
  ascii "22222222-2222-2222-2222-222222222222"

/-- A body with a breakpoint in front of the `user_id` that names an account. -/
def namedBody : Bytes :=
  ascii "\x7b\"system\":[\x7b\"cache_control\":\x7b\x7d\x7d],\"metadata\":\x7b\"user_id\":\"\x7b\\\"" ++
    uuidPrefix ++ ascii "00000000-0000-0000-0000-000000000000" ++ ascii "\\\"\x7d\"\x7d\x7d"

theorem named_body_located : locate namedBody = some 76 ∧ Validated namedBody 76 := by
  unfold namedBody uuidPrefix ascii
  repeat rw [String.toList_ofList]
  exact ⟨by decide +kernel, by decide +kernel, by decide +kernel, by decide +kernel,
    by decide +kernel⟩

theorem reads_of_read {inRange : Bytes → Bool} {body : Bytes} (hutf8 : isUtf8 body = true)
    (h : (readDocument body).map (fun d => rootOk inRange d.root) = some true) :
    ∃ root, Reads inRange body root := by
  obtain ⟨d, hd, hok⟩ := Option.map_eq_some_iff.mp h
  exact ⟨_, hutf8, d, hd, hok, rfl⟩

/-- It is read whole, and its uuid moves by what the breakpoint grows. -/
theorem named_body_parsed :
    (RequestBody.parse (fun _ => true) namedBody true).accountUuidAt =
        (locate namedBody).map (· + 10) ∧
      ∃ root, Reads (fun _ => true) namedBody root := by
  unfold namedBody uuidPrefix ascii
  repeat rw [String.toList_ofList]
  exact ⟨by decide +kernel, reads_of_read (by decide +kernel) (by decide +kernel)⟩

theorem named_body_rotates :
    (∃ start, locate namedBody = some start ∧ Validated namedBody start ∧
      accountUuidOf (patchAccountUuid namedBody uuidOfOnes) = some uuidOfOnes ∧
        patchAccountUuid (patchAccountUuid namedBody uuidOfOnes) uuidOfTwos =
          patchAccountUuid namedBody uuidOfTwos) ∧
      ∃ request : RequestBody, request.accountUuidAt = (locate namedBody).map (· + 10) ∧
        request.forAccount uuidOfOnes = patchAccountUuid request.bytes uuidOfOnes := by
  have huuids : isUuid uuidOfOnes = true ∧ isUuid uuidOfTwos = true := by
    unfold uuidOfOnes uuidOfTwos ascii
    repeat rw [String.toList_ofList]
    decide +kernel
  obtain ⟨-, -, -, hlast, hnamed, -, hrequest⟩ :=
    last_rotation_wins namedBody uuidOfOnes uuidOfTwos huuids.1 huuids.2
  obtain ⟨hstart, hv⟩ := named_body_located
  obtain ⟨hmoved, hreads⟩ := named_body_parsed
  exact ⟨⟨76, hstart, hv, (hnamed 76 hstart hv).2.2, hlast⟩,
    RequestBody.parse (fun _ => true) namedBody true, hmoved,
    ((hrequest _ true _ rfl).2.2.1 hreads).1⟩

/-- A body with no `user_id` is left as it is, so it does not name the account it is sent for. -/
theorem empty_body_names_nobody : isUuid uuidOfOnes = true ∧ isUuid uuidOfTwos = true ∧
    patchAccountUuid (ascii "\x7b\x7d") uuidOfOnes = ascii "\x7b\x7d" ∧
      accountUuidOf (patchAccountUuid (ascii "\x7b\x7d") uuidOfOnes) ≠ some uuidOfOnes := by
  decide +kernel

end TeamClaude
