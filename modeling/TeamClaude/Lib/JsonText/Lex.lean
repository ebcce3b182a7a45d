import TeamClaude.Lib.JsonText.Parse

/-!
# Inside a string

Where a byte of a JSON text stands: outside every string, inside one, or in an escape. Plain bytes
inside a string may be exchanged for others, and the text has the same tree but for its strings.
-/

namespace Lib.JsonText

/-- What the next byte is read as; `hex n` reads a digit of a `\u` escape, with `n` more to come. -/
inductive Lex
  | out
  | inString
  | escape
  | hex (n : Nat)
deriving DecidableEq

namespace Lex

/-- The state after a byte, none when the byte cannot stand there. -/
def step : Lex → UInt8 → Option Lex
  | out, b =>
    if b == quote then some inString else if b == backslash then none else some out
  | inString, b =>
    if b == quote then some out
    else if b == backslash then some escape
    else if 0x20 ≤ b then some inString
    else none
  | escape, b =>
    if b == 0x75 then some (hex 3) else if isEscape b then some inString else none
  | hex 0, b => if isHex b then some inString else none
  | hex (n + 1), b => if isHex b then some (hex n) else none

def run (st : Lex) (t : Bytes) : Option Lex :=
  t.foldlM step st

theorem run_append (st : Lex) (s t : Bytes) :
    run st (s ++ t) = (run st s).bind fun st => run st t :=
  List.foldlM_append

theorem run_cons (st : Lex) (b : UInt8) (t : Bytes) :
    run st (b :: t) = (step st b).bind fun st => run st t :=
  List.foldlM_cons

/-- A byte that ends no string and starts no escape. -/
def isPlain (b : UInt8) : Bool :=
  b != quote && b != backslash && 0x20 ≤ b

theorem step_plain {b : UInt8} (h : isPlain b = true) : step inString b = some inString := by
  simp only [isPlain, Bool.and_eq_true, bne_iff_ne, decide_eq_true_eq] at h
  obtain ⟨⟨hquote, hslash⟩, hcontrol⟩ := h
  simp [step, hquote, hslash, hcontrol]

theorem run_plain {t : Bytes} (h : t.all isPlain = true) : run inString t = some inString := by
  induction t with
  | nil => rfl
  | cons b t ih =>
    rw [List.all_cons, Bool.and_eq_true] at h
    rw [run_cons, step_plain h.1]
    exact ih h.2

def isOutside (b : UInt8) : Bool :=
  b != quote && b != backslash

theorem step_outside {b : UInt8} (h : isOutside b = true) : step out b = some out := by
  simp only [isOutside, Bool.and_eq_true, bne_iff_ne] at h
  simp [step, h.1, h.2]

theorem run_outside {t : Bytes} (h : ∀ b ∈ t, isOutside b = true) : run out t = some out := by
  induction t with
  | nil => rfl
  | cons b t ih =>
    rw [run_cons, step_outside (h b List.mem_cons_self)]
    exact ih fun c hc => h c (List.mem_cons_of_mem b hc)

theorem step_slash : step inString backslash = some escape := rfl

theorem step_unicode : step escape 0x75 = some (hex 3) := rfl

theorem step_escape {b : UInt8} (h : isEscape b = true) : step escape b = some inString := by
  have hne : b ≠ 0x75 := by
    rintro rfl
    revert h
    decide
  simp [step, hne, h]

theorem step_hex {b : UInt8} (h : isHex b = true) (n : Nat) :
    step (hex (n + 1)) b = some (hex n) ∧ step (hex 0) b = some inString := by
  simp [step, h]

theorem run_body {t : Bytes} (h : isBody t = true) : run inString t = some inString := by
  fun_induction isBody t with
  | case1 => rfl
  | case2 b hb => cases h
  | case3 b hb e he h1 h2 h3 h4 t ih =>
    simp only [Bool.and_eq_true] at h
    obtain ⟨⟨⟨⟨hh1, hh2⟩, hh3⟩, hh4⟩, ht⟩ := h
    rw [beq_iff_eq.mp hb, beq_iff_eq.mp he]
    simp only [run_cons, step_slash, step_unicode, (step_hex hh1 2).1, (step_hex hh2 1).1,
      (step_hex hh3 0).1, (step_hex hh4 0).2, Option.bind_some]
    exact ih ht
  | case4 b hb e t he hshort => cases h
  | case5 b hb e t he ih =>
    rw [Bool.and_eq_true] at h
    rw [beq_iff_eq.mp hb]
    simp only [run_cons, step_slash, step_escape h.1, Option.bind_some]
    exact ih h.2
  | case6 b t hb ih =>
    simp only [Bool.and_eq_true, bne_iff_ne, decide_eq_true_eq] at h
    have hplain : isPlain b = true := by simpa [isPlain, h.1.1, h.1.2] using hb
    rw [run_cons, step_plain hplain]
    exact ih h.2

theorem space_outside {b : UInt8} (h : isSpace b = true) : isOutside b = true := by
  simp only [isSpace, Bool.or_eq_true, beq_iff_eq] at h
  rcases h with ((rfl | rfl) | rfl) | rfl <;> decide

theorem scalar_outside {b : UInt8} (h : isScalarByte b = true) : isOutside b = true := by
  simp only [isOutside, Bool.and_eq_true, bne_iff_ne]
  constructor <;> rintro rfl <;> revert h <;> decide

theorem run_space (ws : Space) (t : Bytes) : run out (ws.1 ++ t) = run out t := by
  rw [run_append, run_outside fun b hb => space_outside (List.all_eq_true.mp ws.2 b hb)]
  rfl

theorem run_out {b : UInt8} (h : isOutside b = true) (t : Bytes) :
    run out (b :: t) = run out t := by
  rw [run_cons, step_outside h]
  rfl

theorem run_string (body : Body) (t : Bytes) : run out (renderString body ++ t) = run out t := by
  have hquote : step out quote = some inString := rfl
  have hend : step inString quote = some out := rfl
  simp only [renderString, List.cons_append, List.append_assoc, run_cons, run_append, hquote,
    Option.bind_some, run_body body.2, List.nil_append, hend]

/-- A text is a run that starts and ends outside every string. -/
theorem run_render {k : Kind} (c : Text k) (t : Bytes) : run out (c.render ++ t) = run out t := by
  have hbracket := @run_out openBracket (by decide)
  have hbrace := @run_out openBrace (by decide)
  have hbracket' := @run_out closeBracket (by decide)
  have hbrace' := @run_out closeBrace (by decide)
  have hcomma := @run_out comma (by decide)
  have hcolon := @run_out colon (by decide)
  induction c generalizing t with
  | scalar s =>
    rw [Text.render, run_append,
      run_outside fun b hb => scalar_outside (List.all_eq_true.mp (scalar_bytes s).1 b hb)]
    rfl
  | string body => exact run_string body t
  | emptyArray ws => simp [Text.render, hbracket, run_space, hbracket']
  | array items ih => simp [Text.render, hbracket, ih]
  | emptyObject ws => simp [Text.render, hbrace, run_space, hbrace']
  | object members ih => simp [Text.render, hbrace, ih]
  | lastItem pre v post ih => simp [Text.render, run_space, ih, hbracket']
  | item pre v post rest ihv ihrest => simp [Text.render, run_space, ihv, ihrest, hcomma]
  | lastMember head v post ih =>
    simp [Text.render, Head.render, run_space, run_string, hcolon, ih, hbrace']
  | member head v post rest ihv ihrest =>
    simp [Text.render, Head.render, run_space, run_string, hcolon, ihv, ihrest, hcomma]

/-- A backslash after a hexadecimal digit starts an escape: it is read inside a string. -/
theorem run_slash {st : Lex} {b : UInt8} {t : Bytes} {st' : Lex} (hb : isPlain b = true)
    (hescape : isEscape b = false) (hunicode : b ≠ 0x75)
    (h : run st (b :: backslash :: t) = some st') :
    run st [b] = some inString ∧ run escape t = some st' := by
  rw [run_cons] at h
  obtain ⟨mid, hmid, h⟩ := Option.bind_eq_some_iff.mp h
  rw [run_cons] at h
  obtain ⟨next, hnext, h⟩ := Option.bind_eq_some_iff.mp h
  -- only inside a string may a backslash come next
  have hin : mid = inString := by
    cases st with
    | out =>
      have hout : isOutside b = true := by
        simp only [isPlain, Bool.and_eq_true] at hb
        simp only [isOutside, Bool.and_eq_true]
        exact hb.1
      rw [step_outside hout] at hmid
      cases hmid
      cases hnext
    | inString =>
      rw [step_plain hb] at hmid
      cases hmid
      rfl
    | escape =>
      simp [step, hunicode, hescape] at hmid
    | hex n =>
      cases n with
      | zero =>
        simp only [step] at hmid
        split at hmid
        · cases hmid
          rfl
        · cases hmid
      | succ n =>
        simp only [step] at hmid
        split at hmid
        · cases hmid
          cases n <;> cases hnext
        · cases hmid
  subst hin
  cases hnext
  exact ⟨by rw [run_cons, hmid]; rfl, h⟩

/-- A run of bytes with no quote and no backslash in a string, and the escaped quote that ends it,
stand in that string. -/
theorem run_window {w z t r : Bytes} (hw : ∀ b ∈ w, b ≠ quote ∧ b ≠ backslash)
    (h : run inString z = some out) (hz : z ++ t = w ++ backslash :: quote :: r) :
    w.all isPlain = true ∧ ∃ s, z = w ++ backslash :: quote :: s := by
  induction w generalizing z with
  | nil =>
    match z, h, hz with
    | [], h, _ => cases h
    | [b], h, hz =>
      obtain ⟨rfl, -⟩ := List.cons.inj hz
      cases h
    | b :: c :: s, _, hz =>
      obtain ⟨rfl, hrest⟩ := List.cons.inj hz
      obtain ⟨rfl, -⟩ := List.cons.inj hrest
      exact ⟨rfl, s, rfl⟩
  | cons b w ih =>
    obtain ⟨hquote, hslash⟩ := hw b List.mem_cons_self
    cases z with
    | nil => cases h
    | cons c z =>
      obtain ⟨rfl, hrest⟩ := List.cons.inj hz
      rw [run_cons] at h
      obtain ⟨mid, hmid, h⟩ := Option.bind_eq_some_iff.mp h
      have hcontrol : 0x20 ≤ c := by
        by_contra hlow
        simp [step, hquote, hslash, hlow] at hmid
      have hplain : isPlain c = true := by simp [isPlain, hquote, hslash, hcontrol]
      rw [step_plain hplain] at hmid
      cases hmid
      obtain ⟨hall, s, rfl⟩ := ih (fun b hb => hw b (List.mem_cons_of_mem c hb)) h hrest
      exact ⟨by rw [List.all_cons, hplain, hall]; rfl, s, rfl⟩

end Lex

/-! ## Exchanging plain bytes -/

/-- The same bytes, but for plain ones inside strings. -/
inductive Swap : Lex → Bytes → Bytes → Prop
  | nil (st : Lex) : Swap st [] []
  | same {st st' : Lex} {b : UInt8} {t t' : Bytes} (hstep : st.step b = some st')
      (h : Swap st' t t') : Swap st (b :: t) (b :: t')
  | plain {b b' : UInt8} {t t' : Bytes} (hb : Lex.isPlain b = true) (hb' : Lex.isPlain b' = true)
      (h : Swap .inString t t') : Swap .inString (b :: t) (b' :: t')

theorem Swap.refl {st st' : Lex} {t : Bytes} (h : st.run t = some st') : Swap st t t := by
  induction t generalizing st with
  | nil => exact .nil st
  | cons b t ih =>
    rw [Lex.run_cons] at h
    obtain ⟨mid, hstep, h⟩ := Option.bind_eq_some_iff.mp h
    exact .same hstep (ih h)

theorem Swap.after {st mid : Lex} {p t t' : Bytes} (hp : st.run p = some mid)
    (h : Swap mid t t') : Swap st (p ++ t) (p ++ t') := by
  induction p generalizing st with
  | nil =>
    cases hp
    exact h
  | cons b p ih =>
    rw [Lex.run_cons] at hp
    obtain ⟨mid', hstep, hp⟩ := Option.bind_eq_some_iff.mp hp
    exact .same hstep (ih hp)

theorem Swap.exchange {w w' t t' : Bytes} (hlen : w.length = w'.length)
    (hw : w.all Lex.isPlain = true) (hw' : w'.all Lex.isPlain = true)
    (h : Swap .inString t t') : Swap .inString (w ++ t) (w' ++ t') := by
  induction w generalizing w' with
  | nil =>
    obtain rfl := List.length_eq_zero_iff.mp hlen.symm
    exact h
  | cons b w ih =>
    cases w' with
    | nil => cases hlen
    | cons b' w' =>
      rw [List.all_cons, Bool.and_eq_true] at hw hw'
      exact .plain hw.1 hw'.1 (ih (Nat.succ.inj hlen) hw.2 hw'.2)

/-! ### What stands outside strings is the same -/

theorem Swap.outside {p t t' : Bytes} (hp : ∀ b ∈ p, Lex.isOutside b = true)
    (h : Swap .out (p ++ t) t') : ∃ s, t' = p ++ s ∧ Swap .out t s := by
  induction p generalizing t' with
  | nil => exact ⟨t', rfl, h⟩
  | cons b p ih =>
    cases h with
    | same hstep h =>
      rw [Lex.step_outside (hp b List.mem_cons_self)] at hstep
      cases hstep
      obtain ⟨s, rfl, hs⟩ := ih (fun c hc => hp c (List.mem_cons_of_mem b hc)) h
      exact ⟨s, rfl, hs⟩

theorem Swap.space (ws : Space) {t t' : Bytes} (h : Swap .out (ws.1 ++ t) t') :
    ∃ s, t' = ws.1 ++ s ∧ Swap .out t s :=
  h.outside fun b hb => Lex.space_outside (List.all_eq_true.mp ws.2 b hb)

theorem Swap.byte {b : UInt8} (hb : Lex.isOutside b = true) {t t' : Bytes}
    (h : Swap .out (b :: t) t') : ∃ s, t' = b :: s ∧ Swap .out t s :=
  Swap.outside (p := [b]) (by simpa using hb) h

/-! ### What stands in a string keeps its shape -/

theorem Swap.step_cons {st st' : Lex} {b : UInt8} {t t' : Bytes} (hb : Lex.isPlain b = false)
    (hstep : st.step b = some st') (h : Swap st (b :: t) t') :
    ∃ s, t' = b :: s ∧ Swap st' t s := by
  cases h with
  | same hstep' h =>
    rw [hstep] at hstep'
    cases hstep'
    exact ⟨_, rfl, h⟩
  | plain hb' =>
    rw [hb] at hb'
    cases hb'

theorem Swap.hex_cons {n : Nat} {b : UInt8} {t t' : Bytes} {st : Lex}
    (hstep : (Lex.hex n).step b = some st) (h : Swap (.hex n) (b :: t) t') :
    ∃ s, t' = b :: s ∧ Swap st t s := by
  cases h with
  | same hstep' h =>
    rw [hstep] at hstep'
    cases hstep'
    exact ⟨_, rfl, h⟩

theorem Swap.escape_cons {b : UInt8} {t t' : Bytes} {st : Lex}
    (hstep : Lex.escape.step b = some st) (h : Swap .escape (b :: t) t') :
    ∃ s, t' = b :: s ∧ Swap st t s := by
  cases h with
  | same hstep' h =>
    rw [hstep] at hstep'
    cases hstep'
    exact ⟨_, rfl, h⟩

theorem Swap.body {body t t' : Bytes} (hbody : isBody body = true)
    (h : Swap .inString (body ++ quote :: t) t') :
    ∃ body' s, isBody body' = true ∧ body'.length = body.length ∧ t' = body' ++ quote :: s ∧
      Swap .out t s := by
  fun_induction isBody body generalizing t' with
  | case1 =>
    obtain ⟨s, rfl, hs⟩ := h.step_cons (by decide) (by rfl)
    exact ⟨[], s, rfl, rfl, rfl, hs⟩
  | case2 b hb => cases hbody
  | case3 b hb e he h1 h2 h3 h4 rest ih =>
    simp only [Bool.and_eq_true] at hbody
    obtain ⟨⟨⟨⟨hh1, hh2⟩, hh3⟩, hh4⟩, hrest⟩ := hbody
    rw [beq_iff_eq.mp hb, beq_iff_eq.mp he] at h
    obtain ⟨s, rfl, h₁⟩ := h.step_cons (by decide) Lex.step_slash
    obtain ⟨s, rfl, h₂⟩ := h₁.escape_cons Lex.step_unicode
    obtain ⟨s, rfl, h₃⟩ := h₂.hex_cons (Lex.step_hex hh1 2).1
    obtain ⟨s, rfl, h₄⟩ := h₃.hex_cons (Lex.step_hex hh2 1).1
    obtain ⟨s, rfl, h₅⟩ := h₄.hex_cons (Lex.step_hex hh3 0).1
    obtain ⟨s, rfl, h₆⟩ := h₅.hex_cons (Lex.step_hex hh4 0).2
    obtain ⟨body', s, hbody', hlen, rfl, hs⟩ := ih hrest h₆
    refine ⟨backslash :: 0x75 :: h1 :: h2 :: h3 :: h4 :: body', s, ?_, ?_, rfl, hs⟩
    · simp [isBody, hh1, hh2, hh3, hh4, hbody']
    · simp [hlen]
  | case4 b hb e rest he hshort => cases hbody
  | case5 b hb e rest he ih =>
    rw [Bool.and_eq_true] at hbody
    rw [beq_iff_eq.mp hb] at h
    obtain ⟨s, rfl, h₁⟩ := h.step_cons (by decide) Lex.step_slash
    obtain ⟨s, rfl, h₂⟩ := h₁.escape_cons (Lex.step_escape hbody.1)
    obtain ⟨body', s, hbody', hlen, rfl, hs⟩ := ih hbody.2 h₂
    refine ⟨backslash :: e :: body', s, ?_, by simp [hlen], rfl, hs⟩
    rw [isBody.eq_def]
    simp [he, hbody.1, hbody']
  | case6 b rest hb ih =>
    have hcontrol : Lex.isPlain b = true := by
      simp only [Bool.and_eq_true, bne_iff_ne, decide_eq_true_eq] at hbody
      simpa [Lex.isPlain, hbody.1.1, hbody.1.2] using hb
    rw [Bool.and_eq_true] at hbody
    have hnext : ∃ b' s, Lex.isPlain b' = true ∧ t' = b' :: s ∧
        Swap .inString (rest ++ quote :: t) s := by
      cases h with
      | same hstep h =>
        rw [Lex.step_plain hcontrol] at hstep
        cases hstep
        exact ⟨b, _, hcontrol, rfl, h⟩
      | @plain _ b' _ _ _ hb' h => exact ⟨b', _, hb', rfl, h⟩
    obtain ⟨b', s, hb', rfl, hnext⟩ := hnext
    obtain ⟨body', s, hbody', hlen, rfl, hs⟩ := ih hbody.2 hnext
    refine ⟨b' :: body', s, ?_, by simp [hlen], rfl, hs⟩
    simp only [Lex.isPlain, Bool.and_eq_true, bne_iff_ne, decide_eq_true_eq] at hb'
    rw [isBody.eq_def]
    simp [hb'.1.1, hb'.1.2, hb'.2, hbody']

theorem Swap.string (body : Body) {t t' : Bytes} (h : Swap .out (renderString body ++ t) t') :
    ∃ body' : Body, ∃ s, body'.1.length = body.1.length ∧ t' = renderString body' ++ s ∧
      Swap .out t s := by
  simp only [renderString, List.cons_append, List.append_assoc, List.nil_append] at h
  obtain ⟨s, rfl, h₁⟩ := h.step_cons (by decide) (show Lex.out.step quote = some .inString from rfl)
  obtain ⟨body', s, hbody', hlen, rfl, hs⟩ := h₁.body body.2
  exact ⟨⟨body', hbody'⟩, s, hlen, by simp [renderString], hs⟩

def Text.isNull : {k : Kind} → Text k → Bool
  | _, .scalar t => t.1 == ascii "null"
  | _, _ => false

theorem Swap.head (head : Head) {t t' : Bytes} (h : Swap .out (head.render ++ t) t') :
    ∃ head' : Head, ∃ s, head'.render.length = head.render.length ∧ t' = head'.render ++ s ∧
      Swap .out t s := by
  simp only [Head.render, List.append_assoc, List.cons_append] at h
  obtain ⟨s, rfl, h₁⟩ := Swap.space head.pre h
  obtain ⟨key, s, hlen, rfl, h₂⟩ := Swap.string head.key h₁
  obtain ⟨s, rfl, h₃⟩ := Swap.space head.mid h₂
  obtain ⟨s, rfl, h₄⟩ := h₃.byte (by decide)
  obtain ⟨s, rfl, h₅⟩ := Swap.space head.gap h₄
  refine ⟨{ head with key := key }, s, ?_, ?_, h₅⟩
  · simp [Head.render, renderString, hlen]
  · simp [Head.render]

/-- The exchange turns a tree's text into that of a tree of the same shape. -/
theorem Swap.text {k : Kind} (c : Text k) {t t' : Bytes} (h : Swap .out (c.render ++ t) t') :
    ∃ c' : Text k, ∃ s, c'.render.length = c.render.length ∧ c'.isNull = c.isNull ∧
      t' = c'.render ++ s ∧ Swap .out t s := by
  induction c generalizing t t' with
  | scalar x =>
    obtain ⟨s, rfl, h₁⟩ := h.outside fun b hb =>
      Lex.scalar_outside (List.all_eq_true.mp (scalar_bytes x).1 b hb)
    exact ⟨.scalar x, s, rfl, rfl, rfl, h₁⟩
  | string body =>
    obtain ⟨body', s, hlen, rfl, h₁⟩ := Swap.string body h
    exact ⟨.string body', s, by simp [Text.render, renderString, hlen], rfl, rfl, h₁⟩
  | emptyArray ws =>
    simp only [Text.render, List.cons_append, List.append_assoc, List.nil_append] at h
    obtain ⟨s, rfl, h₁⟩ := h.byte (by decide)
    obtain ⟨s, rfl, h₂⟩ := Swap.space ws h₁
    obtain ⟨s, rfl, h₃⟩ := h₂.byte (by decide)
    exact ⟨.emptyArray ws, s, rfl, rfl, by simp [Text.render], h₃⟩
  | array items ih =>
    obtain ⟨s, rfl, h₁⟩ := h.byte (by decide)
    obtain ⟨items', s, hlen, -, rfl, h₂⟩ := ih h₁
    exact ⟨.array items', s, by simp [Text.render, hlen], rfl, rfl, h₂⟩
  | emptyObject ws =>
    simp only [Text.render, List.cons_append, List.append_assoc, List.nil_append] at h
    obtain ⟨s, rfl, h₁⟩ := h.byte (by decide)
    obtain ⟨s, rfl, h₂⟩ := Swap.space ws h₁
    obtain ⟨s, rfl, h₃⟩ := h₂.byte (by decide)
    exact ⟨.emptyObject ws, s, rfl, rfl, by simp [Text.render], h₃⟩
  | object members ih =>
    obtain ⟨s, rfl, h₁⟩ := h.byte (by decide)
    obtain ⟨members', s, hlen, -, rfl, h₂⟩ := ih h₁
    exact ⟨.object members', s, by simp [Text.render, hlen], rfl, rfl, h₂⟩
  | lastItem pre v post ih =>
    simp only [Text.render, List.append_assoc] at h
    obtain ⟨s, rfl, h₁⟩ := Swap.space pre h
    obtain ⟨v', s, hlen, -, rfl, h₂⟩ := ih h₁
    obtain ⟨s, rfl, h₃⟩ := Swap.space post h₂
    obtain ⟨s, rfl, h₄⟩ := h₃.byte (by decide)
    exact ⟨.lastItem pre v' post, s, by simp [Text.render, hlen], rfl, by simp [Text.render], h₄⟩
  | item pre v post rest ihv ihrest =>
    simp only [Text.render, List.append_assoc, List.cons_append] at h
    obtain ⟨s, rfl, h₁⟩ := Swap.space pre h
    obtain ⟨v', s, hlen, -, rfl, h₂⟩ := ihv h₁
    obtain ⟨s, rfl, h₃⟩ := Swap.space post h₂
    obtain ⟨s, rfl, h₄⟩ := h₃.byte (by decide)
    obtain ⟨rest', s, hlen', -, rfl, h₅⟩ := ihrest h₄
    exact ⟨.item pre v' post rest', s, by simp [Text.render, hlen, hlen'], rfl,
      by simp [Text.render], h₅⟩
  | lastMember head v post ih =>
    simp only [Text.render, List.append_assoc] at h
    obtain ⟨head', s, hhead, rfl, h₁⟩ := Swap.head head h
    obtain ⟨v', s, hlen, -, rfl, h₂⟩ := ih h₁
    obtain ⟨s, rfl, h₃⟩ := Swap.space post h₂
    obtain ⟨s, rfl, h₄⟩ := h₃.byte (by decide)
    exact ⟨.lastMember head' v' post, s, by simp [Text.render, hhead, hlen], rfl,
      by simp [Text.render], h₄⟩
  | member head v post rest ihv ihrest =>
    simp only [Text.render, List.append_assoc, List.cons_append] at h
    obtain ⟨head', s, hhead, rfl, h₁⟩ := Swap.head head h
    obtain ⟨v', s, hlen, -, rfl, h₂⟩ := ihv h₁
    obtain ⟨s, rfl, h₃⟩ := Swap.space post h₂
    obtain ⟨s, rfl, h₄⟩ := h₃.byte (by decide)
    obtain ⟨rest', s, hlen', -, rfl, h₅⟩ := ihrest h₄
    exact ⟨.member head' v' post rest', s, by simp [Text.render, hhead, hlen, hlen'], rfl,
      by simp [Text.render], h₅⟩

end Lib.JsonText
