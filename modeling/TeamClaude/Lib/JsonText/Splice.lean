import TeamClaude.Lib.JsonText.Syntax

/-!
# Splices

Edits of a run of bytes, each a span of the old bytes and the text that takes its place, and what
is left alone between them.
-/

namespace Lib.JsonText

/-- Replace the bytes from `start` to `stop` with `text`. -/
structure Splice where
  start : Nat
  stop : Nat
  text : Bytes

/-- The bytes from one offset to another, when both are in the text. -/
def slice (t : Bytes) (i j : Nat) : Option Bytes :=
  if i ≤ j ∧ j ≤ t.length then some ((t.drop i).take (j - i)) else none

/-- The body copied from an offset on, with the splices applied. -/
def applyFrom (body : Bytes) : Nat → List Splice → Option Bytes
  | copied, [] => slice body copied body.length
  | copied, s :: ss => do
    let kept ← slice body copied s.start
    let rest ← applyFrom body s.stop ss
    return kept ++ s.text ++ rest

/-- The splices turn the text at an offset into the other: between them, and around them, the bytes
are the same. -/
inductive Patches : Nat → Bytes → List Splice → Bytes → Prop
  | keep (off : Nat) (t : Bytes) : Patches off t [] t
  | cut {off : Nat} {pre old new rest out : Bytes} {ss : List Splice}
      (h : Patches (off + pre.length + old.length) rest ss out) :
      Patches off (pre ++ old ++ rest)
        ({ start := off + pre.length, stop := off + pre.length + old.length, text := new } :: ss)
        (pre ++ new ++ out)

theorem Patches.append {off : Nat} {a a' b b' : Bytes} {ss ts : List Splice}
    (ha : Patches off a ss a') (hb : Patches (off + a.length) b ts b') :
    Patches off (a ++ b) (ss ++ ts) (a' ++ b') := by
  induction ha with
  | keep off t =>
    cases hb with
    | keep => exact .keep off (t ++ b)
    | @cut _ pre old new rest out ss h =>
      have hcut : Patches off (t ++ pre ++ old ++ rest) _ (t ++ pre ++ new ++ out) :=
        .cut (by simpa [Nat.add_assoc] using h)
      simpa [Nat.add_assoc] using hcut
  | @cut off pre old new rest out ss h ih =>
    have hrest := ih (by simpa [Nat.add_assoc] using hb)
    have hcut : Patches off (pre ++ old ++ (rest ++ b)) _ (pre ++ new ++ (out ++ b')) :=
      .cut hrest
    simpa using hcut

theorem slice_append (front mid back : Bytes) :
    slice (front ++ (mid ++ back)) front.length (front.length + mid.length) = some mid := by
  simp [slice]

/-- Applying the splices of a text that stands somewhere in the body. -/
theorem Patches.apply_from {off : Nat} {t out front : Bytes} {ss : List Splice}
    (h : Patches off t ss out) (hoff : off = front.length) :
    applyFrom (front ++ t) off ss = some out := by
  induction h generalizing front with
  | keep off t =>
    have hslice := slice_append front t []
    subst hoff
    simpa [applyFrom] using hslice
  | @cut off pre old new rest out ss h ih =>
    have hslice := slice_append front pre (old ++ rest)
    have hrest := @ih (front ++ pre ++ old) (by simp [hoff, Nat.add_assoc])
    subst hoff
    simp only [List.append_assoc] at hrest ⊢
    simp [applyFrom, hslice, hrest]

/-! ## Splices of one text -/

/-- The splices of a text at an offset, in the order they stand in it. -/
structure Edited (off : Nat) (t : Bytes) (ss : List Splice) (out : Bytes) : Prop where
  patches : Patches off t ss out
  sorted : ss.Pairwise fun a b => a.start < b.start
  inside : ∀ s ∈ ss, off ≤ s.start ∧ s.start < off + t.length

theorem Edited.keep (off : Nat) (t : Bytes) : Edited off t [] t where
  patches := .keep off t
  sorted := .nil
  inside := by simp

theorem Edited.append {off : Nat} {a a' b b' : Bytes} {ss ts : List Splice}
    (ha : Edited off a ss a') (hb : Edited (off + a.length) b ts b') :
    Edited off (a ++ b) (ss ++ ts) (a' ++ b') where
  patches := ha.patches.append hb.patches
  sorted := by
    refine List.pairwise_append.mpr ⟨ha.sorted, hb.sorted, ?_⟩
    intro s hs t ht
    exact Nat.lt_of_lt_of_le (ha.inside s hs).2 (hb.inside t ht).1
  inside := by
    intro s hs
    rw [List.length_append]
    rcases List.mem_append.mp hs with hs | hs
    · have h := ha.inside s hs
      omega
    · have h := hb.inside s hs
      omega

/-- Bytes in front of the text and behind it are kept. -/
theorem Edited.between {off : Nat} {t out : Bytes} {ss : List Splice} (pre post : Bytes)
    (h : Edited (off + pre.length) t ss out) :
    Edited off (pre ++ t ++ post) ss (pre ++ out ++ post) := by
  have hfront := (Edited.keep off pre).append h
  simpa using hfront.append (Edited.keep _ post)

/-- One splice. -/
theorem Edited.single (off : Nat) (pre old new post : Bytes) (h : old ++ post ≠ []) :
    Edited off (pre ++ old ++ post)
      [{ start := off + pre.length, stop := off + pre.length + old.length, text := new }]
      (pre ++ new ++ post) where
  patches := .cut (.keep _ post)
  sorted := List.pairwise_singleton _ _
  inside := by
    have hpos := List.length_pos_iff.mpr h
    simp only [List.mem_singleton, forall_eq, List.length_append] at hpos ⊢
    omega

/-! ## Where an offset lands -/

/-- Where an offset of the old bytes is in the new: each splice in front of it moves it. -/
def movedBy (ss : List Splice) (offset : Nat) : Nat :=
  (ss.takeWhile fun s => s.start < offset).foldl
    (fun pos s => pos + s.text.length - (s.stop - s.start)) offset

/-- What follows a text moves as the text grows or shrinks. -/
theorem Patches.moved {off : Nat} {t out : Bytes} {ss : List Splice} (h : Patches off t ss out)
    (base rest : Nat) :
    ss.foldl (fun pos s => pos + s.text.length - (s.stop - s.start)) (base + t.length + rest) =
      base + out.length + rest := by
  induction h generalizing base with
  | keep off t => rfl
  | @cut off pre old new back out ss h ih =>
    have hstep : base + (pre ++ old ++ back).length + rest + new.length -
        (off + pre.length + old.length - (off + pre.length)) =
          (base + pre.length + new.length) + back.length + rest := by
      simp only [List.length_append]
      omega
    rw [List.foldl_cons, hstep, ih]
    simp only [List.length_append]
    omega

/-- An offset behind a text and in front of the splices that follow moves with the text. -/
theorem Edited.moved {off : Nat} {t out : Bytes} {ss ts : List Splice} (h : Edited off t ss out)
    (x : Nat) (hts : ∀ s ∈ ts, off + t.length + x ≤ s.start) :
    movedBy (ss ++ ts) (off + t.length + x) = off + out.length + x := by
  have hss : ∀ s ∈ ss, decide (s.start < off + t.length + x) = true := by
    intro s hs
    have hin := (h.inside s hs).2
    exact decide_eq_true (by omega)
  have htake : ts.takeWhile (fun s => decide (s.start < off + t.length + x)) = [] := by
    cases ts with
    | nil => rfl
    | cons s ts =>
      have hle := hts s List.mem_cons_self
      exact List.takeWhile_cons_of_neg (by simpa using hle)
  rw [movedBy, List.takeWhile_append_of_pos hss, htake, List.append_nil]
  exact h.patches.moved off x

/-! ## Applying them in any order -/

/-- The splices by where they start. -/
def sortByStart (ss : List Splice) : List Splice :=
  ss.mergeSort fun a b => a.start ≤ b.start

def apply (body : Bytes) (ss : List Splice) : Option Bytes :=
  applyFrom body 0 ss

theorem start_injective {ss : List Splice} (h : ss.Pairwise fun a b => a.start < b.start)
    {a b : Splice} (ha : a ∈ ss) (hb : b ∈ ss) (heq : a.start = b.start) : a = b := by
  obtain ⟨i, hi, rfl⟩ := List.getElem_of_mem ha
  obtain ⟨j, hj, rfl⟩ := List.getElem_of_mem hb
  rw [List.pairwise_iff_getElem] at h
  rcases Nat.lt_trichotomy i j with hij | rfl | hji
  · have hlt := h i j hi hj hij
    omega
  · rfl
  · have hlt := h j i hj hi hji
    omega

/-- Splices that start at different places have one order. -/
theorem sort_of_perm {ss ts : List Splice} (hperm : ss.Perm ts)
    (hsorted : ts.Pairwise fun a b => a.start < b.start) : sortByStart ss = ts := by
  have hsort : (sortByStart ss).Perm ts := (List.mergeSort_perm ss _).trans hperm
  have hle : (sortByStart ss).Pairwise fun a b => a.start ≤ b.start := by
    have h : (ss.mergeSort fun a b => decide (a.start ≤ b.start)).Pairwise fun a b =>
        decide (a.start ≤ b.start) = true := List.pairwise_mergeSort
      (by simpa using fun a b c => Nat.le_trans) (by simpa using fun a b => Nat.le_total _ _) ss
    simpa [sortByStart] using h
  have hle' : ts.Pairwise fun a b => a.start ≤ b.start := hsorted.imp Nat.le_of_lt
  refine hsort.eq_of_pairwise ?_ hle hle'
  intro a b ha hb hab hba
  exact start_injective hsorted (hsort.mem_iff.mp ha) hb (Nat.le_antisymm hab hba)

theorem Edited.apply_sorted {body out : Bytes} {ss ts : List Splice} (h : Edited 0 body ts out)
    (hperm : ss.Perm ts) : apply body (sortByStart ss) = some out := by
  rw [sort_of_perm hperm h.sorted]
  have happly : applyFrom ([] ++ body) 0 ts = some out := h.patches.apply_from rfl
  exact happly

end Lib.JsonText
