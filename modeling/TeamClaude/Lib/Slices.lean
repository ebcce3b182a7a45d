import Mathlib.Data.List.Infix
import Mathlib.Data.List.TakeWhile

/-!
# Slices of a text

White space off both ends, a text in front cut off, a split at the last separator, and the bytes of
a text.
-/

namespace Lib

def isWhiteSpace (c : Char) : Bool :=
  let n := c.toNat
  (0x9 ≤ n && n ≤ 0xD) || n == 0x20 || n == 0x85 || n == 0xA0 || n == 0x1680 ||
    (0x2000 ≤ n && n ≤ 0x200A) || n == 0x2028 || n == 0x2029 || n == 0x202F || n == 0x205F ||
    n == 0x3000

/-- `str::trim` -/
def trimSpace (text : List Char) : List Char :=
  ((text.dropWhile isWhiteSpace).reverse.dropWhile isWhiteSpace).reverse

/-- `str::rsplit_once` -/
def rsplitOnce (sep : Char) : List Char → Option (List Char × List Char)
  | [] => none
  | c :: text =>
    match rsplitOnce sep text with
    | some (front, back) => some (c :: front, back)
    | none => if c = sep then some ([], text) else none

/-- `str::as_bytes` -/
def asBytes (text : List Char) : List UInt8 :=
  text.flatMap String.utf8EncodeChar

def getTo {α : Type*} (n : Nat) (items : List α) : Option {front : List α // front.length = n} :=
  if h : n ≤ items.length then some ⟨items.take n, List.length_take_of_le h⟩ else none

def getFrom {α : Type*} (n : Nat) (items : List α) : Option (List α) :=
  if n ≤ items.length then some (items.drop n) else none

variable {front back text : List Char}

theorem forall_mem_of_all {α : Type*} {p : α → Prop} [DecidablePred p] {items : List α}
    (h : items.all (p ·) = true) : ∀ a ∈ items, p a :=
  fun a ha => of_decide_eq_true (List.all_eq_true.mp h a ha)

theorem drop_while_head {p : Char → Bool} (h : ∀ c ∈ text.head?, p c = false) :
    text.dropWhile p = text := by
  cases text with
  | nil => rfl
  | cons c text => rw [List.dropWhile_cons, if_neg (by rw [h c rfl]; exact Bool.false_ne_true)]

/-- White space around a text that neither starts nor ends with any is trimmed. -/
theorem trim_space_around (hfront : ∀ c ∈ front, isWhiteSpace c = true)
    (hback : ∀ c ∈ back, isWhiteSpace c = true) (hfirst : ∀ c ∈ text.head?, isWhiteSpace c = false)
    (hlast : ∀ c ∈ text.getLast?, isWhiteSpace c = false) :
    trimSpace (front ++ (text ++ back)) = text := by
  unfold trimSpace
  rw [List.dropWhile_append_of_pos hfront]
  cases text with
  | nil =>
    rw [List.nil_append, List.dropWhile_eq_nil_iff.mpr hback]
    rfl
  | cons c more =>
    have hkeep : ((c :: more) ++ back).dropWhile isWhiteSpace = (c :: more) ++ back :=
      drop_while_head hfirst
    rw [hkeep, List.reverse_append, List.dropWhile_append_of_pos fun a ha =>
      hback a (List.mem_reverse.mp ha)]
    rw [← List.head?_reverse] at hlast
    rw [drop_while_head hlast, List.reverse_reverse]

theorem trim_space_none (htext : ∀ c ∈ text, isWhiteSpace c = false) : trimSpace text = text := by
  have hnone : ∀ c ∈ ([] : List Char), isWhiteSpace c = true := fun _ h => nomatch h
  have h := trim_space_around hnone hnone (fun c hc => htext c (List.mem_of_mem_head? hc))
    (fun c hc => htext c (List.mem_of_mem_getLast? hc))
  rwa [List.nil_append, List.append_nil] at h

theorem rsplit_once_none {sep : Char} (h : sep ∉ text) : rsplitOnce sep text = none := by
  induction text with
  | nil => rfl
  | cons c text ih =>
    rw [List.mem_cons, not_or] at h
    rw [rsplitOnce, ih h.2]
    exact if_neg (Ne.symm h.1)

/-- A text without the separator is what stands behind the last one. -/
theorem rsplit_once_append {sep : Char} (h : sep ∉ back) (front : List Char) :
    rsplitOnce sep (front ++ sep :: back) = some (front, back) := by
  induction front with
  | nil =>
    rw [List.nil_append, rsplitOnce, rsplit_once_none h]
    exact if_pos rfl
  | cons c front ih => rw [List.cons_append, rsplitOnce, ih]

/-- `str::strip_prefix`, when it strips. -/
theorem strip_front_some {α : Type*} [BEq α] [LawfulBEq α] {front text rest : List α}
    (h : front.isPrefixOf? text = some rest) : text = front ++ rest := by
  induction front generalizing text with
  | nil =>
    cases h
    rfl
  | cons a front ih =>
    cases text with
    | nil => cases h
    | cons b text =>
      rw [List.isPrefixOf?] at h
      split at h
      · rename_i hab
        rw [ih h, eq_of_beq hab]
        rfl
      · cases h

@[simp] theorem strip_front_append {α : Type*} [BEq α] [ReflBEq α] (front rest : List α) :
    front.isPrefixOf? (front ++ rest) = some rest := by
  induction front with
  | nil => rfl
  | cons a front ih => rw [List.cons_append, List.isPrefixOf?, if_pos (BEq.refl a), ih]

@[simp] theorem as_bytes_inj {other : List Char} : asBytes text = asBytes other ↔ text = other := by
  constructor
  · intro h
    refine String.ofList_injective (String.toByteArray_inj.mp ?_)
    rw [String.toByteArray_ofList, String.toByteArray_ofList]
    exact congrArg List.toByteArray h
  · exact congrArg asBytes

theorem as_bytes_length (h : ∀ c ∈ text, c.utf8Size = 1) : (asBytes text).length = text.length := by
  induction text with
  | nil => rfl
  | cons c text ih =>
    rw [asBytes, List.flatMap_cons, List.length_append, String.length_utf8EncodeChar,
      h c List.mem_cons_self, List.length_cons, Nat.add_comm]
    exact congrArg (· + 1) (ih fun c hc => h c (List.mem_cons_of_mem _ hc))

section
variable {α : Type*} {n : Nat}

theorem get_to_append (front : {front : List α // front.length = n}) (back : List α) :
    getTo n (front.1 ++ back) = some front := by
  have hle : n ≤ (front.1 ++ back).length := by
    rw [List.length_append, front.2]
    exact Nat.le_add_right _ _
  rw [getTo, dif_pos hle]
  exact congrArg some (Subtype.ext (List.take_left' front.2))

theorem get_from_append {front : List α} (hfront : front.length = n) (back : List α) :
    getFrom n (front ++ back) = some back := by
  have hle : n ≤ (front ++ back).length := by
    rw [List.length_append, hfront]
    exact Nat.le_add_right _ _
  rw [getFrom, if_pos hle, List.drop_left' hfront]

/-- The two slices at a place are the whole. -/
theorem get_some {items back : List α} {front : {front : List α // front.length = n}}
    (hfront : getTo n items = some front) (hback : getFrom n items = some back) :
    items = front.1 ++ back := by
  unfold getTo at hfront
  unfold getFrom at hback
  split at hfront
  · rename_i hle
    rw [if_pos hle] at hback
    cases hfront
    cases hback
    exact (List.take_append_drop n items).symm
  · cases hfront

end

end Lib
