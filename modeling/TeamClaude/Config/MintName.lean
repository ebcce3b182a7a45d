import TeamClaude.Lib.Numeral
import Mathlib.Data.Finset.Card
import Mathlib.Data.Finset.Image
import Mathlib.Data.List.DropRight

/-!
# Minted names

An account's name is its email, with the organisation behind a separator where the email is taken,
and a number behind that where the two are taken together. The email is read back from the name.
-/

namespace TeamClaude

def orgSeparator : Char := '/'

/-- The part of a name in front of the first separator. -/
def emailOf (name : String) : String :=
  String.ofList (name.toList.takeWhile (· ≠ orgSeparator))

/-- One character of an organisation's name, behind the slug so far. -/
def slugChar (slug : List Char) (ch : Char) : List Char :=
  if ch.isAlphanum then slug ++ [ch.toLower]
  else if slug.getLast? = some '-' then slug
  else slug ++ ['-']

def orgSlug (orgName : String) : String :=
  let slug := orgName.toList.foldl slugChar []
  String.ofList ((slug.dropWhile (· = '-')).rdropWhile (· = '-'))

/-- The slug of the organisation's name, or the front of its id. -/
def orgSuffix (orgName orgUuid : Option String) : Option String :=
  ((orgName.map orgSlug).filter (· ≠ "")).or
    ((orgUuid.map fun uuid => String.ofList (uuid.toList.take 8)).filter (· ≠ ""))

/-- The name in front of the numbers. -/
def mintBase (email : String) (orgName orgUuid : Option String) : String :=
  match orgSuffix orgName orgUuid with
  | some suffix => email ++ String.singleton orgSeparator ++ suffix
  | none => email

def numberedName (base : String) (n : Int32) : String :=
  base ++ "-" ++ n.toInt.repr

/-- The loop over the numbers, for so many rounds. The counter is an `i32`, which a release build
wraps. -/
def firstFree (base : String) (taken : Finset String) : Nat → Int32 → Option String
  | 0, _ => none
  | rounds + 1, n =>
    let candidate := numberedName base n
    if candidate ∈ taken then firstFree base taken rounds (n + 1) else some candidate

/-- `mint_name`, its loop cut off after so many rounds. -/
def mintNameWithin (rounds : Nat) (email : String) (orgName orgUuid : Option String)
    (taken : Finset String) : Option String :=
  if email ∉ taken then some email
  else
    let base := mintBase email orgName orgUuid
    if base ∉ taken then some base else firstFree base taken rounds 2

/-- `mint_name`; nothing when the loop never ends. After `2 ^ 32` rounds the counter is back where
it began. -/
def mintName (email : String) (orgName orgUuid : Option String) (taken : Finset String) :
    Option String :=
  mintNameWithin 4294967296 email orgName orgUuid taken

/-! ## The loop -/

variable {base email name : String} {orgName orgUuid : Option String} {taken : Finset String}
  {rounds : Nat}

theorem int_repr_inj {n m : Int} (h : n.repr = m.repr) : n = m := by
  have hsign : ∀ k : Nat, '-' ∉ k.repr.toList := by
    intro k
    rw [Nat.toList_repr]
    exact Lib.not_mem_to_digits (by decide) (by decide) (by decide)
  have hnat : ∀ {k l : Nat}, k.repr = l.repr → k = l := by
    intro k l heq
    have hlist := congrArg String.toList heq
    rw [Nat.toList_repr, Nat.toList_repr] at hlist
    exact Lib.to_digits_inj (by decide) (by decide) hlist
  have hneg : ∀ k : Nat, (Int.negSucc k).repr = "-" ++ (k + 1).repr := fun _ => rfl
  have hhead : ∀ k : Nat, '-' ∈ (Int.negSucc k).repr.toList := by
    intro k
    rw [hneg, String.toList_append]
    exact List.mem_append_left _ (by decide)
  cases n with
  | ofNat k =>
    cases m with
    | ofNat l => exact congrArg Int.ofNat (hnat h)
    | negSucc l =>
      have hmem := hhead l
      rw [← h] at hmem
      exact absurd hmem (hsign k)
  | negSucc k =>
    cases m with
    | ofNat l =>
      have hmem := hhead k
      rw [h] at hmem
      exact absurd hmem (hsign l)
    | negSucc l =>
      rw [hneg, hneg] at h
      have hlist := congrArg String.toList h
      rw [String.toList_append, String.toList_append] at hlist
      have hsucc := hnat (String.toList_inj.mp (List.append_cancel_left hlist))
      rw [Nat.succ.inj hsucc]

theorem numbered_name_inj {n m : Int32} (h : numberedName base n = numberedName base m) :
    n = m := by
  have hrepr : n.toInt.repr = m.toInt.repr := by
    have hlist := congrArg String.toList h
    simp only [numberedName, String.toList_append, List.append_assoc] at hlist
    exact String.toList_inj.mp (List.append_cancel_left (List.append_cancel_left hlist))
  exact Int32.toInt_inj.mp (int_repr_inj hrepr)

theorem first_free_some {n : Int32} (h : firstFree base taken rounds n = some name) :
    ∃ m, name = numberedName base m ∧ name ∉ taken := by
  induction rounds generalizing n with
  | zero => cases h
  | succ rounds ih =>
    rw [firstFree] at h
    split at h
    · exact ih h
    · rename_i hfree
      obtain rfl := Option.some.inj h
      exact ⟨n, rfl, hfree⟩

theorem first_free_none {n : Int32} : firstFree base taken rounds n = none ↔
    ∀ k < rounds, numberedName base (n + Int32.ofNat k) ∈ taken := by
  induction rounds generalizing n with
  | zero => exact ⟨fun _ k hk => absurd hk (Nat.not_lt_zero k), fun _ => rfl⟩
  | succ rounds ih =>
    have hsucc : ∀ k, n + 1 + Int32.ofNat k = n + Int32.ofNat (k + 1) := by
      intro k
      rw [Int32.ofNat_add, Int32.add_assoc, Int32.add_comm 1]
      rfl
    have hzero : n + Int32.ofNat 0 = n := Int32.add_zero n
    rw [firstFree]
    split
    · rename_i htaken
      rw [ih]
      constructor
      · intro h k hk
        cases k with
        | zero =>
          rw [hzero]
          exact htaken
        | succ k =>
          rw [← hsucc]
          exact h k (by omega)
      · intro h k hk
        rw [hsucc]
        exact h (k + 1) (by omega)
    · rename_i hfree
      constructor
      · intro h
        cases h
      · intro h
        have htaken := h 0 (Nat.succ_pos rounds)
        rw [hzero] at htaken
        exact absurd htaken hfree

/-- Every number is reached before the counter is back at the first one. -/
theorem number_reached (n m : Int32) : ∃ k < 4294967296, m = n + Int32.ofNat k := by
  refine ⟨(m - n).toBitVec.toNat, (m - n).toBitVec.isLt, ?_⟩
  have hback : Int32.ofNat (m - n).toBitVec.toNat = m - n := by
    apply Int32.toBitVec_inj.mp
    show BitVec.ofNat 32 (m - n).toBitVec.toNat = (m - n).toBitVec
    rw [BitVec.ofNat_toNat, BitVec.setWidth_eq]
  rw [hback, Int32.add_comm, Int32.sub_add_cancel]

/-- A loop that has been through all numbers goes on for ever. -/
theorem first_free_spins {n : Int32} (h : firstFree base taken 4294967296 n = none) :
    ∀ rounds, firstFree base taken rounds n = none := by
  intro rounds
  rw [first_free_none] at h ⊢
  intro k _
  obtain ⟨j, hj, heq⟩ := number_reached n (n + Int32.ofNat k)
  rw [heq]
  exact h j hj

/-! ## The email of a name -/

theorem int_repr_chars (n : Int) : orgSeparator ∉ n.repr.toList := by
  have hnat : ∀ k : Nat, orgSeparator ∉ k.repr.toList := by
    intro k
    rw [Nat.toList_repr]
    exact Lib.not_mem_to_digits (by decide) (by decide) (by decide)
  cases n with
  | ofNat k => exact hnat k
  | negSucc k =>
    show orgSeparator ∉ ("-" ++ (k + 1).repr).toList
    rw [String.toList_append, List.mem_append, not_or]
    exact ⟨by decide, hnat (k + 1)⟩

theorem email_of_bare (h : orgSeparator ∉ name.toList) : emailOf name = name := by
  have hall : name.toList.takeWhile (· ≠ orgSeparator) = name.toList := by
    rw [List.takeWhile_eq_self_iff]
    intro c hc
    exact decide_eq_true fun heq => h (heq ▸ hc)
  rw [emailOf, hall, String.ofList_toList]

theorem email_of_qualified (h : orgSeparator ∉ email.toList) (rest : String) :
    emailOf (email ++ String.singleton orgSeparator ++ rest) = email := by
  have htake : (email ++ String.singleton orgSeparator ++ rest).toList.takeWhile
      (· ≠ orgSeparator) = email.toList := by
    rw [String.toList_append, String.toList_append, List.append_assoc, List.takeWhile_append_of_pos]
    · rw [String.toList_singleton, List.singleton_append, List.takeWhile_cons_of_neg (by simp),
        List.append_nil]
    · intro c hc
      exact decide_eq_true fun heq => h (heq ▸ hc)
  rw [emailOf, htake, String.ofList_toList]

/-- A name behind an organisation is its email's, whatever number follows. -/
theorem email_of_numbered (h : orgSeparator ∉ email.toList) {suffix : String} (n : Int32) :
    emailOf (numberedName (email ++ String.singleton orgSeparator ++ suffix) n) = email := by
  have hname : numberedName (email ++ String.singleton orgSeparator ++ suffix) n =
      email ++ String.singleton orgSeparator ++ (suffix ++ "-" ++ n.toInt.repr) := by
    simp only [numberedName, String.append_assoc]
  rw [hname]
  exact email_of_qualified h _

theorem email_of_bare_numbered (h : orgSeparator ∉ email.toList) (n : Int32) :
    emailOf (numberedName email n) = numberedName email n := by
  apply email_of_bare
  rw [numberedName, String.toList_append, String.toList_append, List.mem_append, List.mem_append,
    not_or, not_or]
  exact ⟨⟨h, by decide⟩, int_repr_chars n.toInt⟩

/-! ## The name minted -/

/-- What can be minted: the email, the name in front of the numbers, or a numbered one. -/
inductive MintCandidate (email : String) (orgName orgUuid : Option String) : String → Prop
  | bare : MintCandidate email orgName orgUuid email
  | base : MintCandidate email orgName orgUuid (mintBase email orgName orgUuid)
  | numbered (n : Int32) :
      MintCandidate email orgName orgUuid (numberedName (mintBase email orgName orgUuid) n)

theorem mint_name_within : mintNameWithin rounds email orgName orgUuid taken =
    if email ∉ taken then some email
    else if mintBase email orgName orgUuid ∉ taken then some (mintBase email orgName orgUuid)
    else firstFree (mintBase email orgName orgUuid) taken rounds 2 :=
  rfl

theorem mint_name_cases (h : mintNameWithin rounds email orgName orgUuid taken = some name) :
    name ∉ taken ∧ (name = email ∨ email ∈ taken ∧ (name = mintBase email orgName orgUuid ∨
      ∃ n, name = numberedName (mintBase email orgName orgUuid) n)) := by
  rw [mint_name_within] at h
  split at h
  · rename_i hfree
    obtain rfl := Option.some.inj h
    exact ⟨hfree, .inl rfl⟩
  · rename_i htaken
    have hemail := not_not.mp htaken
    split at h
    · rename_i hfree
      obtain rfl := Option.some.inj h
      exact ⟨hfree, .inr ⟨hemail, .inl rfl⟩⟩
    · obtain ⟨n, heq, hfree⟩ := first_free_some h
      exact ⟨hfree, .inr ⟨hemail, .inr ⟨n, heq⟩⟩⟩

/-- The loop never ends exactly where every candidate is taken. -/
theorem mint_name_none : mintName email orgName orgUuid taken = none ↔
    ∀ c, MintCandidate email orgName orgUuid c → c ∈ taken := by
  rw [mintName, mint_name_within]
  constructor
  · intro h
    split at h
    · cases h
    · rename_i hemail
      split at h
      · cases h
      · rename_i hbase
        intro c hc
        cases hc with
        | bare => exact not_not.mp hemail
        | base => exact not_not.mp hbase
        | numbered n =>
          obtain ⟨k, hk, heq⟩ := number_reached 2 n
          rw [heq]
          exact first_free_none.mp h k hk
  · intro h
    rw [if_neg (not_not.mpr (h _ .bare)), if_neg (not_not.mpr (h _ .base)), first_free_none]
    exact fun k _ => h _ (.numbered _)

theorem mint_name_spins (h : mintName email orgName orgUuid taken = none) (rounds : Nat) :
    mintNameWithin rounds email orgName orgUuid taken = none := by
  rw [mintName, mint_name_within] at h
  rw [mint_name_within]
  split at h
  · cases h
  · rename_i hemail
    rw [if_neg hemail]
    split at h
    · cases h
    · rename_i hbase
      rw [if_neg hbase]
      exact first_free_spins h rounds

/-- There are more candidates than names in a set below `2 ^ 32`. -/
theorem mint_name_small (h : taken.card < 4294967296) :
    (mintName email orgName orgUuid taken).isSome = true := by
  rw [← Option.ne_none_iff_isSome]
  intro hnone
  have hall := mint_name_none.mp hnone
  have hinj : Set.InjOn (fun k => numberedName (mintBase email orgName orgUuid) (Int32.ofNat k))
      (Finset.range 4294967296) := by
    intro i hi j hj heq
    have hbits := congrArg (fun n : Int32 => n.toBitVec.toNat) (numbered_name_inj heq)
    have hmod : i % 4294967296 = j % 4294967296 := hbits
    rw [Finset.mem_coe, Finset.mem_range] at hi hj
    rwa [Nat.mod_eq_of_lt hi, Nat.mod_eq_of_lt hj] at hmod
  have hsub : (Finset.range 4294967296).image (fun k =>
      numberedName (mintBase email orgName orgUuid) (Int32.ofNat k)) ⊆ taken := by
    intro c hc
    obtain ⟨k, -, rfl⟩ := Finset.mem_image.mp hc
    exact hall _ (.numbered _)
  have hle := Finset.card_le_card hsub
  rw [Finset.card_image_of_injOn hinj, Finset.card_range] at hle
  omega

theorem mint_name_email (hemail : orgSeparator ∉ email.toList)
    (hname : name = email ∨ name = mintBase email orgName orgUuid ∨
      ∃ n, name = numberedName (mintBase email orgName orgUuid) n)
    (hsuffix : name = email ∨ (orgSuffix orgName orgUuid).isSome = true) :
    emailOf name = email := by
  rcases hsuffix with rfl | hsuffix
  · exact email_of_bare hemail
  obtain ⟨suffix, hs⟩ := Option.isSome_iff_exists.mp hsuffix
  have hbase : mintBase email orgName orgUuid =
      email ++ String.singleton orgSeparator ++ suffix := by
    rw [mintBase, hs]
  rw [hbase] at hname
  rcases hname with rfl | rfl | ⟨n, rfl⟩
  · exact email_of_bare hemail
  · exact email_of_qualified hemail suffix
  · exact email_of_numbered hemail n

/-- The call returns exactly where some candidate is free, which it is beside fewer than `2 ^ 32`
names. What it returns is free, and its email is read back from it if the email was free or the
organisation is known; otherwise the name is the email with a number, and all of it is read back. -/
theorem mint_name_fresh (email : String) (hemail : orgSeparator ∉ email.toList)
    (orgName orgUuid : Option String) (taken : Finset String) :
    ((∃ rounds name, mintNameWithin rounds email orgName orgUuid taken = some name) ↔
      ∃ c, MintCandidate email orgName orgUuid c ∧ c ∉ taken) ∧
    (taken.card < 4294967296 → (mintName email orgName orgUuid taken).isSome = true) ∧
    ∀ rounds name, mintNameWithin rounds email orgName orgUuid taken = some name →
      name ∉ taken ∧
      (email ∉ taken ∨ (orgSuffix orgName orgUuid).isSome = true → emailOf name = email) ∧
      (email ∈ taken → orgSuffix orgName orgUuid = none →
        emailOf name = name ∧ ∃ n, name = numberedName email n) := by
  refine ⟨⟨?_, ?_⟩, mint_name_small, ?_⟩
  · rintro ⟨rounds, name, h⟩
    obtain ⟨hfree, rfl | ⟨-, rfl | ⟨n, rfl⟩⟩⟩ := mint_name_cases h
    · exact ⟨_, .bare, hfree⟩
    · exact ⟨_, .base, hfree⟩
    · exact ⟨_, .numbered n, hfree⟩
  · rintro ⟨c, hc, hfree⟩
    have hsome : mintName email orgName orgUuid taken ≠ none :=
      fun hnone => hfree (mint_name_none.mp hnone c hc)
    obtain ⟨name, h⟩ := Option.ne_none_iff_exists'.mp hsome
    exact ⟨_, name, h⟩
  · intro rounds name h
    obtain ⟨hfree, hcases⟩ := mint_name_cases h
    refine ⟨hfree, fun hback => ?_, fun htaken hnone => ?_⟩
    · apply mint_name_email hemail (hcases.imp_right And.right)
      rcases hcases with heq | ⟨htaken, -⟩
      · exact .inl heq
      · exact .inr (hback.resolve_left (not_not.mpr htaken))
    · have hbase : mintBase email orgName orgUuid = email := by
        rw [mintBase, hnone]
      rw [hbase] at hcases
      rcases hcases with rfl | ⟨-, rfl | ⟨n, rfl⟩⟩
      · exact absurd htaken hfree
      · exact absurd htaken hfree
      · exact ⟨email_of_bare_numbered hemail n, n, rfl⟩

/-- A second organisation of one person. -/
theorem mint_name_fresh_acme :
    emailOf "me@example.com/acme" = "me@example.com" :=
  ((mint_name_fresh "me@example.com" (by decide +kernel) (some "Acme, ") none
    {"me@example.com"}).2.2 1 "me@example.com/acme" (by decide +kernel)).2.1
    (.inr (by decide +kernel))

/-- Without an organisation the number becomes part of what is read back; and a set of all the names
that can be minted is never left. -/
theorem mint_name_bare :
    (mintName "me@example.com" none none {"me@example.com"} = some "me@example.com-2" ∧
      emailOf "me@example.com-2" ≠ "me@example.com") ∧
    ∃ taken : Finset String, ∀ rounds,
      mintNameWithin rounds "me@example.com" none none taken = none := by
  refine ⟨⟨by decide +kernel, by decide +kernel⟩, ?_⟩
  refine ⟨insert "me@example.com" ((Finset.range 4294967296).image fun k =>
    numberedName "me@example.com" (Int32.ofNat k)), mint_name_spins (mint_name_none.mpr ?_)⟩
  intro c hc
  cases hc with
  | bare => exact Finset.mem_insert_self _ _
  | base => exact Finset.mem_insert_self _ _
  | numbered n =>
    obtain ⟨k, hk, rfl⟩ := number_reached 0 n
    rw [Int32.zero_add]
    exact Finset.mem_insert_of_mem (Finset.mem_image.mpr ⟨k, Finset.mem_range.mpr hk, rfl⟩)

end TeamClaude
