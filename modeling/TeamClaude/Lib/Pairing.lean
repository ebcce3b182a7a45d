import Mathlib.Logic.Relation
import Mathlib.Data.Set.Insert
import Mathlib.Logic.Equiv.Defs

/-!
# Pairing by mutual choice

Two sides are paired by a loose and a strict relation. A candidate is picked when it is the only
loose match still free, or the only strict one; a pair is ready when each side picks the other, and
a ready pair may be committed. Committing one ready pair leaves every other ready pair ready, so
the pairs committed in the end do not depend on the order of the commitments.
-/

namespace Lib.Pairing

variable {α β : Type*}

/-! ## Picking -/

def Only (s : Set β) (b : β) : Prop :=
  b ∈ s ∧ ∀ b' ∈ s, b' = b

/-- The candidate that is the only loose match, or the only strict match. -/
def Picks (loose strict : Set β) (b : β) : Prop :=
  Only loose b ∨ Only strict b

section Picks

variable {l s l' s' : Set β} {b b' : β}

theorem Picks.loose (hsub : s ⊆ l) (h : Picks l s b) : b ∈ l :=
  h.elim And.left fun hs => hsub hs.1

theorem Picks.eq_of_only (hsub : s ⊆ l) (h : Picks l s b) (hb' : Only l b') : b = b' :=
  hb'.2 b (h.loose hsub)

theorem Picks.unique (hsub : s ⊆ l) (h : Picks l s b) (h' : Picks l s b') : b = b' := by
  rcases h' with hl | hs
  · exact h.eq_of_only hsub hl
  · rcases h with hl' | hs'
    · exact (hl'.2 b' (hsub hs.1)).symm
    · exact hs.2 b hs'.1

/-- A pick is still the pick of a smaller set of candidates that it belongs to. -/
theorem Picks.shrink (h : Picks l s b) (hl : l' ⊆ l) (hs : s' ⊆ s) (hbl : b ∈ l → b ∈ l')
    (hbs : b ∈ s → b ∈ s') : Picks l' s' b := by
  rcases h with h | h
  · exact .inl ⟨hbl h.1, fun b' hb' => h.2 b' (hl hb')⟩
  · exact .inr ⟨hbs h.1, fun b' hb' => h.2 b' (hs hb')⟩

end Picks

/-! ## Committing -/

/-- The right-hand candidates of `a` that no committed pair holds. -/
def rightOf (r : α → β → Prop) (M : Set (α × β)) (a : α) : Set β :=
  {b | r a b ∧ ∀ a', (a', b) ∉ M}

/-- The left-hand candidates of `b` that no committed pair holds. -/
def leftOf (r : α → β → Prop) (M : Set (α × β)) (b : β) : Set α :=
  {a | r a b ∧ ∀ b', (a, b') ∉ M}

/-- Each side of the pair picks the other among what is still free. -/
structure Ready (loose strict : α → β → Prop) (M : Set (α × β)) (p : α × β) : Prop where
  right : Picks (rightOf loose M p.1) (rightOf strict M p.1) p.2
  left : Picks (leftOf loose M p.2) (leftOf strict M p.2) p.1

def Commit (loose strict : α → β → Prop) (M M' : Set (α × β)) : Prop :=
  ∃ p, Ready loose strict M p ∧ M' = insert p M

/-- No pair is ready. -/
def Settled (loose strict : α → β → Prop) (M : Set (α × β)) : Prop :=
  ∀ p, ¬ Ready loose strict M p

section Commit

variable {loose strict : α → β → Prop} {M M₁ M₂ : Set (α × β)} {p q : α × β}

theorem right_of_subset (hsub : ∀ a b, strict a b → loose a b) (a : α) :
    rightOf strict M a ⊆ rightOf loose M a :=
  fun b h => ⟨hsub a b h.1, h.2⟩

theorem left_of_subset (hsub : ∀ a b, strict a b → loose a b) (b : β) :
    leftOf strict M b ⊆ leftOf loose M b :=
  fun a h => ⟨hsub a b h.1, h.2⟩

theorem Ready.matches (hsub : ∀ a b, strict a b → loose a b) (h : Ready loose strict M p) :
    loose p.1 p.2 :=
  (h.right.loose (right_of_subset hsub p.1)).1

theorem Ready.free_right (hsub : ∀ a b, strict a b → loose a b) (h : Ready loose strict M p)
    (a : α) : (a, p.2) ∉ M :=
  (h.right.loose (right_of_subset hsub p.1)).2 a

theorem Ready.free_left (hsub : ∀ a b, strict a b → loose a b) (h : Ready loose strict M p)
    (b : β) : (p.1, b) ∉ M :=
  (h.left.loose (left_of_subset hsub p.2)).2 b

/-- Two ready pairs that share a side are the same pair. -/
theorem Ready.eq_of_shared (hsub : ∀ a b, strict a b → loose a b) (hp : Ready loose strict M p)
    (hq : Ready loose strict M q) (hshare : p.1 = q.1 ∨ p.2 = q.2) : p = q := by
  rcases hshare with h | h
  · have hq' := hq.right
    rw [← h] at hq'
    exact Prod.ext h (hp.right.unique (right_of_subset hsub p.1) hq')
  · have hq' := hq.left
    rw [← h] at hq'
    exact Prod.ext (hp.left.unique (left_of_subset hsub p.2) hq') h

theorem Ready.insert (hsub : ∀ a b, strict a b → loose a b) (hp : Ready loose strict M p)
    (hq : Ready loose strict M q) (hne : p ≠ q) : Ready loose strict (insert p M) q := by
  have hl : p.1 ≠ q.1 := fun h => hne (hp.eq_of_shared hsub hq (.inl h))
  have hr : p.2 ≠ q.2 := fun h => hne (hp.eq_of_shared hsub hq (.inr h))
  refine ⟨hq.right.shrink ?_ ?_ ?_ ?_, hq.left.shrink ?_ ?_ ?_ ?_⟩
  · exact fun b h => ⟨h.1, fun a' ha' => h.2 a' (Set.mem_insert_of_mem p ha')⟩
  · exact fun b h => ⟨h.1, fun a' ha' => h.2 a' (Set.mem_insert_of_mem p ha')⟩
  · rintro ⟨hloose, hfree⟩
    exact ⟨hloose, fun a' ha' => ha'.elim (fun h => hr (by rw [← h])) (hfree a')⟩
  · rintro ⟨hstrict, hfree⟩
    exact ⟨hstrict, fun a' ha' => ha'.elim (fun h => hr (by rw [← h])) (hfree a')⟩
  · exact fun a h => ⟨h.1, fun b' hb' => h.2 b' (Set.mem_insert_of_mem p hb')⟩
  · exact fun a h => ⟨h.1, fun b' hb' => h.2 b' (Set.mem_insert_of_mem p hb')⟩
  · rintro ⟨hloose, hfree⟩
    exact ⟨hloose, fun b' hb' => hb'.elim (fun h => hl (by rw [← h])) (hfree b')⟩
  · rintro ⟨hstrict, hfree⟩
    exact ⟨hstrict, fun b' hb' => hb'.elim (fun h => hl (by rw [← h])) (hfree b')⟩

/-- Two commitments from one state meet again after at most one more on each side. -/
theorem commit_diamond (hsub : ∀ a b, strict a b → loose a b) (h₁ : Commit loose strict M M₁)
    (h₂ : Commit loose strict M M₂) : ∃ N, Relation.ReflGen (Commit loose strict) M₁ N ∧
      Relation.ReflTransGen (Commit loose strict) M₂ N := by
  obtain ⟨p, hp, rfl⟩ := h₁
  obtain ⟨q, hq, rfl⟩ := h₂
  by_cases hne : p = q
  · subst hne
    exact ⟨_, .refl, .refl⟩
  · refine ⟨insert q (insert p M), .single ⟨q, hp.insert hsub hq hne, rfl⟩, .single ?_⟩
    exact ⟨p, hq.insert hsub hp (Ne.symm hne), Set.insert_comm q p M⟩

theorem Settled.eq_of_reaches (h : Settled loose strict M)
    (hr : Relation.ReflTransGen (Commit loose strict) M M₁) : M₁ = M := by
  rcases hr.cases_head with rfl | ⟨N, ⟨p, hp, -⟩, -⟩
  · rfl
  · exact absurd hp (h p)

/-- Any two orders of commitment that end settled commit the same pairs. -/
theorem settled_unique (hsub : ∀ a b, strict a b → loose a b)
    (h₁ : Relation.ReflTransGen (Commit loose strict) M M₁) (hs₁ : Settled loose strict M₁)
    (h₂ : Relation.ReflTransGen (Commit loose strict) M M₂) (hs₂ : Settled loose strict M₂) :
    M₁ = M₂ := by
  obtain ⟨N, h₁N, h₂N⟩ :=
    Relation.church_rosser (fun _ _ _ hb hc => commit_diamond hsub hb hc) h₁ h₂
  exact (hs₁.eq_of_reaches h₁N).symm.trans (hs₂.eq_of_reaches h₂N)

/-! ## What holds of every committed pair -/

/-- The committed pairs match loosely, and no side is in two of them. -/
structure Matching (loose : α → β → Prop) (M : Set (α × β)) : Prop where
  loose : ∀ p ∈ M, loose p.1 p.2
  right : ∀ a b b', (a, b) ∈ M → (a, b') ∈ M → b = b'
  left : ∀ a a' b, (a, b) ∈ M → (a', b) ∈ M → a = a'

theorem matching_empty : Matching loose (∅ : Set (α × β)) where
  loose := nofun
  right := nofun
  left := nofun

theorem Matching.commit (hsub : ∀ a b, strict a b → loose a b) (h : Matching loose M)
    (hc : Commit loose strict M M₁) : Matching loose M₁ := by
  obtain ⟨p, hp, rfl⟩ := hc
  refine ⟨?_, ?_, ?_⟩
  · rintro q (rfl | hq)
    · exact hp.matches hsub
    · exact h.loose q hq
  · rintro a b b' (rfl | hb) (hb' | hb')
    · exact (congrArg Prod.snd hb').symm
    · exact absurd hb' (hp.free_left hsub b')
    · subst hb'
      exact absurd hb (hp.free_left hsub b)
    · exact h.right a b b' hb hb'
  · rintro a a' b (rfl | ha) (ha' | ha')
    · exact (congrArg Prod.fst ha').symm
    · exact absurd ha' (hp.free_right hsub a')
    · subst ha'
      exact absurd ha (hp.free_right hsub a)
    · exact h.left a a' b ha ha'

theorem Matching.reaches (hsub : ∀ a b, strict a b → loose a b) (h : Matching loose M)
    (hr : Relation.ReflTransGen (Commit loose strict) M M₁) : Matching loose M₁ := by
  induction hr with
  | refl => exact h
  | tail _ hc ih => exact ih.commit hsub hc

/-- A pair whose sides match nothing else is committed once nothing is ready. -/
theorem Settled.mem_of_only (h : Settled loose strict M) (hm : Matching loose M)
    (hright : Only {b | loose p.1 b} p.2) (hleft : Only {a | loose a p.2} p.1) : p ∈ M := by
  by_contra hp
  have hfreeR : ∀ a, (a, p.2) ∉ M := by
    intro a ha
    obtain rfl : a = p.1 := hleft.2 a (hm.loose _ ha)
    exact hp ha
  have hfreeL : ∀ b, (p.1, b) ∉ M := by
    intro b hb
    obtain rfl : b = p.2 := hright.2 b (hm.loose _ hb)
    exact hp hb
  refine h p ⟨.inl ⟨⟨hright.1, hfreeR⟩, fun b hb => hright.2 b hb.1⟩, ?_⟩
  exact .inl ⟨⟨hleft.1, hfreeL⟩, fun a ha => hleft.2 a ha.1⟩

end Commit

/-! ## Renaming both sides -/

section Rename

variable {loose strict : α → β → Prop} {M M' : Set (α × β)} (σ : Equiv.Perm α) (τ : Equiv.Perm β)

/-- The relation between the renamed sides. -/
def rename (r : α → β → Prop) (a : α) (b : β) : Prop :=
  r (σ a) (τ b)

theorem picks_preimage {γ : Type*} {e : Equiv.Perm γ} {l s : Set γ} {c : γ} :
    Picks (Set.preimage e l) (Set.preimage e s) c ↔ Picks l s (e c) := by
  have honly : ∀ t : Set γ, Only (Set.preimage e t) c ↔ Only t (e c) := by
    intro t
    refine and_congr Iff.rfl ⟨fun h c' hc' => ?_, fun h c' hc' => e.injective (h _ hc')⟩
    have := h (e.symm c') (by simpa using hc')
    rw [← this, Equiv.apply_symm_apply]
  rw [Picks, Picks, honly, honly]

theorem right_of_rename (r : α → β → Prop) (a : α) :
    rightOf (rename σ τ r) (Set.preimage (Prod.map σ τ) M) a =
      Set.preimage τ (rightOf r M (σ a)) := by
  ext b
  refine and_congr Iff.rfl ⟨fun h a' ha' => h (σ.symm a') ?_, fun h a' => h (σ a')⟩
  simpa using ha'

theorem left_of_rename (r : α → β → Prop) (b : β) :
    leftOf (rename σ τ r) (Set.preimage (Prod.map σ τ) M) b =
      Set.preimage σ (leftOf r M (τ b)) := by
  ext a
  refine and_congr Iff.rfl ⟨fun h b' hb' => h (τ.symm b') ?_, fun h b' => h (τ b')⟩
  simpa using hb'

theorem ready_rename {p : α × β} : Ready (rename σ τ loose) (rename σ τ strict)
    (Set.preimage (Prod.map σ τ) M) p ↔ Ready loose strict M (Prod.map σ τ p) := by
  constructor
  · rintro ⟨hr, hl⟩
    rw [right_of_rename, right_of_rename, picks_preimage] at hr
    rw [left_of_rename, left_of_rename, picks_preimage] at hl
    exact ⟨hr, hl⟩
  · rintro ⟨hr, hl⟩
    refine ⟨?_, ?_⟩
    · rw [right_of_rename, right_of_rename, picks_preimage]
      exact hr
    · rw [left_of_rename, left_of_rename, picks_preimage]
      exact hl

theorem reaches_rename (h : Relation.ReflTransGen (Commit loose strict) M M') :
    Relation.ReflTransGen (Commit (rename σ τ loose) (rename σ τ strict))
      (Set.preimage (Prod.map σ τ) M) (Set.preimage (Prod.map σ τ) M') := by
  induction h with
  | refl => exact .refl
  | tail _ hc ih =>
    obtain ⟨p, hp, rfl⟩ := hc
    refine ih.tail ⟨(σ.symm p.1, τ.symm p.2), (ready_rename σ τ).mpr (by simpa using hp), ?_⟩
    ext ⟨a, b⟩
    simp [Prod.ext_iff, Equiv.eq_symm_apply]

theorem settled_rename (h : Settled loose strict M) :
    Settled (rename σ τ loose) (rename σ τ strict) (Set.preimage (Prod.map σ τ) M) :=
  fun _ hp => h _ ((ready_rename σ τ).mp hp)

end Rename

end Lib.Pairing
