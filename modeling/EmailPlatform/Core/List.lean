import Mathlib.Data.List.Basic

/-!
# EmailPlatform.Core.List

Lists as records and histories: what a position holds after one change, what stands on the
two sides of a marked element, and the longest prefix with a property.
-/

namespace EmailPlatform

variable {α : Type*}

/-- A list with one element changed holds that element or what it held. -/
theorem getElem?_set_cases {l : List α} {i j : Nat} {c x : α}
    (h : (l.set i c)[j]? = some x) : (j = i ∧ x = c) ∨ (j ≠ i ∧ l[j]? = some x) := by
  rw [List.getElem?_set] at h
  split at h
  · next hij =>
    split at h
    · exact .inl ⟨hij.symm, (Option.some.inj h).symm⟩
    · cases h
  · next hij => exact .inr ⟨fun hji => hij hji.symm, h⟩

/-- A list with one element appended holds that element or what it held. -/
theorem getElem?_concat_cases {l : List α} {j : Nat} {c x : α}
    (h : (l ++ [c])[j]? = some x) : (j = l.length ∧ x = c) ∨ l[j]? = some x := by
  rcases Nat.lt_trichotomy j l.length with hj | hj | hj
  · rw [List.getElem?_append_left hj] at h
    exact .inr h
  · subst hj
    exact .inl ⟨rfl, by simpa using h.symm⟩
  · rw [List.getElem?_eq_none (by simp; omega)] at h
    cases h

/-- An element other than the one appended was there before. -/
theorem mem_of_mem_concat {l : List α} {x c : α} (h : x ∈ l ++ [c]) (hne : c ≠ x) : x ∈ l :=
  (List.mem_append.mp h).resolve_right fun hx => hne (List.mem_singleton.mp hx).symm

/-- An element other than `m` stands before or behind it. -/
theorem mem_append_of_ne {e m : α} {h₁ h₂ es : List α} (hne : e ≠ m)
    (he : e ∈ h₁ ++ m :: h₂) : e ∈ h₁ ++ (h₂ ++ es) := by
  rcases List.mem_append.mp he with he | he
  · exact List.mem_append_left _ he
  · exact List.mem_append_right _ (List.mem_append_left _ (List.mem_of_ne_of_mem hne he))

/-- What stands before the first separator, and what behind it. -/
theorem append_cons_inj {c : α} {l₁ l₂ t₁ t₂ : List α} (h₁ : c ∉ l₁) (h₂ : c ∉ l₂)
    (h : l₁ ++ c :: t₁ = l₂ ++ c :: t₂) : l₁ = l₂ ∧ t₁ = t₂ := by
  induction l₁ generalizing l₂ with
  | nil =>
      cases l₂ with
      | nil => exact ⟨rfl, (List.cons.inj h).2⟩
      | cons b l₂ => exact absurd ((List.cons.inj h).1 ▸ List.mem_cons_self) h₂
  | cons a l₁ ih =>
      cases l₂ with
      | nil => exact absurd ((List.cons.inj h).1 ▸ List.mem_cons_self) h₁
      | cons b l₂ =>
          obtain ⟨rfl, htail⟩ := List.cons.inj h
          obtain ⟨rfl, ht⟩ := ih (List.not_mem_of_not_mem_cons h₁) (List.not_mem_of_not_mem_cons h₂)
            htail
          exact ⟨rfl, ht⟩

/-- What stands before and behind an element whose mark no other element has. -/
theorem split_eq_of_nodup {β : Type*} {f : α → Option β} {l₁ l₂ m₁ m₂ : List α} {x y : α} {b : β}
    (hnd : ((l₁ ++ x :: l₂).filterMap f).Nodup) (h : l₁ ++ x :: l₂ = m₁ ++ y :: m₂)
    (hx : f x = some b) (hy : f y = some b) : l₁ = m₁ ∧ x = y ∧ l₂ = m₂ := by
  induction l₁ generalizing m₁ with
  | nil =>
      cases m₁ with
      | nil =>
          obtain ⟨rfl, rfl⟩ := List.cons.inj h
          exact ⟨rfl, rfl, rfl⟩
      | cons z m₁ =>
          obtain ⟨rfl, rfl⟩ := List.cons.inj h
          rw [List.nil_append, List.filterMap_cons_some hx, List.nodup_cons] at hnd
          exact absurd (List.mem_filterMap.mpr ⟨y, by simp, hy⟩) hnd.1
  | cons z l₁ ih =>
      cases m₁ with
      | nil =>
          obtain ⟨rfl, rfl⟩ := List.cons.inj h
          rw [List.cons_append, List.filterMap_cons_some hy, List.nodup_cons] at hnd
          exact absurd (List.mem_filterMap.mpr ⟨x, by simp, hx⟩) hnd.1
      | cons w m₁ =>
          obtain ⟨rfl, htail⟩ := List.cons.inj h
          have hsub : ((l₁ ++ x :: l₂).filterMap f).Nodup :=
            hnd.sublist ((List.sublist_cons_self z _).filterMap f)
          obtain ⟨rfl, hxy, rfl⟩ := ih hsub htail
          exact ⟨rfl, hxy, rfl⟩

/-- `p` is the longest prefix of `l` with property `P`: it contains every other one. -/
structure IsLongestPrefix (P : List α → Prop) (l p : List α) : Prop where
  isPrefix : p <+: l
  holds : P p
  longest : ∀ q, q <+: l → P q → q <+: p

/-- There is only one longest prefix. -/
theorem IsLongestPrefix.unique {P : List α → Prop} {l p q : List α}
    (hp : IsLongestPrefix P l p) (hq : IsLongestPrefix P l q) : p = q :=
  (hq.longest p hp.isPrefix hp.holds).eq_of_length_le
    (hp.longest q hq.isPrefix hq.holds).length_le

/-- A list that has the property is its own longest prefix. -/
theorem IsLongestPrefix.refl {P : List α → Prop} {l : List α} (h : P l) :
    IsLongestPrefix P l l :=
  ⟨List.prefix_rfl, h, fun _ hq _ => hq⟩

/-- Where every list that starts with `c` lacks the property, the empty list is the longest. -/
theorem IsLongestPrefix.nil_of_cons {P : List α → Prop} {c : α} {l : List α} (hnil : P [])
    (h : ∀ q, ¬P (c :: q)) : IsLongestPrefix P (c :: l) [] := by
  refine ⟨List.nil_prefix, hnil, fun q hq hP => ?_⟩
  cases q with
  | nil => exact List.prefix_rfl
  | cons d q =>
      obtain ⟨rfl, -⟩ := List.cons_prefix_cons.mp hq
      exact absurd hP (h q)

/-- A longest prefix, with the element before it. -/
theorem IsLongestPrefix.cons {P : List α → Prop} {c : α} {l p : List α}
    (h : IsLongestPrefix (fun q => P (c :: q)) l p) : IsLongestPrefix P (c :: l) (c :: p) := by
  refine ⟨List.cons_prefix_cons.mpr ⟨rfl, h.isPrefix⟩, h.holds, fun q hq hP => ?_⟩
  cases q with
  | nil => exact List.nil_prefix
  | cons d q =>
      obtain ⟨rfl, hql⟩ := List.cons_prefix_cons.mp hq
      exact List.cons_prefix_cons.mpr ⟨rfl, h.longest q hql hP⟩

/-- Where the whole list lacks the property, its last element does not matter. -/
theorem IsLongestPrefix.concat {P : List α → Prop} {c : α} {l p : List α}
    (h : IsLongestPrefix P l p) (hwhole : ¬ P (l ++ [c])) : IsLongestPrefix P (l ++ [c]) p := by
  refine ⟨h.isPrefix.trans (List.prefix_append _ _), h.holds, fun q hq hP => ?_⟩
  rcases List.prefix_concat_iff.mp hq with rfl | hq
  · exact absurd hP hwhole
  · exact h.longest q hq hP

end EmailPlatform
