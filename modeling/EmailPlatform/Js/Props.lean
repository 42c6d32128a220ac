import Mathlib.Data.List.Nodup
import Mathlib.Tactic.Tauto

/-!
# EmailPlatform.Js.Props

Plain objects as property lists: in insertion order, keys compared as they are spelled.
Setting a property (`set`) and object spread or `Object.assign` (`spread`), with what is
in the result and the fact that keys stay distinct.
-/

namespace EmailPlatform

/-- The properties of a plain object. -/
abbrev Props (α : Type*) := List (String × α)

namespace Props

variable {α : Type*}

/-- Set one property: an existing key keeps its place, a new one goes last. -/
def set (r : Props α) (k : String) (v : α) : Props α :=
  if r.any (·.1 = k) then r.map fun p => if p.1 = k then (k, v) else p
  else r ++ [(k, v)]

/-- `{ ...r, ...more }`, `Object.assign(r, more)`. -/
def spread (r more : Props α) : Props α := more.foldl (fun acc p => Props.set acc p.1 p.2) r

/-- The keys of an object. -/
def keys (r : Props α) : List String := r.map Prod.fst

theorem mem_keys_of_mem {r : Props α} {k : String} {v : α} (h : (k, v) ∈ r) : k ∈ r.keys :=
  List.mem_map_of_mem h

theorem mem_keys {r : Props α} {k : String} : k ∈ r.keys ↔ ∃ v, (k, v) ∈ r := by
  simp [keys]

theorem any_iff {r : Props α} {k : String} : (r.any (·.1 = k)) = true ↔ k ∈ r.keys := by
  simp [keys]

/-- Setting one property leaves every other. -/
theorem mem_set {r : Props α} {k k' : String} {v v' : α} :
    (k', v') ∈ r.set k v ↔ (k' = k ∧ v' = v) ∨ (k' ≠ k ∧ (k', v') ∈ r) := by
  unfold set
  by_cases hk : (r.any (·.1 = k)) = true
  · rw [if_pos hk, List.mem_map]
    constructor
    · intro ⟨⟨a, b⟩, hab, heq⟩
      by_cases ha : a = k
      · rw [if_pos ha] at heq
        cases heq
        exact .inl ⟨rfl, rfl⟩
      · rw [if_neg ha] at heq
        cases heq
        exact .inr ⟨ha, hab⟩
    · intro h
      rcases h with ⟨rfl, rfl⟩ | ⟨hne, hmem⟩
      · obtain ⟨w, hw⟩ := mem_keys.mp (any_iff.mp hk)
        exact ⟨_, hw, if_pos rfl⟩
      · exact ⟨_, hmem, if_neg hne⟩
  · rw [if_neg hk, List.mem_append, List.mem_singleton, Prod.mk.injEq]
    have hout : (k', v') ∈ r → k' ≠ k := by
      intro hmem heq₂
      subst heq₂
      exact hk (any_iff.mpr (mem_keys_of_mem hmem))
    constructor
    · intro h
      rcases h with hmem | heq
      · exact .inr ⟨hout hmem, hmem⟩
      · exact .inl heq
    · intro h
      rcases h with heq | ⟨-, hmem⟩
      · exact .inr heq
      · exact .inl hmem

theorem mem_keys_set {r : Props α} {k k' : String} {v : α} :
    k' ∈ (r.set k v).keys ↔ k' = k ∨ k' ∈ r.keys := by
  rw [mem_keys]
  constructor
  · intro ⟨w, hw⟩
    rcases mem_set.mp hw with ⟨rfl, -⟩ | ⟨-, hmem⟩
    · exact .inl rfl
    · exact .inr (mem_keys_of_mem hmem)
  · intro hk'
    by_cases hk : k' = k
    · exact ⟨v, mem_set.mpr (.inl ⟨hk, rfl⟩)⟩
    · obtain ⟨w, hw⟩ := mem_keys.mp (hk'.resolve_left hk)
      exact ⟨w, mem_set.mpr (.inr ⟨hk, hw⟩)⟩

theorem nodup_keys_set {r : Props α} (h : r.keys.Nodup) (k : String) (v : α) :
    (r.set k v).keys.Nodup := by
  unfold set
  by_cases hk : (r.any (·.1 = k)) = true
  · rw [if_pos hk]
    have hsame : ((r.map fun p => if p.1 = k then (k, v) else p).map Prod.fst) = r.keys := by
      rw [List.map_map]
      refine List.map_congr_left fun p _ => ?_
      show (if p.1 = k then (k, v) else p).1 = p.1
      split
      · next hp => exact hp.symm
      · rfl
    show ((r.map _).map Prod.fst).Nodup
    rw [hsame]
    exact h
  · rw [if_neg hk]
    show ((r ++ [(k, v)]).map Prod.fst).Nodup
    rw [List.map_append, List.nodup_append]
    refine ⟨h, by simp, ?_⟩
    intro a ha b hb heq
    subst heq
    rw [List.map_singleton, List.mem_singleton] at hb
    subst hb
    exact hk (any_iff.mpr ha)

/-- What a spread adds wins over what was there. -/
theorem mem_spread {r more : Props α} (h : more.keys.Nodup) {k : String} {v : α} :
    (k, v) ∈ r.spread more ↔ (k, v) ∈ more ∨ (k ∉ more.keys ∧ (k, v) ∈ r) := by
  induction more generalizing r with
  | nil => simp [spread, keys]
  | cons p more ih =>
      obtain ⟨a, b⟩ := p
      obtain ⟨ha, hnd⟩ := List.nodup_cons.mp h
      show (k, v) ∈ (r.set a b).spread more ↔ _
      rw [ih hnd, mem_set]
      have hkeys : k ∉ keys ((a, b) :: more) ↔ k ≠ a ∧ k ∉ keys more := by
        show k ∉ a :: keys more ↔ _
        rw [List.mem_cons, not_or]
      rw [hkeys, List.mem_cons, Prod.mk.injEq]
      constructor
      · intro hor
        rcases hor with hmem | ⟨hnot, hab | ⟨hne, hr⟩⟩
        · exact .inl (.inr hmem)
        · exact .inl (.inl hab)
        · exact .inr ⟨⟨hne, hnot⟩, hr⟩
      · intro hor
        rcases hor with (⟨rfl, rfl⟩ | hmem) | ⟨⟨hne, hnot⟩, hr⟩
        · exact .inr ⟨ha, .inl ⟨rfl, rfl⟩⟩
        · exact .inl hmem
        · exact .inr ⟨hnot, .inr ⟨hne, hr⟩⟩

/-- A property that a spread adds is found there with the value it was added with. -/
theorem find?_spread {r more : Props α} (h : more.keys.Nodup) {k : String} {v : α}
    (hv : (k, v) ∈ more) : (r.spread more).find? (·.1 = k) = some (k, v) := by
  have hmem : (k, v) ∈ r.spread more := (mem_spread h).mpr (.inl hv)
  cases hfind : (r.spread more).find? (·.1 = k) with
  | none =>
      have hnone := List.find?_eq_none.mp hfind _ hmem
      simp at hnone
  | some p =>
      obtain ⟨k', w⟩ := p
      obtain rfl : k' = k := by simpa using List.find?_some hfind
      rcases (mem_spread h).mp (List.mem_of_find?_eq_some hfind) with hw | ⟨hnot, -⟩
      · exact congrArg some (List.inj_on_of_nodup_map h hw hv rfl)
      · exact absurd (mem_keys_of_mem hv) hnot

theorem mem_keys_spread {r more : Props α} {k : String} :
    k ∈ (r.spread more).keys ↔ k ∈ more.keys ∨ k ∈ r.keys := by
  induction more generalizing r with
  | nil => simp [spread, keys]
  | cons p more ih =>
      show k ∈ ((r.set p.1 p.2).spread more).keys ↔ k ∈ p.1 :: keys more ∨ _
      rw [ih, mem_keys_set, List.mem_cons]
      tauto

theorem nodup_keys_spread {r : Props α} (h : r.keys.Nodup) (more : Props α) :
    (r.spread more).keys.Nodup := by
  induction more generalizing r with
  | nil => exact h
  | cons p more ih => exact ih (nodup_keys_set h p.1 p.2)

/-- Properties with new keys go last. -/
theorem spread_of_disjoint {r more : Props α} (hmore : more.keys.Nodup)
    (hdisj : ∀ k ∈ more.keys, k ∉ r.keys) : r.spread more = r ++ more := by
  induction more generalizing r with
  | nil => exact (List.append_nil r).symm
  | cons p more ih =>
      obtain ⟨hp, hnd⟩ := List.nodup_cons.mp hmore
      have hnew : ¬ (r.any (·.1 = p.1)) = true := fun h =>
        hdisj p.1 List.mem_cons_self (any_iff.mp h)
      have hset : r.set p.1 p.2 = r ++ [p] := if_neg hnew
      show (r.set p.1 p.2).spread more = _
      rw [ih hnd, hset, List.append_assoc, List.singleton_append]
      intro k hk hin
      rcases mem_keys_set.mp hin with rfl | hr
      · exact hp hk
      · exact hdisj k (List.mem_cons_of_mem _ hk) hr

theorem nil_spread {more : Props α} (h : more.keys.Nodup) : Props.spread [] more = more :=
  spread_of_disjoint h fun _ _ => List.not_mem_nil

end Props

end EmailPlatform
