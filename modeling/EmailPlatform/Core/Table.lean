import Mathlib.Data.List.Basic
import Mathlib.Data.List.Nodup
import Mathlib.Tactic.Common

/-!
# EmailPlatform.Core.Table

**Relational tables with constraints.** A `Schema` declares a primary key, the unique
constraints beside it and what fits the columns; a `Table` is a list of rows that meets the
declaration, so an inconsistent table cannot be built. A table is then a finite map from
keys to rows (`lookup`, `mem_rows_iff`).

The one statement here is `INSERT ... ON CONFLICT (key) DO UPDATE SET ...`, atomic: it
inserts the proposed row or changes the row that has its key, or is refused and leaves the
table as it is. Its spec lemmas say when it is accepted (`upsert_isSome_iff`), what the key's
row is then and that no other row changes (`lookup_upsert`, `mem_rows_upsert`).
-/

namespace EmailPlatform

variable {Row K : Type*}

/-- The declaration of a table. -/
structure Schema (Row K : Type*) where
  /-- The primary key. -/
  key : Row → K
  /-- Some unique constraint beside the key's does not let the two rows stand together. -/
  clash : Row → Row → Bool
  clash_comm : ∀ r r', clash r r' = clash r' r
  /-- Every value of the row fits its column. -/
  fits : Row → Bool

/-- The rows meet every declared constraint. -/
structure Schema.Consistent (S : Schema Row K) (rows : List Row) : Prop where
  nodup : (rows.map S.key).Nodup
  unique : ∀ r ∈ rows, ∀ r' ∈ rows, S.key r ≠ S.key r' → S.clash r r' = false
  fits : ∀ r ∈ rows, S.fits r = true

/-- The contents of a table. -/
structure Table (S : Schema Row K) where
  rows : List Row
  consistent : S.Consistent rows

/-- `SET column = value, ...`: a change of a row that leaves its key alone. -/
structure SetClause (S : Schema Row K) where
  apply : Row → Row
  key_apply : ∀ r, S.key (apply r) = S.key r

variable {S : Schema Row K}

namespace Table

/-- A table without rows. -/
def empty (S : Schema Row K) : Table S :=
  ⟨[], by simp, by simp, by simp⟩

@[simp] theorem rows_empty : (empty S).rows = [] := rfl

/-- `SELECT * FROM t WHERE p LIMIT 1`. -/
def selectOne (t : Table S) (p : Row → Bool) : List Row :=
  (t.rows.filter p).take 1

theorem getElem?_selectOne (t : Table S) (p : Row → Bool) :
    (t.selectOne p)[0]? = t.rows.find? p := by
  rw [selectOne, List.getElem?_take_of_lt Nat.zero_lt_one, ← List.head?_eq_getElem?,
    List.head?_filter]

end Table

variable [DecidableEq K]

instance (rows : List Row) : Decidable (S.Consistent rows) :=
  decidable_of_iff
    ((rows.map S.key).Nodup ∧
      (∀ r ∈ rows, ∀ r' ∈ rows, S.key r ≠ S.key r' → S.clash r r' = false) ∧
      ∀ r ∈ rows, S.fits r = true)
    ⟨fun h => ⟨h.1, h.2.1, h.2.2⟩, fun h => ⟨h.nodup, h.unique, h.fits⟩⟩

/-- With distinct keys, searching for a key finds exactly its row. -/
theorem find?_key_eq_some_iff {key : Row → K} {rows : List Row} (hnd : (rows.map key).Nodup)
    {k : K} {r : Row} : rows.find? (fun r => key r = k) = some r ↔ r ∈ rows ∧ key r = k := by
  constructor
  · intro h
    exact ⟨List.mem_of_find?_eq_some h, by simpa using List.find?_some h⟩
  · intro hboth
    obtain ⟨hmem, rfl⟩ := hboth
    induction rows with
    | nil => cases hmem
    | cons a rows ih =>
        obtain ⟨ha, hnd⟩ := List.nodup_cons.mp hnd
        rcases List.mem_cons.mp hmem with rfl | hr
        · exact List.find?_cons_of_pos (by simp)
        · have hne : key a ≠ key r := fun heq => ha (heq ▸ List.mem_map_of_mem hr)
          rw [List.find?_cons_of_neg (by simpa using hne)]
          exact ih hnd hr

namespace Table

/-- The row with a key. -/
def lookup (t : Table S) (k : K) : Option Row :=
  t.rows.find? fun r => S.key r = k

theorem lookup_eq_some_iff {t : Table S} {k : K} {r : Row} :
    t.lookup k = some r ↔ r ∈ t.rows ∧ S.key r = k :=
  find?_key_eq_some_iff t.consistent.nodup

theorem mem_rows_iff {t : Table S} {r : Row} : r ∈ t.rows ↔ t.lookup (S.key r) = some r := by
  simp [lookup_eq_some_iff]

theorem lookup_eq_none_iff {t : Table S} {k : K} :
    t.lookup k = none ↔ ∀ r ∈ t.rows, S.key r ≠ k := by
  simp [lookup]

/-- Rows of one table with one key are one row. -/
theorem eq_of_key_eq {t : Table S} {r r' : Row} (hr : r ∈ t.rows) (hr' : r' ∈ t.rows)
    (hkey : S.key r = S.key r') : r = r' := by
  have h := mem_rows_iff.mp hr
  rw [hkey, mem_rows_iff.mp hr'] at h
  exact (Option.some.inj h).symm

/-- A selection by what only one row can have finds that row, and nothing but it. -/
theorem find?_eq_some_iff_of_unique {t : Table S} {p : Row → Bool}
    (hp : ∀ r ∈ t.rows, ∀ r' ∈ t.rows, p r → p r' → S.key r = S.key r') {r : Row} :
    t.rows.find? p = some r ↔ r ∈ t.rows ∧ p r = true := by
  constructor
  · intro h
    exact ⟨List.mem_of_find?_eq_some h, List.find?_some h⟩
  · intro ⟨hmem, hpr⟩
    cases hf : t.rows.find? p with
    | none => exact absurd hpr (List.find?_eq_none.mp hf r hmem)
    | some r' =>
        have hmem' := List.mem_of_find?_eq_some hf
        exact congrArg some (eq_of_key_eq hmem' hmem (hp r' hmem' r hmem (List.find?_some hf) hpr))

/-! ### INSERT ... ON CONFLICT (key) DO UPDATE -/

/-- The rows once a row is proposed: added when its key is new, else the row that has the
key is changed by the set clause. -/
def upsertRows (t : Table S) (new : Row) (set : SetClause S) : List Row :=
  match t.lookup (S.key new) with
  | none => t.rows ++ [new]
  | some _ => t.rows.map fun r => if S.key r = S.key new then set.apply r else r

/-- `INSERT ... VALUES new ON CONFLICT (key) DO UPDATE SET set`; `none` when a constraint
refuses it. A proposed row must fit also where the statement then updates. -/
def upsert (t : Table S) (new : Row) (set : SetClause S) : Option (Table S) :=
  if S.fits new then
    if h : S.Consistent (t.upsertRows new set) then some ⟨t.upsertRows new set, h⟩ else none
  else none

/-- The row that the statement leaves under the proposed key. -/
def written (t : Table S) (new : Row) (set : SetClause S) : Row :=
  match t.lookup (S.key new) with
  | none => new
  | some r => set.apply r

section Upsert

variable {t t' : Table S} {new : Row} {set : SetClause S}

theorem key_written : S.key (t.written new set) = S.key new := by
  unfold written
  cases h : t.lookup (S.key new) with
  | none => rfl
  | some r => exact (set.key_apply r).trans (lookup_eq_some_iff.mp h).2

theorem written_of_none (h : t.lookup (S.key new) = none) : t.written new set = new := by
  rw [written, h]

theorem written_of_some {r : Row} (h : t.lookup (S.key new) = some r) :
    t.written new set = set.apply r := by
  rw [written, h]

theorem mem_upsertRows {r : Row} :
    r ∈ t.upsertRows new set ↔
      r = t.written new set ∨ (S.key r ≠ S.key new ∧ r ∈ t.rows) := by
  unfold upsertRows
  cases h : t.lookup (S.key new) with
  | none =>
      rw [written_of_none h, List.mem_append, List.mem_singleton]
      constructor
      · intro hor
        rcases hor with hr | rfl
        · exact .inr ⟨lookup_eq_none_iff.mp h r hr, hr⟩
        · exact .inl rfl
      · intro hor
        rcases hor with rfl | ⟨-, hr⟩
        · exact .inr rfl
        · exact .inl hr
  | some old =>
      obtain ⟨hold, hkey⟩ := lookup_eq_some_iff.mp h
      rw [written_of_some h, List.mem_map]
      constructor
      · intro hex
        obtain ⟨a, ha, rfl⟩ := hex
        by_cases hak : S.key a = S.key new
        · rw [if_pos hak, eq_of_key_eq ha hold (hak.trans hkey.symm)]
          exact .inl rfl
        · rw [if_neg hak]
          exact .inr ⟨hak, ha⟩
      · intro hor
        rcases hor with rfl | ⟨hne, hr⟩
        · exact ⟨old, hold, if_pos hkey⟩
        · exact ⟨r, hr, if_neg hne⟩

theorem nodup_upsertRows : ((t.upsertRows new set).map S.key).Nodup := by
  unfold upsertRows
  cases h : t.lookup (S.key new) with
  | none =>
      rw [List.map_append, List.map_singleton, List.nodup_append]
      refine ⟨t.consistent.nodup, List.nodup_singleton _, ?_⟩
      intro k hk k' hk' heq
      subst heq
      obtain ⟨r, hr, rfl⟩ := List.mem_map.mp hk
      exact lookup_eq_none_iff.mp h r hr (List.mem_singleton.mp hk')
  | some old =>
      have hkeys : (t.rows.map fun r => if S.key r = S.key new then set.apply r else r).map S.key
          = t.rows.map S.key := by
        rw [List.map_map]
        refine List.map_congr_left fun r _ => ?_
        show S.key (if S.key r = S.key new then set.apply r else r) = S.key r
        split
        · exact set.key_apply r
        · rfl
      rw [hkeys]
      exact t.consistent.nodup

/-- What the constraints ask of the row that is written. -/
theorem consistent_upsertRows_iff :
    S.Consistent (t.upsertRows new set) ↔
      S.fits (t.written new set) = true ∧
        ∀ r ∈ t.rows, S.key r ≠ S.key new → S.clash (t.written new set) r = false := by
  constructor
  · intro h
    have hwritten : t.written new set ∈ t.upsertRows new set := mem_upsertRows.mpr (.inl rfl)
    refine ⟨h.fits _ hwritten, fun r hr hne => ?_⟩
    refine h.unique _ hwritten r (mem_upsertRows.mpr (.inr ⟨hne, hr⟩)) ?_
    rw [key_written]
    exact Ne.symm hne
  · intro ⟨hfits, hclash⟩
    refine ⟨nodup_upsertRows, fun r hr r' hr' hne => ?_, fun r hr => ?_⟩
    · rcases mem_upsertRows.mp hr with rfl | ⟨hk, hr⟩
      · rcases mem_upsertRows.mp hr' with rfl | ⟨hk', hr'⟩
        · exact absurd rfl hne
        · exact hclash r' hr' hk'
      · rcases mem_upsertRows.mp hr' with rfl | ⟨-, hr'⟩
        · rw [S.clash_comm]
          exact hclash r hr hk
        · exact t.consistent.unique r hr r' hr' hne
    · rcases mem_upsertRows.mp hr with rfl | ⟨-, hr⟩
      · exact hfits
      · exact t.consistent.fits r hr

theorem upsert_eq_some_iff :
    t.upsert new set = some t' ↔
      S.fits new = true ∧ S.Consistent (t.upsertRows new set) ∧
        t'.rows = t.upsertRows new set := by
  unfold upsert
  by_cases hfits : S.fits new
  · by_cases hcons : S.Consistent (t.upsertRows new set)
    · rw [if_pos hfits, dif_pos hcons, Option.some.injEq]
      constructor
      · intro heq
        subst heq
        exact ⟨hfits, hcons, rfl⟩
      · intro ⟨_, _, hrows⟩
        cases t'
        cases hrows
        rfl
    · rw [if_pos hfits, dif_neg hcons]
      simp [hcons]
  · rw [if_neg hfits]
    simp [hfits]

/-- When the statement is accepted. -/
theorem upsert_isSome_iff :
    (t.upsert new set).isSome ↔
      S.fits new = true ∧ S.fits (t.written new set) = true ∧
        ∀ r ∈ t.rows, S.key r ≠ S.key new → S.clash (t.written new set) r = false := by
  rw [← consistent_upsertRows_iff, Option.isSome_iff_exists]
  constructor
  · intro ⟨t', h⟩
    obtain ⟨hfits, hcons, -⟩ := upsert_eq_some_iff.mp h
    exact ⟨hfits, hcons⟩
  · intro ⟨hfits, hcons⟩
    exact ⟨⟨t.upsertRows new set, hcons⟩, upsert_eq_some_iff.mpr ⟨hfits, hcons, rfl⟩⟩

theorem mem_rows_upsert (h : t.upsert new set = some t') {r : Row} :
    r ∈ t'.rows ↔ r = t.written new set ∨ (S.key r ≠ S.key new ∧ r ∈ t.rows) := by
  obtain ⟨-, -, hrows⟩ := upsert_eq_some_iff.mp h
  rw [hrows]
  exact mem_upsertRows

/-- The statement writes the row of the proposed key and no other. -/
theorem lookup_upsert (h : t.upsert new set = some t') (k : K) :
    t'.lookup k = if k = S.key new then some (t.written new set) else t.lookup k := by
  refine Option.ext fun r => ?_
  show t'.lookup k = some r ↔ _
  rw [lookup_eq_some_iff, mem_rows_upsert h]
  split
  · next hk =>
    subst hk
    rw [Option.some.injEq]
    constructor
    · intro hboth
      obtain ⟨rfl | ⟨hne, -⟩, hkey⟩ := hboth
      · rfl
      · exact absurd hkey hne
    · intro heq
      subst heq
      exact ⟨.inl rfl, key_written⟩
  · next hk =>
    rw [lookup_eq_some_iff]
    constructor
    · intro hboth
      obtain ⟨rfl | ⟨-, hr⟩, rfl⟩ := hboth
      · exact absurd key_written hk
      · exact ⟨hr, rfl⟩
    · intro hboth
      obtain ⟨hr, rfl⟩ := hboth
      exact ⟨.inr ⟨hk, hr⟩, rfl⟩

end Upsert

end Table

end EmailPlatform
