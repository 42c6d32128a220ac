import EmailPlatform.Core.Machine
import EmailPlatform.Core.Table

/-!
# EmailPlatform.Persistence.Repository

**What the four Postgres repositories share.** Each writes an entity with one
`INSERT ... ON CONFLICT (id) DO UPDATE` and reads it back with `SELECT ... LIMIT 1`. Three
pieces of code decide what comes back: the mapper's row for an insert, the hand-listed set
clause for an update, and the mapper from a row to an entity. `Lossless` says that the three
agree; `Repository.findById_output` derives from it that the repository is a map from ids to
entities, whichever of insert and update wrote the row.

Two things of the database are parameters. The `uuid` type (`UuidType`) reads several
spellings and prints one. The clocks of the database and of the application give any times.
Text is Unicode text, as the database's encoding can hold it: no NUL, no lone surrogate.
-/

namespace EmailPlatform.Persistence

/-- A point in time, of `now()` or of `new Date()`. -/
abbrev Timestamp := Int

/-- `COLUMN_LENGTH.SHORT` -/
def columnLengthShort : Nat := 50

/-- `COLUMN_LENGTH.MEDIUM` -/
def columnLengthMedium : Nat := 100

/-- `COLUMN_LENGTH.DEFAULT` -/
def columnLengthDefault : Nat := 255

/-- What fits a `varchar(n)` column: lengths are counted in characters. An idealisation of the
database: it would also take a longer text whose excess is blank, and cut it, and it refuses the
character NUL. -/
def varchar (n : Nat) (s : String) : Bool := s.length ≤ n

/-- The `uuid` column type. -/
structure UuidType where
  Value : Type
  decEq : DecidableEq Value
  /-- The value of a text; `none` where the database refuses the text. -/
  input : String → Option Value
  /-- The canonical text of a value. -/
  output : Value → String
  input_output : ∀ v, input (output v) = some v

instance (U : UuidType) : DecidableEq U.Value := U.decEq

namespace UuidType

variable {U : UuidType}

/-- The text comes back as it went in, unless it is refused: true of every canonical text
and of every text that is no uuid. -/
def Unaltered (U : UuidType) (s : String) : Prop :=
  ∀ v, U.input s = some v → U.output v = s

theorem output_injective {v w : U.Value} (h : U.output v = U.output w) : v = w := by
  have hv := U.input_output v
  rw [h, U.input_output w] at hv
  exact (Option.some.inj hv).symm

end UuidType

/-- `8-4-4-4-12` lower-case hexadecimal digits. -/
def isCanonicalUuid (s : String) : Bool :=
  s.length = 36 && s.toList.zipIdx.all fun (c, i) =>
    if i ∈ [8, 13, 18, 23] then c = '-' else c.isDigit || ('a' ≤ c && c ≤ 'f')

/-- The `uuid` type on canonical texts; it refuses every other. -/
def canonicalUuid : UuidType where
  Value := { s : String // isCanonicalUuid s = true }
  decEq := inferInstance
  input s := if h : isCanonicalUuid s = true then some ⟨s, h⟩ else none
  output v := v.val
  input_output v := dif_pos v.property

/-- One call of `save`, with the two clocks it reads. -/
structure SaveCall (Entity : Type) where
  entity : Entity
  /-- The default of the timestamp columns. -/
  now : Timestamp
  /-- `new Date()` of the set clause. -/
  date : Timestamp

/-- What tells one repository from another. -/
structure Repository (U : UuidType) (Entity Row : Type) where
  schema : Schema Row U.Value
  /-- The id of an entity. -/
  id : Entity → String
  /-- The texts of an entity that go to `uuid` columns. -/
  uuids : Entity → List String
  /-- The row that `.values(toPersistence(entity))` proposes; `none` where a text is no uuid. -/
  values : Entity → Timestamp → Option Row
  /-- The set clause of `.onConflictDoUpdate`. -/
  set : Entity → Timestamp → Option (SetClause schema)
  /-- `toDomain` of a selected row. -/
  toDomain : Row → Entity

/-- One save of a run: the table before it, the entity, and the table after it or `none`
where the save rejects. -/
structure SaveEvent {U : UuidType} {Entity Row : Type} (R : Repository U Entity Row) where
  before : Table R.schema
  entity : Entity
  after : Option (Table R.schema)

namespace Repository

variable {U : UuidType} {Entity Row : Type} (R : Repository U Entity Row)

/-- `save`: one atomic statement, which rejects without effect where the database refuses it. -/
def save (t : Table R.schema) (c : SaveCall Entity) : Option (Table R.schema) := do
  let row ← R.values c.entity c.now
  let set ← R.set c.entity c.date
  t.upsert row set

/-- `db.select().from(table).where(p).limit(1)`, `rows[0]` and `toDomain`. -/
def findOne (t : Table R.schema) (p : Row → Bool) : Option Entity :=
  match (t.selectOne p)[0]? with
  | none => none
  | some row => some (R.toDomain row)

/-- `findById`; the query is refused (`none`) where the text is no uuid. -/
def findById (t : Table R.schema) (id : String) : Option (Option Entity) := do
  let key ← U.input id
  return R.findOne t fun row => R.schema.key row = key

/-- Runs of saves from a table. -/
def machine (t₀ : Table R.schema) : Machine (Table R.schema) (SaveCall Entity) (SaveEvent R) where
  init := t₀
  step t c := some ((R.save t c).getD t, [⟨t, c.entity, R.save t c⟩])

/-- The entity's ids are in canonical form, or no uuids at all. -/
def Unaltered (e : Entity) : Prop := ∀ s ∈ R.uuids e, U.Unaltered s

/-- Runs of saves of such entities. -/
def Runs (t₀ : Table R.schema) (h : List (SaveEvent R)) (t : Table R.schema) : Prop :=
  (R.machine t₀).ReachesWhen (fun _ _ c => R.Unaltered c.entity) h t

/-- The entity of the last successful save with an id. -/
def lastSaved (h : List (SaveEvent R)) (id : String) : Option Entity :=
  (h.reverse.find? fun e => e.after.isSome ∧ R.id e.entity = id).map (·.entity)

/-- The three pieces of a repository agree: a row comes back as the entity it was written
from, whether it was inserted or updated. -/
structure Lossless : Prop where
  id_mem : ∀ e, R.id e ∈ R.uuids e
  id_toDomain : ∀ row, R.id (R.toDomain row) = U.output (R.schema.key row)
  key_values : ∀ {e now row}, R.values e now = some row →
    U.input (R.id e) = some (R.schema.key row)
  toDomain_values : ∀ {e now row}, R.Unaltered e → R.values e now = some row →
    R.toDomain row = e
  toDomain_set : ∀ {e date set row}, R.Unaltered e → R.set e date = some set →
    U.input (R.id e) = some (R.schema.key row) → R.toDomain (set.apply row) = e

/-- What the declared columns and constraints ask of an entity, the same whether a save
inserts or updates. -/
structure Storing (fits : Entity → Bool) (clash : Entity → Row → Bool) : Prop where
  values_isSome : ∀ e now, (R.values e now).isSome ↔ ∀ s ∈ R.uuids e, (U.input s).isSome
  set_isSome : ∀ e date, (∀ s ∈ R.uuids e, (U.input s).isSome) → (R.set e date).isSome
  fits_values : ∀ {e now row}, R.values e now = some row → R.schema.fits row = fits e
  fits_set : ∀ {e date set row}, R.set e date = some set → R.schema.fits row = true →
    R.schema.fits (set.apply row) = fits e
  clash_values : ∀ {e now row}, R.values e now = some row →
    ∀ r, R.schema.clash row r = clash e r
  clash_set : ∀ {e date set}, R.set e date = some set →
    ∀ row r, R.schema.clash (set.apply row) r = clash e r

variable {R}

theorem findOne_eq (t : Table R.schema) (p : Row → Bool) :
    R.findOne t p = (t.rows.find? p).map R.toDomain := by
  rw [findOne, Table.getElem?_selectOne]
  cases t.rows.find? p <;> rfl

/-- A lookup by what only one row can have. -/
theorem findOne_eq_some_iff {t : Table R.schema} {p : Row → Bool}
    (hp : ∀ r ∈ t.rows, ∀ r' ∈ t.rows, p r → p r' → R.schema.key r = R.schema.key r')
    {e : Entity} :
    R.findOne t p = some e ↔ ∃ row ∈ t.rows, p row = true ∧ R.toDomain row = e := by
  rw [findOne_eq, Option.map_eq_some_iff]
  simp only [Table.find?_eq_some_iff_of_unique hp, and_assoc]

/-- Looking up a canonical id reads the row of the uuid. -/
theorem findById_output (t : Table R.schema) (v : U.Value) :
    R.findById t (U.output v) = some ((t.lookup v).map R.toDomain) := by
  rw [findById, U.input_output]
  show some (R.findOne t _) = _
  rw [findOne_eq]
  rfl

theorem lastSaved_concat (h : List (SaveEvent R)) (e : SaveEvent R) (id : String) :
    R.lastSaved (h ++ [e]) id =
      if e.after.isSome ∧ R.id e.entity = id then some e.entity else R.lastSaved h id := by
  unfold lastSaved
  rw [List.reverse_append, List.reverse_singleton, List.singleton_append]
  by_cases he : e.after.isSome ∧ R.id e.entity = id
  · rw [if_pos he, List.find?_cons_of_pos (by simpa using he)]
    rfl
  · rw [if_neg he, List.find?_cons_of_neg (by simpa using he)]

/-- A successful save proposes a row and a set clause, and the database accepts them. -/
theorem save_eq_some_iff {t t' : Table R.schema} {c : SaveCall Entity} :
    R.save t c = some t' ↔
      ∃ row set, R.values c.entity c.now = some row ∧ R.set c.entity c.date = some set ∧
        t.upsert row set = some t' := by
  simp [save, Option.bind_eq_some_iff]

/-! ### Repositories whose only uuid is the id -/

section OneUuid

variable {row : Entity → Timestamp → U.Value → Row}
  {set : Entity → Timestamp → SetClause R.schema}

theorem Lossless.of_one_uuid (huuids : ∀ e, R.uuids e = [R.id e])
    (hvalues : ∀ e now, R.values e now = (U.input (R.id e)).map (row e now))
    (hset : ∀ e date, R.set e date = some (set e date))
    (hid : ∀ r, R.id (R.toDomain r) = U.output (R.schema.key r))
    (hkey : ∀ e now v, R.schema.key (row e now v) = v)
    (hrow : ∀ e now v, U.output v = R.id e → R.toDomain (row e now v) = e)
    (happly : ∀ e date r, U.output (R.schema.key r) = R.id e →
      R.toDomain ((set e date).apply r) = e) : R.Lossless where
  id_mem e := by
    rw [huuids]
    exact List.mem_singleton_self _
  id_toDomain := hid
  key_values := by
    intro e now r h
    obtain ⟨v, hv, rfl⟩ := Option.map_eq_some_iff.mp ((hvalues e now).symm.trans h)
    rw [hv, hkey]
  toDomain_values := by
    intro e now r he h
    obtain ⟨v, hv, rfl⟩ := Option.map_eq_some_iff.mp ((hvalues e now).symm.trans h)
    exact hrow e now v (he _ (huuids e ▸ List.mem_singleton_self _) v hv)
  toDomain_set := by
    intro e date cl r he h hv
    obtain rfl := Option.some.inj ((hset e date).symm.trans h)
    exact happly e date r (he _ (huuids e ▸ List.mem_singleton_self _) _ hv)

theorem Storing.of_one_uuid {fits : Entity → Bool} {clash : Entity → Row → Bool}
    (huuids : ∀ e, R.uuids e = [R.id e])
    (hvalues : ∀ e now, R.values e now = (U.input (R.id e)).map (row e now))
    (hset : ∀ e date, R.set e date = some (set e date))
    (hfits : ∀ e now v, R.schema.fits (row e now v) = fits e)
    (hfits_set : ∀ e date r, R.schema.fits r = true →
      R.schema.fits ((set e date).apply r) = fits e)
    (hclash : ∀ e now v r, R.schema.clash (row e now v) r = clash e r)
    (hclash_set : ∀ e date r r', R.schema.clash ((set e date).apply r) r' = clash e r') :
    R.Storing fits clash where
  values_isSome e now := by
    rw [hvalues, huuids, Option.isSome_map]
    simp
  set_isSome e date _ := by
    rw [hset]
    rfl
  fits_values := by
    intro e now r h
    obtain ⟨v, -, rfl⟩ := Option.map_eq_some_iff.mp ((hvalues e now).symm.trans h)
    exact hfits e now v
  fits_set := by
    intro e date cl r h hr
    obtain rfl := Option.some.inj ((hset e date).symm.trans h)
    exact hfits_set e date r hr
  clash_values := by
    intro e now r h
    obtain ⟨v, -, rfl⟩ := Option.map_eq_some_iff.mp ((hvalues e now).symm.trans h)
    exact hclash e now v
  clash_set := by
    intro e date cl h
    obtain rfl := Option.some.inj ((hset e date).symm.trans h)
    exact hclash_set e date

end OneUuid

section Lossless

variable {t t' : Table R.schema} {c : SaveCall Entity}

/-- Inserted or updated, the row of the entity's id comes back as the entity. -/
theorem Lossless.toDomain_written (hR : R.Lossless) (he : R.Unaltered c.entity) {row : Row}
    {set : SetClause R.schema} (hrow : R.values c.entity c.now = some row)
    (hset : R.set c.entity c.date = some set) : R.toDomain (t.written row set) = c.entity := by
  have hid := hR.key_values hrow
  cases hl : t.lookup (R.schema.key row) with
  | none =>
      rw [Table.written_of_none hl]
      exact hR.toDomain_values he hrow
  | some old =>
      rw [Table.written_of_some hl]
      rw [← (Table.lookup_eq_some_iff.mp hl).2] at hid
      exact hR.toDomain_set he hset hid

/-- One save, as the port sees it. -/
theorem Lossless.lookup_save (hR : R.Lossless) (he : R.Unaltered c.entity)
    (h : R.save t c = some t') (v : U.Value) :
    (t'.lookup v).map R.toDomain =
      if R.id c.entity = U.output v then some c.entity else (t.lookup v).map R.toDomain := by
  obtain ⟨row, set, hrow, hset, hup⟩ := save_eq_some_iff.mp h
  have hid := hR.key_values hrow
  have hout : U.output (R.schema.key row) = R.id c.entity :=
    he _ (hR.id_mem c.entity) _ hid
  have hv : R.id c.entity = U.output v ↔ v = R.schema.key row := by
    rw [← hout]
    constructor
    · intro heq
      exact (UuidType.output_injective heq).symm
    · intro heq₂
      subst heq₂
      rfl
  rw [Table.lookup_upsert hup]
  by_cases hk : v = R.schema.key row
  · rw [if_pos hk, if_pos (hv.mpr hk), Option.map_some, hR.toDomain_written he hrow hset]
  · rw [if_neg hk, if_neg (fun heq => hk (hv.mp heq))]

/-- Run lemma: the table holds, id by id, the entity last saved. -/
theorem Lossless.lookup_eq_lastSaved (hR : R.Lossless) {h : List (SaveEvent R)}
    (hr : R.Runs (.empty R.schema) h t) (v : U.Value) :
    (t.lookup v).map R.toDomain = R.lastSaved h (U.output v) := by
  refine Machine.ReachesWhen.invariant_of
    (I := fun h t => (t.lookup v).map R.toDomain = R.lastSaved h (U.output v)) rfl ?_ hr
  intro h t c t' es _ ih he hs
  obtain ⟨rfl, rfl⟩ := Prod.mk.inj (Option.some.inj hs)
  rw [lastSaved_concat]
  show (((R.save t c).getD t).lookup v).map R.toDomain = _
  cases hsave : R.save t c with
  | none =>
      rw [if_neg (by simp)]
      exact ih
  | some t' =>
      show (t'.lookup v).map R.toDomain = _
      rw [hR.lookup_save he hsave, ih]
      simp

/-- Only entities with a canonical id are ever saved. -/
theorem Lossless.exists_output (hR : R.Lossless) {t₀ : Table R.schema} {h : List (SaveEvent R)}
    (hr : R.Runs t₀ h t) : ∀ e ∈ h, e.after.isSome → ∃ v, U.output v = R.id e.entity := by
  refine Machine.ReachesWhen.invariant_of
    (I := fun h _ => ∀ e ∈ h, e.after.isSome → ∃ v, U.output v = R.id e.entity)
    (fun _ he => absurd he List.not_mem_nil) ?_ hr
  intro h t c t' es _ ih he hs e hmem hsome
  obtain ⟨rfl, rfl⟩ := Prod.mk.inj (Option.some.inj hs)
  rcases List.mem_append.mp hmem with hmem | hmem
  · exact ih e hmem hsome
  · rw [List.mem_singleton] at hmem
    subst hmem
    obtain ⟨t', hsave⟩ := Option.isSome_iff_exists.mp hsome
    obtain ⟨row, _, hrow, -⟩ := save_eq_some_iff.mp hsave
    exact ⟨R.schema.key row, he _ (hR.id_mem c.entity) _ (hR.key_values hrow)⟩

/-- The rows of the table are the entities last saved under their ids. -/
theorem Lossless.exists_row_iff (hR : R.Lossless) {h : List (SaveEvent R)}
    (hr : R.Runs (.empty R.schema) h t) {e : Entity} :
    (∃ row ∈ t.rows, R.toDomain row = e) ↔ R.lastSaved h (R.id e) = some e := by
  constructor
  · intro hex
    obtain ⟨row, hmem, rfl⟩ := hex
    rw [hR.id_toDomain, ← hR.lookup_eq_lastSaved hr, Table.mem_rows_iff.mp hmem]
    rfl
  · intro hlast
    obtain ⟨ev, hev, rfl⟩ := Option.map_eq_some_iff.mp hlast
    have hfound := List.find?_some hev
    have hsome : ev.after.isSome := (of_decide_eq_true hfound).1
    obtain ⟨v, hv⟩ := hR.exists_output hr ev (by simpa using List.mem_of_find?_eq_some hev) hsome
    rw [← hv, ← hR.lookup_eq_lastSaved hr] at hlast
    obtain ⟨row, hrow, hdom⟩ := Option.map_eq_some_iff.mp hlast
    exact ⟨row, (Table.lookup_eq_some_iff.mp hrow).1, hdom⟩

/-- `findById` answers with the entity last saved under the id. -/
theorem Lossless.findById_eq_lastSaved (hR : R.Lossless) {h : List (SaveEvent R)}
    (hr : R.Runs (.empty R.schema) h t) (v : U.Value) :
    R.findById t (U.output v) = some (R.lastSaved h (U.output v)) := by
  rw [findById_output, hR.lookup_eq_lastSaved hr]

end Lossless

/-- When a save resolves. -/
theorem Storing.save_isSome_iff {fits : Entity → Bool} {clash : Entity → Row → Bool}
    (hS : R.Storing fits clash) (hR : R.Lossless) {t : Table R.schema} {c : SaveCall Entity} :
    (R.save t c).isSome ↔
      (∀ s ∈ R.uuids c.entity, (U.input s).isSome) ∧ fits c.entity = true ∧
        ∀ r ∈ t.rows, U.input (R.id c.entity) ≠ some (R.schema.key r) →
          clash c.entity r = false := by
  by_cases huuids : ∀ s ∈ R.uuids c.entity, (U.input s).isSome
  · obtain ⟨row, hrow⟩ := Option.isSome_iff_exists.mp ((hS.values_isSome _ c.now).mpr huuids)
    obtain ⟨set, hset⟩ := Option.isSome_iff_exists.mp (hS.set_isSome _ c.date huuids)
    have hkey : ∀ r, U.input (R.id c.entity) ≠ some (R.schema.key r) ↔
        R.schema.key r ≠ R.schema.key row := by
      intro r
      rw [hR.key_values hrow, ne_eq, Option.some.injEq, eq_comm]
    have hwritten : R.schema.fits (t.written row set) = fits c.entity ∧
        ∀ r, R.schema.clash (t.written row set) r = clash c.entity r := by
      cases hl : t.lookup (R.schema.key row) with
      | none =>
          rw [Table.written_of_none hl]
          exact ⟨hS.fits_values hrow, hS.clash_values hrow⟩
      | some old =>
          rw [Table.written_of_some hl]
          have hold := t.consistent.fits old (Table.lookup_eq_some_iff.mp hl).1
          exact ⟨hS.fits_set hset hold, hS.clash_set hset old⟩
    have hsave : R.save t c = t.upsert row set := by simp [save, hrow, hset]
    rw [hsave, Table.upsert_isSome_iff, hS.fits_values hrow, hwritten.1]
    simp only [hwritten.2, hkey]
    tauto
  · have hnone : R.values c.entity c.now = none :=
      Option.not_isSome_iff_eq_none.mp fun h => huuids ((hS.values_isSome _ _).mp h)
    simp [save, hnone, huuids]

end Repository

end EmailPlatform.Persistence
