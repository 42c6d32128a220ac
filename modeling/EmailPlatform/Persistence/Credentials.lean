import EmailPlatform.Persistence.EntityMap

/-!
# EmailPlatform.Persistence.Credentials

**Credentials in the user repository.** A save that updates writes neither the password hash
nor the creation time, and a save with another user's email is refused. A save that inserts
writes the blank hash, since the port hands the repository no hash at all. So the stored
hashes survive a run exactly when no save of it creates an account
(`credentials_survive_iff`).
-/

namespace EmailPlatform.Persistence

variable {U : UuidType}

/-- Every stored user has a password hash. -/
def Hashed (t : Table (pgUserRepository U).schema) : Prop :=
  ∀ row ∈ t.rows, row.passwordHash ≠ ""

/-- A save of the user creates an account: the id is a uuid that no row has, the values fit
and no row has the email. -/
def Creates (t : Table (pgUserRepository U).schema) (user : User) : Prop :=
  (∃ id, U.input user.id = some id ∧ t.lookup id = none) ∧ user.fits = true ∧
    ∀ row ∈ t.rows, row.email ≠ user.email

/-- Some row of another user has the email. -/
def EmailHeld (t : Table (pgUserRepository U).schema) (user : User) : Prop :=
  ∃ row ∈ t.rows, row.email = user.email ∧ U.input user.id ≠ some row.id

/-- What a save must leave of the credentials in the table. -/
structure CredentialsSurvive (e : SaveEvent (pgUserRepository U)) : Prop where
  hashed : Hashed (e.after.getD e.before)
  kept : ∀ row ∈ e.before.rows, ∃ row' ∈ (e.after.getD e.before).rows,
    row'.id = row.id ∧ row'.passwordHash = row.passwordHash ∧ row'.createdAt = row.createdAt
  refused : EmailHeld e.before e.entity → e.after = none

section Save

variable {t t' : Table (pgUserRepository U).schema} {c : SaveCall User}

/-- The row that an update leaves. -/
def updatedRow (c : SaveCall User) (row : UserRow U.Value) : UserRow U.Value :=
  { row with
    email := c.entity.email
    role := c.entity.role
    organization := c.entity.organization
    team := c.entity.team
    updatedAt := c.date }

/-- What a successful save does: it inserts a row with a blank hash, or changes the user's
row outside the hash and the creation time. -/
theorem save_user_cases (h : (pgUserRepository U).save t c = some t') :
    (Creates t c.entity ∧ (∀ row ∈ t.rows, row ∈ t'.rows) ∧
      ∃ row ∈ t'.rows, row.passwordHash = "") ∨
    (¬ Creates t c.entity ∧ ∃ old ∈ t.rows, ∀ row,
      row ∈ t'.rows ↔ row = updatedRow c old ∨ (row.id ≠ old.id ∧ row ∈ t.rows)) := by
  obtain ⟨new, set, hnew, hset, hup⟩ := Repository.save_eq_some_iff.mp h
  have hid : U.input c.entity.id = some ((pgUserRepository U).schema.key new) :=
    pgUserRepository_lossless.key_values hnew
  have hblank : new.passwordHash = "" := by
    obtain ⟨id, -, rfl⟩ := Option.map_eq_some_iff.mp hnew
    rfl
  have hset' : ∀ row, set.apply row = updatedRow c row := by
    obtain rfl := Option.some.inj hset
    exact fun _ => rfl
  obtain ⟨-, hfits, hclash⟩ :=
    (pgUserRepository_storing.save_isSome_iff pgUserRepository_lossless).mp
      (Option.isSome_iff_exists.mpr ⟨t', h⟩)
  cases hl : t.lookup ((pgUserRepository U).schema.key new) with
  | none =>
      left
      have hkeys := Table.lookup_eq_none_iff.mp hl
      refine ⟨⟨⟨_, hid, hl⟩, hfits, fun row hrow hemail => ?_⟩, fun row hrow => ?_, new, ?_, hblank⟩
      · have hne : U.input c.entity.id ≠ some ((pgUserRepository U).schema.key row) := fun hin =>
          hkeys row hrow (Option.some.inj (hin.symm.trans hid))
        exact of_decide_eq_false (hclash row hrow hne) hemail.symm
      · exact (Table.mem_rows_upsert hup).mpr (.inr ⟨hkeys row hrow, hrow⟩)
      · exact (Table.mem_rows_upsert hup).mpr (.inl (Table.written_of_none hl).symm)
  | some old =>
      right
      obtain ⟨hold, hkey⟩ := Table.lookup_eq_some_iff.mp hl
      refine ⟨?_, old, hold, fun row => ?_⟩
      · intro ⟨⟨id, hid', hnone⟩, _⟩
        obtain rfl := Option.some.inj (hid.symm.trans hid')
        rw [hl] at hnone
        cases hnone
      · rw [Table.mem_rows_upsert hup, Table.written_of_some hl, hset', ← hkey]
        rfl

/-- The hashes survive one save exactly when it creates no account. -/
theorem hashed_save_iff (ht : Hashed t) :
    Hashed (((pgUserRepository U).save t c).getD t) ↔ ¬ Creates t c.entity := by
  cases h : (pgUserRepository U).save t c with
  | none =>
      refine iff_of_true ht fun hcreates => ?_
      obtain ⟨⟨id, hid, hl⟩, hfits, hemail⟩ := hcreates
      have hsome : ((pgUserRepository U).save t c).isSome := by
        refine (pgUserRepository_storing.save_isSome_iff pgUserRepository_lossless).mpr
          ⟨?_, hfits, fun row hrow _ => decide_eq_false (hemail row hrow).symm⟩
        intro s hs
        rw [List.mem_singleton.mp hs, hid]
        rfl
      rw [h] at hsome
      cases hsome
  | some t' =>
      show Hashed t' ↔ _
      rcases save_user_cases h with ⟨hcreates, -, row, hrow, hblank⟩ | ⟨hnot, old, hold, hmem⟩
      · exact iff_of_false (fun hhashed => hhashed row hrow hblank) (not_not_intro hcreates)
      · refine iff_of_true (fun row hrow => ?_) hnot
        rcases (hmem row).mp hrow with rfl | ⟨-, hin⟩
        · exact ht old hold
        · exact ht row hin

/-- No save changes a stored hash or creation time. -/
theorem kept_save : ∀ row ∈ t.rows, ∃ row' ∈ (((pgUserRepository U).save t c).getD t).rows,
    row'.id = row.id ∧ row'.passwordHash = row.passwordHash ∧
      row'.createdAt = row.createdAt := by
  intro row hrow
  cases h : (pgUserRepository U).save t c with
  | none => exact ⟨row, hrow, rfl, rfl, rfl⟩
  | some t' =>
      rcases save_user_cases h with ⟨-, hkept, -⟩ | ⟨-, old, hold, hmem⟩
      · exact ⟨row, hkept row hrow, rfl, rfl, rfl⟩
      · by_cases hid : row.id = old.id
        · obtain rfl := Table.eq_of_key_eq hrow hold hid
          exact ⟨updatedRow c row, (hmem _).mpr (.inl rfl), rfl, rfl, rfl⟩
        · exact ⟨row, (hmem row).mpr (.inr ⟨hid, hrow⟩), rfl, rfl, rfl⟩

/-- A save with another user's email is refused. -/
theorem save_eq_none_of_emailHeld (h : EmailHeld t c.entity) :
    (pgUserRepository U).save t c = none := by
  obtain ⟨row, hrow, hemail, hid⟩ := h
  rw [← Option.not_isSome_iff_eq_none,
    pgUserRepository_storing.save_isSome_iff pgUserRepository_lossless]
  intro ⟨_, _, hclash⟩
  exact of_decide_eq_false (hclash row hrow hid) hemail.symm

theorem credentialsSurvive_save_iff (ht : Hashed t) :
    CredentialsSurvive ⟨t, c.entity, (pgUserRepository U).save t c⟩ ↔ ¬ Creates t c.entity := by
  constructor
  · intro hsurvive
    exact (hashed_save_iff ht).mp hsurvive.hashed
  · intro hnot
    exact ⟨(hashed_save_iff ht).mpr hnot, kept_save, save_eq_none_of_emailHeld⟩

end Save

/-- **Credentials survive a run exactly when no save of it creates an account.** -/
theorem credentials_survive_iff {t₀ t : Table (pgUserRepository U).schema}
    {h : List (SaveEvent (pgUserRepository U))} (h₀ : Hashed t₀)
    (hr : ((pgUserRepository U).machine t₀).Reaches h t) :
    (∀ e ∈ h, CredentialsSurvive e) ↔ ∀ e ∈ h, ¬ Creates e.before e.entity := by
  -- the state is hashed as long as no account is created
  suffices hinv : ((∀ e ∈ h, CredentialsSurvive e) ↔ ∀ e ∈ h, ¬ Creates e.before e.entity) ∧
      ((∀ e ∈ h, ¬ Creates e.before e.entity) → Hashed t) from hinv.1
  refine Machine.Reaches.invariant
    (I := fun h t => ((∀ e ∈ h, CredentialsSurvive e) ↔ ∀ e ∈ h, ¬ Creates e.before e.entity) ∧
      ((∀ e ∈ h, ¬ Creates e.before e.entity) → Hashed t)) ⟨by simp, fun _ => h₀⟩ ?_ hr
  intro h t c t' es _ ⟨hiff, hhashed⟩ hs
  obtain ⟨rfl, rfl⟩ := Prod.mk.inj (Option.some.inj hs)
  simp only [List.forall_mem_append, List.forall_mem_singleton]
  constructor
  · rw [hiff]
    exact and_congr_right fun hnone => credentialsSurvive_save_iff (hhashed hnone)
  · intro ⟨hnone, hnot⟩
    exact (hashed_save_iff (hhashed hnone)).mpr hnot

/-- A uuid in canonical form. -/
def sampleId : canonicalUuid.Value := ⟨"0a1b2c3d-0a1b-4c2d-8e3f-0a1b2c3d4e5f", by decide⟩

/-- A user. -/
def sampleUser : User :=
  ⟨canonicalUuid.output sampleId, "user@example.com", "admin", "Example", "Core"⟩

/-- An account with that id and a password hash. -/
def sampleTable : Table (pgUserRepository canonicalUuid).schema where
  rows := [⟨sampleId, "old@example.com", "$2b$10$hash", "user", "Example", "Core", 0, 0⟩]
  consistent := ⟨by simp, by simp, by simp; decide⟩

/-- An update of an account leaves the credentials. -/
theorem credentials_survive_iff_update :
    CredentialsSurvive ⟨sampleTable, sampleUser,
      (pgUserRepository canonicalUuid).save sampleTable ⟨sampleUser, 1, 1⟩⟩ := by
  have hashed : Hashed sampleTable := by simp [Hashed, sampleTable]
  refine (credentials_survive_iff hashed (.step (a := ⟨sampleUser, 1, 1⟩) .init rfl)).mpr ?_ _
    (List.mem_singleton_self _)
  intro e he h
  obtain ⟨⟨id, hid, hl⟩, -⟩ := h
  obtain rfl := List.mem_singleton.mp he
  obtain rfl : sampleId = id :=
    Option.some.inj ((canonicalUuid.input_output sampleId).symm.trans hid)
  exact Table.lookup_eq_none_iff.mp hl _ List.mem_cons_self rfl

/-- The first save of a user stores a blank hash. -/
theorem credentials_lost_on_insert :
    ¬ ∀ (U : UuidType) (t₀ t : Table (pgUserRepository U).schema)
        (h : List (SaveEvent (pgUserRepository U))),
        Hashed t₀ → ((pgUserRepository U).machine t₀).Reaches h t →
          ∀ e ∈ h, CredentialsSurvive e := by
  intro hall
  have hashed : Hashed (.empty (pgUserRepository canonicalUuid).schema) := by
    simp [Hashed]
  have hsurvive := hall canonicalUuid _ _ _ hashed (.step (a := ⟨sampleUser, 0, 0⟩) .init rfl)
  refine (hashed_save_iff hashed).mp (hsurvive _ (List.mem_singleton_self _)).hashed ?_
  exact ⟨⟨sampleId, canonicalUuid.input_output sampleId, rfl⟩, rfl, by simp⟩

end EmailPlatform.Persistence
