import EmailPlatform.Persistence.Repositories

/-!
# EmailPlatform.Persistence.EntityMap

**Each repository is a map of domain entities.** The four are `Lossless` and `Storing`, one
by one, since a field may be missing in the insert, in the update or in the way back of any
of them. From there the map of recipients, campaigns and parser tasks is the run lemma of
`Persistence.Repository`. Users are looked up by email while they are stored by id: the
uniqueness of the email makes the lookup a function of the map, and a changed email frees
the old one.
-/

namespace EmailPlatform.Persistence

variable {U : UuidType}

/-! ### The three pieces of each repository agree -/

theorem pgUserRepository_lossless : (pgUserRepository U).Lossless := by
  refine .of_one_uuid (fun _ => rfl) (fun _ _ => rfl) (fun _ _ => rfl) (fun _ => rfl)
    (fun _ _ _ => rfl) ?_ ?_
  · intro user now v hout
    show UserMapper.toDomain (UserRow.text _) = user
    simp [UserMapper.toDomain, UserMapper.toPersistence, UserRow.text, hout, pgUserRepository]
  · intro user date row hout
    show UserMapper.toDomain (UserRow.text _) = user
    have hid : U.output row.id = user.id := hout
    simp [UserMapper.toDomain, UserRow.text, hid]

theorem newRecipientRow_eq_some_iff {new : NewRecipientRow} {now : Timestamp}
    {row : RecipientRow U.Value} :
    new.row U now = some row ↔
      ∃ id, U.input new.id = some id ∧ ∃ groupId, U.input new.groupId = some groupId ∧
        { new with id, groupId, createdAt := now, updatedAt := now } = row := by
  simp [NewRecipientRow.row, Option.bind_eq_some_iff]

theorem pgRecipientRepository_lossless : (pgRecipientRepository U).Lossless where
  id_mem _ := List.mem_cons_self
  id_toDomain _ := rfl
  key_values := by
    intro recipient now row h
    obtain ⟨id, hid, groupId, -, rfl⟩ := newRecipientRow_eq_some_iff.mp h
    exact hid
  toDomain_values := by
    intro recipient now row hu h
    obtain ⟨id, hid, groupId, hgroup, rfl⟩ := newRecipientRow_eq_some_iff.mp h
    show RecipientMapper.toDomain (RecipientRow.text _) = recipient
    have hout : U.output id = recipient.id := hu _ List.mem_cons_self id hid
    have hgout : U.output groupId = recipient.groupId :=
      hu _ (List.mem_cons_of_mem _ (List.mem_singleton_self _)) groupId hgroup
    simp [RecipientMapper.toDomain, RecipientMapper.toPersistence, RecipientRow.text, hout, hgout]
  toDomain_set := by
    intro recipient date set row hu h hid
    obtain ⟨groupId, hgroup, rfl⟩ := Option.map_eq_some_iff.mp h
    show RecipientMapper.toDomain (RecipientRow.text _) = recipient
    have hout : U.output row.id = recipient.id := hu _ List.mem_cons_self row.id hid
    have hgout : U.output groupId = recipient.groupId :=
      hu _ (List.mem_cons_of_mem _ (List.mem_singleton_self _)) groupId hgroup
    simp [RecipientMapper.toDomain, RecipientRow.text, hout, hgout]

theorem pgCampaignRepository_lossless : (pgCampaignRepository U).Lossless := by
  refine .of_one_uuid (fun _ => rfl) (fun _ _ => rfl) (fun _ _ => rfl) (fun _ => rfl)
    (fun _ _ _ => rfl) ?_ ?_
  · intro campaign now v hout
    show CampaignMapper.toDomain (CampaignRow.text _) = campaign
    simp [CampaignMapper.toDomain, CampaignMapper.toPersistence, CampaignRow.text, hout,
      pgCampaignRepository]
  · intro campaign date row hout
    show CampaignMapper.toDomain (CampaignRow.text _) = campaign
    have hid : U.output row.id = campaign.id := hout
    simp [CampaignMapper.toDomain, CampaignRow.text, hid]

theorem pgParserTaskRepository_lossless : (pgParserTaskRepository U).Lossless := by
  refine .of_one_uuid (fun _ => rfl) (fun _ _ => rfl) (fun _ _ => rfl) (fun _ => rfl)
    (fun _ _ _ => rfl) ?_ ?_
  · intro task now v hout
    show ParserTaskMapper.toDomain (ParserTaskRow.text _) = task
    simp [ParserTaskMapper.toDomain, ParserTaskMapper.toPersistence, ParserTaskRow.text, hout,
      pgParserTaskRepository]
  · intro task date row hout
    show ParserTaskMapper.toDomain (ParserTaskRow.text _) = task
    have hid : U.output row.id = task.id := hout
    simp [ParserTaskMapper.toDomain, ParserTaskRow.text, hid]

/-! ### What fits -/

/-- The texts of a user fit their columns. -/
def User.fits (user : User) : Bool :=
  varchar columnLengthDefault user.email && varchar columnLengthShort user.role &&
    varchar columnLengthDefault user.organization && varchar columnLengthDefault user.team

/-- The texts of a recipient fit their columns. -/
def Recipient.fits (recipient : Recipient) : Bool := varchar columnLengthDefault recipient.email

/-- The texts of a campaign fit their columns. -/
def Campaign.fits (campaign : Campaign) : Bool :=
  varchar columnLengthDefault campaign.name && varchar columnLengthShort campaign.status

/-- The texts of a parser task fit their columns. -/
def ParserTask.fits (task : ParserTask) : Bool :=
  varchar columnLengthShort task.status && varchar columnLengthMedium task.category

theorem pgUserRepository_storing :
    (pgUserRepository U).Storing User.fits (fun user row => user.email = row.email) := by
  refine .of_one_uuid (fun _ => rfl) (fun _ _ => rfl) (fun _ _ => rfl) ?_ ?_
    (fun _ _ _ _ => rfl) (fun _ _ _ _ => rfl)
  · -- the blank hash of an insert fits
    intro user now v
    have hblank : varchar columnLengthDefault "" = true := rfl
    simp [pgUserRepository, users, User.fits, UserMapper.toPersistence, hblank]
  · intro user date row hrow
    have hhash : varchar columnLengthDefault row.passwordHash = true := by
      simp only [pgUserRepository, users, Bool.and_eq_true] at hrow
      exact hrow.1.1.1.2
    simp [pgUserRepository, users, User.fits, hhash]

theorem pgRecipientRepository_storing :
    (pgRecipientRepository U).Storing Recipient.fits (fun _ _ => false) where
  values_isSome recipient now := by
    show ((RecipientMapper.toPersistence recipient).row U now).isSome ↔
      ∀ s ∈ [recipient.id, recipient.groupId], (U.input s).isSome
    simp [Option.isSome_iff_exists, newRecipientRow_eq_some_iff, RecipientMapper.toPersistence]
  set_isSome recipient _ h :=
    Option.isSome_map.trans
      (h recipient.groupId (List.mem_cons_of_mem _ (List.mem_singleton_self _)))
  fits_values := by
    intro recipient now row h
    obtain ⟨id, -, groupId, -, rfl⟩ := newRecipientRow_eq_some_iff.mp h
    rfl
  fits_set := by
    intro recipient date set row h _
    obtain ⟨groupId, -, rfl⟩ := Option.map_eq_some_iff.mp h
    rfl
  clash_values _ _ := rfl
  clash_set _ _ _ := rfl

theorem pgCampaignRepository_storing :
    (pgCampaignRepository U).Storing Campaign.fits (fun _ _ => false) :=
  .of_one_uuid (fun _ => rfl) (fun _ _ => rfl) (fun _ _ => rfl) (fun _ _ _ => rfl)
    (fun _ _ _ _ => rfl) (fun _ _ _ _ => rfl) (fun _ _ _ _ => rfl)

theorem pgParserTaskRepository_storing :
    (pgParserTaskRepository U).Storing ParserTask.fits (fun _ _ => false) :=
  .of_one_uuid (fun _ => rfl) (fun _ _ => rfl) (fun _ _ => rfl) (fun _ _ _ => rfl)
    (fun _ _ _ _ => rfl) (fun _ _ _ _ => rfl) (fun _ _ _ _ => rfl)

/-! ### The maps -/

/-- The repository is a map from ids to entities, over every run of saves from an empty
table. A save that resolves is a write of the map and one that rejects is none; it rejects
exactly when some value does not fit its column. -/
structure Repository.RefinesMap {Entity Row : Type} (R : Repository U Entity Row)
    (fits : Entity → Bool) : Prop where
  find : ∀ {h t}, R.Runs (.empty R.schema) h t → ∀ v,
    R.findById t (U.output v) = some (R.lastSaved h (U.output v))
  resolves_iff : ∀ {h t}, R.Runs (.empty R.schema) h t → ∀ c,
    (R.save t c).isSome ↔
      (∀ s ∈ R.uuids c.entity, (U.input s).isSome) ∧ fits c.entity = true
  rejected : ∀ {t₀ t} c, R.save t c = none →
    (R.machine t₀).step t c = some (t, [⟨t, c.entity, none⟩])

/-- The user repository is a map from ids to users in which no two users have one email,
looked up by email. -/
structure UsersRefineMap (U : UuidType) : Prop where
  /-- The user last saved under its id, if it has the email. -/
  find_iff : ∀ {h t}, (pgUserRepository U).Runs (.empty (pgUserRepository U).schema) h t →
    ∀ email user, findByEmail U t email = some user ↔
      (pgUserRepository U).lastSaved h user.id = some user ∧ user.email = email
  unique : ∀ {h t}, (pgUserRepository U).Runs (.empty (pgUserRepository U).schema) h t →
    ∀ user user',
    (pgUserRepository U).lastSaved h user.id = some user →
    (pgUserRepository U).lastSaved h user'.id = some user' →
    user.email = user'.email → user = user'
  resolves_iff : ∀ {h t}, (pgUserRepository U).Runs (.empty (pgUserRepository U).schema) h t →
    ∀ c, (pgUserRepository U).Unaltered c.entity →
    (((pgUserRepository U).save t c).isSome ↔
      (U.input c.entity.id).isSome ∧ c.entity.fits = true ∧
        ∀ user, (pgUserRepository U).lastSaved h user.id = some user →
          user.email = c.entity.email → user.id = c.entity.id)
  rejected : ∀ {t₀ t} c, (pgUserRepository U).save t c = none →
    ((pgUserRepository U).machine t₀).step t c = some (t, [⟨t, c.entity, none⟩])
  /-- Once a user's email has changed, the old one is found no more, and any user that the
  columns take can have it. -/
  rekeyed : ∀ {h t}, (pgUserRepository U).Runs (.empty (pgUserRepository U).schema) h t →
    ∀ {c t' email user},
    findByEmail U t email = some user → (pgUserRepository U).Unaltered c.entity →
    c.entity.id = user.id → c.entity.email ≠ email → (pgUserRepository U).save t c = some t' →
      findByEmail U t' email = none ∧
        ∀ c', (pgUserRepository U).Unaltered c'.entity → (U.input c'.entity.id).isSome →
          c'.entity.email = email → c'.entity.fits = true →
            ((pgUserRepository U).save t' c').isSome

theorem Repository.step_of_rejected {Entity Row : Type} {R : Repository U Entity Row}
    {t₀ t : Table R.schema} {c : SaveCall Entity} (h : R.save t c = none) :
    (R.machine t₀).step t c = some (t, [⟨t, c.entity, none⟩]) := by
  show some ((R.save t c).getD t, [(⟨t, c.entity, R.save t c⟩ : SaveEvent R)]) = _
  rw [h]
  rfl

theorem Repository.Storing.refinesMap {Entity Row : Type} {R : Repository U Entity Row}
    {fits : Entity → Bool} (hS : R.Storing fits (fun _ _ => false)) (hR : R.Lossless) :
    R.RefinesMap fits where
  find hr v := hR.findById_eq_lastSaved hr v
  resolves_iff _ c := by
    rw [hS.save_isSome_iff hR]
    simp
  rejected _ h := R.step_of_rejected h

section Users

variable {h : List (SaveEvent (pgUserRepository U))} {t t' : Table (pgUserRepository U).schema}

/-- Rows with one email are one row. -/
theorem users_key_eq_of_email {row row' : UserRow U.Value} (hrow : row ∈ t.rows)
    (hrow' : row' ∈ t.rows) (hemail : row.email = row'.email) : row.id = row'.id := by
  by_contra hne
  have hclash := t.consistent.unique row hrow row' hrow' hne
  exact absurd hemail (of_decide_eq_false hclash)

theorem findByEmail_eq_some_iff {email : String} {user : User} :
    findByEmail U t email = some user ↔
      ∃ row ∈ t.rows, row.email = email ∧ (pgUserRepository U).toDomain row = user := by
  unfold findByEmail
  rw [Repository.findOne_eq_some_iff]
  · simp
  · intro row hrow row' hrow' he he'
    exact users_key_eq_of_email hrow hrow'
      ((of_decide_eq_true he).trans (of_decide_eq_true he').symm)

theorem findByEmail_eq_some_iff_lastSaved
    (hr : (pgUserRepository U).Runs (.empty (pgUserRepository U).schema) h t) (email : String)
    (user : User) :
    findByEmail U t email = some user ↔
      (pgUserRepository U).lastSaved h user.id = some user ∧ user.email = email := by
  rw [findByEmail_eq_some_iff]
  have hrows := pgUserRepository_lossless.exists_row_iff hr (e := user)
  constructor
  · intro hex
    obtain ⟨row, hrow, rfl, hdom⟩ := hex
    refine ⟨hrows.mp ⟨row, hrow, hdom⟩, ?_⟩
    rw [← hdom]
    rfl
  · intro hboth
    obtain ⟨hlast, rfl⟩ := hboth
    obtain ⟨row, hrow, hdom⟩ := hrows.mpr hlast
    refine ⟨row, hrow, ?_, hdom⟩
    rw [← hdom]
    rfl

/-- A save of a user resolves when its values fit and no other user of the map has its email. -/
theorem save_user_isSome_iff
    (hr : (pgUserRepository U).Runs (.empty (pgUserRepository U).schema) h t)
    {c : SaveCall User} (hc : (pgUserRepository U).Unaltered c.entity) :
    ((pgUserRepository U).save t c).isSome ↔
      (U.input c.entity.id).isSome ∧ c.entity.fits = true ∧
        ∀ user, (pgUserRepository U).lastSaved h user.id = some user →
          user.email = c.entity.email → user.id = c.entity.id := by
  have hid : ∀ v, U.input c.entity.id = some v ↔ U.output v = c.entity.id := by
    intro v
    constructor
    · exact hc c.entity.id (List.mem_singleton_self _) v
    · intro hv
      rw [← hv, U.input_output]
  have huuids : (∀ s ∈ (pgUserRepository U).uuids c.entity, (U.input s).isSome) ↔
      (U.input c.entity.id).isSome := by
    simp [pgUserRepository]
  rw [pgUserRepository_storing.save_isSome_iff pgUserRepository_lossless, huuids]
  refine and_congr_right fun _ => and_congr_right fun _ => ?_
  constructor
  · intro hrows user hlast hemail
    obtain ⟨row, hrow, rfl⟩ := (pgUserRepository_lossless.exists_row_iff hr).mpr hlast
    by_contra hne
    have hother := hrows row hrow fun hin => hne ((hid row.id).mp hin)
    exact of_decide_eq_false hother hemail.symm
  · intro hmap row hrow hne
    refine decide_eq_false fun hemail => hne ((hid row.id).mpr ?_)
    exact hmap _ ((pgUserRepository_lossless.exists_row_iff hr).mp ⟨row, hrow, rfl⟩) hemail.symm

/-- A user saved with another email leaves nobody with the old one. -/
theorem findByEmail_rekeyed
    (hr : (pgUserRepository U).Runs (.empty (pgUserRepository U).schema) h t)
    {c : SaveCall User} {email : String} {user : User}
    (hfind : findByEmail U t email = some user) (hid : c.entity.id = user.id)
    (hne : c.entity.email ≠ email) (after : Table (pgUserRepository U).schema) :
    ∀ user',
      (pgUserRepository U).lastSaved (h ++ [⟨t, c.entity, some after⟩]) user'.id = some user' →
      user'.email ≠ email := by
  intro user' hlast hemail
  rw [Repository.lastSaved_concat] at hlast
  split at hlast
  · obtain rfl := Option.some.inj hlast
    exact hne hemail
  · next hother =>
    -- the one user that had the email is the one that was saved
    obtain ⟨hold, holdEmail⟩ := (findByEmail_eq_some_iff_lastSaved hr email user).mp hfind
    have hfind' := (findByEmail_eq_some_iff_lastSaved hr email user').mpr ⟨hlast, hemail⟩
    obtain rfl := Option.some.inj (hfind.symm.trans hfind')
    exact hother ⟨rfl, hid⟩

end Users

theorem usersRefineMap : UsersRefineMap U where
  find_iff hr email user := findByEmail_eq_some_iff_lastSaved hr email user
  unique := by
    intro h t hr user user' hlast hlast' hemail
    have hfind := (findByEmail_eq_some_iff_lastSaved hr user.email user).mpr ⟨hlast, rfl⟩
    have hfind' := (findByEmail_eq_some_iff_lastSaved hr user.email user').mpr
      ⟨hlast', hemail.symm⟩
    exact Option.some.inj (hfind.symm.trans hfind')
  resolves_iff hr _ hc := save_user_isSome_iff hr hc
  rejected _ h := (pgUserRepository U).step_of_rejected h
  rekeyed := by
    intro h t hr c t' email user hfind hc hid hne hsave
    have hstep : ((pgUserRepository U).machine (.empty _)).step t c
        = some (t', [⟨t, c.entity, some t'⟩]) := by
      show some (((pgUserRepository U).save t c).getD t,
        [(⟨t, c.entity, (pgUserRepository U).save t c⟩ : SaveEvent _)]) = _
      rw [hsave]
      rfl
    have hr' := hr.step hc hstep
    have hfree := findByEmail_rekeyed hr hfind hid hne t'
    constructor
    · cases hf : findByEmail U t' email with
      | none => rfl
      | some user' =>
          obtain ⟨hlast, hemail⟩ := (findByEmail_eq_some_iff_lastSaved hr' email user').mp hf
          exact absurd hemail (hfree user' hlast)
    · intro c' hc' huuid hemail hfits
      refine (save_user_isSome_iff hr' hc').mpr ⟨huuid, hfits, ?_⟩
      intro user' hlast hemail'
      exact absurd (hemail'.trans hemail) (hfree user' hlast)

/-- **The repositories refine maps of entities.** -/
theorem repositories_refine_maps (U : UuidType) :
    UsersRefineMap U ∧ (pgRecipientRepository U).RefinesMap Recipient.fits ∧
      (pgCampaignRepository U).RefinesMap Campaign.fits ∧
      (pgParserTaskRepository U).RefinesMap ParserTask.fits :=
  ⟨usersRefineMap, pgRecipientRepository_storing.refinesMap pgRecipientRepository_lossless,
    pgCampaignRepository_storing.refinesMap pgCampaignRepository_lossless,
    pgParserTaskRepository_storing.refinesMap pgParserTaskRepository_lossless⟩

theorem canonicalUuid_unaltered (s : String) : canonicalUuid.Unaltered s := by
  intro v hv
  by_cases hs : isCanonicalUuid s = true
  · have hin : canonicalUuid.input s = some ⟨s, hs⟩ := dif_pos hs
    obtain rfl := Option.some.inj (hin.symm.trans hv)
    rfl
  · have hin : canonicalUuid.input s = none := dif_neg hs
    rw [hin] at hv
    cases hv

/-- A campaign that is inserted and then updated is found as updated. -/
theorem repositories_refine_maps_updated :
    ∃ h t, (pgCampaignRepository canonicalUuid).Runs (.empty _) h t ∧
      (pgCampaignRepository canonicalUuid).findById t "0a1b2c3d-0a1b-4c2d-8e3f-0a1b2c3d4e5f" =
        some (some ⟨"0a1b2c3d-0a1b-4c2d-8e3f-0a1b2c3d4e5f", "Spring", "sent"⟩) := by
  have hr : (pgCampaignRepository canonicalUuid).Runs (.empty _) _ _ :=
    .step (a := ⟨⟨"0a1b2c3d-0a1b-4c2d-8e3f-0a1b2c3d4e5f", "Spring", "sent"⟩, 2, 2⟩)
      (.step (a := ⟨⟨"0a1b2c3d-0a1b-4c2d-8e3f-0a1b2c3d4e5f", "Spring", "draft"⟩, 1, 1⟩) .init
        (fun s _ => canonicalUuid_unaltered s) rfl)
      (fun s _ => canonicalUuid_unaltered s) rfl
  refine ⟨_, _, hr, ?_⟩
  exact ((repositories_refine_maps canonicalUuid).2.2.1.find hr
    ⟨"0a1b2c3d-0a1b-4c2d-8e3f-0a1b2c3d4e5f", by decide⟩).trans rfl

end EmailPlatform.Persistence
