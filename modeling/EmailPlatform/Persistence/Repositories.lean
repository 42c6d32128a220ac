import EmailPlatform.Persistence.Repository

/-!
# EmailPlatform.Persistence.Repositories

The tables, mappers and repositories of the users, recipients, campaigns and parser tasks.
A row has its `uuid` columns typed by a parameter: the stored row holds values, the row that
a query returns holds their texts.
-/

namespace EmailPlatform.Persistence

variable (U : UuidType)

/-! ### Users -/

/-- A user, as the domain has it: without the password hash. -/
structure User where
  id : String
  email : String
  role : String
  organization : String
  team : String
  deriving DecidableEq, Repr

/-- A row of `auth.users`. -/
structure UserRow (Id : Type) where
  id : Id
  email : String
  passwordHash : String
  role : String
  organization : String
  team : String
  createdAt : Timestamp
  updatedAt : Timestamp
  deriving DecidableEq, Repr

/-- The values of an insert into `auth.users`. -/
structure NewUserRow where
  id : String
  email : String
  passwordHash : String
  role : String
  organization : String
  team : String
  deriving DecidableEq, Repr

/-- `auth.users`: the email is unique. -/
def users : Schema (UserRow U.Value) U.Value where
  key r := r.id
  clash r r' := r.email = r'.email
  clash_comm _ _ := decide_eq_decide.mpr eq_comm
  fits r :=
    varchar columnLengthDefault r.email && varchar columnLengthDefault r.passwordHash &&
      varchar columnLengthShort r.role && varchar columnLengthDefault r.organization &&
      varchar columnLengthDefault r.team

namespace UserMapper

/-- `UserMapper.toDomain` -/
def toDomain (row : UserRow String) : User :=
  ⟨row.id, row.email, row.role, row.organization, row.team⟩

/-- `UserMapper.toPersistence` -/
def toPersistence (user : User) (passwordHash : String) : NewUserRow :=
  { id := user.id
    email := user.email
    passwordHash
    role := user.role
    organization := user.organization
    team := user.team }

end UserMapper

variable {U} in
/-- The row of a query. -/
def UserRow.text (row : UserRow U.Value) : UserRow String :=
  { row with id := U.output row.id }

/-- The proposed row, with the defaults of the timestamps. -/
def NewUserRow.row (new : NewUserRow) (now : Timestamp) : Option (UserRow U.Value) :=
  (U.input new.id).map fun id => { new with id, createdAt := now, updatedAt := now }

/-- `PgUserRepository` -/
def pgUserRepository : Repository U User (UserRow U.Value) where
  schema := users U
  id user := user.id
  uuids user := [user.id]
  values user now := (UserMapper.toPersistence user "").row U now
  set user date := some
    { apply := fun row =>
        { row with
          email := user.email
          role := user.role
          organization := user.organization
          team := user.team
          updatedAt := date }
      key_apply := fun _ => rfl }
  toDomain row := UserMapper.toDomain row.text

/-- `PgUserRepository.findByEmail` -/
def findByEmail (t : Table (pgUserRepository U).schema) (email : String) : Option User :=
  (pgUserRepository U).findOne t fun row => row.email = email

/-! ### Recipients -/

/-- A recipient. -/
structure Recipient where
  id : String
  email : String
  groupId : String
  deriving DecidableEq, Repr

/-- A row of `audience.recipients`. -/
structure RecipientRow (Id : Type) where
  id : Id
  email : String
  groupId : Id
  createdAt : Timestamp
  updatedAt : Timestamp
  deriving DecidableEq, Repr

/-- The values of an insert into `audience.recipients`. -/
structure NewRecipientRow where
  id : String
  email : String
  groupId : String
  deriving DecidableEq, Repr

/-- `audience.recipients` -/
def recipients : Schema (RecipientRow U.Value) U.Value where
  key r := r.id
  clash _ _ := false
  clash_comm _ _ := rfl
  fits r := varchar columnLengthDefault r.email

namespace RecipientMapper

/-- `RecipientMapper.toDomain` -/
def toDomain (row : RecipientRow String) : Recipient := ⟨row.id, row.email, row.groupId⟩

/-- `RecipientMapper.toPersistence` -/
def toPersistence (recipient : Recipient) : NewRecipientRow :=
  { id := recipient.id
    email := recipient.email
    groupId := recipient.groupId }

end RecipientMapper

variable {U} in
/-- The row of a query. -/
def RecipientRow.text (row : RecipientRow U.Value) : RecipientRow String :=
  { row with id := U.output row.id, groupId := U.output row.groupId }

/-- The proposed row, with the defaults of the timestamps. -/
def NewRecipientRow.row (new : NewRecipientRow) (now : Timestamp) :
    Option (RecipientRow U.Value) := do
  let id ← U.input new.id
  let groupId ← U.input new.groupId
  return { new with id, groupId, createdAt := now, updatedAt := now }

/-- `PgRecipientRepository` -/
def pgRecipientRepository : Repository U Recipient (RecipientRow U.Value) where
  schema := recipients U
  id recipient := recipient.id
  uuids recipient := [recipient.id, recipient.groupId]
  values recipient now := (RecipientMapper.toPersistence recipient).row U now
  set recipient date := (U.input recipient.groupId).map fun groupId =>
    { apply := fun row =>
        { row with
          email := recipient.email
          groupId := groupId
          updatedAt := date }
      key_apply := fun _ => rfl }
  toDomain row := RecipientMapper.toDomain row.text

/-! ### Campaigns -/

/-- A campaign. -/
structure Campaign where
  id : String
  name : String
  status : String
  deriving DecidableEq, Repr

/-- A row of `sender.campaigns`. -/
structure CampaignRow (Id : Type) where
  id : Id
  name : String
  status : String
  createdAt : Timestamp
  updatedAt : Timestamp
  deriving DecidableEq, Repr

/-- The values of an insert into `sender.campaigns`. -/
structure NewCampaignRow where
  id : String
  name : String
  status : String
  deriving DecidableEq, Repr

/-- `sender.campaigns` -/
def campaigns : Schema (CampaignRow U.Value) U.Value where
  key r := r.id
  clash _ _ := false
  clash_comm _ _ := rfl
  fits r := varchar columnLengthDefault r.name && varchar columnLengthShort r.status

namespace CampaignMapper

/-- `CampaignMapper.toDomain` -/
def toDomain (row : CampaignRow String) : Campaign := ⟨row.id, row.name, row.status⟩

/-- `CampaignMapper.toPersistence` -/
def toPersistence (campaign : Campaign) : NewCampaignRow :=
  { id := campaign.id
    name := campaign.name
    status := campaign.status }

end CampaignMapper

variable {U} in
/-- The row of a query. -/
def CampaignRow.text (row : CampaignRow U.Value) : CampaignRow String :=
  { row with id := U.output row.id }

/-- The proposed row, with the defaults of the timestamps. -/
def NewCampaignRow.row (new : NewCampaignRow) (now : Timestamp) :
    Option (CampaignRow U.Value) :=
  (U.input new.id).map fun id => { new with id, createdAt := now, updatedAt := now }

/-- `PgCampaignRepository` -/
def pgCampaignRepository : Repository U Campaign (CampaignRow U.Value) where
  schema := campaigns U
  id campaign := campaign.id
  uuids campaign := [campaign.id]
  values campaign now := (CampaignMapper.toPersistence campaign).row U now
  set campaign date := some
    { apply := fun row =>
        { row with
          name := campaign.name
          status := campaign.status
          updatedAt := date }
      key_apply := fun _ => rfl }
  toDomain row := CampaignMapper.toDomain row.text

/-! ### Parser tasks -/

/-- A parser task. -/
structure ParserTask where
  id : String
  status : String
  category : String
  deriving DecidableEq, Repr

/-- A row of `parser.parser_tasks`. -/
structure ParserTaskRow (Id : Type) where
  id : Id
  status : String
  category : String
  createdAt : Timestamp
  updatedAt : Timestamp
  deriving DecidableEq, Repr

/-- The values of an insert into `parser.parser_tasks`. -/
structure NewParserTaskRow where
  id : String
  status : String
  category : String
  deriving DecidableEq, Repr

/-- `parser.parser_tasks` -/
def parserTasks : Schema (ParserTaskRow U.Value) U.Value where
  key r := r.id
  clash _ _ := false
  clash_comm _ _ := rfl
  fits r := varchar columnLengthShort r.status && varchar columnLengthMedium r.category

namespace ParserTaskMapper

/-- `ParserTaskMapper.toDomain` -/
def toDomain (row : ParserTaskRow String) : ParserTask := ⟨row.id, row.status, row.category⟩

/-- `ParserTaskMapper.toPersistence` -/
def toPersistence (task : ParserTask) : NewParserTaskRow :=
  { id := task.id
    status := task.status
    category := task.category }

end ParserTaskMapper

variable {U} in
/-- The row of a query. -/
def ParserTaskRow.text (row : ParserTaskRow U.Value) : ParserTaskRow String :=
  { row with id := U.output row.id }

/-- The proposed row, with the defaults of the timestamps. -/
def NewParserTaskRow.row (new : NewParserTaskRow) (now : Timestamp) :
    Option (ParserTaskRow U.Value) :=
  (U.input new.id).map fun id => { new with id, createdAt := now, updatedAt := now }

/-- `PgParserTaskRepository` -/
def pgParserTaskRepository : Repository U ParserTask (ParserTaskRow U.Value) where
  schema := parserTasks U
  id task := task.id
  uuids task := [task.id]
  values task now := (ParserTaskMapper.toPersistence task).row U now
  set task date := some
    { apply := fun row =>
        { row with
          status := task.status
          category := task.category
          updatedAt := date }
      key_apply := fun _ => rfl }
  toDomain row := ParserTaskMapper.toDomain row.text

end EmailPlatform.Persistence
