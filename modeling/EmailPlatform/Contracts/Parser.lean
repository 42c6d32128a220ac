import EmailPlatform.Wire.Protobuf

/-!
# EmailPlatform.Contracts.Parser

**The messages of the parser service** (`packages/contracts/src/generated/parser.ts`), as
ts-proto has generated them from `parser.proto`: what is written for each of them and how it is
read, and the six methods of `ParserService`.

The generator writes the same two functions for every message, so a message is given by its
fields here, in the order and with the tags of the source. `BinaryWriter` and `BinaryReader` are
the parameter `fmt`, what bytes are to mean is the parameter `G`, and the messages of `./common`,
which is generated when the package is built, are the parameter `common`. Numbers are integers;
one outside 32 bits is an exception.
-/

namespace EmailPlatform.Contracts

open Wire

variable {M : Type}

/-! ### Fields -/

section Fields

variable (fmt : WireFormat JsString) (G : WireGrammar JsString) (tag : ℕ)

/-- `if (message.field !== "") { writer.uint32(tag).string(message.field); }` -/
def stringField (ℓ : Lens M JsString) : FieldFns M :=
  .implicit tag fmt.string ⟨PlainText, G.string⟩ [] ℓ

/-- `if (message.field !== 0) { writer.uint32(tag).int32(message.field); }` -/
def int32Field (ℓ : Lens M ℤ) : FieldFns M :=
  .implicit tag fmt.int32 ⟨fun _ => True, G.int32⟩ 0 ℓ

/-- `if (message.field !== false) { writer.uint32(tag).bool(message.field); }` -/
def boolField (ℓ : Lens M Bool) : FieldFns M :=
  .implicit tag fmt.bool ⟨fun _ => True, G.bool⟩ false ℓ

/-- `if (message.field !== undefined) { writer.uint32(tag).int32(message.field); }` -/
def optionalInt32Field (ℓ : Lens M (Option ℤ)) : FieldFns M :=
  .optional tag fmt.int32 ⟨fun _ => True, G.int32⟩ ℓ

/-- `if (message.field !== undefined) { writer.uint32(tag).bool(message.field); }` -/
def optionalBoolField (ℓ : Lens M (Option Bool)) : FieldFns M :=
  .optional tag fmt.bool ⟨fun _ => True, G.bool⟩ ℓ

/-- `if (message.field !== undefined) {
Message.encode(message.field, writer.uint32(tag).fork()).join(); }` -/
def messageField {N : Type} (g : GeneratedMessage N) (ℓ : Lens M (Option N)) : FieldFns M :=
  .optional tag (g.fns.delimited fmt) (g.format.delimited G) ℓ

/-- `for (const v of message.field) { Message.encode(v!, writer.uint32(tag).fork()).join(); }` -/
def repeatedField {N : Type} (g : GeneratedMessage N) (ℓ : Lens M (List N)) : FieldFns M :=
  .repeated tag (g.fns.delimited fmt) (g.format.delimited G) ℓ

end Fields

/-! ### Messages -/

/-- The messages of `./common` that the parser service uses. -/
structure Common where
  Empty : Type
  HealthStatus : Type
  PaginationRequest : Type
  PaginationMeta : Type
  empty : GeneratedMessage Empty
  healthStatus : GeneratedMessage HealthStatus
  paginationRequest : GeneratedMessage PaginationRequest
  paginationMeta : GeneratedMessage PaginationMeta

/-- They are generated by the same generator. -/
structure Common.Lawful (common : Common) : Prop where
  empty : common.empty.Lawful
  healthStatus : common.healthStatus.Lawful
  paginationRequest : common.paginationRequest.Lawful
  paginationMeta : common.paginationMeta.Lawful

/-- A task is asked for by its id. -/
structure ParserTaskIdRequest where
  id : JsString
  deriving DecidableEq

/-- What is to be parsed, for whom. -/
structure CreateParserTaskRequest where
  category : JsString
  dateFrom : JsString
  dateTo : JsString
  userId : JsString

/-- A page of the tasks of a user; `pagination` may be left out. -/
structure ListParserTasksRequest (common : Common) where
  pagination : Option common.PaginationRequest
  userId : JsString

/-- A change of the settings. What is `undefined` stays as it is, and is not on the wire; zero and
`false` are. -/
structure UpdateParserSettingsRequest where
  maxPages : Option ℤ
  batchSize : Option ℤ
  autoImport : Option Bool
  deriving DecidableEq

/-- A task and how far it is. -/
structure ParserTask where
  id : JsString
  category : JsString
  status : JsString
  dateFrom : JsString
  dateTo : JsString
  totalFound : ℤ
  totalParsed : ℤ
  csvUrl : JsString
  userId : JsString
  createdAt : JsString
  updatedAt : JsString
  deriving DecidableEq

/-- A page of tasks. -/
structure ParserTaskList (common : Common) where
  tasks : List ParserTask
  pagination : Option common.PaginationMeta

/-- The settings. Zero and `false` are not on the wire. -/
structure ParserSettings where
  maxPages : ℤ
  batchSize : ℤ
  autoImport : Bool

section Schemas

variable (fmt : WireFormat JsString) (G : WireGrammar JsString) (common : Common)

/-- The fields of `ParserTaskIdRequest`. -/
def ParserTaskIdRequest.schema : MessageSchema ParserTaskIdRequest where
  createBase := ⟨[]⟩
  fields := [stringField fmt G 10 { get := (·.id), set := fun v m => { m with id := v } }]

/-- The fields of `CreateParserTaskRequest`. -/
def CreateParserTaskRequest.schema : MessageSchema CreateParserTaskRequest where
  createBase := ⟨[], [], [], []⟩
  fields := [
    stringField fmt G 10 { get := (·.category), set := fun v m => { m with category := v } },
    stringField fmt G 18 { get := (·.dateFrom), set := fun v m => { m with dateFrom := v } },
    stringField fmt G 26 { get := (·.dateTo), set := fun v m => { m with dateTo := v } },
    stringField fmt G 34 { get := (·.userId), set := fun v m => { m with userId := v } }]

/-- The fields of `ListParserTasksRequest`. -/
def ListParserTasksRequest.schema : MessageSchema (ListParserTasksRequest common) where
  createBase := ⟨none, []⟩
  fields := [
    messageField fmt G 10 common.paginationRequest
      { get := (·.pagination), set := fun v m => { m with pagination := v } },
    stringField fmt G 18 { get := (·.userId), set := fun v m => { m with userId := v } }]

/-- The fields of `UpdateParserSettingsRequest`. -/
def UpdateParserSettingsRequest.schema : MessageSchema UpdateParserSettingsRequest where
  createBase := ⟨none, none, none⟩
  fields := [
    optionalInt32Field fmt G 8 { get := (·.maxPages), set := fun v m => { m with maxPages := v } },
    optionalInt32Field fmt G 16
      { get := (·.batchSize), set := fun v m => { m with batchSize := v } },
    optionalBoolField fmt G 24
      { get := (·.autoImport), set := fun v m => { m with autoImport := v } }]

/-- The fields of `ParserTask`. -/
def ParserTask.schema : MessageSchema ParserTask where
  createBase := ⟨[], [], [], [], [], 0, 0, [], [], [], []⟩
  fields := [
    stringField fmt G 10 { get := (·.id), set := fun v m => { m with id := v } },
    stringField fmt G 18 { get := (·.category), set := fun v m => { m with category := v } },
    stringField fmt G 26 { get := (·.status), set := fun v m => { m with status := v } },
    stringField fmt G 34 { get := (·.dateFrom), set := fun v m => { m with dateFrom := v } },
    stringField fmt G 42 { get := (·.dateTo), set := fun v m => { m with dateTo := v } },
    int32Field fmt G 48 { get := (·.totalFound), set := fun v m => { m with totalFound := v } },
    int32Field fmt G 56 { get := (·.totalParsed), set := fun v m => { m with totalParsed := v } },
    stringField fmt G 66 { get := (·.csvUrl), set := fun v m => { m with csvUrl := v } },
    stringField fmt G 74 { get := (·.userId), set := fun v m => { m with userId := v } },
    stringField fmt G 82 { get := (·.createdAt), set := fun v m => { m with createdAt := v } },
    stringField fmt G 90 { get := (·.updatedAt), set := fun v m => { m with updatedAt := v } }]

/-- The fields of `ParserTaskList`. -/
def ParserTaskList.schema : MessageSchema (ParserTaskList common) where
  createBase := ⟨[], none⟩
  fields := [
    repeatedField fmt G 10 ((ParserTask.schema fmt G).message fmt G)
      { get := (·.tasks), set := fun v m => { m with tasks := v } },
    messageField fmt G 18 common.paginationMeta
      { get := (·.pagination), set := fun v m => { m with pagination := v } }]

/-- The fields of `ParserSettings`. -/
def ParserSettings.schema : MessageSchema ParserSettings where
  createBase := ⟨0, 0, false⟩
  fields := [
    int32Field fmt G 8 { get := (·.maxPages), set := fun v m => { m with maxPages := v } },
    int32Field fmt G 16 { get := (·.batchSize), set := fun v m => { m with batchSize := v } },
    boolField fmt G 24 { get := (·.autoImport), set := fun v m => { m with autoImport := v } }]

end Schemas

/-! ### One message read over another -/

/-- `m₂` is read over `m₁`: what it has of its own wins, and lists are joined. -/
def ParserTaskIdRequest.readOver (m₁ m₂ : ParserTaskIdRequest) : ParserTaskIdRequest where
  id := Wire.readOver [] m₁.id m₂.id

@[inherit_doc ParserTaskIdRequest.readOver]
def CreateParserTaskRequest.readOver (m₁ m₂ : CreateParserTaskRequest) :
    CreateParserTaskRequest where
  category := Wire.readOver [] m₁.category m₂.category
  dateFrom := Wire.readOver [] m₁.dateFrom m₂.dateFrom
  dateTo := Wire.readOver [] m₁.dateTo m₂.dateTo
  userId := Wire.readOver [] m₁.userId m₂.userId

@[inherit_doc ParserTaskIdRequest.readOver]
def ListParserTasksRequest.readOver {common : Common} (m₁ m₂ : ListParserTasksRequest common) :
    ListParserTasksRequest common where
  pagination := m₂.pagination.or m₁.pagination
  userId := Wire.readOver [] m₁.userId m₂.userId

@[inherit_doc ParserTaskIdRequest.readOver]
def UpdateParserSettingsRequest.readOver (m₁ m₂ : UpdateParserSettingsRequest) :
    UpdateParserSettingsRequest where
  maxPages := m₂.maxPages.or m₁.maxPages
  batchSize := m₂.batchSize.or m₁.batchSize
  autoImport := m₂.autoImport.or m₁.autoImport

@[inherit_doc ParserTaskIdRequest.readOver]
def ParserTask.readOver (m₁ m₂ : ParserTask) : ParserTask where
  id := Wire.readOver [] m₁.id m₂.id
  category := Wire.readOver [] m₁.category m₂.category
  status := Wire.readOver [] m₁.status m₂.status
  dateFrom := Wire.readOver [] m₁.dateFrom m₂.dateFrom
  dateTo := Wire.readOver [] m₁.dateTo m₂.dateTo
  totalFound := Wire.readOver 0 m₁.totalFound m₂.totalFound
  totalParsed := Wire.readOver 0 m₁.totalParsed m₂.totalParsed
  csvUrl := Wire.readOver [] m₁.csvUrl m₂.csvUrl
  userId := Wire.readOver [] m₁.userId m₂.userId
  createdAt := Wire.readOver [] m₁.createdAt m₂.createdAt
  updatedAt := Wire.readOver [] m₁.updatedAt m₂.updatedAt

@[inherit_doc ParserTaskIdRequest.readOver]
def ParserTaskList.readOver {common : Common} (m₁ m₂ : ParserTaskList common) :
    ParserTaskList common where
  tasks := m₁.tasks ++ m₂.tasks
  pagination := m₂.pagination.or m₁.pagination

@[inherit_doc ParserTaskIdRequest.readOver]
def ParserSettings.readOver (m₁ m₂ : ParserSettings) : ParserSettings where
  maxPages := Wire.readOver 0 m₁.maxPages m₂.maxPages
  batchSize := Wire.readOver 0 m₁.batchSize m₂.batchSize
  autoImport := Wire.readOver false m₁.autoImport m₂.autoImport

/-! ### Every schema is lawful -/

section Laws

variable {fmt : WireFormat JsString} {G : WireGrammar JsString} {common : Common} {tag : ℕ}

theorem plainText_nil : PlainText [] := ⟨rfl, rfl⟩

@[simp] theorem stringField_kept {ℓ : Lens M JsString} {m : M} :
    (∀ a ∈ (stringField fmt G tag ℓ).values m, (stringField fmt G tag ℓ).format.Kept a) ↔
      PlainText (ℓ.get m) := by
  change (∀ a : JsString, a ∈ (if ℓ.get m ≠ [] then [ℓ.get m] else []) → PlainText a) ↔ _
  by_cases hm : ℓ.get m = []
  · simp [hm, plainText_nil]
  · simp [hm]

@[simp] theorem int32Field_kept {ℓ : Lens M ℤ} {m : M} :
    (∀ a ∈ (int32Field fmt G tag ℓ).values m, (int32Field fmt G tag ℓ).format.Kept a) ↔ True :=
  iff_true_intro fun _ _ => trivial

theorem stringField_implements (hfmt : fmt.Lawful G PlainText) (ℓ : Lens M JsString) :
    (stringField fmt G tag ℓ).codec.Implements (stringField fmt G tag ℓ).format :=
  hfmt.string

theorem int32Field_implements (hfmt : fmt.Lawful G PlainText) (ℓ : Lens M ℤ) :
    (int32Field fmt G tag ℓ).codec.Implements (int32Field fmt G tag ℓ).format :=
  hfmt.int32

theorem boolField_implements (hfmt : fmt.Lawful G PlainText) (ℓ : Lens M Bool) :
    (boolField fmt G tag ℓ).codec.Implements (boolField fmt G tag ℓ).format :=
  hfmt.bool

theorem optionalInt32Field_implements (hfmt : fmt.Lawful G PlainText) (ℓ : Lens M (Option ℤ)) :
    (optionalInt32Field fmt G tag ℓ).codec.Implements (optionalInt32Field fmt G tag ℓ).format :=
  hfmt.int32

theorem optionalBoolField_implements (hfmt : fmt.Lawful G PlainText) (ℓ : Lens M (Option Bool)) :
    (optionalBoolField fmt G tag ℓ).codec.Implements (optionalBoolField fmt G tag ℓ).format :=
  hfmt.bool

theorem messageField_implements (hfmt : fmt.Lawful G PlainText) {N : Type} {g : GeneratedMessage N}
    (hg : g.Lawful) (ℓ : Lens M (Option N)) :
    (messageField fmt G tag g ℓ).codec.Implements (messageField fmt G tag g ℓ).format :=
  hg.delimited hfmt

theorem repeatedField_implements (hfmt : fmt.Lawful G PlainText) {N : Type} {g : GeneratedMessage N}
    (hg : g.Lawful) (ℓ : Lens M (List N)) :
    (repeatedField fmt G tag g ℓ).codec.Implements (repeatedField fmt G tag g ℓ).format :=
  hg.delimited hfmt

theorem ParserTaskIdRequest.merge_eq (m₁ m₂ : ParserTaskIdRequest) :
    (ParserTaskIdRequest.schema fmt G).merge m₁ m₂ = m₁.readOver m₂ := by
  rw [MessageSchema.merge_eq]
  simp only [ParserTaskIdRequest.schema, List.foldl_cons, List.foldl_nil, stringField,
    FieldFns.copy_implicit]
  rfl

theorem ParserTaskIdRequest.schema_lawful (hfmt : fmt.Lawful G PlainText) :
    (ParserTaskIdRequest.schema fmt G).Lawful where
  distinct := by simp [ParserTaskIdRequest.schema, stringField, FieldFns.implicit]
  implements := by
    simp [ParserTaskIdRequest.schema, stringField_implements hfmt]
  restores m := by
    rw [ParserTaskIdRequest.merge_eq]
    simp [ParserTaskIdRequest.schema, ParserTaskIdRequest.readOver]

theorem CreateParserTaskRequest.merge_eq (m₁ m₂ : CreateParserTaskRequest) :
    (CreateParserTaskRequest.schema fmt G).merge m₁ m₂ = m₁.readOver m₂ := by
  rw [MessageSchema.merge_eq]
  simp only [CreateParserTaskRequest.schema, List.foldl_cons, List.foldl_nil, stringField,
    FieldFns.copy_implicit]
  rfl

theorem CreateParserTaskRequest.schema_lawful (hfmt : fmt.Lawful G PlainText) :
    (CreateParserTaskRequest.schema fmt G).Lawful where
  distinct := by simp [CreateParserTaskRequest.schema, stringField, FieldFns.implicit]
  implements := by
    simp [CreateParserTaskRequest.schema, stringField_implements hfmt]
  restores m := by
    rw [CreateParserTaskRequest.merge_eq]
    simp [CreateParserTaskRequest.schema, CreateParserTaskRequest.readOver]

theorem ListParserTasksRequest.merge_eq (m₁ m₂ : ListParserTasksRequest common) :
    (ListParserTasksRequest.schema fmt G common).merge m₁ m₂ = m₁.readOver m₂ := by
  rw [MessageSchema.merge_eq]
  simp only [ListParserTasksRequest.schema, List.foldl_cons, List.foldl_nil, messageField,
    stringField, FieldFns.copy_implicit, FieldFns.copy_optional]
  rfl

theorem ListParserTasksRequest.schema_lawful (hfmt : fmt.Lawful G PlainText)
    (hcommon : common.Lawful) :
    (ListParserTasksRequest.schema fmt G common).Lawful where
  distinct := by simp [ListParserTasksRequest.schema, messageField, stringField,
    FieldFns.implicit, FieldFns.optional]
  implements := by
    simp [ListParserTasksRequest.schema, stringField_implements hfmt,
      messageField_implements hfmt hcommon.paginationRequest]
  restores m := by
    rw [ListParserTasksRequest.merge_eq]
    simp [ListParserTasksRequest.schema, ListParserTasksRequest.readOver]

theorem UpdateParserSettingsRequest.merge_eq (m₁ m₂ : UpdateParserSettingsRequest) :
    (UpdateParserSettingsRequest.schema fmt G).merge m₁ m₂ = m₁.readOver m₂ := by
  rw [MessageSchema.merge_eq]
  simp only [UpdateParserSettingsRequest.schema, List.foldl_cons, List.foldl_nil,
    optionalInt32Field, optionalBoolField, FieldFns.copy_optional]
  rfl

theorem UpdateParserSettingsRequest.schema_lawful (hfmt : fmt.Lawful G PlainText) :
    (UpdateParserSettingsRequest.schema fmt G).Lawful where
  distinct := by simp [UpdateParserSettingsRequest.schema, optionalInt32Field,
    optionalBoolField, FieldFns.optional]
  implements := by
    simp [UpdateParserSettingsRequest.schema, optionalInt32Field_implements hfmt,
      optionalBoolField_implements hfmt]
  restores m := by
    rw [UpdateParserSettingsRequest.merge_eq]
    simp [UpdateParserSettingsRequest.schema, UpdateParserSettingsRequest.readOver]

/-- A task arrives as it is when its texts do. -/
theorem ParserTask.kept_iff {m : ParserTask} : ((ParserTask.schema fmt G).format G).Kept m ↔
    ∀ s ∈ [m.id, m.category, m.status, m.dateFrom, m.dateTo, m.csvUrl, m.userId, m.createdAt,
      m.updatedAt], PlainText s := by
  rw [MessageSchema.kept_iff]
  simp [ParserTask.schema]

theorem ParserTask.merge_eq (m₁ m₂ : ParserTask) :
    (ParserTask.schema fmt G).merge m₁ m₂ = m₁.readOver m₂ := by
  rw [MessageSchema.merge_eq]
  simp only [ParserTask.schema, List.foldl_cons, List.foldl_nil, stringField, int32Field,
    FieldFns.copy_implicit]
  rfl

theorem ParserTask.schema_lawful (hfmt : fmt.Lawful G PlainText) :
    (ParserTask.schema fmt G).Lawful where
  distinct := by simp [ParserTask.schema, stringField, int32Field, FieldFns.implicit]
  implements := by
    simp [ParserTask.schema, stringField_implements hfmt, int32Field_implements hfmt]
  restores m := by
    rw [ParserTask.merge_eq]
    simp [ParserTask.schema, ParserTask.readOver]

theorem ParserTaskList.merge_eq (m₁ m₂ : ParserTaskList common) :
    (ParserTaskList.schema fmt G common).merge m₁ m₂ = m₁.readOver m₂ := by
  rw [MessageSchema.merge_eq]
  simp only [ParserTaskList.schema, List.foldl_cons, List.foldl_nil, repeatedField,
    messageField, FieldFns.copy_repeated, FieldFns.copy_optional]
  rfl

theorem ParserTaskList.schema_lawful (hfmt : fmt.Lawful G PlainText) (hcommon : common.Lawful) :
    (ParserTaskList.schema fmt G common).Lawful where
  distinct := by simp [ParserTaskList.schema, repeatedField, messageField,
    FieldFns.repeated, FieldFns.optional]
  implements := by
    simp [ParserTaskList.schema, messageField_implements hfmt hcommon.paginationMeta,
      repeatedField_implements hfmt
        (MessageSchema.message_lawful hfmt (ParserTask.schema_lawful hfmt))]
  restores m := by
    rw [ParserTaskList.merge_eq]
    simp [ParserTaskList.schema, ParserTaskList.readOver]

theorem ParserSettings.merge_eq (m₁ m₂ : ParserSettings) :
    (ParserSettings.schema fmt G).merge m₁ m₂ = m₁.readOver m₂ := by
  rw [MessageSchema.merge_eq]
  simp only [ParserSettings.schema, List.foldl_cons, List.foldl_nil, int32Field, boolField,
    FieldFns.copy_implicit]
  rfl

theorem ParserSettings.schema_lawful (hfmt : fmt.Lawful G PlainText) :
    (ParserSettings.schema fmt G).Lawful where
  distinct := by simp [ParserSettings.schema, int32Field, boolField, FieldFns.implicit]
  implements := by
    simp [ParserSettings.schema, int32Field_implements hfmt, boolField_implements hfmt]
  restores m := by
    rw [ParserSettings.merge_eq]
    simp [ParserSettings.schema, ParserSettings.readOver]

end Laws

/-! ### The messages together -/

/-- The messages of `parser.proto`. -/
inductive ParserMessage
  | taskIdRequest | createTaskRequest | listTasksRequest | updateSettingsRequest
  | task | taskList | settings
  deriving DecidableEq

namespace ParserMessage

/-- The values of the message. -/
abbrev Value (common : Common) : ParserMessage → Type
  | taskIdRequest => ParserTaskIdRequest
  | createTaskRequest => CreateParserTaskRequest
  | listTasksRequest => ListParserTasksRequest common
  | updateSettingsRequest => UpdateParserSettingsRequest
  | task => ParserTask
  | taskList => ParserTaskList common
  | settings => ParserSettings

variable (fmt : WireFormat JsString) (G : WireGrammar JsString) (common : Common)

/-- Its fields. -/
def schema : (k : ParserMessage) → MessageSchema (k.Value common)
  | taskIdRequest => ParserTaskIdRequest.schema fmt G
  | createTaskRequest => CreateParserTaskRequest.schema fmt G
  | listTasksRequest => ListParserTasksRequest.schema fmt G common
  | updateSettingsRequest => UpdateParserSettingsRequest.schema fmt G
  | task => ParserTask.schema fmt G
  | taskList => ParserTaskList.schema fmt G common
  | settings => ParserSettings.schema fmt G

/-- Its functions, and the bytes that it may be. -/
def message (k : ParserMessage) : GeneratedMessage (k.Value common) :=
  (k.schema fmt G common).message fmt G

/-- One message read over another of its kind. -/
def readOver : (k : ParserMessage) → k.Value common → k.Value common → k.Value common
  | taskIdRequest => ParserTaskIdRequest.readOver
  | createTaskRequest => CreateParserTaskRequest.readOver
  | listTasksRequest => ListParserTasksRequest.readOver
  | updateSettingsRequest => UpdateParserSettingsRequest.readOver
  | task => ParserTask.readOver
  | taskList => ParserTaskList.readOver
  | settings => ParserSettings.readOver

variable {fmt G common}

theorem merge_eq (k : ParserMessage) (m₁ m₂ : k.Value common) :
    (k.schema fmt G common).merge m₁ m₂ = k.readOver common m₁ m₂ := by
  cases k with
  | taskIdRequest => exact ParserTaskIdRequest.merge_eq m₁ m₂
  | createTaskRequest => exact CreateParserTaskRequest.merge_eq m₁ m₂
  | listTasksRequest => exact ListParserTasksRequest.merge_eq m₁ m₂
  | updateSettingsRequest => exact UpdateParserSettingsRequest.merge_eq m₁ m₂
  | task => exact ParserTask.merge_eq m₁ m₂
  | taskList => exact ParserTaskList.merge_eq m₁ m₂
  | settings => exact ParserSettings.merge_eq m₁ m₂

theorem schema_lawful (hfmt : fmt.Lawful G PlainText) (hcommon : common.Lawful)
    (k : ParserMessage) : (k.schema fmt G common).Lawful := by
  cases k with
  | taskIdRequest => exact ParserTaskIdRequest.schema_lawful hfmt
  | createTaskRequest => exact CreateParserTaskRequest.schema_lawful hfmt
  | listTasksRequest => exact ListParserTasksRequest.schema_lawful hfmt hcommon
  | updateSettingsRequest => exact UpdateParserSettingsRequest.schema_lawful hfmt
  | task => exact ParserTask.schema_lawful hfmt
  | taskList => exact ParserTaskList.schema_lawful hfmt hcommon
  | settings => exact ParserSettings.schema_lawful hfmt

theorem message_lawful (hfmt : fmt.Lawful G PlainText) (hcommon : common.Lawful)
    (k : ParserMessage) : (k.message fmt G common).Lawful :=
  MessageSchema.message_lawful hfmt (k.schema_lawful hfmt hcommon)

end ParserMessage

/-! ### The service -/

/-- An entry of `ParserServiceService`. Nothing streams. -/
structure MethodDefinition (Req Res : Type) where
  path : String
  requestSerialize : Req → Option Bytes
  requestDeserialize : Bytes → Option Req
  responseSerialize : Res → Option Bytes
  responseDeserialize : Bytes → Option Res

/-- What the generator makes of `rpc Method(Req) returns (Res)`. -/
def MethodDefinition.unary {Req Res : Type} (path : String) (request : GeneratedMessage Req)
    (response : GeneratedMessage Res) : MethodDefinition Req Res where
  path := path
  requestSerialize := request.fns.encode
  requestDeserialize := request.decode
  responseSerialize := response.fns.encode
  responseDeserialize := response.decode

/-- The methods of `service ParserService`. -/
inductive ParserMethod
  | healthCheck | createTask | listTasks | getTask | getSettings | updateSettings
  deriving DecidableEq

namespace ParserMethod

/-- What a method is called with. -/
abbrev Request (common : Common) : ParserMethod → Type
  | healthCheck | getSettings => common.Empty
  | createTask => CreateParserTaskRequest
  | listTasks => ListParserTasksRequest common
  | getTask => ParserTaskIdRequest
  | updateSettings => UpdateParserSettingsRequest

/-- What it answers. -/
abbrev Response (common : Common) : ParserMethod → Type
  | healthCheck => common.HealthStatus
  | createTask | getTask => ParserTask
  | listTasks => ParserTaskList common
  | getSettings | updateSettings => ParserSettings

variable (fmt : WireFormat JsString) (G : WireGrammar JsString) (common : Common)

/-- The message that is sent to the method. -/
def request : (k : ParserMethod) → GeneratedMessage (k.Request common)
  | healthCheck | getSettings => common.empty
  | createTask => ParserMessage.message fmt G common .createTaskRequest
  | listTasks => ParserMessage.message fmt G common .listTasksRequest
  | getTask => ParserMessage.message fmt G common .taskIdRequest
  | updateSettings => ParserMessage.message fmt G common .updateSettingsRequest

/-- The message that comes back. -/
def response : (k : ParserMethod) → GeneratedMessage (k.Response common)
  | healthCheck => common.healthStatus
  | createTask | getTask => ParserMessage.message fmt G common .task
  | listTasks => ParserMessage.message fmt G common .taskList
  | getSettings | updateSettings => ParserMessage.message fmt G common .settings

/-- The path by which the method is called. -/
def path : ParserMethod → String
  | healthCheck => "/parser.ParserService/HealthCheck"
  | createTask => "/parser.ParserService/CreateTask"
  | listTasks => "/parser.ParserService/ListTasks"
  | getTask => "/parser.ParserService/GetTask"
  | getSettings => "/parser.ParserService/GetSettings"
  | updateSettings => "/parser.ParserService/UpdateSettings"

/-- `ParserServiceService`. -/
def definition (k : ParserMethod) : MethodDefinition (k.Request common) (k.Response common) :=
  .unary k.path (k.request fmt G common) (k.response fmt G common)

variable {fmt G common}

theorem request_lawful (hfmt : fmt.Lawful G PlainText) (hcommon : common.Lawful)
    (k : ParserMethod) : (k.request fmt G common).Lawful := by
  cases k with
  | healthCheck | getSettings => exact hcommon.empty
  | _ => exact ParserMessage.message_lawful hfmt hcommon _

theorem response_lawful (hfmt : fmt.Lawful G PlainText) (hcommon : common.Lawful)
    (k : ParserMethod) : (k.response fmt G common).Lawful := by
  cases k with
  | healthCheck => exact hcommon.healthStatus
  | _ => exact ParserMessage.message_lawful hfmt hcommon _

end ParserMethod

/-! ### The messages of `common.proto` -/

/-- How a service is. -/
structure HealthStatus where
  status : JsString

/-- The page that is wanted, and how many entries it has at most. -/
structure PaginationRequest where
  page : ℤ
  limit : ℤ
  deriving DecidableEq

/-- Where a page stands among all entries. -/
structure PaginationMeta where
  total : ℤ
  page : ℤ
  limit : ℤ
  pages : ℤ
  deriving DecidableEq

section CommonProto

variable (fmt : WireFormat JsString) (G : WireGrammar JsString)

/-- The fields of `Empty`. -/
def Empty.schema : MessageSchema Unit := ⟨(), []⟩

/-- The fields of `HealthStatus`. -/
def HealthStatus.schema : MessageSchema HealthStatus where
  createBase := ⟨[]⟩
  fields := [stringField fmt G 10 { get := (·.status), set := fun v m => { m with status := v } }]

/-- The fields of `PaginationRequest`. -/
def PaginationRequest.schema : MessageSchema PaginationRequest where
  createBase := ⟨0, 0⟩
  fields := [
    int32Field fmt G 8 { get := (·.page), set := fun v m => { m with page := v } },
    int32Field fmt G 16 { get := (·.limit), set := fun v m => { m with limit := v } }]

/-- The fields of `PaginationMeta`. -/
def PaginationMeta.schema : MessageSchema PaginationMeta where
  createBase := ⟨0, 0, 0, 0⟩
  fields := [
    int32Field fmt G 8 { get := (·.total), set := fun v m => { m with total := v } },
    int32Field fmt G 16 { get := (·.page), set := fun v m => { m with page := v } },
    int32Field fmt G 24 { get := (·.limit), set := fun v m => { m with limit := v } },
    int32Field fmt G 32 { get := (·.pages), set := fun v m => { m with pages := v } }]

/-- What the generator makes of `common.proto`. -/
def commonProto : Common where
  Empty := Unit
  HealthStatus := HealthStatus
  PaginationRequest := PaginationRequest
  PaginationMeta := PaginationMeta
  empty := Empty.schema.message fmt G
  healthStatus := (HealthStatus.schema fmt G).message fmt G
  paginationRequest := (PaginationRequest.schema fmt G).message fmt G
  paginationMeta := (PaginationMeta.schema fmt G).message fmt G

variable {fmt G}

theorem Empty.schema_lawful : Empty.schema.Lawful where
  distinct := List.nodup_nil
  implements := by simp [Empty.schema]
  restores _ := rfl

theorem HealthStatus.schema_lawful (hfmt : fmt.Lawful G PlainText) :
    (HealthStatus.schema fmt G).Lawful where
  distinct := by simp [HealthStatus.schema]
  implements := by simp [HealthStatus.schema, stringField_implements hfmt]
  restores m := by
    rw [MessageSchema.merge_eq]
    simp [HealthStatus.schema, stringField, FieldFns.copy_implicit]

theorem PaginationRequest.schema_lawful (hfmt : fmt.Lawful G PlainText) :
    (PaginationRequest.schema fmt G).Lawful where
  distinct := by simp [PaginationRequest.schema, int32Field, FieldFns.implicit]
  implements := by simp [PaginationRequest.schema, int32Field_implements hfmt]
  restores m := by
    rw [MessageSchema.merge_eq]
    simp [PaginationRequest.schema, int32Field, FieldFns.copy_implicit]

theorem PaginationMeta.schema_lawful (hfmt : fmt.Lawful G PlainText) :
    (PaginationMeta.schema fmt G).Lawful where
  distinct := by simp [PaginationMeta.schema, int32Field, FieldFns.implicit]
  implements := by simp [PaginationMeta.schema, int32Field_implements hfmt]
  restores m := by
    rw [MessageSchema.merge_eq]
    simp [PaginationMeta.schema, int32Field, FieldFns.copy_implicit]

theorem commonProto_lawful (hfmt : fmt.Lawful G PlainText) : (commonProto fmt G).Lawful where
  empty := MessageSchema.message_lawful hfmt Empty.schema_lawful
  healthStatus := MessageSchema.message_lawful hfmt (HealthStatus.schema_lawful hfmt)
  paginationRequest := MessageSchema.message_lawful hfmt (PaginationRequest.schema_lawful hfmt)
  paginationMeta := MessageSchema.message_lawful hfmt (PaginationMeta.schema_lawful hfmt)

/-- `common.proto` on the wire of Protocol Buffers. -/
abbrev protobufCommon : Common := commonProto protobuf protobufGrammar

theorem protobufCommon_lawful : protobufCommon.Lawful := commonProto_lawful protobuf_lawful

end CommonProto

section Results

variable {fmt : WireFormat JsString} {G : WireGrammar JsString} {common : Common}

/-- **What a method is called with is what its handler gets, and what the handler answers is
what the caller gets**, if every text is a `PlainText` and what is sent could be written. -/
theorem parserService_delivers (hfmt : fmt.Lawful G PlainText) (hcommon : common.Lawful)
    (k : ParserMethod) :
    (∀ {v : k.Request common} {bytes}, (k.request fmt G common).format.Kept v →
      (k.definition fmt G common).requestSerialize v = some bytes →
        (k.definition fmt G common).requestDeserialize bytes = some v) ∧
      ∀ {v : k.Response common} {bytes}, (k.response fmt G common).format.Kept v →
        (k.definition fmt G common).responseSerialize v = some bytes →
          (k.definition fmt G common).responseDeserialize bytes = some v := by
  have hrequest := k.request_lawful hfmt hcommon
  have hresponse := k.response_lawful hfmt hcommon
  exact ⟨fun hkept henc => hrequest.decode_eq (hrequest.writes hkept henc),
    fun hkept henc => hresponse.decode_eq (hresponse.writes hkept henc)⟩

/-- A task with a count below zero, and a text beyond ASCII. -/
def sampleTask : ParserTask where
  id := .ofString "7"
  category := .ofString "Игры 🎲"
  status := []
  dateFrom := .ofString "2024-01-01"
  dateTo := []
  totalFound := -1
  totalParsed := 300
  csvUrl := []
  userId := .ofString "u"
  createdAt := []
  updatedAt := []

theorem parserService_delivers_sampleTask :
    ∃ bytes,
      (ParserMethod.getTask.definition protobuf protobufGrammar protobufCommon).responseSerialize
        sampleTask = some bytes ∧
      (ParserMethod.getTask.definition protobuf protobufGrammar protobufCommon).responseDeserialize
        bytes = some sampleTask := by
  have hsome : ((ParserMethod.getTask.definition protobuf protobufGrammar
      protobufCommon).responseSerialize sampleTask).isSome = true := by decide +kernel
  obtain ⟨bytes, henc⟩ := Option.isSome_iff_exists.mp hsome
  exact ⟨bytes, henc, (parserService_delivers protobuf_lawful protobufCommon_lawful .getTask).2
    (ParserTask.kept_iff.mpr (by decide +kernel)) henc⟩

/-- **A message is understood however it is spelled.** The reader of every message gets the one
value that the bytes of a peer stand for: fields may come in any order and more than once, numbers
may take more bytes than they need, and unknown fields of every wire type may stand anywhere
between them, those of a message inside another one too. -/
theorem decode_of_spelled (hfmt : fmt.Lawful protobufGrammar PlainText) (hcommon : common.Lawful)
    (k : ParserMessage) {bytes : Bytes} {m : k.Value common}
    (hs : (k.message fmt protobufGrammar common).format.Spelled bytes m) :
    (k.message fmt protobufGrammar common).decode bytes = some m ∧
      ∀ m', (k.message fmt protobufGrammar common).format.Spelled bytes m' → m' = m := by
  have hlawful := k.message_lawful hfmt hcommon
  have hdecode := hlawful.decode_eq hs
  refine ⟨hdecode, fun m' hs' => ?_⟩
  exact Option.some.inj ((hlawful.decode_eq hs').symm.trans hdecode)

/-- A peer knows a group 15 with four bytes in it and a number 2 of eight bytes. It sends the id
twice, first behind a tag and a length that take two bytes each. -/
theorem decode_of_spelled_newerPeer :
    (ParserMessage.taskIdRequest.message protobuf protobufGrammar protobufCommon).decode
      [123, 13, 1, 2, 3, 4, 124, 17, 0, 0, 0, 0, 0, 0, 0, 0, 138, 0, 129, 0, 54, 10, 1, 55] =
        some ⟨.ofString "7"⟩ := by
  let idField : FieldFns ParserTaskIdRequest :=
    stringField protobuf protobufGrammar 10
      { get := (·.id), set := fun v m => { m with id := v } }
  have hmem : idField ∈ (ParserTaskIdRequest.schema protobuf protobufGrammar).fields :=
    List.mem_singleton.mpr rfl
  have hgroup : Payload 123 [13, 1, 2, 3, 4, 124] :=
    @Payload.groupField 123 13 [13] [1, 2, 3, 4] [124] rfl (by decide)
      (protobufUint32_writes rfl) (.fixed32 rfl rfl)
      (.groupEnd rfl (by decide) (protobufUint32_writes rfl))
  have htag : SpellsUint32 [138, 0] 10 :=
    ⟨by decide, @Varint.more 8 0 138 [0] (by decide) (@Varint.last 8 0 (by decide))⟩
  have hlength : SpellsUint32 [129, 0] 1 :=
    ⟨by decide, @Varint.more 8 0 129 [0] (by decide) (@Varint.last 8 0 (by decide))⟩
  have hspells : (ParserTaskIdRequest.schema protobuf protobufGrammar).Spells protobufGrammar
      [⟨idField, JsString.ofString "6"⟩, ⟨idField, JsString.ofString "7"⟩]
      ([123] ++ ([13, 1, 2, 3, 4, 124] ++ ([17] ++ (List.replicate 8 0 ++
        ([138, 0] ++ ([129, 0, 54] ++ ([10] ++ ([1, 55] ++ [])))))))) :=
    .unknown (n := 123) (protobufUint32_writes rfl) rfl (by decide) (by decide) hgroup
      (.unknown (n := 17) (protobufUint32_writes rfl) rfl (by decide) (by decide) (.fixed64 rfl rfl)
        (.known hmem htag ⟨by decide, [129, 0], hlength, by decide +kernel⟩
          (.known hmem (protobufUint32_writes rfl)
            ⟨by decide, [1], protobufUint32_writes (by decide +kernel), by decide +kernel⟩ .nil)))
  exact (decode_of_spelled protobuf_lawful protobufCommon_lawful .taskIdRequest
    ⟨_, hspells, rfl⟩).1

/-- **Messages that are sent one behind the other are read as one**, if every text in them is a
`PlainText` and both could be written. The values of the second go over those of the first, and
its lists behind them. -/
theorem decode_concat (hfmt : fmt.Lawful G PlainText) (hcommon : common.Lawful) (k : ParserMessage)
    {m₁ m₂ : k.Value common} {b₁ b₂ : Bytes}
    (hkept₁ : (k.message fmt G common).format.Kept m₁)
    (hkept₂ : (k.message fmt G common).format.Kept m₂)
    (henc₁ : (k.message fmt G common).fns.encode m₁ = some b₁)
    (henc₂ : (k.message fmt G common).fns.encode m₂ = some b₂) :
    (k.message fmt G common).decode (b₁ ++ b₂) = some (k.readOver common m₁ m₂) := by
  have hlawful := k.message_lawful hfmt hcommon
  have hmerge : (k.schema fmt G common).merge m₁ m₂ = k.readOver common m₁ m₂ :=
    k.merge_eq m₁ m₂
  rw [← hmerge]
  exact hlawful.decode_eq (MessageSchema.spelled_append hfmt (k.schema_lawful hfmt hcommon)
    (hlawful.writes hkept₁ henc₁) hkept₂ henc₂)

/-- A change of the settings, and another one: no pages at all is a change, too. -/
def firstChange : UpdateParserSettingsRequest := ⟨some 3, some 10, none⟩

@[inherit_doc firstChange]
def secondChange : UpdateParserSettingsRequest := ⟨some 0, none, some true⟩

theorem UpdateParserSettingsRequest.kept (m : UpdateParserSettingsRequest) :
    ((UpdateParserSettingsRequest.schema fmt G).format G).Kept m := by
  rw [MessageSchema.kept_iff]
  simp [UpdateParserSettingsRequest.schema, optionalInt32Field, optionalBoolField,
    FieldFns.optional]

theorem decode_concat_changes :
    ∃ b₁ b₂,
      (ParserMessage.updateSettingsRequest.message protobuf protobufGrammar protobufCommon).decode
        (b₁ ++ b₂) = some ⟨some 0, some 10, some true⟩ := by
  have henc : ∀ m ∈ [firstChange, secondChange],
      ((ParserMessage.updateSettingsRequest.message protobuf protobufGrammar
        protobufCommon).fns.encode m).isSome = true := by decide +kernel
  obtain ⟨b₁, hb₁⟩ := Option.isSome_iff_exists.mp (henc firstChange (by simp))
  obtain ⟨b₂, hb₂⟩ := Option.isSome_iff_exists.mp (henc secondChange (by simp))
  exact ⟨b₁, b₂, decode_concat protobuf_lawful protobufCommon_lawful .updateSettingsRequest
    (UpdateParserSettingsRequest.kept _) (UpdateParserSettingsRequest.kept _) hb₁ hb₂⟩

end Results

end EmailPlatform.Contracts
