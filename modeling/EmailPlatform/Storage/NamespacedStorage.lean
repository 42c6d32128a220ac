import EmailPlatform.Core.Machine
import EmailPlatform.Storage.PublicUrl

/-!
# EmailPlatform.Storage.NamespacedStorage

**Bindings over the public bucket.** Any number of `NamespacedStorageService`s upload,
delete and probe objects of one bucket. Uploads run side by side: the chunks of their
bodies, the ends of these and the answers of S3 come in any order.

What is assumed of the outside:

* the `Upload` of lib-storage makes the object visible, whole, when its body has ended
  without error and its commands succeed, and rejects without effect when the body fails or
  a command does. `succeed` and `reject` are these two ends, each one step with the return
  of `upload`;
* `pipe` hands on chunks and the end of a stream, but not its error. An upload whose body
  fails waits, unless a command of it fails;
* a delete or a head request that fails has no effect, and S3 answers `NotFound` exactly
  for a missing object.
-/

namespace EmailPlatform.Storage

/-! ### SizeCountingTransform -/

/-- `StorageUploadTooLargeError` -/
structure StorageUploadTooLargeError where
  seen : Nat
  max : Nat
  deriving DecidableEq, Repr

/-- `SizeCountingTransform` -/
structure SizeCountingTransform where
  max : Nat
  seen : Nat
  deriving DecidableEq, Repr

/-- `_transform`, with what it calls back with. -/
def SizeCountingTransform.transform (self : SizeCountingTransform) (chunk : List UInt8) :
    SizeCountingTransform × Except StorageUploadTooLargeError (List UInt8) :=
  let seen := self.seen + chunk.length
  ({ self with seen }, if seen > self.max then .error ⟨seen, self.max⟩ else .ok chunk)

/-! ### The service -/

/-- A `NamespacedStorageService`, by the parameters of its constructor. -/
structure NamespacedStorageService where
  /-- `namespace` -/
  ns : JsString
  contentType : JsString
  publicUrlBase : JsString
  maxBytes : Nat
  deriving DecidableEq, Repr

/-- `PUBLIC_BUCKET`, the bucket of every binding. -/
def publicBucket : JsString := .ofString "public"

/-- The namespace is not empty and has no separator. -/
def NamespacedStorageService.WellNamed (service : NamespacedStorageService) : Prop :=
  service.ns ≠ [] ∧ pathSeparator ∉ service.ns

instance (service : NamespacedStorageService) : Decidable service.WellNamed :=
  inferInstanceAs (Decidable (_ ∧ _))

/-- A call of `upload`, with its uuid. -/
structure UploadCall where
  service : NamespacedStorageService
  filename : JsString
  uuid : Uuid
  deriving DecidableEq

/-- `key` of `upload`. -/
def UploadCall.key (call : UploadCall) : JsString :=
  objectKey call.service.ns call.uuid (sanitizeFilename call.filename)

/-- `url` of `upload`. -/
def UploadCall.url (call : UploadCall) : JsString :=
  buildPublicUrl call.service.publicUrlBase publicBucket call.key

/-- An error of an S3 command, by its name. -/
structure S3Error where
  name : String
  deriving DecidableEq, Repr

/-- `isNotFound` -/
def isNotFound (err : S3Error) : Bool := err.name = "NotFound"

/-- `exists`, once the `HeadObjectCommand` has settled. -/
def existsResult : Except S3Error Unit → Except S3Error Bool
  | .ok _ => .ok true
  | .error err => if isNotFound err then .ok false else .error err

/-! ### The bucket and its clients -/

/-- An object of the bucket. -/
structure StoredObject where
  body : List UInt8
  contentType : JsString
  deriving DecidableEq

/-- How far an upload has come. -/
inductive Progress
  /-- The body goes on. -/
  | streaming
  /-- The counter has ended after all chunks. -/
  | ended
  /-- The counter has failed. -/
  | tooLarge (err : StorageUploadTooLargeError)
  /-- The body has failed; the counter goes on waiting. -/
  | stalled
  /-- `upload` has resolved or rejected. -/
  | settled
  deriving DecidableEq

/-- A running upload. -/
structure UploadTask where
  call : UploadCall
  counter : SizeCountingTransform
  /-- What the counter has passed on. -/
  passed : List UInt8
  progress : Progress
  deriving DecidableEq

/-- Why `upload` rejects. -/
inductive UploadError
  | tooLarge (err : StorageUploadTooLargeError)
  | s3 (err : S3Error)
  deriving DecidableEq

/-- What happens, in order. `i` is the index of an upload. -/
inductive Event
  | started (i : Nat) (call : UploadCall)
  | chunk (i : Nat) (bytes : List UInt8)
  | bodyEnded (i : Nat)
  | bodyFailed (i : Nat)
  | resolved (i : Nat) (call : UploadCall) (url key : JsString)
  | rejected (i : Nat) (err : UploadError)
  | deleted (key : JsString)
  | deleteRejected (key : JsString) (err : S3Error)
  | existed (key : JsString) (answer : Bool)
  | existsRejected (key : JsString) (err : S3Error)
  deriving DecidableEq

/-- What can happen next. -/
inductive Action
  | upload (call : UploadCall)
  /-- The body of upload `i` emits a chunk, ends or fails. -/
  | chunk (i : Nat) (bytes : List UInt8)
  | endBody (i : Nat)
  | failBody (i : Nat)
  /-- The last S3 command of upload `i` succeeds. -/
  | succeed (i : Nat)
  /-- An S3 command of upload `i` fails. -/
  | failCommand (i : Nat) (err : S3Error)
  /-- `Upload` sees the counter's error. -/
  | failCounter (i : Nat)
  /-- `delete(key)`, whose command may fail. -/
  | delete (key : JsString) (failure : Option S3Error)
  /-- `exists(key)`, whose command may fail. -/
  | exists (key : JsString) (failure : Option S3Error)

/-- The bucket and the uploads so far. -/
structure State where
  objects : JsString → Option StoredObject
  uploads : List UploadTask

/-- `HeadObjectCommand` -/
def headObject (s : State) (key : JsString) (failure : Option S3Error) : Except S3Error Unit :=
  match failure, s.objects key with
  | some err, _ => .error err
  | none, some _ => .ok ()
  | none, none => .error ⟨"NotFound"⟩

/-- The task of a call just made. -/
def UploadTask.start (call : UploadCall) : UploadTask :=
  ⟨call, ⟨call.service.maxBytes, 0⟩, [], .streaming⟩

/-- The counter is written a chunk. -/
def UploadTask.write (t : UploadTask) (bytes : List UInt8) : UploadTask :=
  match t.counter.transform bytes with
  | (counter, .ok chunk) => { t with counter, passed := t.passed ++ chunk }
  | (counter, .error err) => { t with counter, progress := .tooLarge err }

/-- The same task, further on. -/
def UploadTask.at (t : UploadTask) (progress : Progress) : UploadTask :=
  { t with progress }

/-- The same state with task `i` changed. -/
def State.setTask (s : State) (i : Nat) (t : UploadTask) : State :=
  { s with uploads := s.uploads.set i t }

/-- The same state with another object under a key. -/
def State.setObject (s : State) (key : JsString) (object : Option StoredObject) : State :=
  { s with objects := fun k => if k = key then object else s.objects k }

/-- One step of the bucket and its clients. No uuid is ever used twice. -/
def step (s : State) : Action → Option (State × List Event)
  | .upload call =>
    if call.service.WellNamed ∧ ∀ t ∈ s.uploads, t.call.uuid ≠ call.uuid then
      some ({ s with uploads := s.uploads ++ [.start call] }, [.started s.uploads.length call])
    else none
  | .chunk i bytes => do
    let t ← s.uploads[i]?
    if t.progress = .streaming then
      some (s.setTask i (t.write bytes), [.chunk i bytes])
    else none
  | .endBody i => do
    let t ← s.uploads[i]?
    if t.progress = .streaming then some (s.setTask i (t.at .ended), [.bodyEnded i])
    else none
  | .failBody i => do
    let t ← s.uploads[i]?
    if t.progress = .streaming then some (s.setTask i (t.at .stalled), [.bodyFailed i])
    else none
  | .succeed i => do
    let t ← s.uploads[i]?
    if t.progress = .ended then
      some ((s.setTask i (t.at .settled)).setObject t.call.key
          (some ⟨t.passed, t.call.service.contentType⟩),
        [.resolved i t.call t.call.url t.call.key])
    else none
  | .failCommand i err => do
    let t ← s.uploads[i]?
    if t.progress = .settled then none
    else some (s.setTask i (t.at .settled), [.rejected i (.s3 err)])
  | .failCounter i => do
    let t ← s.uploads[i]?
    match t.progress with
    | .tooLarge err => some (s.setTask i (t.at .settled), [.rejected i (.tooLarge err)])
    | _ => none
  | .delete key none => some (s.setObject key none, [.deleted key])
  | .delete key (some err) => some (s, [.deleteRejected key err])
  | .exists key failure =>
    if ∀ err ∈ failure, isNotFound err = false then
      match existsResult (headObject s key failure) with
      | .ok answer => some (s, [.existed key answer])
      | .error err => some (s, [.existsRejected key err])
    else none

/-- The bindings over an empty bucket. -/
def bucket : Machine State Action Event where
  init := ⟨fun _ => none, []⟩
  step := step

/-! ### What a step can do -/

/-- What a step does, with the event that says so. -/
inductive Trans (s : State) : State → Event → Prop
  | started {call : UploadCall} :
      call.service.WellNamed → (∀ t ∈ s.uploads, t.call.uuid ≠ call.uuid) →
      Trans s { s with uploads := s.uploads ++ [.start call] } (.started s.uploads.length call)
  | chunk {i : Nat} {t : UploadTask} {bytes : List UInt8} :
      s.uploads[i]? = some t → t.progress = .streaming →
      Trans s (s.setTask i (t.write bytes)) (.chunk i bytes)
  | bodyEnded {i : Nat} {t : UploadTask} :
      s.uploads[i]? = some t → t.progress = .streaming →
      Trans s (s.setTask i (t.at .ended)) (.bodyEnded i)
  | bodyFailed {i : Nat} {t : UploadTask} :
      s.uploads[i]? = some t → t.progress = .streaming →
      Trans s (s.setTask i (t.at .stalled)) (.bodyFailed i)
  | resolved {i : Nat} {t : UploadTask} :
      s.uploads[i]? = some t → t.progress = .ended →
      Trans s ((s.setTask i (t.at .settled)).setObject t.call.key
        (some ⟨t.passed, t.call.service.contentType⟩))
        (.resolved i t.call t.call.url t.call.key)
  | rejected {i : Nat} {t : UploadTask} {err : UploadError} :
      s.uploads[i]? = some t → t.progress ≠ .settled →
      Trans s (s.setTask i (t.at .settled)) (.rejected i err)
  | deleted {key : JsString} : Trans s (s.setObject key none) (.deleted key)
  | deleteRejected {key : JsString} {err : S3Error} : Trans s s (.deleteRejected key err)
  | existed {key : JsString} : Trans s s (.existed key (s.objects key).isSome)
  | existsRejected {key : JsString} {err : S3Error} : Trans s s (.existsRejected key err)

/-- When `exists` answers, it says whether there is an object. -/
theorem answer_of_existsResult {s : State} {key : JsString} {failure : Option S3Error}
    (hfailure : ∀ err ∈ failure, isNotFound err = false) {answer : Bool}
    (h : existsResult (headObject s key failure) = .ok answer) :
    answer = (s.objects key).isSome := by
  cases failure with
  | some err =>
      have herr : isNotFound err = false := hfailure err rfl
      simp [headObject, existsResult, herr] at h
  | none =>
      cases hobj : s.objects key with
      | none => simpa [headObject, existsResult, hobj, isNotFound, eq_comm] using h
      | some object => simpa [headObject, existsResult, hobj, eq_comm] using h

theorem trans_of_step {s s' : State} {a : Action} {es : List Event}
    (h : step s a = some (s', es)) : ∃ e, es = [e] ∧ Trans s s' e := by
  cases a with
  | upload call =>
      obtain ⟨hc, rfl, rfl⟩ := Machine.of_guarded h
      exact ⟨_, rfl, .started hc.1 hc.2⟩
  | chunk i bytes =>
      obtain ⟨t, ht, h⟩ := Option.bind_eq_some_iff.mp h
      obtain ⟨hp, rfl, rfl⟩ := Machine.of_guarded h
      exact ⟨_, rfl, .chunk ht hp⟩
  | endBody i =>
      obtain ⟨t, ht, h⟩ := Option.bind_eq_some_iff.mp h
      obtain ⟨hp, rfl, rfl⟩ := Machine.of_guarded h
      exact ⟨_, rfl, .bodyEnded ht hp⟩
  | failBody i =>
      obtain ⟨t, ht, h⟩ := Option.bind_eq_some_iff.mp h
      obtain ⟨hp, rfl, rfl⟩ := Machine.of_guarded h
      exact ⟨_, rfl, .bodyFailed ht hp⟩
  | succeed i =>
      obtain ⟨t, ht, h⟩ := Option.bind_eq_some_iff.mp h
      obtain ⟨hp, rfl, rfl⟩ := Machine.of_guarded h
      exact ⟨_, rfl, .resolved ht hp⟩
  -- Here the guard is on what the upload has not done yet.
  | failCommand i err =>
      obtain ⟨t, ht, h⟩ := Option.bind_eq_some_iff.mp h
      split at h
      · cases h
      · next hp =>
        obtain ⟨rfl, rfl⟩ := Prod.mk.inj (Option.some.inj h)
        exact ⟨_, rfl, .rejected ht hp⟩
  | failCounter i =>
      obtain ⟨t, ht, h⟩ := Option.bind_eq_some_iff.mp h
      split at h
      · next err hp =>
        obtain ⟨rfl, rfl⟩ := Prod.mk.inj (Option.some.inj h)
        exact ⟨_, rfl, .rejected ht (by rw [hp]; simp)⟩
      · cases h
  | delete key failure =>
      cases failure with
      | none =>
          obtain ⟨rfl, rfl⟩ := Prod.mk.inj (Option.some.inj h)
          exact ⟨_, rfl, .deleted⟩
      | some err =>
          obtain ⟨rfl, rfl⟩ := Prod.mk.inj (Option.some.inj h)
          exact ⟨_, rfl, .deleteRejected⟩
  -- A failure that is not taken for `false` is thrown again.
  | «exists» key failure =>
      rw [step] at h
      split at h
      · next hfailure =>
        split at h
        · next answer hanswer =>
          obtain ⟨rfl, rfl⟩ := Prod.mk.inj (Option.some.inj h)
          obtain rfl := answer_of_existsResult hfailure hanswer
          exact ⟨_, rfl, .existed⟩
        · obtain ⟨rfl, rfl⟩ := Prod.mk.inj (Option.some.inj h)
          exact ⟨_, rfl, .existsRejected⟩
      · cases h

end EmailPlatform.Storage
