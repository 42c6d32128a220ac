import EmailPlatform.Storage.SizeCounter

/-!
# EmailPlatform.Storage.UploadStreams

**One upload, as the streams it runs on.** `NamespacedStorageService.upload` pipes its body
into a `SizeCountingTransform` and has an `Upload` of lib-storage read the counter. Three
parties take turns here, in any order that Node allows: the body, the counter with its two
buffers, and the uploader, with S3 answering its commands.

What is assumed of Node's streams is in the steps: `pipe` hands on the data and the end of
the body, stops for backpressure, and lets go of a counter that has failed or that is read
no more; it says nothing to the counter when the body fails or is destroyed. The uploader is
a parameter. What is assumed of it comes in two parts: how `done()` settles (`Uploader.Safe`),
which is all that the results about stored objects use, and that it goes on until then
(`Uploader.Live`). An uploader is `Lawful` with both, and when it also waits for its body.
-/

namespace EmailPlatform.Storage

/-- A chunk of a stream. -/
abbrev Chunk := List UInt8

/-! ### The uploader -/

/-- What an `Upload` does, and what happens to it. -/
inductive UploaderEvent
  /-- It takes the next chunk from its body. -/
  | read (chunk : Chunk)
  /-- It finds that its body has ended, or that it has failed. -/
  | readEnd
  | readError (err : StorageUploadTooLargeError)
  /-- It sends an S3 command. -/
  | send
  /-- S3 answers a command, with an error or without. -/
  | answer (failure : Option S3Error)
  /-- `done()` resolves or rejects. -/
  | settle (result : Except UploadError Unit)
  deriving DecidableEq

/-- What happened to an uploader so far, in order. -/
abbrev Trace := List UploaderEvent

namespace Trace

/-- An S3 command has failed. -/
def Failed (t : Trace) : Prop := ∃ err, .answer (some err) ∈ t

/-- The end or the error of the body has been read. -/
def Finished (t : Trace) : Prop := .readEnd ∈ t ∨ ∃ err, .readError err ∈ t

/-- `done()` has settled. -/
def Settled (t : Trace) : Prop := ∃ result, .settle result ∈ t

/-- S3 has answered a command. -/
def isAnswer : UploaderEvent → Bool
  | .answer _ => true
  | _ => false

/-- The commands that S3 has yet to answer. -/
def inFlight (t : Trace) : Nat := t.count .send - t.countP isAnswer

/-- `err` is the error of the body, or of a command. -/
def Causes (t : Trace) : UploadError → Prop
  | .tooLarge err => .readError err ∈ t
  | .s3 err => .answer (some err) ∈ t

end Trace

/-- `done()` settles. -/
def UploaderEvent.isSettle : UploaderEvent → Bool
  | .settle _ => true
  | _ => false

/-- The events that take something from the body. -/
def UploaderEvent.isRead : UploaderEvent → Bool
  | .read _ | .readEnd | .readError _ => true
  | _ => false

/-- An `Upload` of lib-storage, by what it may do next. -/
structure Uploader where
  may : Trace → UploaderEvent → Bool

/-- It can send a command, or `done()` settle. -/
def Uploader.Acts (lib : Uploader) (t : Trace) : Prop :=
  lib.may t .send = true ∨ ∃ result, lib.may t (.settle result) = true

/-- How `done()` settles. -/
structure Uploader.Safe (lib : Uploader) : Prop where
  /-- `done()` resolves at the end of the body, once all commands have succeeded. -/
  resolves : ∀ {t}, lib.may t (.settle (.ok ())) = true →
    .readEnd ∈ t ∧ ¬ t.Failed ∧ t.inFlight = 0
  /-- It rejects with the error of the body or of a command. -/
  rejects : ∀ {t err}, lib.may t (.settle (.error err)) = true → t.Causes err
  settlesOnce : ∀ {t result}, lib.may t (.settle result) = true → ¬ t.Settled
  /-- Nothing is done after `done()` has resolved. -/
  rests : ∀ {t e}, lib.may t e = true → .settle (.ok ()) ∉ t

/-- That `done()` settles: with no command in flight an uploader goes on. -/
structure Uploader.Live (lib : Uploader) : Prop where
  /-- It takes what its body has for it, unless it has something else to do. -/
  reads : ∀ {t e}, ¬ t.Settled → ¬ t.Finished → t.inFlight = 0 → e.isRead = true →
    lib.may t e = true ∨ lib.Acts t
  /-- Its body has ended or failed, and its commands have answered. -/
  settles : ∀ {t}, ¬ t.Settled → t.Finished → t.inFlight = 0 → lib.Acts t

/-- What is assumed of lib-storage: `done()` settles once its body has ended or failed and its
commands have answered. After a failed command too it reads on until then. -/
structure Uploader.Lawful (lib : Uploader) : Prop extends lib.Safe, lib.Live where
  waits : ∀ {t result}, lib.may t (.settle result) = true → t.Finished

/-! ### An uploader that is lawful -/

/-- `UPLOAD_DEFAULTS` -/
def UPLOAD_DEFAULTS.QUEUE_SIZE : Nat := 4

def UPLOAD_DEFAULTS.PART_SIZE_BYTES : Nat := 5 * 1024 * 1024

instance (t : Trace) : Decidable t.Settled :=
  decidable_of_iff (∃ e ∈ t, e.isSettle = true) <| by
    constructor
    · intro ⟨e, he, hsettle⟩
      cases e <;> simp [UploaderEvent.isSettle] at hsettle
      exact ⟨_, he⟩
    · exact fun ⟨result, hresult⟩ => ⟨_, hresult, rfl⟩

/-- S3 answers with an error. -/
def UploaderEvent.isFailure : UploaderEvent → Bool
  | .answer failure => failure.isSome
  | _ => false

instance (t : Trace) : Decidable t.Failed :=
  decidable_of_iff (∃ e ∈ t, e.isFailure = true) <| by
    constructor
    · intro ⟨e, he, hfailure⟩
      cases e <;> simp [UploaderEvent.isFailure] at hfailure
      obtain ⟨err, rfl⟩ := Option.isSome_iff_exists.mp hfailure
      exact ⟨err, he⟩
    · exact fun ⟨err, herr⟩ => ⟨_, herr, rfl⟩

/-- The body has ended or failed. -/
def UploaderEvent.isFinish : UploaderEvent → Bool
  | .readEnd | .readError _ => true
  | _ => false

instance (t : Trace) : Decidable t.Finished :=
  decidable_of_iff (∃ e ∈ t, e.isFinish = true) <| by
    constructor
    · intro ⟨e, he, hfinish⟩
      cases e <;> simp [UploaderEvent.isFinish] at hfinish
      · exact .inl he
      · exact .inr ⟨_, he⟩
    · intro h
      rcases h with hend | ⟨err, herr⟩
      · exact ⟨_, hend, rfl⟩
      · exact ⟨_, herr, rfl⟩

instance (t : Trace) : ∀ err : UploadError, Decidable (t.Causes err)
  | .tooLarge err => inferInstanceAs (Decidable (.readError err ∈ t))
  | .s3 err => inferInstanceAs (Decidable (.answer (some err) ∈ t))

/-- The bytes read so far. -/
def Trace.bytesRead (t : Trace) : Nat :=
  totalLength (t.filterMap fun | .read chunk => some chunk | _ => none)

/-- The commands for a body of which `bytes` are known: a `PutObject` if it is one part,
otherwise a `CreateMultipartUpload`, the parts, and at the end a `CompleteMultipartUpload`. -/
def commandsDue (partSize bytes : Nat) (ended : Bool) : Nat :=
  match ended, decide (bytes ≤ partSize) with
  | true, true => 1
  | true, false => (bytes - 1) / partSize + 3
  | false, true => 0
  | false, false => (bytes - 1) / partSize + 1

/-- What an uploader of `queueSize` workers may do next. -/
def libStorage.May (queueSize partSize : Nat) (t : Trace) : UploaderEvent → Prop
  | .read _ | .readEnd | .readError _ => ¬ t.Finished ∧ t.inFlight < queueSize
  | .send => ¬ t.Failed ∧ t.inFlight < queueSize ∧
      t.count .send < commandsDue partSize t.bytesRead (.readEnd ∈ t)
  | .answer _ => False
  | .settle (.ok ()) => .readEnd ∈ t ∧ ¬ t.Failed ∧ t.inFlight = 0 ∧
      commandsDue partSize t.bytesRead (.readEnd ∈ t) ≤ t.count .send
  | .settle (.error err) => t.Finished ∧ t.inFlight = 0 ∧ t.Causes err

instance (queueSize partSize : Nat) (t : Trace) :
    ∀ e, Decidable (libStorage.May queueSize partSize t e)
  | .read _ | .readEnd | .readError _ | .send => inferInstanceAs (Decidable (_ ∧ _))
  | .answer _ => inferInstanceAs (Decidable False)
  | .settle (.ok ()) => inferInstanceAs (Decidable (_ ∧ _))
  | .settle (.error _) => inferInstanceAs (Decidable (_ ∧ _))

/-- An `Upload` with a queue and parts of these sizes. -/
def libStorage (queueSize partSize : Nat) : Uploader where
  may t e := decide (¬ t.Settled ∧ libStorage.May queueSize partSize t e)

theorem libStorage_lawful {queueSize : Nat} (hqueue : 0 < queueSize) (partSize : Nat) :
    (libStorage queueSize partSize).Lawful where
  reads {t e} hsettled hfinished hflight he := by
    have hroom : t.inFlight < queueSize := hflight ▸ hqueue
    refine .inl (decide_eq_true ⟨hsettled, ?_⟩)
    cases e <;> simp [UploaderEvent.isRead] at he <;> exact ⟨hfinished, hroom⟩
  settles {t} hsettled hfinished hflight := by
    by_cases hfailed : t.Failed
    · obtain ⟨err, herr⟩ := hfailed
      exact .inr ⟨.error (.s3 err), decide_eq_true ⟨hsettled, hfinished, hflight, herr⟩⟩
    · rcases id hfinished with hend | ⟨err, herr⟩
      · rcases Nat.lt_or_ge (t.count .send)
            (commandsDue partSize t.bytesRead (.readEnd ∈ t)) with hlt | hle
        · exact .inl (decide_eq_true ⟨hsettled, hfailed, hflight ▸ hqueue, hlt⟩)
        · exact .inr ⟨.ok (), decide_eq_true ⟨hsettled, hend, hfailed, hflight, hle⟩⟩
      · exact .inr ⟨.error (.tooLarge err),
          decide_eq_true ⟨hsettled, hfinished, hflight, herr⟩⟩
  resolves h := by
    obtain ⟨-, hend, hfailed, hflight, -⟩ := of_decide_eq_true h
    exact ⟨hend, hfailed, hflight⟩
  rejects h := (of_decide_eq_true h).2.2.2
  settlesOnce h := (of_decide_eq_true h).1
  rests h hresolved := (of_decide_eq_true h).1 ⟨_, hresolved⟩
  waits {t result} h := by
    cases result with
    | ok => exact .inl (of_decide_eq_true h).2.1
    | error err => exact (of_decide_eq_true h).2.1

/-! ### The counter and the body -/

/-- How a stream has gone on. -/
inductive CounterPhase
  | passing
  /-- All is passed on, and the end with it. -/
  | ended
  /-- Destroyed by the error of `_transform`. -/
  | failed (err : StorageUploadTooLargeError)
  deriving DecidableEq

/-- The counter with its buffers. -/
structure CounterStream where
  counter : SizeCountingTransform
  /-- What was written and not yet transformed. -/
  writable : List Chunk
  /-- `end()` was called. -/
  ending : Bool
  /-- What was passed on and not yet read. -/
  readable : List Chunk
  phase : CounterPhase

/-- How the body has gone on. -/
inductive SourcePhase
  | flowing
  | ended
  /-- It has failed or was destroyed before its end. -/
  | died
  deriving DecidableEq

/-- The buffer size of Node's streams. -/
structure StreamOptions where
  highWaterMark : Nat
  pos : 0 < highWaterMark

/-- An upload. -/
structure UploadState where
  source : SourcePhase
  /-- The pipe waits for the counter's `drain`. -/
  paused : Bool
  stream : CounterStream
  trace : Trace

/-- What `upload` returns. -/
structure UploadResult where
  url : JsString
  key : JsString
  deriving DecidableEq

/-- What `upload` makes of the result of `done()`. -/
def UploadCall.settle (call : UploadCall) :
    Except UploadError Unit → Except UploadError UploadResult
  | .ok () => .ok ⟨call.url, call.key⟩
  | .error err => .error err

/-- What happens in an upload. -/
inductive StreamEvent
  | chunk (bytes : Chunk)
  | sourceEnded
  | sourceDied
  | uploader (e : UploaderEvent)
  /-- `upload` resolves or rejects. -/
  | settled (result : Except UploadError UploadResult)
  deriving DecidableEq

/-- What can happen next. -/
inductive StreamAction
  /-- The body emits a chunk, ends, or fails or is destroyed. -/
  | chunk (bytes : Chunk)
  | endSource
  | failSource
  /-- The counter's `drain`: the pipe resumes the body. -/
  | drain
  /-- The counter transforms the next chunk, or after the last one ends. -/
  | transform
  | flush
  /-- The uploader, or S3, does something. -/
  | uploader (e : UploaderEvent)

/-- What the counter is like after the uploader's event; `none` if it does not have what is
read. A stream that was destroyed gives nothing but its error. -/
def CounterStream.give (stream : CounterStream) : UploaderEvent → Option CounterStream
  | .read chunk =>
    match stream.phase, stream.readable with
    | .failed _, _ | _, [] => none
    | _, next :: rest => if next = chunk then some { stream with readable := rest } else none
  | .readEnd => if stream.phase = .ended ∧ stream.readable = [] then some stream else none
  | .readError err => if stream.phase = .failed err then some stream else none
  | .send | .answer _ | .settle _ => some stream

/-- The counter is still fed by the pipe: it has not failed, and it is read. -/
def UploadState.piped (s : UploadState) : Bool :=
  match s.stream.phase with
  | .failed _ => false
  | _ => !s.trace.any UploaderEvent.isSettle

/-- The uploader, or S3, may do this next. S3 answers what it was sent. -/
def Uploader.permits (lib : Uploader) (t : Trace) : UploaderEvent → Bool
  | .answer _ => 0 < t.inFlight
  | e => lib.may t e

/-- What an event of the uploader looks like from outside. -/
def UploadCall.observe (call : UploadCall) : UploaderEvent → List StreamEvent
  | .settle result => [.uploader (.settle result), .settled (call.settle result)]
  | e => [.uploader e]

/-- The counter transforms `chunk`, the first of those written. -/
def CounterStream.transform (stream : CounterStream) (chunk : Chunk) (rest : List Chunk) :
    CounterStream :=
  match stream.counter.transform chunk with
  | (counter, .ok out) =>
    { stream with counter, writable := rest, readable := stream.readable ++ [out] }
  | (counter, .error err) => { stream with counter, writable := rest, phase := .failed err }

/-- One step of an upload. -/
def uploadStep (lib : Uploader) (node : StreamOptions) (call : UploadCall) (s : UploadState) :
    StreamAction → Option (UploadState × List StreamEvent)
  | .chunk bytes =>
    if s.source = .flowing ∧ s.piped = true ∧ s.paused = false then
      let writable := s.stream.writable ++ [bytes]
      -- `write` asks for a pause when the buffer is full
      some ({ s with
        paused := decide (node.highWaterMark ≤ totalLength writable)
        stream := { s.stream with writable } }, [.chunk bytes])
    else none
  | .endSource =>
    if s.source = .flowing ∧ s.piped = true ∧ s.paused = false then
      some ({ s with source := .ended, stream := { s.stream with ending := true } },
        [.sourceEnded])
    else none
  | .failSource =>
    if s.source = .flowing then some ({ s with source := .died }, [.sourceDied]) else none
  | .drain =>
    if s.paused = true ∧ s.stream.writable = [] then some ({ s with paused := false }, [])
    else none
  | .transform =>
    -- the callback of `_transform` is held back while the readable side is full
    if s.stream.phase = .passing ∧
        (s.stream.ending = true ∨ totalLength s.stream.readable < node.highWaterMark) then
      match s.stream.writable with
      | [] => none
      | chunk :: rest => some ({ s with stream := s.stream.transform chunk rest }, [])
    else none
  | .flush =>
    if s.stream.phase = .passing ∧ s.stream.ending = true ∧ s.stream.writable = [] then
      some ({ s with stream := { s.stream with phase := .ended } }, [])
    else none
  | .uploader e =>
    if lib.permits s.trace e = true then
      (s.stream.give e).map fun stream =>
        ({ s with stream, trace := s.trace ++ [e] }, call.observe e)
    else none

/-- An upload from its call on. -/
def uploadMachine (lib : Uploader) (node : StreamOptions) (call : UploadCall) :
    Machine UploadState StreamAction StreamEvent where
  init := ⟨.flowing, false, ⟨.new call.service.maxBytes, [], false, [], .passing⟩, []⟩
  step := uploadStep lib node call

/-! ### What a step can do -/

/-- What a step does, with the events that say so. -/
inductive StreamTrans (lib : Uploader) (call : UploadCall) (s : UploadState) :
    UploadState → List StreamEvent → Prop
  | chunk {bytes : Chunk} {paused : Bool} : s.source = .flowing →
      StreamTrans lib call s { s with
        paused, stream := { s.stream with writable := s.stream.writable ++ [bytes] } }
        [.chunk bytes]
  | endSource : s.source = .flowing →
      StreamTrans lib call s
        { s with source := .ended, stream := { s.stream with ending := true } } [.sourceEnded]
  | failSource : s.source = .flowing →
      StreamTrans lib call s { s with source := .died } [.sourceDied]
  | drain : StreamTrans lib call s { s with paused := false } []
  | transform {chunk : Chunk} {rest : List Chunk} : s.stream.phase = .passing →
      s.stream.writable = chunk :: rest →
      StreamTrans lib call s { s with stream := s.stream.transform chunk rest } []
  | flush : s.stream.phase = .passing → s.stream.ending = true → s.stream.writable = [] →
      StreamTrans lib call s { s with stream := { s.stream with phase := .ended } } []
  | uploader {e : UploaderEvent} {stream : CounterStream} : lib.permits s.trace e = true →
      s.stream.give e = some stream →
      StreamTrans lib call s { s with stream, trace := s.trace ++ [e] } (call.observe e)

theorem streamTrans_of_step {lib : Uploader} {node : StreamOptions} {call : UploadCall}
    {s s' : UploadState} {a : StreamAction} {es : List StreamEvent}
    (h : uploadStep lib node call s a = some (s', es)) : StreamTrans lib call s s' es := by
  cases a with
  | chunk bytes =>
      obtain ⟨hc, rfl, rfl⟩ := Machine.of_guarded h
      exact .chunk hc.1
  | endSource =>
      obtain ⟨hc, rfl, rfl⟩ := Machine.of_guarded h
      exact .endSource hc.1
  | failSource =>
      obtain ⟨hc, rfl, rfl⟩ := Machine.of_guarded h
      exact .failSource hc
  | drain =>
      obtain ⟨-, rfl, rfl⟩ := Machine.of_guarded h
      exact .drain
  | transform =>
      obtain ⟨hc, h⟩ := Option.ite_none_right_eq_some.mp h
      split at h
      · cases h
      · next hw =>
        obtain ⟨rfl, rfl⟩ := Prod.mk.inj (Option.some.inj h)
        exact .transform hc.1 hw
  | flush =>
      obtain ⟨hc, rfl, rfl⟩ := Machine.of_guarded h
      exact .flush hc.1 hc.2.1 hc.2.2
  | uploader e =>
      obtain ⟨hp, h⟩ := Option.ite_none_right_eq_some.mp h
      obtain ⟨stream, hgive, h⟩ := Option.map_eq_some_iff.mp h
      obtain ⟨rfl, rfl⟩ := Prod.mk.inj h
      exact .uploader hp hgive

end EmailPlatform.Storage
