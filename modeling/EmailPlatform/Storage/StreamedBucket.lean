import EmailPlatform.Core.Refinement
import EmailPlatform.Storage.UploadContent
import EmailPlatform.Storage.WriteOnce

/-!
# EmailPlatform.Storage.StreamedBucket

**The public bucket with real uploads.** `bucket` takes an upload for a body, a counter and two
ends; `uploadMachine` has the streams and the uploader of one upload. `streamedBucket` puts the
two together: any number of uploads over streams run side by side with deletes and probes of
one bucket, where an upload whose `done()` resolves leaves what its uploader has taken.

Seen from outside it is the bucket (`streamedBucket_refines`): the buffers, the reads and the
commands in flight make no difference. So the bucket's laws hold with the streams in place, and
an object is the body of its upload byte for byte (`objects_of_streamedBucket`).
-/

namespace EmailPlatform.Storage

/-- An upload over streams. -/
structure StreamedUpload where
  call : UploadCall
  state : UploadState

/-- The bucket and the uploads so far. -/
structure StreamedState where
  objects : JsString → Option StoredObject
  uploads : List StreamedUpload

/-- What happens, in order. -/
inductive StreamedEvent
  | started (i : ℕ) (call : UploadCall)
  /-- Something happens in upload `i`. -/
  | stream (i : ℕ) (call : UploadCall) (e : StreamEvent)
  /-- Another client's event. -/
  | client (e : Event)

/-- What can happen next. -/
inductive StreamedAction
  | upload (call : UploadCall)
  | stream (i : ℕ) (a : StreamAction)
  | delete (key : JsString) (failure : Option S3Error)
  | exists (key : JsString) (failure : Option S3Error)

/-- The bucket behind an upload that may have resolved. -/
def StreamedUpload.commit (u : StreamedUpload) (objects : JsString → Option StoredObject) :
    StreamAction → JsString → Option StoredObject
  | .uploader (.settle (.ok ())) => fun key =>
    if key = u.call.key then some ⟨u.state.trace.taken.flatten, u.call.service.contentType⟩
    else objects key
  | _ => objects

/-- The bucket alone, for the clients that do not upload. -/
def StreamedState.toState (s : StreamedState) : State := ⟨s.objects, []⟩

/-- The same state with other objects. -/
def StreamedState.withObjects (s : StreamedState) (objects : JsString → Option StoredObject) :
    StreamedState :=
  { s with objects }

/-- One step of the bucket and its clients. -/
def streamedStep (lib : Uploader) (node : StreamOptions) (s : StreamedState) :
    StreamedAction → Option (StreamedState × List StreamedEvent)
  | .upload call =>
    if call.service.WellNamed ∧ ∀ u ∈ s.uploads, u.call.uuid ≠ call.uuid then
      some ({ s with uploads := s.uploads ++ [⟨call, (uploadMachine lib node call).init⟩] },
        [.started s.uploads.length call])
    else none
  | .stream i a => do
    let u ← s.uploads[i]?
    let (state, es) ← uploadStep lib node u.call u.state a
    some (⟨u.commit s.objects a, s.uploads.set i { u with state }⟩, es.map (.stream i u.call))
  | .delete key failure => do
    let (t, es) ← step s.toState (.delete key failure)
    some (s.withObjects t.objects, es.map .client)
  | .exists key failure => do
    let (t, es) ← step s.toState (.exists key failure)
    some (s.withObjects t.objects, es.map .client)

/-- Bindings over an empty bucket, with their streams. -/
def streamedBucket (lib : Uploader) (node : StreamOptions) :
    Machine StreamedState StreamedAction StreamedEvent where
  init := ⟨fun _ => none, []⟩
  step := streamedStep lib node

variable {lib : Uploader} {node : StreamOptions} {h : List StreamedEvent} {s s' : StreamedState}

/-! ### Each upload by itself -/

/-- What happens in upload `i`. -/
def StreamedEvent.ofUpload? (i : ℕ) : StreamedEvent → Option StreamEvent
  | .stream j _ e => if j = i then some e else none
  | .started .. | .client _ => none

/-- What has happened in upload `i`. -/
def streamHistory (i : ℕ) (h : List StreamedEvent) : List StreamEvent :=
  h.filterMap (StreamedEvent.ofUpload? i)

theorem streamHistory_append (i : ℕ) (h es : List StreamedEvent) :
    streamHistory i (h ++ es) = streamHistory i h ++ streamHistory i es := List.filterMap_append

theorem streamHistory_stream (i : ℕ) (call : UploadCall) (es : List StreamEvent) :
    streamHistory i (es.map (.stream i call)) = es := by
  simp [streamHistory, List.filterMap_map, Function.comp_def, StreamedEvent.ofUpload?]

theorem streamHistory_stream_of_ne {i j : ℕ} (hij : i ≠ j) (call : UploadCall)
    (es : List StreamEvent) : streamHistory j (es.map (.stream i call)) = [] := by
  simp [streamHistory, List.filterMap_map, Function.comp_def, StreamedEvent.ofUpload?, hij]

theorem streamHistory_client (i : ℕ) (es : List Event) :
    streamHistory i (es.map .client) = [] := by
  simp [streamHistory, List.filterMap_map, Function.comp_def, StreamedEvent.ofUpload?]

/-- What a step does. -/
inductive StreamedTrans (lib : Uploader) (node : StreamOptions) (s : StreamedState) :
    StreamedState → List StreamedEvent → Prop
  | started {call : UploadCall} :
      call.service.WellNamed → (∀ u ∈ s.uploads, u.call.uuid ≠ call.uuid) →
      StreamedTrans lib node s
        { s with uploads := s.uploads ++ [⟨call, (uploadMachine lib node call).init⟩] }
        [.started s.uploads.length call]
  | stream {i : ℕ} {u : StreamedUpload} {a : StreamAction} {state : UploadState}
      {es : List StreamEvent} :
      s.uploads[i]? = some u → uploadStep lib node u.call u.state a = some (state, es) →
      StreamedTrans lib node s ⟨u.commit s.objects a, s.uploads.set i { u with state }⟩
        (es.map (.stream i u.call))
  /-- A delete or a probe, by a step of the bucket that leaves the uploads alone. -/
  | client {a : Action} {t : State} {es : List Event} :
      (∃ key failure, a = .delete key failure ∨ a = .exists key failure) →
      step s.toState a = some (t, es) →
      StreamedTrans lib node s (s.withObjects t.objects) (es.map .client)

theorem streamedTrans_of_step {a : StreamedAction} {es : List StreamedEvent}
    (hs : streamedStep lib node s a = some (s', es)) : StreamedTrans lib node s s' es := by
  cases a with
  | upload call =>
      obtain ⟨hc, rfl, rfl⟩ := Machine.of_guarded hs
      exact .started hc.1 hc.2
  | stream i a =>
      obtain ⟨u, hu, hs⟩ := Option.bind_eq_some_iff.mp hs
      obtain ⟨⟨state, es⟩, hstep, hs⟩ := Option.bind_eq_some_iff.mp hs
      obtain ⟨rfl, rfl⟩ := Prod.mk.inj (Option.some.inj hs)
      exact .stream hu hstep
  | delete key failure =>
      obtain ⟨⟨t, es⟩, hstep, hs⟩ := Option.bind_eq_some_iff.mp hs
      obtain ⟨rfl, rfl⟩ := Prod.mk.inj (Option.some.inj hs)
      exact .client ⟨key, failure, .inl rfl⟩ hstep
  | «exists» key failure =>
      obtain ⟨⟨t, es⟩, hstep, hs⟩ := Option.bind_eq_some_iff.mp hs
      obtain ⟨rfl, rfl⟩ := Prod.mk.inj (Option.some.inj hs)
      exact .client ⟨key, failure, .inr rfl⟩ hstep

/-- Whatever the others do, an upload is in a run of its own. -/
theorem upload_reaches (hr : (streamedBucket lib node).Reaches h s) {i : ℕ} {u : StreamedUpload}
    (hu : s.uploads[i]? = some u) :
    (uploadMachine lib node u.call).Reaches (streamHistory i h) u.state := by
  -- The induction also needs that an upload which has not begun has no history.
  have hall : (∀ i, s.uploads.length ≤ i → streamHistory i h = []) ∧
      ∀ i u, s.uploads[i]? = some u →
        (uploadMachine lib node u.call).Reaches (streamHistory i h) u.state := by
    refine Machine.Reaches.invariant (I := fun h s =>
      (∀ i, s.uploads.length ≤ i → streamHistory i h = []) ∧ ∀ i u, s.uploads[i]? = some u →
        (uploadMachine lib node u.call).Reaches (streamHistory i h) u.state) ?_ ?_ hr
    · exact ⟨fun _ _ => rfl, by simp [streamedBucket]⟩
    · intro h s a s' es _ hi hs
      obtain ⟨hfresh, hruns⟩ := hi
      cases streamedTrans_of_step hs with
      | started =>
          refine ⟨fun i hle => ?_, fun i u hu => ?_⟩
          · rw [streamHistory_append, hfresh i (by simp at hle; omega)]
            rfl
          · rw [streamHistory_append]
            show (uploadMachine lib node u.call).Reaches (streamHistory i _ ++ []) u.state
            rw [List.append_nil]
            rcases getElem?_concat_cases hu with ⟨rfl, rfl⟩ | hu
            · rw [hfresh _ (Nat.le_refl _)]
              exact .init
            · exact hruns i u hu
      | @stream i u a state es hu hstep =>
          refine ⟨fun j hle => ?_, fun j u' hu' => ?_⟩
          · rw [List.length_set] at hle
            have hij : i ≠ j := by
              have hlt := (List.getElem?_eq_some_iff.mp hu).1
              omega
            rw [streamHistory_append, hfresh j hle, streamHistory_stream_of_ne hij]
            rfl
          · rw [streamHistory_append]
            rcases getElem?_set_cases hu' with ⟨rfl, rfl⟩ | ⟨hji, hu'⟩
            · rw [streamHistory_stream]
              exact (hruns j u hu).step hstep
            · rw [streamHistory_stream_of_ne (Ne.symm hji), List.append_nil]
              exact hruns j u' hu'
      | client =>
          simp only [streamHistory_append, streamHistory_client, List.append_nil]
          exact ⟨hfresh, hruns⟩
  exact hall.2 i u hu

/-! ### Seen from outside -/

/-- The bucket's event that is seen of an event. -/
def Event.visible? : Event → Option Event
  | .chunk .. | .bodyEnded _ | .bodyFailed _ => none
  | e => some e

@[inherit_doc Event.visible?]
def StreamedEvent.visible? : StreamedEvent → Option Event
  | .started i call => some (.started i call)
  | .stream i call (.settled (.ok result)) => some (.resolved i call result.url result.key)
  | .stream i _ (.settled (.error err)) => some (.rejected i err)
  | .stream .. => none
  | .client e => e.visible?

/-- The progress that a phase of the counter stands for. -/
def CounterPhase.progress : CounterPhase → Progress
  | .passing => .streaming
  | .ended => .ended
  | .failed err => .tooLarge err

/-- The task that an upload over streams is. Once it has settled, its streams may go on. -/
structure TaskOf (u : StreamedUpload) (task : UploadTask) : Prop where
  call : task.call = u.call
  settled : u.state.trace.Settled → task.progress = .settled
  running : ¬ u.state.trace.Settled → task.counter = u.state.stream.counter ∧
    task.passed = u.state.passed.flatten ∧ task.progress = u.state.stream.phase.progress

/-- The bucket that a bucket with streams is. -/
structure BucketOf (s : StreamedState) (t : State) : Prop where
  objects : t.objects = s.objects
  length : t.uploads.length = s.uploads.length
  task : ∀ {i : ℕ} {u : StreamedUpload} {task : UploadTask}, s.uploads[i]? = some u →
    t.uploads[i]? = some task → TaskOf u task

section Tasks

variable {u : StreamedUpload} {task task' : UploadTask} {state : UploadState} {i : ℕ} {t : State}

/-- A step of the streams that the bucket does not see. -/
theorem TaskOf.of_same (hu : TaskOf u task)
    (hsettled : state.trace.Settled ↔ u.state.trace.Settled)
    (hcounter : state.stream.counter = u.state.stream.counter)
    (hpassed : state.passed = u.state.passed) (hphase : state.stream.phase = u.state.stream.phase) :
    TaskOf { u with state } task where
  call := hu.call
  settled h := hu.settled (hsettled.mp h)
  running h := by
    rw [hcounter, hpassed, hphase]
    exact hu.running fun hs => h (hsettled.mpr hs)

/-- A step of the streams after the upload has settled. -/
theorem TaskOf.of_settled (hu : TaskOf u task) (hold : u.state.trace.Settled)
    (hnew : state.trace.Settled) : TaskOf { u with state } task where
  call := hu.call
  settled _ := hu.settled hold
  running h := absurd hnew h

/-- The counter takes a chunk in. -/
theorem TaskOf.write (hu : TaskOf u task) (hopen : ¬ u.state.trace.Settled)
    (chunk : Chunk) (rest : List Chunk) :
    TaskOf { u with state := { u.state with stream := u.state.stream.transform chunk rest } }
      (task.write chunk) where
  call := (UploadTask.call_write task chunk).trans hu.call
  settled h := absurd h hopen
  running _ := by
    obtain ⟨hcounter, hpassed, hprogress⟩ := hu.running hopen
    rw [UploadTask.write, CounterStream.transform, hcounter]
    cases htransform : u.state.stream.counter.transform chunk with
    | mk counter out =>
        cases out with
        | ok out =>
            refine ⟨rfl, ?_, hprogress⟩
            show task.passed ++ out =
              (u.state.trace.taken ++ (u.state.stream.readable ++ [out])).flatten
            rw [hpassed, ← List.append_assoc, List.flatten_append]
            exact congrArg (_ ++ ·) (List.append_nil out).symm
        | error err => exact ⟨rfl, hpassed, rfl⟩

/-- The upload settles. -/
theorem TaskOf.settle (hu : TaskOf u task) (hnew : state.trace.Settled) :
    TaskOf { u with state } (task.at .settled) where
  call := hu.call
  settled _ := rfl
  running h := absurd hnew h

/-- One upload has moved on, and its task with it. -/
theorem BucketOf.set (hb : BucketOf s t) (hu : TaskOf { u with state } task') :
    BucketOf ⟨s.objects, s.uploads.set i { u with state }⟩ (t.setTask i task') where
  objects := hb.objects
  length := by
    rw [List.length_set, ← hb.length]
    exact List.length_set
  task hu' htask' := by
    rcases getElem?_set_cases hu' with ⟨rfl, rfl⟩ | ⟨hji, hu'⟩
    · rcases getElem?_setTask_cases htask' with ⟨-, rfl⟩ | ⟨hne, -⟩
      · exact hu
      · exact absurd rfl hne
    · rcases getElem?_setTask_cases htask' with ⟨rfl, -⟩ | ⟨-, htask'⟩
      · exact absurd rfl hji
      · exact hb.task hu' htask'

/-- One upload has moved on unseen. -/
theorem BucketOf.setUpload (hb : BucketOf s t) (htask : t.uploads[i]? = some task)
    (hu : TaskOf { u with state } task) :
    BucketOf ⟨s.objects, s.uploads.set i { u with state }⟩ t where
  objects := hb.objects
  length := by rw [List.length_set, hb.length]
  task hu' htask' := by
    rcases getElem?_set_cases hu' with ⟨rfl, rfl⟩ | ⟨-, hu'⟩
    · obtain rfl := Option.some.inj (htask.symm.trans htask')
      exact hu
    · exact hb.task hu' htask'

/-- An upload has its task. -/
theorem BucketOf.exists_task (hb : BucketOf s t) (hu : s.uploads[i]? = some u) :
    ∃ task, t.uploads[i]? = some task ∧ TaskOf u task := by
  have hlt : i < t.uploads.length := hb.length ▸ (List.getElem?_eq_some_iff.mp hu).1
  exact ⟨t.uploads[i], List.getElem?_eq_getElem hlt, hb.task hu (List.getElem?_eq_getElem hlt)⟩

end Tasks

/-- What a step of one upload is to the bucket: nothing, or one step. -/
def Answered (i : ℕ) (s : StreamedState) (t : State) (u : StreamedUpload) (a : StreamAction)
    (state : UploadState) (es : List StreamEvent) : Prop :=
  (BucketOf ⟨u.commit s.objects a, s.uploads.set i { u with state }⟩ t ∧
      (es.map (StreamedEvent.stream i u.call)).filterMap StreamedEvent.visible? = []) ∨
    ∃ b t' fs, step t b = some (t', fs) ∧
      BucketOf ⟨u.commit s.objects a, s.uploads.set i { u with state }⟩ t' ∧
      (es.map (StreamedEvent.stream i u.call)).filterMap StreamedEvent.visible? =
        fs.filterMap Event.visible?

section Answers

variable {u : StreamedUpload} {task : UploadTask} {i : ℕ} {t : State} {state : UploadState}
  {es : List StreamEvent}

theorem Trace.settled_append {tr : Trace} {e : UploaderEvent} (he : e.isSettle = false) :
    Trace.Settled (tr ++ [e]) ↔ tr.Settled := by
  refine exists_congr fun result => ⟨fun hmem => ?_, List.mem_append_left _⟩
  refine mem_of_mem_concat hmem fun heq => ?_
  subst heq
  cases he

theorem Trace.settled_settle (tr : Trace) (result : Except UploadError Unit) :
    Trace.Settled (tr ++ [.settle result]) :=
  ⟨result, List.mem_append_right _ (List.mem_singleton_self _)⟩

/-- The counter's own steps are the bucket's, until the upload has settled. -/
theorem answered_transform (hb : BucketOf s t) (htask : t.uploads[i]? = some task)
    (hu : TaskOf u task) (hp : u.state.stream.phase = .passing) (chunk : Chunk)
    (rest : List Chunk) :
    Answered i s t u .transform
      { u.state with stream := u.state.stream.transform chunk rest } [] := by
  by_cases hsettled : u.state.trace.Settled
  · exact .inl ⟨hb.setUpload htask (hu.of_settled hsettled hsettled), rfl⟩
  · have hprogress : task.progress = .streaming := by rw [(hu.running hsettled).2.2, hp]; rfl
    exact .inr ⟨.chunk i chunk, t.setTask i (task.write chunk), [.chunk i chunk],
      by simp [step, htask, hprogress], hb.set (hu.write hsettled chunk rest), rfl⟩

@[inherit_doc answered_transform]
theorem answered_flush (hb : BucketOf s t) (htask : t.uploads[i]? = some task)
    (hu : TaskOf u task) (hp : u.state.stream.phase = .passing) :
    Answered i s t u .flush
      { u.state with stream := { u.state.stream with phase := .ended } } [] := by
  by_cases hsettled : u.state.trace.Settled
  · exact .inl ⟨hb.setUpload htask (hu.of_settled hsettled hsettled), rfl⟩
  · obtain ⟨hcounter, hpassed, hprogress⟩ := hu.running hsettled
    rw [hp] at hprogress
    refine .inr ⟨.endBody i, t.setTask i (task.at .ended), [.bodyEnded i],
      by simp [step, htask, show task.progress = .streaming from hprogress], hb.set ?_, rfl⟩
    exact ⟨hu.call, fun h => absurd h hsettled, fun _ => ⟨hcounter, hpassed, rfl⟩⟩

/-- So is the end of `done()`. -/
theorem answered_settle (hlib : lib.Safe) (hb : BucketOf s t)
    (htask : t.uploads[i]? = some task) (hu : TaskOf u task) {g : List StreamEvent}
    (hr : (uploadMachine lib node u.call).Reaches g u.state)
    {result : Except UploadError Unit}
    (hmay : lib.may u.state.trace (.settle result) = true) :
    Answered i s t u (.uploader (.settle result))
      { u.state with trace := u.state.trace ++ [.settle result] }
      (u.call.observe (.settle result)) := by
  have hopen := hlib.settlesOnce hmay
  obtain ⟨-, hpassed, hprogress⟩ := hu.running hopen
  have hupheld := Upheld.of_reaches hlib hr
  have hcontent := Content.of_reaches hr
  have hnew : ∀ state : UploadState, state.trace = u.state.trace ++ [.settle result] →
      state.trace.Settled := fun state htrace => htrace ▸ Trace.settled_settle _ result
  cases result with
  | ok =>
      -- The uploader has read the body to its end: the object holds all of it.
      obtain ⟨hended, hempty⟩ := hcontent.drained (hlib.resolves hmay).1
      rw [hended] at hprogress
      have htaken : task.passed = u.state.trace.taken.flatten := by
        rw [hpassed, UploadState.passed, hempty, List.append_nil]
      refine .inr ⟨.succeed i, _, _, by simp only [step, htask, Option.bind_eq_bind,
        Option.bind_some, show task.progress = .ended from hprogress, if_true]; rfl, ?_, ?_⟩
      · have hset := hb.set (hu.settle (hnew { u.state with
          trace := u.state.trace ++ [.settle (.ok ())] } rfl)) (i := i)
        refine ⟨?_, hset.length, hset.task⟩
        funext key
        show (if key = task.call.key then some (⟨task.passed, _⟩ : StoredObject)
          else t.objects key) = if key = u.call.key then _ else _
        rw [hu.call, htaken, hb.objects]
      · rw [hu.call]
        rfl
  | error err =>
      have hset := hb.set (hu.settle (hnew { u.state with
        trace := u.state.trace ++ [.settle (.error err)] } rfl)) (i := i)
      cases err with
      -- The counter has failed before, and the bucket's task with it.
      | tooLarge err =>
          have hfailed := hupheld.readError err (hlib.rejects hmay)
          rw [hfailed] at hprogress
          exact .inr ⟨.failCounter i, _, [.rejected i (.tooLarge err)],
            by simp only [step, htask, Option.bind_eq_bind, Option.bind_some,
              show task.progress = .tooLarge err from hprogress], hset, rfl⟩
      -- A command may fail as long as the upload has not settled.
      | s3 err =>
          have hrunning : task.progress ≠ .settled := by
            rw [hprogress]
            cases u.state.stream.phase <;> simp [CounterPhase.progress]
          exact .inr ⟨.failCommand i err, _, [.rejected i (.s3 err)],
            by simp only [step, htask, Option.bind_eq_bind, Option.bind_some, if_neg hrunning],
            hset, rfl⟩

/-- Every step of an upload is nothing to the bucket, or one step of its task. -/
theorem answered_of_step (hlib : lib.Safe) (hb : BucketOf s t)
    (htask : t.uploads[i]? = some task) (hu : TaskOf u task) {g : List StreamEvent}
    (hr : (uploadMachine lib node u.call).Reaches g u.state) {a : StreamAction}
    (hs : uploadStep lib node u.call u.state a = some (state, es)) :
    Answered i s t u a state es := by
  cases a with
  | chunk bytes | endSource | failSource | drain =>
      obtain ⟨-, rfl, rfl⟩ := Machine.of_guarded hs
      exact .inl ⟨hb.setUpload htask (hu.of_same Iff.rfl rfl rfl rfl), rfl⟩
  | transform =>
      obtain ⟨⟨hp, -⟩, hs⟩ := Option.ite_none_right_eq_some.mp hs
      split at hs
      · cases hs
      · obtain ⟨rfl, rfl⟩ := Prod.mk.inj (Option.some.inj hs)
        exact answered_transform hb htask hu hp _ _
  | flush =>
      obtain ⟨⟨hp, -⟩, rfl, rfl⟩ := Machine.of_guarded hs
      exact answered_flush hb htask hu hp
  | uploader e =>
      obtain ⟨hpermits, hs⟩ := Option.ite_none_right_eq_some.mp hs
      obtain ⟨stream, hgive, hs⟩ := Option.map_eq_some_iff.mp hs
      obtain ⟨rfl, rfl⟩ := Prod.mk.inj hs
      cases he : e.isSettle with
      | true =>
          cases e with
          | settle result =>
              obtain rfl := Option.some.inj hgive
              exact answered_settle hlib hb htask hu hr hpermits
          | _ => cases he
      | false =>
          have hsame := give_eq_some hgive
          have htask' :
              TaskOf { u with state := { u.state with stream, trace := u.state.trace ++ [e] } }
                task :=
            hu.of_same (Trace.settled_append he) (by rw [hsame]) (passed_of_give hgive)
              (by rw [hsame])
          cases e with
          | settle result => cases he
          | _ => exact .inl ⟨hb.setUpload htask htask', rfl⟩

/-- A delete or a probe is the same with uploads beside it. -/
theorem step_client {a : Action}
    (ha : ∃ key failure, a = .delete key failure ∨ a = .exists key failure)
    {objects : JsString → Option StoredObject} {uploads : List UploadTask} {t : State}
    {fs : List Event} (hs : step ⟨objects, []⟩ a = some (t, fs)) :
    step ⟨objects, uploads⟩ a = some (⟨t.objects, uploads⟩, fs) := by
  obtain ⟨key, failure, rfl | rfl⟩ := ha
  · cases failure with
    | none =>
        obtain ⟨rfl, rfl⟩ := Prod.mk.inj (Option.some.inj hs)
        rfl
    | some err =>
        obtain ⟨rfl, rfl⟩ := Prod.mk.inj (Option.some.inj hs)
        rfl
  · rw [step] at hs ⊢
    split at hs
    · next hfailure =>
      rw [if_pos hfailure]
      have hhead : headObject ⟨objects, uploads⟩ key failure =
          headObject ⟨objects, []⟩ key failure := rfl
      rw [hhead]
      split at hs <;> obtain ⟨rfl, rfl⟩ := Prod.mk.inj (Option.some.inj hs) <;> rfl
    · cases hs

end Answers

/-- The bucket with streams implements the bucket. -/
def bucketRefinement (hlib : lib.Safe) :
    Machine.Refinement (streamedBucket lib node) bucket StreamedEvent.visible? Event.visible? where
  rel := BucketOf
  init := ⟨rfl, rfl, by simp [streamedBucket]⟩
  step {h s a s' es t} hr hb hs := by
    cases streamedTrans_of_step hs with
    | @started call hnamed hfresh =>
        refine ⟨[.upload call], [.started t.uploads.length call],
          { t with uploads := t.uploads ++ [.start call] }, .one trivial ?_,
          ⟨hb.objects, ?_, fun hu htask => ?_⟩, ?_⟩
        · refine if_pos ⟨hnamed, fun task hmem => ?_⟩
          obtain ⟨i, htask⟩ := List.mem_iff_getElem?.mp hmem
          have hlt : i < s.uploads.length := hb.length ▸ (List.getElem?_eq_some_iff.mp htask).1
          have hu := List.getElem?_eq_getElem hlt
          rw [(hb.task hu htask).call]
          exact hfresh _ (List.mem_of_getElem? hu)
        · rw [List.length_append, List.length_append, hb.length]
          rfl
        · rcases getElem?_concat_cases hu with ⟨rfl, rfl⟩ | hu
          · rw [← hb.length] at htask
            obtain rfl : UploadTask.start call = _ := by simpa using htask
            exact ⟨rfl, fun ⟨_, hsettled⟩ => (by cases hsettled), fun _ => ⟨rfl, rfl, rfl⟩⟩
          · have hlt := (List.getElem?_eq_some_iff.mp hu).1
            rw [List.getElem?_append_left (hb.length ▸ hlt)] at htask
            exact hb.task hu htask
        · rw [hb.length]
          rfl
    | @stream i u a state es hu hstep =>
        obtain ⟨task, htask, htaskOf⟩ := hb.exists_task hu
        rcases answered_of_step hlib hb htask htaskOf (upload_reaches hr hu) hstep with
          ⟨hb', hquiet⟩ | ⟨b, t', fs, hb, hb', hsame⟩
        · exact ⟨[], [], t, .nil t, hb', hquiet⟩
        · exact ⟨[b], fs, t', .one trivial hb, hb', hsame⟩
    | @client a t' fs ha hstep =>
        refine ⟨[a], fs, ⟨t'.objects, t.uploads⟩, .one trivial ?_,
          ⟨rfl, hb.length, hb.task⟩, ?_⟩
        · obtain ⟨objects, uploads⟩ := t
          obtain rfl : objects = s.objects := hb.objects
          exact step_client ha hstep
        · rw [List.filterMap_map]
          rfl

/-- **Streams make no difference to the bucket.** Whatever is seen of any number of uploads over
streams, deletes and probes, in any interleaving, is seen of a run of `bucket`, which ends with
the same objects. -/
theorem streamedBucket_refines (hlib : lib.Safe) (hr : (streamedBucket lib node).Reaches h s) :
    ∃ g t, bucket.Reaches g t ∧ t.objects = s.objects ∧
      h.filterMap StreamedEvent.visible? = g.filterMap Event.visible? := by
  obtain ⟨g, t, hg, hb, hview⟩ := (bucketRefinement hlib).reaches hr
  exact ⟨g, t, hg, hb.objects, hview⟩

/-- A page is uploaded over streams, while another upload is under way. -/
def twoPages : List StreamedAction :=
  [.upload pageCall, .upload reportCall, .stream 1 (.chunk [7, 8])] ++
    pageRun.map (.stream 0) ++ [.exists pageCall.key none]

theorem streamedBucket_refines_twoPages :
    ∃ g t, bucket.Reaches g t ∧ t.objects pageCall.key = some ⟨[1, 2, 3], .ofString "text/html"⟩ ∧
      g.filterMap Event.visible? = [.started 0 pageCall, .started 1 reportCall,
        .resolved 0 pageCall pageCall.url pageCall.key, .existed pageCall.key true] := by
  obtain ⟨h, s, hr, hobj, hseen⟩ := Machine.exists_reachesWhen_and
    (M := streamedBucket uploader node20) (C := fun _ _ _ => True)
    (P := fun h s => s.objects pageCall.key = some ⟨[1, 2, 3], .ofString "text/html"⟩ ∧
      h.filterMap StreamedEvent.visible? = [.started 0 pageCall, .started 1 reportCall,
        .resolved 0 pageCall pageCall.url pageCall.key, .existed pageCall.key true])
    twoPages (by decide +kernel)
  obtain ⟨g, t, hg, hsame, hview⟩ :=
    streamedBucket_refines (libStorage_lawful (by decide) _).toSafe hr
  exact ⟨g, t, hg, hsame ▸ hobj, hview ▸ hseen⟩

/-! ### The objects -/

/-- `object` is the body that an upload has returned `key` for, and `key` has not been deleted
since. -/
def HoldsBody (h : List StreamedEvent) (key : JsString) (object : StoredObject) : Prop :=
  ∃ h₁ h₂ i call url, h = h₁ ++ .stream i call (.settled (.ok ⟨url, key⟩)) :: h₂ ∧
    .client (.deleted key) ∉ h₂ ∧
      object = ⟨(emitted (streamHistory i h₁)).flatten, call.service.contentType⟩

theorem HoldsBody.append {es : List StreamedEvent} {key : JsString} {object : StoredObject}
    (hh : HoldsBody h key object) (hes : .client (.deleted key) ∉ es) :
    HoldsBody (h ++ es) key object := by
  obtain ⟨h₁, h₂, i, call, url, rfl, hdel, hobj⟩ := hh
  refine ⟨h₁, h₂ ++ es, i, call, url, by simp, ?_, hobj⟩
  rw [List.mem_append]
  exact not_or.mpr ⟨hdel, hes⟩

/-- A step of an upload leaves the bucket alone, or resolves the upload. -/
theorem commit_cases {u : StreamedUpload} {a : StreamAction} {state : UploadState}
    {es : List StreamEvent} (hs : uploadStep lib node u.call u.state a = some (state, es)) :
    ((∀ objects, u.commit objects a = objects) ∧ ∀ result, .settled (.ok result) ∉ es) ∨
      (a = .uploader (.settle (.ok ())) ∧ lib.may u.state.trace (.settle (.ok ())) = true ∧
        es = [.uploader (.settle (.ok ())), .settled (.ok ⟨u.call.url, u.call.key⟩)]) := by
  cases a with
  | uploader e =>
      obtain ⟨hpermits, hs⟩ := Option.ite_none_right_eq_some.mp hs
      obtain ⟨stream, -, hs⟩ := Option.map_eq_some_iff.mp hs
      obtain ⟨-, rfl⟩ := Prod.mk.inj hs
      cases e with
      | settle result =>
          cases result with
          | ok => exact .inr ⟨rfl, hpermits, rfl⟩
          | error err => exact .inl ⟨fun _ => rfl, by simp [UploadCall.observe, UploadCall.settle]⟩
      | _ => exact .inl ⟨fun _ => rfl, by simp [UploadCall.observe]⟩
  | chunk | endSource | failSource | drain | flush =>
      obtain ⟨-, -, rfl⟩ := Machine.of_guarded hs
      exact .inl ⟨fun _ => rfl, by simp⟩
  | transform =>
      obtain ⟨-, hs⟩ := Option.ite_none_right_eq_some.mp hs
      split at hs
      · cases hs
      · obtain ⟨-, rfl⟩ := Prod.mk.inj (Option.some.inj hs)
        exact .inl ⟨fun _ => rfl, by simp⟩

/-- A delete or a probe leaves the objects alone, or takes one away. -/
theorem client_cases {a : Action}
    (ha : ∃ key failure, a = .delete key failure ∨ a = .exists key failure)
    {t : State} {es : List Event} (hs : step s.toState a = some (t, es)) :
    (t.objects = s.objects ∧ ∀ key, .deleted key ∉ es) ∨
      ∃ key, es = [.deleted key] ∧ t.objects = fun k => if k = key then none else s.objects k := by
  obtain ⟨key, failure, rfl | rfl⟩ := ha
  · cases failure with
    | none =>
        obtain ⟨rfl, rfl⟩ := Prod.mk.inj (Option.some.inj hs)
        exact .inr ⟨key, rfl, rfl⟩
    | some err =>
        obtain ⟨rfl, rfl⟩ := Prod.mk.inj (Option.some.inj hs)
        exact .inl ⟨rfl, by simp⟩
  · rw [step] at hs
    split at hs
    · split at hs <;> obtain ⟨rfl, rfl⟩ := Prod.mk.inj (Option.some.inj hs) <;>
        exact .inl ⟨rfl, by simp⟩
    · cases hs

/-- Nothing is stored under the key of an upload that has not settled. -/
theorem objects_of_open (hlib : lib.Safe) (hr : (streamedBucket lib node).Reaches h s) {i : ℕ}
    {u : StreamedUpload} (hu : s.uploads[i]? = some u) (hopen : ¬ u.state.trace.Settled) :
    s.objects u.call.key = none := by
  obtain ⟨g, t, hg, hb, -⟩ := (bucketRefinement hlib).reaches hr
  obtain ⟨task, htask, htaskOf⟩ := hb.exists_task hu
  have hrunning : task.progress ≠ .settled := by
    rw [(htaskOf.running hopen).2.2]
    cases u.state.stream.phase <;> simp [CounterPhase.progress]
  rw [← htaskOf.call, ← hb.objects]
  exact (inv_of_reaches hg).objects_key htask hrunning

/-- An upload that resolves has taken its whole body. -/
theorem taken_of_resolves (hlib : lib.Safe) (hr : (streamedBucket lib node).Reaches h s) {i : ℕ}
    {u : StreamedUpload} (hu : s.uploads[i]? = some u)
    (hmay : lib.may u.state.trace (.settle (.ok ())) = true) :
    u.state.trace.taken =
      emitted (streamHistory i (h ++ [.stream i u.call (.uploader (.settle (.ok ())))])) := by
  have hreach := upload_reaches hr hu
  have hsilent : emitted (streamHistory i
      [StreamedEvent.stream i u.call (.uploader (.settle (.ok ())))]) = [] := by
    simp [streamHistory, StreamedEvent.ofUpload?, emitted, StreamEvent.bytes?]
  rw [streamHistory_append, emitted_append_silent hsilent]
  exact (Content.of_reaches hreach).taken_eq (Flow.of_reaches hreach) (hlib.resolves hmay).1

/-- What is stored is the body of an upload. -/
theorem holdsBody_of_objects (hlib : lib.Safe) (hr : (streamedBucket lib node).Reaches h s)
    {key : JsString} {object : StoredObject} (hobj : s.objects key = some object) :
    HoldsBody h key object := by
  have hall : ∀ key object, s.objects key = some object → HoldsBody h key object := by
    refine hr.invariant (I := fun h s => ∀ key object, s.objects key = some object →
      HoldsBody h key object) (by simp [streamedBucket]) ?_
    intro h s a s' es hr hi hs key object hobj
    cases streamedTrans_of_step hs with
    | started => exact (hi key object hobj).append (by simp)
    | @stream i u a state es hu hstep =>
        rcases commit_cases hstep with ⟨hsame, -⟩ | ⟨rfl, hmay, rfl⟩
        · exact (hi key object (hsame s.objects ▸ hobj)).append (by simp)
        · by_cases hkey : key = u.call.key
          · subst hkey
            have hbody : object = ⟨u.state.trace.taken.flatten, u.call.service.contentType⟩ :=
              (Option.some.inj ((if_pos rfl).symm.trans hobj)).symm
            refine ⟨h ++ [.stream i u.call (.uploader (.settle (.ok ())))], [], i, u.call,
              u.call.url, by simp, by simp, ?_⟩
            rw [hbody, taken_of_resolves hlib hr hu hmay]
          · exact (hi key object ((if_neg hkey).symm.trans hobj)).append (by simp)
    | client ha hstep =>
        rcases client_cases ha hstep with ⟨hsame, hno⟩ | ⟨deleted, rfl, hgone⟩
        · exact (hi key object (hsame ▸ hobj)).append (by simpa using hno key)
        · have hkept : (if key = deleted then none else s.objects key) = some object :=
            (congrFun hgone key).symm.trans hobj
          obtain ⟨hne, hold⟩ := Option.ite_none_left_eq_some.mp hkept
          exact (hi key object hold).append (by simpa using hne)
  exact hall key object hobj

/-- It stays until its key is deleted. -/
theorem objects_of_holdsBody (hlib : lib.Safe) (hr : (streamedBucket lib node).Reaches h s)
    {key : JsString} {object : StoredObject} (hh : HoldsBody h key object) :
    s.objects key = some object := by
  obtain ⟨h₁, h₂, i, call, url, rfl, hdel, rfl⟩ := hh
  refine hr.since (J := fun h₁ h₂ s => .client (.deleted key) ∉ h₂ → s.objects key =
    some ⟨(emitted (streamHistory i h₁)).flatten, call.service.contentType⟩) ?_ ?_ hdel
  · intro h s a s' l₁ l₂ hreach _ hs _
    generalize hes : l₁ ++ .stream i call (.settled (.ok ⟨url, key⟩)) :: l₂ = es at hs
    have hmem : .stream i call (.settled (.ok ⟨url, key⟩)) ∈ es := hes ▸ by simp
    cases streamedTrans_of_step hs with
    | started => simp at hmem
    | @stream j u a state es hu hstep =>
        rcases commit_cases hstep with ⟨-, hno⟩ | ⟨rfl, hmay, rfl⟩
        · obtain ⟨e, he, heq⟩ := List.mem_map.mp hmem
          cases heq
          exact absurd he (hno _)
        · cases l₁ with
          | nil => simp at hes
          | cons e l₁ =>
              obtain ⟨rfl, htail⟩ := List.cons.inj hes
              rcases List.append_eq_singleton_iff.mp htail with ⟨rfl, hm⟩ | ⟨-, hm⟩
              · cases hm
                show (if u.call.key = u.call.key then _ else _) = _
                rw [if_pos rfl, taken_of_resolves hlib hreach hu hmay]
              · cases hm
    | client => simp at hmem
  · intro h₁ h₂ s a s' es hr hJ _ hs hdel
    rw [List.mem_append, not_or] at hdel
    have hold := hJ hdel.1
    cases streamedTrans_of_step hs with
    | started => exact hold
    | @stream j u a state es hu hstep =>
        rcases commit_cases hstep with ⟨hsame, -⟩ | ⟨rfl, hmay, rfl⟩
        · show u.commit s.objects a key = _
          rw [hsame, hold]
        · -- the key is not free, so it is not the one of this upload
          have hfree := objects_of_open hlib hr.reaches hu (hlib.settlesOnce hmay)
          have hne : key ≠ u.call.key := by
            intro heq
            rw [heq, hfree] at hold
            cases hold
          exact (if_neg hne).trans hold
    | client ha hstep =>
        rcases client_cases ha hstep with ⟨hsame, -⟩ | ⟨deleted, rfl, hgone⟩
        · exact (congrFun hsame key).trans hold
        · have hne : key ≠ deleted := by simpa using hdel.2
          exact (congrFun hgone key).trans ((if_neg hne).trans hold)

/-- **An object of the public bucket is the body of its upload, byte for byte.** In every run of
any number of uploads over streams, deletes and probes, what is stored under a key is what the
body of the upload that returned the key had emitted, unless the key has been deleted since; and
nothing else is stored. -/
theorem objects_of_streamedBucket (hlib : lib.Safe)
    (hr : (streamedBucket lib node).Reaches h s) (key : JsString) (object : StoredObject) :
    s.objects key = some object ↔ HoldsBody h key object :=
  ⟨holdsBody_of_objects hlib hr, objects_of_holdsBody hlib hr⟩

theorem objects_of_streamedBucket_twoPages :
    ∃ h, HoldsBody h pageCall.key ⟨[1, 2, 3], .ofString "text/html"⟩ := by
  obtain ⟨h, s, hr, hobj⟩ := Machine.exists_reachesWhen_and
    (M := streamedBucket uploader node20) (C := fun _ _ _ => True)
    (P := fun _ s => s.objects pageCall.key = some ⟨[1, 2, 3], .ofString "text/html"⟩)
    twoPages (by decide +kernel)
  exact ⟨h, (objects_of_streamedBucket (libStorage_lawful (by decide) _).toSafe hr _ _).mp hobj⟩

end EmailPlatform.Storage
