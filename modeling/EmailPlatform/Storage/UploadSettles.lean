import EmailPlatform.Storage.UploadStreams

/-!
# EmailPlatform.Storage.UploadSettles

**When an upload settles.** An upload that can go no further has settled, and as it should
have, unless its body died before its end and before the counter could fail: then the counter,
and with it the uploader, waits for a chunk or an end that the pipe will never hand on
(`settlesRight_iff`). A command that fails in the meantime changes nothing.

Two invariants carry the result. `Flow` relates the counter to what the body has emitted,
`Upheld` the uploader to what it has read and been answered. `waits_of_atRest` is the only
argument about progress: where nothing can happen and `done()` has not settled, the body has
died with empty buffers behind it. That a dead body keeps `done()` from settling is the one
place where it matters that the uploader waits (`finished_of_settled`).
-/

namespace EmailPlatform.Storage

variable {lib : Uploader} {node : StreamOptions} {call : UploadCall}

/-! ### Histories -/

/-- The chunk that an event emits. -/
def StreamEvent.bytes? : StreamEvent → Option Chunk
  | .chunk bytes => some bytes
  | _ => none

/-- The chunks that the body emitted. -/
def emitted (h : List StreamEvent) : List Chunk := h.filterMap StreamEvent.bytes?

theorem emitted_append (h es : List StreamEvent) :
    totalLength (emitted (h ++ es)) = totalLength (emitted h) + totalLength (emitted es) := by
  rw [emitted, List.filterMap_append, totalLength_append]
  rfl

theorem emitted_of_silent {h es : List StreamEvent} (hes : emitted es = []) :
    totalLength (emitted (h ++ es)) = totalLength (emitted h) := by
  rw [emitted_append, hes, totalLength_nil, Nat.add_zero]

/-- An S3 command has failed. -/
def CommandFailed (h : List StreamEvent) : Prop := ∃ err, .uploader (.answer (some err)) ∈ h

/-- The body ended normally within the limit, and all S3 commands succeeded. -/
def WentWell (maxBytes : Nat) (h : List StreamEvent) : Prop :=
  .sourceEnded ∈ h ∧ totalLength (emitted h) ≤ maxBytes ∧ ¬ CommandFailed h

/-- `upload` has settled, and as it should have. -/
structure SettlesRight (maxBytes : Nat) (h : List StreamEvent) : Prop where
  settled : ∃ result, .settled result ∈ h
  resolved_iff : (∃ answer, .settled (.ok answer) ∈ h) ↔ WentWell maxBytes h
  rejected_iff : (∃ err, .settled (.error err) ∈ h) ↔ ¬ WentWell maxBytes h

/-- The body failed or was destroyed before its end, within the limit. -/
def DiedWithin (maxBytes : Nat) (h : List StreamEvent) : Prop :=
  .sourceDied ∈ h ∧ totalLength (emitted h) ≤ maxBytes

/-- Nothing can happen any more, but that a body fails which nobody reads. -/
def AtRest (lib : Uploader) (node : StreamOptions) (call : UploadCall) (s : UploadState) : Prop :=
  ∀ a, ((uploadMachine lib node call).step s a).isSome = true →
    a = .failSource ∧ s.piped = false

/-! ### The counter keeps up with the body -/

/-- The counter, by what the body has emitted. -/
structure Flow (maxBytes : Nat) (h : List StreamEvent) (s : UploadState) : Prop where
  ended_iff : .sourceEnded ∈ h ↔ s.source = .ended
  died_iff : .sourceDied ∈ h ↔ s.source = .died
  ending_iff : s.stream.ending = true ↔ s.source = .ended
  max : s.stream.counter.max = maxBytes
  /-- While the counter has not failed, all it was written fits. -/
  fits : (∀ err, s.stream.phase ≠ .failed err) →
    s.stream.counter.seen + totalLength s.stream.writable = totalLength (emitted h) ∧
      s.stream.counter.seen ≤ maxBytes
  overflow : ∀ err, s.stream.phase = .failed err → maxBytes < totalLength (emitted h)
  flushed : s.stream.phase = .ended → s.stream.ending = true ∧ s.stream.writable = []

/-- Events that emit nothing leave the total, and with it what is known of the total. -/
theorem Flow.total_append {maxBytes : Nat} {h : List StreamEvent} {s : UploadState}
    (hf : Flow maxBytes h s) (es : List StreamEvent) (hes : emitted es = []) :
    ((∀ err, s.stream.phase ≠ .failed err) →
      s.stream.counter.seen + totalLength s.stream.writable = totalLength (emitted (h ++ es)) ∧
        s.stream.counter.seen ≤ maxBytes) ∧
      ∀ err, s.stream.phase = .failed err → maxBytes < totalLength (emitted (h ++ es)) := by
  rw [emitted_of_silent hes]
  exact ⟨hf.fits, hf.overflow⟩

/-- What the uploader takes changes neither the counter nor what it was written. -/
theorem give_eq_some {stream stream' : CounterStream} {e : UploaderEvent}
    (h : stream.give e = some stream') :
    stream' = { stream with readable := stream'.readable } := by
  cases e with
  | read chunk =>
      rw [CounterStream.give] at h
      split at h
      · cases h
      · cases h
      · split at h
        · cases h
          rfl
        · cases h
  | readEnd =>
      obtain ⟨-, heq⟩ := Option.ite_none_right_eq_some.mp h
      cases heq
      rfl
  | readError err =>
      obtain ⟨-, heq⟩ := Option.ite_none_right_eq_some.mp h
      cases heq
      rfl
  | send => cases h; rfl
  | answer failure => cases h; rfl
  | settle result => cases h; rfl

/-- The uploader's events are none of the body's. -/
theorem observe_of_body (call : UploadCall) (e : UploaderEvent) :
    emitted (call.observe e) = [] ∧ .sourceEnded ∉ call.observe e ∧
      .sourceDied ∉ call.observe e := by
  cases e <;> simp [UploadCall.observe, emitted, StreamEvent.bytes?]

/-- The counter transforms a chunk: it takes it in if it fits, otherwise it fails. -/
theorem Flow.transform {maxBytes : Nat} {h : List StreamEvent} {s : UploadState}
    (hf : Flow maxBytes h s) {chunk : Chunk} {rest : List Chunk}
    (hp : s.stream.phase = .passing) (hw : s.stream.writable = chunk :: rest) :
    Flow maxBytes h { s with stream := s.stream.transform chunk rest } := by
  have hfits := hf.fits fun err => by rw [hp]; simp
  rw [hw, totalLength_cons] at hfits
  have hmax := hf.max
  by_cases hlt : s.stream.counter.max < s.stream.counter.seen + chunk.length
  · have heq : s.stream.transform chunk rest = { s.stream with
        counter := ⟨s.stream.counter.max, s.stream.counter.seen + chunk.length⟩
        writable := rest
        phase := .failed ⟨s.stream.counter.seen + chunk.length, s.stream.counter.max⟩ } := by
      simp only [CounterStream.transform, SizeCountingTransform.transform, gt_iff_lt, if_pos hlt]
    rw [heq]
    exact {
      ended_iff := hf.ended_iff
      died_iff := hf.died_iff
      ending_iff := hf.ending_iff
      max := hmax
      fits := fun hno => absurd rfl (hno _)
      overflow := fun _ _ => by omega
      flushed := fun h => by cases h }
  · have heq : s.stream.transform chunk rest = { s.stream with
        counter := ⟨s.stream.counter.max, s.stream.counter.seen + chunk.length⟩
        writable := rest
        readable := s.stream.readable ++ [chunk] } := by
      simp only [CounterStream.transform, SizeCountingTransform.transform, gt_iff_lt, if_neg hlt]
    rw [heq]
    exact {
      ended_iff := hf.ended_iff
      died_iff := hf.died_iff
      ending_iff := hf.ending_iff
      max := hmax
      fits := fun _ => by
        show s.stream.counter.seen + chunk.length + totalLength rest = _ ∧
          s.stream.counter.seen + chunk.length ≤ maxBytes
        omega
      overflow := fun err h => by rw [hp] at h; cases h
      flushed := fun h => by rw [hp] at h; cases h }

/-- Every step keeps it. -/
theorem Flow.step {maxBytes : Nat} {h es : List StreamEvent} {s s' : UploadState}
    (hf : Flow maxBytes h s) (ht : StreamTrans lib call s s' es) : Flow maxBytes (h ++ es) s' := by
  cases ht with
  | @chunk bytes paused hsource =>
      -- What the body emits is written, and counts on both sides.
      have htotal : totalLength (emitted (h ++ [.chunk bytes])) =
          totalLength (emitted h) + bytes.length := by
        rw [emitted_append]
        simp [emitted, StreamEvent.bytes?]
      exact {
        ended_iff := by simpa using hf.ended_iff
        died_iff := by simpa using hf.died_iff
        ending_iff := hf.ending_iff
        max := hf.max
        fits := fun hno => by
          have hfits := hf.fits hno
          have hwritten : totalLength (s.stream.writable ++ [bytes]) =
              totalLength s.stream.writable + bytes.length := by
            rw [totalLength_append, totalLength_cons, totalLength_nil, Nat.add_zero]
          rw [htotal, ← hfits.1, Nat.add_assoc, ← hwritten]
          exact ⟨rfl, hfits.2⟩
        overflow := fun err herr => by
          have hlt := hf.overflow err herr
          omega
        -- A counter that has ended was told so, but this body goes on.
        flushed := fun hended => by
          have hending := (hf.ending_iff.mp (hf.flushed hended).1)
          rw [hsource] at hending
          cases hending }
  -- How the body ends says nothing of the bytes before.
  | endSource hsource =>
      obtain ⟨hfits, hoverflow⟩ := hf.total_append [.sourceEnded] rfl
      exact {
        ended_iff := by simp
        died_iff := by
          have hdied := hf.died_iff
          rw [hsource] at hdied
          simpa using hdied
        ending_iff := by simp
        max := hf.max
        fits := hfits
        overflow := hoverflow
        flushed := fun hended => ⟨rfl, (hf.flushed hended).2⟩ }
  | failSource hsource =>
      obtain ⟨hfits, hoverflow⟩ := hf.total_append [.sourceDied] rfl
      have hended := hf.ended_iff
      have hending := hf.ending_iff
      rw [hsource] at hended hending
      exact {
        ended_iff := by simpa using hended
        died_iff := by simp
        ending_iff := by simpa using hending
        max := hf.max
        fits := hfits
        overflow := hoverflow
        flushed := hf.flushed }
  | drain =>
      rw [List.append_nil]
      exact ⟨hf.ended_iff, hf.died_iff, hf.ending_iff, hf.max, hf.fits, hf.overflow, hf.flushed⟩
  | transform hp hw =>
      rw [List.append_nil]
      exact hf.transform hp hw
  -- Nothing is left to be transformed, so that all that was emitted has been seen.
  | flush hp hending hw =>
      rw [List.append_nil]
      exact {
        ended_iff := hf.ended_iff
        died_iff := hf.died_iff
        ending_iff := hf.ending_iff
        max := hf.max
        fits := fun _ => hf.fits fun err => by rw [hp]; simp
        overflow := fun err herr => by cases herr
        flushed := fun _ => ⟨hending, hw⟩ }
  -- The uploader takes from the readable side, of which nothing is said here.
  | @uploader e stream hpermits hgive =>
      obtain ⟨hemitted, hended, hdied⟩ := observe_of_body call e
      obtain ⟨hfits, hoverflow⟩ := hf.total_append _ hemitted
      rw [give_eq_some hgive]
      exact {
        ended_iff := by simpa [hended] using hf.ended_iff
        died_iff := by simpa [hdied] using hf.died_iff
        ending_iff := hf.ending_iff
        max := hf.max
        fits := hfits
        overflow := hoverflow
        flushed := hf.flushed }

theorem Flow.of_reaches {h : List StreamEvent} {s : UploadState}
    (hr : (uploadMachine lib node call).Reaches h s) : Flow call.service.maxBytes h s := by
  refine Machine.Reaches.invariant (I := Flow call.service.maxBytes) ?_ ?_ hr
  · exact {
      ended_iff := by simp [uploadMachine]
      died_iff := by simp [uploadMachine]
      ending_iff := by simp [uploadMachine]
      max := rfl
      fits := fun _ => ⟨rfl, Nat.zero_le _⟩
      overflow := fun err herr => by cases herr
      flushed := fun hended => by cases hended }
  · intro h s a s' es _ hf hs
    exact hf.step (streamTrans_of_step hs)

/-! ### The uploader keeps its promise -/

/-- The uploader, by what it has read and been answered. -/
structure Upheld (call : UploadCall) (h : List StreamEvent) (s : UploadState) : Prop where
  answered_iff : ∀ failure, .uploader (.answer failure) ∈ h ↔ .answer failure ∈ s.trace
  settled_iff : ∀ result, .settled result ∈ h ↔ ∃ r, .settle r ∈ s.trace ∧ call.settle r = result
  readEnd : .readEnd ∈ s.trace → s.stream.phase = .ended
  readError : ∀ err, .readError err ∈ s.trace → s.stream.phase = .failed err
  resolved : .settle (.ok ()) ∈ s.trace →
    .readEnd ∈ s.trace ∧ ¬ s.trace.Failed ∧ s.trace.inFlight = 0
  rejected : ∀ err, .settle (.error err) ∈ s.trace → s.trace.Causes err
  once : ∀ {r r'}, .settle r ∈ s.trace → .settle r' ∈ s.trace → r = r'

theorem Trace.Causes.append {t : Trace} {err : UploadError} (h : t.Causes err) (e : UploaderEvent) :
    Trace.Causes (t ++ [e]) err := by
  cases err with
  | tooLarge err => exact List.mem_append_left _ h
  | s3 err => exact List.mem_append_left _ h

theorem Trace.settle_failed {t : Trace} {result : Except UploadError Unit} :
    Trace.Failed (t ++ [.settle result]) ↔ t.Failed := by
  simp [Trace.Failed]

theorem Trace.settle_inFlight {t : Trace} {result : Except UploadError Unit} :
    Trace.inFlight (t ++ [.settle result]) = t.inFlight := by
  simp [Trace.inFlight, Trace.isAnswer, List.countP_append, List.count_append]

/-- An uploader whose `done()` has resolved does nothing, and is answered nothing. -/
theorem not_permits_of_resolved (hlib : lib.Safe) {t : Trace} (hresolved : .settle (.ok ()) ∈ t)
    (hflight : t.inFlight = 0) (e : UploaderEvent) : ¬ lib.permits t e = true := by
  cases e with
  | answer failure => simp [Uploader.permits, hflight]
  | read chunk => exact fun h => hlib.rests h hresolved
  | readEnd => exact fun h => hlib.rests h hresolved
  | readError err => exact fun h => hlib.rests h hresolved
  | send => exact fun h => hlib.rests h hresolved
  | settle result => exact fun h => hlib.rests h hresolved

/-- A step of another party leaves the uploader as it is. -/
theorem Upheld.of_trace_eq {h es : List StreamEvent} {s s' : UploadState} (hu : Upheld call h s)
    (htrace : s'.trace = s.trace)
    (hphase : s'.stream.phase = s.stream.phase ∨ s.stream.phase = .passing)
    (hes : ∀ e, .uploader e ∉ es) (hsettled : ∀ result, .settled result ∉ es) :
    Upheld call (h ++ es) s' := by
  have hended : .readEnd ∈ s.trace → s'.stream.phase = .ended := by
    intro hread
    rcases hphase with heq | hpassing
    · exact heq.trans (hu.readEnd hread)
    · exact absurd (hpassing.symm.trans (hu.readEnd hread)) (by simp)
  have hfailed : ∀ err, .readError err ∈ s.trace → s'.stream.phase = .failed err := by
    intro err hread
    rcases hphase with heq | hpassing
    · exact heq.trans (hu.readError err hread)
    · exact absurd (hpassing.symm.trans (hu.readError err hread)) (by simp)
  rw [← htrace] at hended hfailed
  exact {
    answered_iff := fun failure => by simpa [hes, htrace] using hu.answered_iff failure
    settled_iff := fun result => by simpa [hsettled, htrace] using hu.settled_iff result
    readEnd := hended
    readError := hfailed
    resolved := by simpa [htrace] using hu.resolved
    rejected := by simpa [htrace] using hu.rejected
    once := fun hr hr' => hu.once (htrace ▸ hr) (htrace ▸ hr') }

/-- The uploader reads an end or an error only where there is one. -/
theorem phase_of_give {stream stream' : CounterStream} {e : UploaderEvent}
    (h : stream.give e = some stream') :
    (e = .readEnd → stream.phase = .ended) ∧
      ∀ err, e = .readError err → stream.phase = .failed err := by
  constructor
  · intro heq
    subst heq
    exact (Option.ite_none_right_eq_some.mp h).1.1
  · intro err heq
    subst heq
    exact (Option.ite_none_right_eq_some.mp h).1

/-- A step of the uploader keeps it. -/
theorem Upheld.uploader (hlib : lib.Safe) {h : List StreamEvent} {s : UploadState}
    (hu : Upheld call h s) {e : UploaderEvent} {stream : CounterStream}
    (hpermits : lib.permits s.trace e = true) (hgive : s.stream.give e = some stream) :
    Upheld call (h ++ call.observe e) { s with stream, trace := s.trace ++ [e] } := by
  have hphase : stream.phase = s.stream.phase := by rw [give_eq_some hgive]
  obtain ⟨hend, herror⟩ := phase_of_give hgive
  -- After it has resolved the uploader does nothing, so that this event comes before that.
  have hopen : .settle (.ok ()) ∉ s.trace := fun hresolved =>
    not_permits_of_resolved hlib hresolved (hu.resolved hresolved).2.2 e hpermits
  have hfirst : ∀ {r r'}, e = .settle r → .settle r' ∉ s.trace := by
    intro r r' heq hmem
    rw [heq] at hpermits
    exact hlib.settlesOnce hpermits ⟨r', hmem⟩
  exact {
    answered_iff := fun failure => by
      rw [List.mem_append, hu.answered_iff, List.mem_append, List.mem_singleton]
      refine or_congr_right ?_
      cases e <;> simp [UploadCall.observe]
    settled_iff := fun result => by
      rw [List.mem_append, hu.settled_iff]
      cases e <;> simp [UploadCall.observe, or_and_right, exists_or, eq_comm]
    readEnd := fun hread => by
      rcases List.mem_append.mp hread with hread | hread
      · exact hphase.trans (hu.readEnd hread)
      · exact hphase.trans (hend (List.mem_singleton.mp hread).symm)
    readError := fun err hread => by
      rcases List.mem_append.mp hread with hread | hread
      · exact hphase.trans (hu.readError err hread)
      · exact hphase.trans (herror err (List.mem_singleton.mp hread).symm)
    resolved := fun hresolved => by
      rcases List.mem_append.mp hresolved with hold | hnew
      · exact absurd hold hopen
      · obtain rfl := (List.mem_singleton.mp hnew).symm
        obtain ⟨hread, hfailed, hflight⟩ := hlib.resolves hpermits
        exact ⟨List.mem_append_left _ hread, fun hf => hfailed (Trace.settle_failed.mp hf),
          Trace.settle_inFlight.trans hflight⟩
    rejected := fun err hrejected => by
      rcases List.mem_append.mp hrejected with hold | hnew
      · exact (hu.rejected err hold).append e
      · obtain rfl := (List.mem_singleton.mp hnew).symm
        exact (hlib.rejects hpermits).append _
    -- Two results: both old, or both this one.
    once := fun hr hr' => by
      rcases List.mem_append.mp hr with hold | hnew
      · rcases List.mem_append.mp hr' with hold' | hnew'
        · exact hu.once hold hold'
        · exact absurd hold (hfirst (List.mem_singleton.mp hnew').symm)
      · rcases List.mem_append.mp hr' with hold' | hnew'
        · exact absurd hold' (hfirst (List.mem_singleton.mp hnew).symm)
        · exact UploaderEvent.settle.inj
            ((List.mem_singleton.mp hnew).trans (List.mem_singleton.mp hnew').symm) }

theorem Upheld.of_reaches (hlib : lib.Safe) {h : List StreamEvent} {s : UploadState}
    (hr : (uploadMachine lib node call).Reaches h s) : Upheld call h s := by
  refine Machine.Reaches.invariant (I := Upheld call) ?_ ?_ hr
  · constructor <;> simp [uploadMachine]
  · intro h s a s' es _ hu hs
    cases streamTrans_of_step hs with
    | chunk => exact hu.of_trace_eq rfl (.inl rfl) (by simp) (by simp)
    | endSource => exact hu.of_trace_eq rfl (.inl rfl) (by simp) (by simp)
    | failSource => exact hu.of_trace_eq rfl (.inl rfl) (by simp) (by simp)
    | drain => exact hu.of_trace_eq rfl (.inl rfl) (by simp) (by simp)
    | transform hp => exact hu.of_trace_eq rfl (.inr hp) (by simp) (by simp)
    | flush hp => exact hu.of_trace_eq rfl (.inr hp) (by simp) (by simp)
    | uploader hpermits hgive => exact hu.uploader hlib hpermits hgive

/-! ### Progress -/

/-- What the uploader and S3 can do, at rest: nothing. -/
theorem AtRest.uploader {s : UploadState} (hrest : AtRest lib node call s) {e : UploaderEvent}
    {stream : CounterStream} (hgive : s.stream.give e = some stream) :
    lib.permits s.trace e = false := by
  cases hpermits : lib.permits s.trace e with
  | false => rfl
  | true =>
      have hstep := hrest (.uploader e) (by simp [uploadMachine, uploadStep, hpermits, hgive])
      exact StreamAction.noConfusion hstep.1

/-- All commands have been answered. -/
theorem AtRest.inFlight {s : UploadState} (hrest : AtRest lib node call s) :
    s.trace.inFlight = 0 := by
  have hanswer := hrest.uploader (e := .answer none) rfl
  simpa [Uploader.permits] using hanswer

/-- It neither sends nor settles. -/
theorem AtRest.not_acts {s : UploadState} (hrest : AtRest lib node call s) :
    ¬ lib.Acts s.trace := by
  rintro (hsend | ⟨result, hsettle⟩)
  · have hno : lib.may s.trace .send = false := hrest.uploader (e := .send) rfl
    exact absurd (hsend.symm.trans hno) (by simp)
  · have hno : lib.may s.trace (.settle result) = false :=
      hrest.uploader (e := .settle result) rfl
    exact absurd (hsettle.symm.trans hno) (by simp)

/-- An uploader at rest has settled, or there is nothing for it to read. -/
theorem AtRest.settled_or_reads (hlib : lib.Live) {s : UploadState}
    (hrest : AtRest lib node call s) (hsettled : ¬ s.trace.Settled) {e : UploaderEvent}
    (he : e.isRead = true) : s.stream.give e = none := by
  have hfinished : ¬ s.trace.Finished := fun hfinished =>
    hrest.not_acts (hlib.settles hsettled hfinished hrest.inFlight)
  by_contra hgive
  obtain ⟨stream, hgive⟩ := Option.ne_none_iff_exists'.mp hgive
  have hmay := (hlib.reads hsettled hfinished hrest.inFlight he).resolve_right hrest.not_acts
  have hpermits := hrest.uploader hgive
  cases e <;> simp_all [Uploader.permits, UploaderEvent.isRead]

theorem give_read {stream : CounterStream} {next : Chunk} {rest : List Chunk}
    (hphase : ∀ err, stream.phase ≠ .failed err) (hreadable : stream.readable = next :: rest) :
    stream.give (.read next) = some { stream with readable := rest } := by
  rw [CounterStream.give, hreadable]
  cases hp : stream.phase with
  | passing => exact if_pos rfl
  | ended => exact if_pos rfl
  | failed err => exact absurd hp (hphase err)

/-- Nothing to read means a counter that goes on, with nothing passed. -/
theorem phase_of_give_eq_none {stream : CounterStream}
    (h : ∀ e, UploaderEvent.isRead e = true → stream.give e = none) :
    stream.phase = .passing ∧ stream.readable = [] := by
  have hreadable : (∀ err, stream.phase ≠ .failed err) → stream.readable = [] := by
    intro hno
    cases hr : stream.readable with
    | nil => rfl
    | cons next rest => exact absurd (h (.read next) rfl) (by rw [give_read hno hr]; simp)
  cases hp : stream.phase with
  | passing => exact ⟨rfl, hreadable fun err => by rw [hp]; simp⟩
  | ended =>
      have hend := h .readEnd rfl
      rw [CounterStream.give, if_pos ⟨hp, hreadable fun err => by rw [hp]; simp⟩] at hend
      cases hend
  | failed err =>
      have herror := h (.readError err) rfl
      rw [CounterStream.give, if_pos hp] at herror
      cases herror

/-- The progress argument. At rest with `done()` not settled, everything that the body has
emitted has passed the counter, and the body has died. -/
theorem waits_of_atRest (hlib : lib.Live) {h : List StreamEvent} {s : UploadState}
    (hf : Flow call.service.maxBytes h s) (hrest : AtRest lib node call s)
    (hsettled : ¬ s.trace.Settled) :
    s.source = .died ∧ s.stream.phase = .passing ∧ s.stream.writable = [] := by
  obtain ⟨hphase, hreadable⟩ :=
    phase_of_give_eq_none fun _ => hrest.settled_or_reads hlib hsettled
  -- the counter has transformed all it was written, as there is room behind it
  have hwritable : s.stream.writable = [] := by
    cases hw : s.stream.writable with
    | nil => rfl
    | cons chunk rest =>
        have hstep := hrest .transform (by
          simp [uploadMachine, uploadStep, hphase, hreadable, hw, node.pos])
        exact StreamAction.noConfusion hstep.1
  have hending : ¬ s.stream.ending = true := by
    intro hending
    have hstep := hrest .flush (by simp [uploadMachine, uploadStep, hphase, hending, hwritable])
    exact StreamAction.noConfusion hstep.1
  refine ⟨?_, hphase, hwritable⟩
  cases hsource : s.source with
  | died => rfl
  | ended => exact absurd (hf.ending_iff.mpr hsource) hending
  | flowing =>
      -- the body is still piped, so it could fail
      obtain ⟨-, hpiped⟩ := hrest .failSource (by simp [uploadMachine, uploadStep, hsource])
      have hany : s.trace.any UploaderEvent.isSettle = true := by
        simpa [UploadState.piped, hphase] using hpiped
      obtain ⟨e, he, hsettle⟩ := List.any_eq_true.mp hany
      cases e <;> simp [UploaderEvent.isSettle] at hsettle
      exact absurd ⟨_, he⟩ hsettled

/-! ### The law of an upload -/

theorem Upheld.commandFailed_iff {h : List StreamEvent} {s : UploadState} (hu : Upheld call h s) :
    CommandFailed h ↔ s.trace.Failed :=
  exists_congr fun err => hu.answered_iff (some err)

theorem Upheld.resolved_iff {h : List StreamEvent} {s : UploadState} (hu : Upheld call h s) :
    (∃ answer, .settled (.ok answer) ∈ h) ↔ .settle (.ok ()) ∈ s.trace := by
  constructor
  · intro ⟨answer, hanswer⟩
    obtain ⟨r, hr, heq⟩ := (hu.settled_iff _).mp hanswer
    cases r with
    | ok => exact hr
    | error err => cases heq
  · exact fun hr => ⟨_, (hu.settled_iff _).mpr ⟨_, hr, rfl⟩⟩

theorem Upheld.rejected_iff {h : List StreamEvent} {s : UploadState} (hu : Upheld call h s) :
    (∃ err, .settled (.error err) ∈ h) ↔ ∃ err, .settle (.error err) ∈ s.trace := by
  refine exists_congr fun err => ⟨fun herr => ?_, fun hr => (hu.settled_iff _).mpr ⟨_, hr, rfl⟩⟩
  obtain ⟨r, hr, heq⟩ := (hu.settled_iff _).mp herr
  cases r with
  | ok => cases heq
  | error err' =>
      cases heq
      exact hr

/-- An upload that has resolved went well. -/
theorem wentWell_of_resolved {h : List StreamEvent} {s : UploadState}
    (hf : Flow call.service.maxBytes h s) (hu : Upheld call h s)
    (hresolved : .settle (.ok ()) ∈ s.trace) : WentWell call.service.maxBytes h := by
  obtain ⟨hread, hfailed, -⟩ := hu.resolved hresolved
  have hphase := hu.readEnd hread
  obtain ⟨hending, hwritable⟩ := hf.flushed hphase
  have hfits := hf.fits fun err => by rw [hphase]; simp
  rw [hwritable, totalLength_nil, Nat.add_zero] at hfits
  exact ⟨hf.ended_iff.mpr (hf.ending_iff.mp hending), hfits.1 ▸ hfits.2,
    fun hc => hfailed (hu.commandFailed_iff.mp hc)⟩

/-- One that has rejected had too large a body, or a command failed. -/
theorem cause_of_rejected {h : List StreamEvent} {s : UploadState}
    (hf : Flow call.service.maxBytes h s) (hu : Upheld call h s) {err : UploadError}
    (hrejected : .settle (.error err) ∈ s.trace) :
    call.service.maxBytes < totalLength (emitted h) ∨ CommandFailed h := by
  have hcause := hu.rejected err hrejected
  cases err with
  | tooLarge err => exact .inl (hf.overflow err (hu.readError err hcause))
  | s3 err => exact .inr (hu.commandFailed_iff.mpr ⟨err, hcause⟩)

theorem not_wentWell_of_rejected {h : List StreamEvent} {s : UploadState}
    (hf : Flow call.service.maxBytes h s) (hu : Upheld call h s) {err : UploadError}
    (hrejected : .settle (.error err) ∈ s.trace) : ¬ WentWell call.service.maxBytes h := by
  intro ⟨_, htotal, hok⟩
  rcases cause_of_rejected hf hu hrejected with hlt | hfailed
  · omega
  · exact hok hfailed

/-- Where nothing at all can happen, an upload is at rest. -/
theorem atRest_of_stuck {s : UploadState}
    (hstuck : ∀ a, (uploadMachine lib node call).step s a = none) : AtRest lib node call s := by
  intro a ha
  rw [hstuck a] at ha
  cases ha

/-- A settled upload has settled as it should have. -/
theorem settlesRight_of_settled {h : List StreamEvent} {s : UploadState}
    (hf : Flow call.service.maxBytes h s) (hu : Upheld call h s) (hsettled : s.trace.Settled) :
    SettlesRight call.service.maxBytes h := by
  obtain ⟨result, hresult⟩ := hsettled
  refine ⟨⟨_, (hu.settled_iff _).mpr ⟨result, hresult, rfl⟩⟩, ?_, ?_⟩
  · rw [hu.resolved_iff]
    refine ⟨wentWell_of_resolved hf hu, fun hwell => ?_⟩
    cases result with
    | ok => exact hresult
    | error err => exact absurd hwell (not_wentWell_of_rejected hf hu hresult)
  · rw [hu.rejected_iff]
    refine ⟨fun ⟨err, hrejected⟩ => not_wentWell_of_rejected hf hu hrejected, fun hill => ?_⟩
    cases result with
    | ok => exact absurd (wentWell_of_resolved hf hu hresult) hill
    | error err => exact ⟨err, hresult⟩

/-- At rest an upload has settled, or its body died within the limit. -/
theorem settled_or_diedWithin (hlib : lib.Live) {h : List StreamEvent} {s : UploadState}
    (hf : Flow call.service.maxBytes h s) (hrest : AtRest lib node call s) :
    s.trace.Settled ∨ DiedWithin call.service.maxBytes h := by
  by_cases hsettled : s.trace.Settled
  · exact .inl hsettled
  · obtain ⟨hdied, hphase, hwritable⟩ := waits_of_atRest hlib hf hrest hsettled
    have hfits := hf.fits fun err => by rw [hphase]; simp
    rw [hwritable, totalLength_nil, Nat.add_zero] at hfits
    exact .inr ⟨hf.died_iff.mpr hdied, hfits.1 ▸ hfits.2⟩

/-- An uploader that has settled has read the end or the error of its body. -/
theorem finished_of_settled (hlib : lib.Lawful) {h : List StreamEvent} {s : UploadState}
    (hr : (uploadMachine lib node call).Reaches h s) : s.trace.Settled → s.trace.Finished := by
  refine Machine.Reaches.invariant (I := fun _ s => s.trace.Settled → s.trace.Finished)
    (fun ⟨_, hsettled⟩ => by cases hsettled) ?_ hr
  intro h s a s' es _ hi hs
  cases streamTrans_of_step hs with
  | chunk | endSource | failSource | drain | transform | flush => exact hi
  | @uploader e stream hpermits _ =>
      rintro ⟨result, hresult⟩
      have hfinished : s.trace.Finished := by
        rcases List.mem_append.mp hresult with hold | hnew
        · exact hi ⟨result, hold⟩
        · obtain rfl := (List.mem_singleton.mp hnew).symm
          exact hlib.waits hpermits
      rcases hfinished with hend | ⟨err, herr⟩
      · exact .inl (List.mem_append_left _ hend)
      · exact .inr ⟨err, List.mem_append_left _ herr⟩

/-- In every run that can go no further, the upload has settled as it should have, except when
its body failed or was destroyed before its end, with no more than `maxBytes` emitted. -/
theorem settlesRight_iff (hlib : lib.Lawful) {h : List StreamEvent} {s : UploadState}
    (hr : (uploadMachine lib node call).Reaches h s) (hrest : AtRest lib node call s) :
    SettlesRight call.service.maxBytes h ↔ ¬ DiedWithin call.service.maxBytes h := by
  have hf := Flow.of_reaches hr
  have hu := Upheld.of_reaches hlib.toSafe hr
  constructor
  · intro hright ⟨hdied, htotal⟩
    obtain ⟨result, hresult⟩ := hright.settled
    obtain ⟨r, hsettle, -⟩ := (hu.settled_iff result).mp hresult
    have hsource := hf.died_iff.mp hdied
    rcases finished_of_settled hlib hr ⟨r, hsettle⟩ with hend | ⟨err, herr⟩
    · -- the counter has ended, so the body had
      have hended := hf.ending_iff.mp (hf.flushed (hu.readEnd hend)).1
      exact absurd (hended.symm.trans hsource) (by simp)
    · -- the counter has failed, so the body was too large
      have hlt := hf.overflow err (hu.readError err herr)
      omega
  · intro hno
    exact settlesRight_of_settled hf hu
      ((settled_or_diedWithin hlib.toLive hf hrest).resolve_right hno)

/-- A page for a binding that takes sixteen bytes. -/
def pageCall : UploadCall where
  service := ⟨.ofString "pages", .ofString "text/html", .ofString "https://public", 16⟩
  filename := .ofString "index.html"
  uuid := ⟨.ofString "9f8e7d6c-0a1b-4c2d-8e3f-0a1b2c3d4e5f",
    List.all_iff_forall_prop.mp (by decide), by decide⟩

/-- The buffer size of Node 20, and the uploader with the options of `upload`. -/
def node20 : StreamOptions := ⟨16384, by decide⟩

def uploader : Uploader :=
  libStorage UPLOAD_DEFAULTS.QUEUE_SIZE UPLOAD_DEFAULTS.PART_SIZE_BYTES

/-- Three bytes that arrive whole. -/
def pageRun : List StreamAction :=
  [.chunk [1, 2, 3], .transform, .uploader (.read [1, 2, 3]), .endSource, .flush,
    .uploader .readEnd, .uploader .send, .uploader (.answer none), .uploader (.settle (.ok ()))]

theorem settlesRight_iff_page :
    let h : List StreamEvent := [.chunk [1, 2, 3], .uploader (.read [1, 2, 3]), .sourceEnded,
      .uploader .readEnd, .uploader .send, .uploader (.answer none),
      .uploader (.settle (.ok ())), .settled (.ok ⟨pageCall.url, pageCall.key⟩)]
    SettlesRight 16 h ↔ ¬ DiedWithin 16 h := by
  intro h
  have hlib : uploader.Lawful := libStorage_lawful (by decide) _
  have hrun : (uploadMachine uploader node20 pageCall).execWhen (fun _ _ _ => True) pageRun =
      some (h, ⟨.ended, false, ⟨⟨16, 3⟩, [], true, [], .ended⟩, [.read [1, 2, 3], .readEnd, .send,
        .answer none, .settle (.ok ())]⟩) := rfl
  refine settlesRight_iff hlib (Machine.ReachesWhen.init.runWhen hrun)
    (atRest_of_stuck fun a => ?_)
  cases a with
  | uploader e =>
      have hno := not_permits_of_resolved hlib.toSafe (t := [.read [1, 2, 3], .readEnd, .send,
        .answer none, .settle (.ok ())]) (by decide) (by decide) e
      exact if_neg hno
  | _ => rfl

/-- The body dies at once, and nobody ever hears of it. -/
theorem not_settlesRight_deadSource :
    ∃ s, (uploadMachine uploader node20 pageCall).Reaches [.sourceDied] s ∧
      (∀ a, (uploadMachine uploader node20 pageCall).step s a = none) ∧
      ¬ SettlesRight 16 [.sourceDied] := by
  refine ⟨⟨.died, false, ⟨⟨16, 0⟩, [], false, [], .passing⟩, []⟩,
    Machine.Reaches.init.step (a := .failSource) rfl, fun a => ?_, fun hright => ?_⟩
  · cases a with
    | uploader e =>
        cases e with
        | settle result =>
            cases result with
            | ok => rfl
            | error err => cases err <;> rfl
        | _ => rfl
    | _ => rfl
  · obtain ⟨result, hresult⟩ := hright.settled
    simp at hresult

end EmailPlatform.Storage
