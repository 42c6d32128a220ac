import EmailPlatform.Storage.UploadSettles

/-!
# EmailPlatform.Storage.UploadContent

**What reaches S3, and what it takes to get there.** The chunks that the uploader takes are
always the first ones of the body, in order and within the limit; an upload that resolves has
taken them all, and one that is too large is told where the limit was passed
(`contentLaw_of_reaches`). Between the body and S3 no more than two full buffers wait, however
long the body is and however slow S3 (`buffered_le`).

Three lists carry the first result: what was taken, what was passed on and not yet taken, and
what was written and not yet passed on. In a row they are the body.
-/

namespace EmailPlatform.Storage

variable {lib : Uploader} {node : StreamOptions} {call : UploadCall} {maxBytes : ℕ}
  {h es : List StreamEvent} {s s' : UploadState}

/-! ### The body in three parts -/

/-- The chunk that an event takes. -/
def UploaderEvent.chunk? : UploaderEvent → Option Chunk
  | .read chunk => some chunk
  | _ => none

/-- The chunks that the uploader has taken. -/
def Trace.taken (t : Trace) : List Chunk := t.filterMap UploaderEvent.chunk?

/-- The chunks that the counter has passed on. -/
def UploadState.passed (s : UploadState) : List Chunk := s.trace.taken ++ s.stream.readable

/-- `err` is the error that is due behind the chunks `p` of the body. -/
def OverflowsAt (maxBytes : ℕ) (body p : List Chunk) (err : StorageUploadTooLargeError) : Prop :=
  ∃ chunk, p ++ [chunk] <+: body ∧ err = ⟨totalLength (p ++ [chunk]), maxBytes⟩ ∧
    maxBytes < err.seen

/-- The parts of the body. -/
structure Content (maxBytes : ℕ) (h : List StreamEvent) (s : UploadState) : Prop where
  max : s.stream.counter.max = maxBytes
  whole : (∀ err, s.stream.phase ≠ .failed err) →
    s.passed ++ s.stream.writable = emitted h ∧ s.stream.counter.seen = totalLength s.passed
  bounded : totalLength s.passed ≤ maxBytes
  overflow : ∀ err, s.stream.phase = .failed err → OverflowsAt maxBytes (emitted h) s.passed err
  /-- The end is read behind everything that was passed on. -/
  drained : .readEnd ∈ s.trace → s.stream.phase = .ended ∧ s.stream.readable = []

theorem emitted_concat (h : List StreamEvent) (bytes : Chunk) :
    emitted (h ++ [.chunk bytes]) = emitted h ++ [bytes] := by
  rw [emitted, List.filterMap_append]
  rfl

theorem emitted_append_silent {h es : List StreamEvent} (hes : emitted es = []) :
    emitted (h ++ es) = emitted h := by
  rw [emitted, List.filterMap_append]
  show _ ++ emitted es = _
  rw [hes, List.append_nil]
  rfl

theorem OverflowsAt.append {body p : List Chunk} {err : StorageUploadTooLargeError}
    (ho : OverflowsAt maxBytes body p err) (more : List Chunk) :
    OverflowsAt maxBytes (body ++ more) p err := by
  obtain ⟨chunk, hp, herr⟩ := ho
  exact ⟨chunk, hp.trans (List.prefix_append _ _), herr⟩

/-- A step that passes nothing on, writes nothing and takes nothing. -/
theorem Content.of_same (hc : Content maxBytes h s) (hes : emitted es = [])
    (hpassed : s'.passed = s.passed) (hwritable : s'.stream.writable = s.stream.writable)
    (hcounter : s'.stream.counter = s.stream.counter)
    (hphase : ∀ err, s'.stream.phase = .failed err ↔ s.stream.phase = .failed err)
    (hdrained : .readEnd ∈ s'.trace → s'.stream.phase = .ended ∧ s'.stream.readable = []) :
    Content maxBytes (h ++ es) s' where
  max := by rw [hcounter, hc.max]
  whole hno := by
    rw [hpassed, hwritable, hcounter, emitted_append_silent hes]
    exact hc.whole fun err herr => hno err ((hphase err).mpr herr)
  bounded := hpassed ▸ hc.bounded
  overflow err herr := by
    rw [hpassed, emitted_append_silent hes]
    exact hc.overflow err ((hphase err).mp herr)
  drained := hdrained

/-- A chunk beyond the limit fails the counter. -/
theorem CounterStream.transform_of_lt {stream : CounterStream} {chunk : Chunk}
    (rest : List Chunk) (h : stream.counter.max < stream.counter.seen + chunk.length) :
    stream.transform chunk rest = { stream with
      counter := ⟨stream.counter.max, stream.counter.seen + chunk.length⟩
      writable := rest
      phase := .failed ⟨stream.counter.seen + chunk.length, stream.counter.max⟩ } := by
  simp only [transform, SizeCountingTransform.transform, gt_iff_lt, if_pos h]

/-- A chunk within the limit is put out. -/
theorem CounterStream.transform_of_not_lt {stream : CounterStream} {chunk : Chunk}
    (rest : List Chunk) (h : ¬ stream.counter.max < stream.counter.seen + chunk.length) :
    stream.transform chunk rest = { stream with
      counter := ⟨stream.counter.max, stream.counter.seen + chunk.length⟩
      writable := rest
      readable := stream.readable ++ [chunk] } := by
  simp only [transform, SizeCountingTransform.transform, gt_iff_lt, if_neg h]

/-- The counter takes the next chunk in, or fails at it. -/
theorem Content.transform (hc : Content maxBytes h s) {chunk : Chunk} {rest : List Chunk}
    (hp : s.stream.phase = .passing) (hw : s.stream.writable = chunk :: rest) :
    Content maxBytes h { s with stream := s.stream.transform chunk rest } := by
  obtain ⟨hwhole, hseen⟩ := hc.whole fun err => by rw [hp]; simp
  rw [hw] at hwhole
  have hundrained : .readEnd ∉ s.trace := by
    intro hread
    have hended := (hc.drained hread).1
    rw [hp] at hended
    cases hended
  have htotal : totalLength (s.passed ++ [chunk]) = s.stream.counter.seen + chunk.length := by
    rw [totalLength_concat, hseen]
  -- The chunk is too much, or goes through.
  by_cases hlt : s.stream.counter.max < s.stream.counter.seen + chunk.length
  · rw [CounterStream.transform_of_lt rest hlt]
    exact {
      max := hc.max
      whole := fun hno => absurd rfl (hno _)
      bounded := hc.bounded
      overflow := fun err herr => by
        obtain rfl := CounterPhase.failed.inj herr
        refine ⟨chunk, ⟨rest, ?_⟩, ?_, hc.max ▸ hlt⟩
        · show s.passed ++ [chunk] ++ rest = emitted h
          rw [List.append_assoc]
          exact hwhole
        · show (⟨_, _⟩ : StorageUploadTooLargeError) = ⟨totalLength (s.passed ++ [chunk]), _⟩
          rw [htotal, hc.max]
      drained := fun hread => absurd hread hundrained }
  · have heq := CounterStream.transform_of_not_lt rest hlt
    have hpassed : UploadState.passed { s with stream := s.stream.transform chunk rest } =
        s.passed ++ [chunk] := by
      rw [heq]
      exact (List.append_assoc _ _ _).symm
    rw [heq] at hpassed ⊢
    exact {
      max := hc.max
      whole := fun _ => by
        rw [hpassed, List.append_assoc]
        exact ⟨hwhole, htotal.symm⟩
      bounded := by
        rw [hpassed, htotal, ← hc.max]
        exact Nat.not_lt.mp hlt
      overflow := fun err herr => by
        rw [hp] at herr
        cases herr
      drained := fun hread => absurd hread hundrained }

/-- What the uploader takes moves from one part to the next. -/
theorem passed_of_give {e : UploaderEvent} {stream : CounterStream}
    (hgive : s.stream.give e = some stream) :
    UploadState.passed { s with stream, trace := s.trace ++ [e] } = s.passed := by
  show Trace.taken (s.trace ++ [e]) ++ stream.readable = s.trace.taken ++ s.stream.readable
  rw [Trace.taken, List.filterMap_append]
  cases e with
  | read chunk =>
      rw [CounterStream.give] at hgive
      split at hgive
      · cases hgive
      · cases hgive
      · next next rest hreadable _ =>
        obtain ⟨rfl, heq⟩ := Option.ite_none_right_eq_some.mp hgive
        cases heq
        rw [hreadable, List.append_assoc]
        rfl
  | readEnd =>
      obtain ⟨-, heq⟩ := Option.ite_none_right_eq_some.mp hgive
      cases heq
      exact congrArg (· ++ _) (List.append_nil _)
  | readError err =>
      obtain ⟨-, heq⟩ := Option.ite_none_right_eq_some.mp hgive
      cases heq
      exact congrArg (· ++ _) (List.append_nil _)
  | send | answer | settle =>
      cases hgive
      exact congrArg (· ++ _) (List.append_nil _)

theorem Content.uploader (hc : Content maxBytes h s) {e : UploaderEvent} {stream : CounterStream}
    (hgive : s.stream.give e = some stream) :
    Content maxBytes (h ++ call.observe e) { s with stream, trace := s.trace ++ [e] } := by
  have hsame := give_eq_some hgive
  have hwritable : stream.writable = s.stream.writable := by rw [hsame]
  have hcounter : stream.counter = s.stream.counter := by rw [hsame]
  have hphase : stream.phase = s.stream.phase := by rw [hsame]
  refine hc.of_same (observe_of_body call e).1 (passed_of_give hgive) hwritable hcounter
    (fun err => by rw [hphase]) fun hread => ?_
  rcases List.mem_append.mp hread with hold | hnew
  · -- once the end has been read there is nothing left to take
    obtain ⟨hended, hempty⟩ := hc.drained hold
    refine ⟨hphase.trans hended, ?_⟩
    cases e with
    | read chunk => simp [CounterStream.give, hended, hempty] at hgive
    | readEnd | readError err =>
        obtain ⟨-, heq⟩ := Option.ite_none_right_eq_some.mp hgive
        cases heq
        exact hempty
    | send | answer | settle =>
        cases hgive
        exact hempty
  · obtain rfl := (List.mem_singleton.mp hnew).symm
    obtain ⟨⟨hended, hempty⟩, heq⟩ := Option.ite_none_right_eq_some.mp hgive
    cases heq
    exact ⟨hended, hempty⟩

/-- Every step keeps it. -/
theorem Content.step (hc : Content maxBytes h s) (ht : StreamTrans lib call s s' es) :
    Content maxBytes (h ++ es) s' := by
  cases ht with
  | @chunk bytes paused =>
      exact {
        max := hc.max
        whole := fun hno => by
          obtain ⟨hwhole, hseen⟩ := hc.whole hno
          refine ⟨?_, hseen⟩
          rw [emitted_concat, ← hwhole]
          exact (List.append_assoc _ _ _).symm
        bounded := hc.bounded
        overflow := fun err herr => by
          rw [emitted_concat]
          exact (hc.overflow err herr).append [bytes]
        drained := hc.drained }
  | endSource | failSource | drain =>
      exact hc.of_same rfl rfl rfl rfl (fun _ => Iff.rfl) hc.drained
  | transform hp hw =>
      rw [List.append_nil]
      exact hc.transform hp hw
  | flush hp =>
      refine hc.of_same rfl rfl rfl rfl (fun err => by simp [hp]) fun hread => ?_
      exact ⟨rfl, (hc.drained hread).2⟩
  | uploader _ hgive => exact hc.uploader hgive

theorem Content.of_reaches (hr : (uploadMachine lib node call).Reaches h s) :
    Content call.service.maxBytes h s := by
  refine Machine.Reaches.invariant (I := Content call.service.maxBytes) ?_ ?_ hr
  · exact {
      max := rfl
      whole := fun _ => ⟨rfl, rfl⟩
      bounded := Nat.zero_le _
      overflow := fun err herr => by cases herr
      drained := fun hread => by cases hread }
  · intro h s a s' es _ hc hs
    exact hc.step (streamTrans_of_step hs)

/-! ### The law of the content -/

/-- What an upload has handed over, and what it says of it. -/
structure ContentLaw (call : UploadCall) (h : List StreamEvent) (s : UploadState) : Prop where
  /-- The uploader has the first chunks of the body, and never more than the limit. -/
  isPrefix : s.trace.taken <+: emitted h
  bounded : totalLength s.trace.taken ≤ call.service.maxBytes
  /-- An upload that resolves has handed over the whole body. -/
  resolved : ∀ result, .settled (.ok result) ∈ h →
    .sourceEnded ∈ h ∧ s.trace.taken = emitted h
  /-- One that rejects for its size names the size of the first chunks that do not fit. -/
  tooLarge : ∀ err, .settled (.error (.tooLarge err)) ∈ h →
    ∃ p, totalLength p ≤ call.service.maxBytes ∧
      OverflowsAt call.service.maxBytes (emitted h) p err

/-- The end of the body has been read: the uploader has it all. -/
theorem Content.taken_eq (hc : Content maxBytes h s) (hf : Flow maxBytes h s)
    (hread : .readEnd ∈ s.trace) : s.trace.taken = emitted h := by
  obtain ⟨hended, hempty⟩ := hc.drained hread
  obtain ⟨hwhole, -⟩ := hc.whole fun err => by rw [hended]; simp
  rw [(hf.flushed hended).2, List.append_nil, UploadState.passed, hempty, List.append_nil] at hwhole
  exact hwhole

theorem Content.passed_prefix (hc : Content maxBytes h s) : s.passed <+: emitted h := by
  cases hp : s.stream.phase with
  | failed err =>
      obtain ⟨chunk, hprefix, -⟩ := hc.overflow err hp
      exact (List.prefix_append _ _).trans hprefix
  | passing | ended =>
      obtain ⟨hwhole, -⟩ := hc.whole fun err => by rw [hp]; simp
      rw [← hwhole]
      exact List.prefix_append _ _

/-- **An upload hands over its body as it is, up to the limit**, whatever the order in which
the body, the counter, the uploader and S3 take their turns. -/
theorem contentLaw_of_reaches (hlib : lib.Safe)
    (hr : (uploadMachine lib node call).Reaches h s) : ContentLaw call h s := by
  have hc := Content.of_reaches hr
  have hf := Flow.of_reaches hr
  have hu := Upheld.of_reaches hlib hr
  have htaken : s.trace.taken <+: s.passed := List.prefix_append _ _
  refine ⟨htaken.trans hc.passed_prefix, ?_, fun result hresult => ?_, fun err herr => ?_⟩
  · obtain ⟨rest, hrest⟩ := htaken
    have hbounded := hc.bounded
    rw [← hrest, totalLength_append] at hbounded
    omega
  · have hsettle := hu.resolved_iff.mp ⟨result, hresult⟩
    have hread := (hu.resolved hsettle).1
    exact ⟨(wentWell_of_resolved hf hu hsettle).1, hc.taken_eq hf hread⟩
  · obtain ⟨r, hsettle, heq⟩ := (hu.settled_iff _).mp herr
    cases r with
    | ok => cases heq
    | error cause =>
        cases heq
        have hread : .readError err ∈ s.trace := hu.rejected _ hsettle
        exact ⟨s.passed, hc.bounded, hc.overflow err (hu.readError err hread)⟩

/-- A body of five chunks for a binding that takes sixteen bytes; the last one is too much. -/
def bigRun : List StreamAction :=
  [.chunk [1, 2, 3, 4, 5], .chunk [6, 7, 8, 9, 10], .transform, .uploader (.read [1, 2, 3, 4, 5]),
    .chunk [11, 12, 13, 14, 15], .transform, .transform, .chunk [16, 17], .transform,
    .uploader (.readError ⟨17, 16⟩), .uploader (.settle (.error (.tooLarge ⟨17, 16⟩)))]

theorem contentLaw_of_reaches_big :
    ∃ h s, (uploadMachine uploader node20 pageCall).Reaches h s ∧ ContentLaw pageCall h s ∧
      .settled (.error (.tooLarge ⟨17, 16⟩)) ∈ h := by
  obtain ⟨h, s, hr, hrejected⟩ := Machine.exists_reachesWhen_and
    (M := uploadMachine uploader node20 pageCall) (C := fun _ _ _ => True)
    (P := fun h _ => .settled (.error (.tooLarge ⟨17, 16⟩)) ∈ h) bigRun (by decide +kernel)
  exact ⟨h, s, hr, contentLaw_of_reaches (libStorage_lawful (by decide) _).toSafe hr, hrejected⟩

/-! ### What waits in between -/

/-- The most that a buffer can hold: it was not full before its last chunk. -/
def StreamOptions.bufferMax (node : StreamOptions) (chunkMax : ℕ) : ℕ :=
  node.highWaterMark - 1 + chunkMax

/-- The two buffers of the counter. While the body goes on neither is overfull. When it has
ended, the counter passes on what it was written without waiting for its reader. -/
structure Buffers (node : StreamOptions) (chunkMax : ℕ) (s : UploadState) : Prop where
  chunks : ∀ chunk ∈ s.stream.writable, chunk.length ≤ chunkMax
  unpaused : s.paused = false → totalLength s.stream.writable < node.highWaterMark
  writable : totalLength s.stream.writable ≤ node.bufferMax chunkMax
  readable : s.stream.ending = false → totalLength s.stream.readable ≤ node.bufferMax chunkMax
  both : totalLength s.stream.writable + totalLength s.stream.readable ≤
    2 * node.bufferMax chunkMax

/-- The body emits chunks of at most `chunkMax` bytes. -/
def ChunksWithin (chunkMax : ℕ) (_ : List StreamEvent) (_ : UploadState) (a : StreamAction) :
    Prop :=
  ∀ bytes, a = .chunk bytes → bytes.length ≤ chunkMax

variable {chunkMax : ℕ}

/-- A buffer that is not full takes one more chunk. -/
theorem StreamOptions.add_le_bufferMax {n m : ℕ} (hn : n < node.highWaterMark) (hm : m ≤ chunkMax) :
    n + m ≤ node.bufferMax chunkMax := by
  simp only [bufferMax]
  omega

/-- What the uploader takes makes room. -/
theorem totalLength_readable_of_give {e : UploaderEvent} {stream : CounterStream}
    (hgive : s.stream.give e = some stream) :
    totalLength stream.readable ≤ totalLength s.stream.readable := by
  have hpassed := congrArg totalLength (passed_of_give hgive)
  simp only [UploadState.passed, Trace.taken, List.filterMap_append, totalLength_append] at hpassed
  omega

theorem Buffers.transform (hb : Buffers node chunkMax s) {chunk : Chunk} {rest : List Chunk}
    (hroom : s.stream.ending = true ∨ totalLength s.stream.readable < node.highWaterMark)
    (hw : s.stream.writable = chunk :: rest) :
    Buffers node chunkMax { s with stream := s.stream.transform chunk rest } := by
  obtain ⟨hchunks, hunpaused, hwritable, hreadable, hboth⟩ := hb
  rw [hw] at hchunks hunpaused hwritable hboth
  rw [totalLength_cons] at hunpaused hwritable hboth
  have hchunk := hchunks chunk List.mem_cons_self
  have hrest : ∀ c ∈ rest, c.length ≤ chunkMax :=
    fun c hc => hchunks c (List.mem_cons_of_mem _ hc)
  by_cases hlt : s.stream.counter.max < s.stream.counter.seen + chunk.length
  · rw [CounterStream.transform_of_lt rest hlt]
    exact ⟨hrest, fun hp => Nat.lt_of_le_of_lt (Nat.le_add_left _ _) (hunpaused hp),
      Nat.le_trans (Nat.le_add_left _ _) hwritable, hreadable,
      Nat.le_trans (Nat.add_le_add_right (Nat.le_add_left _ _) _) hboth⟩
  · have hpassed := totalLength_concat s.stream.readable chunk
    rw [CounterStream.transform_of_not_lt rest hlt]
    refine ⟨hrest, fun hp => Nat.lt_of_le_of_lt (Nat.le_add_left _ _) (hunpaused hp),
      Nat.le_trans (Nat.le_add_left _ _) hwritable, fun hending => ?_, ?_⟩
    · have hfree := hroom.resolve_left (by simpa using hending)
      exact hpassed ▸ StreamOptions.add_le_bufferMax hfree hchunk
    · show totalLength rest + totalLength (s.stream.readable ++ [chunk]) ≤ _
      omega

/-- Every step keeps it. -/
theorem Buffers.step (hb : Buffers node chunkMax s) (hf : Flow maxBytes h s) {a : StreamAction}
    (ha : ChunksWithin chunkMax h s a) (hs : uploadStep lib node call s a = some (s', es)) :
    Buffers node chunkMax s' := by
  cases a with
  | chunk bytes =>
      obtain ⟨⟨hsource, -, hpaused⟩, rfl, -⟩ := Machine.of_guarded hs
      -- The body emits only while it is not paused: there is room for the chunk.
      have hwritten := totalLength_concat s.stream.writable bytes
      have hwritable := StreamOptions.add_le_bufferMax (hb.unpaused hpaused) (ha bytes rfl)
      have hgoesOn : s.stream.ending = false := by
        rw [Bool.eq_false_iff]
        intro hending
        have hended := hf.ending_iff.mp hending
        rw [hsource] at hended
        cases hended
      have hreadable := hb.readable hgoesOn
      refine ⟨fun c hc => ?_, fun hp => ?_, hwritten ▸ hwritable, hb.readable, ?_⟩
      · rcases List.mem_append.mp hc with hc | hc
        · exact hb.chunks c hc
        · exact List.mem_singleton.mp hc ▸ ha bytes rfl
      · exact Nat.not_le.mp (of_decide_eq_false hp)
      · show totalLength (s.stream.writable ++ [bytes]) + totalLength s.stream.readable ≤ _
        omega
  | endSource =>
      obtain ⟨-, rfl, -⟩ := Machine.of_guarded hs
      exact ⟨hb.chunks, hb.unpaused, hb.writable, fun h => (by cases h), hb.both⟩
  | failSource =>
      obtain ⟨-, rfl, -⟩ := Machine.of_guarded hs
      exact ⟨hb.chunks, hb.unpaused, hb.writable, hb.readable, hb.both⟩
  | drain =>
      obtain ⟨⟨-, hempty⟩, rfl, -⟩ := Machine.of_guarded hs
      exact ⟨hb.chunks, fun _ => by simp [hempty, node.pos], hb.writable, hb.readable, hb.both⟩
  -- The chunk goes from one side to the other, where there is room for it.
  | transform =>
      obtain ⟨⟨-, hroom⟩, h⟩ := Option.ite_none_right_eq_some.mp hs
      split at h
      · cases h
      · next hw =>
        obtain ⟨rfl, -⟩ := Prod.mk.inj (Option.some.inj h)
        exact hb.transform hroom hw
  | flush =>
      obtain ⟨-, rfl, -⟩ := Machine.of_guarded hs
      exact ⟨hb.chunks, hb.unpaused, hb.writable, hb.readable, hb.both⟩
  -- What is read leaves the buffer.
  | uploader e =>
      obtain ⟨-, h⟩ := Option.ite_none_right_eq_some.mp hs
      obtain ⟨stream, hgive, h⟩ := Option.map_eq_some_iff.mp h
      obtain ⟨rfl, -⟩ := Prod.mk.inj h
      have hless := totalLength_readable_of_give hgive
      rw [give_eq_some hgive]
      exact ⟨hb.chunks, hb.unpaused, hb.writable, fun h => Nat.le_trans hless (hb.readable h),
        Nat.le_trans (Nat.add_le_add_left hless _) hb.both⟩

/-- **An upload waits in constant memory.** In every run in which the body emits chunks of at
most `chunkMax` bytes, the counter never holds more than two buffers of less than a high-water
mark and a chunk each, whatever the limit of the upload, the length of the body and the pace of
S3. -/
theorem buffered_le
    (hr : (uploadMachine lib node call).ReachesWhen (ChunksWithin chunkMax) h s) :
    totalLength s.stream.writable + totalLength s.stream.readable ≤
      2 * (node.highWaterMark - 1 + chunkMax) := by
  have hb : Buffers node chunkMax s := by
    refine Machine.ReachesWhen.invariant_of (I := fun _ s => Buffers node chunkMax s) ?_ ?_ hr
    · exact ⟨by simp [uploadMachine], fun _ => node.pos, Nat.zero_le _, fun _ => Nat.zero_le _,
        Nat.zero_le _⟩
    · intro h s a s' es hr hb ha hs
      exact hb.step (Flow.of_reaches hr.reaches) ha hs
  exact hb.both

instance (a : StreamAction) : Decidable (ChunksWithin chunkMax h s a) :=
  match a with
  | .chunk bytes => decidable_of_iff (bytes.length ≤ chunkMax)
      ⟨fun hle _ heq => by cases heq; exact hle, fun hle => hle bytes rfl⟩
  | .endSource | .failSource | .drain | .transform | .flush | .uploader _ =>
    isTrue fun _ heq => by cases heq

/-- Streams of four bytes fill up: two chunks wait on each side of the counter. -/
theorem buffered_le_full :
    ∃ s : UploadState, totalLength s.stream.writable + totalLength s.stream.readable = 12 ∧
      totalLength s.stream.writable + totalLength s.stream.readable ≤ 2 * (4 - 1 + 3) := by
  obtain ⟨h, s, hr, hfull⟩ := Machine.exists_reachesWhen_and
    (M := uploadMachine uploader ⟨4, by decide⟩ pageCall) (C := ChunksWithin 3)
    (P := fun _ s => totalLength s.stream.writable + totalLength s.stream.readable = 12)
    [.chunk [1, 2, 3], .transform, .chunk [4, 5, 6], .transform, .chunk [7, 8, 9],
      .chunk [10, 11, 12]] (by decide +kernel)
  exact ⟨s, hfull, buffered_le hr⟩

end EmailPlatform.Storage
