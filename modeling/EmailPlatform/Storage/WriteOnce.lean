import EmailPlatform.Storage.NamespacedStorage

/-!
# EmailPlatform.Storage.WriteOnce

**The public bucket never overwrites.** Seen from its history, the bucket is a map that only
two events change: a resolved upload adds an object under a key that nobody was given
before, and a delete that succeeds takes one away (`Stored`). `writeOnce_of_reaches` states
the refinement over every run of any bindings.

Everything rests on the shape of the keys. The uuid can be read off a key because neither
the namespace nor the sanitised filename has a separator, so distinct uuids give distinct
keys whatever the filenames.
-/

namespace EmailPlatform.Storage

/-! ### The bucket, read off its history -/

/-- The bytes that an event adds to the body of upload `i`. -/
def Event.chunkOf (i : Nat) : Event → List UInt8
  | .chunk j bytes => if j = i then bytes else []
  | _ => []

/-- What the body of upload `i` has emitted. -/
def bodyOf (h : List Event) (i : Nat) : List UInt8 := h.flatMap (Event.chunkOf i)

/-- The key that an event returns to a caller. -/
def Event.returnedKey? : Event → Option JsString
  | .resolved _ _ _ key => some key
  | _ => none

/-- An upload returned `key`, with its whole body and its binding's content type in
`object`, and no later delete of the key succeeded. -/
def Stored (h : List Event) (key : JsString) (object : StoredObject) : Prop :=
  ∃ h₁ h₂ i call url, h = h₁ ++ .resolved i call url key :: h₂ ∧ .deleted key ∉ h₂ ∧
    object = ⟨bodyOf h₁ i, call.service.contentType⟩

/-- The history is one of a write-once store. -/
structure WriteOnce (h : List Event) : Prop where
  /-- A returned key is `namespace/uuid/safeName`, with these separators only. -/
  key_shape : ∀ i call url key, .resolved i call url key ∈ h →
    key = call.service.ns ++ pathSeparator ::
      (call.uuid.text ++ pathSeparator :: sanitizeFilename call.filename) ∧
    key.count pathSeparator = 2
  /-- No key is returned twice. -/
  keys_nodup : (h.filterMap Event.returnedKey?).Nodup
  /-- An upload resolves once its body has ended, within the limit. -/
  whole : ∀ h₁ h₂ i call url key, h = h₁ ++ .resolved i call url key :: h₂ →
    .started i call ∈ h₁ ∧ .bodyEnded i ∈ h₁ ∧
      (bodyOf h₁ i).length ≤ call.service.maxBytes
  /-- An upload that rejects does not resolve. -/
  exclusive : ∀ i call url key err, .resolved i call url key ∈ h → .rejected i err ∉ h
  /-- `exists` answers for the returned keys that are not deleted. -/
  existed_iff : ∀ h₁ h₂ key answer, h = h₁ ++ .existed key answer :: h₂ →
    (answer = true ↔ ∃ object, Stored h₁ key object)

theorem bodyOf_append (h es : List Event) (i : Nat) :
    bodyOf (h ++ es) i = bodyOf h i ++ bodyOf es i := List.flatMap_append

theorem bodyOf_chunk (i : Nat) (bytes : List UInt8) : bodyOf [.chunk i bytes] i = bytes := by
  simp [bodyOf, Event.chunkOf]

theorem bodyOf_of_ne {i : Nat} {e : Event} (he : ∀ bytes, e ≠ .chunk i bytes) :
    bodyOf [e] i = [] := by
  cases e with
  | chunk j bytes =>
      have hj : j ≠ i := by
        intro heq
        subst heq
        exact he bytes rfl
      simp [bodyOf, Event.chunkOf, hj]
  | _ => rfl

theorem bodyOf_eq_nil {h : List Event} {i : Nat} (hno : ∀ bytes, .chunk i bytes ∉ h) :
    bodyOf h i = [] := by
  induction h with
  | nil => rfl
  | cons e h ih =>
      have he : ∀ bytes, e ≠ .chunk i bytes := by
        intro bytes heq
        subst heq
        exact hno bytes List.mem_cons_self
      show bodyOf ([e] ++ h) i = []
      rw [bodyOf_append, bodyOf_of_ne he,
        ih fun bytes hmem => hno bytes (List.mem_cons_of_mem _ hmem)]
      rfl

theorem Stored.append {h es : List Event} {key : JsString} {object : StoredObject}
    (hs : Stored h key object) (hes : .deleted key ∉ es) : Stored (h ++ es) key object := by
  obtain ⟨h₁, h₂, i, call, url, rfl, hdel, hobj⟩ := hs
  refine ⟨h₁, h₂ ++ es, i, call, url, by simp, ?_, hobj⟩
  rw [List.mem_append]
  exact not_or.mpr ⟨hdel, hes⟩

/-! ### What the counter passes on -/

/-- A chunk within the limit is passed on, one beyond it is the counter's error. -/
theorem UploadTask.write_cases (t : UploadTask) (bytes : List UInt8) :
    (t.counter.seen + bytes.length ≤ t.counter.max ∧
      t.write bytes = { t with
        counter := { t.counter with seen := t.counter.seen + bytes.length }
        passed := t.passed ++ bytes }) ∨
    ∃ err counter, counter.max = t.counter.max ∧
      t.write bytes = { t with counter, progress := .tooLarge err } := by
  unfold write SizeCountingTransform.transform
  by_cases h : t.counter.seen + bytes.length > t.counter.max
  · right
    simp only [if_pos h]
    exact ⟨_, { t.counter with seen := t.counter.seen + bytes.length }, rfl, rfl⟩
  · left
    simp only [if_neg h]
    exact ⟨Nat.not_lt.mp h, trivial⟩

@[simp] theorem UploadTask.call_write (t : UploadTask) (bytes : List UInt8) :
    (t.write bytes).call = t.call := by
  rcases t.write_cases bytes with ⟨-, hw⟩ | ⟨_, _, -, hw⟩ <;> rw [hw]

@[simp] theorem UploadTask.call_at (t : UploadTask) (progress : Progress) :
    (t.at progress).call = t.call := rfl

/-- What is known of upload `i` after the history `h`. -/
structure TaskInv (h : List Event) (i : Nat) (t : UploadTask) : Prop where
  started : .started i t.call ∈ h
  named : t.call.service.WellNamed
  max : t.counter.max = t.call.service.maxBytes
  body : t.progress = .streaming ∨ t.progress = .ended →
    t.passed = bodyOf h i ∧ t.counter.seen = (bodyOf h i).length ∧
      (bodyOf h i).length ≤ t.counter.max
  ended : t.progress = .ended → .bodyEnded i ∈ h

/-- What another event leaves. -/
theorem TaskInv.append {h : List Event} {i : Nat} {t : UploadTask} (ht : TaskInv h i t)
    {e : Event} (he : ∀ bytes, e ≠ .chunk i bytes) : TaskInv (h ++ [e]) i t where
  started := List.mem_append_left _ ht.started
  named := ht.named
  max := ht.max
  body hp := by
    rw [bodyOf_append, bodyOf_of_ne he, List.append_nil]
    exact ht.body hp
  ended hp := List.mem_append_left _ (ht.ended hp)

theorem TaskInv.write {h : List Event} {i : Nat} {t : UploadTask} (ht : TaskInv h i t)
    (hp : t.progress = .streaming) (bytes : List UInt8) :
    TaskInv (h ++ [.chunk i bytes]) i (t.write bytes) := by
  obtain ⟨hpassed, hseen, hmax⟩ := ht.body (.inl hp)
  rcases t.write_cases bytes with ⟨hle, hw⟩ | ⟨err, counter, hcounter, hw⟩
  · rw [hw]
    refine ⟨List.mem_append_left _ ht.started, ht.named, ht.max, fun _ => ?_, fun hend => ?_⟩
    · rw [bodyOf_append, bodyOf_chunk, List.length_append]
      refine ⟨?_, ?_, ?_⟩
      · show t.passed ++ bytes = _
        rw [hpassed]
      · show t.counter.seen + bytes.length = _
        rw [hseen]
      · show _ ≤ t.counter.max
        rw [← hseen]
        exact hle
    · exact absurd (hp.symm.trans hend) (by simp)
  · rw [hw]
    exact ⟨List.mem_append_left _ ht.started, ht.named, hcounter.trans ht.max,
      fun hp' => by simp at hp', fun hp' => by simp at hp'⟩

/-- The body of the upload is over. -/
theorem TaskInv.at {h : List Event} {i : Nat} {t : UploadTask} (ht : TaskInv h i t)
    {progress : Progress} {e : Event} (he : ∀ bytes, e ≠ .chunk i bytes)
    (hp : progress = .streaming ∨ progress = .ended →
      t.progress = .streaming ∧ e = .bodyEnded i) :
    TaskInv (h ++ [e]) i (t.at progress) where
  started := List.mem_append_left _ ht.started
  named := ht.named
  max := ht.max
  body hprog := (ht.append he).body (.inl (hp hprog).1)
  ended hprog := by
    obtain ⟨-, rfl⟩ := hp (.inr hprog)
    exact List.mem_append_right _ (List.mem_singleton_self _)

/-! ### Runs -/

section Tasks

variable {s : State} {i j : Nat} {t t' u : UploadTask}

/-- A task of the state after one task has changed. -/
theorem getElem?_setTask_cases (hu : (s.setTask i t').uploads[j]? = some u) :
    (j = i ∧ u = t') ∨ (j ≠ i ∧ s.uploads[j]? = some u) :=
  getElem?_set_cases hu

theorem getElem?_setTask_self (ht : s.uploads[i]? = some t) :
    (s.setTask i t').uploads[i]? = some t' := by
  show (s.uploads.set i t')[i]? = some t'
  obtain ⟨hi, -⟩ := List.getElem?_eq_some_iff.mp ht
  rw [List.getElem?_set_self hi]

theorem getElem?_setTask_ne (hij : j ≠ i) :
    (s.setTask i t').uploads[j]? = s.uploads[j]? := by
  show (s.uploads.set i t')[j]? = _
  rw [List.getElem?_set_ne (Ne.symm hij)]

/-- A settled upload is none that changes. -/
theorem getElem?_setTask_settled (ht : s.uploads[i]? = some t) (hp : t.progress ≠ .settled)
    (hu : s.uploads[j]? = some u) (hsettled : u.progress = .settled) :
    (s.setTask i t').uploads[j]? = some u := by
  have hji : j ≠ i := by
    intro heq
    subst heq
    obtain rfl := Option.some.inj (ht.symm.trans hu)
    exact hp hsettled
  exact (getElem?_setTask_ne hji).trans hu

/-- The uuids of the uploads. -/
def State.uuids (s : State) : List Uuid := s.uploads.map (·.call.uuid)

theorem uuids_setTask (ht : s.uploads[i]? = some t) (hcall : t'.call = t.call) :
    (s.setTask i t').uuids = s.uuids := by
  refine List.ext_getElem? fun k => ?_
  show ((s.uploads.set i t').map _)[k]? = (s.uploads.map _)[k]?
  rw [List.getElem?_map, List.getElem?_map]
  by_cases hk : k = i
  · subst hk
    have hset : (s.uploads.set k t')[k]? = some t' := getElem?_setTask_self ht
    rw [hset, ht, Option.map_some, Option.map_some, hcall]
  · rw [List.getElem?_set_ne (Ne.symm hk)]

/-- Uploads with one uuid are one upload. -/
theorem index_eq_of_uuid (hnd : s.uuids.Nodup) (ht : s.uploads[i]? = some t)
    (hu : s.uploads[j]? = some u) (huuid : t.call.uuid = u.call.uuid) : i = j := by
  have hi : s.uuids[i]? = some t.call.uuid := by
    rw [State.uuids, List.getElem?_map, ht]
    rfl
  have hj : s.uuids[j]? = some u.call.uuid := by
    rw [State.uuids, List.getElem?_map, hu]
    rfl
  refine (List.getElem?_inj (List.getElem?_eq_some_iff.mp hi).1 hnd).mp ?_
  rw [hi, hj, huuid]

end Tasks

/-- The invariant of the bucket. -/
structure Inv (h : List Event) (s : State) : Prop where
  task : ∀ {i t}, s.uploads[i]? = some t → TaskInv h i t
  uuids : s.uuids.Nodup
  bounded : ∀ {i bytes}, .chunk i bytes ∈ h → i < s.uploads.length
  resolved : ∀ {i call url key}, .resolved i call url key ∈ h →
    key = call.key ∧ ∃ t, s.uploads[i]? = some t ∧ t.call = call ∧ t.progress = .settled
  rejected : ∀ {i err}, .rejected i err ∈ h →
    ∃ t, s.uploads[i]? = some t ∧ t.progress = .settled
  object : ∀ {key object}, s.objects key = some object → Stored h key object

theorem inv_init : Inv [] bucket.init where
  task ht := by cases ht
  uuids := List.nodup_nil
  bounded hmem := absurd hmem List.not_mem_nil
  resolved hmem := absurd hmem List.not_mem_nil
  rejected hmem := absurd hmem List.not_mem_nil
  object hobj := by cases hobj

section Step

variable {h : List Event} {s : State} {i : Nat} {t t' : UploadTask} {e : Event}

/-- Two uploads with one key are one upload. -/
theorem Inv.index_eq_of_key (hinv : Inv h s) {j : Nat} {u : UploadTask}
    (ht : s.uploads[i]? = some t) (hu : s.uploads[j]? = some u)
    (hkey : t.call.key = u.call.key) : i = j :=
  index_eq_of_uuid hinv.uuids ht hu
    (uuid_eq_of_objectKey_eq (hinv.task ht).named.2 (hinv.task hu).named.2 hkey)

/-- The key of a running upload has not been returned. -/
theorem Inv.not_returned (hinv : Inv h s) (ht : s.uploads[i]? = some t)
    (hp : t.progress ≠ .settled) {j : Nat} {call : UploadCall} {url : JsString} :
    .resolved j call url t.call.key ∉ h := by
  intro hmem
  obtain ⟨hkey, u, hu, rfl, hsettled⟩ := hinv.resolved hmem
  obtain rfl := hinv.index_eq_of_key ht hu hkey
  obtain rfl := Option.some.inj (ht.symm.trans hu)
  exact hp hsettled

/-- So there is nothing under it. -/
theorem Inv.objects_key (hinv : Inv h s) (ht : s.uploads[i]? = some t)
    (hp : t.progress ≠ .settled) : s.objects t.call.key = none := by
  cases hobj : s.objects t.call.key with
  | none => rfl
  | some object =>
      obtain ⟨h₁, h₂, j, call, url, rfl, -⟩ := hinv.object hobj
      exact absurd (List.mem_append_right h₁ List.mem_cons_self) (hinv.not_returned ht hp)

/-- One step of one upload, without a result. -/
theorem Inv.setTask (hinv : Inv h s) (ht : s.uploads[i]? = some t) (hcall : t'.call = t.call)
    (hp : t.progress ≠ .settled) (htask : TaskInv (h ++ [e]) i t')
    (hother : ∀ j ≠ i, ∀ bytes, e ≠ .chunk j bytes)
    (hresolved : ∀ j call url key, e ≠ .resolved j call url key)
    (hrejected : ∀ j err, e = .rejected j err → j = i ∧ t'.progress = .settled)
    (hdeleted : ∀ key, e ≠ .deleted key) : Inv (h ++ [e]) (s.setTask i t') where
  task := by
    intro j u hu
    rcases getElem?_setTask_cases hu with ⟨rfl, rfl⟩ | ⟨hne, hu⟩
    · exact htask
    · exact (hinv.task hu).append (hother j hne)
  uuids := by
    rw [uuids_setTask ht hcall]
    exact hinv.uuids
  bounded := by
    intro j bytes hmem
    show j < (s.uploads.set i t').length
    rw [List.length_set]
    rcases List.mem_append.mp hmem with hmem | hmem
    · exact hinv.bounded hmem
    · by_cases hji : j = i
      · subst hji
        exact (List.getElem?_eq_some_iff.mp ht).1
      · exact absurd (List.mem_singleton.mp hmem).symm (hother j hji bytes)
  resolved := by
    intro j call url key hmem
    obtain ⟨hkey, u, hu, hc, hsettled⟩ :=
      hinv.resolved (mem_of_mem_concat hmem (hresolved j call url key))
    exact ⟨hkey, u, getElem?_setTask_settled ht hp hu hsettled, hc, hsettled⟩
  rejected := by
    intro j err hmem
    rcases List.mem_append.mp hmem with hmem | hmem
    · obtain ⟨u, hu, hsettled⟩ := hinv.rejected hmem
      exact ⟨u, getElem?_setTask_settled ht hp hu hsettled, hsettled⟩
    · obtain ⟨rfl, hsettled⟩ := hrejected j err (List.mem_singleton.mp hmem).symm
      exact ⟨t', getElem?_setTask_self ht, hsettled⟩
  object hobj :=
    (hinv.object hobj).append fun hmem => hdeleted _ (List.mem_singleton.mp hmem).symm

/-- An event that concerns no upload. -/
theorem Inv.ofBucket (hinv : Inv h s) {objects : JsString → Option StoredObject}
    (hchunk : ∀ j bytes, e ≠ .chunk j bytes)
    (hresolved : ∀ j call url key, e ≠ .resolved j call url key)
    (hrejected : ∀ j err, e ≠ .rejected j err)
    (hobjects : ∀ {key object}, objects key = some object →
      s.objects key = some object ∧ e ≠ .deleted key) :
    Inv (h ++ [e]) ⟨objects, s.uploads⟩ where
  task ht := (hinv.task ht).append (hchunk _)
  uuids := hinv.uuids
  bounded hmem := hinv.bounded (mem_of_mem_concat hmem (hchunk _ _))
  resolved hmem := hinv.resolved (mem_of_mem_concat hmem (hresolved _ _ _ _))
  rejected hmem := hinv.rejected (mem_of_mem_concat hmem (hrejected _ _))
  object := by
    intro key object hobj
    obtain ⟨hold, hdel⟩ := hobjects hobj
    exact (hinv.object hold).append fun hmem => hdel (List.mem_singleton.mp hmem).symm

/-- A new upload. -/
theorem Inv.start (hinv : Inv h s) {call : UploadCall} (hnamed : call.service.WellNamed)
    (hfresh : ∀ t ∈ s.uploads, t.call.uuid ≠ call.uuid) :
    Inv (h ++ [.started s.uploads.length call])
      { s with uploads := s.uploads ++ [.start call] } where
  task := by
    intro j u hu
    rcases getElem?_concat_cases hu with ⟨rfl, rfl⟩ | hu
    -- The new task: its body has not emitted anything under this number.
    · have hbody : bodyOf (h ++ [.started s.uploads.length call]) s.uploads.length = [] := by
        refine bodyOf_eq_nil fun bytes hmem => ?_
        rcases List.mem_append.mp hmem with hmem | hmem
        · exact absurd (hinv.bounded hmem) (Nat.lt_irrefl _)
        · exact absurd (List.mem_singleton.mp hmem) (by simp)
      refine ⟨List.mem_append_right _ (List.mem_singleton_self _), hnamed, rfl, fun _ => ?_,
        fun hend => by cases hend⟩
      rw [hbody]
      exact ⟨rfl, rfl, Nat.zero_le _⟩
    · exact (hinv.task hu).append fun bytes => by simp
  uuids := by
    show ((s.uploads ++ [UploadTask.start call]).map _).Nodup
    rw [List.map_append, List.map_singleton, List.nodup_append]
    refine ⟨hinv.uuids, by simp, ?_⟩
    intro u hu u' hu' heq
    subst heq
    obtain ⟨t, ht, rfl⟩ := List.mem_map.mp hu
    exact hfresh t ht (List.mem_singleton.mp hu')
  bounded := by
    intro j bytes hmem
    show j < (s.uploads ++ [UploadTask.start call]).length
    rw [List.length_append]
    exact Nat.lt_add_right _ (hinv.bounded (mem_of_mem_concat hmem (by simp)))
  resolved := by
    intro j call' url key hmem
    obtain ⟨hkey, u, hu, hrest⟩ := hinv.resolved (mem_of_mem_concat hmem (by simp))
    refine ⟨hkey, u, ?_, hrest⟩
    exact (List.getElem?_append_left (List.getElem?_eq_some_iff.mp hu).1).trans hu
  rejected := by
    intro j err hmem
    obtain ⟨u, hu, hsettled⟩ := hinv.rejected (mem_of_mem_concat hmem (by simp))
    refine ⟨u, ?_, hsettled⟩
    exact (List.getElem?_append_left (List.getElem?_eq_some_iff.mp hu).1).trans hu
  object hobj := (hinv.object hobj).append fun hmem => by simp at hmem

/-- An upload resolves: its object is added under a key that was free. -/
theorem Inv.resolve (hinv : Inv h s) (ht : s.uploads[i]? = some t) (hp : t.progress = .ended) :
    Inv (h ++ [.resolved i t.call t.call.url t.call.key])
      ((s.setTask i (t.at .settled)).setObject t.call.key
        (some ⟨t.passed, t.call.service.contentType⟩)) where
  task := by
    intro j u hu
    rcases getElem?_setTask_cases hu with ⟨rfl, rfl⟩ | ⟨-, hu⟩
    · exact (hinv.task ht).at (fun bytes => by simp) (fun hprog => by simp at hprog)
    · exact (hinv.task hu).append fun bytes => by simp
  uuids := by
    show (s.setTask i (t.at .settled)).uuids.Nodup
    rw [uuids_setTask ht (t.call_at .settled)]
    exact hinv.uuids
  bounded := by
    intro j bytes hmem
    show j < (s.uploads.set i (t.at .settled)).length
    rw [List.length_set]
    exact hinv.bounded (mem_of_mem_concat hmem (by simp))
  resolved := by
    intro j call url key hmem
    rcases List.mem_append.mp hmem with hmem | hmem
    · obtain ⟨hkey, u, hu, hc, hsettled⟩ := hinv.resolved hmem
      exact ⟨hkey, u, getElem?_setTask_settled ht (by simp [hp]) hu hsettled, hc, hsettled⟩
    · obtain ⟨rfl, rfl, rfl, rfl⟩ := Event.resolved.inj (List.mem_singleton.mp hmem)
      exact ⟨rfl, _, getElem?_setTask_self ht, rfl, rfl⟩
  rejected := by
    intro j err hmem
    obtain ⟨u, hu, hsettled⟩ := hinv.rejected (mem_of_mem_concat hmem (by simp))
    exact ⟨u, getElem?_setTask_settled ht (by simp [hp]) hu hsettled, hsettled⟩
  object := by
    intro key object hobj
    by_cases hkey : key = t.call.key
    · subst hkey
      have hobject : some ⟨t.passed, t.call.service.contentType⟩ = some object :=
        (if_pos rfl).symm.trans hobj
      refine ⟨h, [], i, t.call, t.call.url, rfl, List.not_mem_nil, ?_⟩
      rw [← Option.some.inj hobject, ((hinv.task ht).body (.inr hp)).1]
    · have hold : s.objects key = some object := (if_neg hkey).symm.trans hobj
      exact (hinv.object hold).append fun hmem => by simp at hmem

theorem Inv.step {s' : State} (hinv : Inv h s) (htrans : Trans s s' e) : Inv (h ++ [e]) s' := by
  cases htrans with
  | started hnamed hfresh => exact hinv.start hnamed hfresh
  | @chunk i t bytes ht hp =>
      refine hinv.setTask ht (by simp) (by rw [hp]; simp) ((hinv.task ht).write hp bytes) ?_
        (by simp) (by simp) (by simp)
      intro j hji bytes' heq
      exact hji (Event.chunk.inj heq).1.symm
  | bodyEnded ht hp =>
      refine hinv.setTask ht rfl (by rw [hp]; simp) ?_ (by simp) (by simp) (by simp) (by simp)
      exact (hinv.task ht).at (by simp) fun _ => ⟨hp, rfl⟩
  | bodyFailed ht hp =>
      refine hinv.setTask ht rfl (by rw [hp]; simp) ?_ (by simp) (by simp) (by simp) (by simp)
      exact (hinv.task ht).at (by simp) fun hprog => by simp at hprog
  | resolved ht hp => exact hinv.resolve ht hp
  | @rejected i t err ht hp =>
      refine hinv.setTask ht rfl hp ((hinv.task ht).at (by simp) (fun hprog => by simp at hprog))
        (by simp) (by simp) ?_ (by simp)
      intro j err' heq
      exact ⟨(Event.rejected.inj heq).1.symm, rfl⟩
  | @deleted key =>
      refine hinv.ofBucket (by simp) (by simp) (by simp) ?_
      intro key' object hobj
      by_cases hkey : key' = key
      · exact absurd ((if_pos hkey).symm.trans hobj) (by simp)
      · refine ⟨(if_neg hkey).symm.trans hobj, ?_⟩
        intro heq
        exact hkey (Event.deleted.inj heq).symm
  | deleteRejected => exact hinv.ofBucket (by simp) (by simp) (by simp) fun hobj => ⟨hobj, by simp⟩
  | existed => exact hinv.ofBucket (by simp) (by simp) (by simp) fun hobj => ⟨hobj, by simp⟩
  | existsRejected => exact hinv.ofBucket (by simp) (by simp) (by simp) fun hobj => ⟨hobj, by simp⟩

end Step

theorem inv_of_reaches {h : List Event} {s : State} (hr : bucket.Reaches h s) : Inv h s := by
  refine hr.invariant inv_init ?_
  intro h s a s' es _ hinv hs
  obtain ⟨e, rfl, htrans⟩ := trans_of_step hs
  exact hinv.step htrans

/-! ### The laws -/

section Laws

variable {h : List Event} {s s' : State}

/-- What a step can do to the objects. -/
theorem Trans.objects {e : Event} (hinv : Inv h s) (htrans : Trans s s' e) (key : JsString) :
    s'.objects key = s.objects key ∨ (s'.objects key = none ∧ e = .deleted key) ∨
      (s.objects key = none ∧ ∃ i call url, e = .resolved i call url key) := by
  cases htrans with
  | @resolved i t ht hp =>
      by_cases hkey : key = t.call.key
      · subst hkey
        exact .inr (.inr ⟨hinv.objects_key ht (by rw [hp]; simp), i, t.call, t.call.url, rfl⟩)
      · exact .inl (if_neg hkey)
  | @deleted key' =>
      by_cases hkey : key = key'
      · subst hkey
        exact .inr (.inl ⟨if_pos rfl, rfl⟩)
      · exact .inl (if_neg hkey)
  | _ => exact .inl rfl

/-- The one event of a step that emits `m`. -/
theorem trans_of_marked {a : Action} {m : Event} {l₁ l₂ : List Event}
    (hs : bucket.step s a = some (s', l₁ ++ m :: l₂)) : l₁ = [] ∧ l₂ = [] ∧ Trans s s' m := by
  obtain ⟨e, he, htrans⟩ := trans_of_step hs
  rcases List.append_eq_singleton_iff.mp he with ⟨rfl, hm⟩ | ⟨-, hm⟩
  · obtain ⟨rfl, rfl⟩ := List.cons.inj hm
    exact ⟨rfl, rfl, htrans⟩
  · cases hm

/-- An object stays until its key is deleted. -/
theorem objects_of_stored (hr : bucket.Reaches h s) {key : JsString} {object : StoredObject}
    (hstored : Stored h key object) : s.objects key = some object := by
  obtain ⟨h₁, h₂, i, call, url, rfl, hdel, rfl⟩ := hstored
  refine hr.since (J := fun h₁ h₂ s => .deleted key ∉ h₂ →
    s.objects key = some ⟨bodyOf h₁ i, call.service.contentType⟩) ?_ ?_ hdel
  · intro h s a s' l₁ l₂ hr' _ hs _
    obtain ⟨rfl, rfl, htrans⟩ := trans_of_marked hs
    cases htrans with
    | resolved ht hp =>
        rw [List.append_nil, ← (((inv_of_reaches hr').task ht).body (.inr hp)).1]
        exact if_pos rfl
  · intro h₁ h₂ s a s' es hr' hJ _ hs hdel
    obtain ⟨e, rfl, htrans⟩ := trans_of_step hs
    rw [List.mem_append, List.mem_singleton, not_or] at hdel
    have hold := hJ hdel.1
    rcases htrans.objects (inv_of_reaches hr') key with hsame | ⟨-, rfl⟩ | ⟨hnone, -⟩
    · rw [hsame]
      exact hold
    · exact absurd rfl hdel.2
    · rw [hnone] at hold
      cases hold

theorem objects_eq_some_iff (hr : bucket.Reaches h s) (key : JsString) (object : StoredObject) :
    s.objects key = some object ↔ Stored h key object :=
  ⟨(inv_of_reaches hr).object, objects_of_stored hr⟩

theorem keys_nodup_of_reaches (hr : bucket.Reaches h s) :
    (h.filterMap Event.returnedKey?).Nodup := by
  refine hr.invariant (I := fun h _ => (h.filterMap Event.returnedKey?).Nodup) List.nodup_nil ?_
  intro h s a s' es hr ih hs
  obtain ⟨e, rfl, htrans⟩ := trans_of_step hs
  rw [List.filterMap_append]
  cases htrans with
  | @resolved i t ht hp =>
      show (h.filterMap _ ++ [t.call.key]).Nodup
      rw [List.nodup_append]
      refine ⟨ih, by simp, ?_⟩
      intro k hk k' hk' heq
      subst heq
      obtain rfl := List.mem_singleton.mp hk'
      obtain ⟨e, he, hkey⟩ := List.mem_filterMap.mp hk
      cases e with
      | resolved j call url key =>
          obtain rfl := Option.some.inj hkey
          exact (inv_of_reaches hr).not_returned ht (by rw [hp]; simp) he
      | _ => cases hkey
  | _ =>
      show (h.filterMap _ ++ []).Nodup
      rw [List.append_nil]
      exact ih

theorem exclusive_of_reaches (hr : bucket.Reaches h s) :
    ∀ i call url key err, .resolved i call url key ∈ h → .rejected i err ∉ h := by
  refine hr.invariant (I := fun h _ => ∀ i call url key err,
    .resolved i call url key ∈ h → .rejected i err ∉ h)
    (fun _ _ _ _ _ hmem => absurd hmem List.not_mem_nil) ?_
  intro h s a s' es hr ih hs i call url key err hres hrej
  obtain ⟨e, rfl, htrans⟩ := trans_of_step hs
  have hinv := inv_of_reaches hr
  rcases List.mem_append.mp hres with hres | hres
  · rcases List.mem_append.mp hrej with hrej | hrej
    · exact ih i call url key err hres hrej
    · obtain ⟨-, u, hu, -, hsettled⟩ := hinv.resolved hres
      obtain rfl := List.mem_singleton.mp hrej
      cases htrans with
      | rejected ht hp =>
          obtain rfl := Option.some.inj (ht.symm.trans hu)
          exact hp hsettled
  · obtain rfl := List.mem_singleton.mp hres
    rcases List.mem_append.mp hrej with hrej | hrej
    · obtain ⟨u, hu, hsettled⟩ := hinv.rejected hrej
      cases htrans with
      | resolved ht hp =>
          obtain rfl := Option.some.inj (ht.symm.trans hu)
          exact absurd (hp.symm.trans hsettled) (by simp)
    · exact absurd (List.mem_singleton.mp hrej) (by simp)

theorem writeOnce_history (hr : bucket.Reaches h s) : WriteOnce h where
  key_shape := by
    intro i call url key hmem
    obtain ⟨rfl, t, ht, rfl, -⟩ := (inv_of_reaches hr).resolved hmem
    exact ⟨rfl, count_objectKey ((inv_of_reaches hr).task ht).named.2
      (pathSeparator_notMem_sanitizeFilename _) _⟩
  keys_nodup := keys_nodup_of_reaches hr
  whole := by
    intro h₁ h₂ i call url key heq
    subst heq
    refine hr.since (J := fun h₁ _ _ => .started i call ∈ h₁ ∧ .bodyEnded i ∈ h₁ ∧
      (bodyOf h₁ i).length ≤ call.service.maxBytes) ?_ fun _ hJ _ _ => hJ
    intro h s a s' l₁ l₂ hr' _ hs
    obtain ⟨rfl, rfl, htrans⟩ := trans_of_marked hs
    rw [List.append_nil]
    cases htrans with
    | resolved ht hp =>
        have htask := (inv_of_reaches hr').task ht
        refine ⟨htask.started, htask.ended hp, ?_⟩
        rw [← htask.max]
        exact (htask.body (.inr hp)).2.2
  exclusive := exclusive_of_reaches hr
  existed_iff := by
    intro h₁ h₂ key answer heq
    subst heq
    refine hr.since (J := fun h₁ _ _ => answer = true ↔ ∃ object, Stored h₁ key object) ?_
      fun _ hJ _ _ => hJ
    intro h s a s' l₁ l₂ hr' _ hs
    obtain ⟨rfl, rfl, htrans⟩ := trans_of_marked hs
    rw [List.append_nil]
    cases htrans with
    | existed =>
        rw [Option.isSome_iff_exists]
        exact exists_congr fun object => objects_eq_some_iff hr' key object

/-- **The public bucket is a write-once object store.** Its objects are those of its
history, and a step changes none but by adding one under a free key or deleting one. -/
theorem writeOnce_of_reaches (hr : bucket.Reaches h s) :
    WriteOnce h ∧ (∀ key object, s.objects key = some object ↔ Stored h key object) ∧
      ∀ a s' es, bucket.step s a = some (s', es) → ∀ key, s'.objects key ≠ s.objects key →
        (s.objects key = none ∧ ∃ i call url, es = [.resolved i call url key]) ∨
          (s'.objects key = none ∧ es = [.deleted key]) := by
  refine ⟨writeOnce_history hr, objects_eq_some_iff hr, ?_⟩
  intro a s' es hs key hne
  obtain ⟨e, rfl, htrans⟩ := trans_of_step hs
  rcases htrans.objects (inv_of_reaches hr) key with
    hsame | ⟨hnone, rfl⟩ | ⟨hnone, i, call, url, rfl⟩
  · exact absurd hsame hne
  · exact .inr ⟨hnone, rfl⟩
  · exact .inl ⟨hnone, i, call, url, rfl⟩

end Laws

/-- A report with a separator in its filename, for a binding that takes two bytes. -/
def reportCall : UploadCall where
  service := ⟨.ofString "reports", .ofString "application/pdf", .ofString "https://public/", 2⟩
  filename := .ofString "a/b.pdf"
  uuid := ⟨.ofString "0a1b2c3d-0a1b-4c2d-8e3f-0a1b2c3d4e5f",
    List.all_iff_forall_prop.mp (by decide), by decide⟩

/-- It is uploaded whole, in two chunks. -/
theorem writeOnce_of_reaches_report :
    Stored [.started 0 reportCall, .chunk 0 [1], .chunk 0 [2], .bodyEnded 0,
      .resolved 0 reportCall reportCall.url reportCall.key]
      (.ofString "reports/0a1b2c3d-0a1b-4c2d-8e3f-0a1b2c3d4e5f/a_b.pdf")
      ⟨[1, 2], .ofString "application/pdf"⟩ := by
  have hr : bucket.Reaches _ _ :=
    ((((Machine.Reaches.init.step (a := .upload reportCall) rfl).step (a := .chunk 0 [1]) rfl).step
      (a := .chunk 0 [2]) rfl).step (a := .endBody 0) rfl).step (a := .succeed 0) rfl
  exact ((writeOnce_of_reaches hr).2.1 _ _).mp (by decide)

end EmailPlatform.Storage
