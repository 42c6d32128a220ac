import EmailPlatform.Cache.RedisCacheService

/-!
# EmailPlatform.Cache.Namespaces

**One keyspace, many private maps.** Services with their own namespaces share a Redis.
This module proves that the sharing cannot be observed: a run of their operations on the
shared keyspace is a run, with the same results, of independent maps to strings, one for
each service.

The argument has one fact about strings in it, `redisKey_inj`: a namespace without `:` can
be read off a stored key, so distinct pairs of namespace and text are stored under distinct
keys (`project_update`). The rest is a comparison of each method with what it does to a
private map (`run_program`), carried to whole runs by `Machine.Simulation`.

The maps are indexed by the texts of the keys. Well-formed keys have their own; keys that
differ in lone surrogates only share an entry, which maps indexed by the keys themselves
could not show (`keyspace_collides`).

Any of the commands of an operation may fail; which do is part of the step.
-/

namespace EmailPlatform.Cache

variable {V E I N K : Type*}

/-! ### Private maps

A map with entries of its own, of which `entry` says which one a key names. -/

/-- The map of one service. -/
abbrev PrivateMap (K : Type*) := K → Option String

/-- The commands of an operation that fail, with their errors. -/
structure Faults (E : Type*) where
  get : Option E
  set : Option E
  del : Option E

/-- The result of an operation on a private map, and the map after it. -/
def PrivateMap.apply [DecidableEq K] (json : Json V E) (entry : JsString → K) (faults : Faults E) :
    Op V I → PrivateMap K → Result V E × PrivateMap K
  | .get key schema, m =>
    match faults.get with
    | some e => (.get (.error e), m)
    | none =>
      match m (entry key) with
      | none => (.get (.ok .absent), m)
      | some raw =>
        match decode json schema raw with
        | .corrupt reason =>
          (.get (.ok (.corrupt reason)),
            if faults.del.isNone then Function.update m (entry key) none else m)
        | result => (.get (.ok result), m)
  | .set key value _, m =>
    match json.stringify value with
    | .error e => (.set (.error e), m)
    | .ok text =>
      match faults.set with
      | some e => (.set (.error e), m)
      | none => (.set (.ok ()), Function.update m (entry key) (some (toArg text)))
  | .del key, m =>
    match faults.del with
    | some e => (.del (.error e), m)
    | none => (.del (.ok ()), Function.update m (entry key) none)

/-- The results of a `get` of the entry `k` whose `GET` succeeds, and its effect. -/
structure GetSpec [DecidableEq K] (json : Json V E) (delFault : Option E) (k : K)
    (schema : Option (Schema V I)) (m : PrivateMap K) (result : CacheGetResult V)
    (m' : PrivateMap K) : Prop where
  absent_iff : result = .absent ↔ m k = none
  jsonParse_iff : result = .corrupt .jsonParse ↔
    ∃ raw e, m k = some raw ∧ json.parse raw = .error e
  schemaMismatch_iff : result = .corrupt .schemaMismatch ↔
    ∃ raw parsed sch issues, m k = some raw ∧ json.parse raw = .ok parsed ∧
      schema = some sch ∧ sch.safeParse parsed = .error issues
  value_iff : ∀ value, result = .value value ↔
    ∃ raw parsed, m k = some raw ∧ json.parse raw = .ok parsed ∧
      ((schema = none ∧ parsed = value) ∨
        ∃ sch, schema = some sch ∧ sch.safeParse parsed = .ok value)
  /-- A corrupt entry is removed, and nothing else, when the delete succeeds. -/
  healed : ∀ reason, result = .corrupt reason → delFault = none →
    m' = Function.update m k none
  /-- In all other cases nothing changes. -/
  kept : (∀ reason, result = .corrupt reason → delFault ≠ none) → m' = m

/-- What a caller sees of an operation on a private map, and what the map is after it. -/
inductive Serves [DecidableEq K] (json : Json V E) (entry : JsString → K) (faults : Faults E)
    (m : PrivateMap K) : Op V I → Result V E → PrivateMap K → Prop
  | get {key : JsString} {schema : Option (Schema V I)} {result : CacheGetResult V}
      {m' : PrivateMap K} :
      faults.get = none → GetSpec json faults.del (entry key) schema m result m' →
      Serves json entry faults m (.get key schema) (.get (.ok result)) m'
  | getFails {key : JsString} {schema : Option (Schema V I)} {e : E} :
      faults.get = some e → Serves json entry faults m (.get key schema) (.get (.error e)) m
  | set {key : JsString} {value : V} {ttlMs : Int} {text : Option String} :
      json.stringify value = .ok text → faults.set = none →
      Serves json entry faults m (.set key value ttlMs) (.set (.ok ()))
        (Function.update m (entry key) (some (toArg text)))
  | setFails {key : JsString} {value : V} {ttlMs : Int} {e : E} :
      json.stringify value = .error e ∨ faults.set = some e →
      Serves json entry faults m (.set key value ttlMs) (.set (.error e)) m
  | del {key : JsString} :
      faults.del = none →
      Serves json entry faults m (.del key) (.del (.ok ())) (Function.update m (entry key) none)
  | delFails {key : JsString} {e : E} :
      faults.del = some e → Serves json entry faults m (.del key) (.del (.error e)) m

section Apply

variable [DecidableEq K] (json : Json V E) (entry : JsString → K) (faults : Faults E) (k : K)
  (schema : Option (Schema V I)) {m : PrivateMap K}

theorem getSpec_absent (hm : m k = none) :
    GetSpec json faults.del k schema m .absent m where
  absent_iff := by simp [hm]
  jsonParse_iff := by simp [hm]
  schemaMismatch_iff := by simp [hm]
  value_iff := by simp [hm]
  healed := by simp
  kept _ := rfl

theorem getSpec_present {raw : String} (hm : m k = some raw) {result : CacheGetResult V}
    (hd : Decoded json schema raw result) {m' : PrivateMap K}
    (hhealed : ∀ reason, result = .corrupt reason → faults.del = none →
      m' = Function.update m k none)
    (hkept : (∀ reason, result = .corrupt reason → faults.del ≠ none) → m' = m) :
    GetSpec json faults.del k schema m result m' := by
  refine ⟨?_, ?_, ?_, ?_, hhealed, hkept⟩ <;> cases hd <;> simp [*]

/-- A private map serves every operation as it should. -/
theorem serves_apply (o : Op V I) (m : PrivateMap K) :
    Serves json entry faults m o (m.apply json entry faults o).1
      (m.apply json entry faults o).2 := by
  cases o with
  | get key schema =>
      simp only [PrivateMap.apply]
      cases hf : faults.get with
      | some e => exact .getFails hf
      | none =>
          cases hm : m (entry key) with
          | none => exact .get hf (getSpec_absent json faults (entry key) schema hm)
          | some raw =>
              dsimp only
              have hd := decoded json schema raw
              cases hr : decode json schema raw with
              | absent => cases hr ▸ hd
              | value value =>
                  exact .get hf (getSpec_present json faults (entry key) schema hm (hr ▸ hd)
                    (fun _ h => by cases h) (fun _ => rfl))
              | corrupt reason =>
                  refine .get hf
                    (getSpec_present json faults (entry key) schema hm (hr ▸ hd) ?_ ?_)
                  · intro _ _ hdel
                    simp [hdel]
                  · intro hdel
                    simp [Option.isNone_iff_eq_none, hdel reason rfl]
  | set key value ttlMs =>
      simp only [PrivateMap.apply]
      cases htext : json.stringify value with
      | error e => exact .setFails (.inl htext)
      | ok text =>
          cases hf : faults.set with
          | some e => exact .setFails (.inr hf)
          | none => exact .set htext hf
  | del key =>
      simp only [PrivateMap.apply]
      cases hf : faults.del with
      | some e => exact .delFails hf
      | none => exact .del hf

end Apply

/-- A step of a service, or the expiry of an entry of its map. -/
inductive ServiceEvent (V E I N K : Type*)
  | served (n : N) (o : Op V I) (faults : Faults E) (result : Result V E)
  | expired (n : N) (k : K)

/-- An operation of a service on its own map, or the expiry of an entry in it. -/
inductive ServiceAction (V E I N K : Type*)
  | serve (n : N) (o : Op V I) (faults : Faults E)
  | expire (n : N) (k : K)

/-- Independent maps, one for each service. -/
def privateMaps [DecidableEq N] [DecidableEq K] (json : Json V E) (entry : JsString → K)
    (init : N → PrivateMap K) :
    Machine (N → PrivateMap K) (ServiceAction V E I N K) (ServiceEvent V E I N K) where
  init := init
  step maps
    | .serve n o faults =>
      let (result, m) := (maps n).apply json entry faults o
      some (Function.update maps n m, [.served n o faults result])
    | .expire n k =>
      some (Function.update maps n (Function.update (maps n) k none), [.expired n k])

theorem privateMaps_serve [DecidableEq N] [DecidableEq K] (json : Json V E) (entry : JsString → K)
    (init maps : N → PrivateMap K) (n : N) (o : Op V I) (faults : Faults E) :
    (privateMaps json entry init).step maps (.serve n o faults) =
      some (Function.update maps n ((maps n).apply json entry faults o).2,
        [.served n o faults ((maps n).apply json entry faults o).1]) := rfl

/-- What an entry holds after an erasure it held before. -/
theorem PrivateMap.held_of_erase [DecidableEq K] {m : PrivateMap K} {k k' : K} {raw : String}
    (h : Function.update m k none k' = some raw) : m k' = some raw := by
  by_cases hk : k' = k
  · subst hk
    simp at h
  · rwa [Function.update_of_ne hk] at h

/-- An operation leaves under an entry what was there, or what it has set, or nothing. -/
theorem Serves.entry [DecidableEq K] {json : Json V E} {entry : JsString → K} {faults : Faults E}
    {m m' : PrivateMap K} {o : Op V I} {result : Result V E}
    (h : Serves json entry faults m o result m') {k : K} {raw : String} (hraw : m' k = some raw) :
    m k = some raw ∨ ∃ key value ttlMs, o = .set key value ttlMs ∧ entry key = k := by
  cases h with
  | @get key schema result m' _ hspec =>
      -- a `get` deletes its entry or nothing
      by_cases hkept : ∀ reason, result = .corrupt reason → faults.del ≠ none
      · exact .inl (hspec.kept hkept ▸ hraw)
      · push Not at hkept
        obtain ⟨reason, hresult, hdel⟩ := hkept
        rw [hspec.healed reason hresult hdel] at hraw
        exact .inl (PrivateMap.held_of_erase hraw)
  | getFails | setFails | delFails => exact .inl hraw
  | @set key value ttlMs =>
      by_cases hk : k = entry key
      · exact .inr ⟨key, value, ttlMs, rfl, hk.symm⟩
      · exact .inl (by rwa [Function.update_of_ne hk] at hraw)
  | del => exact .inl (PrivateMap.held_of_erase hraw)

/-- A `get` that returns a value has found a string. -/
theorem Serves.found [DecidableEq K] {json : Json V E} {entry : JsString → K} {faults : Faults E}
    {m m' : PrivateMap K} {key : JsString} {schema : Option (Schema V I)} {value : V}
    (h : Serves json entry faults m (.get key schema) (.get (.ok (.value value))) m') :
    ∃ raw, m (entry key) = some raw := by
  cases h with
  | get _ hspec =>
      obtain ⟨raw, _, hraw, _⟩ := (hspec.value_iff value).mp rfl
      exact ⟨raw, hraw⟩

/-- The entry has been set. -/
def WasSet (entry : JsString → K) (h : List (ServiceEvent V E I N K)) (n : N) (k : K) : Prop :=
  ∃ key value ttlMs faults result,
    .served n (.set key value ttlMs) faults result ∈ h ∧ entry key = k

theorem WasSet.append {entry : JsString → K} {h es : List (ServiceEvent V E I N K)} {n : N}
    {k : K} (hset : WasSet entry h n k) : WasSet entry (h ++ es) n k := by
  obtain ⟨key, value, ttlMs, faults, result, hmem, hk⟩ := hset
  exact ⟨key, value, ttlMs, faults, result, List.mem_append_left _ hmem, hk⟩

/-- What the maps hold and what a `get` has returned was set. -/
structure OnlySet (entry : JsString → K) (h : List (ServiceEvent V E I N K))
    (maps : N → PrivateMap K) : Prop where
  held : ∀ n k raw, maps n k = some raw → WasSet entry h n k
  returned : ∀ n key schema faults value,
    .served n (.get key schema) faults (.get (.ok (.value value))) ∈ h →
      WasSet entry h n (entry key)

theorem OnlySet.step [DecidableEq N] [DecidableEq K] {json : Json V E} {entry : JsString → K}
    {init maps maps' : N → PrivateMap K} {h es : List (ServiceEvent V E I N K)}
    {a : ServiceAction V E I N K} (hset : OnlySet entry h maps)
    (hs : (privateMaps json entry init).step maps a = some (maps', es)) :
    OnlySet entry (h ++ es) maps' := by
  cases a with
  | serve n o faults =>
      have hserves := serves_apply json entry faults o (maps n)
      rw [privateMaps_serve] at hs
      obtain ⟨rfl, rfl⟩ := Prod.mk.inj (Option.some.inj hs)
      refine ⟨fun n' k raw hraw => ?_, fun n' key schema faults' value hmem => ?_⟩
      · by_cases hn : n' = n
        · subst hn
          rw [Function.update_self] at hraw
          rcases hserves.entry hraw with hraw | ⟨key, value, ttlMs, rfl, hk⟩
          · exact (hset.held n' k raw hraw).append
          · exact ⟨key, value, ttlMs, faults, _, List.mem_append_right _ List.mem_cons_self, hk⟩
        · rw [Function.update_of_ne hn] at hraw
          exact (hset.held n' k raw hraw).append
      · rcases List.mem_append.mp hmem with hmem | hmem
        · exact (hset.returned n' key schema faults' value hmem).append
        · -- the `get` is this step: it has found a string
          injection List.mem_singleton.mp hmem with hn ho _ hresult
          subst hn ho
          rw [← hresult] at hserves
          obtain ⟨raw, hraw⟩ := hserves.found
          exact (hset.held n' (entry key) raw hraw).append
  | expire n k =>
      obtain ⟨rfl, rfl⟩ := Prod.mk.inj (Option.some.inj hs)
      refine ⟨fun n' k' raw hraw => (hset.held n' k' raw ?_).append,
        fun n' key schema faults value hmem => ?_⟩
      · by_cases hn : n' = n
        · subst hn
          rw [Function.update_self] at hraw
          exact PrivateMap.held_of_erase hraw
        · rwa [Function.update_of_ne hn] at hraw
      · exact (hset.returned n' key schema faults value
          (mem_of_mem_concat hmem (by simp))).append

/-- Maps that begin empty hold and return what was set. -/
theorem onlySet_of_reaches [DecidableEq N] [DecidableEq K] {json : Json V E}
    {entry : JsString → K} {h : List (ServiceEvent V E I N K)} {maps : N → PrivateMap K}
    (hr : (privateMaps json entry fun _ _ => none).Reaches h maps) : OnlySet entry h maps :=
  Machine.Reaches.invariant ⟨by simp [privateMaps], by simp⟩ (fun _ hset hs => hset.step hs) hr

/-! ### The shared keyspace -/

/-- The fault of a command. -/
def Faults.of (faults : Faults E) : Command → Option E
  | .get _ => faults.get
  | .set _ _ _ => faults.set
  | .del _ => faults.del

/-- One command under the faults of its operation. -/
def Redis.execWith (faults : Faults E) (c : Command) (ks : Keyspace) : Reply E × Keyspace :=
  Redis.exec (faults.of c) c ks

/-- An operation of a service that has been served, or the expiry of a stored key. -/
inductive SharedEvent (V E I N : Type*)
  | served (n : N) (o : Op V I) (faults : Faults E) (result : Result V E)
  | expired (key : RedisKey)

/-- An operation of a service on the shared keyspace, or the expiry of a stored key. -/
inductive SharedAction (V E I N : Type*)
  | serve (n : N) (o : Op V I) (faults : Faults E)
  | expire (key : RedisKey)

/-! ### Namespaces -/

/-- Namespaces without `:` for the services of `N`, which differ as texts. -/
structure Namespaces (N : Type*) where
  name : N → JsString
  text_injective : Function.Injective fun n => (name n).chars
  colon_notMem : ∀ n, ':' ∉ (name n).chars

/-- The entries of each service, by the texts of its keys. -/
def Namespaces.project (ns : Namespaces N) (ks : Keyspace) : N → PrivateMap KeyText :=
  fun n text => ks (redisKey (ns.name n) (.ofChars text))

@[simp] theorem Namespaces.project_chars (ns : Namespaces N) (ks : Keyspace) (n : N)
    (key : JsString) : ns.project ks n key.chars = ks (redisKey (ns.name n) key) :=
  congrArg ks (redisKey_ofChars_chars (ns.name n) key)

/-- A stored key names its service and the text of the service's key. -/
theorem Namespaces.redisKey_inj (ns : Namespaces N) {n n' : N} {key key' : JsString}
    (h : redisKey (ns.name n) key = redisKey (ns.name n') key') :
    n = n' ∧ key.chars = key'.chars := by
  obtain ⟨hname, hkey⟩ :=
    append_cons_inj (ns.colon_notMem n) (ns.colon_notMem n') (redisKey_eq_iff.mp h)
  exact ⟨ns.text_injective hname, hkey⟩

/-- A write under a service's key is a write to its map and to no other. -/
theorem Namespaces.project_update [DecidableEq N] (ns : Namespaces N) (ks : Keyspace) (n : N)
    (key : JsString) (v : Option String) :
    ns.project (Function.update ks (redisKey (ns.name n) key) v) =
      Function.update (ns.project ks) n (Function.update (ns.project ks n) key.chars v) := by
  funext n' text
  by_cases hn : n' = n
  · subst hn
    rw [Function.update_self]
    by_cases htext : text = key.chars
    · subst htext
      simp
    · have hne : redisKey (ns.name n') (.ofChars text) ≠ redisKey (ns.name n') key := fun h =>
        htext (redisKey_ofChars_eq_iff.mp h)
      simp [Namespaces.project, htext, hne]
  · have hne : redisKey (ns.name n') (.ofChars text) ≠ redisKey (ns.name n) key := fun h =>
      hn (ns.redisKey_inj h).1
    simp [Namespaces.project, hn, hne]

/-- The service that owns a stored key, and the text it knows it by. -/
noncomputable def Namespaces.owner? (ns : Namespaces N) (key : RedisKey) : Option (N × KeyText) :=
  open Classical in
  if h : ∃ p : N × KeyText, redisKey (ns.name p.1) (.ofChars p.2) = key then some h.choose
  else none

@[simp] theorem Namespaces.owner?_redisKey (ns : Namespaces N) (n : N) (key : JsString) :
    ns.owner? (redisKey (ns.name n) key) = some (n, key.chars) := by
  have hex : ∃ p : N × KeyText,
      redisKey (ns.name p.1) (.ofChars p.2) = redisKey (ns.name n) key :=
    ⟨(n, key.chars), redisKey_ofChars_chars _ key⟩
  obtain ⟨hn, htext⟩ := ns.redisKey_inj hex.choose_spec
  rw [JsString.chars_ofChars] at htext
  rw [Namespaces.owner?, dif_pos hex]
  exact congrArg some (Prod.ext hn htext)

theorem Namespaces.eq_redisKey_of_owner? (ns : Namespaces N) {key : RedisKey} {p : N × KeyText}
    (h : ns.owner? key = some p) : key = redisKey (ns.name p.1) (.ofChars p.2) := by
  unfold Namespaces.owner? at h
  split at h
  · next hex =>
    cases h
    exact hex.choose_spec.symm
  · cases h

/-- Keys of no service are seen by none. -/
theorem Namespaces.project_update_of_ownerless (ns : Namespaces N) {key : RedisKey}
    (h : ns.owner? key = none) (ks : Keyspace) (v : Option String) :
    ns.project (Function.update ks key v) = ns.project ks := by
  funext n text
  have hne : redisKey (ns.name n) (.ofChars text) ≠ key := by
    intro heq
    subst heq
    simp at h
  simp [Namespaces.project, hne]

/-- The services `ns` over one keyspace, one operation after the other. -/
def services (json : Json V E) (ns : Namespaces N) (ks₀ : Keyspace) :
    Machine Keyspace (SharedAction V E I N) (SharedEvent V E I N) where
  init := ks₀
  step ks
    | .serve n o faults =>
      let (result, ks) := (o.program json (ns.name n)).run (Redis.execWith faults) ks
      some (ks, [.served n o faults result])
    | .expire key => some (Redis.expire key ks, [.expired key])

/-! ### The methods alone -/

section Methods

variable {json : Json V E} {faults : Faults E} {ns key : JsString} {ks : Keyspace}

theorem run_del (ks : Keyspace) :
    (del ns key : Method E I Unit).run (Redis.execWith faults) ks =
      match faults.del with
      | some e => (.error e, ks)
      | none => (.ok (), Function.update ks (redisKey ns key) none) := by
  cases hf : faults.del <;> simp [del, Redis.execWith, Redis.exec, Faults.of, hf]

/-- A self-healing `get` reports the corruption whether or not its delete fails. -/
theorem run_selfHeal (reason : CorruptReason) (ks : Keyspace) :
    (selfHeal ns key reason : Method E I (CacheGetResult V)).run (Redis.execWith faults) ks =
      (.ok (.corrupt reason),
        if faults.del.isNone then Function.update ks (redisKey ns key) none else ks) := by
  cases hf : faults.del <;> simp [selfHeal, Program.run_bind, run_del, hf]

theorem run_set (value : V) (ttlMs : Int) (ks : Keyspace) :
    (set json ns key value ttlMs : Method E I Unit).run (Redis.execWith faults) ks =
      match json.stringify value with
      | .error e => (.error e, ks)
      | .ok text =>
        match faults.set with
        | some e => (.error e, ks)
        | none => (.ok (), Function.update ks (redisKey ns key) (some (toArg text))) := by
  cases htext : json.stringify value with
  | error e => simp [set, htext]
  | ok text =>
      cases hf : faults.set <;> simp [set, htext, Redis.execWith, Redis.exec, Faults.of, hf]

theorem run_getRaw (schema : Option (Schema V I)) (raw : String) (ks : Keyspace) :
    (getRaw json ns key schema raw).run (Redis.execWith faults) ks =
      match decode json schema raw with
      | .corrupt reason =>
        (.ok (.corrupt reason),
          if faults.del.isNone then Function.update ks (redisKey ns key) none else ks)
      | result => (.ok result, ks) := by
  rcases getRaw_cases json ns key schema raw with ⟨reason, hd, line, hraw⟩ | ⟨value, hd, hraw⟩
  · rw [hraw, hd, Program.run_log, run_selfHeal]
  · rw [hraw, hd, Program.run_done]

theorem run_get (schema : Option (Schema V I)) (ks : Keyspace) :
    (get json ns key schema).run (Redis.execWith faults) ks =
      match faults.get with
      | some e => (.error e, ks)
      | none =>
        match ks (redisKey ns key) with
        | none => (.ok .absent, ks)
        | some raw => (getRaw json ns key schema raw).run (Redis.execWith faults) ks := by
  cases hf : faults.get with
  | some e => simp [get, Redis.execWith, Redis.exec, Faults.of, hf]
  | none =>
      cases hk : ks (redisKey ns key) <;>
        simp [get, Redis.execWith, Redis.exec, Faults.of, hf, hk]

/-- An operation touches only keys of its own namespace. -/
theorem run_program_frame (o : Op V I) (ks : Keyspace) {k : RedisKey}
    (hk : ∀ key, k ≠ redisKey ns key) :
    ((o.program json ns).run (Redis.execWith faults) ks).2 k = ks k := by
  cases o with
  | get key schema =>
      simp only [Op.program, Program.run_map, run_get, run_getRaw]
      cases faults.get with
      | some e => rfl
      | none =>
          cases ks (redisKey ns key) with
          | none => rfl
          | some raw =>
              dsimp only
              cases decode json schema raw with
              | absent | value => rfl
              | corrupt reason => cases faults.del <;> simp [hk]
  | set key value ttlMs =>
      simp only [Op.program, Program.run_map, run_set]
      cases json.stringify value with
      | error e => rfl
      | ok text => cases faults.set <;> simp [hk]
  | del key =>
      simp only [Op.program, Program.run_map, run_del]
      cases faults.del <;> simp [hk]

end Methods

/-! ### Refinement -/

section Refinement

variable [DecidableEq N] {json : Json V E} {ns : Namespaces N} {ks₀ : Keyspace}

/-- An operation of a service does to the services' maps what it does to its own. -/
theorem run_program (json : Json V E) (ns : Namespaces N) (n : N) (o : Op V I)
    (faults : Faults E) (ks : Keyspace) :
    ((o.program json (ns.name n)).run (Redis.execWith faults) ks).1 =
        ((ns.project ks n).apply json JsString.chars faults o).1 ∧
      ns.project ((o.program json (ns.name n)).run (Redis.execWith faults) ks).2 =
        Function.update (ns.project ks) n
          ((ns.project ks n).apply json JsString.chars faults o).2 := by
  cases o with
  | get key schema =>
      simp only [Op.program, Program.run_map, run_get, PrivateMap.apply]
      cases faults.get with
      | some e => simp
      | none =>
          cases hm : ks (redisKey (ns.name n) key) with
          | none => simp [hm]
          | some raw =>
              simp only [run_getRaw, Namespaces.project_chars, hm]
              cases decode json schema raw with
              | absent => simp
              | value v => simp
              -- the entry goes exactly when the `DEL` succeeds
              | corrupt reason => cases faults.del <;> simp [ns.project_update]
  | set key value ttlMs =>
      simp only [Op.program, Program.run_map, run_set, PrivateMap.apply]
      cases json.stringify value with
      | error e => simp
      | ok text =>
          cases faults.set with
          | some e => simp
          | none => simp [ns.project_update]
  | del key =>
      simp only [Op.program, Program.run_map, run_del, PrivateMap.apply]
      cases faults.del with
      | some e => simp
      | none => simp [ns.project_update]

/-- What a step on the shared keyspace is to the services. -/
noncomputable def SharedEvent.service? (ns : Namespaces N) :
    SharedEvent V E I N → Option (ServiceEvent V E I N KeyText)
  | .served n o faults result => some (.served n o faults result)
  | .expired key => (ns.owner? key).map fun p => .expired p.1 p.2

/-- The shared keyspace simulates the private maps. -/
noncomputable def refinement (json : Json V E) (ns : Namespaces N) (ks₀ : Keyspace) :
    Machine.Simulation (services (I := I) json ns ks₀) (fun _ _ _ => True)
      (privateMaps (I := I) json JsString.chars (ns.project ks₀)) (fun _ _ _ => True) where
  abs := ns.project
  out := SharedEvent.service? ns
  abs_init := rfl
  abs_step := by
    intro h ks a ks' es _ _ hs
    cases a with
    | serve n o faults =>
        cases hs
        obtain ⟨hresult, hmaps⟩ := run_program json ns n o faults ks
        -- the same operation on the service's own map
        refine .inr ⟨.serve n o faults, trivial, ?_⟩
        simp [privateMaps, SharedEvent.service?, hresult, hmaps]
    | expire key =>
        cases hs
        cases howner : ns.owner? key with
        | none =>
            -- a key of no service: nobody sees it go
            exact .inl ⟨ns.project_update_of_ownerless howner ks none,
              by simp [SharedEvent.service?, howner]⟩
        | some p =>
            obtain ⟨n, text⟩ := p
            obtain rfl := ns.eq_redisKey_of_owner? howner
            refine .inr ⟨.expire n text, trivial, ?_⟩
            simp [privateMaps, SharedEvent.service?, Redis.expire, ns.project_update,
              JsString.chars_ofChars]

/-- The shared keyspace refines private maps. A run of the services is, with the same
results, a run of independent maps; in every keyspace it reaches each operation of each
service is served as its private map demands and changes no key of another namespace; and
well-formed keys have entries of their own. -/
theorem keyspace_refines {h : List (SharedEvent V E I N)} {ks : Keyspace}
    (hr : (services json ns ks₀).Reaches h ks) :
    (privateMaps json JsString.chars (ns.project ks₀)).Reaches
        (h.filterMap (SharedEvent.service? ns)) (ns.project ks) ∧
      (∀ (n : N) (o : Op V I) (faults : Faults E), ∃ result ks',
        (services json ns ks₀).step ks (.serve n o faults) =
          some (ks', [.served n o faults result]) ∧
        Serves json JsString.chars faults (ns.project ks n) o result (ns.project ks' n) ∧
        ∀ k, (∀ key, k ≠ redisKey (ns.name n) key) → ks' k = ks k) ∧
      ∀ key key' : JsString, key.isWellFormed = true → key'.isWellFormed = true →
        key.chars = key'.chars → key = key' := by
  refine ⟨(refinement json ns ks₀).reachesWhen hr, ?_, fun _ _ => JsString.chars_inj⟩
  intro n o faults
  obtain ⟨hresult, hmaps⟩ := run_program json ns n o faults ks
  refine ⟨_, _, rfl, ?_, fun k hk => run_program_frame o ks hk⟩
  rw [hresult, hmaps, Function.update_self]
  exact serves_apply json JsString.chars faults o (ns.project ks n)

end Refinement

/-! ### The services of the platform -/

/-- The apps that bind a namespace. -/
inductive ServiceId
  | audience
  | auth
  | sender
  | parser
  | gateway
  | notifier
  deriving DecidableEq

/-- `SERVICE[…].id`. -/
def ServiceId.id : ServiceId → String
  | .audience => "audience"
  | .auth => "auth"
  | .sender => "sender"
  | .parser => "parser"
  | .gateway => "gateway"
  | .notifier => "notifier"

/-- The namespaces that the apps pass. -/
def serviceNamespaces : Namespaces ServiceId where
  name n := .ofString n.id
  text_injective := by
    intro n n' h
    cases n <;> cases n' <;> first | rfl | exact absurd h (by decide)
  colon_notMem := by
    intro n
    cases n <;> decide

/-- No command fails. -/
def noFaults : Faults Unit := ⟨none, none, none⟩

/-- One service sets a key, another does not see it. -/
theorem keyspace_refines_auth_sender :
    ∃ ks, (services boolJson serviceNamespaces fun _ => none).Reaches
        [.served .auth (.set keyK true 1000 : Op Bool Unit) noFaults (.set (.ok ())),
          .served .sender (.get keyK none) noFaults (.get (.ok .absent))] ks ∧
      (privateMaps boolJson JsString.chars fun _ _ => none).Reaches
        [.served .auth (.set keyK true 1000 : Op Bool Unit) noFaults (.set (.ok ())),
          .served .sender (.get keyK none) noFaults (.get (.ok .absent))]
        (serviceNamespaces.project ks) := by
  have hr := ((Machine.Reaches.init (M := services boolJson serviceNamespaces fun _ => none)).step
    (a := .serve .auth (.set keyK true 1000 : Op Bool Unit) noFaults) rfl).step
    (a := .serve .sender (.get keyK none) noFaults) rfl
  exact ⟨_, hr, (keyspace_refines hr).1⟩

/-- One key is set, another is read; they differ in a lone surrogate. -/
def collision {K : Type*} : List (ServiceEvent Bool Unit Unit ServiceId K) :=
  [.served .auth (.set [0xD800] true 1000) noFaults (.set (.ok ())),
    .served .auth (.get [0xD801] none) noFaults (.get (.ok (.value true)))]

/-- Keys with lone surrogates share an entry: a service finds under one key what it has set
under another, which no maps with an entry for every key do. -/
theorem keyspace_collides :
    (∃ h ks, (services boolJson serviceNamespaces fun _ => none).Reaches h ks ∧
      h.filterMap (SharedEvent.service? serviceNamespaces) = collision) ∧
    ∀ maps, ¬ (privateMaps boolJson id fun _ _ => none).Reaches collision maps := by
  constructor
  · exact ⟨_, _, ((Machine.Reaches.init
      (M := services boolJson serviceNamespaces fun _ => none)).step
        (a := .serve .auth (.set [0xD800] true 1000 : Op Bool Unit) noFaults) rfl).step
        (a := .serve .auth (.get [0xD801] none) noFaults) rfl, rfl⟩
  · intro maps hr
    obtain ⟨key, value, ttlMs, faults, result, hmem, rfl⟩ :=
      (onlySet_of_reaches hr).returned .auth [0xD801] none noFaults true
        (List.mem_cons_of_mem _ List.mem_cons_self)
    simp [collision] at hmem

end EmailPlatform.Cache
