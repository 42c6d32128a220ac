import EmailPlatform.Cache.Namespaces
import EmailPlatform.Js.JsonRoundTrip

/-!
# EmailPlatform.Cache.Codec

**What `set` stores, `get` returns.** The cache service with `JSON` itself in place of its
parameter. A value that `set` takes comes back from `get` as its JSON normal form, and a
schema can only reject that; the exceptions are the values without a text, for which `set`
stores the empty string and `get` finds a corrupt entry (`roundTrips_iff`).

That `JSON.parse` reads every text of `JSON.stringify` is `JSON.parse_stringify`. What is
left to see here is which text the driver sends.
-/

namespace EmailPlatform.Cache

open JSON (Value)

/-- `JSON`, in an engine that writes numbers by `format`. -/
def engineJson (format : NumberFormat) : Json Value JSON.Error where
  parse raw := JSON.parse raw.toList
  stringify v := (JSON.stringify format v).map (Option.map String.ofList)

/-- `JSON.parse(JSON.stringify(v))` is `form`, and this is the normal form of `v`. -/
structure IsNormalForm (format : NumberFormat) (v form : Value) : Prop where
  eq : JSON.normalForm v false = .ok (some form)
  parse_stringify : ∃ text, (engineJson format).stringify v = .ok (some text) ∧
    (engineJson format).parse text = .ok form

/-- What is stored for `v` is read back as its normal form. `ks₀` and `ks₁` are the keyspaces
before and after the `set`; `get` finds under the key what `set` left there. -/
def RoundTrips (I : Type) (format : NumberFormat) (v : Value) : Prop :=
  ∀ (ns key : JsString) (ttlMs : ℤ) (faults faults' : Faults JSON.Error) (ks₀ ks₁ ks : Keyspace),
    0 < ttlMs →
    (set (engineJson format) ns key v ttlMs : Method JSON.Error I Unit).run
      (Redis.execWith faults) ks₀ = (.ok (), ks₁) →
    faults'.get = none → ks (redisKey ns key) = ks₁ (redisKey ns key) →
    ∃ form, IsNormalForm format v form ∧
      ((get (engineJson format) ns key (none : Option (Schema Value I))).run
        (Redis.execWith faults') ks).1 = .ok (.value form) ∧
      ∀ schema : Schema Value I, ∃ result,
        ((get (engineJson format) ns key (some schema)).run (Redis.execWith faults') ks).1 =
          .ok result ∧ result ≠ .absent ∧
            ∀ reason, result = .corrupt reason → ∃ issues, schema.safeParse form = .error issues

variable {I : Type} {format : NumberFormat} {v : Value}

/-- A `get` that finds a string says how it decodes. -/
theorem run_get_of_raw {V E : Type} {json : Json V E} {faults : Faults E} {ns key : JsString}
    {raw : String} {ks : Keyspace} (hget : faults.get = none)
    (hraw : ks (redisKey ns key) = some raw) (schema : Option (Schema V I)) :
    ((get json ns key schema).run (Redis.execWith faults) ks).1 =
      .ok (decode json schema raw) := by
  rw [run_get]
  simp only [hget, hraw, run_getRaw]
  cases decode json schema raw <;> rfl

/-- A `set` that is accepted has stored the argument of its `SET`. -/
theorem stored_of_set {V E : Type} {json : Json V E} {faults : Faults E} {ns key : JsString}
    {value : V} {ttlMs : ℤ} {ks ks' : Keyspace}
    (h : (set json ns key value ttlMs : Method E I Unit).run (Redis.execWith faults) ks =
      (.ok (), ks')) :
    ∃ text, json.stringify value = .ok text ∧ ks' (redisKey ns key) = some (toArg text) := by
  rw [run_set] at h
  cases htext : json.stringify value with
  | error e => simp [htext] at h
  | ok text =>
      cases hf : faults.set with
      | some e => simp [htext, hf] at h
      | none =>
          simp only [htext, hf] at h
          obtain ⟨-, rfl⟩ := Prod.mk.inj h
          exact ⟨text, rfl, Function.update_self _ _ _⟩

/-- A value that can be stored has a text, or is stored as the empty string. -/
theorem stringify_cases {arg : Option String} (h : (engineJson format).stringify v = .ok arg) :
    (v.omitted false = true ∧ arg = none) ∨
      ∃ text, JSON.stringify format v = .ok (some text) ∧ arg = some (String.ofList text) := by
  have hiff := JSON.serialize_eq_none_iff format v false
  simp only [engineJson] at h
  cases htext : JSON.stringify format v with
  | error e =>
      rw [htext] at h
      cases h
  | ok text? =>
      rw [htext] at h
      obtain rfl := Except.ok.inj h
      cases text? with
      | none => exact .inl ⟨hiff.mp htext, rfl⟩
      | some text => exact .inr ⟨text, rfl, rfl⟩

/-- What is stored for a value with a text decodes as its normal form, unless the schema
rejects that. -/
theorem decode_text {text : List Char} (h : JSON.stringify format v = .ok (some text)) :
    ∃ form, IsNormalForm format v form ∧
      decode (engineJson format) (none : Option (Schema Value I)) (String.ofList text) =
        .value form ∧
      ∀ schema : Schema Value I,
        decode (engineJson format) (some schema) (String.ofList text) ≠ .absent ∧
          ∀ reason, decode (engineJson format) (some schema) (String.ofList text) =
            .corrupt reason → ∃ issues, schema.safeParse form = .error issues := by
  obtain ⟨form, hform, hparse⟩ := JSON.parse_stringify h
  have hparse' : (engineJson format).parse (String.ofList text) = .ok form := by
    show JSON.parse (String.ofList text).toList = _
    rw [String.toList_ofList, hparse]
  refine ⟨form, ⟨hform, String.ofList text, by simp only [engineJson, h]; rfl, hparse'⟩, ?_, ?_⟩
  · simp only [decode, hparse']
  · intro schema
    cases hschema : schema.safeParse form with
    | ok data => simp [decode, hparse', hschema]
    | error issues => exact ⟨by simp [decode, hparse', hschema], fun _ _ => ⟨issues, rfl⟩⟩

/-- The empty string is no JSON text. -/
theorem decode_empty (schema : Option (Schema Value I)) :
    decode (engineJson format) schema "" = .corrupt .jsonParse := rfl

/-- A value without a text is stored, and found corrupt. -/
theorem not_roundTrips_of_omitted (I : Type) (format : NumberFormat)
    (homitted : v.omitted false = true) : ¬ RoundTrips I format v := by
  intro hround
  have hnone : (engineJson format).stringify v = .ok none := by
    have htext : JSON.stringify format v = .ok none :=
      (JSON.serialize_eq_none_iff format v false).mpr homitted
    simp only [engineJson, htext]
    rfl
  let faults : Faults JSON.Error := ⟨none, none, none⟩
  have hset : (set (engineJson format) authNs keyK v 1 : Method JSON.Error I Unit).run
      (Redis.execWith faults) (fun _ => none) =
        (.ok (), Function.update (fun _ => none) (redisKey authNs keyK) (some "")) := by
    rw [run_set, hnone]
    rfl
  obtain ⟨form, -, hget, -⟩ := hround authNs keyK 1 faults faults _ _ _ one_pos hset rfl rfl
  rw [run_get_of_raw rfl (Function.update_self _ _ _), decode_empty] at hget
  cases hget

/-- Values come back from the cache exactly when they have a text. -/
theorem roundTrips_iff (I : Type) (format : NumberFormat) (v : Value) :
    RoundTrips I format v ↔ v.omitted false = false := by
  constructor
  · intro hround
    by_contra homitted
    exact not_roundTrips_of_omitted I format (by simpa using homitted) hround
  · intro hkept ns key ttlMs faults faults' ks₀ ks₁ ks _ hset hget hks
    obtain ⟨arg, hstringify, hstored⟩ := stored_of_set hset
    rcases stringify_cases hstringify with ⟨homitted, -⟩ | ⟨text, htext, rfl⟩
    · rw [hkept] at homitted
      cases homitted
    · obtain ⟨form, hform, hvalue, hschema⟩ := decode_text htext
      have hraw := hks.trans hstored
      refine ⟨form, hform, ?_, fun schema => ?_⟩
      · rw [run_get_of_raw hget hraw]
        exact congrArg Except.ok hvalue
      · exact ⟨_, run_get_of_raw hget hraw _, hschema schema⟩

/-- `undefined` is stored and not found again. -/
theorem not_roundTrips_undefined : ¬ RoundTrips Empty anyFormat .undefined :=
  not_roundTrips_of_omitted Empty anyFormat rfl

end EmailPlatform.Cache
