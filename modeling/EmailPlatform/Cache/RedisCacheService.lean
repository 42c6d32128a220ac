import EmailPlatform.Core.Program
import EmailPlatform.Js.Utf16
import EmailPlatform.Url.Percent
import Mathlib.Logic.Function.Basic

/-!
# EmailPlatform.Cache.RedisCacheService

**The cache service.** `get`, `set` and `del` of `RedisCacheService` as programs of
Redis commands. What stands between two commands of one call is synchronous, so a
program has exactly the points at which another client's command can fall.

`JSON` and the schemas are parameters: nothing is assumed of how a value is encoded or
of what a schema accepts.

A caller's key is any JavaScript string, a key of Redis is bytes. The driver writes strings in
UTF-8, which has no lone surrogates, so all that Redis sees of a key is its text
(`redisKey_eq_iff`). The strings under the keys are JSON texts, in which `JSON.stringify` leaves
no lone surrogate, or what the driver makes of the bytes it finds; they are `String`s.
-/

namespace EmailPlatform.Cache

variable {V E I : Type*}

/-- `JSON.parse` and `JSON.stringify`. `stringify` gives no text for `undefined` and for
functions, and throws on a cycle. -/
structure Json (V E : Type*) where
  parse : String → Except E V
  stringify : V → Except E (Option String)

/-- A zod schema by its `safeParse`, which reports issues and does not throw. -/
structure Schema (V I : Type*) where
  safeParse : V → Except I V

/-- Why a stored string is not a value of the requested shape. -/
inductive CorruptReason
  | jsonParse
  | schemaMismatch
  deriving DecidableEq

/-- `CacheGetResult`. -/
inductive CacheGetResult (V : Type*)
  | absent
  | corrupt (reason : CorruptReason)
  | value (value : V)
  deriving DecidableEq

/-! ### Redis -/

/-- A key of Redis. -/
abbrev RedisKey := List UInt8

/-- The commands the service issues. -/
inductive Command
  | get (key : RedisKey)
  | set (key : RedisKey) (value : String) (ttlMs : Int)
  | del (key : RedisKey)
  deriving DecidableEq

/-- A reply is an error or, for `GET`, the string under the key. The service looks at
no other reply, so `SET` and `DEL` answer `none`. -/
abbrev Reply (E : Type*) := Except E (Option String)

/-- The strings that Redis holds. -/
abbrev Keyspace := RedisKey → Option String

/-- One command: with a fault it is answered by the error and changes nothing. -/
def Redis.exec (fault : Option E) : Command → Keyspace → Reply E × Keyspace
  | c, ks =>
    match fault with
    | some e => (.error e, ks)
    | none =>
      match c with
      | .get key => (.ok (ks key), ks)
      | .set key value _ => (.ok none, Function.update ks key (some value))
      | .del key => (.ok none, Function.update ks key none)

/-- What a command does, by its reply. -/
inductive Redis.Trans (ks : Keyspace) : Command → Reply E → Keyspace → Prop
  | fault (c : Command) (e : E) : Trans ks c (.error e) ks
  | get (key : RedisKey) : Trans ks (.get key) (.ok (ks key)) ks
  | set (key : RedisKey) (value : String) (ttlMs : Int) :
      Trans ks (.set key value ttlMs) (.ok none) (Function.update ks key (some value))
  | del (key : RedisKey) : Trans ks (.del key) (.ok none) (Function.update ks key none)

theorem Redis.trans_of_exec {fault : Option E} {c : Command} {ks ks' : Keyspace} {r : Reply E}
    (h : Redis.exec fault c ks = (r, ks')) : Redis.Trans ks c r ks' := by
  cases fault with
  | some e =>
      cases h
      exact .fault c e
  | none =>
      cases c with
      | get key =>
          cases h
          exact .get key
      | set key value ttlMs =>
          cases h
          exact .set key value ttlMs
      | del key =>
          cases h
          exact .del key

/-- The time to live of a key is over. -/
def Redis.expire (key : RedisKey) (ks : Keyspace) : Keyspace := Function.update ks key none

/-! ### Logging -/

/-- The levels that the cache logs at. -/
inductive Level
  | warn
  | error
  deriving DecidableEq

/-- The second field of a log line, under the name the service gives it. -/
inductive Detail (E I : Type*)
  | err (err : E)
  | delErr (delErr : E)
  | issues (issues : I)
  deriving DecidableEq

/-- A call of the logger: the key of the entry, what is wrong with it, and the message. -/
structure LogLine (E I : Type*) where
  level : Level
  key : JsString
  detail : Detail E I
  message : String
  deriving DecidableEq

/-! ### The service -/

section Service

variable (json : Json V E) (ns : JsString)

/-- `prefixKey`, with the prefix `ns:` of the constructor. -/
def prefixKey (key : JsString) : JsString := ns ++ .ofString ":" ++ key

/-- `prefixKey(key)` as the argument of a command: in UTF-8, with U+FFFD for each lone
surrogate. -/
def redisKey (key : JsString) : RedisKey := Url.utf8Bytes (prefixKey ns key).chars

/-- An asynchronous method of the service: it rejects with an `E` or resolves. -/
abbrev Method (E I A : Type*) := Program Command (Reply E) (LogLine E I) (Except E A)

/-- `RedisCacheService.del` -/
def del (key : JsString) : Method E I Unit :=
  .call (.del (redisKey ns key)) fun
    | .ok _ => .done (.ok ())
    | .error e => .done (.error e)

/-- The text of a `SET` argument: the driver sends `undefined` as the empty string. -/
def toArg (text : Option String) : String := text.getD ""

/-- `RedisCacheService.set` -/
def set (key : JsString) (value : V) (ttlMs : Int) : Method E I Unit :=
  match json.stringify value with
  -- thrown before any command is sent
  | .error e => .done (.error e)
  | .ok text =>
    .call (.set (redisKey ns key) (toArg text) ttlMs) fun
      | .ok _ => .done (.ok ())
      | .error e => .done (.error e)

/-- Both corrupt branches of `get`: `del`, whose failure is only logged, then the
result. -/
def selfHeal (key : JsString) (reason : CorruptReason) : Method E I (CacheGetResult V) :=
  (del ns key).bind fun
    | .ok () => .done (.ok (.corrupt reason))
    | .error delErr =>
      .log ⟨.error, prefixKey ns key, .delErr delErr,
        "cache: self-heal del() failed; corrupt entry persists"⟩
        (.done (.ok (.corrupt reason)))

/-- `get` once Redis has answered with a string. -/
def getRaw (key : JsString) (schema : Option (Schema V I)) (raw : String) :
    Method E I (CacheGetResult V) :=
  match json.parse raw with
  | .error err =>
    .log ⟨.error, prefixKey ns key, .err err, "cache: JSON.parse failed; deleting corrupt entry"⟩
      (selfHeal ns key .jsonParse)
  | .ok parsed =>
    match schema with
    | none => .done (.ok (.value parsed))
    | some schema =>
      match schema.safeParse parsed with
      | .error issues =>
        .log ⟨.warn, prefixKey ns key, .issues issues,
          "cache: schema mismatch; deleting corrupt entry"⟩
          (selfHeal ns key .schemaMismatch)
      | .ok data => .done (.ok (.value data))

/-- `RedisCacheService.get` -/
def get (key : JsString) (schema : Option (Schema V I)) : Method E I (CacheGetResult V) :=
  .call (.get (redisKey ns key)) fun
    | .error e => .done (.error e)
    | .ok none => .done (.ok .absent)
    | .ok (some raw) => getRaw json ns key schema raw

end Service

/-! ### Keys on the wire -/

theorem chars_prefixKey (ns key : JsString) :
    (prefixKey ns key).chars = ns.chars ++ ':' :: key.chars := by
  have hcolon : prefixKey ns key = ns ++ 0x3A :: key := by
    rw [prefixKey, List.append_assoc]
    rfl
  rw [hcolon, JsString.chars_append_cons rfl]
  rfl

/-- Redis tells two keys apart by their texts. -/
theorem redisKey_eq_iff {ns ns' key key' : JsString} :
    redisKey ns key = redisKey ns' key' ↔
      ns.chars ++ ':' :: key.chars = ns'.chars ++ ':' :: key'.chars := by
  rw [redisKey, redisKey, chars_prefixKey, chars_prefixKey]
  exact ⟨Url.utf8Bytes_injective, fun h => congrArg Url.utf8Bytes h⟩

theorem redisKey_right_iff {ns key key' : JsString} :
    redisKey ns key = redisKey ns key' ↔ key.chars = key'.chars := by
  rw [redisKey_eq_iff, List.append_cancel_left_eq, List.cons.injEq]
  exact and_iff_right rfl

/-- The text of a caller's key, by which its entry is known. -/
abbrev KeyText := List Char

/-- A key and its text are one to Redis. -/
@[simp] theorem redisKey_ofChars_chars (ns key : JsString) :
    redisKey ns (.ofChars key.chars) = redisKey ns key :=
  redisKey_right_iff.mpr (JsString.chars_ofChars _)

theorem redisKey_ofChars_eq_iff {ns key : JsString} {text : KeyText} :
    redisKey ns (.ofChars text) = redisKey ns key ↔ text = key.chars := by
  rw [redisKey_right_iff, JsString.chars_ofChars]

/-! ### Operations

A caller's operation with all its arguments, and its outcome. -/

/-- A call of one of the methods. -/
inductive Op (V I : Type*)
  | get (key : JsString) (schema : Option (Schema V I))
  | set (key : JsString) (value : V) (ttlMs : Int)
  | del (key : JsString)

/-- What a call resolves with, or the error that it rejects with. -/
inductive Result (V E : Type*)
  | get (result : Except E (CacheGetResult V))
  | set (result : Except E Unit)
  | del (result : Except E Unit)

/-- The method call an operation stands for. -/
def Op.program (json : Json V E) (ns : JsString) :
    Op V I → Program Command (Reply E) (LogLine E I) (Result V E)
  | .get key schema => (Cache.get json ns key schema).map .get
  | .set key value ttlMs => (Cache.set json ns key value ttlMs).map .set
  | .del key => (Cache.del ns key).map .del

/-! ### What a stored string means -/

/-- How `get` reads a string: as a value, or as corrupt. -/
def decode (json : Json V E) (schema : Option (Schema V I)) (raw : String) : CacheGetResult V :=
  match json.parse raw with
  | .error _ => .corrupt .jsonParse
  | .ok parsed =>
    match schema with
    | none => .value parsed
    | some schema =>
      match schema.safeParse parsed with
      | .error _ => .corrupt .schemaMismatch
      | .ok data => .value data

/-- The four ways to decode a string. -/
inductive Decoded (json : Json V E) (schema : Option (Schema V I)) (raw : String) :
    CacheGetResult V → Prop
  | jsonParse {e : E} : json.parse raw = .error e → Decoded json schema raw (.corrupt .jsonParse)
  | unchecked {parsed : V} :
      json.parse raw = .ok parsed → schema = none → Decoded json schema raw (.value parsed)
  | schemaMismatch {parsed : V} {sch : Schema V I} {issues : I} :
      json.parse raw = .ok parsed → schema = some sch → sch.safeParse parsed = .error issues →
      Decoded json schema raw (.corrupt .schemaMismatch)
  | checked {parsed data : V} {sch : Schema V I} :
      json.parse raw = .ok parsed → schema = some sch → sch.safeParse parsed = .ok data →
      Decoded json schema raw (.value data)

theorem decoded (json : Json V E) (schema : Option (Schema V I)) (raw : String) :
    Decoded json schema raw (decode json schema raw) := by
  unfold decode
  cases hp : json.parse raw with
  | error e => exact .jsonParse hp
  | ok parsed =>
      cases schema with
      | none => exact .unchecked hp rfl
      | some sch =>
          cases hs : sch.safeParse parsed with
          | error issues => simpa [hs] using Decoded.schemaMismatch hp rfl hs
          | ok data => simpa [hs] using Decoded.checked hp rfl hs

/-- JSON restricted to booleans. -/
def boolJson : Json Bool Unit where
  parse raw :=
    if raw = "true" then .ok true else if raw = "false" then .ok false else .error ()
  stringify b := .ok (some (if b then "true" else "false"))

/-- The namespace of `auth`. -/
def authNs : JsString := .ofString "auth"

/-- The key of the runs that stand beside the theorems. -/
def keyK : JsString := .ofString "k"

/-- `getRaw` does what `decode` says, deleting what is corrupt. -/
theorem getRaw_cases (json : Json V E) (ns key : JsString) (schema : Option (Schema V I))
    (raw : String) :
    (∃ reason, decode json schema raw = .corrupt reason ∧
      ∃ line, getRaw json ns key schema raw = .log line (selfHeal ns key reason)) ∨
    ∃ value, decode json schema raw = .value value ∧
      getRaw json ns key schema raw = .done (.ok (.value value)) := by
  unfold decode getRaw
  split
  · exact .inl ⟨_, rfl, _, rfl⟩
  · split
    · exact .inr ⟨_, rfl, rfl⟩
    · split
      · exact .inl ⟨_, rfl, _, rfl⟩
      · exact .inr ⟨_, rfl, rfl⟩

/-! ### What an operation can issue -/

/-- The next command of an operation after the commands and replies so far. -/
inductive Issues (json : Json V E) (ns : JsString) :
    Op V I → List (Command × Reply E) → Command → Prop
  | get (key : JsString) (schema : Option (Schema V I)) :
      Issues json ns (.get key schema) [] (.get (redisKey ns key))
  /-- The delete of a `get` that read a corrupt string. -/
  | heal {key : JsString} {raw : String} {schema : Option (Schema V I)} {reason : CorruptReason} :
      decode json schema raw = .corrupt reason →
      Issues json ns (.get key schema) [(.get (redisKey ns key), .ok (some raw))]
        (.del (redisKey ns key))
  | set {key : JsString} {value : V} {ttlMs : Int} {text : Option String} :
      json.stringify value = .ok text →
      Issues json ns (.set key value ttlMs) [] (.set (redisKey ns key) (toArg text) ttlMs)
  | del (key : JsString) : Issues json ns (.del key) [] (.del (redisKey ns key))

section Issues

open Program

variable {json : Json V E} {ns key : JsString} {l : List (Command × Reply E)} {c : Command}
  {k : Reply E → Program Command (Reply E) (LogLine E I) (Result V E)}

theorem issues_get {schema : Option (Schema V I)}
    (h : Path ((Op.get key schema).program json ns) l (.call c k)) :
    Issues json ns (.get key schema) l c := by
  cases l with
  | nil =>
      cases path_nil_iff.mp h
      exact .get key schema
  | cons d l =>
      obtain ⟨d, r⟩ := d
      obtain ⟨k₁, hk₁, hl⟩ := path_cons_iff.mp h
      cases hk₁
      -- only the reply with a string leads to another command
      rcases r with e | _ | raw
      · exact absurd hl (not_path_of_done rfl)
      · exact absurd hl (not_path_of_done rfl)
      · rcases getRaw_cases json ns key schema raw with ⟨reason, hd, line, hraw⟩ | ⟨_, _, hraw⟩
        · simp only [hraw] at hl
          obtain ⟨rfl, rfl⟩ := hl.of_last rfl fun r => by
            cases r with
            | error e => exact ⟨_, rfl⟩
            | ok a => exact ⟨_, rfl⟩
          exact .heal hd
        · simp only [hraw] at hl
          exact absurd hl (not_path_of_done rfl)

theorem issues_set {value : V} {ttlMs : Int}
    (h : Path ((Op.set key value ttlMs : Op V I).program json ns) l (.call c k)) :
    Issues json ns (.set key value ttlMs : Op V I) l c := by
  simp only [Op.program, Cache.set] at h
  cases htext : json.stringify value with
  | error e =>
      simp only [htext] at h
      exact absurd h (not_path_of_done rfl)
  | ok text =>
      simp only [htext] at h
      obtain ⟨rfl, rfl⟩ := h.of_last rfl fun r => by
        cases r with
        | error e => exact ⟨_, rfl⟩
        | ok a => exact ⟨_, rfl⟩
      exact .set htext

theorem issues_del (h : Path ((Op.del key : Op V I).program json ns) l (.call c k)) :
    Issues json ns (.del key : Op V I) l c := by
  obtain ⟨rfl, rfl⟩ := h.of_last rfl fun r => by
    cases r with
    | error e => exact ⟨_, rfl⟩
    | ok a => exact ⟨_, rfl⟩
  exact .del key

theorem issues_of_path {o : Op V I} (h : Path (o.program json ns) l (.call c k)) :
    Issues json ns o l c := by
  cases o with
  | get key schema => exact issues_get h
  | set key value ttlMs => exact issues_set h
  | del key => exact issues_del h

end Issues

end EmailPlatform.Cache
