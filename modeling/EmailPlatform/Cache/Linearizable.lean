import EmailPlatform.Cache.Concurrency
import EmailPlatform.Core.AtomicObject

/-!
# EmailPlatform.Cache.Linearizable

**The cache is an atomic map that forgets.** Clients interleave command by command, a corrupt
`get` reads with one command and deletes with another, keys expire and commands fail. Still every
operation of `RedisCacheService` takes effect in one step, at its first command; what the
self-healing delete takes away later, and from whom, is what a cache may lose at any time
(`cache_linearizable`).
-/

namespace EmailPlatform.Cache

open Program

variable {V E I : Type*}

/-- The strings of a cache, by the texts of its callers' keys. -/
abbrev Entries := KeyText → Option String

/-- The entries of one namespace. -/
def entries (ns : JsString) (ks : Keyspace) : Entries :=
  fun text => ks (redisKey ns (.ofChars text))

/-- What an operation does in one step. With a fault its command fails. -/
def Op.effect (json : Json V E) (fault : Option E) : Op V I → Entries → Result V E × Entries
  | .get key schema, m =>
    match fault, m key.chars with
    | some e, _ => (.get (.error e), m)
    | none, none => (.get (.ok .absent), m)
    | none, some raw => (.get (.ok (decode json schema raw)), m)
  | .set key value _, m =>
    match json.stringify value, fault with
    | .error e, _ | .ok _, some e => (.set (.error e), m)
    | .ok text, none => (.set (.ok ()), Function.update m key.chars (some (toArg text)))
  | .del key, m =>
    match fault with
    | some e => (.del (.error e), m)
    | none => (.del (.ok ()), Function.update m key.chars none)

/-- An entry is lost: it expires, or a `get` heals it. -/
def Entries.lose (text : KeyText) (m : Entries) : Entries := Function.update m text none

/-- The cache as its callers may think of it: one step for each operation, on a map that may
lose an entry at any time. -/
def lossyCache (json : Json V E) (m₀ : Entries) :
    Machine (CallState Entries (Op V I) (Result V E)) (CallAction (Op V I) (Option E) KeyText)
      (CallEvent (Op V I) (Result V E)) :=
  atomicObject (Op.effect json) Entries.lose m₀

/-- The self-healing delete of a key. -/
def IsHeal (ns : JsString) (c : Command) : Prop := ∃ key, c = .del (redisKey ns key)

section

variable {json : Json V E} {ns : JsString}

/-- The entry of a key is what Redis has under it. -/
@[simp] theorem entries_chars (key : JsString) (ks : Keyspace) :
    entries ns ks key.chars = ks (redisKey ns key) :=
  congrArg ks (redisKey_ofChars_chars ns key)

/-- One entry of the namespace is written. -/
theorem entries_update (key : JsString) (v : Option String) (ks : Keyspace) :
    entries ns (Function.update ks (redisKey ns key) v) =
      Function.update (entries ns ks) key.chars v := by
  funext text
  by_cases htext : text = key.chars
  · subst htext
    simp
  · have hne : redisKey ns (.ofChars text) ≠ redisKey ns key := fun heq =>
      htext (redisKey_ofChars_eq_iff.mp heq)
    simp [entries, Function.update_of_ne htext, Function.update_of_ne hne]

/-- A corrupt `get` is decided before its delete. -/
theorem decided_selfHeal (key : JsString) (reason : CorruptReason) :
    Decided (IsHeal ns) (Result.get (.ok (.corrupt reason)))
      ((selfHeal ns key reason : Method E I (CacheGetResult V)).map Result.get) := by
  refine .call ⟨key, rfl⟩ fun r => ?_
  cases r with
  | ok a => exact .done
  | error e => exact .log .done

/-- A `get` is decided by what it has read. -/
theorem decided_getRaw (key : JsString) (schema : Option (Schema V I)) (raw : String) :
    Decided (IsHeal ns) (Result.get (.ok (decode json schema raw)))
      ((getRaw json ns key schema raw : Method E I (CacheGetResult V)).map Result.get) := by
  rcases getRaw_cases json ns key schema raw with ⟨reason, hd, line, hraw⟩ | ⟨value, hd, hraw⟩
  · rw [hd, hraw]
    exact .log (decided_selfHeal key reason)
  · rw [hd, hraw]
    exact .done

/-- The first command of an operation is the operation. -/
theorem firstDecides (json : Json V E) (ns : JsString) :
    FirstDecides (Op.program json ns : Op V I → _) Redis.exec Redis.expire (entries ns)
      (Op.effect json) Entries.lose (IsHeal ns) where
  silent {o a} hrest := by
    cases o with
    | get key schema => cases hrest
    | del key => cases hrest
    | set key value ttlMs =>
        simp only [Op.program, Cache.set] at hrest
        -- A value without a text never gets to the store.
        cases htext : json.stringify value with
        | ok text =>
            simp only [htext] at hrest
            cases hrest
        | error e =>
            simp only [htext] at hrest
            cases hrest
            exact ⟨none, fun m => by simp [Op.effect, htext]⟩
  first {o c k x ks r ks'} hrest hx := by
    refine ⟨x, ?_⟩
    cases o with
    -- The answer is that of the value that was found, whatever becomes of it.
    | get key schema =>
        cases hrest
        cases x with
        | some e =>
            cases hx
            exact ⟨.done, rfl⟩
        | none =>
            cases hx
            cases hraw : ks (redisKey ns key) with
            | none =>
                have hentry : entries ns ks key.chars = none := (entries_chars key ks).trans hraw
                simp only [Op.effect, hentry]
                exact ⟨.done, trivial⟩
            | some raw =>
                have hentry : entries ns ks key.chars = some raw :=
                  (entries_chars key ks).trans hraw
                simp only [Op.effect, hentry]
                exact ⟨decided_getRaw key schema raw, trivial⟩
    | set key value ttlMs =>
        simp only [Op.program, Cache.set] at hrest
        cases htext : json.stringify value with
        | error e =>
            simp only [htext] at hrest
            cases hrest
        | ok text =>
            simp only [htext] at hrest
            cases hrest
            simp only [Op.effect, htext]
            cases x with
            | some e =>
                cases hx
                exact ⟨.done, rfl⟩
            | none =>
                cases hx
                exact ⟨.done, entries_update key _ ks⟩
    | del key =>
        cases hrest
        cases x with
        | some e =>
            cases hx
            exact ⟨.done, rfl⟩
        | none =>
            cases hx
            exact ⟨.done, entries_update key none ks⟩
  later {c x ks r ks'} hc hx := by
    -- The one command that may follow is the DEL of a corrupt entry.
    obtain ⟨key, rfl⟩ := hc
    cases x with
    | some e =>
        cases hx
        exact .inl rfl
    | none =>
        cases hx
        exact .inr ⟨key.chars, entries_update key none ks⟩
  env k ks := by
    -- What expires is an entry of this service, or none of its business.
    by_cases hk : ∃ key, k = redisKey ns key
    · obtain ⟨key, rfl⟩ := hk
      exact .inr ⟨key.chars, entries_update key none ks⟩
    · refine .inl (funext fun text => ?_)
      exact Function.update_of_ne (fun heq => hk ⟨_, heq.symm⟩) _ _

end

/-- **`RedisCacheService` is linearizable.** Any number of clients call `get`, `set` and `del` on
a namespace, interleaved command by command, with expiries and failing commands. What they see,
their calls and their results in order, is what they could have seen of a cache that performs each
operation in one step between its call and its return, and that may lose entries in between. -/
theorem cache_linearizable {json : Json V E} {ns : JsString} {ks₀ : Keyspace}
    {h : List (Event V E I)}
    {s : Pool Keyspace (Op V I) Command (Reply E) (LogLine E I) (Result V E)}
    (hr : (clients json ns ks₀).Reaches h s) :
    ∃ t, (lossyCache json (entries ns ks₀)).Reaches (h.filterMap PoolEvent.call?) t ∧
      t.store = entries ns s.store :=
  (firstDecides json ns).linearizable hr

/-- A `get` deletes what a `set` wrote after it had read, and a `get` finds nothing. To the
clients the cache has lost the entry. -/
theorem cache_linearizable_overtaken :
    ∃ t, (lossyCache (I := Unit) boolJson (entries authNs corruptKeyspace)).Reaches
      [.called 0 (.get keyK none), .called 1 (.set keyK true 1000), .returned 1 (.set (.ok ())),
        .returned 0 (.get (.ok (.corrupt .jsonParse))), .called 2 (.get keyK none),
        .returned 2 (.get (.ok .absent))] t ∧ t.store keyK.chars = none := by
  have hsome : ((clients boolJson authNs corruptKeyspace).execWhen (fun _ _ _ => True)
    (overtaken ++ [.start (.get keyK none), .exec 2 none])).isSome := rfl
  obtain ⟨t, ht, hstore⟩ := cache_linearizable (Machine.reachesWhen_get hsome)
  exact ⟨t, ht, (congrFun hstore keyK.chars).trans rfl⟩

end EmailPlatform.Cache
