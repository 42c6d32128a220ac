import EmailPlatform.Cache.RedisCacheService

/-!
# EmailPlatform.Cache.Concurrency

**Concurrent clients of one namespace.** Any number of `get`, `set` and `del` calls run
over one keyspace, interleaved command by command; keys expire whenever they like and any
command may fail.

A corrupt `get` is a read followed by an unconditional delete. What a client can rely on
after its `set` is therefore less than that nobody else wrote or deleted the key. Two kinds
of `get` can still delete it: one that had read a corrupt string before the `set` and was
overtaken by it, and one that finds the new string itself corrupt, because its schema
rejects the value. `freshWrite_survives` says that there is no third; `freshWrite_destroyed`
shows that there are these two.

The invariant carried from the `set` to the present has two halves: the key holds the
written string, and so every `get` since has read that string.
-/

namespace EmailPlatform.Cache

open Program

variable {V E I : Type*}

abbrev Event (V E I : Type*) :=
  PoolEvent (Op V I) Command (Reply E) (LogLine E I) (Result V E) RedisKey

/-- The clients of one namespace over one Redis. An environment event is the expiry of a
key. -/
def clients (json : Json V E) (ns : JsString) (ks₀ : Keyspace) :
    Machine (Pool Keyspace (Op V I) Command (Reply E) (LogLine E I) (Result V E))
      (PoolAction (Op V I) (Option E) RedisKey) (Event V E I) :=
  Program.pool (Op.program json ns) Redis.exec Redis.expire ks₀

/-! ### The laws -/

section Laws

variable (json : Json V E) (ns : JsString)

/-- Since `h₁` the key was neither set, nor deleted by a `del` call, nor did it expire. The call
may spell it `key'`: what counts is the key of Redis. -/
structure Undisturbed (key : JsString) (h₁ h₂ : List (Event V E I)) : Prop where
  notSet : ∀ i raw ttlMs r, .executed i (.set (redisKey ns key) raw ttlMs) (.ok r) ∉ h₂
  notDeleted : ∀ i key' r, .started i (.del key') ∈ h₁ ++ h₂ →
    .executed i (.del (redisKey ns key)) (.ok r) ∉ h₂
  notExpired : .env (redisKey ns key) ∉ h₂

/-- No `get` that read a corrupt string in `h₁` has deleted the key since. -/
def NotOvertaken (key : JsString) (h₁ h₂ : List (Event V E I)) : Prop :=
  ∀ i key' schema raw reason, .started i (.get key' schema) ∈ h₁ →
    .executed i (.get (redisKey ns key)) (.ok (some raw)) ∈ h₁ →
    decode json schema raw = .corrupt reason →
    ∀ r, .executed i (.del (redisKey ns key)) (.ok r) ∉ h₂

/-- No `get` that read `raw` since `h₁` and found it corrupt has deleted the key. -/
def NotRejected (key : JsString) (raw : String) (h₁ h₂ : List (Event V E I)) : Prop :=
  ∀ i key' schema reason, .started i (.get key' schema) ∈ h₁ ++ h₂ →
    .executed i (.get (redisKey ns key)) (.ok (some raw)) ∈ h₂ →
    decode json schema raw = .corrupt reason →
    ∀ r, .executed i (.del (redisKey ns key)) (.ok r) ∉ h₂

/-- The text under a key is the one `set` sends for `value`. -/
def Holds (value : V) (stored : Option String) : Prop :=
  ∃ text, json.stringify value = .ok text ∧ stored = some (toArg text)

/-- After a completed `set` to which nothing else happened the key holds its value,
provided `cond` holds of the key, the written string, and the histories before and since
the write. -/
def FreshWriteLaw (cond : JsString → String → List (Event V E I) → List (Event V E I) → Prop)
    (h : List (Event V E I)) (ks : Keyspace) : Prop :=
  ∀ i key value raw ttlMs r h₁ h₂,
    h = h₁ ++ .executed i (.set (redisKey ns key) raw ttlMs) (.ok r) :: h₂ →
    .started i (.set key value ttlMs) ∈ h₁ →
    Undisturbed ns key h₁ h₂ →
    cond key raw h₁ h₂ →
    Holds json value (ks (redisKey ns key))

/-- From its read to its delete a `get` can only have been overtaken by a `set`:
otherwise the key still holds the string it read, or nothing. -/
def SelfHealLaw (h : List (Event V E I)) (ks : Keyspace) : Prop :=
  ∀ i key raw h₁ h₂,
    h = h₁ ++ .executed i (.get (redisKey ns key)) (.ok (some raw)) :: h₂ →
    (∀ j raw' ttlMs r, .executed j (.set (redisKey ns key) raw' ttlMs) (.ok r) ∉ h₂) →
    ks (redisKey ns key) = some raw ∨ ks (redisKey ns key) = none

end Laws

theorem FreshWriteLaw.mono {json : Json V E} {ns : JsString}
    {cond cond' : JsString → String → List (Event V E I) → List (Event V E I) → Prop}
    {h : List (Event V E I)} {ks : Keyspace} (hlaw : FreshWriteLaw json ns cond h ks)
    (hcond : ∀ key raw h₁ h₂, cond' key raw h₁ h₂ → cond key raw h₁ h₂) :
    FreshWriteLaw json ns cond' h ks :=
  fun i key value raw ttlMs r h₁ h₂ hh hst hu hc =>
    hlaw i key value raw ttlMs r h₁ h₂ hh hst hu (hcond _ _ _ _ hc)

theorem Undisturbed.of_append {ns key : JsString} {h₁ h₂ es : List (Event V E I)}
    (h : Undisturbed ns key h₁ (h₂ ++ es)) : Undisturbed ns key h₁ h₂ where
  notSet i raw ttlMs r hm := h.notSet i raw ttlMs r (List.mem_append_left _ hm)
  notDeleted i key' r hs hm :=
    h.notDeleted i key' r (by rw [← List.append_assoc]; exact List.mem_append_left _ hs)
      (List.mem_append_left _ hm)
  notExpired hm := h.notExpired (List.mem_append_left _ hm)

theorem NotOvertaken.of_append {json : Json V E} {ns key : JsString}
    {h₁ h₂ es : List (Event V E I)} (h : NotOvertaken json ns key h₁ (h₂ ++ es)) :
    NotOvertaken json ns key h₁ h₂ := by
  intro i key' schema raw reason hs hget hdec r hm
  exact h i key' schema raw reason hs hget hdec r (List.mem_append_left _ hm)

theorem NotRejected.of_append {json : Json V E} {ns key : JsString} {raw : String}
    {h₁ h₂ es : List (Event V E I)} (h : NotRejected json ns key raw h₁ (h₂ ++ es)) :
    NotRejected json ns key raw h₁ h₂ := by
  intro i key' schema reason hs hget hdec r hm
  refine h i key' schema reason ?_ (List.mem_append_left _ hget) hdec r (List.mem_append_left _ hm)
  rw [← List.append_assoc]
  exact List.mem_append_left _ hs

/-! ### What is under a key -/

section Runs

variable {json : Json V E} {ns : JsString} {ks₀ : Keyspace} {h h₁ h₂ : List (Event V E I)}
  {s s' : Pool Keyspace (Op V I) Command (Reply E) (LogLine E I) (Result V E)}

/-- A thread about to issue a command issues one of its operation's. -/
theorem issues_of_reaches (hr : (clients json ns ks₀).Reaches h s) {i : Nat} {o : Op V I}
    {c : Command} {k} (ht : s.threads[i]? = some (o, .call c k)) :
    .started i o ∈ h ∧ Issues json ns o (executedBy i h) c := by
  obtain ⟨hst, hp⟩ := (path_of_reaches hr).path i o _ ht
  exact ⟨hst, issues_of_path hp⟩

/-- What a step after the history `h` does to the text under `key`, `v` before it and
the last index after it. -/
inductive KeyTrans (json : Json V E) (ns key : JsString) (h : List (Event V E I))
    (v : Option String) : List (Event V E I) → Option String → Prop
  /-- Nothing, and a `get` reads it. -/
  | kept {es : List (Event V E I)} :
      (∀ i text, .executed i (.get (redisKey ns key)) (.ok text) ∈ es → text = v) →
      KeyTrans json ns key h v es v
  | set {es : List (Event V E I)} {i : Nat} {raw : String} {ttlMs : Int} {r : Option String} :
      .executed i (.set (redisKey ns key) raw ttlMs) (.ok r) ∈ es →
      KeyTrans json ns key h v es (some raw)
  /-- A caller's `del`. -/
  | deleted {es : List (Event V E I)} {i : Nat} {key' : JsString} {r : Option String} :
      .started i (.del key') ∈ h →
      .executed i (.del (redisKey ns key)) (.ok r) ∈ es →
      KeyTrans json ns key h v es none
  /-- The delete of a `get` that read `raw` before. -/
  | healed {es : List (Event V E I)} {i : Nat} {key' : JsString} {schema : Option (Schema V I)}
      {raw : String} {reason : CorruptReason} {r : Option String} :
      .started i (.get key' schema) ∈ h →
      .executed i (.get (redisKey ns key)) (.ok (some raw)) ∈ h →
      decode json schema raw = .corrupt reason →
      .executed i (.del (redisKey ns key)) (.ok r) ∈ es →
      KeyTrans json ns key h v es none
  | expired {es : List (Event V E I)} :
      .env (redisKey ns key) ∈ es → KeyTrans json ns key h v es none

/-- **Inversion**, for one key: a step does to it what `KeyTrans` lists. -/
theorem keyTrans_of_step (hr : (clients json ns ks₀).Reaches h s)
    {a : PoolAction (Op V I) (Option E) RedisKey} {es : List (Event V E I)}
    (hs : (clients json ns ks₀).step s a = some (s', es)) (key : JsString) :
    KeyTrans json ns key h (s.store (redisKey ns key)) es (s'.store (redisKey ns key)) := by
  cases poolTrans_of_step hs with
  | start o => exact .kept (by simp)
  | env k =>
      by_cases hk : k = redisKey ns key
      · subst hk
        simp only [Redis.expire, Function.update_self]
        exact .expired (List.mem_singleton_self _)
      · simp only [Redis.expire, Function.update_of_ne (Ne.symm hk)]
        exact .kept (by simp)
  | @exec i x o c k r store ht hx =>
      obtain ⟨hst, hc⟩ := issues_of_reaches hr ht
      show KeyTrans json ns key h (s.store (redisKey ns key)) _ (store (redisKey ns key))
      cases Redis.trans_of_exec hx with
      | fault c e => exact .kept (by simp)
      | get k' =>
          refine .kept fun j text hm => ?_
          obtain ⟨-, rfl, rfl⟩ : j = i ∧ k' = redisKey ns key ∧ text = s.store k' := by
            simpa [eq_comm] using hm
          rfl
      | set k' value ttlMs =>
          by_cases hk : k' = redisKey ns key
          · subst hk
            rw [Function.update_self]
            exact .set List.mem_cons_self
          · rw [Function.update_of_ne (Ne.symm hk)]
            exact .kept (by simp)
      | del k' =>
          by_cases hk : k' = redisKey ns key
          · subst hk
            rw [Function.update_self]
            -- it is a caller's, or heals what its `get` has read
            generalize hd : Command.del (redisKey ns key) = d at hc
            generalize hl : executedBy i h = l at hc
            cases hc with
            | get | set => cases hd
            | del key' =>
                refine .deleted (r := none) hst ?_
                rw [hd]
                exact List.mem_cons_self
            | heal hdec =>
                have hread := mem_executedBy.mp (hl ▸ List.mem_singleton_self _)
                rw [← Command.del.inj hd] at hread
                refine .healed (r := none) hst hread hdec ?_
                rw [hd]
                exact List.mem_cons_self
          · rw [Function.update_of_ne (Ne.symm hk)]
            exact .kept (by simp)

/-- A completed `SET` of a `set` call carries the text of its value. -/
theorem holds_of_executed (hr : (clients json ns ks₀).Reaches h s) {i : Nat} {key : JsString}
    {raw : String} {value : V} {ttlMs ttlMs' : Int} {r : Reply E}
    (hst : .started i (.set key value ttlMs) ∈ h)
    (hex : .executed i (.set (redisKey ns key) raw ttlMs') r ∈ h) :
    Holds json value (some raw) := by
  have hi := path_of_reaches hr
  obtain ⟨p, hp⟩ := hi.started i _ hst
  obtain ⟨l₁, l₂, hl⟩ := List.append_of_mem (mem_executedBy.mpr hex)
  have hpath := (hi.path i _ p hp).2
  rw [hl] at hpath
  obtain ⟨k, hk⟩ := hpath.before
  generalize hc : Command.set (redisKey ns key) raw ttlMs' = c at hk
  cases issues_of_path hk with
  | @set _ _ _ text htext =>
      injection hc with _ hraw _
      exact ⟨text, htext, congrArg some hraw⟩

/-- Since a `SET` that nothing disturbs the key holds its text, and every `get` read it. -/
theorem kept_since {i : Nat} {key : JsString} {raw : String} {ttlMs : Int} {r : Option String}
    (hr : (clients json ns ks₀).Reaches
      (h₁ ++ .executed i (.set (redisKey ns key) raw ttlMs) (.ok r) :: h₂) s)
    (hu : Undisturbed ns key h₁ h₂) (hover : NotOvertaken json ns key h₁ h₂)
    (hrej : NotRejected json ns key raw h₁ h₂) :
    s.store (redisKey ns key) = some raw ∧
      ∀ j text, .executed j (.get (redisKey ns key)) (.ok text) ∈ h₂ → text = some raw := by
  revert hu hover hrej
  refine hr.since (J := fun h₁ h₂ s => Undisturbed ns key h₁ h₂ →
    NotOvertaken json ns key h₁ h₂ → NotRejected json ns key raw h₁ h₂ →
      s.store (redisKey ns key) = some raw ∧
        ∀ j text, .executed j (.get (redisKey ns key)) (.ok text) ∈ h₂ → text = some raw) ?_ ?_
  · -- the `SET` itself
    intro h s a s' l₁ l₂ _ _ hs _ _ _
    obtain ⟨-, -, ⟨x, hx⟩, hl₂⟩ := (poolTrans_of_step hs).of_executed
    refine ⟨?_, fun j text hm => absurd hm (hl₂ j _ _)⟩
    generalize hq : (Except.ok r : Reply E) = q at hx
    generalize s'.store = store at hx ⊢
    cases Redis.trans_of_exec hx with
    | fault => cases hq
    | set => exact Function.update_self _ _ _
  · -- a later step: of what it can do to the key only the delete of a `get` is open
    intro h₁ h₂ s a s' es hr ih _ hs hu hover hrej
    obtain ⟨hkey, hread⟩ := ih hu.of_append hover.of_append hrej.of_append
    have hstep := keyTrans_of_step hr hs key
    generalize s'.store (redisKey ns key) = v' at hstep ⊢
    cases hstep with
    | kept hes =>
        refine ⟨hkey, ?_⟩
        intro j text hm
        rcases List.mem_append.mp hm with hm | hm
        · exact hread j text hm
        · exact (hes j text hm).trans hkey
    | set hm => exact absurd (List.mem_append_right _ hm) (hu.notSet _ _ _ _)
    | deleted hst hm =>
        exact absurd (List.mem_append_right _ hm)
          (hu.notDeleted _ _ _ (mem_append_of_ne (by simp) hst))
    | expired hm => exact absurd (List.mem_append_right _ hm) hu.notExpired
    | @healed j key' schema raw' reason r' hst hget hdec hdel =>
        have hdel' := List.mem_append_right h₂ hdel
        rcases List.mem_append.mp hget with hbefore | hafter
        · -- it read before the `SET`, which overtook it
          have hst₁ := started_of_executed hr (List.prefix_append _ _) hst hbefore
          exact absurd hdel' (hover j key' schema raw' reason hst₁ hbefore hdec r')
        · -- it read after the `SET`: then it read the written text
          have hsince : .executed j (.get (redisKey ns key)) (.ok (some raw')) ∈ h₂ :=
            List.mem_of_ne_of_mem (by simp) hafter
          obtain rfl : raw' = raw := Option.some.inj (hread j _ hsince)
          exact absurd hdel' (hrej j key' schema reason (mem_append_of_ne (by simp) hst)
            (List.mem_append_left _ hsince) hdec r')

/-- A `get` overtaken by no `set` still finds the string it read, or nothing. -/
theorem read_since {i : Nat} {key : JsString} {raw : String}
    (hr : (clients json ns ks₀).Reaches
      (h₁ ++ .executed i (.get (redisKey ns key)) (.ok (some raw)) :: h₂) s)
    (hset : ∀ j raw' ttlMs r, .executed j (.set (redisKey ns key) raw' ttlMs) (.ok r) ∉ h₂) :
    s.store (redisKey ns key) = some raw ∨ s.store (redisKey ns key) = none := by
  revert hset
  refine hr.since (J := fun _ h₂ s =>
    (∀ j raw' ttlMs r, .executed j (.set (redisKey ns key) raw' ttlMs) (.ok r) ∉ h₂) →
      s.store (redisKey ns key) = some raw ∨ s.store (redisKey ns key) = none) ?_ ?_
  · intro h s a s' l₁ l₂ _ _ hs _
    obtain ⟨-, -, ⟨x, hx⟩, -⟩ := (poolTrans_of_step hs).of_executed
    generalize hq : (Except.ok (some raw) : Reply E) = q at hx
    generalize s'.store = store at hx ⊢
    cases Redis.trans_of_exec hx with
    | fault => cases hq
    | get => exact .inl (Except.ok.inj hq).symm
  · intro h₁ h₂ s a s' es hr ih _ hs hset
    have hkey := ih fun j raw' ttlMs r hm => hset j raw' ttlMs r (List.mem_append_left _ hm)
    have hstep := keyTrans_of_step hr hs key
    generalize s'.store (redisKey ns key) = v' at hstep ⊢
    cases hstep with
    | kept => exact hkey
    | set hm => exact absurd (List.mem_append_right _ hm) (hset _ _ _ _)
    | deleted | healed | expired => exact .inr rfl

/-- A fresh write survives every interleaving unless a `get` deletes it that had read a
corrupt string before the write, or one that found the written string corrupt. The delete of
a corrupt `get` removes the string it read or nothing unless a `set` came between the two. -/
theorem freshWrite_survives (hr : (clients json ns ks₀).Reaches h s) :
    FreshWriteLaw json ns
        (fun key raw h₁ h₂ =>
          NotOvertaken json ns key h₁ h₂ ∧ NotRejected json ns key raw h₁ h₂)
        h s.store ∧
      SelfHealLaw ns h s.store := by
  constructor
  · intro i key value raw ttlMs r h₁ h₂ hh hst hu ⟨hover, hrej⟩
    subst hh
    obtain ⟨text, htext, hraw⟩ := holds_of_executed hr (List.mem_append_left _ hst)
      (List.mem_append_right _ List.mem_cons_self)
    exact ⟨text, htext, (kept_since hr hu hover hrej).1.trans hraw⟩
  · intro i key raw h₁ h₂ hh hset
    subst hh
    exact read_since hr hset

end Runs

/-! ### A run -/

/-- A keyspace whose one string does not parse. -/
def corruptKeyspace : Keyspace :=
  Function.update (fun _ => none) (redisKey authNs keyK) (some "tru")

abbrev BoolEvent := Event Bool Unit Unit

/-- A `get` heals a corrupt string, a `set` completes, a `get` reads it. -/
def repaired : List (PoolAction (Op Bool Unit) (Option Unit) RedisKey) :=
  [.start (.get keyK none), .exec 0 none, .exec 0 none, .start (.set keyK true 1000), .exec 1 none,
    .start (.get keyK none), .exec 2 none]

/-- A corrupt string is healed, the key is set and then read. -/
theorem freshWrite_survives_repair :
    ∃ (h : List BoolEvent) (s : _), (clients boolJson authNs corruptKeyspace).Reaches h s ∧
      Holds boolJson true (s.store (redisKey authNs keyK)) := by
  have hsome : ((clients boolJson authNs corruptKeyspace).execWhen (fun _ _ _ => True)
    repaired).isSome := rfl
  refine ⟨_, _, Machine.reachesWhen_get hsome, ?_⟩
  refine (freshWrite_survives (Machine.reachesWhen_get hsome)).1 1 keyK true "true" 1000 none
    [.started 0 (.get keyK none), .executed 0 (.get (redisKey authNs keyK)) (.ok (some "tru")),
      .logged 0 ⟨.error, prefixKey authNs keyK, .err (),
        "cache: JSON.parse failed; deleting corrupt entry"⟩,
      .executed 0 (.del (redisKey authNs keyK)) (.ok none),
      .finished 0 (.get (.ok (.corrupt .jsonParse))), .started 1 (.set keyK true 1000)]
    [.finished 1 (.set (.ok ())), .started 2 (.get keyK none),
      .executed 2 (.get (redisKey authNs keyK)) (.ok (some "true")),
      .finished 2 (.get (.ok (.value true)))]
    rfl (by simp) ⟨by simp, by simp, by simp⟩ ⟨?_, ?_⟩
  · intro i key schema raw reason _ _ _ r
    simp
  · intro i key schema reason _ _ _ r
    simp

/-! ### The conditions are needed

Two runs, in each of which one of the two conditions holds and the law does not. -/

/-- A schema that accepts `false` only. -/
def onlyFalse : Schema Bool Unit where
  safeParse b := if b then .error () else .ok b

/-- A `get` reads a corrupt string; a `set` completes; the `get` deletes. -/
def overtaken : List (PoolAction (Op Bool Unit) (Option Unit) RedisKey) :=
  [.start (.get keyK none), .exec 0 none, .start (.set keyK true 1000), .exec 1 none, .exec 0 none]

/-- One call after the other: a `set`, and a `get` whose schema rejects the value. -/
def rejected : List (PoolAction (Op Bool Unit) (Option Unit) RedisKey) :=
  [.start (.set keyK true 1000), .exec 0 none, .start (.get keyK (some onlyFalse)), .exec 1 none,
    .exec 1 none]

theorem overtaken_unlawful :
    ∃ (h : List BoolEvent) (s : _), (clients boolJson authNs corruptKeyspace).Reaches h s ∧
      ¬ FreshWriteLaw boolJson authNs
        (fun key raw h₁ h₂ => NotRejected boolJson authNs key raw h₁ h₂) h s.store := by
  have hsome : ((clients boolJson authNs corruptKeyspace).execWhen (fun _ _ _ => True)
    overtaken).isSome := rfl
  refine ⟨_, _, Machine.reachesWhen_get hsome, ?_⟩
  intro hlaw
  obtain ⟨text, htext, hks⟩ := hlaw 1 keyK true "true" 1000 none
    [.started 0 (.get keyK none), .executed 0 (.get (redisKey authNs keyK)) (.ok (some "tru")),
      .logged 0 ⟨.error, prefixKey authNs keyK, .err (),
        "cache: JSON.parse failed; deleting corrupt entry"⟩,
      .started 1 (.set keyK true 1000)]
    [.finished 1 (.set (.ok ())), .executed 0 (.del (redisKey authNs keyK)) (.ok none),
      .finished 0 (.get (.ok (.corrupt .jsonParse)))]
    rfl (by simp) ⟨by simp, by simp, by simp⟩ (fun _ _ _ _ _ hm => by simp at hm)
  cases hks

theorem rejected_unlawful :
    ∃ (h : List BoolEvent) (s : _), (clients boolJson authNs fun _ => none).Reaches h s ∧
      ¬ FreshWriteLaw boolJson authNs (fun key _ h₁ h₂ => NotOvertaken boolJson authNs key h₁ h₂)
        h s.store := by
  have hsome : ((clients boolJson authNs fun _ => none).execWhen (fun _ _ _ => True)
    rejected).isSome := rfl
  refine ⟨_, _, Machine.reachesWhen_get hsome, ?_⟩
  intro hlaw
  obtain ⟨text, htext, hks⟩ := hlaw 0 keyK true "true" 1000 none
    [.started 0 (.set keyK true 1000)]
    [.finished 0 (.set (.ok ())), .started 1 (.get keyK (some onlyFalse)),
      .executed 1 (.get (redisKey authNs keyK)) (.ok (some "true")),
      .logged 1 ⟨.warn, prefixKey authNs keyK, .issues (),
        "cache: schema mismatch; deleting corrupt entry"⟩,
      .executed 1 (.del (redisKey authNs keyK)) (.ok none),
      .finished 1 (.get (.ok (.corrupt .schemaMismatch)))]
    rfl (by simp) ⟨by simp, by simp, by simp⟩ (fun _ _ _ _ _ hm => by simp at hm)
  cases hks

/-- Without a condition the law fails, by a `set` that falls between the read and the
delete of a `get`, and by a `get` that rejects what was written. -/
theorem freshWrite_destroyed :
    (∃ (h : List BoolEvent) (s : _), (clients boolJson authNs corruptKeyspace).Reaches h s ∧
      ¬ FreshWriteLaw boolJson authNs (fun _ _ _ _ => True) h s.store) ∧
    ∃ (h : List BoolEvent) (s : _), (clients boolJson authNs fun _ => none).Reaches h s ∧
      ¬ FreshWriteLaw boolJson authNs (fun _ _ _ _ => True) h s.store := by
  obtain ⟨h, s, hr, hlaw⟩ := overtaken_unlawful
  obtain ⟨h', s', hr', hlaw'⟩ := rejected_unlawful
  exact ⟨⟨h, s, hr, fun hl => hlaw (hl.mono fun _ _ _ _ _ => trivial)⟩,
    h', s', hr', fun hl => hlaw' (hl.mono fun _ _ _ _ _ => trivial)⟩

end EmailPlatform.Cache
