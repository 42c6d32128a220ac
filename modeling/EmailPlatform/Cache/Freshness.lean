import EmailPlatform.Cache.SharedCache
import EmailPlatform.Core.Linearization

/-!
# EmailPlatform.Cache.Freshness

**A `get` returns what was set, and nothing that was overwritten before it began.** Because the
cache is linearizable the calls of all services have taken effect in some order, and in an order
the question is about the last write before the read (`LastWrite`). Real time is on the side of
the reader: a `set` or `del` that lies between a write and the `get`, from its call to its return,
lies between them in the order too (`get_fresh`).
-/

namespace EmailPlatform.Cache

open Program

variable {V E I N : Type*}

/-- What an operation writes, if it is carried out: the key, and what it then holds. -/
def Op.write? (json : Json V E) : Op V I → Option (KeyText × Option String)
  | .get .. => none
  | .set key value _ =>
    match json.stringify value with
    | .ok text => some (key.chars, some (toArg text))
    | .error _ => none
  | .del key => some (key.chars, none)

/-- The method has resolved. -/
def Result.resolved : Result V E → Bool
  | .get (.ok _) | .set (.ok _) | .del (.ok _) => true
  | .get (.error _) | .set (.error _) | .del (.error _) => false

/-- A write to a key of a service that was carried out. -/
def Writes (json : Json V E) (n : N) (key : KeyText) (w : Option String)
    (e : Effect (N × Op V I) (Result V E)) : Prop :=
  e.op.1 = n ∧ e.op.2.write? json = some (key, w) ∧ e.result.resolved = true

section

variable {json : Json V E}

/-- An operation that is carried out writes what it writes, and else nothing. -/
theorem effect_cases (x : Option E) (o : Op V I) (m : Entries) :
    (∃ key w, o.write? json = some (key, w) ∧ (o.effect json x m).1.resolved = true ∧
        (o.effect json x m).2 = Function.update m key w) ∨
      ((o.write? json = none ∨ (o.effect json x m).1.resolved = false) ∧
        (o.effect json x m).2 = m) := by
  cases o with
  | get key schema =>
      refine .inr ⟨.inl rfl, ?_⟩
      cases x with
      | some e => rfl
      | none => cases hm : m key.chars <;> simp [Op.effect, hm]
  | set key value ttlMs =>
      cases htext : json.stringify value with
      | error e => exact .inr ⟨.inl (by simp [Op.write?, htext]), by simp [Op.effect, htext]⟩
      | ok text =>
          cases x with
          | some e => exact .inr ⟨.inr (by simp [Op.effect, htext, Result.resolved]),
              by simp [Op.effect, htext]⟩
          | none => exact .inl ⟨key.chars, some (toArg text), by simp [Op.write?, htext],
              by simp [Op.effect, htext, Result.resolved], by simp [Op.effect, htext]⟩
  | del key =>
      cases x with
      | some e => exact .inr ⟨.inr rfl, rfl⟩
      | none => exact .inl ⟨key.chars, none, rfl, rfl, rfl⟩

/-- A `get` returns the value of the string that it found. -/
theorem entry_of_get {x : Option E} {key : JsString} {schema : Option (Schema V I)} {m m' : Entries}
    {v : V} (heff : (Op.get key schema).effect json x m = (.get (.ok (.value v)), m')) :
    ∃ raw, m key.chars = some raw ∧ decode json schema raw = .value v := by
  cases x with
  | some e => simp [Op.effect] at heff
  | none =>
      cases hm : m key.chars with
      | none => simp [Op.effect, hm] at heff
      | some raw => exact ⟨raw, rfl, by simpa [Op.effect, hm] using congrArg Prod.fst heff⟩

variable {m₀ m : N → Entries} {l : List (Effect (N × Op V I) (Result V E))}
  {n : N} {key : KeyText} {raw : String}

/-- The string under a key was there from the start and has not been overwritten, or it is what
the last write to the key has left. -/
def LastWrite (json : Json V E) (m₀ : N → Entries) (n : N) (key : KeyText) (raw : String)
    (l : List (Effect (N × Op V I) (Result V E))) : Prop :=
  (m₀ n key = some raw ∧ ∀ e ∈ l, ∀ w, ¬ Writes json n key w e) ∨
    ∃ l₁ e l₂, l = l₁ ++ e :: l₂ ∧ Writes json n key (some raw) e ∧
      ∀ e' ∈ l₂, ∀ w, ¬ Writes json n key w e'

/-- An effect that does not write the key leaves the last write the last. -/
theorem LastWrite.concat (hw : LastWrite json m₀ n key raw l)
    {e : Effect (N × Op V I) (Result V E)} (he : ∀ w, ¬ Writes json n key w e) :
    LastWrite json m₀ n key raw (l ++ [e]) := by
  have hlast : ∀ l' : List (Effect (N × Op V I) (Result V E)),
      (∀ d ∈ l', ∀ w, ¬ Writes json n key w d) →
        ∀ d ∈ l' ++ [e], ∀ w, ¬ Writes json n key w d := by
    intro l' hl' d hd
    rcases List.mem_append.mp hd with hd | hd
    · exact hl' d hd
    · exact List.mem_singleton.mp hd ▸ he
  rcases hw with ⟨hinit, hno⟩ | ⟨l₁, d, l₂, rfl, hd, hno⟩
  · exact .inl ⟨hinit, hlast l hno⟩
  · exact .inr ⟨l₁, d, l₂ ++ [e], by simp, hd, hlast l₂ hno⟩

/-- What a cache holds is what was last written. -/
theorem lastWrite_of_sequential [DecidableEq N]
    (hs : Sequential (effectAt (Op.effect json)) (envAt Entries.lose) m₀ l m)
    (hm : m n key = some raw) : LastWrite json m₀ n key raw l := by
  induction hs with
  | nil => exact .inl ⟨hm, by simp⟩
  | @effect m m' l x e hs heff ih =>
      obtain ⟨hresult, rfl⟩ := Prod.mk.inj heff
      -- The last call has written to this entry, or to another one, or nothing.
      rcases effect_cases x e.op.2 (m e.op.1) with
        ⟨key', w, hwrite, hresolved, hstore⟩ | ⟨hno, hstore⟩
      · rw [hstore] at hm
        rw [hresult] at hresolved
        by_cases hn : n = e.op.1
        · subst hn
          rw [Function.update_self] at hm
          by_cases hkey : key = key'
          · subst hkey
            rw [Function.update_self] at hm
            subst hm
            exact .inr ⟨l, e, [], rfl, ⟨rfl, hwrite, hresolved⟩, by simp⟩
          · rw [Function.update_of_ne hkey] at hm
            refine (ih hm).concat fun w' ⟨_, hwrite', _⟩ => hkey ?_
            exact (congrArg Prod.fst (Option.some.inj (hwrite'.symm.trans hwrite)))
        · rw [Function.update_of_ne hn] at hm
          exact (ih hm).concat fun w' ⟨hn', _⟩ => hn hn'.symm
      · rw [hstore, Function.update_eq_self] at hm
        refine (ih hm).concat fun w' ⟨_, hwrite, hresolved⟩ => ?_
        rcases hno with hno | hno
        · rw [hno] at hwrite
          cases hwrite
        · rw [← hresult, hno] at hresolved
          cases hresolved
  | @env m l v hs ih =>
      refine ih ?_
      -- What is lost is another entry, as this one is there.
      by_cases hn : n = v.1
      · subst hn
        rw [envAt, Function.update_self] at hm
        by_cases hkey : key = v.2
        · subst hkey
          rw [Entries.lose, Function.update_self] at hm
          cases hm
        · rwa [Entries.lose, Function.update_of_ne hkey] at hm
      · rwa [envAt, Function.update_of_ne hn] at hm

/-- What is written under a key as a string is the text of a value that was set. -/
theorem set_of_write {o : Op V I} (hwrite : o.write? json = some (key, some raw)) :
    ∃ key' value ttlMs text, o = .set key' value ttlMs ∧ key'.chars = key ∧
      json.stringify value = .ok text ∧ raw = toArg text := by
  cases o with
  | get | del => cases hwrite
  | set key' value ttlMs =>
      cases htext : json.stringify value with
      | error e => simp [Op.write?, htext] at hwrite
      | ok text =>
          simp only [Op.write?, htext, Option.some.injEq, Prod.mk.injEq] at hwrite
          obtain ⟨rfl, rfl⟩ := hwrite
          exact ⟨key', value, ttlMs, text, rfl, rfl, htext, rfl⟩

end

/-- The calls of all clients and their results. -/
abbrev seen
    (h : List (PoolEvent (N × Op V I) Command (Reply E) (LogLine E I) (Result V E) RedisKey)) :
    List (CallEvent (N × Op V I) (Result V E)) :=
  h.filterMap PoolEvent.call?

/-- A call that writes a key of a service and resolves. -/
def WritingCall (json : Json V E) (g : List (CallEvent (N × Op V I) (Result V E))) (n : N)
    (key : KeyText) (j : ℕ) : Prop :=
  ∃ o w r, .called j (n, o) ∈ g ∧ o.write? json = some (key, w) ∧ .returned j r ∈ g ∧
    r.resolved = true

/-- **A `get` is fresh.** In every run of the clients of all services on one Redis, a `get` that
returns a value returns what `decode` makes of a string that was under the key from the start, or
of the text of a `set` by the same service, to a key of the same text, that did not begin after
the `get` had returned; and no `set` or `del` of the key that resolved lies wholly between that
and the `get`. -/
theorem get_fresh {json : Json V E} {ns : Namespaces N} {ks₀ : Keyspace}
    {h : List (PoolEvent (N × Op V I) Command (Reply E) (LogLine E I) (Result V E) RedisKey)}
    {s : Pool Keyspace (N × Op V I) Command (Reply E) (LogLine E I) (Result V E)}
    (hr : (sharedClients json ns ks₀).Reaches h s) {i : ℕ} {n : N} {key : JsString}
    {schema : Option (Schema V I)} {v : V} (hcall : .called i (n, .get key schema) ∈ seen h)
    (hret : .returned i (.get (.ok (.value v))) ∈ seen h) :
    ∃ raw, decode json schema raw = .value v ∧
      ((ks₀ (redisKey (ns.name n) key) = some raw ∧
          ∀ j, WritingCall json (seen h) n key.chars j → ¬ Precedes (seen h) j i) ∨
        ∃ j key' value ttlMs text, .called j (n, .set key' value ttlMs) ∈ seen h ∧
          key'.chars = key.chars ∧ json.stringify value = .ok text ∧ raw = toArg text ∧
          ¬ Precedes (seen h) i j ∧ ∀ j', WritingCall json (seen h) n key.chars j' →
            ¬ (Precedes (seen h) j j' ∧ Precedes (seen h) j' i)) := by
  classical
  obtain ⟨t, ht, -⟩ := (independent json ns).firstDecides.linearizable hr
  obtain ⟨l, hl⟩ := exists_linearization ht
  obtain ⟨l₁, l₂, rfl⟩ := List.append_of_mem (hl.effect_of_returned hcall hret)
  obtain ⟨m, m', x, hs, heff⟩ := hl.sequential.split rfl
  obtain ⟨raw, hraw, hdecode⟩ := entry_of_get (Prod.ext (Prod.mk.inj heff).1 rfl)
  obtain ⟨hreal, hlater, hcross⟩ := List.pairwise_append.mp hl.linearization.realTime
  -- a write that had returned before the `get` began comes before it in the order
  have hbefore : ∀ j, WritingCall json (seen h) n key.chars j → Precedes (seen h) j i →
      ∃ e ∈ l₁, ∃ w, e.call = j ∧ Writes json n key.chars w e := by
    intro j ⟨o, w, r, hj, hwrite, hjr, hok⟩ hp
    rcases List.mem_append.mp (hl.effect_of_returned hj hjr) with hmem | hmem
    · exact ⟨_, hmem, w, rfl, rfl, hwrite, hok⟩
    · rcases List.mem_cons.mp hmem with heq | hmem
      · cases heq
        cases hwrite
      · exact absurd hp ((List.pairwise_cons.mp hlater).1 _ hmem)
  refine ⟨raw, hdecode, ?_⟩
  rcases lastWrite_of_sequential hs hraw with ⟨hinit, hno⟩ | ⟨k₁, d, k₂, rfl, hd, hno⟩
  · refine .inl ⟨(entries_chars key ks₀).symm.trans hinit, fun j hj hp => ?_⟩
    obtain ⟨e, he, w, -, hw⟩ := hbefore j hj hp
    exact hno e he w hw
  · obtain ⟨key', value, ttlMs, text, hop, hkey, htext, hrawtext⟩ := set_of_write hd.2.1
    have hmem : d ∈ k₁ ++ d :: k₂ := by simp
    refine .inr ⟨d.call, key', value, ttlMs, text, ?_, hkey, htext, hrawtext, ?_,
      fun j' hj' ⟨hp, hp'⟩ => ?_⟩
    · have hcalled := hl.linearization.called d (List.mem_append_left _ hmem)
      rwa [show d.op = (n, .set key' value ttlMs) from Prod.ext hd.1 hop] at hcalled
    · exact hcross d hmem _ List.mem_cons_self
    · obtain ⟨e, he, w, rfl, hw⟩ := hbefore j' hj' hp'
      rcases List.mem_append.mp he with he | he
      · exact (List.pairwise_append.mp hreal).2.2 e he d List.mem_cons_self hp
      · rcases List.mem_cons.mp he with rfl | he
        · exact hl.irrefl _ hp
        · exact hno e he w hw

/-- What the clients see of `healing`. -/
def healingSeen : List (CallEvent (ServiceId × Op Bool Unit) (Result Bool Unit)) :=
  [.called 0 (.auth, .get keyK none), .called 1 (.sender, .set keyK true 1000),
    .returned 1 (.set (.ok ())), .returned 0 (.get (.ok (.corrupt .jsonParse))),
    .called 2 (.sender, .get keyK none), .returned 2 (.get (.ok (.value true)))]

/-- The value that `sender` reads was set by `sender`. -/
theorem get_fresh_healing :
    ∃ j key value ttlMs text, .called j (ServiceId.sender, .set key value ttlMs) ∈ healingSeen ∧
      key.chars = keyK.chars ∧
      boolJson.stringify value = .ok text ∧
      decode boolJson (none : Option (Schema Bool Unit)) (toArg text) = .value true := by
  have hsome : ((sharedClients boolJson serviceNamespaces corruptKeyspace).execWhen
    (fun _ _ _ => True) healing).isSome := rfl
  have hcall : .called 2 (ServiceId.sender, .get keyK none) ∈ healingSeen := by simp [healingSeen]
  have hret : .returned 2 (.get (.ok (.value true))) ∈ healingSeen := by simp [healingSeen]
  obtain ⟨raw, hdecode, ⟨hinit, -⟩ | ⟨j, key, value, ttlMs, text, hset, hkey, htext, rfl, -⟩⟩ :=
    get_fresh (Machine.reachesWhen_get hsome) hcall hret
  · have hnone : corruptKeyspace (redisKey (serviceNamespaces.name .sender) keyK) = none := rfl
    exact absurd (hinit.symm.trans hnone) (by simp)
  · exact ⟨j, key, value, ttlMs, text, hset, hkey, htext, hdecode⟩

end EmailPlatform.Cache
