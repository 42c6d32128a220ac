import EmailPlatform.Cache.Linearizable
import EmailPlatform.Cache.Namespaces
import EmailPlatform.Core.Independent

/-!
# EmailPlatform.Cache.SharedCache

**The services share a Redis and cannot tell.** The clients of any number of services interleave
command by command on one keyspace, self-healing deletes and all. What they see is what they
could have seen of one atomic cache for each service, none of which knows of the others
(`sharedCache_linearizable`): each `RedisCacheService` is linearizable by itself (`firstDecides`),
and the namespaces keep the services apart (`independent`).
-/

namespace EmailPlatform.Cache

open Program

variable {V E I N : Type*}

/-- The clients of many services over one Redis; a call goes to one of the services. -/
def sharedClients (json : Json V E) (ns : Namespaces N) (ks₀ : Keyspace) :
    Machine (Pool Keyspace (N × Op V I) Command (Reply E) (LogLine E I) (Result V E))
      (PoolAction (N × Op V I) (Option E) RedisKey)
      (PoolEvent (N × Op V I) Command (Reply E) (LogLine E I) (Result V E) RedisKey) :=
  pool (fun o => o.2.program json (ns.name o.1)) Redis.exec Redis.expire ks₀

/-- A cache for each service, each with its own entries. -/
def lossyCaches [DecidableEq N] (json : Json V E) (m₀ : N → Entries) :
    Machine (CallState (N → Entries) (N × Op V I) (Result V E))
      (CallAction (N × Op V I) (Option E) (N × KeyText))
      (CallEvent (N × Op V I) (Result V E)) :=
  atomicObject (effectAt (Op.effect json)) (envAt Entries.lose) m₀

/-- The key of a command. -/
def Command.key : Command → RedisKey
  | .get key | .set key _ _ | .del key => key

variable {json : Json V E} {ns : Namespaces N}

/-- A command changes its key at most. -/
theorem eq_or_update_of_exec {x : Option E} {c : Command} {ks ks' : Keyspace} {r : Reply E}
    (hx : Redis.exec x c ks = (r, ks')) : ks' = ks ∨ ∃ v, ks' = Function.update ks c.key v := by
  cases Redis.trans_of_exec hx with
  | fault | get => exact .inl rfl
  | set | del => exact .inr ⟨_, rfl⟩

/-- The commands of a service have its keys. -/
theorem key_of_issued {n : N} {c : Command}
    (hc : (∃ (o : Op V I) (k : _), (o.program json (ns.name n)).rest = .call c k) ∨
      IsHeal (ns.name n) c) : ∃ key, c.key = redisKey (ns.name n) key := by
  rcases hc with ⟨o, k, hrest⟩ | ⟨key, rfl⟩
  · cases issues_of_path (path_nil_iff.mpr hrest.symm) with
    | get key | del key | set => exact ⟨_, rfl⟩
  · exact ⟨key, rfl⟩

/-- The entries of other services are not touched. -/
theorem entries_of_update {n n' : N} (hne : n' ≠ n) (key : JsString) (v : Option String)
    (ks : Keyspace) :
    entries (ns.name n') (Function.update ks (redisKey (ns.name n) key) v) =
      entries (ns.name n') ks := by
  funext text
  exact Function.update_of_ne (fun heq => hne (ns.redisKey_inj heq).1) _ _

/-- **The services lie apart.** -/
theorem independent (json : Json V E) (ns : Namespaces N) :
    Independent (fun n => (Op.program json (ns.name n) : Op V I → _)) Redis.exec Redis.expire
      (fun n => entries (ns.name n)) (Op.effect json) Entries.lose
      (fun n => IsHeal (ns.name n)) where
  object n := firstDecides json (ns.name n)
  frame {n n' c x ks r ks'} hne hc hx := by
    obtain ⟨key, hkey⟩ := key_of_issued hc
    rcases eq_or_update_of_exec hx with rfl | ⟨v, rfl⟩
    · rfl
    · rw [hkey]
      exact entries_of_update hne key v ks
  env_frame {n n' key ks} hn hn' := by
    have howner : ∀ m, entries (ns.name m) (Redis.expire key ks) ≠ entries (ns.name m) ks →
        ∃ key', key = redisKey (ns.name m) key' := by
      intro m hm
      by_contra hno
      refine hm (funext fun text => ?_)
      exact Function.update_of_ne (fun heq => hno ⟨_, heq.symm⟩) _ _
    obtain ⟨k, hk⟩ := howner n hn
    obtain ⟨k', hk'⟩ := howner n' hn'
    exact (ns.redisKey_inj (hk.symm.trans hk')).1

/-- **The services of one Redis are linearizable together**, as independent caches. Whatever the
clients of all services see of their calls, in any interleaving of their commands with expiries
and failures, they could have seen of one atomic lossy cache for each service. -/
theorem sharedCache_linearizable [DecidableEq N] {ks₀ : Keyspace}
    {h : List (PoolEvent (N × Op V I) Command (Reply E) (LogLine E I) (Result V E) RedisKey)}
    {s : Pool Keyspace (N × Op V I) Command (Reply E) (LogLine E I) (Result V E)}
    (hr : (sharedClients json ns ks₀).Reaches h s) :
    ∃ t, (lossyCaches json (ns.project ks₀)).Reaches (h.filterMap PoolEvent.call?) t ∧
      t.store = ns.project s.store :=
  (independent json ns).firstDecides.linearizable hr

/-- While `auth` heals a corrupt string, `sender` sets and reads the same key. -/
def healing : List (PoolAction (ServiceId × Op Bool Unit) (Option Unit) RedisKey) :=
  [.start (.auth, .get keyK none), .exec 0 none, .start (.sender, .set keyK true 1000),
    .exec 1 none, .exec 0 none, .start (.sender, .get keyK none), .exec 2 none]

theorem sharedCache_linearizable_healing :
    ∃ t, (lossyCaches (I := Unit) boolJson (serviceNamespaces.project corruptKeyspace)).Reaches
      [.called 0 (.auth, .get keyK none), .called 1 (.sender, .set keyK true 1000),
        .returned 1 (.set (.ok ())), .returned 0 (.get (.ok (.corrupt .jsonParse))),
        .called 2 (.sender, .get keyK none), .returned 2 (.get (.ok (.value true)))] t ∧
      t.store .auth keyK.chars = none ∧ t.store .sender keyK.chars = some "true" := by
  have hsome : ((sharedClients boolJson serviceNamespaces corruptKeyspace).execWhen
    (fun _ _ _ => True) healing).isSome := rfl
  obtain ⟨t, ht, hstore⟩ := sharedCache_linearizable (Machine.reachesWhen_get hsome)
  exact ⟨t, ht, (congrFun (congrFun hstore .auth) keyK.chars).trans rfl,
    (congrFun (congrFun hstore .sender) keyK.chars).trans rfl⟩

end EmailPlatform.Cache
