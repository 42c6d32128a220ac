import EmailPlatform.Js.Props
import Mathlib.Tactic.Common

/-!
# EmailPlatform.Health.Readiness

**The gateway's readiness probe.** Every other service answers its probe with one
`health.check` over all its indicators. The gateway settles its upstreams first, checks
them, checks the cache in a second call, and merges the two results by hand.

The merge loses nothing as long as both checks pass: `readiness_of_up`. A check that fails
throws, with what it has collected alone, so a failing upstream hides the cache and a
failing cache hides the upstreams. `readiness_uniform_iff` states that the probe is the
uniform check exactly when there is nothing to hide.
-/

namespace EmailPlatform.Health

/-! ### Terminus -/

/-- The `status` of a component. -/
inductive HealthIndicatorStatus
  | up | down
  deriving DecidableEq, Repr

/-- What is reported of a component, with any further fields. -/
structure Detail where
  status : HealthIndicatorStatus
  data : Props String
  deriving DecidableEq, Repr

/-- `HealthIndicatorResult`: components by their keys. -/
abbrev HealthIndicatorResult := Props Detail

/-- How an indicator function settles: with a result, or with a `HealthCheckError`, by its
`causes`. -/
abbrev Settled := Except HealthIndicatorResult HealthIndicatorResult

/-- `HealthCheckResult.status`. -/
inductive HealthCheckStatus
  | ok | error
  deriving DecidableEq, Repr

/-- `HealthCheckResult`, also the body of the `ServiceUnavailableException`. -/
structure HealthCheckResult where
  status : HealthCheckStatus
  info : HealthIndicatorResult
  error : HealthIndicatorResult
  details : HealthIndicatorResult
  deriving DecidableEq, Repr

namespace HealthCheckService

/-- The components of a result that have the given status, one by one. -/
def entries (status : HealthIndicatorStatus) (value : HealthIndicatorResult) :
    List HealthIndicatorResult :=
  (value.filter (·.2.status = status)).map fun p => [p]

/-- The healthy components that the indicators report. -/
def results (settled : List Settled) : List HealthIndicatorResult :=
  settled.flatMap fun
    | .ok value => entries .up value
    | .error _ => []

/-- The failed ones. -/
def errors (settled : List Settled) : List HealthIndicatorResult :=
  settled.flatMap fun
    | .ok value => entries .down value
    | .error causes => [causes]

/-- `getSummary`: one object of many. -/
def getSummary (rs : List HealthIndicatorResult) : HealthIndicatorResult :=
  rs.foldl Props.spread []

/-- `HealthCheckService.check`, once every indicator has settled. -/
def check (settled : List Settled) : Except HealthCheckResult HealthCheckResult :=
  let results := results settled
  let errors := errors settled
  let result : HealthCheckResult :=
    { status := if errors = [] then .ok else .error
      info := getSummary results
      error := getSummary errors
      details := getSummary (results ++ errors) }
  if result.status = .ok then .ok result else .error result

end HealthCheckService

/-! ### The controller -/

/-- How `isHealthy(key)` of an indicator settles. -/
inductive Verdict
  | up (data : Props String)
  | down (data : Props String)
  /-- A `HealthCheckError` with these data for the component. -/
  | rejected (data : Props String)
  deriving DecidableEq, Repr

/-- An indicator, the key it is asked for and its verdict. -/
structure Indicator where
  key : String
  verdict : Verdict
  deriving DecidableEq, Repr

/-- `indicator.isHealthy(key)`, settled. -/
def Indicator.isHealthy (i : Indicator) : Settled :=
  match i.verdict with
  | .up data => .ok [(i.key, ⟨.up, data⟩)]
  | .down data => .ok [(i.key, ⟨.down, data⟩)]
  | .rejected data => .error [(i.key, ⟨.down, data⟩)]

/-- The component is healthy. -/
def Indicator.IsUp (i : Indicator) : Prop := ∃ data, i.verdict = .up data

instance : DecidablePred Indicator.IsUp := fun i =>
  match h : i.verdict with
  | .up data => .isTrue ⟨data, h⟩
  | .down _ => .isFalse fun ⟨_, hup⟩ => by rw [h] at hup; cases hup
  | .rejected _ => .isFalse fun ⟨_, hup⟩ => by rw [h] at hup; cases hup

namespace HealthController

open HealthCheckService

/-- A settled promise as the function that settles likewise again. -/
def replay : Settled → Settled
  | .ok value => .ok value
  | .error reason => .error reason

/-- `HealthController.readiness` of the gateway. -/
def readiness (upstreams : List Indicator) (cache : Indicator) :
    Except HealthCheckResult HealthCheckResult := do
  let results := upstreams.map Indicator.isHealthy
  let upstreamsResult ← check (results.map replay)
  let cacheResult ← check [cache.isHealthy]
  return { upstreamsResult with
    info := Props.spread (Props.spread [] upstreamsResult.info) cacheResult.info
    details := Props.spread (Props.spread [] upstreamsResult.details) cacheResult.details }

/-- The one check of every other service. -/
def uniformReadiness (upstreams : List Indicator) (cache : Indicator) :
    Except HealthCheckResult HealthCheckResult :=
  check ((upstreams ++ [cache]).map Indicator.isHealthy)

end HealthController

/-! ### What a check reports -/

/-- What is reported of a component. -/
def Indicator.detail (i : Indicator) : Detail :=
  match i.verdict with
  | .up data => ⟨.up, data⟩
  | .down data | .rejected data => ⟨.down, data⟩

/-- One component's share of a report. -/
def Indicator.report (i : Indicator) : HealthIndicatorResult := [(i.key, i.detail)]

namespace HealthCheckService

theorem results_cons (i : Indicator) (is : List Indicator) :
    results ((i :: is).map Indicator.isHealthy) =
      (if i.IsUp then [i.report] else []) ++ results (is.map Indicator.isHealthy) := by
  obtain ⟨key, verdict⟩ := i
  cases verdict with
  | up data => rw [if_pos ⟨data, rfl⟩]; rfl
  | down data | rejected data => rw [if_neg (by rintro ⟨_, ⟨⟩⟩)]; rfl

theorem errors_cons (i : Indicator) (is : List Indicator) :
    errors ((i :: is).map Indicator.isHealthy) =
      (if i.IsUp then [] else [i.report]) ++ errors (is.map Indicator.isHealthy) := by
  obtain ⟨key, verdict⟩ := i
  cases verdict with
  | up data => rw [if_pos ⟨data, rfl⟩]; rfl
  | down data | rejected data => rw [if_neg (by rintro ⟨_, ⟨⟩⟩)]; rfl

/-- The healthy components are reported as healthy. -/
theorem results_eq (is : List Indicator) :
    results (is.map Indicator.isHealthy) =
      (is.filter fun i => i.IsUp).map Indicator.report := by
  induction is with
  | nil => rfl
  | cons i is ih =>
      rw [results_cons, ih, List.filter_cons]
      by_cases hi : i.IsUp <;> simp [hi]

/-- The others as failed, whether they say so or reject. -/
theorem errors_eq (is : List Indicator) :
    errors (is.map Indicator.isHealthy) =
      (is.filter fun i => ¬ i.IsUp).map Indicator.report := by
  induction is with
  | nil => rfl
  | cons i is ih =>
      rw [errors_cons, ih, List.filter_cons]
      by_cases hi : i.IsUp <;> simp [hi]

theorem getSummary_concat (rs : List HealthIndicatorResult) (r : HealthIndicatorResult) :
    getSummary (rs ++ [r]) = (getSummary rs).spread r := by
  unfold getSummary
  rw [List.foldl_append]
  rfl

theorem mem_keys_foldl {rs : List HealthIndicatorResult} {acc : HealthIndicatorResult}
    {k : String} :
    k ∈ (rs.foldl Props.spread acc).keys ↔ k ∈ acc.keys ∨ ∃ r ∈ rs, k ∈ r.keys := by
  induction rs generalizing acc with
  | nil => simp
  | cons r rs ih =>
      rw [List.foldl_cons, ih, Props.mem_keys_spread, List.exists_mem_cons_iff]
      tauto

/-- A summary has the keys of its parts. -/
theorem mem_keys_getSummary {rs : List HealthIndicatorResult} {k : String} :
    k ∈ (getSummary rs).keys ↔ ∃ r ∈ rs, k ∈ r.keys := by
  unfold getSummary
  rw [mem_keys_foldl]
  exact ⟨fun h => h.resolve_left List.not_mem_nil, .inr⟩

theorem nodup_keys_getSummary (rs : List HealthIndicatorResult) :
    (getSummary rs).keys.Nodup := by
  unfold getSummary
  have hfold : ∀ acc : HealthIndicatorResult, acc.keys.Nodup →
      (rs.foldl Props.spread acc).keys.Nodup := by
    induction rs with
    | nil => exact fun acc h => h
    | cons r rs ih => exact fun acc h => ih _ (Props.nodup_keys_spread h r)
  exact hfold [] List.nodup_nil

theorem mem_keys_getSummary_reports {is : List Indicator} {k : String} :
    k ∈ (getSummary (is.map Indicator.report)).keys ↔ ∃ i ∈ is, i.key = k := by
  rw [mem_keys_getSummary]
  constructor
  · intro ⟨r, hr, hk⟩
    obtain ⟨i, hi, rfl⟩ := List.mem_map.mp hr
    exact ⟨i, hi, (List.mem_singleton.mp hk).symm⟩
  · intro h
    obtain ⟨i, hi, rfl⟩ := h
    exact ⟨i.report, List.mem_map_of_mem hi, List.mem_singleton_self _⟩

/-- A check of healthy components. -/
theorem check_of_up {is : List Indicator} (h : ∀ i ∈ is, i.IsUp) :
    check (is.map Indicator.isHealthy) =
      .ok ⟨.ok, getSummary (is.map Indicator.report), [],
        getSummary (is.map Indicator.report)⟩ := by
  have hup : is.filter (fun i => decide i.IsUp) = is := by
    rw [List.filter_eq_self]
    exact fun i hi => decide_eq_true (h i hi)
  have hdown : is.filter (fun i => decide ¬ i.IsUp) = [] := by
    rw [List.filter_eq_nil_iff]
    exact fun i hi => by simpa using h i hi
  unfold check
  rw [results_eq, errors_eq, hup, hdown, List.map_nil]
  simp only [List.append_nil, if_true]
  rfl

/-- A check with a failed component rejects and reports them all. -/
theorem check_of_down {is : List Indicator} (h : ∃ i ∈ is, ¬ i.IsUp) :
    ∃ r, check (is.map Indicator.isHealthy) = .error r ∧
      (∀ k, k ∈ r.details.keys ↔ ∃ i ∈ is, i.key = k) ∧
      ∀ k, k ∈ r.info.keys ↔ ∃ i ∈ is, i.IsUp ∧ i.key = k := by
  obtain ⟨i, hi, hdown⟩ := h
  have herrors : errors (is.map Indicator.isHealthy) ≠ [] := by
    rw [errors_eq]
    exact List.ne_nil_of_mem (List.mem_map_of_mem
      (List.mem_filter.mpr ⟨hi, decide_eq_true hdown⟩))
  refine ⟨⟨.error, getSummary (results (is.map Indicator.isHealthy)),
    getSummary (errors (is.map Indicator.isHealthy)),
    getSummary (results (is.map Indicator.isHealthy) ++ errors (is.map Indicator.isHealthy))⟩,
    ?_, ?_, ?_⟩
  · unfold check
    simp only [if_neg herrors]
    rfl
  · intro k
    rw [results_eq, errors_eq, ← List.map_append, mem_keys_getSummary_reports]
    simp only [List.mem_append, List.mem_filter, decide_eq_true_eq]
    constructor
    · rintro ⟨j, hj | hj, hk⟩ <;> exact ⟨j, hj.1, hk⟩
    · intro ⟨j, hj, hk⟩
      by_cases hup : j.IsUp
      · exact ⟨j, .inl ⟨hj, hup⟩, hk⟩
      · exact ⟨j, .inr ⟨hj, hup⟩, hk⟩
  · intro k
    rw [results_eq, mem_keys_getSummary_reports]
    simp only [List.mem_filter, decide_eq_true_eq, and_assoc]

end HealthCheckService

/-! ### The probe and the uniform check -/

namespace HealthController

open HealthCheckService

theorem map_replay (results : List Settled) : results.map replay = results := by
  have hid : ∀ s : Settled, replay s = s := by
    intro s
    cases s <;> rfl
  rw [List.map_congr_left fun s _ => hid s, List.map_id']

/-- The first stage throws what it has. -/
theorem readiness_of_down {upstreams : List Indicator} {cache : Indicator}
    {r : HealthCheckResult} (h : check (upstreams.map Indicator.isHealthy) = .error r) :
    readiness upstreams cache = .error r := by
  show (check ((upstreams.map Indicator.isHealthy).map replay)).bind _ = _
  rw [map_replay, h]
  rfl

/-- Past the first stage the second decides. -/
theorem readiness_of_up {upstreams : List Indicator} (cache : Indicator)
    (h : ∀ i ∈ upstreams, i.IsUp) :
    readiness upstreams cache = (check [cache.isHealthy]).map fun cacheResult =>
      ⟨.ok, (getSummary (upstreams.map Indicator.report)).spread cacheResult.info, [],
        (getSummary (upstreams.map Indicator.report)).spread cacheResult.details⟩ := by
  show (check ((upstreams.map Indicator.isHealthy).map replay)).bind _ = _
  rw [map_replay, check_of_up h]
  have hnil : Props.spread [] (getSummary (upstreams.map Indicator.report)) =
      getSummary (upstreams.map Indicator.report) := Props.nil_spread (nodup_keys_getSummary _)
  show (check [cache.isHealthy]).bind _ = _
  cases check [cache.isHealthy] with
  | error r => rfl
  | ok r =>
      show Except.ok _ = Except.ok _
      rw [hnil]

/-- Healthy components are reported alike by the two. -/
theorem readiness_eq_of_up {upstreams : List Indicator} {cache : Indicator}
    (h : ∀ i ∈ upstreams, i.IsUp) (hcache : cache.IsUp) :
    readiness upstreams cache = uniformReadiness upstreams cache := by
  have hall : ∀ i ∈ upstreams ++ [cache], i.IsUp := by
    intro i hi
    rcases List.mem_append.mp hi with hi | hi
    · exact h i hi
    · rw [List.mem_singleton.mp hi]
      exact hcache
  have hcaches : ∀ i ∈ [cache], i.IsUp := by
    intro i hi
    rw [List.mem_singleton.mp hi]
    exact hcache
  have hone : check [cache.isHealthy] =
      .ok ⟨.ok, getSummary [cache.report], [], getSummary [cache.report]⟩ :=
    check_of_up hcaches
  have hsingle : getSummary [cache.report] = cache.report :=
    Props.nil_spread (by simp [Indicator.report, Props.keys])
  unfold uniformReadiness
  rw [readiness_of_up cache h, hone, hsingle, check_of_up hall, List.map_append,
    List.map_singleton, getSummary_concat]
  rfl

/-- A failing upstream hides the cache: the body has no entry for it. -/
theorem readiness_ne_of_upstream {upstreams : List Indicator} {cache : Indicator}
    (h : ∃ i ∈ upstreams, ¬ i.IsUp) (hkey : ∀ i ∈ upstreams, i.key ≠ cache.key) :
    readiness upstreams cache ≠ uniformReadiness upstreams cache := by
  obtain ⟨r, hr, hdetails, -⟩ := check_of_down h
  obtain ⟨i, hi, hdown⟩ := h
  obtain ⟨r', hr', hdetails', -⟩ :=
    check_of_down ⟨i, List.mem_append_left [cache] hi, hdown⟩
  intro heq
  unfold uniformReadiness at heq
  rw [readiness_of_down hr, hr'] at heq
  have hcache : cache.key ∈ r'.details.keys :=
    (hdetails' _).mpr ⟨cache, List.mem_append_right _ (List.mem_singleton_self _), rfl⟩
  rw [← Except.error.inj heq, hdetails] at hcache
  obtain ⟨j, hj, hjk⟩ := hcache
  exact hkey j hj hjk

/-- A failing cache hides the upstreams. -/
theorem readiness_ne_of_cache {upstreams : List Indicator} {cache i : Indicator}
    (h : ∀ i ∈ upstreams, i.IsUp) (hi : i ∈ upstreams) (hcache : ¬ cache.IsUp) :
    readiness upstreams cache ≠ uniformReadiness upstreams cache := by
  obtain ⟨r, hr, -, hinfo⟩ := check_of_down ⟨cache, List.mem_singleton_self cache, hcache⟩
  obtain ⟨r', hr', -, hinfo'⟩ :=
    check_of_down ⟨cache, List.mem_append_right upstreams (List.mem_singleton_self cache), hcache⟩
  intro heq
  unfold uniformReadiness at heq
  have hstage : readiness upstreams cache = .error r := by
    rw [readiness_of_up cache h]
    show (check ([cache].map Indicator.isHealthy)).map _ = _
    rw [hr]
    rfl
  rw [hstage, hr'] at heq
  have hkey : i.key ∈ r'.info.keys :=
    (hinfo' _).mpr ⟨i, List.mem_append_left _ hi, h i hi, rfl⟩
  rw [← Except.error.inj heq, hinfo] at hkey
  obtain ⟨j, hj, hup, -⟩ := hkey
  rw [List.mem_singleton.mp hj] at hup
  exact hcache hup

/-- **The probe is the uniform check** if and only if every component is up, or there are
no upstreams whose report could be lost. -/
theorem readiness_uniform_iff {upstreams : List Indicator} {cache : Indicator}
    (hkeys : ((upstreams ++ [cache]).map Indicator.key).Nodup) :
    readiness upstreams cache = uniformReadiness upstreams cache ↔
      (∀ i ∈ upstreams ++ [cache], i.IsUp) ∨ upstreams = [] := by
  have hkey : ∀ i ∈ upstreams, i.key ≠ cache.key := by
    intro i hi heq
    rw [List.map_append, List.nodup_append] at hkeys
    exact hkeys.2.2 _ (List.mem_map_of_mem hi) _ (List.mem_singleton_self _) heq
  constructor
  · intro heq
    by_cases hup : ∀ i ∈ upstreams, i.IsUp
    · by_cases hcache : cache.IsUp
      · left
        intro i hi
        rcases List.mem_append.mp hi with hi | hi
        · exact hup i hi
        · rw [List.mem_singleton.mp hi]
          exact hcache
      · right
        rw [List.eq_nil_iff_forall_not_mem]
        intro i hi
        exact readiness_ne_of_cache hup hi hcache heq
    · have hdown : ∃ i ∈ upstreams, ¬ i.IsUp := by
        simpa only [not_forall, exists_prop] using hup
      exact absurd heq (readiness_ne_of_upstream hdown hkey)
  · intro h
    rcases h with hall | rfl
    · exact readiness_eq_of_up (fun i hi => hall i (List.mem_append_left _ hi))
        (hall cache (List.mem_append_right _ (List.mem_singleton_self _)))
    · by_cases hcache : cache.IsUp
      · exact readiness_eq_of_up (fun i hi => absurd hi List.not_mem_nil) hcache
      · obtain ⟨r, hr, -⟩ := check_of_down ⟨cache, List.mem_singleton_self cache, hcache⟩
        have hstage : readiness [] cache = .error r := by
          rw [readiness_of_up cache fun i hi => absurd hi List.not_mem_nil]
          show (check ([cache].map Indicator.isHealthy)).map _ = _
          rw [hr]
          rfl
        rw [hstage]
        exact hr.symm

/-- Five healthy upstreams and a healthy cache. -/
theorem readiness_uniform_allUp :
    readiness (["auth", "sender", "parser", "audience", "notifier"].map fun k => ⟨k, .up []⟩)
        ⟨"cache", .up []⟩ =
      uniformReadiness
        (["auth", "sender", "parser", "audience", "notifier"].map fun k => ⟨k, .up []⟩)
        ⟨"cache", .up []⟩ :=
  (readiness_uniform_iff (by decide)).mpr (.inl (by decide))

/-- With one upstream down the state of the cache is not reported. -/
theorem readiness_not_uniform :
    readiness [⟨"auth", .down [("message", "down")]⟩] ⟨"cache", .down []⟩ ≠
      uniformReadiness [⟨"auth", .down [("message", "down")]⟩] ⟨"cache", .down []⟩ := by
  decide

end HealthController

end EmailPlatform.Health
