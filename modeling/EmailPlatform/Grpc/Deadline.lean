import EmailPlatform.Grpc.Client

/-!
# EmailPlatform.Grpc.Deadline

**Two deadlines of one call.** The facade tells the server `deadlineMs` or the configured
default; the interceptor, which sees only the default, sets the deadline at which the client
gives up. Without an override the two agree. With one they agree only where it is the
default again, up to a millisecond (`deadlineAgrees_iff`).

A deadline is a `Date`: the sum of the clock and the default is rounded to a double and cut
to a whole millisecond, and it has to be a valid time.
-/

namespace EmailPlatform.Grpc

/-- The deadline lies `d` milliseconds after `now`, up to a millisecond. -/
def DeadlineAgrees (now : ℕ) (d : JsNumber) (deadline : Option Deadline) : Prop :=
  ∃ time q : ℚ, deadline = some (.date (.finite time)) ∧ d = .finite q ∧
    |time - (now + q)| < 1

/-- Both mechanisms have the deadline of a call: the metadata says it, and the deadline that
governs the call keeps it. -/
structure DeadlinesAgree {R : Type*} (format : NumberFormat) (config : GrpcConfig) (now : ℕ)
    (callOpts : Option CallOpts) (governed : GovernedCall R) : Prop where
  written : governed.call.metadata = [(METADATA_HEADER,
    format.toString (deadlineMs (.finite config.GRPC_DEADLINE_MS) callOpts) ++
      METADATA_UNIT_MILLISECONDS)]
  kept : DeadlineAgrees now (deadlineMs (.finite config.GRPC_DEADLINE_MS) callOpts)
    governed.deadline

/-- `ms` in whole milliseconds: cut, unless the clock's double next to `now + ms` is the
whole millisecond after it. -/
def wholeMs (now : ℕ) (ms : ℚ) : ℤ :=
  if Double.round (now + ms) = .finite (now + ⌈ms⌉) then ⌈ms⌉ else ⌊ms⌋

theorem abs_sub_wholeMs_lt (now : ℕ) (ms : ℚ) : |ms - wholeMs now ms| < 1 := by
  have hfloor := Int.floor_le ms
  have hfloor' := Int.lt_floor_add_one ms
  have hceil := Int.le_ceil ms
  have hceil' := Int.ceil_lt_add_one ms
  unfold wholeMs
  split <;> rw [abs_lt] <;> constructor <;> linarith

/-! ### The clock -/

theorem maxTime_eq : maxTime = (8640000000000000 : ℕ) := by norm_num [maxTime]

theorem isDouble_maxTime : Double.IsDouble maxTime := by
  rw [maxTime_eq]
  exact Double.isDouble_natCast (by norm_num)

section

variable {x : ℚ}

/-- Just above the largest time value, rounding is to the nearest integer. -/
theorem round_of_maxTime_lt (hlo : maxTime < x) (hhi : x < maxTime + 1) :
    Double.round x = .finite (if x ≤ maxTime + 1 / 2 then maxTime else maxTime + 1) := by
  have hmax : maxTime = 8640000000000000 := rfl
  have hfloor : ⌊x⌋ = 8640000000000000 :=
    Int.floor_eq_iff.mpr ⟨by push_cast; linarith, by push_cast; linarith⟩
  rw [Double.round_eq_roundEven (by linarith) (by linarith)]
  split
  · next hle =>
    rw [Double.roundEven_eq_floor (by rw [hfloor]; push_cast; linarith) (by rw [hfloor]; rfl),
      hfloor]
    rfl
  · next hlt =>
    rw [Double.roundEven_eq_floor_add_one (by rw [hfloor]; push_cast; linarith), hfloor, hmax]
    norm_num

/-- A time up to half a millisecond above the largest becomes a double next to it, within
the valid times. -/
theorem exists_round_eq (hx : 0 < x) (hle : x ≤ maxTime + 1 / 2) :
    ∃ q, Double.round x = .finite q ∧ q ≤ maxTime ∧ ⌊x⌋ ≤ q ∧ q ≤ ⌈x⌉ := by
  have hmax : maxTime = 8640000000000000 := rfl
  have hceil : ⌈x⌉ ≤ 8640000000000001 := Int.ceil_le.mpr (by push_cast; linarith)
  have hfloor : ⌊x⌋ ≤ ⌈x⌉ := Int.floor_le_ceil x
  have hfloor0 : 0 ≤ ⌊x⌋ := Int.floor_nonneg.mpr hx.le
  have hdouble : ∀ n : ℤ, 0 ≤ n → n ≤ ⌈x⌉ → Double.IsDouble n := fun n h0 hn =>
    Double.isDouble_intCast (abs_lt.mpr ⟨by omega, by omega⟩)
  obtain ⟨q, hq, hqceil⟩ := Double.round_le hx (hdouble _ (by omega) le_rfl) (Int.le_ceil x)
  refine ⟨q, hq, ?_, Double.le_round hx (hdouble _ hfloor0 hfloor) (Int.floor_le x) hq, hqceil⟩
  rcases le_or_gt x maxTime with hmaxTime | hmaxTime
  · obtain ⟨q', hq', hle'⟩ := Double.round_le hx isDouble_maxTime hmaxTime
    rwa [JsNumber.finite.inj (hq.symm.trans hq')]
  · rw [round_of_maxTime_lt hmaxTime (by linarith), if_pos hle] at hq
    exact (JsNumber.finite.inj hq).ge

/-- A later time is not valid. -/
theorem newDate_round_eq_nan (hlt : maxTime + 1 / 2 < x) : newDate (Double.round x) = .nan := by
  have hmax : maxTime = 8640000000000000 := rfl
  have hlater : ∀ q, Double.round x = .finite q → maxTime < q := by
    intro q hq
    rcases lt_or_ge x (maxTime + 1) with hbelow | habove
    · rw [round_of_maxTime_lt (by linarith) hbelow, if_neg hlt.not_ge] at hq
      have hval := JsNumber.finite.inj hq
      linarith
    · have hdouble : Double.IsDouble (maxTime + 1) := by
        have h := @Double.isDouble_natCast 8640000000000001 (by norm_num)
        rw [hmax]
        norm_num at h ⊢
        exact h
      have hle := Double.le_round (by linarith) hdouble habove hq
      linarith
  cases hround : Double.round x with
  | finite q =>
      have hq := hlater q hround
      rw [newDate, if_neg]
      exact not_le.mpr (hq.trans_le (le_abs_self q))
  | _ => rfl

end

/-- The date of a default that lies within the valid times. -/
theorem newDate_add_eq {now : ℕ} {ms : ℚ} (hms : 0 < ms) (hle : now + ms ≤ maxTime + 1 / 2) :
    newDate (JsNumber.add now (.finite ms)) = .finite (now + wholeMs now ms) := by
  have hnow : (0 : ℚ) ≤ now := Nat.cast_nonneg now
  obtain ⟨q, hq, hqmax, hfloor, hceil⟩ := exists_round_eq (by linarith) hle
  have hadd : JsNumber.add now (.finite ms) = .finite q := hq
  rw [Int.floor_natCast_add] at hfloor
  rw [Int.ceil_natCast_add] at hceil
  push_cast at hfloor hceil
  have hms0 : (0 : ℚ) ≤ ⌊ms⌋ := by exact_mod_cast Int.floor_nonneg.mpr hms.le
  have hq0 : 0 ≤ q := by linarith
  rw [hadd, newDate, if_pos (by rwa [abs_of_nonneg hq0]), if_pos hq0, wholeMs, hq]
  congr 1
  split
  · next heq =>
    rw [JsNumber.finite.inj heq]
    exact_mod_cast Int.floor_intCast _
  · next hne =>
    have hlt : q < now + ⌈ms⌉ := lt_of_le_of_ne hceil fun h => hne (congrArg _ h)
    have hstep : (⌈ms⌉ : ℚ) ≤ ⌊ms⌋ + 1 := by exact_mod_cast Int.ceil_le_floor_add_one ms
    have hwhole : ⌊q⌋ = now + ⌊ms⌋ :=
      Int.floor_eq_iff.mpr ⟨by push_cast; linarith, by push_cast; linarith⟩
    rw [hwhole]
    push_cast
    rfl

/-! ### The law of deadlines -/

/-- What leaves the client for a call. -/
theorem defineGrpcClient_eq {R : Type*} {format : NumberFormat} {rpcMethods : List String}
    {config : GrpcConfig} {now : ℕ} {method : String} {request : R}
    {callOpts : Option CallOpts} {governed : GovernedCall R}
    (hcall : defineGrpcClient format rpcMethods config now method request callOpts =
      some governed) :
    governed = ⟨⟨method, request, [(METADATA_HEADER,
        format.toString (deadlineMs (.finite config.GRPC_DEADLINE_MS) callOpts) ++
          METADATA_UNIT_MILLISECONDS)]⟩,
      some (.date (newDate (JsNumber.add now (.finite config.GRPC_DEADLINE_MS))))⟩ := by
  obtain ⟨call, hraw, rfl⟩ := Option.map_eq_some_iff.mp hcall
  rw [promisifyGrpcClient] at hraw
  split at hraw
  · cases hraw
    rfl
  · cases hraw

/-- The distance of a deadline from what it should be does not depend on the clock. -/
theorem deadlineAgrees_date_iff {now : ℕ} {d : JsNumber} {w : ℤ} :
    DeadlineAgrees now d (some (.date (.finite (now + w)))) ↔ ∃ q, d = .finite q ∧ |q - w| < 1 := by
  have hdist : ∀ q : ℚ, |(now + w : ℚ) - (now + q)| = |q - w| := by
    intro q
    rw [add_sub_add_left_eq_sub, abs_sub_comm]
  constructor
  · intro ⟨time, q, htime, hd, hlt⟩
    cases htime
    exact ⟨q, hd, hdist q ▸ hlt⟩
  · intro ⟨q, hd, hlt⟩
    exact ⟨_, q, rfl, hd, (hdist q).symm ▸ hlt⟩

/-- The interceptor sets the deadline of every call to the default. -/
theorem deadlinesAgree_iff_date {R : Type*} {format : NumberFormat} {rpcMethods : List String}
    {config : GrpcConfig} {now : ℕ} {method : String} {request : R}
    {callOpts : Option CallOpts} {governed : GovernedCall R}
    (hcall : defineGrpcClient format rpcMethods config now method request callOpts =
      some governed) :
    DeadlinesAgree format config now callOpts governed ↔
      DeadlineAgrees now (deadlineMs (.finite config.GRPC_DEADLINE_MS) callOpts)
        (some (.date (newDate (JsNumber.add now (.finite config.GRPC_DEADLINE_MS))))) := by
  obtain rfl := defineGrpcClient_eq hcall
  exact ⟨DeadlinesAgree.kept, fun h => ⟨rfl, h⟩⟩

/-- The deadline of a call agrees with what its metadata says if and only if the default
gives a valid time and an override, if there is one, is less than a millisecond off the
default in whole milliseconds. -/
theorem deadlinesAgree_iff {R : Type*} (format : NumberFormat) (rpcMethods : List String)
    (config : GrpcConfig) (now : ℕ) (method : String) (request : R) (callOpts : Option CallOpts)
    {governed : GovernedCall R}
    (hcall : defineGrpcClient format rpcMethods config now method request callOpts =
      some governed) :
    DeadlinesAgree format config now callOpts governed ↔
      now + config.GRPC_DEADLINE_MS ≤ maxTime + 1 / 2 ∧
        ∀ o ∈ callOpts.bind CallOpts.deadlineMs,
          ∃ q, o = .finite q ∧ |q - wholeMs now config.GRPC_DEADLINE_MS| < 1 := by
  rw [deadlinesAgree_iff_date hcall]
  rcases le_or_gt (now + config.GRPC_DEADLINE_MS) (maxTime + 1 / 2) with hle | hlt
  · rw [newDate_add_eq config.pos hle, deadlineAgrees_date_iff, deadlineMs]
    cases hover : callOpts.bind CallOpts.deadlineMs with
    | none =>
        have habs := abs_sub_wholeMs_lt now config.GRPC_DEADLINE_MS
        exact ⟨fun _ => ⟨hle, fun o ho => by cases ho⟩, fun _ => ⟨_, rfl, habs⟩⟩
    | some o =>
        refine ⟨fun h => ⟨hle, fun o' ho' => ?_⟩, fun h => h.2 o rfl⟩
        cases ho'
        exact h
  · have hnan : newDate (JsNumber.add now (.finite config.GRPC_DEADLINE_MS)) = .nan :=
      newDate_round_eq_nan hlt
    rw [hnan]
    constructor
    · intro ⟨time, q, htime, _⟩
      cases htime
    · exact fun h => absurd h.1 hlt.not_ge

/-- A default of five seconds. -/
def fiveSeconds : GrpcConfig where
  GRPC_DEADLINE_MS := 5000
  isDouble := by exact_mod_cast @Double.isDouble_natCast 5000 (by norm_num)
  accepted := by simp [GrpcSchema.acceptsDeadline]

/-- The deadlines of a call without an override agree. -/
theorem deadlinesAgree_fiveSeconds :
    ∃ governed, defineGrpcClient anyFormat ["Send"] fiveSeconds 1700000000000 "Send" () none =
        some governed ∧
      DeadlinesAgree anyFormat fiveSeconds 1700000000000 none governed := by
  obtain ⟨governed, hcall⟩ : ∃ governed, defineGrpcClient anyFormat ["Send"] fiveSeconds
      1700000000000 "Send" () none = some governed := ⟨_, rfl⟩
  refine ⟨governed, hcall, (deadlinesAgree_iff anyFormat ["Send"] fiveSeconds 1700000000000 "Send"
    () none hcall).mpr ⟨?_, fun o ho => by cases ho⟩⟩
  norm_num [fiveSeconds, maxTime]

/-- With an override of a minute, the client gives up after five seconds. -/
theorem not_deadlinesAgree_minute :
    ∃ governed, defineGrpcClient anyFormat ["Send"] fiveSeconds 1700000000000 "Send" ()
        (some ⟨some (60000 : ℕ)⟩) = some governed ∧
      ¬ DeadlinesAgree anyFormat fiveSeconds 1700000000000 (some ⟨some (60000 : ℕ)⟩)
        governed := by
  obtain ⟨governed, hcall⟩ : ∃ governed, defineGrpcClient anyFormat ["Send"] fiveSeconds
      1700000000000 "Send" () (some ⟨some (60000 : ℕ)⟩) = some governed := ⟨_, rfl⟩
  refine ⟨governed, hcall, fun h => ?_⟩
  rw [deadlinesAgree_iff_date hcall, newDate_add_eq fiveSeconds.pos
    (by norm_num [fiveSeconds, maxTime]), deadlineAgrees_date_iff] at h
  obtain ⟨q, hq, hlt⟩ := h
  have hq' : ((60000 : ℕ) : ℚ) = q := JsNumber.finite.inj hq
  have hwhole := abs_lt.mp (abs_sub_wholeMs_lt 1700000000000 fiveSeconds.GRPC_DEADLINE_MS)
  have hfive : fiveSeconds.GRPC_DEADLINE_MS = 5000 := rfl
  push_cast at hq'
  have hdist := abs_lt.mp hlt
  linarith [hwhole.1, hdist.2]

end EmailPlatform.Grpc
