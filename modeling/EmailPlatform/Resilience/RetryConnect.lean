import EmailPlatform.Http.Errors
import EmailPlatform.Js.NumberText

/-!
# EmailPlatform.Resilience.RetryConnect

**A connection is retried within bounds.** `retryConnect` makes at most `maxRetries` attempts
and waits once between two of them (`loop_of_fulfilled`, `loop_of_rejected`). The exponential
is capped, but jitter is added to what the cap left: a wait may exceed `maxDelayMs`. And an
attempt that fails with a value without a text ends the loop at once (`loop_of_untold`).
`boundedRetry_iff` says when neither happens.

The loop runs with fuel. What `connectFn` and `Math.random` give in round `i` is `outcomes i`
and `random i`. The variable `attempt` is `i` up to `2 ^ 53`, where a double that counts in
ones stands still (`add_one_eq`); a limit above that is never reached.
-/

namespace EmailPlatform.Resilience

open EmailPlatform.Http (Thrown)

/-- `RetryOptions` -/
structure RetryOptions where
  maxRetries : JsNumber
  baseDelayMs : JsNumber
  maxDelayMs : JsNumber
  deriving DecidableEq, Repr

/-- `RETRY_DEFAULTS` -/
def RETRY_DEFAULTS : RetryOptions := ⟨(5 : ℕ), (200 : ℕ), (5000 : ℕ)⟩

/-- `Partial<RetryOptions>`, with `none` for a key that is absent. -/
structure PartialRetryOptions where
  maxRetries : Option JsNumber
  baseDelayMs : Option JsNumber
  maxDelayMs : Option JsNumber
  deriving DecidableEq, Repr

/-- `{ ...RETRY_DEFAULTS, ...options }` -/
def mergeOptions : Option PartialRetryOptions → RetryOptions
  | none => RETRY_DEFAULTS
  | some o =>
    { maxRetries := o.maxRetries.getD RETRY_DEFAULTS.maxRetries
      baseDelayMs := o.baseDelayMs.getD RETRY_DEFAULTS.baseDelayMs
      maxDelayMs := o.maxDelayMs.getD RETRY_DEFAULTS.maxDelayMs }

/-- What a promise rejects with. -/
inductive Failure
  /-- An `Error`, or a value with a text. -/
  | thrown (error : Thrown)
  /-- A value that `String` throws on, with what it throws: an object without a prototype, or
  one whose `toString` throws. -/
  | textless (thrown : Failure)
  deriving DecidableEq, Repr

/-- How a promise settles. -/
inductive Outcome (T : Type)
  | fulfilled (r : T)
  | rejected (e : Failure)
  deriving DecidableEq, Repr

/-- What `retryConnect` does, in order. -/
inductive Event (T : Type)
  | attempted (attempt : ℕ) (outcome : Outcome T)
  | info (dependency msg : String)
  | warn (dependency : String) (attempt : ℕ) (maxRetries retryInMs : JsNumber) (msg : String)
  | slept (ms : JsNumber)

/-- `delay`, after attempt `attempt`. -/
def delay (options : RetryOptions) (attempt : ℕ) (random : ℚ) : JsNumber :=
  JsNumber.add
    (JsNumber.min (JsNumber.mul options.baseDelayMs (JsNumber.twoPow (attempt - 1)))
      options.maxDelayMs)
    (JsNumber.floor (JsNumber.mul (.finite random) options.baseDelayMs))

/-- `attempt++` -/
def increment (attempt : ℕ) : ℕ := if attempt < 2 ^ 53 then attempt + 1 else attempt

/-- `new Error(message)` -/
def Failure.newError (message : String) : Failure := .thrown (.newError message)

/-- `message`, of what an attempt failed with, or what `String(error)` throws. -/
def messageOf : Failure → Except Failure String
  | .thrown error => .ok (if error.isError then error.message else error.text)
  | .textless thrown => .error thrown

section

variable {T : Type} (format : NumberFormat) (name : String) (outcomes : ℕ → Outcome T)
  (random : ℕ → ℚ) (options : RetryOptions)

/-- The text of the error after the last attempt. -/
def failureText (message : String) : String :=
  let count := String.ofList (format.toString options.maxRetries)
  s!"Failed to connect to {name} after {count} attempts: {message}"

/-- The text of the error when the loop ends by its condition. -/
def exhaustedText : String :=
  let count := String.ofList (format.toString options.maxRetries)
  s!"Failed to connect to {name} after {count} attempts"

/-- An attempt that failed, and the wait before the next. -/
def retry (i attempt : ℕ) : List (Event T) :=
  let ms := delay options attempt (random i)
  [.attempted i (outcomes i),
    .warn name attempt options.maxRetries ms s!"Waiting for {name}...", .slept ms]

/-- The loop from round `i` on: what it does and how the promise settles. -/
def loop : ℕ → ℕ → ℕ → Option (List (Event T) × Outcome T)
  | 0, _, _ => none
  | fuel + 1, i, attempt =>
    if JsNumber.le attempt options.maxRetries then
      match outcomes i with
      | .fulfilled result =>
        some ([.attempted i (outcomes i), .info name s!"Connected to {name}"],
          .fulfilled result)
      | .rejected error =>
        match messageOf error with
        -- thrown inside the `catch`, so nothing catches it
        | .error thrown => some ([.attempted i (outcomes i)], .rejected thrown)
        | .ok message =>
          if (attempt : JsNumber) = options.maxRetries then
            some ([.attempted i (outcomes i)],
              .rejected (.newError (failureText format name options message)))
          else
            (loop fuel (i + 1) (increment attempt)).map fun (events, outcome) =>
              (retry name outcomes random options i attempt ++ events, outcome)
    else some ([], .rejected (.newError (exhaustedText format name options)))

/-- `retryConnect` -/
def retryConnect (options : Option PartialRetryOptions) (fuel : ℕ) :
    Option (List (Event T) × Outcome T) :=
  loop format name outcomes random (mergeOptions options) fuel 1 1

/-- The value of `attempt` in round `i`. -/
def attemptAt (i : ℕ) : ℕ := min i (2 ^ 53)

/-- The `i`-th of the attempts that failed. -/
def retryAt (i : ℕ) : List (Event T) := retry name outcomes random options i (attemptAt i)

end

/-! ### The attempts -/

/-- An attempt that fails. -/
def Fails {T : Type} (outcomes : ℕ → Outcome T) (i : ℕ) : Prop := ∃ e, outcomes i = .rejected e

/-- An attempt that fails with something that has a message. -/
def Told {T : Type} (outcomes : ℕ → Outcome T) (i : ℕ) : Prop :=
  ∃ e message, outcomes i = .rejected e ∧ messageOf e = .ok message

theorem Told.fails {T : Type} {outcomes : ℕ → Outcome T} {i : ℕ} (h : Told outcomes i) :
    Fails outcomes i := by
  obtain ⟨e, _, he, _⟩ := h
  exact ⟨e, he⟩

theorem natCast_inj {a b : ℕ} : (a : JsNumber) = b ↔ a = b := by
  constructor
  · intro h
    exact_mod_cast JsNumber.finite.inj h
  · intro h
    rw [h]

/-- `attempt++` is the sum of doubles. -/
theorem add_one_eq {attempt : ℕ} (h : attempt ≤ 2 ^ 53) :
    JsNumber.add attempt (1 : ℕ) = increment attempt := by
  rcases h.lt_or_eq with hlt | rfl
  · have hnext : Double.IsDouble (attempt + 1 : ℕ) := Double.isDouble_of_le hlt
    have hadd : JsNumber.add attempt (1 : ℕ) = Double.round (attempt + 1 : ℕ) := by
      rw [Nat.cast_add]
      rfl
    rw [hadd, Double.round_eq_self hnext, increment, if_pos hlt]
    rfl
  · decide +kernel

theorem attemptAt_le (i : ℕ) : attemptAt i ≤ i := min_le_left _ _

theorem increment_attemptAt (i : ℕ) : increment (attemptAt i) = attemptAt (i + 1) := by
  unfold increment attemptAt
  split <;> omega

section

variable {T : Type} {format : NumberFormat} {name : String} {outcomes : ℕ → Outcome T}
  {random : ℕ → ℚ} {options : RetryOptions} {n : ℕ}

/-- An attempt that fails before the last is followed by a wait and the rest of the loop. -/
theorem loop_of_fail (hn : options.maxRetries = n) {i : ℕ} (hle : attemptAt i ≤ n)
    (hne : attemptAt i ≠ n) (hfail : Told outcomes i) (fuel : ℕ) :
    loop format name outcomes random options (fuel + 1) i (attemptAt i) =
      (loop format name outcomes random options fuel (i + 1) (attemptAt (i + 1))).map
        fun (events, outcome) => (retryAt name outcomes random options i ++ events, outcome) := by
  obtain ⟨e, message, he, hmessage⟩ := hfail
  have hhead : JsNumber.le (attemptAt i) options.maxRetries = true := by
    rw [hn, JsNumber.le_natCast]
    exact decide_eq_true hle
  have hlast : ¬ (attemptAt i : JsNumber) = options.maxRetries := by
    rw [hn, natCast_inj]
    exact hne
  rw [loop, if_pos hhead, he]
  simp only [hmessage, if_neg hlast, increment_attemptAt]
  rfl

/-- An attempt that fails with something that has no message ends the loop. -/
theorem loop_of_untold (hn : options.maxRetries = n) {i : ℕ} (hle : attemptAt i ≤ n) {e : Failure}
    {thrown : Failure} (he : outcomes i = .rejected e) (hthrown : messageOf e = .error thrown)
    (fuel : ℕ) :
    loop format name outcomes random options (fuel + 1) i (attemptAt i) =
      some ([.attempted i (outcomes i)], .rejected thrown) := by
  have hhead : JsNumber.le (attemptAt i) options.maxRetries = true := by
    rw [hn, JsNumber.le_natCast]
    exact decide_eq_true hle
  rw [loop, if_pos hhead, he]
  simp only [hthrown]

/-- Attempts that fail before the last are followed by a wait each, and by the rest of the
loop. -/
theorem loop_of_fails (hn : options.maxRetries = n) (m : ℕ) :
    ∀ a, (∀ i, a ≤ i → i < a + m → Told outcomes i) → a + m ≤ n → ∀ fuel,
      loop format name outcomes random options (m + fuel) a (attemptAt a) =
        (loop format name outcomes random options fuel (a + m) (attemptAt (a + m))).map
          fun (events, outcome) =>
            ((List.range' a m).flatMap (retryAt name outcomes random options) ++ events,
              outcome) := by
  induction m with
  | zero =>
      intro a _ _ fuel
      simp
  | succ m ih =>
      intro a hfails hle fuel
      have hcount := attemptAt_le a
      have hrest := ih (a + 1) (fun i hi hlt => hfails i (by omega) (by omega)) (by omega) fuel
      rw [Nat.succ_add, loop_of_fail hn (by omega) (by omega) (hfails a le_rfl (by omega)), hrest,
        Option.map_map, List.range'_succ, List.flatMap_cons, Nat.add_assoc a 1 m, Nat.add_comm 1 m]
      congr 1

/-- With a first success at attempt `k`, there are `k` attempts and a wait between two of
them, and the success is returned. -/
theorem loop_of_fulfilled (hn : options.maxRetries = n) {k : ℕ} {r : T} (hk : 1 ≤ k)
    (hkn : k ≤ n) (hfails : ∀ i, 1 ≤ i → i < k → Told outcomes i)
    (hr : outcomes k = .fulfilled r) {fuel : ℕ} (hfuel : n ≤ fuel) :
    loop format name outcomes random options fuel 1 1 =
      some ((List.range' 1 (k - 1)).flatMap (retryAt name outcomes random options) ++
        [.attempted k (outcomes k), .info name s!"Connected to {name}"], .fulfilled r) := by
  obtain ⟨more, rfl⟩ : ∃ more, fuel = (k - 1) + (more + 1) := ⟨fuel - k, by omega⟩
  have hhead : JsNumber.le (attemptAt k) options.maxRetries = true := by
    rw [hn, JsNumber.le_natCast]
    exact decide_eq_true ((attemptAt_le k).trans hkn)
  refine (loop_of_fails hn (k - 1) 1 (fun i hi hlt => hfails i hi (by omega)) (by omega) _).trans ?_
  rw [Nat.add_sub_cancel' hk, loop, if_pos hhead, hr]
  rfl

/-- Without a success, there are `n` attempts and a wait between two of them, and the error
names the failure of the last: the counter has come to `n`. -/
theorem loop_of_rejected (hn : options.maxRetries = n) (hpos : 1 ≤ n) (hle : n ≤ 2 ^ 53)
    {e : Failure} {message : String} (hfails : ∀ i, 1 ≤ i → i < n → Told outcomes i)
    (he : outcomes n = .rejected e) (hmessage : messageOf e = .ok message) {fuel : ℕ}
    (hfuel : n ≤ fuel) :
    loop format name outcomes random options fuel 1 1 =
      some ((List.range' 1 (n - 1)).flatMap (retryAt name outcomes random options) ++
        [.attempted n (outcomes n)],
        .rejected (.newError (failureText format name options message))) := by
  obtain ⟨more, rfl⟩ : ∃ more, fuel = (n - 1) + (more + 1) := ⟨fuel - n, by omega⟩
  have hcount : attemptAt n = n := min_eq_left hle
  have hhead : JsNumber.le n options.maxRetries = true := by
    rw [hn, JsNumber.le_natCast]
    exact decide_eq_true le_rfl
  refine (loop_of_fails hn (n - 1) 1 (fun i hi hlt => hfails i hi (by omega)) (by omega) _).trans ?_
  rw [Nat.add_sub_cancel' hpos, hcount, loop, if_pos hhead, he]
  simp only [hmessage, if_pos hn.symm]
  rfl

/-- Where the counter never comes to `n`, `n` failures do not end the loop. -/
theorem loop_eq_none (hn : options.maxRetries = n) (hlt : 2 ^ 53 < n)
    (hfails : ∀ i, 1 ≤ i → i ≤ n → Told outcomes i) :
    loop format name outcomes random options n 1 1 = none := by
  obtain ⟨m, rfl⟩ : ∃ m, n = m + 1 := ⟨n - 1, by omega⟩
  have hcount : attemptAt (1 + m) < m + 1 := (min_le_right _ _).trans_lt hlt
  refine (loop_of_fails hn m 1 (fun i hi hle => hfails i hi (by omega)) (by omega) 1).trans ?_
  rw [loop_of_fail hn hcount.le hcount.ne (hfails _ (by omega) (by omega))]
  rfl

/-- Either there is a first success within `n` attempts or all of them fail. -/
theorem first_success_or (outcomes : ℕ → Outcome T) (n : ℕ) :
    (∃ k r, 1 ≤ k ∧ k ≤ n ∧ (∀ i, 1 ≤ i → i < k → Fails outcomes i) ∧
      outcomes k = .fulfilled r) ∨ ∀ i, 1 ≤ i → i ≤ n → Fails outcomes i := by
  induction n with
  | zero => exact .inr fun i hi hle => absurd hle (by omega)
  | succ n ih =>
      rcases ih with ⟨k, r, hk, hkn, hfails, hr⟩ | hall
      · exact .inl ⟨k, r, hk, by omega, hfails, hr⟩
      · cases hlast : outcomes (n + 1) with
        | fulfilled r =>
            exact .inl ⟨n + 1, r, by omega, le_rfl, fun i hi hlt => hall i hi (by omega), hlast⟩
        | rejected e =>
            refine .inr fun i hi hle => ?_
            rcases Nat.lt_or_ge i (n + 1) with hlt | hge
            · exact hall i hi (by omega)
            · obtain rfl : i = n + 1 := by omega
              exact ⟨e, hlast⟩

end

/-! ### The waits -/

/-- A wait is a number from 0 to `cap`. -/
def WithinCap (cap ms : JsNumber) : Prop :=
  JsNumber.le (0 : ℕ) ms = true ∧ JsNumber.le ms cap = true

/-- `Math.floor(Math.random() * baseDelayMs)` -/
def jitter (base : ℕ) (random : ℚ) : ℤ :=
  match Double.round (random * base) with
  | .finite q => ⌊q⌋
  | _ => 0

/-- The wait after attempt `i` fits the cap: its jitter is 0, or there is room for it below
the cap. For caps from `2 ^ 53` on there is also room where rounding takes the jitter away,
and without a base the power must be finite. -/
def WaitFits (base cap i : ℕ) (random : ℚ) : Prop :=
  (base = 0 → i ≤ 1024) ∧
    (jitter base random = 0 ∨ base * 2 ^ (i - 1) + jitter base random ≤ cap ∨
      2 ^ 53 ≤ cap ∧ JsNumber.le
        (Double.round ((min (base * 2 ^ (i - 1)) cap : ℕ) + jitter base random)) cap = true)

section

variable {base cap : ℕ} {random : ℚ}

/-- The jitter is a whole number, and it is what the code adds. -/
theorem floor_mul_eq (hbase : Double.IsDouble base) (h0 : 0 ≤ random) (h1 : random < 1) :
    JsNumber.floor (JsNumber.mul (.finite random) base) = .finite (jitter base random) ∧
      0 ≤ jitter base random := by
  obtain ⟨q, hq, hq0⟩ : ∃ q, Double.round (random * base) = .finite q ∧ 0 ≤ q := by
    have hprod : 0 ≤ random * base := mul_nonneg h0 (Nat.cast_nonneg base)
    rcases hprod.eq_or_lt with hzero | hpos
    · exact ⟨0, hzero ▸ Double.round_zero, le_rfl⟩
    · have hle : random * base ≤ base := mul_le_of_le_one_left (Nat.cast_nonneg base) h1.le
      obtain ⟨q, hq, -⟩ := Double.round_le hpos hbase hle
      exact ⟨q, hq, Double.le_round hpos Double.isDouble_zero hpos.le hq⟩
  have hjitter : jitter base random = ⌊q⌋ := by rw [jitter, hq]
  have hmul : JsNumber.mul (.finite random) base = .finite q := hq
  rw [hmul, hjitter]
  exact ⟨rfl, Int.floor_nonneg.mpr hq0⟩

theorem twoPow_eq {k : ℕ} (hk : k < 1024) : JsNumber.twoPow k = .finite (2 ^ k) := by
  have hone : Double.IsDouble 1 := by exact_mod_cast Double.isDouble_natCast (n := 1) (by norm_num)
  have hpow : (1 : ℚ) * 2 ^ k < 2 ^ 1024 := by
    rw [one_mul]
    exact pow_lt_pow_right₀ one_lt_two hk
  rw [JsNumber.twoPow, ← one_mul ((2 : ℚ) ^ k),
    Double.round_eq_self (hone.mul_two_pow zero_le_one hpow)]

theorem twoPow_eq_infinity {k : ℕ} (hk : 1024 ≤ k) : JsNumber.twoPow k = .infinity :=
  Double.round_eq_infinity (pow_le_pow_right₀ one_le_two hk)

/-- The exponential, for a base that is not 0. -/
theorem mul_twoPow_eq (hbase : Double.IsDouble base) (hpos : 0 < base) (k : ℕ) :
    JsNumber.mul base (JsNumber.twoPow k) =
      if (base * 2 ^ k : ℚ) < 2 ^ 1024 then .finite (base * 2 ^ k) else .infinity := by
  have hpos' : (1 : ℚ) ≤ base := by exact_mod_cast hpos
  rcases Nat.lt_or_ge k 1024 with hk | hk
  · have hmul : JsNumber.mul base (.finite (2 ^ k)) = Double.round (base * 2 ^ k) := rfl
    rw [twoPow_eq hk, hmul]
    split
    · next hlt => exact Double.round_eq_self (hbase.mul_two_pow (by linarith) hlt)
    · next hge => exact Double.round_eq_infinity (not_lt.mp hge)
  · have hpow : (2 : ℚ) ^ 1024 ≤ 2 ^ k := pow_le_pow_right₀ one_le_two hk
    have hbig : (2 : ℚ) ^ 1024 ≤ base * 2 ^ k :=
      hpow.trans (le_mul_of_one_le_left (by positivity) hpos')
    have hne : (base : JsNumber) ≠ .finite 0 := fun h => by
      have hzero : (base : ℚ) = 0 := JsNumber.finite.inj h
      linarith
    have hle : JsNumber.le (.finite 0) base = true := decide_eq_true (by linarith)
    have hmul : JsNumber.mul base .infinity = .infinity := by
      show (if (base : JsNumber) = .finite 0 then JsNumber.nan
        else if JsNumber.le (.finite 0) base then .infinity else .negInfinity) = _
      rw [if_neg hne, if_pos hle]
    rw [twoPow_eq_infinity hk, hmul, if_neg hbig.not_gt]

/-- The capped exponential, for a base that is not 0. -/
theorem min_mul_eq (hbase : Double.IsDouble base) (hcap : Double.IsDouble cap) (hpos : 0 < base)
    (k : ℕ) :
    JsNumber.min (JsNumber.mul base (JsNumber.twoPow k)) cap =
      .finite (min (base * 2 ^ k) cap : ℕ) := by
  have hcast : ((min (base * 2 ^ k) cap : ℕ) : ℚ) = min ((base : ℚ) * 2 ^ k) (cap : ℚ) := by
    push_cast
    rfl
  rw [mul_twoPow_eq hbase hpos, hcast]
  split
  · exact JsNumber.min_finite _ _
  · next hge =>
    rw [min_eq_right (hcap.lt.le.trans (not_lt.mp hge))]
    rfl

/-- A positive jitter on top of the capped exponential stays within the cap exactly if there
is room for it. -/
theorem le_round_add_iff (hcap : Double.IsDouble cap) (power : ℕ) {j : ℤ} (hj : 1 ≤ j) :
    JsNumber.le (Double.round ((min power cap : ℕ) + j)) cap = true ↔
      power + j ≤ cap ∨ 2 ^ 53 ≤ cap ∧
        JsNumber.le (Double.round ((min power cap : ℕ) + j)) cap = true := by
  have hj' : (1 : ℚ) ≤ j := by exact_mod_cast hj
  have hmin0 : (0 : ℚ) ≤ (min power cap : ℕ) := Nat.cast_nonneg _
  have hpos : (0 : ℚ) < (min power cap : ℕ) + j := by linarith
  constructor
  · intro hle
    rcases Nat.lt_or_ge cap (2 ^ 53) with hsmall | hlarge
    · left
      by_contra! hover
      -- the next whole number is a double, and the sum does not fall below it
      have hnext : Double.IsDouble (cap + 1 : ℕ) := Double.isDouble_of_le hsmall
      have hsum : ((cap + 1 : ℕ) : ℚ) ≤ (min power cap : ℕ) + j := by
        have hsum' : ((cap + 1 : ℕ) : ℤ) ≤ (min power cap : ℕ) + j := by
          push_cast
          omega
        exact_mod_cast hsum'
      have habove : (cap : ℚ) < (cap + 1 : ℕ) := by exact_mod_cast Nat.lt_succ_self cap
      have hnot := Double.round_not_le hpos hnext hsum habove
      exact absurd (hle.symm.trans hnot) Bool.noConfusion
    · exact .inr ⟨hlarge, hle⟩
  · intro hroom
    rcases hroom with hroom | ⟨-, hle⟩
    · have hroom' : (power : ℚ) + j ≤ cap := by exact_mod_cast hroom
      have hleft : ((min power cap : ℕ) : ℚ) ≤ power := by exact_mod_cast min_le_left power cap
      have hsum : ((min power cap : ℕ) : ℚ) + j ≤ cap := by linarith
      obtain ⟨q, hq, hqle⟩ := Double.round_le hpos hcap hsum
      rw [hq]
      exact decide_eq_true hqle
    · exact hle

/-- Without a base there is no jitter. -/
theorem jitter_zero : jitter 0 random = 0 := by
  rw [jitter, Nat.cast_zero, mul_zero, Double.round_zero]
  rfl

theorem floor_mul_zero (h0 : 0 ≤ random) (h1 : random < 1) :
    JsNumber.floor (JsNumber.mul (.finite random) (0 : ℕ)) = .finite (0 : ℤ) := by
  have hdouble : Double.IsDouble (0 : ℕ) := Double.isDouble_of_le (Nat.zero_le _)
  rw [(floor_mul_eq hdouble h0 h1).1, jitter_zero]

/-- Without a base there is no wait, as long as the power is finite. -/
theorem delay_zero {n : JsNumber} (h0 : 0 ≤ random) (h1 : random < 1) {i : ℕ}
    (hi : i - 1 < 1024) : delay ⟨n, (0 : ℕ), cap⟩ i random = .finite 0 := by
  have hmul : JsNumber.mul (0 : ℕ) (.finite (2 ^ (i - 1))) = (0 : ℕ) := by
    show Double.round ((0 : ℕ) * 2 ^ (i - 1)) = _
    rw [Nat.cast_zero, zero_mul, Double.round_zero]
    rfl
  have hmin : JsNumber.min (0 : ℕ) cap = .finite 0 := by
    rw [show JsNumber.min (0 : ℕ) cap = .finite (min ((0 : ℕ) : ℚ) cap) from
      JsNumber.min_finite _ _, Nat.cast_zero, min_eq_left (Nat.cast_nonneg cap)]
  simp only [delay, twoPow_eq hi, hmul, hmin, floor_mul_zero h0 h1]
  show Double.round (0 + (0 : ℤ)) = _
  rw [Int.cast_zero, add_zero, Double.round_zero]

/-- From then on it is `0 * Infinity`. -/
theorem delay_zero_eq_nan {n : JsNumber} (h0 : 0 ≤ random) (h1 : random < 1) {i : ℕ}
    (hi : 1024 ≤ i - 1) : delay ⟨n, (0 : ℕ), cap⟩ i random = .nan := by
  simp only [delay, twoPow_eq_infinity hi, floor_mul_zero h0 h1]
  rfl

theorem withinCap_delay_zero_iff {n : JsNumber} (h0 : 0 ≤ random) (h1 : random < 1) {i : ℕ}
    (hi : 1 ≤ i) :
    WithinCap cap (delay ⟨n, (0 : ℕ), cap⟩ i random) ↔ WaitFits 0 cap i random := by
  rcases Nat.lt_or_ge (i - 1) 1024 with hlt | hge
  · rw [delay_zero h0 h1 hlt]
    exact ⟨fun _ => ⟨fun _ => by omega, .inl jitter_zero⟩, fun _ =>
      ⟨decide_eq_true (le_refl (0 : ℚ)), decide_eq_true (Nat.cast_nonneg cap)⟩⟩
  · rw [delay_zero_eq_nan h0 h1 hge]
    refine ⟨fun h => absurd h.1 Bool.noConfusion, fun h => ?_⟩
    have hle := h.1 rfl
    omega

/-- Without jitter, the capped exponential is left. -/
theorem le_round_min (hcap : Double.IsDouble cap) (power : ℕ) :
    JsNumber.le (Double.round (min power cap : ℕ)) cap = true := by
  have hcapped : ((min power cap : ℕ) : ℚ) ≤ cap := by exact_mod_cast min_le_right _ _
  have hmin0 : (0 : ℚ) ≤ (min power cap : ℕ) := Nat.cast_nonneg _
  rcases hmin0.eq_or_lt with hzero | hpos
  · rw [← hzero, Double.round_zero]
    exact decide_eq_true (Nat.cast_nonneg cap)
  · obtain ⟨q, hq, hqle⟩ := Double.round_le hpos hcap hcapped
    rw [hq]
    exact decide_eq_true hqle

/-- A wait is within the cap exactly if it fits. -/
theorem withinCap_delay_iff {n : JsNumber} (hbase : Double.IsDouble base)
    (hcap : Double.IsDouble cap) (h0 : 0 ≤ random) (h1 : random < 1) {i : ℕ} (hi : 1 ≤ i) :
    WithinCap cap (delay ⟨n, base, cap⟩ i random) ↔ WaitFits base cap i random := by
  rcases Nat.eq_zero_or_pos base with rfl | hpos
  · exact withinCap_delay_zero_iff h0 h1 hi
  obtain ⟨hfloor, hj0⟩ := floor_mul_eq hbase h0 h1
  have hj0' : (0 : ℚ) ≤ jitter base random := by exact_mod_cast hj0
  have hdelay : delay ⟨n, base, cap⟩ i random =
      Double.round ((min (base * 2 ^ (i - 1)) cap : ℕ) + jitter base random) := by
    simp only [delay, min_mul_eq hbase hcap hpos, hfloor]
    rfl
  have hzero := Double.zero_le_round
    (add_nonneg (Nat.cast_nonneg (min (base * 2 ^ (i - 1)) cap)) hj0')
  have hbase0 : base = 0 → i ≤ 1024 := fun h => absurd h hpos.ne'
  rw [hdelay]
  rcases hj0.eq_or_lt with hj | hj
  · have hle := le_round_min hcap (base * 2 ^ (i - 1))
    rw [← hj, Int.cast_zero, add_zero]
    rw [← hj, Int.cast_zero, add_zero] at hzero
    exact ⟨fun _ => ⟨hbase0, .inl hj.symm⟩, fun _ => ⟨hzero, hle⟩⟩
  · have hroom := le_round_add_iff hcap (base * 2 ^ (i - 1)) hj
    constructor
    · intro h
      have hpower := hroom.mp h.2
      exact ⟨hbase0, .inr (by exact_mod_cast hpower)⟩
    · intro h
      have hpower := h.2.resolve_left hj.ne'
      exact ⟨hzero, hroom.mpr (by exact_mod_cast hpower)⟩

end

/-! ### The law of the retry -/

/-- Whatever fails within `n` attempts, before a success, has a message. -/
def AllTold {T : Type} (outcomes : ℕ → Outcome T) (n : ℕ) : Prop :=
  ∀ i, 1 ≤ i → i ≤ n → (∀ j, 1 ≤ j → j ≤ i → Fails outcomes j) → Told outcomes i

/-- The loop ends: the counter can come to `n`, or an attempt succeeds. -/
def Ends {T : Type} (outcomes : ℕ → Outcome T) (n : ℕ) : Prop :=
  n ≤ 2 ^ 53 ∨ ∃ i, 1 ≤ i ∧ i ≤ n ∧ ¬ Fails outcomes i

/-- A bounded retry of at most `n` attempts with waits of at most `cap`, for any fuel that is
enough. -/
structure BoundedRetry {T : Type} (format : NumberFormat) (name : String)
    (outcomes : ℕ → Outcome T) (random : ℕ → ℚ) (options : Option PartialRetryOptions)
    (n : ℕ) (cap : JsNumber) : Prop where
  /-- With the first success at `k`: attempts `1` to `k`, a wait between two of them, none
  after the last, and the success is returned. -/
  success : ∀ k r, 1 ≤ k → k ≤ n → (∀ i, 1 ≤ i → i < k → Fails outcomes i) →
    outcomes k = .fulfilled r → ∀ fuel, n ≤ fuel →
    retryConnect format name outcomes random options fuel =
      some ((List.range' 1 (k - 1)).flatMap
          (retryAt name outcomes random (mergeOptions options)) ++
        [.attempted k (outcomes k), .info name s!"Connected to {name}"], .fulfilled r)
  /-- Without a success: attempts `1` to `n`, with the waits, and an error with the message of
  the last failure. -/
  failure : (∀ i, 1 ≤ i → i ≤ n → Fails outcomes i) → ∃ e message,
    outcomes n = .rejected e ∧ messageOf e = .ok message ∧
    ∀ fuel, n ≤ fuel → retryConnect format name outcomes random options fuel =
      some ((List.range' 1 (n - 1)).flatMap
          (retryAt name outcomes random (mergeOptions options)) ++ [.attempted n (outcomes n)],
        .rejected (.newError (failureText format name (mergeOptions options) message)))
  /-- Every wait is from 0 to the cap. -/
  waits : ∀ fuel events outcome, n ≤ fuel →
    retryConnect format name outcomes random options fuel = some (events, outcome) →
    ∀ ms, .slept ms ∈ events → WithinCap cap ms

section

variable {T : Type} {format : NumberFormat} {name : String} {outcomes : ℕ → Outcome T}
  {random : ℕ → ℚ} {options : Option PartialRetryOptions} {n : ℕ}

/-- The waits of failed attempts are their delays. -/
theorem slept_mem_flatMap_iff {o : RetryOptions} {m : ℕ} {ms : JsNumber} :
    .slept ms ∈ (List.range' 1 m).flatMap (retryAt name outcomes random o) ↔
      ∃ i, 1 ≤ i ∧ i ≤ m ∧ ms = delay o (attemptAt i) (random i) := by
  rw [List.mem_flatMap]
  constructor
  · intro ⟨i, hi, hslept⟩
    rw [List.mem_range'_1] at hi
    simp only [retryAt, retry, List.mem_cons, reduceCtorEq, Event.slept.injEq, List.not_mem_nil,
      or_false, false_or] at hslept
    exact ⟨i, hi.1, by omega, hslept⟩
  · intro ⟨i, hi, hle, hms⟩
    refine ⟨i, List.mem_range'_1.mpr ⟨hi, by omega⟩, ?_⟩
    rw [hms, retryAt, retry]
    simp

/-- The failures before a success have messages. -/
theorem AllTold.before (h : AllTold outcomes n) {k : ℕ} (hkn : k ≤ n)
    (hfails : ∀ i, 1 ≤ i → i < k → Fails outcomes i) :
    ∀ i, 1 ≤ i → i < k → Told outcomes i :=
  fun i hi hlt => h i hi (by omega) fun j hj hji => hfails j hj (by omega)

theorem AllTold.of_fails (h : AllTold outcomes n) (hall : ∀ i, 1 ≤ i → i ≤ n → Fails outcomes i) :
    ∀ i, 1 ≤ i → i ≤ n → Told outcomes i :=
  fun i hi hle => h i hi hle fun j hj hji => hall j hj (by omega)

/-- How the retry ends: after `m` waits, for the failed attempts before the last, with no
wait behind them. -/
theorem exists_retryConnect_eq {base cap : JsNumber}
    (hoptions : mergeOptions options = ⟨n, base, cap⟩) (hpos : 1 ≤ n) (hends : Ends outcomes n)
    (htold : AllTold outcomes n) :
    ∃ m tail outcome, m < n ∧ (∀ i, 1 ≤ i → i ≤ m → Fails outcomes i) ∧
      (∀ i, 1 ≤ i → i < n → (∀ j, 1 ≤ j → j ≤ i → Fails outcomes j) → i ≤ m) ∧
      (∀ ms, .slept ms ∉ tail) ∧ ∀ fuel, n ≤ fuel →
        retryConnect format name outcomes random options fuel =
          some ((List.range' 1 m).flatMap
            (retryAt name outcomes random (mergeOptions options)) ++ tail, outcome) := by
  have hn : (mergeOptions options).maxRetries = n := by rw [hoptions]
  rcases first_success_or outcomes n with ⟨k, r, hk, hkn, hfails, hr⟩ | hall
  · refine ⟨k - 1, _, _, by omega, fun i hi hle => hfails i hi (by omega), fun i hi hlt hfail => ?_,
      ?_, fun fuel hfuel => loop_of_fulfilled hn hk hkn (htold.before hkn hfails) hr hfuel⟩
    · by_contra! hge
      obtain ⟨e, he⟩ := hfail k hk (by omega)
      rw [hr] at he
      cases he
    · simp
  · have hfails := htold.of_fails hall
    obtain ⟨e, message, he, hmessage⟩ := hfails n hpos le_rfl
    refine ⟨n - 1, _, _, by omega, fun i hi hle => hall i hi (by omega),
      fun i hi hlt _ => by omega, ?_, fun fuel hfuel =>
        loop_of_rejected hn hpos (hends.resolve_right ?_) (fun i hi hlt => hfails i hi hlt.le) he
          hmessage hfuel⟩
    · simp
    · intro ⟨i, hi, hle, hsucceeds⟩
      exact hsucceeds (hall i hi hle)

theorem withinCap_delay_iff_of_options {base cap : ℕ}
    (hoptions : mergeOptions options = ⟨n, base, cap⟩) (hbase : Double.IsDouble base)
    (hcap : Double.IsDouble cap) (hrandom : ∀ i, 0 ≤ random i ∧ random i < 1) {i : ℕ}
    (hi : 1 ≤ i) : WithinCap cap (delay (mergeOptions options) (attemptAt i) (random i)) ↔
      WaitFits base cap (attemptAt i) (random i) := by
  rw [hoptions]
  exact withinCap_delay_iff hbase hcap (hrandom i).1 (hrandom i).2 (le_min hi (by norm_num))

/-- The attempts of a loop that `String(error)` has ended are those up to there. -/
theorem attempted_le {o : RetryOptions} {m i : ℕ} {outcome : Outcome T}
    (h : .attempted i outcome ∈ (List.range' 1 m).flatMap (retryAt name outcomes random o) ++
      [.attempted (1 + m) (outcomes (1 + m))]) : i ≤ 1 + m := by
  rcases List.mem_append.mp h with h | h
  · obtain ⟨j, hj, hmem⟩ := List.mem_flatMap.mp h
    rw [List.mem_range'_1] at hj
    simp only [retryAt, retry, List.mem_cons, reduceCtorEq, Event.attempted.injEq, List.not_mem_nil,
      or_false] at hmem
    omega
  · simp only [List.mem_cons, Event.attempted.injEq, List.not_mem_nil, or_false] at h
    omega

/-- In a bounded retry every failure has a message: by induction on the attempts, as the first
without one would end the loop. -/
theorem BoundedRetry.allTold {base cap : JsNumber}
    (hoptions : mergeOptions options = ⟨n, base, cap⟩)
    (h : BoundedRetry format name outcomes random options n cap) : AllTold outcomes n := by
  intro i
  induction i using Nat.strong_induction_on with
  | _ i ih =>
      intro hi hle hfails
      have hn : (mergeOptions options).maxRetries = n := by rw [hoptions]
      obtain ⟨e, he⟩ := hfails i hi le_rfl
      cases hmessage : messageOf e with
      | ok message => exact ⟨e, message, he, hmessage⟩
      | error thrown =>
          obtain ⟨m, rfl⟩ : ∃ m, i = 1 + m := ⟨i - 1, by omega⟩
          have hbefore : ∀ j, 1 ≤ j → j < 1 + m → Told outcomes j := fun j hj hlt =>
            ih j hlt hj (by omega) fun l hl hlj => hfails l hl (by omega)
          -- what the loop does instead
          have hrun : loop format name outcomes random (mergeOptions options) (m + (n - m)) 1
              (attemptAt 1) = _ := loop_of_fails hn m 1 hbefore hle (n - m)
          rw [show n - m = (n - m - 1) + 1 by omega,
            loop_of_untold hn ((attemptAt_le _).trans hle) he hmessage] at hrun
          have hfuel : m + (n - m - 1 + 1) = n := by omega
          rw [hfuel] at hrun
          have hrun' : retryConnect format name outcomes random options n = _ := hrun
          rcases first_success_or outcomes n with ⟨k, r, hk, hkn, hfirst, hr⟩ | hall
          · rw [h.success k r hk hkn hfirst hr n le_rfl] at hrun'
            simp at hrun'
          · obtain ⟨e', message, he', hmessage', hreturns⟩ := h.failure hall
            rw [hreturns n le_rfl] at hrun'
            have hevents := (Prod.mk.inj (Option.some.inj hrun')).1
            have hmem : .attempted n (outcomes n) ∈
                (List.range' 1 m).flatMap (retryAt name outcomes random (mergeOptions options)) ++
                  [.attempted (1 + m) (outcomes (1 + m))] := by
              rw [← hevents]
              simp
            obtain rfl : n = 1 + m := le_antisymm (attempted_le hmem) hle
            rw [he'] at he
            cases he
            rw [hmessage'] at hmessage
            cases hmessage

/-- A bounded retry ends. -/
theorem BoundedRetry.ends {base cap : JsNumber} (hoptions : mergeOptions options = ⟨n, base, cap⟩)
    (h : BoundedRetry format name outcomes random options n cap) : Ends outcomes n := by
  by_contra hno
  obtain ⟨hlt, hall⟩ := not_or.mp hno
  have hfails : ∀ i, 1 ≤ i → i ≤ n → Fails outcomes i := by
    intro i hi hle
    by_contra hsucceeds
    exact hall ⟨i, hi, hle, hsucceeds⟩
  have hn : (mergeOptions options).maxRetries = n := by rw [hoptions]
  obtain ⟨e, message, -, -, hreturns⟩ := h.failure hfails
  have hnone : retryConnect format name outcomes random options n = none :=
    loop_eq_none hn (not_le.mp hlt) ((h.allTold hoptions).of_fails hfails)
  rw [hreturns n le_rfl] at hnone
  cases hnone

/-- In a bounded retry, the waits fit. -/
theorem BoundedRetry.waitFits {base cap : ℕ} (hoptions : mergeOptions options = ⟨n, base, cap⟩)
    (hpos : 1 ≤ n) (hbase : Double.IsDouble base) (hcap : Double.IsDouble cap)
    (hrandom : ∀ i, 0 ≤ random i ∧ random i < 1)
    (h : BoundedRetry format name outcomes random options n cap) {i : ℕ} (hi : 1 ≤ i)
    (hlt : i < n) (hfail : ∀ j, 1 ≤ j → j ≤ i → Fails outcomes j) :
    WaitFits base cap (attemptAt i) (random i) := by
  obtain ⟨m, tail, outcome, -, -, hmost, -, hrun⟩ :=
    @exists_retryConnect_eq T format name outcomes random options n base cap hoptions hpos
      (h.ends hoptions) (h.allTold hoptions)
  refine (withinCap_delay_iff_of_options hoptions hbase hcap hrandom hi).mp
    (h.waits n _ _ le_rfl (hrun n le_rfl) _ ?_)
  exact List.mem_append_left _ (slept_mem_flatMap_iff.mpr ⟨i, hi, hmost i hi hlt hfail, rfl⟩)

/-- `retryConnect` is a bounded retry exactly if it ends, all that attempts fail with has a
message, and the wait after every failed attempt but the last fits the cap. -/
theorem boundedRetry_iff {base cap : ℕ} (hoptions : mergeOptions options = ⟨n, base, cap⟩)
    (hpos : 1 ≤ n) (hbase : Double.IsDouble base) (hcap : Double.IsDouble cap)
    (hrandom : ∀ i, 0 ≤ random i ∧ random i < 1) :
    BoundedRetry format name outcomes random options n cap ↔
      Ends outcomes n ∧ AllTold outcomes n ∧
        ∀ i, 1 ≤ i → i < n → (∀ j, 1 ≤ j → j ≤ i → Fails outcomes j) →
          WaitFits base cap (attemptAt i) (random i) := by
  have hn : (mergeOptions options).maxRetries = n := by rw [hoptions]
  constructor
  · intro h
    refine ⟨h.ends hoptions, h.allTold hoptions, ?_⟩
    intro i hi hlt hfail
    exact h.waitFits hoptions hpos hbase hcap hrandom hi hlt hfail
  · intro ⟨hends, htold, h⟩
    refine ⟨fun k r hk hkn hfail hr fuel hfuel =>
        loop_of_fulfilled hn hk hkn (htold.before hkn hfail) hr hfuel,
      fun hall => ?_, fun fuel events outcome hfuel heq ms hms => ?_⟩
    · have hfails := htold.of_fails hall
      obtain ⟨e, message, he, hmessage⟩ := hfails n hpos le_rfl
      have hle : n ≤ 2 ^ 53 := hends.resolve_right fun ⟨i, hi, hle, hsucceeds⟩ =>
        hsucceeds (hall i hi hle)
      exact ⟨e, message, he, hmessage, fun fuel hfuel =>
        loop_of_rejected hn hpos hle (fun i hi hlt => hfails i hi hlt.le) he hmessage hfuel⟩
    · obtain ⟨m, tail, outcome', hm, hfails, -, htail, hrun⟩ :=
        @exists_retryConnect_eq T format name outcomes random options n base cap hoptions hpos
          hends htold
      rw [hrun fuel hfuel] at heq
      obtain ⟨rfl, rfl⟩ := Prod.mk.inj (Option.some.inj heq)
      rcases List.mem_append.mp hms with hms | hms
      · obtain ⟨i, hi, him, rfl⟩ := slept_mem_flatMap_iff.mp hms
        exact (withinCap_delay_iff_of_options hoptions hbase hcap hrandom hi).mpr
          (h i hi (by omega) fun j hj hji => hfails j hj (by omega))
      · exact absurd hms (htail ms)

end

/-! ### Two runs -/

/-- A service that is never up. -/
def alwaysDown (_ : ℕ) : Outcome Unit := .rejected (.newError "ECONNREFUSED")

theorem isDouble_defaults : Double.IsDouble (200 : ℕ) ∧ Double.IsDouble (5000 : ℕ) :=
  ⟨Double.isDouble_natCast (by norm_num), Double.isDouble_natCast (by norm_num)⟩

theorem jitter_half : jitter 200 (1 / 2) = 100 := by
  have hround : Double.round (1 / 2 * (200 : ℕ)) = .finite 100 := by
    have hdouble : Double.IsDouble 100 := by
      exact_mod_cast Double.isDouble_natCast (n := 100) (by norm_num)
    rw [← Double.round_eq_self hdouble]
    norm_num
  rw [jitter, hround]
  norm_num

/-- With the defaults, every wait fits. -/
theorem boundedRetry_defaults :
    BoundedRetry anyFormat "postgres" alwaysDown (fun _ => 1 / 2) none 5 (5000 : ℕ) := by
  refine (@boundedRetry_iff Unit anyFormat "postgres" alwaysDown (fun _ => 1 / 2) none 5 200 5000
    rfl (by norm_num) isDouble_defaults.1 isDouble_defaults.2 (fun _ => by norm_num)).mpr
    ⟨.inl (by norm_num), fun _ _ _ _ => ⟨_, _, rfl, rfl⟩, ?_⟩
  intro i hi hlt _
  refine ⟨fun h => absurd h (by norm_num), .inr (.inl ?_)⟩
  have hcount := attemptAt_le i
  have hpow : 2 ^ (attemptAt i - 1) ≤ 2 ^ 3 := Nat.pow_le_pow_right (by decide) (by omega)
  rw [jitter_half]
  push_cast
  have hpow' : (2 : ℤ) ^ (attemptAt i - 1) ≤ 2 ^ 3 := by exact_mod_cast hpow
  linarith

/-- With two attempts more, the sixth wait is 5100 ms. -/
theorem not_boundedRetry_seven :
    mergeOptions (some ⟨some (7 : ℕ), none, none⟩) = ⟨(7 : ℕ), (200 : ℕ), (5000 : ℕ)⟩ ∧
      ¬ BoundedRetry anyFormat "postgres" alwaysDown (fun _ => 1 / 2)
        (some ⟨some (7 : ℕ), none, none⟩) 7 (5000 : ℕ) := by
  refine ⟨rfl, fun h => ?_⟩
  have hfits := h.waitFits rfl (by norm_num) isDouble_defaults.1 isDouble_defaults.2
    (fun _ => by norm_num) (i := 6) (by norm_num) (by norm_num) fun j _ _ => ⟨_, rfl⟩
  have hcount : attemptAt 6 = 6 := by decide
  rw [hcount] at hfits
  obtain ⟨-, hjitter | hroom | ⟨hlarge, -⟩⟩ := hfits
  · rw [jitter_half] at hjitter
    norm_num at hjitter
  · rw [jitter_half] at hroom
    norm_num at hroom
  · norm_num at hlarge

end EmailPlatform.Resilience
