import EmailPlatform.Grpc.Client

/-!
# EmailPlatform.Grpc.Timeout

**What the `grpc-timeout` metadata says.** The wire grammar of gRPC has one to eight digits
of a positive integer and a unit. The facade writes a JavaScript number and `m`, and
`GrpcSchema` lets every positive number through: a fraction or a number from 100000000 on is
written in a form that the grammar does not have (`writesLegalTimeouts_iff`).
-/

namespace EmailPlatform.Grpc

/-- A `TimeoutUnit`, in milliseconds. -/
def timeoutUnit : Char → Option ℚ
  | 'H' => some 3600000
  | 'M' => some 60000
  | 'S' => some 1000
  | 'm' => some 1
  | 'u' => some (1 / 1000)
  | 'n' => some (1 / 1000000)
  | _ => none

/-- A timeout of the wire grammar, `TimeoutValue TimeoutUnit`, in milliseconds. -/
def decodeTimeout (text : List Char) : Option ℚ :=
  let digits := text.dropLast
  let value := Nat.ofDigitChars 10 digits 0
  if 1 ≤ digits.length ∧ digits.length ≤ 8 ∧ digits.all Char.isDigit ∧ 0 < value then
    (text.getLast?.bind timeoutUnit).map (value * ·)
  else none

/-- Every call without an override carries a legal timeout that says the configured value. -/
def WritesLegalTimeouts (format : NumberFormat) (config : GrpcConfig) : Prop :=
  ∀ (R : Type) (rpcMethods : List String) (now : ℕ) (method : String) (request : R)
    (callOpts : Option CallOpts) (governed : GovernedCall R),
    callOpts.bind CallOpts.deadlineMs = none →
    defineGrpcClient format rpcMethods config now method request callOpts = some governed →
    ∃ text, governed.call.metadata = [(METADATA_HEADER, text)] ∧
      decodeTimeout text = some config.GRPC_DEADLINE_MS

/-! ### Digits -/

theorem ofDigitChars_lt {cs : List Char} (h : ∀ c ∈ cs, c.isDigit = true) :
    Nat.ofDigitChars 10 cs 0 < 10 ^ cs.length := by
  induction cs with
  | nil => simp
  | cons c cs ih =>
      have hc : c.toNat - '0'.toNat < 10 := by
        have hdigit := Char.isDigit_iff_toNat.mp (h c List.mem_cons_self)
        have hnine : '9'.toNat = '0'.toNat + 9 := rfl
        omega
      have hcs := ih fun d hd => h d (List.mem_cons_of_mem _ hd)
      rw [Nat.ofDigitChars_cons, Nat.ofDigitChars_eq_ofDigitChars_zero, List.length_cons,
        Nat.mul_zero, Nat.zero_add]
      calc 10 ^ cs.length * (c.toNat - '0'.toNat) + Nat.ofDigitChars 10 cs 0
          < 10 ^ cs.length * (c.toNat - '0'.toNat) + 10 ^ cs.length := Nat.add_lt_add_left hcs _
        _ = 10 ^ cs.length * (c.toNat - '0'.toNat + 1) := by ring
        _ ≤ 10 ^ cs.length * 10 := Nat.mul_le_mul_left _ hc
        _ = 10 ^ (cs.length + 1) := (pow_succ _ _).symm

/-- Text in front of the unit `m` decides. -/
theorem decodeTimeout_concat (digits : List Char) :
    decodeTimeout (digits ++ METADATA_UNIT_MILLISECONDS) =
      if 1 ≤ digits.length ∧ digits.length ≤ 8 ∧ digits.all Char.isDigit ∧
        0 < Nat.ofDigitChars 10 digits 0 then some (Nat.ofDigitChars 10 digits 0 : ℚ)
      else none := by
  have hdrop : (digits ++ METADATA_UNIT_MILLISECONDS).dropLast = digits := List.dropLast_concat
  have hlast : (digits ++ METADATA_UNIT_MILLISECONDS).getLast? = some 'm' := List.getLast?_concat
  simp only [decodeTimeout, hdrop, hlast]
  split
  · exact congrArg some (mul_one _)
  · rfl

/-- A number is written as a legal timeout exactly if it is whole and has at most eight
digits. -/
theorem decodeTimeout_toString_iff (format : NumberFormat) {x : ℚ} (hx : 0 < x) :
    decodeTimeout (format.toString (.finite x) ++ METADATA_UNIT_MILLISECONDS) = some x ↔
      ∃ n : ℕ, x = n ∧ n ≤ 99999999 := by
  rw [decodeTimeout_concat]
  constructor
  -- What is read is a natural number of at most eight digits.
  · intro h
    split at h
    · next hlegal =>
      obtain ⟨-, hlen, hdigits, -⟩ := hlegal
      refine ⟨_, (Option.some.inj h).symm, ?_⟩
      have hlt := ofDigitChars_lt (List.all_eq_true.mp hdigits)
      have hmono := Nat.pow_le_pow_right (n := 10) (by decide) hlen
      omega
    · cases h
  -- Its shortest text has its digits and the zeros behind them, eight at most.
  · intro ⟨n, hn, hle⟩
    subst hn
    have hpos : 0 < n := by exact_mod_cast hx
    have hshortest := format.shortest n (Double.isDouble_natCast (by omega)) hx
    obtain ⟨hkn, hwhole⟩ := hshortest.whole hpos (by omega)
    have hwf := hshortest.wellFormed
    rw [show format.toString (.finite n) = format.finiteText n from rfl,
      format.finiteText_of_pos hx]
    generalize format.digits n = d at hkn hwhole hwf ⊢
    obtain ⟨t, ht⟩ := Int.eq_ofNat_of_zero_le (sub_nonneg.mpr hkn)
    rw [ht, Int.toNat_natCast] at hwhole
    have hlen : d.k + t ≤ 8 := by
      by_contra! hlong
      have hpow : 10 ^ 8 ≤ 10 ^ (d.k - 1 + t) := pow_le_pow_right₀ (by norm_num) (by omega)
      have hlower : 10 ^ (d.k - 1 + t) ≤ n := by
        rw [← hwhole, pow_add]
        exact Nat.mul_le_mul_right _ hwf.lower
      omega
    have hplain : d.text = Nat.toDigits 10 d.s ++ List.replicate t '0' := by
      rw [Decimal.text, if_pos ⟨hkn, by omega⟩, ht, Int.toNat_natCast]
    have hvalue : Nat.ofDigitChars 10 (Nat.toDigits 10 d.s ++ List.replicate t '0') 0 = n := by
      rw [Nat.ofDigitChars_append, Nat.ofDigitChars_ten_toDigits,
        Nat.ofDigitChars_replicate_zero, mul_comm, hwhole]
    have hdigits : (Nat.toDigits 10 d.s ++ List.replicate t '0').all Char.isDigit = true := by
      rw [List.all_append, Bool.and_eq_true, List.all_eq_true, List.all_eq_true]
      refine ⟨fun c hc => Nat.isDigit_of_mem_toDigits (by decide) (by decide) hc, fun c hc => ?_⟩
      rw [List.eq_of_mem_replicate hc]
      rfl
    have hlength : (Nat.toDigits 10 d.s ++ List.replicate t '0').length = d.k + t := by
      rw [List.length_append, hwf.length_toDigits, List.length_replicate]
    rw [hplain, hvalue, hlength, if_pos ⟨by have := hwf.pos; omega, hlen, hdigits, hpos⟩]

/-- What a call without an override carries. -/
theorem metadata_of_no_override {R : Type} {format : NumberFormat} {rpcMethods : List String}
    {config : GrpcConfig} {now : ℕ} {method : String} {request : R}
    {callOpts : Option CallOpts} {governed : GovernedCall R}
    (hno : callOpts.bind CallOpts.deadlineMs = none)
    (hcall : defineGrpcClient format rpcMethods config now method request callOpts =
      some governed) :
    governed.call.metadata = [(METADATA_HEADER,
      format.toString (.finite config.GRPC_DEADLINE_MS) ++ METADATA_UNIT_MILLISECONDS)] := by
  obtain ⟨call, hraw, rfl⟩ := Option.map_eq_some_iff.mp hcall
  rw [promisifyGrpcClient, deadlineMs, hno] at hraw
  split at hraw
  · cases hraw
    rfl
  · cases hraw

theorem decodeTimeout_of_writesLegalTimeouts {format : NumberFormat} {config : GrpcConfig}
    (h : WritesLegalTimeouts format config) :
    decodeTimeout (format.toString (.finite config.GRPC_DEADLINE_MS) ++
      METADATA_UNIT_MILLISECONDS) = some config.GRPC_DEADLINE_MS := by
  obtain ⟨governed, hcall⟩ : ∃ governed,
      defineGrpcClient format ["Check"] config 0 "Check" () none = some governed := ⟨_, rfl⟩
  obtain ⟨text, htext, hdecode⟩ := h Unit _ _ _ _ _ governed rfl hcall
  cases htext.symm.trans (metadata_of_no_override rfl hcall)
  exact hdecode

/-- Timeouts are legal if and only if the configured one is a whole number of at most eight
digits. -/
theorem writesLegalTimeouts_iff (format : NumberFormat) (config : GrpcConfig) :
    WritesLegalTimeouts format config ↔
      ∃ n : ℕ, config.GRPC_DEADLINE_MS = n ∧ n ≤ 99999999 := by
  rw [← decodeTimeout_toString_iff format config.pos]
  exact ⟨decodeTimeout_of_writesLegalTimeouts, fun h _ _ _ _ _ _ _ hno hcall =>
    ⟨_, metadata_of_no_override hno hcall, h⟩⟩

/-- A configuration that the schema accepts: a deadline of one and a half milliseconds. -/
def fractionConfig : GrpcConfig where
  GRPC_DEADLINE_MS := 3 / 2
  isDouble := by
    have h := @Double.isDouble_div_two_pow 3 1 (by norm_num) (by norm_num)
    simpa using h
  accepted := decide_eq_true (by norm_num)

/-- It is not written as a legal timeout. -/
theorem not_writesLegalTimeouts_fraction : ¬ WritesLegalTimeouts anyFormat fractionConfig := by
  intro h
  obtain ⟨n, hn, -⟩ := (decodeTimeout_toString_iff anyFormat fractionConfig.pos).mp
    (decodeTimeout_of_writesLegalTimeouts h)
  have hdouble : (3 : ℚ) = (2 * n : ℕ) := by
    have hn' : (3 : ℚ) / 2 = n := hn
    push_cast
    linarith
  have hodd : 3 = 2 * n := by exact_mod_cast hdouble
  omega

end EmailPlatform.Grpc
