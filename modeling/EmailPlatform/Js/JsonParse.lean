import EmailPlatform.Js.Json

/-!
# EmailPlatform.Js.JsonParse

`JSON.parse`, as a machine that reads a text one character at a time. It holds what it is in
the middle of (`Mode`) and, for each array and object around it, what has been read of it
(`Frame`). A text is a value when the machine has come to the end of one with nothing around
it (`finish`).

A number is the one thing whose end is only seen in what comes after it: the character that
no longer belongs to a numeral is read as what follows the value.
-/

namespace EmailPlatform.JSON

open JsString (ofChar)

/-! ### Numerals -/

/-- What has been read last of a numeral. -/
inductive NumeralPhase
  /-- Nothing but perhaps the sign. -/
  | sign
  /-- A leading zero, which no digit follows. -/
  | zero
  | int
  | point
  | frac
  /-- The `e`, its sign, its digits. -/
  | exp
  | expSign
  | expDigits
  deriving DecidableEq, Repr

/-- The numeral read so far. -/
structure Numeral where
  negative : Bool
  phase : NumeralPhase
  /-- The digits before and behind the point. -/
  mantissa : ℕ
  /-- The number of those behind it. -/
  fraction : ℕ
  expNegative : Bool
  exponent : ℕ
  deriving DecidableEq, Repr

namespace Numeral

/-- A numeral of which at most the sign has been read. -/
def start (negative : Bool) : Numeral := ⟨negative, .sign, 0, 0, false, 0⟩

/-- A digit. -/
def digit (n : Numeral) (d : ℕ) : Option Numeral :=
  match n.phase with
  | .sign =>
    if d = 0 then some { n with phase := .zero } else some { n with phase := .int, mantissa := d }
  | .zero => none
  | .int => some { n with mantissa := 10 * n.mantissa + d }
  | .point | .frac =>
    some { n with phase := .frac, mantissa := 10 * n.mantissa + d, fraction := n.fraction + 1 }
  | .exp | .expSign | .expDigits =>
    some { n with phase := .expDigits, exponent := 10 * n.exponent + d }

/-- The next character, if it can belong to the numeral. -/
def step (n : Numeral) (c : Char) : Option Numeral :=
  if c.isDigit then n.digit (c.toNat - '0'.toNat)
  else if c = '.' then
    match n.phase with
    | .zero | .int => some { n with phase := .point }
    | _ => none
  else if c = 'e' ∨ c = 'E' then
    match n.phase with
    | .zero | .int | .frac => some { n with phase := .exp }
    | _ => none
  else if c = '+' ∨ c = '-' then
    match n.phase with
    | .exp => some { n with phase := .expSign, expNegative := c = '-' }
    | _ => none
  else none

/-- The mathematical value of a numeral that may end here. -/
def value? (n : Numeral) : Option ℚ :=
  match n.phase with
  | .zero | .int | .frac | .expDigits =>
    let exponent : ℤ := (if n.expNegative then -(n.exponent : ℤ) else n.exponent) - n.fraction
    some ((if n.negative then -1 else 1) * n.mantissa * 10 ^ exponent)
  | _ => none

end Numeral

/-! ### The machine -/

/-- An array or an object that is being read. -/
inductive Frame
  | array (elements : List Value)
  /-- An object that waits for the value of `key`. -/
  | object (members : List (JsString × Value)) (key : JsString)

/-- What a string literal is read for. -/
inductive Holder
  | value
  /-- The next key of an object. -/
  | key (members : List (JsString × Value))

/-- What the machine is in the middle of. -/
inductive Mode
  /-- A value is due; an array that was just opened may also close. -/
  | value (closable : Bool)
  /-- A key is due; an object that was just opened may also close. -/
  | key (closable : Bool) (members : List (JsString × Value))
  | colon (members : List (JsString × Value)) (key : JsString)
  /-- A value has ended. -/
  | done (v : Value)
  /-- One of the words `null`, `true` and `false`, of which `rest` is due. -/
  | word (rest : List Char) (v : Value)
  | number (n : Numeral)
  | string (holder : Holder) (units : JsString)
  /-- In a string, behind a backslash. -/
  | escape (holder : Holder) (units : JsString)
  /-- In a string, behind `\u` and some digits. -/
  | unicode (holder : Holder) (units : JsString) (digits code : ℕ)

abbrev State := Mode × List Frame

/-- White space. -/
def isSpace (c : Char) : Bool := c = ' ' || c = '\t' || c = '\n' || c = '\r'

/-- The characters behind a backslash, but for `u`. -/
def escapes : List (Char × UInt16) :=
  [('"', 0x22), ('\\', 0x5C), ('/', 0x2F), ('b', 0x08), ('f', 0x0C), ('n', 0x0A), ('r', 0x0D),
    ('t', 0x09)]

/-- A hexadecimal digit. -/
def hexValue (c : Char) : Option ℕ :=
  if c.isDigit then some (c.toNat - '0'.toNat)
  else if 'a' ≤ c ∧ c ≤ 'f' then some (c.toNat - 'a'.toNat + 10)
  else if 'A' ≤ c ∧ c ≤ 'F' then some (c.toNat - 'A'.toNat + 10)
  else none

/-- The first character of a value. -/
def startValue (stack : List Frame) (c : Char) : Option State :=
  if c = '{' then some (.key true [], stack)
  else if c = '[' then some (.value true, .array [] :: stack)
  else if c = '"' then some (.string .value [], stack)
  else if c = 'n' then some (.word "ull".toList .null, stack)
  else if c = 't' then some (.word "rue".toList (.bool true), stack)
  else if c = 'f' then some (.word "alse".toList (.bool false), stack)
  else if c = '-' then some (.number (.start true), stack)
  else ((Numeral.start false).step c).map fun n => (.number n, stack)

/-- A character behind a value. -/
def afterValue (v : Value) (stack : List Frame) (c : Char) : Option State :=
  if isSpace c then some (.done v, stack)
  else
    match stack with
    | [] => none
    | .array elements :: stack =>
      if c = ',' then some (.value false, .array (elements ++ [v]) :: stack)
      else if c = ']' then some (.done (.array (elements ++ [v])), stack)
      else none
    | .object members key :: stack =>
      if c = ',' then some (.key false (createDataProperty members key v), stack)
      else if c = '}' then some (.done (.object (createDataProperty members key v)), stack)
      else none

/-- The closing quote of a string. -/
def closeString (units : JsString) : Holder → Mode
  | .value => .done (.str units)
  | .key members => .colon members units

/-- One character. -/
def step : State → Char → Option State
  | (.value closable, stack), c =>
    if isSpace c then some (.value closable, stack)
    else if c = ']' ∧ closable = true then
      match stack with
      | .array elements :: stack => some (.done (.array elements), stack)
      | _ => none
    else startValue stack c
  | (.key closable members, stack), c =>
    if isSpace c then some (.key closable members, stack)
    else if c = '"' then some (.string (.key members) [], stack)
    else if c = '}' ∧ closable = true then some (.done (.object members), stack)
    else none
  | (.colon members key, stack), c =>
    if isSpace c then some (.colon members key, stack)
    else if c = ':' then some (.value false, .object members key :: stack)
    else none
  | (.done v, stack), c => afterValue v stack c
  | (.word [] _, _), _ => none
  | (.word (d :: rest) v, stack), c =>
    if c = d then some (if rest = [] then .done v else .word rest v, stack) else none
  | (.number n, stack), c =>
    match n.step c with
    | some n => some (.number n, stack)
    | none => n.value?.bind fun q => afterValue (.num (.ofRat q)) stack c
  | (.string holder units, stack), c =>
    if c = '"' then some (closeString units holder, stack)
    else if c = '\\' then some (.escape holder units, stack)
    else if c.toNat < 0x20 then none
    else some (.string holder (units ++ ofChar c), stack)
  | (.escape holder units, stack), c =>
    if c = 'u' then some (.unicode holder units 0 0, stack)
    else (escapes.lookup c).map fun u => (.string holder (units ++ [u]), stack)
  | (.unicode holder units digits code, stack), c =>
    (hexValue c).map fun d =>
      if digits = 3 then (.string holder (units ++ [.ofNat (16 * code + d)]), stack)
      else (.unicode holder units (digits + 1) (16 * code + d), stack)

/-- A text. -/
def run (s : State) (text : List Char) : Option State := text.foldlM step s

/-- The value, at the end of the text. -/
def finish : State → Option Value
  | (.done v, []) => some v
  | (.number n, []) => n.value?.map fun q => .num (.ofRat q)
  | _ => none

/-- `JSON.parse(text)` -/
def parse (text : List Char) : Except Error Value :=
  match (run (.value false, []) text).bind finish with
  | some v => .ok v
  | none => .error .syntaxError

theorem run_append (s : State) (t t' : List Char) :
    run s (t ++ t') = (run s t).bind fun s => run s t' := List.foldlM_append

@[simp] theorem run_nil (s : State) : run s [] = some s := rfl

theorem run_cons (s : State) (c : Char) (t : List Char) :
    run s (c :: t) = (step s c).bind fun s => run s t := List.foldlM_cons

end EmailPlatform.JSON
