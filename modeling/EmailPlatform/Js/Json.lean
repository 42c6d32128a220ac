import EmailPlatform.Js.NumberText
import EmailPlatform.Js.Utf16

/-!
# EmailPlatform.Js.Json

`JSON.stringify`. A `Value` is what the serialisation sees of a JavaScript value: its own
enumerable members in order, what its `toJSON` returns, and whether looking at it throws.
`normalForm` says which value the text stands for; that it does is proved with the parser.

A text is a list of characters, as the serialisation escapes lone surrogates. A numeral is
any that `Number::toString` may choose. The sign of a zero is not kept, neither here nor by
`JSON.stringify`.
-/

namespace EmailPlatform.JSON

open JsString (isHigh isLow isSurrogate ofUnit ofPair)

/-! ### Values -/

/-- A number of the language: a finite one is a double. -/
structure NumberValue where
  number : JsNumber
  isDouble : ∀ q, number = .finite q → Double.IsDouble q

/-- The number closest to a rational. -/
def NumberValue.ofRat (q : ℚ) : NumberValue := ⟨Double.round q, fun _ => Double.isDouble_of_round⟩

/-- A JavaScript value. -/
inductive Value
  | undefined
  | null
  | bool (b : Bool)
  | num (n : NumberValue)
  | str (s : JsString)
  | bigint
  | symbol
  | function
  /-- An array; a hole is `undefined`. -/
  | array (elements : List Value)
  | object (members : List (JsString × Value))
  /-- A value with a method `toJSON`, which returns `result`; `itself` is the value without
  it. -/
  | toJSON (result itself : Value)
  /-- A `Number`, `String`, `Boolean` or `BigInt` object, by its primitive. -/
  | boxed (primitive : Value)
  /-- A value that throws when it is looked at, such as one whose `toJSON` or a getter
  throws. -/
  | throws
  /-- A reference back to a value around it. -/
  | cycle

/-- Why `JSON.stringify` or `JSON.parse` throws. -/
inductive Error
  | typeError
  | syntaxError
  /-- What the value threw. -/
  | thrown
  deriving DecidableEq, Repr

/-! ### Strings -/

/-- `UnicodeEscape` -/
def unicodeEscape (u : UInt16) : List Char :=
  ['\\', 'u', Nat.digitChar (u.toNat / 4096), Nat.digitChar (u.toNat / 256 % 16),
    Nat.digitChar (u.toNat / 16 % 16), Nat.digitChar (u.toNat % 16)]

/-- The units with an escape of one character, and this character. -/
def singleEscapes : List (UInt16 × Char) :=
  [(0x08, 'b'), (0x09, 't'), (0x0A, 'n'), (0x0C, 'f'), (0x0D, 'r'), (0x22, '"'), (0x5C, '\\')]

/-- A unit that is no part of a surrogate pair, as it stands between quotes. -/
def quoteUnit (u : UInt16) : List Char :=
  match singleEscapes.lookup u with
  | some c => ['\\', c]
  | none => if u.toNat < 0x20 ∨ isSurrogate u = true then unicodeEscape u else [ofUnit u]

/-- What stands between the quotes. -/
def quoteUnits : JsString → List Char
  | [] => []
  | [u] => quoteUnit u
  | u :: v :: s => if isHigh u && isLow v then ofPair u v :: quoteUnits s
    else quoteUnit u ++ quoteUnits (v :: s)

/-- `QuoteJSONString` -/
def quote (s : JsString) : List Char := '"' :: (quoteUnits s ++ ['"'])

/-! ### Serialisation -/

/-- The text of a number; those that are not finite have none of their own. -/
def numberText (format : NumberFormat) (n : NumberValue) : List Char :=
  match n.number with
  | .finite q => format.finiteText q
  | _ => "null".toList

mutual

/-- `SerializeJSONProperty`: the text, or none for what has no place in JSON. `asked` when
`toJSON` has been called and is not looked at any more. -/
def serialize (format : NumberFormat) : Value → Bool → Except Error (Option (List Char))
  | .undefined, _ | .symbol, _ | .function, _ => .ok none
  | .null, _ => .ok (some "null".toList)
  | .bool b, _ => .ok (some (if b then "true".toList else "false".toList))
  | .num n, _ => .ok (some (numberText format n))
  | .str s, _ => .ok (some (quote s))
  | .bigint, _ | .cycle, _ => .error .typeError
  | .throws, _ => .error .thrown
  | .boxed primitive, _ => serialize format primitive true
  | .toJSON result itself, asked =>
    if asked then serialize format itself true else serialize format result true
  | .array elements, _ => do
    let texts ← serializeElements format elements
    .ok (some ('[' :: ([','].intercalate texts ++ [']'])))
  | .object members, _ => do
    let texts ← serializeMembers format members
    .ok (some ('{' :: ([','].intercalate texts ++ ['}'])))

/-- The loop of `SerializeJSONArray`. -/
def serializeElements (format : NumberFormat) : List Value → Except Error (List (List Char))
  | [] => .ok []
  | v :: elements => do
    let text ← serialize format v false
    let texts ← serializeElements format elements
    .ok (text.getD "null".toList :: texts)

/-- The loop of `SerializeJSONObject`. -/
def serializeMembers (format : NumberFormat) :
    List (JsString × Value) → Except Error (List (List Char))
  | [] => .ok []
  | (key, v) :: members => do
    let text ← serialize format v false
    let texts ← serializeMembers format members
    match text with
    | none => .ok texts
    | some text => .ok ((quote key ++ ':' :: text) :: texts)

end

/-- `JSON.stringify(v)` -/
def stringify (format : NumberFormat) (v : Value) : Except Error (Option (List Char)) :=
  serialize format v false

/-! ### The normal form -/

/-- `CreateDataProperty` on the members of an object. -/
def createDataProperty (members : List (JsString × Value)) (key : JsString) (v : Value) :
    List (JsString × Value) :=
  if members.any (·.1 = key) then members.map fun m => if m.1 = key then (key, v) else m
  else members ++ [(key, v)]

/-- An object with these members, created one after the other. -/
def Value.ofMembers (members : List (JsString × Value)) : Value :=
  .object (members.foldl (fun acc m => createDataProperty acc m.1 m.2) [])

/-- The members of an object have distinct keys, and then all of them are kept. -/
theorem Value.ofMembers_of_nodup {members : List (JsString × Value)}
    (h : (members.map Prod.fst).Nodup) : Value.ofMembers members = .object members := by
  have hfold : ∀ (ms acc : List (JsString × Value)), ((acc ++ ms).map Prod.fst).Nodup →
      ms.foldl (fun acc m => createDataProperty acc m.1 m.2) acc = acc ++ ms := by
    intro ms
    induction ms with
    | nil => exact fun acc _ => (List.append_nil acc).symm
    | cons m ms ih =>
        intro acc hnd
        have hnew : ¬ acc.any (·.1 = m.1) = true := by
          intro hany
          obtain ⟨p, hp, heq⟩ := List.any_eq_true.mp hany
          rw [List.map_append, List.nodup_append] at hnd
          exact hnd.2.2 _ (List.mem_map_of_mem hp) m.1 (by simp) (of_decide_eq_true heq)
        have hset : createDataProperty acc m.1 m.2 = acc ++ [m] := if_neg hnew
        rw [List.foldl_cons, hset, ih (acc ++ [m]) (by simpa using hnd), List.append_assoc]
        rfl
  exact congrArg Value.object (hfold members [] h)

mutual

/-- The value that a text stands for. -/
def normalForm : Value → Bool → Except Error (Option Value)
  | .undefined, _ | .symbol, _ | .function, _ => .ok none
  | .null, _ => .ok (some .null)
  | .bool b, _ => .ok (some (.bool b))
  | .num n, _ =>
    .ok (some (match n.number with
      | .finite _ => .num n
      | _ => .null))
  | .str s, _ => .ok (some (.str s))
  | .bigint, _ | .cycle, _ => .error .typeError
  | .throws, _ => .error .thrown
  | .boxed primitive, _ => normalForm primitive true
  | .toJSON result itself, asked =>
    if asked then normalForm itself true else normalForm result true
  | .array elements, _ => do
    let forms ← normalElements elements
    .ok (some (.array forms))
  | .object members, _ => do
    let forms ← normalMembers members
    .ok (some (.ofMembers forms))

def normalElements : List Value → Except Error (List Value)
  | [] => .ok []
  | v :: elements => do
    let form ← normalForm v false
    let forms ← normalElements elements
    .ok (form.getD .null :: forms)

def normalMembers : List (JsString × Value) → Except Error (List (JsString × Value))
  | [] => .ok []
  | (key, v) :: members => do
    let form ← normalForm v false
    let forms ← normalMembers members
    match form with
    | none => .ok forms
    | some form => .ok ((key, form) :: forms)

end

/-- The values that have no place in JSON: `undefined`, a symbol, a function, and what stands
for one of them. -/
def Value.omitted : Value → Bool → Bool
  | .undefined, _ | .symbol, _ | .function, _ => true
  | .boxed primitive, _ => primitive.omitted true
  | .toJSON result itself, asked => if asked then itself.omitted true else result.omitted true
  | _, _ => false

/-- They are those without a text. -/
theorem serialize_eq_none_iff (format : NumberFormat) :
    ∀ v asked, serialize format v asked = .ok none ↔ Value.omitted v asked = true
  | .undefined, _ | .symbol, _ | .function, _ => iff_of_true rfl rfl
  | .null, _ | .bool _, _ | .num _, _ | .str _, _ | .bigint, _ | .throws, _ | .cycle, _ =>
    iff_of_false (by simp [serialize]) (by simp [Value.omitted])
  | .boxed primitive, _ => serialize_eq_none_iff format primitive true
  | .toJSON _ itself, true => serialize_eq_none_iff format itself true
  | .toJSON result _, false => serialize_eq_none_iff format result true
  | .array elements, _ => by
      refine iff_of_false ?_ (by simp [Value.omitted])
      rw [serialize]
      cases serializeElements format elements <;> simp [bind, Except.bind]
  | .object members, _ => by
      refine iff_of_false ?_ (by simp [Value.omitted])
      rw [serialize]
      cases serializeMembers format members <;> simp [bind, Except.bind]

end EmailPlatform.JSON
