import EmailPlatform.Js.Number
import EmailPlatform.Js.Props

/-!
# EmailPlatform.Js.Value

JavaScript values as data: what `typeof`, property access and object spread see of
them. An object is the list of its properties, own and inherited; what it is an
instance of is `ObjectKind`, with the values that the methods of NestJS exceptions return.
-/

namespace EmailPlatform

mutual

/-- A JavaScript value. -/
inductive JsValue
  | undefined
  | null
  | bool (b : Bool)
  | num (n : JsNumber)
  | str (s : String)
  /-- A function, a symbol or a bigint: no `typeof` test of the code accepts these. -/
  | other
  | object (kind : ObjectKind) (props : List (String × JsValue))

/-- What an object is an instance of. -/
inductive ObjectKind
  | plain
  | error
  /-- `RpcException`, an `Error`; `error` is what `getError()` returns. -/
  | rpcException (error : JsValue)
  /-- `HttpException`, an `Error`, with `getStatus()` and `getResponse()`. -/
  | httpException (status : Nat) (response : JsValue)

end

namespace JsValue

/-- An object's properties; other values have none the code could see. -/
def props : JsValue → Props JsValue
  | object _ ps => ps
  | _ => []

/-- `v && typeof v === 'object' && key in v`, with the property's value. -/
def get? (v : JsValue) (key : String) : Option JsValue :=
  (v.props.find? (·.1 = key)).map Prod.snd

/-- `v && typeof v === 'object' && key in v && typeof v[key] === 'number'`. -/
def getNumber? (v : JsValue) (key : String) : Option JsNumber :=
  match v.get? key with
  | some (num n) => some n
  | _ => none

/-- The same with `'string'`. -/
def getString? (v : JsValue) (key : String) : Option String :=
  match v.get? key with
  | some (str s) => some s
  | _ => none

/-- `typeof v === 'object'`; also true of `null`. -/
def isTypeofObject : JsValue → Bool
  | object .. | null => true
  | _ => false

/-- `v instanceof Error`. -/
def isError : JsValue → Bool
  | object .error _ | object (.rpcException _) _ | object (.httpException ..) _ => true
  | _ => false

/-- `v instanceof HttpException`. -/
def isHttpException : JsValue → Bool
  | object (.httpException ..) _ => true
  | _ => false

end JsValue

end EmailPlatform
