import LiveIsolation.Text.Json
import LiveIsolation.Protocol
import LiveIsolation.Value

/-!
# Values as JSON

A value is written as an object whose key names its type; null is written as the name alone.
Operation kinds and protocols are written as their names.
-/

namespace LiveIsolation

namespace Value

open Reader Json in
/-- The content of the alternative with a name. -/
def jsonContent (name : String) : Reader Value :=
  match name with
  | "Null" => do keyword "null"; return .null
  | "Bool" =>
    (do keyword "true"; return .bool true) <|> (do keyword "false"; return .bool false)
  | "Int" => do return .int (Int64.ofInt (← intWithin (-(Nat.pow 2 63)) (Nat.pow 2 63 - 1)))
  | "Float" => do return .float (← require (← numeral).float?).toBits
  | "String" => do return .text (← string)
  | "Bytes" => do
    let byte := do return UInt8.ofNat (← intWithin 0 255).toNat
    let list := between (symbol '[') (symbol ']') (optional (separated byte (symbol ',')))
    return .bytes ((← list).getD [])
  | _ => failure

def ofJson? (s : String) : Option Value :=
  (Json.alternative (fun name => if name = "Null" then some .null else none) jsonContent).read? s

/-- Numbers that JSON cannot write are written as null. -/
def floatJson (x : Float) : String :=
  if x.isFinite then Decimal.Layout.json.float x else "null"

def toJson : Value → String
  | .null => Json.quote "Null"
  | .bool b => Json.tagged "Bool" (if b then "true" else "false")
  | .int n => Json.tagged "Int" (toString n.toInt)
  | .float bits => Json.tagged "Float" (floatJson (Float.ofBits bits))
  | .text s => Json.tagged "String" (Json.quote s)
  | .bytes bs =>
    Json.tagged "Bytes" ("[" ++ ",".intercalate (bs.map fun b => toString b.toNat) ++ "]")

end Value

namespace OperationKind

def jsonName : OperationKind → String
  | .read => "Read"
  | .write => "Write"
  | .scan => "Scan"

def ofJsonName? (s : String) : Option OperationKind := [read, write, scan].find? (·.jsonName == s)

def ofJson? (s : String) : Option OperationKind :=
  (Json.alternative ofJsonName? (Json.bareContent ofJsonName?)).read? s

def toJson (k : OperationKind) : String := Json.quote k.jsonName

theorem ofJsonName?_jsonName (k : OperationKind) : ofJsonName? k.jsonName = some k := by
  cases k <;> rfl

end OperationKind

namespace Protocol

def jsonName : Protocol → String
  | .serializable => "ser"
  | .snapshot => "si_tailor"
  | .readCommitted => "rc_tailor"

def ofJsonName? (s : String) : Option Protocol :=
  [serializable, snapshot, readCommitted].find? (·.jsonName == s)

def ofJson? (s : String) : Option Protocol :=
  (Json.alternative ofJsonName? (Json.bareContent ofJsonName?)).read? s

def toJson (p : Protocol) : String := Json.quote p.jsonName

theorem ofJsonName?_jsonName (p : Protocol) : ofJsonName? p.jsonName = some p := by
  cases p <;> rfl

end Protocol

end LiveIsolation
