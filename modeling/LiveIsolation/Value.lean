import LiveIsolation.Decimal.Layout

/-!
# Values

The scalar values that a front end binds to the placeholders of a statement. Values of
different types are never equal, and floating-point values are compared as numbers:
`NaN` equals nothing and the two zeros are equal. A floating-point value is kept as its bits,
since several words stand for `NaN`.
-/

namespace LiveIsolation

inductive Value where
  | null
  | bool (b : Bool)
  | int (n : Int64)
  | float (bits : UInt64)
  | text (s : String)
  | bytes (b : List UInt8)
  deriving DecidableEq, Repr, Inhabited

namespace Value

/-- Equality as a statement sees it; a weaker relation than `=` on zeros and a stronger one
on `NaN`. -/
def same : Value → Value → Bool
  | .null, .null => true
  | .bool a, .bool b => a == b
  | .int a, .int b => a == b
  | .float a, .float b => Float.ofBits a == Float.ofBits b
  | .text a, .text b => a == b
  | .bytes a, .bytes b => a == b
  | _, _ => false

def typeName : Value → String
  | .null => "Null"
  | .bool _ => "Bool"
  | .int _ => "Int"
  | .float _ => "Float"
  | .text _ => "String"
  | .bytes _ => "Bytes"

def int? : Value → Option Int64
  | .int n => some n
  | _ => none

def display : Value → String
  | .null => "NULL"
  | .bool b => if b then "true" else "false"
  | .int n => toString n.toInt
  | .float bits => Decimal.Layout.plain.float (Float.ofBits bits)
  | .text s => "'" ++ s ++ "'"
  | .bytes b => "<" ++ toString b.length ++ " bytes>"

@[simp] theorem int?_int (n : Int64) : (Value.int n).int? = some n := rfl

end Value

end LiveIsolation
