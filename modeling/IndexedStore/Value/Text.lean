import IndexedStore.Decimal.Literal
import IndexedStore.Text.Quoted
import IndexedStore.Value.Basic

/-!
# Text of values

Two texts for readers: `text`, in which the type shows only where it must, and `diagnostic`, which
names the type of every value.
-/
namespace IndexedStore.Value

def text : Value → String
  | .int v => toString v.toInt
  | .long v => toString v.toInt ++ "L"
  | .double v => v.text
  | .str v => Text.quoted v
  | .date v => "date(" ++ toString v.toInt ++ ")"
  | .bool v => if v then "true" else "false"
  | .unset _ => "*"

def payloadText : Value → String
  | .int v => toString v.toInt
  | .long v | .date v => toString v.toInt
  | .double v => v.text
  | .str v => Text.quoted v
  | .bool v => if v then "true" else "false"
  | .unset t => t.label

def diagnostic (v : Value) : String :=
  (if v.isUnset then "Unset" else v.type.label) ++ "(" ++ v.payloadText ++ ")"

def diagnosticList (vs : List Value) : String := Text.bracketed "[" "]" (vs.map diagnostic)

end IndexedStore.Value
