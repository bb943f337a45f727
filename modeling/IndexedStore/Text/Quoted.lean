import IndexedStore.Text.Invisible

/-!
# Quoted text

A string between quotation marks, with the characters that would not show written out.
-/
namespace IndexedStore.Text

def hex (n : Nat) : String := String.ofList (Nat.toDigits 16 n)

/-- A character as it stands inside quotation marks. -/
def escape (c : Char) : String :=
  match c with
  | '\x00' => "\\0"
  | '\t' => "\\t"
  | '\n' => "\\n"
  | '\r' => "\\r"
  | '"' => "\\\""
  | '\\' => "\\\\"
  | c => if isInvisible c then "\\u\x7b" ++ hex c.toNat ++ "\x7d" else c.toString

def quoted (s : String) : String :=
  "\"" ++ String.join (s.toList.map escape) ++ "\""

def bracketed (left right : String) (items : List String) : String :=
  left ++ ", ".intercalate items ++ right

end IndexedStore.Text
