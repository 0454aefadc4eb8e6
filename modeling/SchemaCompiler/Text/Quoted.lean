import SchemaCompiler.Text.Printable

/-!
# Quoted text

Text between double quotes: a quote and a backslash are escaped, printable characters stand for
themselves, and all others are written as escapes.
-/

namespace SchemaCompiler.Text

/-- The last `width` hexadecimal digits of `n`, in lower case. -/
def hexDigits : Nat → Nat → List Char
  | 0, _ => []
  | width + 1, n => hexDigits width (n / 16) ++ [Nat.digitChar (n % 16)]

def hex (width n : Nat) : String :=
  String.ofList (hexDigits width n)

def quotedChar (c : Char) : String :=
  match c with
  | '"' => "\\\""
  | '\\' => "\\\\"
  | '\n' => "\\n"
  | '\r' => "\\r"
  | '\t' => "\\t"
  | c =>
    if isPrintable c then String.singleton c
    else match c.toNat with
      | 0x07 => "\\a"
      | 0x08 => "\\b"
      | 0x0b => "\\v"
      | 0x0c => "\\f"
      | n =>
        if n < 0x20 || n == 0x7f then "\\x" ++ hex 2 n
        else if n < 0x10000 then "\\u" ++ hex 4 n
        else "\\U" ++ hex 8 n

def quoted (text : String) : String :=
  "\"" ++ String.join (text.toList.map quotedChar) ++ "\""

end SchemaCompiler.Text
