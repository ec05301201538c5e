import ObjectRuntime.Text.Printable
import ObjectRuntime.Text.Digits

/-! Quoted text: the text between double quotes, with the quote, the backslash and
every character that would not show escaped. -/

namespace ObjectRuntime

def quoteChar (c : Char) : List Char :=
  match c with
  | '\x00' => ['\\', '0']
  | '\t' => ['\\', 't']
  | '\r' => ['\\', 'r']
  | '\n' => ['\\', 'n']
  | '"' => ['\\', '"']
  | '\\' => ['\\', '\\']
  | c =>
    if Printable.printable c then [c]
    else ['\\', 'u', Char.ofNat 0x7b] ++ (hex 1 c.toNat).toList ++ [Char.ofNat 0x7d]

def quote (text : String) : String :=
  String.ofList ('"' :: (text.toList.flatMap quoteChar ++ ['"']))

end ObjectRuntime
