import DecisionModel.Text.Combining
import DecisionModel.Text.Printable

/-!
# Quoted text

The form in which text values are shown: between double quotes, with quotes,
backslashes and the common controls behind a backslash, and with every character that
would not show on its own given by its code point.
-/

namespace DecisionModel.Text

/-- The code point escape: a backslash, `u` and the hexadecimal number in braces. -/
def codePointEscape (c : Char) : List Char :=
  "\\u\x7b".toList ++ Nat.toDigits 16 c.toNat ++ ['\x7d']

def showChar (c : Char) : List Char :=
  match c with
  | '"' => ['\\', '"']
  | '\\' => ['\\', '\\']
  | '\n' => ['\\', 'n']
  | '\r' => ['\\', 'r']
  | '\t' => ['\\', 't']
  | '\x00' => ['\\', '0']
  | _ => if isCombining c || !isPrintable c then codePointEscape c else [c]

def quoted (text : String) : String :=
  String.ofList ('"' :: text.toList.flatMap showChar ++ ['"'])

end DecisionModel.Text
