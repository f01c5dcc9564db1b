import DifferentialPrivacy.Text.Printable
import DifferentialPrivacy.Text.Utf8

set_option autoImplicit false

/-!
Bytes that need not be a text, shown in double quotes. Characters that can be shown stand for
themselves, other characters are named or numbered, and bytes outside any character are written in
hexadecimal.
-/

namespace DifferentialPrivacy

namespace Text

def escapeChar (c : Char) : List Char :=
  match c with
  | '\x00' => ['\\', '0']
  | '\t' => ['\\', 't']
  | '\n' => ['\\', 'n']
  | '\r' => ['\\', 'r']
  | '"' => ['\\', '"']
  | '\\' => ['\\', '\\']
  | c =>
    if isPrintable c then [c]
    else ['\\', 'u', '\x7b'] ++ Nat.toDigits 16 c.toNat ++ ['\x7d']

def escapeByte (b : UInt8) : List Char :=
  ['\\', 'x', (Nat.digitChar (b.toNat / 16)).toUpper, (Nat.digitChar (b.toNat % 16)).toUpper]

def quoteBytes (bytes : List UInt8) : String :=
  String.ofList ('"' :: (Utf8.units bytes).flatMap (Sum.elim escapeChar escapeByte) ++ ['"'])

end Text
end DifferentialPrivacy
