/-!
# Quoted names

A name is quoted for a message: in quotes, with quotes, backslashes and control characters
escaped, and everything else as it is.
-/

namespace Treewalk.Quoted

/-- The escaped form of one character. Control characters without a letter of their own are
written by their code in hexadecimal digits. -/
def escape (c : Char) : List Char :=
  match c with
  | '"' => ['\\', '"']
  | '\\' => ['\\', '\\']
  | '\t' => ['\\', 't']
  | '\n' => ['\\', 'n']
  | '\r' => ['\\', 'r']
  | '\x00' => ['\\', '0']
  | c =>
    if c.toNat < 0x20 || c.toNat = 0x7f then
      '\\' :: 'u' :: '\x7b' :: (Nat.toDigits 16 c.toNat ++ ['\x7d'])
    else [c]

def encode (name : String) : String :=
  String.ofList ('"' :: (name.toList.flatMap escape ++ ['"']))

end Treewalk.Quoted
