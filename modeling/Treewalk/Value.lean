import Treewalk.Number.Shortest

/-!
# Values

What an expression evaluates to, and what a literal holds.
-/

namespace Treewalk

inductive Value
  | number (x : Number)
  | string (s : String)
  | bool (b : Bool)
  | nil
  deriving DecidableEq, Inhabited

namespace Value

/-- Everything is true but `nil` and `false`. -/
def isTruthy : Value → Bool
  | nil | bool false => false
  | _ => true

/-- The language's own equality: values of different kinds differ, and numbers compare as
numbers. -/
def equals : Value → Value → Bool
  | number x, number y => x.equals y
  | string s, string t => s = t
  | bool a, bool b => a = b
  | nil, nil => true
  | _, _ => false

def asNumber? : Value → Option Number
  | number x => some x
  | _ => none

/-- The text that `print` writes. A string stands for itself, without quotes. -/
def text : Value → String
  | number x => x.text
  | string s => s
  | bool true => "true"
  | bool false => "false"
  | nil => "nil"

end Value

end Treewalk
