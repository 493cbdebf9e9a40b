/-!
# Inputs

An input is its bytes and what is found behind them: its end, or a failure to read on. It is
read line by line.

Main definition: `Input.lines`.
-/

namespace Treewalk

structure Input where
  bytes : List UInt8
  /-- Whether reading behind the bytes fails. -/
  fails : Bool
  deriving DecidableEq

namespace Input

/-- An input that fails behind `limit` bytes, or behind all of them if there are fewer. -/
def limited (limit : Nat) (bytes : List UInt8) : Input :=
  ⟨bytes.take limit, true⟩

def newline : UInt8 := 10

/-- Bytes cut behind each newline. Only the last line may lack one. -/
def splitLines : List UInt8 → List (List UInt8)
  | [] => []
  | b :: bs =>
    if b = newline then [b] :: splitLines bs
    else
      match splitLines bs with
      | [] => [[b]]
      | line :: rest => (b :: line) :: rest

/-- The lines that can be read. A line without a newline counts only at the end of the
input, not where reading on fails. -/
def lines (i : Input) : List (List UInt8) :=
  let all := splitLines i.bytes
  if i.fails then all.filter fun line => line.getLast? = some newline else all

end Input

end Treewalk
