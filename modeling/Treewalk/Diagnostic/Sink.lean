import Treewalk.Diagnostic

/-!
# Sinks for diagnostics

A session reports to a sink, which also remembers of which kinds there were errors since it
was last reset. One sink keeps the texts, another prints them; what a sink has taken stays
through a reset.
-/

namespace Treewalk

/-- The kinds of error reported since the last reset. -/
structure Flags where
  sourceError : Bool
  runtimeError : Bool
  deriving DecidableEq, Inhabited

namespace Flags

def clear : Flags := ⟨false, false⟩

/-- The flags after one more diagnostic. -/
def add (f : Flags) : Diagnostic → Flags
  | .source .. => { f with sourceError := true }
  | .runtime .. => { f with runtimeError := true }

def any (f : Flags) : Bool :=
  f.sourceError || f.runtimeError

end Flags

class Sink (σ : Type) where
  /-- A sink that has taken nothing. -/
  empty : σ
  write : σ → Diagnostic → σ
  reset : σ → σ
  flags : σ → Flags

/-- Keeps the text of each diagnostic. -/
structure Buffered where
  /-- The texts, the latest first. -/
  entries : List String
  flags : Flags
  deriving DecidableEq

namespace Buffered

/-- The texts in the order in which they were reported. -/
def diagnostics (b : Buffered) : List String :=
  b.entries.reverse

instance : Sink Buffered where
  empty := ⟨[], .clear⟩
  write b d := ⟨d.text :: b.entries, b.flags.add d⟩
  reset b := { b with flags := .clear }
  flags := flags

end Buffered

/-- Prints each diagnostic, with a newline behind it. -/
structure Console where
  /-- What was printed, the latest first. -/
  chunks : List String
  flags : Flags
  deriving DecidableEq

namespace Console

/-- All that was printed. -/
def printed (c : Console) : String :=
  String.join c.chunks.reverse

instance : Sink Console where
  empty := ⟨[], .clear⟩
  write c d := ⟨(d.text ++ "\n") :: c.chunks, c.flags.add d⟩
  reset c := { c with flags := .clear }
  flags := flags

end Console

namespace Sink

variable {σ : Type} [Sink σ]

def writeAll (s : σ) (ds : List Diagnostic) : σ :=
  ds.foldl write s

end Sink

end Treewalk
