import Treewalk.CommandLine
import Treewalk.Main
import Treewalk.Proofs.CommandLine
import Treewalk.Proofs.Grammar.Acceptance
import Treewalk.Proofs.Grammar.FirstError
import Treewalk.Proofs.Machine.Confined
import Treewalk.Proofs.Machine.ForLoop
import Treewalk.Proofs.Machine.Stops
import Treewalk.Proofs.Number.Numeral
import Treewalk.Proofs.Parser.MissingSemicolon
import Treewalk.Proofs.Scope.History
import Treewalk.Proofs.Scope.Lookup
import Treewalk.Proofs.Scope.Walk
import Treewalk.Proofs.Session.AtRest
import Treewalk.Proofs.Session.Decoding
import Treewalk.Proofs.Session.Join
import Treewalk.Proofs.Session.Places
import Treewalk.Proofs.Session.Thinning
import Treewalk.Proofs.Stack.Refinement
import Treewalk.Proofs.Tape.Program
import Treewalk.Proofs.Token.Lines
import Treewalk.Proofs.Tree.Unambiguous
import Treewalk.Session.Request

/-!
# A tree-walking interpreter

A small scripting language, from its text to what it prints: tokens (`scan`), trees
(`Program.ofTokens`), and their evaluation over nested scopes (`Machine`). A `Session` runs one
source after another; the command line gives it a script or a conversation.

The theory under `Proofs` stands in the same order:

* `Token`, `Number`: the longest pieces of a text, lines, and numerals rounded to the nearest
  number.
* `Grammar`, `Parser`, `Tape`: derivations, the first token that cannot be right, recovery from
  errors, and parsing from positions in a token list.
* `Scope`, `Machine`, `Stack`: histories of the arena of scopes, what blocks and loops may change,
  and programs on a stack of bindings.
* `Tree`, `Session`: the text of trees, sources joined or rejected as a whole, and conversations
  under limits on input and output.
-/
