import Reckoner.Token.Channel
import Reckoner.Tree.Parse

/-!
# Reading expressions

From the text of an expression to its tree. The settings say what a caret means and
whether the tokens are streamed; streaming changes nothing in what is read.
-/

namespace Reckoner

/-- How expressions are read. -/
structure Reading where
  caret : Caret
  /-- whether tokens reach the parser through a channel -/
  streaming : Bool
  /-- the capacity of that channel -/
  capacity : Nat
deriving DecidableEq, Repr

namespace Reading

/-- Carets join literals, and nothing is streamed. -/
def default : Reading := ⟨.power, false, 1024⟩

instance : Inhabited Reading := ⟨default⟩

/-- The tokens of a source. -/
def tokens (r : Reading) (source : String) : List Token :=
  if r.streaming then stream r.caret r.capacity source else tokenize r.caret source

/-- The tree of a source under a depth limit. -/
def parseWithin (r : Reading) (limit : Nat) (source : String) : Parsed :=
  Reckoner.parse limit (r.tokens source)

/-- The tree of a source. -/
def parse (r : Reading) (source : String) : Parsed := r.parseWithin depthLimit source

end Reading

end Reckoner
