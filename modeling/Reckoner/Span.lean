/-!
# Spans

A span is a half-open range of byte offsets into the source text. Tokens and
diagnostics carry one each.
-/

namespace Reckoner

/-- The bytes from `start` up to, but not including, `stop`. -/
structure Span where
  start : Nat
  stop : Nat
deriving DecidableEq, Repr, Inhabited

namespace Span

/-- The number of bytes covered. A span that ends before it starts covers none. -/
def length (s : Span) : Nat := s.stop - s.start

/-- Whether no byte is covered. -/
def isEmpty (s : Span) : Bool := s.length = 0

/-- The empty span at an offset. -/
def emptyAt (offset : Nat) : Span := ⟨offset, offset⟩

/-- The written form, such as `3..7`. -/
def render (s : Span) : String := s!"{s.start}..{s.stop}"

end Span

end Reckoner
