/-!
# Spans

A stretch of a source, by the offsets of its first byte and of the byte after its last. A span is
the place itself, whatever the size of the source. A number of 32 bits holds the offsets of a source
of less than 2 ^ 32 bytes, so where offsets are counted in such numbers a result on spans is one on
sources below that bound.
-/

set_option autoImplicit false

namespace QbScript

structure Span where
  start : Nat
  stop : Nat
  deriving DecidableEq

namespace Span

/-- A span that ends before it starts has no bytes. -/
def length (s : Span) : Nat := s.stop - s.start

def isEmpty (s : Span) : Bool := s.stop ≤ s.start

end Span

end QbScript
