/-!
# Spans

A span is a half-open range of byte offsets into a source text.

* `Span`, `Span.merge`, `Span.point`, `Span.ofRange`;
* `Span.render`: the form `start..stop`.
-/

namespace Lox

/-- The bytes of a text from `start` up to, and without, `stop`. -/
structure Span where
  start : Nat
  stop : Nat
  deriving DecidableEq, Repr, Inhabited

namespace Span

/-- The largest offset that a span holds. -/
def maxOffset : Nat := Nat.pow 2 32 - 1

/-- The span of a range of offsets; an offset past `maxOffset` becomes `maxOffset`. -/
def ofRange (start stop : Nat) : Span := ⟨min start maxOffset, min stop maxOffset⟩

/-- The empty span at an offset. -/
def point (offset : Nat) : Span := ⟨offset, offset⟩

/-- The number of bytes of a span. -/
def length (s : Span) : Nat := s.stop - s.start

/-- Whether a span holds no byte. -/
def isEmpty (s : Span) : Bool := s.start == s.stop

/-- The least span around two spans. -/
def merge (s t : Span) : Span := ⟨min s.start t.start, max s.stop t.stop⟩

/-- The text form `start..stop`. -/
def render (s : Span) : String := s!"{s.start}..{s.stop}"

@[simp] theorem merge_self (s : Span) : s.merge s = s := by
  simp [merge]

end Span

end Lox
