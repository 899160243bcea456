import SolSyntax.Text.Bytes

/-!
# Places in a source text

* `Span` — a range of byte offsets, start included and stop excluded.
* `Position` — the line and column of a character, both counted from one.
* `Fault` — the computations on offsets and positions that have no 32-bit answer.

Offsets, lines and columns are natural numbers here; `wordLimit` is the bound that a source has to
respect, and the operations that could leave the range say so with a `Fault`.
-/

namespace SolSyntax

/-- Offsets, lines and columns lie below this bound. -/
def wordLimit : Nat := 1 <<< 32

/-- Why a computation on offsets or positions has no answer. -/
inductive Fault where
  /-- The length of a span that stops before it starts. -/
  | lengthUnderflow
  /-- An offset, line or column of `wordLimit` or more. -/
  | wordOverflow
  /-- A cursor was sent to `position` in a list of `size` tokens. -/
  | cursorOutOfBounds (position size : Nat)
  deriving DecidableEq, Repr

def Fault.message : Fault → String
  | .lengthUnderflow => "attempt to subtract with overflow"
  | .wordOverflow => "attempt to add with overflow"
  | .cursorOutOfBounds position size =>
    s!"cursor position {position} out of bounds (max {size})"

/-- Which end of a byte range does not fit in 32 bits. -/
inductive SpanError where
  | startTooLarge (start : Nat)
  | stopTooLarge (stop : Nat)
  deriving DecidableEq, Repr

def SpanError.message : SpanError → String
  | .startTooLarge start => s!"span start {start} exceeds u32::MAX"
  | .stopTooLarge stop => s!"span end {stop} exceeds u32::MAX"

/-- The byte range `start..stop`. -/
structure Span where
  start : Nat
  stop : Nat
  deriving DecidableEq, Repr, Inhabited

namespace Span

/-- The span of what has no source text. -/
def dummy : Span := ⟨0, 0⟩

/-- The span of a byte range, if both ends fit; the start is looked at first. -/
def ofRange (start stop : Nat) : Except SpanError Span :=
  if wordLimit ≤ start then .error (.startTooLarge start)
  else if wordLimit ≤ stop then .error (.stopTooLarge stop)
  else .ok ⟨start, stop⟩

/-- The empty span at an offset. -/
def point (offset : Nat) : Span := ⟨offset, offset⟩

def length (s : Span) : Except Fault Nat :=
  if s.start ≤ s.stop then .ok (s.stop - s.start) else .error .lengthUnderflow

def isEmpty (s : Span) : Bool := s.start == s.stop

def contains (s : Span) (offset : Nat) : Bool := decide (s.start ≤ offset ∧ offset < s.stop)

/-- The smallest span that covers both. -/
def merge (s t : Span) : Span := ⟨min s.start t.start, max s.stop t.stop⟩

/-- Both ends moved right. -/
def shifted (s : Span) (offset : Nat) : Except Fault Span :=
  if s.start + offset < wordLimit ∧ s.stop + offset < wordLimit then
    .ok ⟨s.start + offset, s.stop + offset⟩
  else .error .wordOverflow

/-- The text under a span, empty if the span does not fit the text. -/
def slice (s : Span) (source : List Char) : List Char :=
  (sliceBytes s.start s.stop source).getD []

def text (s : Span) : String := s!"{s.start}..{s.stop}"

end Span

/-- Line and column, both counted from one; the column counts characters. -/
structure Position where
  line : Nat
  column : Nat
  deriving DecidableEq, Repr, Inhabited

namespace Position

/-- The position of the first character. -/
def first : Position := ⟨1, 1⟩

/-- The position after one more character: a line feed ends the line. -/
def after (p : Position) (c : Char) : Position :=
  if c = '\n' then ⟨p.line + 1, 1⟩ else ⟨p.line, p.column + 1⟩

/-- Whether line and column can be reported. -/
def fits (p : Position) : Bool := decide (p.line < wordLimit ∧ p.column < wordLimit)

def text (p : Position) : String := s!"{p.line}:{p.column}"

end Position

end SolSyntax
