import SolSyntax.Span

/-!
# Lines of a source

A line table holds the byte offset at which every line starts, so that an offset can be turned
into a line and a column, and a line into its text.

Line starts are 32-bit numbers: from the last of these on all count as the last.  So do the numbers
of lines and columns, except that the last index of 32 bits has no number behind it; `locate` and
`lineText` fail where such a number would be formed.
-/

namespace SolSyntax

/-- The offsets after the line feeds of a text that starts at `offset`. -/
def lineStartsFrom (offset : Nat) (cs : List Char) : List Nat :=
  let scan := cs.foldl
    (fun (state : Nat × List Nat) c =>
      let next := state.1 + c.utf8Size
      (next, if c = '\n' then next :: state.2 else state.2))
    (offset, [])
  scan.2.reverse

/-- An offset as a 32-bit number, the last of them if there is no such number. -/
def saturated (offset : Nat) : Nat := min offset (wordLimit - 1)

/-- The number of a line or column that is found at an index. -/
def ordinal (index : Nat) : Nat := if index < wordLimit then index + 1 else wordLimit - 1

/-- Whether a character ends a line. -/
def isLineEnd (c : Char) : Bool := c == '\n' || c == '\r'

/-- A source and where its lines start. -/
structure LineTable where
  source : List Char
  starts : List Nat

namespace LineTable

def ofChars (source : List Char) : LineTable :=
  ⟨source, 0 :: (lineStartsFrom 0 source).map saturated⟩

def ofSource (source : String) : LineTable := ofChars source.toList

def lineCount (t : LineTable) : Nat := t.starts.length

/-- The line that holds an offset, counted from one: the last one that starts at or before it. -/
def lineOf (t : LineTable) (offset : Nat) : Nat :=
  ordinal ((t.starts.takeWhile (· ≤ offset)).length - 1)

/-- Where a line starts. -/
def lineStart? (t : LineTable) (line : Nat) : Option Nat :=
  if line = 0 then none else t.starts[line - 1]?

/-- Line and column of an offset.  An offset past the end counts as the end, and one inside a
character gets the first column. -/
def position (t : LineTable) (offset : Nat) : Position :=
  let line := t.lineOf offset
  let start := (t.lineStart? line).getD 0
  let stop := min offset (byteLength t.source)
  ⟨line, ordinal ((sliceBytes start stop t.source).getD []).length⟩

/-- The position of an offset, if its line and its column are 32-bit numbers. -/
def locate (t : LineTable) (offset : Nat) : Except Fault Position :=
  let position := t.position offset
  if position.fits then .ok position else .error .wordOverflow

/-- The text of a line, without what ends it, or `none` if there is no such line.  It goes up to the
start of the next line, whose number has to be a 32-bit number. -/
def lineText (t : LineTable) (line : Nat) : Except Fault (Option (List Char)) :=
  match t.lineStart? line with
  | none => .ok none
  | some start =>
    if line + 1 < wordLimit then
      let stop := (t.lineStart? (line + 1)).getD (byteLength t.source)
      .ok ((sliceBytes start stop t.source).map (trimEnd isLineEnd))
    else .error .wordOverflow

/-- The text of a line, if there is one and it can be told. -/
def lineText? (t : LineTable) (line : Nat) : Option (List Char) := (t.lineText line).toOption.join

end LineTable

/-- Line and column of the start of a span. -/
def Span.positionIn (s : Span) (source : String) : Position :=
  (LineTable.ofSource source).position s.start

end SolSyntax
