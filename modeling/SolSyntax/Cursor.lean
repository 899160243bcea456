import SolSyntax.SyntaxError
import SolSyntax.Tree

/-!
# A place in a token list

A cursor moves forward through a token list.  It remembers which tags were asked for and not found
where it stands, so that an error can list all that would have been accepted there.

Principal results: `expectedHere_note` — a miss is remembered; `expectedHere_of_moved` — and
forgotten once the cursor stands elsewhere.
-/

namespace SolSyntax

structure Cursor where
  tokens : TokenList
  position : Nat
  /-- The position that `missed` belongs to. -/
  probedAt : Nat
  /-- What was asked for and not found at `probedAt`. -/
  missed : TagSet
  deriving DecidableEq, Repr

namespace Cursor

def start (tokens : TokenList) : Cursor := ⟨tokens, 0, 0, .empty⟩

instance : Inhabited Cursor := ⟨start .empty⟩

/-! ## Looking -/

/-- The token at the cursor. -/
def current (c : Cursor) : Token := (c.tokens.get? c.position).getD .missingEnd

def tagAt (c : Cursor) (i : Nat) : Tag := c.tokens.tagAt i

def currentTag (c : Cursor) : Tag := c.tagAt c.position

/-- The tag some tokens ahead. -/
def peekTag (c : Cursor) (offset : Nat) : Tag := c.tagAt (c.position + offset)

def previousSpan (c : Cursor) : Span :=
  if c.position = 0 then .dummy
  else ((c.tokens.get? (c.position - 1)).map Token.span).getD .dummy

/-- The span of the next token, or of the current one if it is the last. -/
def nextSpan (c : Cursor) : Span :=
  ((c.tokens.get? (c.position + 1)).map Token.span).getD c.current.span

/-- Whether the current token has a tag; a miss is not remembered. -/
def isAt (c : Cursor) (t : Tag) : Bool := c.currentTag == t

def isAtEnd (c : Cursor) : Bool := c.isAt .eof

/-- What was asked for and not found here. -/
def expectedHere (c : Cursor) : TagSet :=
  if c.probedAt = c.position then c.missed else .empty

/-! ## Asking -/

def resetExpected (c : Cursor) : Cursor := { c with probedAt := c.position, missed := .empty }

/-- Remembers tags that would have been accepted here. -/
def note (c : Cursor) (s : TagSet) : Cursor :=
  { c with probedAt := c.position, missed := c.expectedHere.union s }

/-- Whether the current token has a tag; a miss is remembered. -/
def check (c : Cursor) (t : Tag) : Bool × Cursor :=
  if c.isAt t then (true, c) else (false, c.note (.single t))

/-- Whether the current token is in a set; a miss is remembered. -/
def checkSet (c : Cursor) (s : TagSet) : Bool × Cursor :=
  if s.contains c.currentTag then (true, c) else (false, c.note s)

/-- An error at the current token. -/
def errorWith (c : Cursor) (code : ErrorCode) (message : String) : SyntaxError :=
  (SyntaxError.new code message c.current.span c.current.position
    c.current.kind.displayName).withExpected c.expectedHere

/-- A complaint about the current token. -/
def complain (c : Cursor) (complaint : Complaint) : SyntaxError :=
  c.errorWith complaint.code (complaint.message c.current.kind.displayName)

/-! ## Moving -/

/-- Takes the current token; the cursor stays at an `eof`. -/
def advance (c : Cursor) : Token × Cursor :=
  (c.current, if c.isAtEnd then c else { c with position := c.position + 1 })

/-- Takes a token with a given tag. -/
def expect (c : Cursor) (t : Tag) : Except SyntaxError Token × Cursor :=
  match c.check t with
  | (true, c) => let (token, c) := c.advance; (.ok token, c)
  | (false, c) => (.error (c.complain (.expectedToken t)), c)

/-- Takes a plain or operator identifier. -/
def expectIdent (c : Cursor) : Except SyntaxError Ident × Cursor :=
  match c.current.kind with
  | .ident name => (.ok ⟨name, .simple, c.current.span⟩, c.advance.2)
  | .symbol name => (.ok ⟨name, .symbol, c.current.span⟩, c.advance.2)
  | _ => let c := c.note .identStart; (.error (c.complain .expectedIdentifier), c)

/-- The first index from `i` on whose tag is not in a class; past the end there is none. -/
def skipFrom (ts : TokenList) (p : Tag → Bool) (i : Nat) : Nat :=
  if i < ts.size ∧ p (ts.tagAt i) then skipFrom ts p (i + 1) else i
termination_by ts.size - i

def skipNewlines (c : Cursor) : Cursor :=
  { c with position := skipFrom c.tokens (· == .newline) c.position }

/-- Skips commas and line breaks; whether there was one.  If not, both are remembered as missed. -/
def eatSeparators (c : Cursor) : Bool × Cursor :=
  let position := skipFrom c.tokens (fun t => t == .comma || t == .newline) c.position
  if position = c.position then (false, c.note (.ofList [.comma, .newline]))
  else (true, { c with position })

/-- Goes to an index, at most that of the last token, and forgets all misses. -/
def seek (c : Cursor) (position : Nat) : Cursor :=
  resetExpected { c with position := min position (c.tokens.size - 1) }

/-- Goes to the index of a token. -/
def setPosition (c : Cursor) (position : Nat) : Except Fault Cursor :=
  if position < c.tokens.size then .ok (c.seek position)
  else .error (.cursorOutOfBounds position c.tokens.size)

/-! ## Looking further -/

/-- The tag of the first token from here on that is no line break. -/
def tagPastNewlines (c : Cursor) : Tag :=
  c.tagAt (skipFrom c.tokens (· == .newline) c.position)

/-- Whether nothing stands between two spans. -/
def adjacent (left right : Span) : Bool := left.stop == right.start

/-- The index of the bracket that closes all brackets opened from `i` on, `depth` of them being
open there.  The kinds of brackets are not told apart.  An `eof` ends the search. -/
def closeFrom (ts : TokenList) (i depth : Nat) : Option Nat :=
  if i < ts.size then
    let tag := ts.tagAt i
    if tag.isOpening then closeFrom ts (i + 1) (depth + 1)
    else if tag.isClosing then
      if depth ≤ 1 then some i else closeFrom ts (i + 1) (depth - 1)
    else if tag = .eof then none
    else closeFrom ts (i + 1) depth
  else none
termination_by ts.size - i

/-- The index of the bracket that closes the group opened at an index. -/
def matchingClose? (c : Cursor) (opening : Nat) : Option Nat := closeFrom c.tokens opening 0

/-- Whether the group opened here is closed and followed by a tag. -/
def groupFollowedBy (c : Cursor) (t : Tag) : Bool :=
  match c.matchingClose? c.position with
  | some close => c.tagAt (close + 1) == t
  | none => false

/-- Whether a tag occurs outside of brackets in `i..stop`, `depth` brackets being open at `i`. -/
def occursFrom (ts : TokenList) (i stop depth : Nat) (t : Tag) : Bool :=
  if i < stop then
    if i < ts.size then
      let tag := ts.tagAt i
      if tag.isOpening then occursFrom ts (i + 1) stop (depth + 1) t
      else if tag.isClosing then occursFrom ts (i + 1) stop (depth - 1) t
      else if depth = 0 ∧ tag = t then true
      else occursFrom ts (i + 1) stop depth t
    else depth == 0 && t == .eof
  else false
termination_by ts.size - i

/-- Whether a tag occurs outside of brackets between two indices. -/
def containsAtDepthZero (c : Cursor) (start stop : Nat) (t : Tag) : Bool :=
  occursFrom c.tokens start stop 0 t

/-- Whether a tag occurs outside of brackets before the line, the group around `i` or the list
ends, and before any tag of `stops`; `depth` brackets are open at `i`. -/
def lineHasFrom (ts : TokenList) (t : Tag) (stops : TagSet) (i depth : Nat) : Bool :=
  if i < ts.size then
    let tag := ts.tagAt i
    if tag = .eof then false
    else if depth = 0 ∧ tag = t then true
    else if depth = 0 ∧ (tag = .newline ∨ stops.contains tag) then false
    else if tag.isOpening then lineHasFrom ts t stops (i + 1) (depth + 1)
    else if tag.isClosing then
      if depth = 0 then false else lineHasFrom ts t stops (i + 1) (depth - 1)
    else lineHasFrom ts t stops (i + 1) depth
  else false
termination_by ts.size - i

/-- Whether a tag occurs on the rest of this line, outside of brackets and before any tag of
`stops`. -/
def lineHas (c : Cursor) (t : Tag) (stops : TagSet) : Bool :=
  lineHasFrom c.tokens t stops c.position 0

/-! ## What is remembered -/

@[simp] theorem expectedHere_start (ts : TokenList) : (start ts).expectedHere = .empty := rfl

@[simp] theorem expectedHere_note (c : Cursor) (s : TagSet) :
    (c.note s).expectedHere = c.expectedHere.union s := by
  simp [note, expectedHere]

@[simp] theorem expectedHere_resetExpected (c : Cursor) :
    c.resetExpected.expectedHere = .empty := by
  simp [resetExpected, expectedHere]

theorem expectedHere_of_moved {c : Cursor} (h : c.probedAt ≠ c.position) :
    c.expectedHere = .empty := by
  simp [expectedHere, h]

end Cursor

end SolSyntax
