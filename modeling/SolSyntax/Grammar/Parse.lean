import SolSyntax.Arena
import SolSyntax.Context
import SolSyntax.Cursor

/-!
# Parsing steps

A parse runs on a cursor, an arena and an interner.  It ends with a value or a failure, and in both
cases leaves these three as it last had them, so that parsing can go on after an error.

Recursion and loops carry a bound.  `Failure.exhausted` says that a bound was reached, which is no
property of the input: `State.bound` exceeds the number of tokens, and every turn takes one.

* `Parse.repeating` — a loop over an accumulator.
* `many` — items as long as there is one; `sequence` — items up to a closing bracket; `bracketed`,
  `braced` — with the brackets.
-/

namespace SolSyntax.Grammar

structure State where
  cursor : Cursor
  arena : Arena
  names : Interner
  deriving Inhabited

namespace State

/-- At the first token, with nothing parsed yet. -/
def start (tokens : TokenList) (names : Interner) : State := ⟨.start tokens, .empty, names⟩

/-- More turns than there are tokens. -/
def bound (s : State) : Nat := s.cursor.tokens.size + 1

end State

inductive Failure where
  | error (e : SyntaxError)
  | exhausted
  deriving DecidableEq, Repr

/-- Says what was being read, unless something inside it has said so before. -/
def Failure.within (what : Construct) : Failure → Failure
  | error e => error (e.within what.name)
  | exhausted => exhausted

abbrev Parse := EStateM Failure State

namespace Parse

/-- Looks at the cursor. -/
def look (f : Cursor → α) : Parse α := fun s => .ok (f s.cursor) s

/-- Moves the cursor or what it remembers. -/
def step (f : Cursor → α × Cursor) : Parse α := fun s =>
  let (a, cursor) := f s.cursor
  .ok a { s with cursor }

/-- Moves the cursor, or fails where it then is. -/
def tryStep (f : Cursor → Except SyntaxError α × Cursor) : Parse α := fun s =>
  match f s.cursor with
  | (.ok a, cursor) => .ok a { s with cursor }
  | (.error e, cursor) => .error (.error e) { s with cursor }

def exhausted : Parse α := fun s => .error .exhausted s

/-- Fails with an error. -/
def raise (e : SyntaxError) : Parse α := fun s => .error (.error e) s

/-- Fails with a complaint about the current token. -/
def fail (complaint : Complaint) : Parse α := fun s =>
  .error (.error (s.cursor.complain complaint)) s

/-- Tells a failure what was being read. -/
def within (what : Construct) (p : Parse α) : Parse α := fun s =>
  match p s with
  | .ok a s => .ok a s
  | .error e s => .error (e.within what) s

/-- Runs a step that depends on the bound of the state. -/
def bounded (p : Nat → Parse α) : Parse α := fun s => p s.bound s

/-- At most so many turns of a loop: a turn gives the next accumulator, or the last one. -/
def turns (body : β → Parse (ForInStep β)) : Nat → β → Parse β
  | 0, _ => exhausted
  | n + 1, b => do
    match ← body b with
    | .done b => return b
    | .yield b => turns body n b

/-- A loop over an accumulator, which has to take a token on every turn. -/
def repeating (body : β → Parse (ForInStep β)) (b : β) : Parse β :=
  bounded fun n => turns body n b

end Parse

open Parse

/-! ## Looking, asking and moving -/

def current : Parse Token := look Cursor.current

def previousSpan : Parse Span := look Cursor.previousSpan

def isAt (t : Tag) : Parse Bool := look (·.isAt t)

def isAtEnd : Parse Bool := look Cursor.isAtEnd

def note (s : TagSet) : Parse Unit := step fun c => ((), c.note s)

def check (t : Tag) : Parse Bool := step (·.check t)

def checkSet (s : TagSet) : Parse Bool := step (·.checkSet s)

def advance : Parse Token := step Cursor.advance

def expect (t : Tag) : Parse Token := tryStep (·.expect t)

def expectIdent : Parse Ident := tryStep Cursor.expectIdent

def skipNewlines : Parse Unit := step fun c => ((), c.skipNewlines)

def eatSeparators : Parse Bool := step Cursor.eatSeparators

/-- Fails because something of a class is missing, whose beginnings are remembered as missed. -/
def failWanting (s : TagSet) (complaint : Complaint) : Parse α := do
  note s
  fail complaint

/-- Takes the bracket that closes a group; an error points to where the group was opened. -/
def expectClosing (close : Tag) (opening : Span) : Parse Span := do
  if ← check close then
    return (← advance).span
  else
    let e ← look (·.complain (.unclosed close))
    raise (e.withOpened opening)

/-- Takes a token if it has a given tag; whether it had. -/
def accept (t : Tag) : Parse Bool := do
  if ← check t then
    let _ ← advance
    return true
  else
    return false

/-! ## Nodes and spans -/

def newExpr (kind : ExprKind) (span : Span) : Parse ExprId := fun s =>
  let (id, arena) := s.arena.newExpr ⟨kind, span⟩
  .ok id { s with arena }

def newPattern (kind : PatternKind) (span : Span) : Parse PatternId := fun s =>
  let (id, arena) := s.arena.newPattern ⟨kind, span⟩
  .ok id { s with arena }

def exprSpan (id : ExprId) : Parse Span := fun s => .ok (s.arena.exprSpan id) s

def patternSpan (id : PatternId) : Parse Span := fun s => .ok (s.arena.patternSpan id) s

/-- From the start of a span to the end of the last token taken. -/
def spanFrom (start : Span) : Parse Span := do
  return start.merge (← previousSpan)

def intern (text : String) : Parse Name := fun s =>
  let (name, names) := s.names.intern text
  .ok name { s with names }

/-! ## Rows and lists -/

/-- What `p` reads, if `test` says that it comes next. -/
def optionally (test : Parse Bool) (p : Parse α) : Parse (Option α) := do
  if ← test then
    return some (← p)
  else
    return none

/-- Takes up one more item, or ends the row. -/
def manyTurn (item : Parse (Option α)) (items : List α) : Parse (ForInStep (List α)) := do
  match ← item with
  | some a => return .yield (a :: items)
  | none => return .done items

/-- Items as long as there is one. -/
def many (item : Parse (Option α)) : Parse (List α) := do
  return (← repeating (manyTurn item) []).reverse

/-- Takes up one more item and asks whether there may be another, or ends the list.  What was found
is the items, last first, and what `separator` told after the last one. -/
def sequenceTurn (close : Tag) (item : Parse α) (separator : Parse Bool) (found : List α × Bool) :
    Parse (ForInStep (List α × Bool)) := do
  if ← check close then
    return .done found
  else
    let a ← item
    if ← separator then
      return .yield (a :: found.1, true)
    else
      return .done (a :: found.1, false)

/-- Items up to a closing bracket, which is left.  After each item `separator` tells whether there
may be another; what it last told comes with the items. -/
def sequence (close : Tag) (item : Parse α) (separator : Parse Bool) : Parse (List α × Bool) := do
  let found ← repeating (sequenceTurn close item separator) ([], false)
  return (found.1.reverse, found.2)

/-- A comma with line breaks around it. -/
def commaSeparator : Parse Bool := do
  skipNewlines
  if ← accept .comma then
    skipNewlines
    return true
  else
    return false

/-- A line break. -/
def breakSeparator : Parse Bool := do
  if ← check .newline then
    skipNewlines
    return true
  else
    return false

/-- What was found between two brackets, whether a comma came last, and the span of it all. -/
structure Bracketed (α : Type) where
  items : List α
  trailingComma : Bool
  span : Span

/-- Items with commas between them, in brackets; the opening one is the current token. -/
def bracketed (close : Tag) (item : Parse α) : Parse (Bracketed α) := do
  let opening ← advance
  skipNewlines
  let found ← sequence close item commaSeparator
  let closing ← expectClosing close opening.span
  return ⟨found.1, found.2, opening.span.merge closing⟩

/-- Items in braces; `finish` may object to them before the closing brace is asked for. -/
def braced (item : Parse α) (separator : Parse Bool) (finish : List α → Parse Unit) :
    Parse (List α × Span) := do
  let opening ← expect .lbrace
  skipNewlines
  let found ← sequence .rbrace item separator
  finish found.1
  let closing ← expectClosing .rbrace opening.span
  return (found.1, opening.span.merge closing)

/-- No objection. -/
def noObjection (_ : List α) : Parse Unit := return ()

/-! ## Paths -/

/-- Whether the current token is a point that touches an identifier on either side. -/
def isPathDot (c : Cursor) : Bool :=
  c.isAt .dot && TagSet.identStart.contains (c.peekTag 1) &&
    Cursor.adjacent c.previousSpan c.current.span && Cursor.adjacent c.current.span c.nextSpan

/-- A point and an identifier. -/
def segment : Parse Ident := do
  let _ ← advance
  expectIdent

/-- `A.B.c` -/
def path : Parse Path := do
  let first ← expectIdent
  let others ← many (optionally (look isPathDot) segment)
  return .ofIdents first others

end SolSyntax.Grammar
