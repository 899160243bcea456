import SolSyntax.Diagnostic
import SolSyntax.LineTable

/-!
# Diagnostics as terminal text

Writes diagnostics for a reader at a terminal, with or without colours.  With a source attached a
label shows the line it points into, underlined; without one it shows the byte range.  A label whose
line cannot be found or told by 32-bit numbers is not written, nor is what comes behind it.
-/

namespace SolSyntax

inductive ColorMode where
  /-- Colours if the output goes to a terminal. -/
  | auto
  | always
  | never
  deriving DecidableEq, Repr

def ColorMode.usesColors (m : ColorMode) (isTerminal : Bool) : Bool :=
  match m with
  | auto => isTerminal
  | always => true
  | never => false

/-- A colour or weight of terminal text. -/
inductive Style where
  | boldRed
  | boldYellow
  | boldCyan
  | boldBlue
  | bold
  deriving DecidableEq, Repr

/-- The sequence that switches a style on. -/
def Style.code : Style → String
  | boldRed => "\x1b[1;31m"
  | boldYellow => "\x1b[1;33m"
  | boldCyan => "\x1b[1;36m"
  | boldBlue => "\x1b[1;34m"
  | bold => "\x1b[1m"

/-- The sequence that switches all styles off. -/
def Style.reset : String := "\x1b[0m"

def Severity.style : Severity → Style
  | error => .boldRed
  | warning => .boldYellow
  | note => .boldCyan

/-- How diagnostics are written: in colour or not, and with which source, by path and lines. -/
structure Terminal where
  colors : Bool
  source : Option (String × LineTable)

namespace Terminal

def styled (t : Terminal) (style : Style) (text : String) : String :=
  if t.colors then style.code ++ text ++ Style.reset else text

def repeated (c : Char) (n : Nat) : String := String.ofList (List.replicate n c)

/-- The first line of a text, without its line feed and a carriage return before that. -/
def firstLine (cs : List Char) : List Char :=
  let line := cs.takeWhile (· ≠ '\n')
  if line.length < cs.length ∧ line.getLast? = some '\r' then line.dropLast else line

/-- A label without a source: the byte range and the message. -/
def renderRange (t : Terminal) (marker : String) (style : Style) (l : Label) : String :=
  "  " ++ marker ++ " " ++ l.span.text ++ ": " ++ t.styled style l.message ++ "\n"

/-- A label in its source: a header with path and position, the line, and a mark under each
character of the span up to the end of its first line, but at least one. -/
def renderSnippet (t : Terminal) (path : String) (lines : LineTable) (marker : String)
    (style : Style) (l : Label) : Except Fault String := do
  let position ← lines.locate l.span.start
  let line := (← lines.lineText position.line).getD []
  let gutter := toString position.line
  let pad := repeated ' ' gutter.length
  let marks := max 1 (firstLine (l.span.slice lines.source)).length
  let mark := if l.isPrimary then '^' else '-'
  return pad ++ marker ++ " " ++ path ++ ":" ++ position.text ++ "\n" ++
    pad ++ " |\n" ++
    gutter ++ " | " ++ String.ofList line ++ "\n" ++
    pad ++ " | " ++ repeated ' ' (position.column - 1) ++
    t.styled style (repeated mark marks) ++ " " ++ t.styled style l.message ++ "\n"

def renderLabel (t : Terminal) (l : Label) : Except Fault String :=
  let marker := if l.isPrimary then "-->" else "   "
  let style := if l.isPrimary then Style.boldRed else .boldBlue
  match t.source with
  | none => return t.renderRange marker style l
  | some (path, lines) => t.renderSnippet path lines marker style l

/-- A line of the form `= name: text`. -/
def renderRemark (t : Terminal) (name text : String) : String :=
  "  = " ++ t.styled .bold name ++ ": " ++ text ++ "\n"

/-- A diagnostic, if all its labels can be written. -/
def render (t : Terminal) (d : Diagnostic) : Except Fault String := do
  let labels ← d.labels.mapM t.renderLabel
  return t.styled d.severity.style d.severity.text ++ t.styled .bold ("[" ++ d.code.text ++ "]") ++
    ": " ++ d.message ++ "\n" ++
    String.join labels ++
    (d.expectedSummary?.map (t.renderRemark "expected")).getD "" ++
    String.join (d.notes.map (t.renderRemark "note")) ++ "\n"

/-- Diagnostics one after the other, up to one that cannot be written. -/
def renderAll (t : Terminal) : List Diagnostic → String
  | [] => ""
  | d :: ds =>
    match t.render d with
    | .ok text => text ++ t.renderAll ds
    | .error _ => ""

/-- The ending of a noun after a count. -/
def pluralEnding (n : Nat) : String := if n = 1 then "" else "s"

/-- The closing lines: how many errors and warnings there were. -/
def renderSummary (t : Terminal) (errors warnings : Nat) : String :=
  let errorLine :=
    t.styled Severity.error.style Severity.error.text ++
      s!": aborting due to {errors} previous error{pluralEnding errors}\n"
  let warningLine :=
    t.styled Severity.warning.style Severity.warning.text ++
      s!": {warnings} warning{pluralEnding warnings} emitted\n"
  (if errors = 0 then "" else errorLine) ++ (if warnings = 0 then "" else warningLine)

end Terminal

end SolSyntax
