import SolSyntax.Lexing.Literal

/-!
# From source text to tokens

`lex` cuts a source into pieces, turns each lexeme into a token or a comment, and keeps the byte
offset, line and column where it starts.  The interner takes up the names on the way and keeps them
also when lexing fails.
-/

namespace SolSyntax

/-- An ordinary comment: the text after `//`, and its span. -/
structure Comment where
  text : Name
  span : Span
  deriving DecidableEq, Repr

structure LexOutput where
  tokens : TokenList
  comments : List Comment
  deriving DecidableEq, Repr

/-- Why there is no token list. -/
inductive LexFailure where
  | error (e : LexError)
  /-- A line or column cannot be counted. -/
  | fault (f : Fault)
  deriving DecidableEq, Repr

namespace Lexing

/-- What a lexeme becomes. -/
inductive Item where
  | token (kind : TokenKind)
  | comment (text : Name)
  deriving DecidableEq, Repr

/-- An item that names a text. -/
def named (names : Interner) (text : List Char) (item : Name → Item) :
    Except LexErrorKind Item × Interner :=
  let (name, names) := names.intern (String.ofList text)
  (.ok (item name), names)

/-- A token of a kind that needs no name, or the error of finding it. -/
def plain (names : Interner) (kind : Except LexErrorKind TokenKind) :
    Except LexErrorKind Item × Interner :=
  (kind.map .token, names)

/-- A comment, or a doc-string if it starts with `!`; one space after that is left out, and so are
carriage returns at the end of the line. -/
def commentItem (names : Interner) (text : List Char) : Except LexErrorKind Item × Interner :=
  match trimEnd (· == '\r') (text.drop 2) with
  | '!' :: ' ' :: doc => named names doc fun n => .token (.docString n)
  | '!' :: doc => named names doc fun n => .token (.docString n)
  | text => named names text .comment

/-- What a lexeme of a given shape becomes. -/
def item (names : Interner) (shape : Shape) (text : List Char) :
    Except LexErrorKind Item × Interner :=
  match shape with
  | .comment => commentItem names text
  | .lineBreak => plain names (.ok .newline)
  | .word =>
    match TokenKind.keyword? (String.ofList text) with
    | some kind => plain names (.ok kind)
    | none => named names text fun n => .token (.ident n)
  | .operator =>
    match TokenKind.reservedOperator? (String.ofList text) with
    | some kind => plain names (.ok kind)
    | none => named names text fun n => .token (.operator n)
  | .symbol => named names (text.drop 1) fun n => .token (.symbol n)
  | .sign kind => plain names (.ok kind)
  | .quote => plain names (.ok .quote)
  | .int radix => plain names ((readInt radix text).map .int)
  | .float => plain names ((readFloat text).map .float)
  | .string =>
    match unescape (unquoted text) with
    | .ok contents => named names contents fun n => .token (.string n)
    | .error e => plain names (.error e)
  | .openString => plain names (.error .unterminatedString)
  | .char => plain names ((unescapeChar (unquoted text)).map .char)
  | .openChar => plain names (.error .unterminatedChar)

/-- How far lexing has come. -/
structure Place where
  offset : Nat
  position : Position
  deriving DecidableEq, Repr

namespace Place

def first : Place := ⟨0, .first⟩

def after (p : Place) (c : Char) : Place := ⟨p.offset + c.utf8Size, p.position.after c⟩

/-- The place after a text. -/
def advance (p : Place) (text : List Char) : Place := text.foldl after p

/-- The span of a text that starts here. -/
def spanOf (p : Place) (text : List Char) : Span := ⟨p.offset, (p.advance text).offset⟩

end Place

/-- What was lexed so far. -/
structure Progress where
  names : Interner
  place : Place
  tokens : Array Token
  comments : Array Comment

namespace Progress

/-- Takes up an item whose lexeme is `text`. -/
def add (s : Progress) (text : List Char) (item : Item) (names : Interner) : Progress :=
  let span := s.place.spanOf text
  let place := s.place.advance text
  match item with
  | .token kind => ⟨names, place, s.tokens.push ⟨kind, span, s.place.position⟩, s.comments⟩
  | .comment name => ⟨names, place, s.tokens, s.comments.push ⟨name, span⟩⟩

/-- The error of a lexeme that starts here. -/
def errorAt (s : Progress) (text : List Char) (kind : LexErrorKind) : LexError :=
  ⟨kind, s.place.spanOf text, s.place.position⟩

/-- Lexes a text to its end or to the first error. -/
def run (s : Progress) (cs : List Char) : Option LexError × Progress :=
  match cs with
  | [] => (none, s)
  | c :: cs =>
    have := rest_length_lt c cs
    match h : scan c cs with
    | .blank text rest =>
      have : rest.length < cs.length + 1 := by simpa [h, Piece.rest] using this
      run { s with place := s.place.advance text } rest
    | .lexeme shape text rest =>
      have : rest.length < cs.length + 1 := by simpa [h, Piece.rest] using this
      match item s.names shape text with
      | (.ok i, names) => run (s.add text i names) rest
      | (.error kind, names) => (some (s.errorAt text kind), { s with names })
    | .stray text _ => (some (s.errorAt text (.unexpectedChar c)), s)
termination_by cs.length

end Progress

/-- The first line with its line feed, if it starts with `#!`, and the rest. -/
def splitHashBang (cs : List Char) : List Char × List Char :=
  match cs with
  | '#' :: '!' :: rest =>
    match run (· != '\n') rest with
    | (text, '\n' :: rest) => ('#' :: '!' :: (text ++ ['\n']), rest)
    | (text, rest) => ('#' :: '!' :: text, rest)
  | cs => ([], cs)

/-- Lexing starts with the `#!` line, if there is one. -/
def start (names : Interner) (line : List Char) : Progress :=
  let s : Progress := ⟨names, .first, #[], #[]⟩
  if line.isEmpty then s
  else
    let text := trimEnd (fun c => c == '\r' || c == '\n') (line.drop 2)
    let (name, names) := names.intern (String.ofList text)
    s.add line (.token (.hashBang name)) names

end Lexing

open Lexing in
/-- The tokens and comments of a source, or why there are none; and the names of both. -/
def lexWithComments (source : String) (names : Interner) : Except LexFailure LexOutput × Interner :=
  if wordLimit ≤ source.utf8ByteSize then
    (.error (.error ⟨.sourceTooLarge source.utf8ByteSize, .dummy, .first⟩), names)
  else
    let (line, body) := splitHashBang source.toList
    match (start names line).run body with
    | (some e, s) => (.error (.error e), s.names)
    | (none, s) =>
      if s.place.position.fits then
        let tokens := s.tokens.push ⟨.eof, .point s.place.offset, s.place.position⟩
        (.ok ⟨⟨tokens⟩, s.comments.toList⟩, s.names)
      else (.error (.fault .wordOverflow), s.names)

/-- The tokens of a source. -/
def lex (source : String) (names : Interner) : Except LexFailure TokenList × Interner :=
  match lexWithComments source names with
  | (.ok output, names) => (.ok output.tokens, names)
  | (.error e, names) => (.error e, names)

end SolSyntax
