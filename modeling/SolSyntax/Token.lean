import SolSyntax.Interner
import SolSyntax.Numeral
import SolSyntax.Span

/-!
# Tokens

A token is a kind, the span of its text and the position where it starts.  Kinds with a payload
carry it; strings are interned.  A token list normally ends in `TokenKind.eof`.

Principal results: `TokenKind.tag_ofTag?`, `TokenKind.eq_of_tag` — the kinds without payload and their
tags correspond;
`TokenList.tagAt_of_size_le` — past its end a list reads as `eof`.
-/

namespace SolSyntax

inductive TokenKind where
  | int (value : IntLit)
  | float (value : FloatLit)
  /-- The contents of a string literal, escapes resolved. -/
  | string (contents : Name)
  | char (value : Char)
  /-- A plain identifier. -/
  | ident (name : Name)
  /-- An operator used as an identifier, its backtick left out. -/
  | symbol (name : Name)
  /-- An operator that is not reserved. -/
  | operator (name : Name)
  /-- The text of a `//!` comment. -/
  | docString (text : Name)
  /-- The first line, if it starts with `#!`, without these two. -/
  | hashBang (text : Name)
  | kwUsing
  | kwInductive
  | kwPublic
  | kwSealed
  | kwPrivate
  | kwInternal
  | kwIf
  | kwThen
  | kwElse
  | kwMatch
  | kwReturn
  | kwIs
  | kwLet
  | kwUniverse
  | lparen
  | rparen
  | lbracket
  | rbracket
  | lbrace
  | rbrace
  | comma
  | colon
  | arrow
  | fatArrow
  | eq
  | pipe
  | dot
  | dotDot
  | atSign
  | hash
  | caret
  /-- The quote before the name of a parameter that ranges over all types. -/
  | quote
  /-- A run of line breaks and semicolons. -/
  | newline
  | eof
  deriving DecidableEq, Repr

namespace TokenKind

def tag : TokenKind → Tag
  | int _ => .int
  | float _ => .float
  | string _ => .string
  | char _ => .char
  | ident _ => .ident
  | symbol _ => .symbol
  | operator _ => .operator
  | docString _ => .docString
  | hashBang _ => .hashBang
  | kwUsing => .kwUsing
  | kwInductive => .kwInductive
  | kwPublic => .kwPublic
  | kwSealed => .kwSealed
  | kwPrivate => .kwPrivate
  | kwInternal => .kwInternal
  | kwIf => .kwIf
  | kwThen => .kwThen
  | kwElse => .kwElse
  | kwMatch => .kwMatch
  | kwReturn => .kwReturn
  | kwIs => .kwIs
  | kwLet => .kwLet
  | kwUniverse => .kwUniverse
  | lparen => .lparen
  | rparen => .rparen
  | lbracket => .lbracket
  | rbracket => .rbracket
  | lbrace => .lbrace
  | rbrace => .rbrace
  | comma => .comma
  | colon => .colon
  | arrow => .arrow
  | fatArrow => .fatArrow
  | eq => .eq
  | pipe => .pipe
  | dot => .dot
  | dotDot => .dotDot
  | atSign => .atSign
  | hash => .hash
  | caret => .caret
  | quote => .quote
  | newline => .newline
  | eof => .eof

/-- The kind with a given tag, if the tag leaves nothing to be said. -/
def ofTag? : Tag → Option TokenKind
  | .kwUsing => some kwUsing
  | .kwInductive => some kwInductive
  | .kwPublic => some kwPublic
  | .kwSealed => some kwSealed
  | .kwPrivate => some kwPrivate
  | .kwInternal => some kwInternal
  | .kwIf => some kwIf
  | .kwThen => some kwThen
  | .kwElse => some kwElse
  | .kwMatch => some kwMatch
  | .kwReturn => some kwReturn
  | .kwIs => some kwIs
  | .kwLet => some kwLet
  | .kwUniverse => some kwUniverse
  | .lparen => some lparen
  | .rparen => some rparen
  | .lbracket => some lbracket
  | .rbracket => some rbracket
  | .lbrace => some lbrace
  | .rbrace => some rbrace
  | .comma => some comma
  | .colon => some colon
  | .arrow => some arrow
  | .fatArrow => some fatArrow
  | .eq => some eq
  | .pipe => some pipe
  | .dot => some dot
  | .dotDot => some dotDot
  | .atSign => some atSign
  | .hash => some hash
  | .caret => some caret
  | .quote => some quote
  | .newline => some newline
  | .eof => some eof
  | .int | .float | .string | .char | .ident | .symbol | .operator | .docString | .hashBang => none

theorem tag_ofTag? {t : Tag} {k : TokenKind} (h : ofTag? t = some k) : k.tag = t := by
  cases t <;> simp [ofTag?] at h <;> subst h <;> rfl

theorem eq_of_tag {t : Tag} {k k' : TokenKind} (h : k.tag = t) (ht : ofTag? t = some k') : k = k' := by
  subst h
  cases k <;> cases ht <;> rfl

/-- What a message calls a token of this kind. -/
def displayName (k : TokenKind) : String := k.tag.name

/-- The reserved word that a text spells. -/
def keyword? (text : String) : Option TokenKind := (Tag.keyword? text).bind ofTag?

/-- The reserved operator that a text spells. -/
def reservedOperator? (text : String) : Option TokenKind := (Tag.reservedOperator? text).bind ofTag?

/-- The sign that a character is on its own, operator characters and the quote apart. -/
def sign? : Char → Option TokenKind
  | '(' => some lparen
  | ')' => some rparen
  | '[' => some lbracket
  | ']' => some rbracket
  | '\x7b' => some lbrace
  | '\x7d' => some rbrace
  | ',' => some comma
  | ':' => some colon
  | '@' => some atSign
  | '#' => some hash
  | '^' => some caret
  | _ => none

end TokenKind

structure Token where
  kind : TokenKind
  span : Span
  /-- Where the span starts. -/
  position : Position
  deriving DecidableEq, Repr

namespace Token

def tag (t : Token) : Tag := t.kind.tag

/-- What a list without an end is taken to end in. -/
def missingEnd : Token := ⟨.eof, .dummy, .first⟩

instance : Inhabited Token := ⟨missingEnd⟩

end Token

/-- Tokens in source order. -/
structure TokenList where
  tokens : Array Token
  deriving DecidableEq, Repr

namespace TokenList

def empty : TokenList := ⟨#[]⟩

instance : Inhabited TokenList := ⟨empty⟩

def size (ts : TokenList) : Nat := ts.tokens.size

def isEmpty (ts : TokenList) : Bool := ts.tokens.isEmpty

def push (ts : TokenList) (t : Token) : TokenList := ⟨ts.tokens.push t⟩

/-- The tokens as they are, with or without an end. -/
def ofTokens (ts : List Token) : TokenList := ⟨ts.toArray⟩

/-- The tokens, closed by an `eof` at the end of the last one unless that is an `eof` itself. -/
def ofList (ts : List Token) : TokenList :=
  let list := ofTokens ts
  match ts.getLast? with
  | some last =>
    if last.kind = .eof then list else list.push ⟨.eof, .point last.span.stop, .first⟩
  | none => list.push ⟨.eof, .point 0, .first⟩

def toList (ts : TokenList) : List Token := ts.tokens.toList

def get? (ts : TokenList) (i : Nat) : Option Token := ts.tokens[i]?

def kinds (ts : TokenList) : List TokenKind := ts.toList.map Token.kind

/-- The indices of the tags, in order. -/
def tagIndices (ts : TokenList) : Array Nat := ts.tokens.map (·.tag.index)

/-- The tag of the token at an index; past the end it is `eof`. -/
def tagAt (ts : TokenList) (i : Nat) : Tag :=
  match ts.tokens[i]? with
  | some t => t.tag
  | none => .eof

theorem tagAt_of_size_le {ts : TokenList} {i : Nat} (h : ts.size ≤ i) : ts.tagAt i = .eof := by
  unfold tagAt
  rw [Array.getElem?_eq_none h]

@[simp] theorem size_push (ts : TokenList) (t : Token) : (ts.push t).size = ts.size + 1 := by
  simp [size, push]

@[simp] theorem toList_push (ts : TokenList) (t : Token) :
    (ts.push t).toList = ts.toList ++ [t] := by
  simp [toList, push]

@[simp] theorem toList_ofTokens (ts : List Token) : (ofTokens ts).toList = ts := rfl

end TokenList

end SolSyntax
