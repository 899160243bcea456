/-!
# Token tags

A tag says what a token is, without what it carries.  The order of the constructors is the order
in which sets of tags are listed.

Principal results: `Tag.ofIndex?_index` and `Tag.index_of_ofIndex?` — indices and tags correspond.
-/

namespace SolSyntax

/-- What a token is.  The tags of reserved words start with `kw`. -/
inductive Tag where
  | int
  | float
  | string
  | char
  | ident
  | symbol
  | operator
  | docString
  | hashBang
  | kwUsing
  | kwInductive
  | kwPublic
  | kwSealed
  | kwPrivate
  | kwInternal
  | kwIf
  | kwThen
  | kwElse
  | kwMatch
  | kwReturn
  | kwIs
  | kwLet
  | kwUniverse
  | lparen
  | rparen
  | lbracket
  | rbracket
  | lbrace
  | rbrace
  | comma
  | colon
  | arrow
  | fatArrow
  | eq
  | pipe
  | dot
  | dotDot
  | atSign
  | hash
  | caret
  | quote
  | newline
  | eof
  deriving DecidableEq, Repr, Inhabited

namespace Tag

/-- Every tag, in order. -/
def all : List Tag :=
  [int, float, string, char, ident, symbol, operator, docString, hashBang,
    kwUsing, kwInductive, kwPublic, kwSealed, kwPrivate, kwInternal, kwIf, kwThen, kwElse, kwMatch,
    kwReturn, kwIs, kwLet, kwUniverse,
    lparen, rparen, lbracket, rbracket, lbrace, rbrace, comma, colon, arrow, fatArrow, eq, pipe,
    dot, dotDot, atSign, hash, caret, quote, newline, eof]

def count : Nat := 43

/-- The place of a tag in the order. -/
def index (t : Tag) : Nat := t.ctorIdx

theorem index_lt (t : Tag) : t.index < count := by cases t <;> decide

def ofIndex? (i : Nat) : Option Tag := all[i]?

@[simp] theorem ofIndex?_index (t : Tag) : ofIndex? t.index = some t := by cases t <;> rfl

theorem index_injective {s t : Tag} (h : s.index = t.index) : s = t := by
  have := congrArg ofIndex? h
  simpa using this

theorem mem_all (t : Tag) : t ∈ all := List.mem_of_getElem? (ofIndex?_index t)

theorem length_all : all.length = count := rfl

theorem index_of_ofIndex? {i : Nat} {t : Tag} (h : ofIndex? i = some t) : t.index = i := by
  have places : ∀ i : Fin all.length, (all.get i).index = i.val := by decide
  obtain ⟨hi, rfl⟩ := List.getElem?_eq_some_iff.1 h
  exact places ⟨i, hi⟩

/-- The word or sign that is the only spelling of a tag. -/
def fixedText? : Tag → Option String
  | kwUsing => some "using"
  | kwInductive => some "inductive"
  | kwPublic => some "public"
  | kwSealed => some "sealed"
  | kwPrivate => some "private"
  | kwInternal => some "internal"
  | kwIf => some "if"
  | kwThen => some "then"
  | kwElse => some "else"
  | kwMatch => some "match"
  | kwReturn => some "return"
  | kwIs => some "is"
  | kwLet => some "let"
  | kwUniverse => some "U"
  | lparen => some "("
  | rparen => some ")"
  | lbracket => some "["
  | rbracket => some "]"
  | lbrace => some "\x7b"
  | rbrace => some "\x7d"
  | comma => some ","
  | colon => some ":"
  | arrow => some "->"
  | fatArrow => some "=>"
  | eq => some "="
  | pipe => some "|"
  | dot => some "."
  | dotDot => some ".."
  | atSign => some "@"
  | hash => some "#"
  | caret => some "^"
  | quote => some "'"
  | _ => none

/-- How a message calls a token with this tag: by its class, or by its spelling in backticks. -/
def name : Tag → String
  | int => "integer"
  | float => "float"
  | string => "string"
  | char => "char"
  | ident => "identifier"
  | symbol => "symbol identifier"
  | operator => "operator"
  | docString => "doc-string"
  | hashBang => "hash-bang"
  | newline => "line break"
  | eof => "end of file"
  | t => "`" ++ t.fixedText?.getD "" ++ "`"

/-- The reserved words. -/
def keywords : List Tag :=
  [kwUsing, kwInductive, kwPublic, kwSealed, kwPrivate, kwInternal, kwIf, kwThen, kwElse, kwMatch,
    kwReturn, kwIs, kwLet, kwUniverse]

/-- The reserved word that a text spells. -/
def keyword? (text : String) : Option Tag := keywords.find? (·.fixedText? == some text)

/-- The operator spellings that are tokens of their own. -/
def reservedOperators : List Tag := [arrow, fatArrow, eq, pipe, dot, dotDot]

/-- The reserved operator that a text spells. -/
def reservedOperator? (text : String) : Option Tag :=
  reservedOperators.find? (·.fixedText? == some text)

def isVisibility : Tag → Bool
  | kwPublic | kwSealed | kwPrivate | kwInternal => true
  | _ => false

/-- The opening brackets, all three kinds alike. -/
def isOpening : Tag → Bool
  | lparen | lbracket | lbrace => true
  | _ => false

/-- The closing brackets, all three kinds alike. -/
def isClosing : Tag → Bool
  | rparen | rbracket | rbrace => true
  | _ => false

end Tag

end SolSyntax
