import SolSyntax.Span
import SolSyntax.Tag

/-!
# Interned strings

Identifiers, operators, string contents and doc-strings are stored once each; a `Name` is the
index of a stored string.  An interner only grows, and starts with the empty string and the
reserved words.

Principal results: `lookup_intern` — a name gives its string back; `intern_of_mem` — interning a stored
string again changes nothing.
-/

namespace SolSyntax

/-- The handle of an interned string. -/
structure Name where
  index : Nat
  deriving DecidableEq, Repr, Inhabited

namespace Name

/-- The handle of the empty string. -/
def empty : Name := ⟨0⟩

def text (n : Name) : String := s!"Name({n.index})"

end Name

/-- The stored strings, in the order in which they came. -/
structure Interner where
  strings : Array String
  deriving DecidableEq, Repr

/-- No index is left for one more string. -/
structure InternError where
  count : Nat
  deriving DecidableEq, Repr

def InternError.message (e : InternError) : String :=
  s!"string interner overflow after {e.count} strings"

namespace Interner

/-- What every interner holds from the start: the empty string and the reserved words. -/
def initial : List String := "" :: Tag.keywords.map fun t => t.fixedText?.getD ""

def new : Interner := ⟨initial.toArray⟩

instance : Inhabited Interner := ⟨new⟩

def size (names : Interner) : Nat := names.strings.size

def isEmpty (names : Interner) : Bool := names.strings.isEmpty

/-- The name of a string that is stored already. -/
def find? (names : Interner) (s : String) : Option Name := (names.strings.findIdx? (· == s)).map Name.mk

/-- The name of a string, which is stored if it is new.  Names are 32-bit numbers: where `tryIntern` refuses
a new string because `wordLimit` are stored, the program panics here.  That is not modelled, and the next
index is handed out all the same. -/
def intern (names : Interner) (s : String) : Name × Interner :=
  match names.find? s with
  | some n => (n, names)
  | none => (⟨names.size⟩, ⟨names.strings.push s⟩)

/-- `intern`, unless the string is new and no 32-bit index is left. -/
def tryIntern (names : Interner) (s : String) : Except InternError (Name × Interner) :=
  if (names.find? s).isNone ∧ wordLimit ≤ names.size then .error ⟨names.size⟩
  else .ok (names.intern s)

/-- The string behind a name, empty for a name that was never handed out. -/
def lookup (names : Interner) (n : Name) : String := names.strings.getD n.index ""

/-- The strings that came after the initial ones. -/
def added (names : Interner) : List String := names.strings.toList.drop initial.length

theorem find?_eq_some {names : Interner} {s : String} {n : Name} (h : names.find? s = some n) :
    names.strings[n.index]? = some s := by
  obtain ⟨i, hi, rfl⟩ := Option.map_eq_some_iff.1 h
  obtain ⟨hlt, he, _⟩ := Array.findIdx?_eq_some_iff_getElem.1 hi
  rw [Array.getElem?_eq_getElem hlt, eq_of_beq he]

theorem find?_eq_none {names : Interner} {s : String} (h : names.find? s = none) :
    s ∉ names.strings := by
  intro hs
  have := Array.findIdx?_eq_none_iff.1 (Option.map_eq_none_iff.1 h) s hs
  simp at this

/-- An interned string can be looked up. -/
theorem lookup_intern (names : Interner) (s : String) :
    (names.intern s).2.lookup (names.intern s).1 = s := by
  unfold intern
  cases h : names.find? s with
  | none => simp [lookup, size, Array.getD_eq_getD_getElem?]
  | some n => simp [lookup, Array.getD_eq_getD_getElem?, find?_eq_some h]

/-- Interning a stored string changes nothing. -/
theorem intern_of_mem {names : Interner} {s : String} (h : s ∈ names.strings) :
    (names.intern s).2 = names := by
  unfold intern
  cases hf : names.find? s with
  | none => exact absurd h (find?_eq_none hf)
  | some _ => rfl

end Interner

end SolSyntax
