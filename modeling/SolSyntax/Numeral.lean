import SolSyntax.Decimal.Nearest
import SolSyntax.Decimal.Shortest

/-!
# Numeric literals

An integer literal keeps its value, the base it was written in and its suffix; a float literal
keeps the bits of its value and its suffix.  Both have a text that shows all of it.
-/

namespace SolSyntax

/-- The suffix that fixes the type of a numeric literal. -/
inductive Suffix where
  | u1
  | i8
  | u8
  | i16
  | u16
  | i32
  | u32
  | i64
  | u64
  | i128
  | u128
  | f32
  | f64
  /-- `n`, a natural number of any size. -/
  | nat
  deriving DecidableEq, Repr

namespace Suffix

def all : List Suffix :=
  [u1, i8, u8, i16, u16, i32, u32, i64, u64, i128, u128, f32, f64, nat]

def text : Suffix → String
  | u1 => "u1"
  | i8 => "i8"
  | u8 => "u8"
  | i16 => "i16"
  | u16 => "u16"
  | i32 => "i32"
  | u32 => "u32"
  | i64 => "i64"
  | u64 => "u64"
  | i128 => "i128"
  | u128 => "u128"
  | f32 => "f32"
  | f64 => "f64"
  | nat => "n"

def ofText? (s : String) : Option Suffix := all.find? (·.text == s)

@[simp] theorem ofText?_text (s : Suffix) : ofText? s.text = some s := by cases s <;> decide

def isFloat : Suffix → Bool
  | f32 | f64 => true
  | _ => false

/-- The width of the type, unless it has no bound. -/
def bitWidth? : Suffix → Option Nat
  | u1 => some 1
  | i8 | u8 => some 8
  | i16 | u16 => some 16
  | i32 | u32 | f32 => some 32
  | i64 | u64 | f64 => some 64
  | i128 | u128 => some 128
  | nat => none

end Suffix

/-- The text of an optional suffix. -/
def suffixText (s : Option Suffix) : String := (s.map Suffix.text).getD ""

/-- The base of an integer literal. -/
inductive Radix where
  | binary
  | octal
  | decimal
  | hex
  deriving DecidableEq, Repr

namespace Radix

instance : Inhabited Radix := ⟨decimal⟩

def value : Radix → Nat
  | binary => 2
  | octal => 8
  | decimal => 10
  | hex => 16

/-- What stands before the digits. -/
def marker : Radix → String
  | binary => "0b"
  | octal => "0o"
  | decimal => ""
  | hex => "0x"

end Radix

/-- The value of a character as a digit; letters of both cases count from ten. -/
def digitValue (c : Char) : Option Nat :=
  if '0' ≤ c ∧ c ≤ '9' then some (c.toNat - '0'.toNat)
  else if 'a' ≤ c ∧ c ≤ 'z' then some (c.toNat - 'a'.toNat + 10)
  else if 'A' ≤ c ∧ c ≤ 'Z' then some (c.toNat - 'A'.toNat + 10)
  else none

namespace Radix

/-- The value of a character as a digit of this base. -/
def digit? (r : Radix) (c : Char) : Option Nat := (digitValue c).filter (· < r.value)

def isDigit (r : Radix) (c : Char) : Bool := (r.digit? c).isSome

/-- The positional value of the digits in a text; all other characters are passed over. -/
def valueOf (r : Radix) (cs : List Char) : Nat :=
  cs.foldl (fun n c => match r.digit? c with | some d => n * r.value + d | none => n) 0

end Radix

/-- Integer literals lie below this bound. -/
def intLimit : Nat := 1 <<< 128

/-- An integer literal.  Its value is unsigned; a minus sign is an operator. -/
structure IntLit where
  value : BitVec 128
  radix : Radix
  suffix : Option Suffix
  deriving DecidableEq, Repr

namespace IntLit

def decimal (value : BitVec 128) : IntLit := ⟨value, .decimal, none⟩

def withSuffix (l : IntLit) (s : Suffix) : IntLit := { l with suffix := some s }

/-- Marker, digits and suffix. -/
def text (l : IntLit) : String :=
  l.radix.marker ++ String.ofList (Nat.toDigits l.radix.value l.value.toNat) ++ suffixText l.suffix

end IntLit

/-- A float literal, as the bits of its 64-bit value. -/
structure FloatLit where
  bits : UInt64
  suffix : Option Suffix
  deriving DecidableEq, Repr

/-- Shortest digits that read back, and suffix. -/
def FloatLit.text (l : FloatLit) : String := Decimal.floatText l.bits ++ suffixText l.suffix

end SolSyntax
