import SolSyntax.Tag

/-!
# Sets of token tags

A set is a bit vector with one bit per tag, so union and membership take constant time and equal
sets are equal values.

Principal results: `TagSet.ext` — a set is its members; `contains_union`, `contains_insert`,
`contains_single` — the members of a set built by the operations; `mem_toList` — listing loses and
adds nothing.
-/

namespace SolSyntax

/-- A set of tags: bit `t.index` stands for `t`. -/
structure TagSet where
  bits : BitVec Tag.count
  deriving DecidableEq, Repr

namespace TagSet

def empty : TagSet := ⟨0⟩

instance : Inhabited TagSet := ⟨empty⟩

def single (t : Tag) : TagSet := ⟨BitVec.twoPow Tag.count t.index⟩

def union (s u : TagSet) : TagSet := ⟨s.bits ||| u.bits⟩

def insert (s : TagSet) (t : Tag) : TagSet := s.union (single t)

def contains (s : TagSet) (t : Tag) : Bool := s.bits.getLsbD t.index

def isEmpty (s : TagSet) : Bool := s == empty

/-- The members in the order of tags. -/
def toList (s : TagSet) : List Tag := Tag.all.filter s.contains

def ofList (ts : List Tag) : TagSet := ts.foldl insert empty

def count (s : TagSet) : Nat := s.toList.length

/-- What messages call the members. -/
def names (s : TagSet) : List String := s.toList.map Tag.name

@[simp] theorem contains_empty (t : Tag) : empty.contains t = false := by simp [contains, empty]

@[simp] theorem contains_single (s t : Tag) : (single s).contains t = (s == t) := by
  simp only [contains, single, BitVec.getLsbD_twoPow]
  have := s.index_lt
  by_cases h : s = t
  · simp [h, t.index_lt]
  · have : ¬ s.index = t.index := fun e => h (Tag.index_injective e)
    simp [h, this]

theorem contains_single_self (t : Tag) : (single t).contains t = true := by
  rw [contains_single, beq_self_eq_true]

theorem eq_of_contains_single {s t : Tag} (h : (single s).contains t = true) : t = s := by
  rw [contains_single, beq_iff_eq] at h
  exact h.symm

theorem contains_single_of_ne {s t : Tag} (h : t ≠ s) : (single s).contains t = false := by
  rw [contains_single]
  exact beq_false_of_ne h.symm

@[simp] theorem contains_union (s u : TagSet) (t : Tag) :
    (s.union u).contains t = (s.contains t || u.contains t) := by
  simp [contains, union]

@[simp] theorem contains_insert (s : TagSet) (u t : Tag) :
    (s.insert u).contains t = (s.contains t || u == t) := by
  simp [insert]

@[ext] theorem ext {s u : TagSet} (h : ∀ t, s.contains t = u.contains t) : s = u := by
  obtain ⟨a⟩ := s
  obtain ⟨b⟩ := u
  congr 1
  apply BitVec.eq_of_getLsbD_eq
  intro i hi
  have hidx : ∀ j : Fin Tag.count, ∃ t : Tag, t.index = j.val := by
    intro j
    have hj : j.val < Tag.all.length := by rw [Tag.length_all]; exact j.isLt
    exact ⟨Tag.all[j.val], by revert j; decide⟩
  obtain ⟨t, ht⟩ := hidx ⟨i, hi⟩
  have := h t
  simpa [contains, ht] using this

@[simp] theorem mem_toList {s : TagSet} {t : Tag} : t ∈ s.toList ↔ s.contains t = true := by
  simp [toList, Tag.mem_all]

/-! ## The sets that the grammar asks for -/

/-- What begins a path. -/
def identStart : TagSet := ofList [.ident, .symbol]

/-- What is a literal. -/
def literal : TagSet := ofList [.int, .float, .string, .char]

/-- What begins an argument of an application. -/
def argStart : TagSet :=
  (literal.union identStart).union (ofList [.caret, .lparen, .lbracket, .kwUniverse])

/-- What begins an operand. -/
def primaryStart : TagSet := argStart.union (ofList [.kwIf, .kwMatch, .kwReturn])

/-- What begins an expression. -/
def exprStart : TagSet := primaryStart.insert .pipe

/-- What begins a pattern. -/
def patternStart : TagSet := (literal.union identStart).union (ofList [.lparen, .dotDot])

/-- What stands between operands; `|` and a spaced `.` double as operators. -/
def binaryOperator : TagSet := ofList [.operator, .pipe, .dot]

/-- What begins a parameter list. -/
def paramListStart : TagSet := ofList [.lparen, .lbrace, .lbracket]

/-- What begins a declaration or is attached before one. -/
def declStart : TagSet :=
  identStart.union (ofList [.kwUsing, .kwInductive, .hash, .kwPublic, .kwSealed, .kwPrivate,
    .kwInternal, .docString, .atSign])

end TagSet

end SolSyntax
