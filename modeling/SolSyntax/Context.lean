/-!
# Where an expression stands

The same tokens mean different things in a value and in a type, and a few places forbid what would
be ambiguous there.  A context is the set of the flags that are up.
-/

namespace SolSyntax

structure Context where
  /-- Types: applications are `typeApp` and take no block. -/
  inType : Bool := false
  /-- A brace after an application is no block: conditions and scrutinees. -/
  noBlockCall : Bool := false
  /-- `is` ends the expression: the type of an annotation, so that annotations chain to the left. -/
  noAnnotation : Bool := false
  deriving DecidableEq, Repr

namespace Context

def none : Context := {}

instance : Inhabited Context := ⟨none⟩

/-- In a type. -/
def type : Context := { inType := true }

/-- In a condition or scrutinee. -/
def head : Context := { noBlockCall := true }

/-- In the type of an annotation. -/
def annotationType : Context := { inType := true, noAnnotation := true }

/-- Both sets of flags. -/
def union (c d : Context) : Context :=
  ⟨c.inType || d.inType, c.noBlockCall || d.noBlockCall, c.noAnnotation || d.noAnnotation⟩

/-- Whether a flag of `d` is up in `c`. -/
def meets (c d : Context) : Bool :=
  c.inType && d.inType || c.noBlockCall && d.noBlockCall || c.noAnnotation && d.noAnnotation

def allowsBlockCall (c : Context) : Bool := !c.inType && !c.noBlockCall

def allowsAnnotation (c : Context) : Bool := !c.noAnnotation

/-- Inside brackets: values and types stay apart, what the place forbids is allowed again. -/
def nested (c : Context) : Context := { inType := c.inType }

end Context

end SolSyntax
