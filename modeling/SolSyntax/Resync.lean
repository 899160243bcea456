import SolSyntax.Tag

/-!
# Where to go on after an error

After an error in a declaration the parser goes on at a line break.  Tags are given by their
indices; an index that belongs to no tag is no bracket and no line break.
-/

namespace SolSyntax.Resync

/-- Whether the tag at an index of the list is a line break. -/
def isBreak (tags : Array Nat) (i : Nat) : Bool := tags[i]? == some Tag.newline.index

/-- The first line break outside of brackets at or after `errorIndex`, with `depth` brackets open
at `i`.  The kinds of brackets are not told apart, and a closing one too many counts for
nothing. -/
def topBreakFrom (tags : Array Nat) (errorIndex i depth : Nat) : Option Nat :=
  if h : i < tags.size then
    match Tag.ofIndex? tags[i] with
    | none => topBreakFrom tags errorIndex (i + 1) depth
    | some tag =>
      if tag.isOpening then topBreakFrom tags errorIndex (i + 1) (depth + 1)
      else if tag.isClosing then topBreakFrom tags errorIndex (i + 1) (depth - 1)
      else if tag = .newline ∧ depth = 0 ∧ errorIndex ≤ i then some i
      else topBreakFrom tags errorIndex (i + 1) depth
  else none
termination_by tags.size - i

/-- The first line break at or after `i`. -/
def breakFrom (tags : Array Nat) (i : Nat) : Option Nat :=
  if i < tags.size then
    if isBreak tags i then some i else breakFrom tags (i + 1)
  else none
termination_by tags.size - i

/-- The last line break after `start` and before `stop`. -/
def breakBefore (tags : Array Nat) (start : Nat) : Nat → Option Nat
  | 0 => none
  | stop + 1 =>
    if stop ≤ start then none
    else if isBreak tags stop then some stop
    else breakBefore tags start stop

end Resync

/-- Where to go on after an error noticed at `errorIndex`, in a declaration that starts at
`declStart`: at the first line break outside of brackets from the error on; if the brackets do not
balance, at the next line break of any depth; if there is none, at the last one before the error;
else at the end. -/
def resyncPoint (tags : Array Nat) (declStart errorIndex : Nat) : Nat :=
  match Resync.topBreakFrom tags errorIndex declStart 0 with
  | some i => i
  | none =>
    match Resync.breakFrom tags errorIndex with
    | some i => i
    | none =>
      (Resync.breakBefore tags declStart (min errorIndex tags.size)).getD (tags.size - 1)

end SolSyntax
