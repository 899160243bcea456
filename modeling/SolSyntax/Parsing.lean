import SolSyntax.Grammar.Decl
import SolSyntax.Lexing.Lexer
import SolSyntax.Resync

/-!
# Parsing modules

A module is parsed declaration by declaration.  The first error ends a strict parse; a lenient one
takes down each error and goes on at a line break after the declaration.

* `expr`, `type`, `pattern`, … — the readers of single constructs.
* `parseModule` — the loop over declarations.
* `parse`, `parseSource` — a whole token list or source.
* `parse_ok_iff`, `parse_error_iff` — what a parse gives is told by its run.
-/

namespace SolSyntax

open Grammar

inductive Recovery where
  /-- The first error ends the parse. -/
  | strict
  /-- Errors are taken down, and the parse goes on. -/
  | lenient
  deriving DecidableEq, Repr

instance : Inhabited Recovery := ⟨.strict⟩

namespace Reader

/-- A reader that is given the rules for the tokens at hand. -/
def ofRules (p : Rules → Parse α) : Parse α := Parse.bounded fun n => p (rules n)

/-- An expression that is a value. -/
def expr : Parse ExprId := ofRules Rules.value

/-- An expression that is a type. -/
def type : Parse ExprId := ofRules Rules.type

def pattern : Parse PatternId := Grammar.pattern

/-- A pattern without arguments. -/
def atom : Parse PatternId := Grammar.atom

def paramSet : Parse ParamSet := ofRules Grammar.paramSet

def block : Parse Block := ofRules Rules.block

def decl : Parse Decl := ofRules Grammar.decl

end Reader

/-- How a module was parsed. -/
structure ModuleRun where
  module : Module
  errors : List SyntaxError
  state : State
  /-- A bound was reached; the module is not complete. -/
  exhausted : Bool

namespace ModuleRun

/-- A run that ends here; declarations and errors come last first. -/
def finish (hashBang : Option Name) (decls : List Decl) (errors : List SyntaxError) (s : State)
    (exhausted : Bool) : ModuleRun :=
  ⟨⟨hashBang, decls.reverse⟩, errors.reverse, s, exhausted⟩

end ModuleRun

/-- Goes to where the next declaration can start, after an error in the one that starts at
`declStart`. -/
def recover (tags : Array Nat) (declStart : Nat) (s : State) : State :=
  { s with cursor := s.cursor.seek (resyncPoint tags declStart s.cursor.position) }

/-- Parses declarations up to the end, at most so many.  `tags` are the tag indices of the tokens;
declarations and errors come last first. -/
def parseDecls (recovery : Recovery) (r : Rules) (tags : Array Nat) (hashBang : Option Name) :
    Nat → List Decl → List SyntaxError → State → ModuleRun
  | 0, decls, errors, s => .finish hashBang decls errors s true
  | n + 1, decls, errors, s =>
    let cursor := s.cursor.skipNewlines
    let s := { s with cursor }
    if cursor.isAtEnd then .finish hashBang decls errors s false
    else
      match declLine r s with
      | .ok d s => parseDecls recovery r tags hashBang n (d :: decls) errors s
      | .error .exhausted s => .finish hashBang decls errors s true
      | .error (.error e) s =>
        match recovery with
        | .strict => .finish hashBang decls (e :: errors) s false
        | .lenient =>
          parseDecls recovery r tags hashBang n decls (e :: errors)
            (recover tags cursor.position s)

/-- The `#!` line at the cursor. -/
def takeHashBang (s : State) : Option Name × State :=
  match s.cursor.current.kind with
  | .hashBang text => (some text, { s with cursor := s.cursor.advance.2 })
  | _ => (none, s)

/-- Parses the rest of the tokens as a module. -/
def parseModule (recovery : Recovery) (s : State) : ModuleRun :=
  let (hashBang, s) := takeHashBang s
  parseDecls recovery (rules s.bound) s.cursor.tokens.tagIndices hashBang s.bound [] [] s

structure ParseOutput where
  module : Module
  arena : Arena
  /-- The errors of a lenient parse; a strict one has none. -/
  errors : List SyntaxError
  deriving DecidableEq

def ParseOutput.hasErrors (o : ParseOutput) : Bool := !o.errors.isEmpty

/-- Parses a token list.  The first error of a strict parse is its failure. -/
def parse (tokens : TokenList) (names : Interner) (recovery : Recovery) :
    Except Failure ParseOutput × Interner :=
  let run := parseModule recovery (.start tokens names)
  let names := run.state.names
  if run.exhausted then (.error .exhausted, names)
  else
    match recovery, run.errors with
    | .strict, e :: _ => (.error (.error e), names)
    | _, errors => (.ok ⟨run.module, run.state.arena, errors⟩, names)

section Parse

variable {tokens : TokenList} {names : Interner} {recovery : Recovery} {run : ModuleRun}

theorem parse_names (tokens : TokenList) (names : Interner) :
    (parse tokens names recovery).2 = (parseModule recovery (.start tokens names)).state.names := by
  unfold parse
  generalize parseModule recovery (.start tokens names) = run
  obtain ⟨module, errors, s, exhausted⟩ := run
  cases exhausted with
  | true => rfl
  | false =>
    cases recovery with
    | lenient => rfl
    | strict => cases errors <;> rfl

/-- A parse gives what its run leaves; a strict one only if there was no error. -/
theorem parse_ok_iff (hrun : parseModule recovery (.start tokens names) = run) {output : ParseOutput} :
    (parse tokens names recovery).1 = .ok output ↔ run.exhausted = false ∧
      (recovery = .strict → run.errors = []) ∧ output = ⟨run.module, run.state.arena, run.errors⟩ := by
  unfold parse
  rw [hrun]
  obtain ⟨module, errors, s, exhausted⟩ := run
  cases exhausted with
  | true => simp
  | false =>
    cases recovery with
    | lenient => simp [eq_comm]
    | strict => cases errors <;> simp [eq_comm]

/-- A parse fails with an error just if it is strict, and that is the first error of its run. -/
theorem parse_error_iff (hrun : parseModule recovery (.start tokens names) = run) {e : SyntaxError} :
    (parse tokens names recovery).1 = .error (.error e) ↔ run.exhausted = false ∧
      recovery = .strict ∧ run.errors.head? = some e := by
  unfold parse
  rw [hrun]
  obtain ⟨module, errors, s, exhausted⟩ := run
  cases exhausted with
  | true => simp
  | false =>
    cases recovery with
    | lenient => simp
    | strict => cases errors <;> simp

end Parse

/-- Why a source does not parse. -/
inductive SourceFailure where
  | lexical (e : LexFailure)
  | syntactic (e : Failure)
  deriving DecidableEq, Repr

/-- Lexes and parses a source. -/
def parseSource (source : String) (names : Interner) (recovery : Recovery) :
    Except SourceFailure ParseOutput × Interner :=
  match lex source names with
  | (.error e, names) => (.error (.lexical e), names)
  | (.ok tokens, names) =>
    match parse tokens names recovery with
    | (.error e, names) => (.error (.syntactic e), names)
    | (.ok output, names) => (.ok output, names)

end SolSyntax
