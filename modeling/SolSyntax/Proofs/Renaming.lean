import SolSyntax.Parsing

/-!
# Other names for the same strings

A name is the index of a string in an interner.  `rename` replaces the names in any kind of syntax and
leaves all else as it is.  Two results are the same in two interners if they become equal when each name
is replaced by a code of the string that it stands for, whatever the code; so they agree in everything but
the indices, and name the same strings.

Principal definitions: `Rename` — syntax that may hold names; `Interner.Same` — the same strings in two
interners.
-/

namespace SolSyntax

/-! ## Replacing names -/

/-- Syntax that may hold names. -/
class Rename (α : Type) where
  rename : (Name → Name) → α → α
  rename_rename : ∀ (ρ σ : Name → Name) (a : α), rename σ (rename ρ a) = rename (σ ∘ ρ) a

export Rename (rename rename_rename)

attribute [simp] rename_rename

/-- What holds no names stays as it is. -/
@[reducible] def Rename.fixed (α : Type) : Rename α := ⟨fun _ a => a, fun _ _ _ => rfl⟩

instance : Rename Unit := .fixed Unit
instance : Rename Bool := .fixed Bool
instance : Rename Span := .fixed Span
instance : Rename Tag := .fixed Tag
instance : Rename ExprId := .fixed ExprId
instance : Rename PatternId := .fixed PatternId
instance : Rename Visibility := .fixed Visibility
instance : Rename SyntaxError := .fixed SyntaxError

instance : Rename Name := ⟨fun ρ n => ρ n, fun _ _ _ => rfl⟩

section Containers

variable {α β : Type} [Rename α] [Rename β]

theorem comp_rename (ρ σ : Name → Name) :
    (rename σ ∘ rename ρ : α → α) = rename (σ ∘ ρ) := funext fun a => rename_rename ρ σ a

instance : Rename (List α) :=
  ⟨fun ρ as => as.map (rename ρ), fun ρ σ as => by rw [List.map_map, comp_rename]⟩

instance : Rename (Array α) :=
  ⟨fun ρ as => as.map (rename ρ), fun ρ σ as => by rw [Array.map_map, comp_rename]⟩

instance : Rename (Option α) :=
  ⟨fun ρ o => o.map (rename ρ), fun ρ σ o => by rw [Option.map_map, comp_rename]⟩

instance : Rename (α × β) := ⟨fun ρ p => (rename ρ p.1, rename ρ p.2), fun ρ σ p => by simp⟩

instance : Rename (Grammar.Bracketed α) :=
  ⟨fun ρ b => ⟨rename ρ b.items, b.trailingComma, b.span⟩, fun ρ σ b => by simp⟩

instance : Rename (ForInStep α) :=
  ⟨fun ρ step => match step with
    | .done a => .done (rename ρ a)
    | .yield a => .yield (rename ρ a), fun ρ σ step => by cases step <;> simp⟩

/-- What stands in place of a result holds no names. -/
instance {ε : Type} : Rename (Except ε α) :=
  ⟨fun ρ r => match r with
    | .ok a => .ok (rename ρ a)
    | .error e => .error e, fun ρ σ r => by cases r <;> simp⟩

end Containers

/-! ### Tokens -/

instance : Rename TokenKind :=
  ⟨fun ρ kind => match kind with
    | .string contents => .string (ρ contents)
    | .ident name => .ident (ρ name)
    | .symbol name => .symbol (ρ name)
    | .operator name => .operator (ρ name)
    | .docString text => .docString (ρ text)
    | .hashBang text => .hashBang (ρ text)
    | kind => kind, fun ρ σ kind => by cases kind <;> rfl⟩

instance : Rename Token := ⟨fun ρ t => ⟨rename ρ t.kind, t.span, t.position⟩, fun ρ σ t => by simp⟩

instance : Rename TokenList := ⟨fun ρ ts => ⟨rename ρ ts.tokens⟩, fun ρ σ ts => by simp⟩

instance : Rename Comment := ⟨fun ρ c => ⟨ρ c.text, c.span⟩, fun _ _ _ => rfl⟩

instance : Rename LexOutput :=
  ⟨fun ρ o => ⟨rename ρ o.tokens, rename ρ o.comments⟩, fun ρ σ o => by simp⟩

instance : Rename Lexing.Item :=
  ⟨fun ρ i => match i with
    | .token kind => .token (rename ρ kind)
    | .comment text => .comment (ρ text), fun ρ σ i => by cases i <;> simp⟩

/-! ### Syntax -/

instance : Rename Ident := ⟨fun ρ i => ⟨ρ i.name, i.kind, i.span⟩, fun _ _ _ => rfl⟩

instance : Rename Path :=
  ⟨fun ρ p => ⟨rename ρ p.first, rename ρ p.others, p.span⟩, fun ρ σ p => by simp⟩

instance : Rename Literal :=
  ⟨fun ρ value => match value with
    | .string contents => .string (ρ contents)
    | value => value, fun ρ σ value => by cases value <;> rfl⟩

instance : Rename PatternKind :=
  ⟨fun ρ kind => match kind with
    | .constructor path args => .constructor (rename ρ path) args
    | .group inner => .group inner
    | .rest => .rest
    | .literal value => .literal (rename ρ value), fun ρ σ kind => by cases kind <;> simp⟩

instance : Rename Pattern := ⟨fun ρ p => ⟨rename ρ p.kind, p.span⟩, fun ρ σ p => by simp⟩

instance : Rename ParamKind :=
  ⟨fun ρ kind => match kind with
    | .typed binding type => .typed binding type
    | .forAll name => .forAll (rename ρ name)
    | .untyped pattern => .untyped pattern, fun ρ σ kind => by cases kind <;> simp⟩

instance : Rename Param := ⟨fun ρ p => ⟨rename ρ p.kind, p.span⟩, fun ρ σ p => by simp⟩

instance : Rename ParamSet :=
  ⟨fun ρ p => ⟨p.kind, rename ρ p.params, p.span⟩, fun ρ σ p => by simp⟩

instance : Rename Stmt := .fixed Stmt
instance : Rename Block := .fixed Block
instance : Rename MatchArm := .fixed MatchArm

instance : Rename ExprKind :=
  ⟨fun ρ kind => match kind with
    | .literal value => .literal (rename ρ value)
    | .path path => .path (rename ρ path)
    | .freeVar name => .freeVar (rename ρ name)
    | .univ => .univ
    | .group inner => .group inner
    | .tuple items trailingComma => .tuple items trailingComma
    | .array items => .array items
    | .lambda params body => .lambda params body
    | .app callee args block => .app callee args block
    | .typeApp callee args => .typeApp callee args
    | .binary lhs op rhs => .binary lhs (rename ρ op) rhs
    | .ann value type => .ann value type
    | .pi params result => .pi (rename ρ params) result
    | .sigma params result => .sigma (rename ρ params) result
    | .cases scrutinee arms => .cases scrutinee arms
    | .cond test thenBranch elseBranch position => .cond test thenBranch elseBranch position
    | .ret value => .ret value
    | .block block => .block block, fun ρ σ kind => by cases kind <;> simp⟩

instance : Rename Expr := ⟨fun ρ e => ⟨rename ρ e.kind, e.span⟩, fun ρ σ e => by simp⟩

instance : Rename Arena :=
  ⟨fun ρ a => ⟨rename ρ a.exprs, rename ρ a.patterns⟩, fun ρ σ a => by simp⟩

instance : Rename Attribute :=
  ⟨fun ρ a => ⟨rename ρ a.path, a.args, a.span⟩, fun ρ σ a => by simp⟩

instance : Rename Attributes :=
  ⟨fun ρ a => ⟨rename ρ a.docs, rename ρ a.attributes⟩, fun ρ σ a => by simp⟩

instance : Rename Grammar.Attachment :=
  ⟨fun ρ a => match a with
    | .doc text => .doc (ρ text)
    | .attr value => .attr (rename ρ value), fun ρ σ a => by cases a <;> simp⟩

instance : Rename ConstructorKind := .fixed ConstructorKind

instance : Rename Constructor :=
  ⟨fun ρ c => ⟨rename ρ c.attrs, rename ρ c.name, c.kind, c.span⟩, fun ρ σ c => by simp⟩

instance : Rename DeclKind :=
  ⟨fun ρ kind => match kind with
    | .command name args => .command (rename ρ name) args
    | .using path => .using (rename ρ path)
    | .inductiveType name params type constructors =>
      .inductiveType (rename ρ name) (rename ρ params) type (rename ρ constructors)
    | .signature name params type body =>
      .signature (rename ρ name) (rename ρ params) type body
    | .clause name patterns value => .clause (rename ρ name) patterns value,
    fun ρ σ kind => by cases kind <;> simp⟩

instance : Rename Decl :=
  ⟨fun ρ d => ⟨rename ρ d.attrs, d.visibility, rename ρ d.kind, d.span⟩, fun ρ σ d => by simp⟩

instance : Rename Module := ⟨fun ρ m => ⟨rename ρ m.hashBang, rename ρ m.decls⟩, fun ρ σ m => by simp⟩

instance : Rename ParseOutput :=
  ⟨fun ρ o => ⟨rename ρ o.module, rename ρ o.arena, o.errors⟩, fun ρ σ o => by simp⟩

/-! ## The same strings -/

/-- What one interner calls `a` and another one `b` are the same but for the indices of the names: they
become equal when each name is replaced by a code of its string, whatever the code. -/
def Interner.Same [Rename α] (names names' : Interner) (a b : α) : Prop :=
  ∀ code : String → Name,
    rename (fun n => code (names.lookup n)) a = rename (fun n => code (names'.lookup n)) b

end SolSyntax
