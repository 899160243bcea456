import SolSyntax.Proofs.Brackets
import SolSyntax.Proofs.Outline
import SolSyntax.Grammar.Decl

/-!
# The grammar

`Derives p u ts` says that the tokens `u` are a phrase `p` with the outlines `ts`.  This is what the
productions read, without the questions by which they choose: which reading of a text is taken is
not said here.

Principal results: `Derives.nested` — a phrase is properly bracketed, kind by kind.
-/

namespace SolSyntax

open Grammar
open Outline (leaf node)

/-- What stands between the items of a list. -/
inductive Separators where
  /-- A comma, perhaps with line breaks around it. -/
  | comma
  /-- Commas and line breaks in any mixture. -/
  | loose
  /-- Line breaks. -/
  | lines
  deriving DecidableEq, Repr

/-- The parts that a module is made of. -/
inductive Phrase where
  | ident
  | segment
  | path
  /-- Any number of phrases. -/
  | star (p : Phrase)
  /-- A phrase or nothing. -/
  | opt (p : Phrase)
  /-- Items and what stands between them; whether there is something behind the last one. -/
  | items (separators : Separators) (item : Phrase) (separated : Bool)
  -- patterns
  | atom
  | pattern
  -- parameters
  | param (kind : ParamSetKind)
  | paramSet
  -- expressions
  | expr (ctx : Context)
  | arrow (ctx : Context)
  | sigma (ctx : Context)
  | annotated (ctx : Context)
  | chain (ctx : Context)
  | application (ctx : Context)
  | argument (ctx : Context)
  | blockArgument (ctx : Context)
  | operand (ctx : Context)
  | conditional (ctx : Context) (position : IfPosition)
  | elseBranch (ctx : Context) (position : IfPosition)
  | branch (ctx : Context)
  | arm
  | block
  | stmt
  | typing
  -- declarations
  | args (p : Phrase)
  | attr
  | attachment
  | attrs
  | moreArg
  | lineArgs
  | constructorKind
  | constructor
  | declKind
  | decl
  /-- Declarations up to the end, each on lines of its own. -/
  | decls
  deriving DecidableEq, Repr

/-- Line breaks only. -/
def AllBreaks (u : List Token) : Prop := ∀ t ∈ u, t.tag = .newline

/-- Whether some tokens separate items. -/
def Separators.Separates : Separators → List Token → Prop
  | comma, u => ∃ t, u = [t] ∧ t.tag = .comma
  | loose, u => u ≠ [] ∧ ∀ t ∈ u, t.tag = .comma ∨ t.tag = .newline
  | lines, u => u ≠ [] ∧ AllBreaks u

/-- Whether a token is an operator of a chain. -/
def TokenKind.isOperator : TokenKind → Bool
  | .operator _ | .pipe | .dot => true
  | _ => false

/-- Whether a token is an identifier. -/
def TokenKind.isIdent : TokenKind → Bool
  | .ident _ | .symbol _ => true
  | _ => false

namespace Outline

variable {α : Type}

/-- Whether an expression extends to the right on its own and takes no arguments. -/
def isClosedForm : Outline α → Bool
  | node (.cond _) _ | node .cases _ | node .ret _ => true
  | _ => false

/-- Whether a statement is an `if` without `else`. -/
def isOpenIf : Outline α → Bool
  | node (.cond .stmt) [_, _, node .row []] => true
  | _ => false

/-- Whether the last of some statements is an `if` without `else`. -/
def endsInOpenIf (stmts : List (Outline α)) : Bool := (stmts.getLast?.map isOpenIf).getD false

def isLeaf : Outline α → Bool
  | leaf _ => true
  | node _ _ => false

/-- A callee with its arguments and at most one block. -/
def application (ctx : Context) (callee : Outline α) (args blocks : List (Outline α)) : Outline α :=
  if ctx.inType then node .typeApp (callee :: args)
  else node (.app !blocks.isEmpty) (callee :: (args ++ blocks))

/-- A type without a name as the only parameter. -/
def domain (type : Outline α) : Outline α :=
  node (.params .domain) [node .typed [node .row [], type]]

/-- Doc-strings and attributes, each in order. -/
def attributes (attachments : List (Outline α)) : Outline α :=
  node .attrs [node .row (attachments.filter isLeaf), node .row (attachments.filter (!·.isLeaf))]

end Outline

/-- The tokens are a phrase with some outlines. -/
inductive Derives : Phrase → List Token → List (Outline TokenKind) → Prop
  -- rows
  | starNil (p) : Derives (.star p) [] []
  | starSnoc {p u v ts us} : Derives (.star p) u ts → Derives p v us →
      Derives (.star p) (u ++ v) (ts ++ us)
  | optNone (p) : Derives (.opt p) [] [node .row []]
  | optSome {p u ts} : Derives p u ts → Derives (.opt p) u [node .row ts]
  -- lists
  | itemsNil (s p) : Derives (.items s p false) [] []
  | itemsPad {s p separated u ts b} : Derives (.items s p separated) u ts → AllBreaks b →
      Derives (.items s p separated) (u ++ b) ts
  | itemsNext {s p separated u v ts us} : Derives (.items s p separated) u ts →
      (ts = [] ∨ separated = true) → Derives p v us →
      Derives (.items s p false) (u ++ v) (ts ++ us)
  | itemsSeparated {s p u ts b} : Derives (.items s p false) u ts → ts ≠ [] → s.Separates b →
      Derives (.items s p true) (u ++ b) ts
  -- paths
  | ident {t} : t.kind.isIdent → Derives .ident [t] [leaf t.kind]
  | segment {d u ts} : d.tag = .dot → Derives .ident u ts → Derives .segment (d :: u) ts
  | path {u v ts us} : Derives .ident u ts → Derives (.star .segment) v us →
      Derives .path (u ++ v) [node .path (ts ++ us)]
  -- patterns
  | literalPattern {t l} : t.kind.literal? = some l →
      Derives .atom [t] [node .literalPattern [leaf t.kind]]
  | pathPattern {u p} : Derives .path u [p] →
      Derives .atom u [node .constructorPattern [p, node .row []]]
  | restPattern {t} : t.tag = .dotDot → Derives .atom [t] [node .restPattern []]
  | groupPattern {o c b₁ u b₂ ts} : o.tag = .lparen → c.tag = .rparen → AllBreaks b₁ → AllBreaks b₂ →
      Derives .pattern u ts → Derives .atom (o :: (b₁ ++ u ++ b₂ ++ [c])) [node .groupPattern ts]
  | atomPattern {u ts} : Derives .atom u ts → Derives .pattern u ts
  | appliedPattern {u v p as} : Derives .path u [p] → Derives (.star .atom) v as →
      Derives .pattern (u ++ v) [node .constructorPattern [p, node .row as]]
  -- parameters
  | forAll {k q u ts} : q.tag = .quote → Derives .ident u ts →
      Derives (.param k) (q :: u) [node .forAll ts]
  | typedParam {k c u v ps t} : c.tag = .colon → Derives .pattern u ps → Derives (.arrow .type) v [t] →
      Derives (.param k) (u ++ c :: v) [node .typed [node .row ps, t]]
  | bareType {k u t} : k ≠ .sigma → Derives (.arrow .type) u [t] →
      Derives (.param k) u [node .typed [node .row [], t]]
  | barePattern {u ps} : Derives .pattern u ps → Derives (.param .sigma) u [node .untyped ps]
  | paramSet {o c k close separated u ts} : paramSetShape? o.tag = some (k, close) → c.tag = close →
      Derives (.items .comma (.param k) separated) u ts →
      Derives .paramSet (o :: (u ++ [c])) [node (.params k) ts]
  -- operands
  | literal {ctx t l} : t.kind.literal? = some l →
      Derives (.operand ctx) [t] [node .literal [leaf t.kind]]
  | pathOperand {ctx u ts} : Derives .path u ts → Derives (.operand ctx) u ts
  | freeVar {ctx m u ts} : m.tag = .caret → Derives .ident u ts →
      Derives (.operand ctx) (m :: u) [node .freeVar ts]
  | univ {ctx t} : t.tag = .kwUniverse → Derives (.operand ctx) [t] [node .univ [leaf .kwUniverse]]
  | group {ctx o c u t} : o.tag = .lparen → c.tag = .rparen →
      Derives (.items .comma (.expr ctx.nested) false) u [t] →
      Derives (.operand ctx) (o :: (u ++ [c])) [node .group [t]]
  | tuple {ctx o c separated u ts} : o.tag = .lparen → c.tag = .rparen →
      Derives (.items .comma (.expr ctx.nested) separated) u ts → (ts.length = 1 → separated = true) →
      Derives (.operand ctx) (o :: (u ++ [c])) [node (.tuple separated) ts]
  | array {ctx o c separated u ts} : o.tag = .lbracket → c.tag = .rbracket →
      Derives (.items .comma (.expr ctx.nested) separated) u ts →
      Derives (.operand ctx) (o :: (u ++ [c])) [node .array ts]
  | conditionalOperand {ctx u ts} : Derives (.conditional ctx .expr) u ts →
      Derives (.operand ctx) u ts
  | cases {ctx m o c separated u v e arms} : m.tag = .kwMatch → o.tag = .lbrace → c.tag = .rbrace →
      Derives (.expr .head) u [e] → Derives (.items .loose .arm separated) v arms →
      Derives (.operand ctx) (m :: (u ++ o :: (v ++ [c]))) [node .cases [e, node .row arms]]
  | ret {ctx r u ts} : r.tag = .kwReturn → Derives (.opt (.expr ctx)) u ts →
      Derives (.operand ctx) (r :: u) [node .ret ts]
  | conditional {ctx position i t b₁ b₂ u v w test thenBranch elseBranch} : i.tag = .kwIf →
      t.tag = .kwThen → AllBreaks b₁ → AllBreaks b₂ → Derives (.expr .head) u [test] →
      Derives (.branch ctx) v [thenBranch] → Derives (.elseBranch ctx position) w [elseBranch] →
      Derives (.conditional ctx position) (i :: (u ++ b₁ ++ t :: (b₂ ++ v ++ w)))
        [node (.cond position) [test, thenBranch, elseBranch]]
  | elseNone {ctx} : Derives (.elseBranch ctx .stmt) [] [node .row []]
  | elseSome {ctx position e b₁ b₂ u ts} : e.tag = .kwElse → AllBreaks b₁ → AllBreaks b₂ →
      Derives (.branch ctx) u ts →
      Derives (.elseBranch ctx position) (b₁ ++ e :: (b₂ ++ u)) [node .row ts]
  | blockBranch {ctx u ts} : Derives .block u ts → Derives (.branch ctx) u [node .block ts]
  | exprBranch {ctx u ts} : Derives (.expr ctx) u ts → Derives (.branch ctx) u ts
  | arm {f b u v p body} : f.tag = .fatArrow → AllBreaks b → Derives .pattern u [p] →
      Derives (.branch .none) v [body] → Derives .arm (u ++ f :: (b ++ v)) [node .arm [p, body]]
  -- applications and chains
  | operandApplication {ctx u ts} : Derives (.operand ctx) u ts → Derives (.application ctx) u ts
  | argument {ctx u ts} : TagSet.argStart.contains (headTag u) → Derives (.operand ctx) u ts →
      Derives (.argument ctx) u ts
  | noBlockArgument {ctx} : Derives (.blockArgument ctx) [] []
  | blockArgument {ctx u ts} : ctx.allowsBlockCall → Derives .block u ts →
      Derives (.blockArgument ctx) u ts
  | application {ctx u v w callee as bs} : callee.isClosedForm = false → as ++ bs ≠ [] →
      Derives (.operand ctx) u [callee] → Derives (.star (.argument ctx)) v as →
      Derives (.blockArgument ctx) w bs →
      Derives (.application ctx) (u ++ v ++ w) [Outline.application ctx callee as bs]
  | applicationChain {ctx u ts} : Derives (.application ctx) u ts → Derives (.chain ctx) u ts
  | chain {ctx o u v lhs rhs} : o.kind.isOperator → Derives (.chain ctx) u [lhs] →
      Derives (.application ctx) v [rhs] →
      Derives (.chain ctx) (u ++ o :: v) [node .binary [lhs, leaf o.kind, rhs]]
  -- annotations and binders
  | chainAnnotated {ctx u ts} : Derives (.chain ctx) u ts → Derives (.annotated ctx) u ts
  | annotated {ctx i u v value type} : ctx.allowsAnnotation → i.tag = .kwIs →
      Derives (.annotated ctx) u [value] → Derives (.arrow .annotationType) v [type] →
      Derives (.annotated ctx) (u ++ i :: v) [node .ann [value, type]]
  | annotatedSigma {ctx u ts} : Derives (.annotated ctx) u ts → Derives (.sigma ctx) u ts
  | sigma {ctx f u v params result} : headTag u = .lbracket → f.tag = .fatArrow →
      Derives .paramSet u [params] → Derives (.arrow (ctx.union .type)) v [result] →
      Derives (.sigma ctx) (u ++ f :: v) [node .sigma [params, result]]
  | sigmaArrow {ctx u ts} : Derives (.sigma ctx) u ts → Derives (.arrow ctx) u ts
  | domainArrow {ctx a u v value type result} : a.tag = .arrow → value.asType = some type →
      Derives (.sigma ctx) u [value] → Derives (.arrow (ctx.union .type)) v [result] →
      Derives (.arrow ctx) (u ++ a :: v) [node .pi [Outline.domain type, result]]
  | paramsArrow {ctx a u v params result} : headTag u = .lparen ∨ headTag u = .lbrace →
      a.tag = .arrow → Derives .paramSet u [params] → Derives (.arrow (ctx.union .type)) v [result] →
      Derives (.arrow ctx) (u ++ a :: v) [node .pi [params, result]]
  | arrowExpr {ctx u ts} : Derives (.arrow ctx) u ts → Derives (.expr ctx) u ts
  | lambda {ctx p q u v as body} : p.tag = .pipe → q.tag = .pipe → as ≠ [] →
      Derives (.star .atom) u as → Derives (.expr ctx) v [body] →
      Derives (.expr ctx) (p :: (u ++ q :: v)) [node .lambda [node .row as, body]]
  -- blocks
  | typing {c u ts} : c.tag = .colon → Derives (.arrow .type) u ts →
      Derives .typing (c :: u) ts
  | letStmt {l e u v w p type value} : l.tag = .kwLet → e.tag = .eq → Derives .pattern u [p] →
      Derives (.opt .typing) v [type] → Derives (.expr .none) w [value] →
      Derives .stmt (l :: (u ++ v ++ e :: w)) [node .letIn [p, type, value]]
  | ifStmt {u ts} : Derives (.conditional .none .stmt) u ts → Derives .stmt u ts
  | exprStmt {u ts} : Derives (.expr .none) u ts → Derives .stmt u ts
  | block {o c separated u ts} : o.tag = .lbrace → c.tag = .rbrace →
      Derives (.items .lines .stmt separated) u ts → Outline.endsInOpenIf ts = false →
      Derives .block (o :: (u ++ [c])) [node .stmts ts]
  -- declarations
  | noArgs {p} : Derives (.args p) [] []
  | args {p o c separated u ts} : o.tag = .lparen → c.tag = .rparen →
      Derives (.items .comma p separated) u ts → Derives (.args p) (o :: (u ++ [c])) ts
  | attr {a u v p as} : a.tag = .atSign → Derives .path u [p] → Derives (.args (.expr .none)) v as →
      Derives .attr (a :: (u ++ v)) [node .attr [p, node .row as]]
  | docAttachment {d b} : d.tag = .docString → AllBreaks b →
      Derives .attachment (d :: b) [leaf d.kind]
  | attrAttachment {u b ts} : Derives .attr u ts → AllBreaks b → Derives .attachment (u ++ b) ts
  | attrs {u ts} : Derives (.star .attachment) u ts → Derives .attrs u [Outline.attributes ts]
  | usingDecl {k u ts} : k.tag = .kwUsing → Derives .path u ts →
      Derives .declKind (k :: u) [node .using ts]
  | moreArg {c u ts} : c.tag = .comma → Derives (.expr .none) u ts → Derives .moreArg (c :: u) ts
  | noLineArgs : Derives .lineArgs [] []
  | lineArgs {u v ts us} : Derives (.expr .none) u ts → Derives (.star .moreArg) v us →
      Derives .lineArgs (u ++ v) (ts ++ us)
  | command {h u v p as} : h.tag = .hash → Derives .path u [p] → Derives .lineArgs v as →
      Derives .declKind (h :: (u ++ v)) [node .command [p, node .row as]]
  | signatureConstructor {u ts} : Derives .typing u ts →
      Derives .constructorKind u [node .signatureConstructor ts]
  | functionConstructor {u ts} : Derives (.args (.arrow .type)) u ts →
      Derives .constructorKind u [node .functionConstructor ts]
  | constructor {u v w attrs name kind} : Derives .attrs u [attrs] → Derives .ident v [name] →
      Derives .constructorKind w [kind] →
      Derives .constructor (u ++ v ++ w) [node .constructor [attrs, name, kind]]
  | inductiveDecl {i o c separated u v w x p params type constructors} : i.tag = .kwInductive →
      o.tag = .lbrace → c.tag = .rbrace → Derives .path u [p] →
      Derives (.star .paramSet) v params → Derives (.opt .typing) w [type] →
      Derives (.items .loose .constructor separated) x constructors →
      Derives .declKind (i :: (u ++ v ++ w ++ o :: (x ++ [c])))
        [node .inductiveType [p, node .row params, type, node .row constructors]]
  | signatureDecl {u v w x p params type body} : Derives .path u [p] →
      Derives (.star .paramSet) v params → Derives (.opt .typing) w [type] →
      Derives (.opt .block) x [body] →
      Derives .declKind (u ++ v ++ w ++ x) [node .signature [p, node .row params, type, body]]
  | clauseDecl {e u v w p as value} : e.tag = .eq → Derives .path u [p] →
      Derives (.star .atom) v as → Derives (.opt (.expr .none)) w [value] →
      Derives .declKind (u ++ v ++ e :: w) [node .clause [p, node .row as, value]]
  | decl {u v attrs kind} : Derives .attrs u [attrs] → Derives .declKind v [kind] →
      Derives .decl (u ++ v) [node (.decl none) [attrs, kind]]
  | visibleDecl {u t v attrs kind visibility} : t.kind.visibility? = some visibility →
      Derives .attrs u [attrs] → Derives .declKind v [kind] →
      Derives .decl (u ++ t :: v) [node (.decl (some visibility)) [attrs, kind]]
  | declsNil {b} : AllBreaks b → Derives .decls b []
  | declsCons {b u v o ts} : AllBreaks b → headTag v = .newline ∨ v = [] → Derives .decl u [o] →
      Derives .decls v ts → Derives .decls (b ++ u ++ v) (o :: ts)

/-! ## Separators -/

/-- What is read between items: a separator, perhaps with line breaks around it, if another item may
come, else only line breaks. -/
inductive Separators.Gap (sep : Separators) : Bool → List Token → Prop
  | next {b₁ b b₂} : AllBreaks b₁ → sep.Separates b → AllBreaks b₂ → Gap sep true (b₁ ++ b ++ b₂)
  | last {b} : AllBreaks b → Gap sep false b

theorem AllBreaks.nil : AllBreaks [] := fun _ h => by cases h

theorem Separators.Gap.of_separates {sep : Separators} {b : List Token} (h : sep.Separates b) :
    sep.Gap true b := by
  have := Separators.Gap.next AllBreaks.nil h AllBreaks.nil
  rwa [List.nil_append, List.append_nil] at this

/-- Line breaks before the first item belong to the list. -/
theorem Derives.breaks_items {s : Separators} {p : Phrase} {separated : Bool} {b u : List Token}
    {ts : List (Outline TokenKind)} (h : Derives (.items s p separated) u ts) (hb : AllBreaks b) :
    Derives (.items s p separated) (b ++ u) ts := by
  generalize hph : Phrase.items s p separated = ph at h
  induction h generalizing separated with
  | itemsNil => 
    cases hph
    have := Derives.itemsPad (.itemsNil s p) hb
    rwa [List.nil_append, ← List.append_nil b] at this
  | itemsPad _ hb' ih =>
    cases hph
    rw [← List.append_assoc]
    exact .itemsPad (ih rfl) hb'
  | itemsNext _ hts hv ih =>
    cases hph
    rw [← List.append_assoc]
    exact .itemsNext (ih rfl) hts hv
  | itemsSeparated _ hts hs ih =>
    cases hph
    rw [← List.append_assoc]
    exact .itemsSeparated (ih rfl) hts hs
  | _ => cases hph

/-! ## Blocks as arguments -/

theorem Derives.blockArgument_nil {ctx : Context} {u : List Token}
    (h : Derives (.blockArgument ctx) u []) : u = [] := by
  generalize hts : ([] : List (Outline TokenKind)) = ts at h
  cases h with
  | noBlockArgument => rfl
  | blockArgument _ hb =>
    cases hb
    cases hts

/-- In a type no block is an argument. -/
theorem Derives.blockArgument_inType {ctx : Context} {u : List Token} {ts : List (Outline TokenKind)}
    (h : Derives (.blockArgument ctx) u ts) (hc : ctx.inType = true) : ts = [] := by
  cases h with
  | noBlockArgument => rfl
  | blockArgument hb => simp [Context.allowsBlockCall, hc] at hb

/-! ## Brackets -/

theorem AllBreaks.nested {u : List Token} (h : AllBreaks u) : Nested false u := by
  induction u with
  | nil => exact .nil _
  | cons t u ih =>
    refine .cons ?_ (ih fun t ht => h t (List.mem_cons_of_mem _ ht))
    rw [h t List.mem_cons_self]
    rfl

theorem nested_of_separators {u : List Token} (h : ∀ t ∈ u, t.tag = .comma ∨ t.tag = .newline) :
    Nested false u := by
  induction u with
  | nil => exact .nil _
  | cons t u ih =>
    refine .cons ?_ (ih fun t ht => h t (List.mem_cons_of_mem _ ht))
    rcases h t List.mem_cons_self with ht | ht <;> rw [ht] <;> rfl

theorem Separators.Separates.nested {s : Separators} {u : List Token} (h : s.Separates u) :
    Nested false u := by
  cases s with
  | comma =>
    obtain ⟨t, rfl, ht⟩ := h
    exact nested_of_separators (by simp [ht])
  | loose => exact nested_of_separators h.2
  | lines => exact AllBreaks.nested h.2

theorem TokenKind.isPlain_of_isIdent {t : Token} (h : t.kind.isIdent) : t.tag.isPlain := by
  obtain ⟨kind, span, position⟩ := t
  cases kind <;> first | rfl | cases h

theorem TokenKind.isPlain_of_literal? {t : Token} {l : Literal} (h : t.kind.literal? = some l) :
    t.tag.isPlain := by
  obtain ⟨kind, span, position⟩ := t
  cases kind <;> first | rfl | cases h

theorem TokenKind.isPlain_of_isOperator {t : Token} (h : t.kind.isOperator) : t.tag.isPlain := by
  obtain ⟨kind, span, position⟩ := t
  cases kind <;> first | rfl | cases h

theorem TokenKind.isPlain_of_visibility? {t : Token} {v : Visibility}
    (h : t.kind.visibility? = some v) : t.tag.isPlain := by
  obtain ⟨kind, span, position⟩ := t
  cases kind <;> first | rfl | cases h

theorem Grammar.closing?_of_paramSetShape? {o c : Tag} {k : ParamSetKind}
    (h : paramSetShape? o = some (k, c)) : o.closing? = some c := by
  cases o <;> cases h <;> rfl

/-- A phrase is properly bracketed, kind by kind, and holds no end. -/
theorem Derives.nested {p : Phrase} {u : List Token} {ts : List (Outline TokenKind)}
    (h : Derives p u ts) : Nested false u := by
  induction h with
  | starNil | optNone | itemsNil | elseNone | noBlockArgument | noArgs | noLineArgs => exact .nil _
  | starSnoc _ _ ih₁ ih₂ | itemsNext _ _ _ ih₁ ih₂ | path _ _ ih₁ ih₂ | appliedPattern _ _ ih₁ ih₂
    | lineArgs _ _ ih₁ ih₂ | decl _ _ ih₁ ih₂ => exact ih₁.append ih₂
  | optSome _ ih | atomPattern _ ih | pathPattern _ ih | bareType _ _ ih | barePattern _ ih
    | pathOperand _ ih | conditionalOperand _ ih | blockBranch _ ih | exprBranch _ ih
    | operandApplication _ ih | argument _ _ ih | blockArgument _ _ ih | applicationChain _ ih
    | chainAnnotated _ ih | annotatedSigma _ ih | sigmaArrow _ ih | arrowExpr _ ih | ifStmt _ ih
    | exprStmt _ ih | attrs _ ih | signatureConstructor _ ih | functionConstructor _ ih => exact ih
  | itemsPad _ hb ih | attrAttachment _ hb ih => exact ih.append hb.nested
  | declsNil hb => exact hb.nested
  | declsCons hb _ _ _ ih₁ ih₂ => exact (hb.nested.append ih₁).append ih₂
  | itemsSeparated _ _ hs ih => exact ih.append hs.nested
  | ident h => exact .single (TokenKind.isPlain_of_isIdent h) (fun e => by cases e)
  | literalPattern h | literal h =>
    exact .single (TokenKind.isPlain_of_literal? h) (fun e => by cases e)
  | restPattern h | univ h => exact .single (by rw [h]; rfl) (fun e => by cases e)
  | segment h _ ih | forAll h _ ih | freeVar h _ ih | ret h _ ih | typing h _ ih | usingDecl h _ ih
    | moreArg h _ ih => exact .cons (by rw [h]; rfl) ih
  | docAttachment h hb => exact .cons (by rw [h]; rfl) hb.nested
  | groupPattern ho hc hb₁ hb₂ _ ih =>
    exact .ofGroup (by rw [ho, hc]; rfl) ((hb₁.nested.append ih).append hb₂.nested)
  | group ho hc _ ih | tuple ho hc _ _ ih | array ho hc _ ih | args ho hc _ ih =>
    exact .ofGroup (by rw [ho, hc]; rfl) ih
  | paramSet hs hc _ ih => exact .ofGroup (by rw [hc]; exact closing?_of_paramSetShape? hs) ih
  | block ho hc _ _ ih => exact .ofGroup (by rw [ho, hc]; rfl) ih
  | typedParam h _ _ ih₁ ih₂ | annotated _ h _ _ ih₁ ih₂ | sigma _ h _ _ ih₁ ih₂
    | domainArrow h _ _ _ ih₁ ih₂ | paramsArrow _ h _ _ ih₁ ih₂ =>
    exact ih₁.append (.cons (by rw [h]; rfl) ih₂)
  | chain h _ _ ih₁ ih₂ => exact ih₁.append (.cons (TokenKind.isPlain_of_isOperator h) ih₂)
  | visibleDecl h _ _ ih₁ ih₂ => exact ih₁.append (.cons (TokenKind.isPlain_of_visibility? h) ih₂)
  | cases hm ho hc _ _ ih₁ ih₂ =>
    exact .cons (by rw [hm]; rfl) (ih₁.append (.ofGroup (by rw [ho, hc]; rfl) ih₂))
  | conditional hi ht hb₁ hb₂ _ _ _ ih₁ ih₂ ih₃ =>
    exact .cons (by rw [hi]; rfl) ((ih₁.append hb₁.nested).append
      (.cons (by rw [ht]; rfl) ((hb₂.nested.append ih₂).append ih₃)))
  | elseSome he hb₁ hb₂ _ ih =>
    exact hb₁.nested.append (.cons (by rw [he]; rfl) (hb₂.nested.append ih))
  | arm hf hb _ _ ih₁ ih₂ => exact ih₁.append (.cons (by rw [hf]; rfl) (hb.nested.append ih₂))
  | application _ _ _ _ _ ih₁ ih₂ ih₃ | constructor _ _ _ ih₁ ih₂ ih₃ =>
    exact (ih₁.append ih₂).append ih₃
  | lambda hp hq _ _ _ ih₁ ih₂ =>
    exact .cons (by rw [hp]; rfl) (ih₁.append (.cons (by rw [hq]; rfl) ih₂))
  | letStmt hl he _ _ _ ih₁ ih₂ ih₃ =>
    exact .cons (by rw [hl]; rfl) ((ih₁.append ih₂).append (.cons (by rw [he]; rfl) ih₃))
  | attr h _ _ ih₁ ih₂ | command h _ _ ih₁ ih₂ => exact .cons (by rw [h]; rfl) (ih₁.append ih₂)
  | inductiveDecl hi ho hc _ _ _ _ ih₁ ih₂ ih₃ ih₄ =>
    exact .cons (by rw [hi]; rfl) (((ih₁.append ih₂).append ih₃).append
      (.ofGroup (by rw [ho, hc]; rfl) ih₄))
  | signatureDecl _ _ _ _ ih₁ ih₂ ih₃ ih₄ => exact ((ih₁.append ih₂).append ih₃).append ih₄
  | clauseDecl he _ _ _ ih₁ ih₂ ih₃ => exact (ih₁.append ih₂).append (.cons (by rw [he]; rfl) ih₃)

/-- After the end of a declaration there are no declarations, or a line break comes first. -/
theorem Derives.headTag_decls {u v : List Token} {os : List (Outline TokenKind)}
    (h : Derives .decls u os) (hend : headTag (u ++ v) = .newline ∨ headTag (u ++ v) = .eof) :
    headTag u = .newline ∨ u = [] := by
  cases u with
  | nil => exact .inr rfl
  | cons t u => exact .inl (hend.resolve_right fun he => h.nested.ne_eof t List.mem_cons_self he)

/-! ## Progress -/

/-- A phrase that has at least one token. -/
def Phrase.isSolid : Phrase → Bool
  | .star _ | .opt _ | .items _ _ _ | .elseBranch _ _ | .blockArgument _ | .args _ | .attrs | .lineArgs
  | .constructorKind | .decls => false
  | _ => true

theorem Derives.ne_nil {p : Phrase} {u : List Token} {ts : List (Outline TokenKind)}
    (h : Derives p u ts) (hp : p.isSolid = true) : u ≠ [] := by
  induction h with
  | starNil | starSnoc | optNone | optSome | itemsNil | itemsPad | itemsNext | itemsSeparated | elseNone
    | elseSome | noBlockArgument | blockArgument | noArgs | args | attrs | noLineArgs | lineArgs
    | signatureConstructor | functionConstructor | declsNil | declsCons => cases hp
  | path _ _ ih _ | appliedPattern _ _ ih _ | typedParam _ _ _ ih _ | arm _ _ _ _ ih _
    | signatureDecl _ _ _ _ ih _ _ _ | clauseDecl _ _ _ _ ih _ _ =>
    simp [ih rfl]
  | application _ _ _ _ _ ih _ _ => simp [ih rfl]
  | constructor _ _ _ _ ih _ | decl _ _ _ ih => simp [ih rfl]
  | pathPattern _ ih | atomPattern _ ih | bareType _ _ ih | barePattern _ ih | pathOperand _ ih
    | conditionalOperand _ ih | blockBranch _ ih | exprBranch _ ih | operandApplication _ ih
    | argument _ _ ih | applicationChain _ ih | chainAnnotated _ ih | annotatedSigma _ ih
    | sigmaArrow _ ih | arrowExpr _ ih | ifStmt _ ih | exprStmt _ ih => exact ih rfl
  | attrAttachment _ _ ih => simp [ih rfl]
  | _ => simp

end SolSyntax
