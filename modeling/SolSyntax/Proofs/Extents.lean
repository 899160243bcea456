import SolSyntax.Proofs.Outline
import SolSyntax.Proofs.Positions

/-!
# Which tokens a piece of syntax is written with

A piece of syntax is written as a row of signs: tokens, gaps of tokens that may be missing, and the
pieces that are its parts.  `Written ts a row i j` says that the tokens from `i` up to `j` are a row, and
that each part, down to the last, has the span of its own tokens: from the start of the first to the stop
of the last one.

Principal results: `Covers.merge` — spans at both ends cover all between them; `Written.mono` — what is
written stays so when the arena grows; `Written.inside`, `Written.apart` — parts lie inside the whole, one
after the other.
-/

namespace SolSyntax

/-! ## Spans of tokens -/

/-- A span is that of the tokens from one index up to another. -/
structure TokenList.Covers (ts : TokenList) (i j : Nat) (span : Span) : Prop where
  lt : i < j
  le : j ≤ ts.size
  start : ∀ t, ts.get? i = some t → span.start = t.span.start
  stop : ∀ t, ts.get? (j - 1) = some t → span.stop = t.span.stop

namespace TokenList

variable {ts : TokenList} {i j k l : Nat} {A B : Span}

theorem exists_get? (h : i < ts.size) : ∃ t, ts.get? i = some t :=
  ⟨_, Array.getElem?_eq_getElem h⟩

theorem lt_of_get? {t : Token} (h : ts.get? i = some t) : i < ts.size :=
  (Array.getElem?_eq_some_iff.1 h).1

theorem tagAt_of_get? {t : Token} (h : ts.get? i = some t) : ts.tagAt i = t.tag := by
  rw [tagAt, show ts.tokens[i]? = some t from h]

theorem mem_of_get? {t : Token} (h : ts.get? i = some t) : t ∈ ts.toList :=
  List.mem_of_getElem? (by rw [toList, Array.getElem?_toList]; exact h)

namespace InOrder

variable (h : ts.InOrder) {t u : Token}
include h

theorem stop_le_start (ht : ts.get? i = some t) (hu : ts.get? j = some u) (hij : i < j) :
    t.span.stop ≤ u.span.start := by
  have key := List.pairwise_iff_getElem.1 h.apart i j
    (by simpa [toList, size] using lt_of_get? ht) (by simpa [toList, size] using lt_of_get? hu) hij
  have at_eq : ∀ {m : Nat} {v : Token} (hm : m < ts.toList.length), ts.get? m = some v →
      ts.toList[m] = v := by
    intro m v hm hv
    exact Option.some.inj (by rw [← List.getElem?_eq_getElem hm, ← hv]; simp [toList, get?])
  rwa [at_eq _ ht, at_eq _ hu] at key

theorem start_le_start (ht : ts.get? i = some t) (hu : ts.get? j = some u) (hij : i ≤ j) :
    t.span.start ≤ u.span.start := by
  rcases Nat.lt_or_eq_of_le hij with hlt | rfl
  · exact Nat.le_trans (h.start_le_stop t (mem_of_get? ht)) (h.stop_le_start ht hu hlt)
  · rw [ht] at hu
    cases hu
    exact Nat.le_refl _

theorem stop_le_stop (ht : ts.get? i = some t) (hu : ts.get? j = some u) (hij : i ≤ j) :
    t.span.stop ≤ u.span.stop := by
  rcases Nat.lt_or_eq_of_le hij with hlt | rfl
  · exact Nat.le_trans (h.stop_le_start ht hu hlt) (h.start_le_stop u (mem_of_get? hu))
  · rw [ht] at hu
    cases hu
    exact Nat.le_refl _

end InOrder

namespace Covers

/-- A token covers itself. -/
theorem ofToken {t : Token} (h : ts.get? i = some t) : ts.Covers i (i + 1) t.span where
  lt := Nat.lt_succ_self i
  le := lt_of_get? h
  start u hu := by
    rw [h] at hu
    cases hu
    rfl
  stop u hu := by
    rw [Nat.add_sub_cancel, h] at hu
    cases hu
    rfl

/-- The tokens between two indices have one span. -/
theorem unique (hA : ts.Covers i j A) (hB : ts.Covers i j B) : A = B := by
  have hlt := hA.lt
  have hle := hA.le
  obtain ⟨t, ht⟩ := exists_get? (show i < ts.size by omega)
  obtain ⟨u, hu⟩ := exists_get? (show j - 1 < ts.size by omega)
  have hstart := (hA.start t ht).trans (hB.start t ht).symm
  have hstop := (hA.stop u hu).trans (hB.stop u hu).symm
  cases A
  cases B
  rw [Span.mk.injEq]
  exact ⟨hstart, hstop⟩

section

variable (h : ts.InOrder) (hA : ts.Covers i k A) (hB : ts.Covers l j B)
include h hA hB

/-- The span of the first tokens and that of the last ones make the span of all. -/
theorem merge (hil : i ≤ l) (hkj : k ≤ j) : ts.Covers i j (A.merge B) := by
  have hik := hA.lt
  have hlj := hB.lt
  have hj := hB.le
  obtain ⟨first, hfirst⟩ := exists_get? (show i < ts.size by omega)
  obtain ⟨last, hlast⟩ := exists_get? (show j - 1 < ts.size by omega)
  obtain ⟨t, ht⟩ := exists_get? (show k - 1 < ts.size by omega)
  obtain ⟨u, hu⟩ := exists_get? (show l < ts.size by omega)
  have hstart := h.start_le_start hfirst hu hil
  have hstop := h.stop_le_stop ht hlast (by omega)
  refine ⟨by omega, hj, fun v hv => ?_, fun v hv => ?_⟩
  · show min A.start B.start = v.span.start
    rw [hfirst] at hv
    cases hv
    rw [hA.start _ hfirst, hB.start _ hu, Nat.min_eq_left hstart]
  · show max A.stop B.stop = v.span.stop
    rw [hlast] at hv
    cases hv
    rw [hA.stop _ ht, hB.stop _ hlast, Nat.max_eq_right hstop]

/-- What covers tokens inside others lies inside of their span. -/
theorem inside (hil : i ≤ l) (hjk : j ≤ k) : A.start ≤ B.start ∧ B.stop ≤ A.stop := by
  have hik := hA.lt
  have hk := hA.le
  have hlj := hB.lt
  obtain ⟨first, hfirst⟩ := exists_get? (show i < ts.size by omega)
  obtain ⟨last, hlast⟩ := exists_get? (show k - 1 < ts.size by omega)
  obtain ⟨t, ht⟩ := exists_get? (show l < ts.size by omega)
  obtain ⟨u, hu⟩ := exists_get? (show j - 1 < ts.size by omega)
  rw [hA.start _ hfirst, hB.start _ ht, hA.stop _ hlast, hB.stop _ hu]
  exact ⟨h.start_le_start hfirst ht hil, h.stop_le_stop hu hlast (by omega)⟩

/-- What covers tokens behind others lies behind their span. -/
theorem apart (hkl : k ≤ l) : A.stop ≤ B.start := by
  have hik := hA.lt
  have hlj := hB.lt
  have hj := hB.le
  obtain ⟨t, ht⟩ := exists_get? (show k - 1 < ts.size by omega)
  obtain ⟨u, hu⟩ := exists_get? (show l < ts.size by omega)
  rw [hA.stop _ ht, hB.start _ hu]
  exact h.stop_le_start ht hu (by omega)

end

end Covers

end TokenList

/-! ## Pieces -/

/-- A piece of syntax that has a span. -/
inductive Node where
  | ident (i : Ident)
  | path (p : Path)
  | pattern (id : PatternId)
  | param (p : Param)
  | paramSet (p : ParamSet)
  | expr (id : ExprId)
  | block (b : Block)
  | letStmt (pattern : PatternId) (type : Option ExprId) (value : ExprId) (span : Span)
  | arm (a : MatchArm)
  | attr (a : Attribute)
  | constructor (c : Constructor)
  | decl (d : Decl)

/-- The span of a piece, which for expressions and patterns stands in the arena. -/
def Node.span (a : Arena) : Node → Span
  | ident i => i.span
  | path p => p.span
  | pattern id => a.patternSpan id
  | param p => p.span
  | paramSet p => p.span
  | expr id => a.exprSpan id
  | block b => b.span
  | letStmt _ _ _ span => span
  | arm a => a.span
  | attr a => a.span
  | constructor c => c.span
  | decl d => d.span

/-- A sign in a row. -/
inductive Sign where
  /-- One token that has one of these tags. -/
  | token (tags : List Tag)
  /-- Any number of tokens that have one of these tags. -/
  | gap (tags : List Tag)
  /-- The tokens of a piece. -/
  | part (x : Node)

/-- The pieces in a row, in order. -/
def partsIn (row : List Sign) : List Node :=
  row.filterMap fun sign => match sign with
    | .part x => some x
    | _ => none

@[simp] theorem partsIn_nil : partsIn [] = [] := rfl

@[simp] theorem partsIn_token (tags : List Tag) (row : List Sign) :
    partsIn (.token tags :: row) = partsIn row := rfl

@[simp] theorem partsIn_gap (tags : List Tag) (row : List Sign) :
    partsIn (.gap tags :: row) = partsIn row := rfl

@[simp] theorem partsIn_part (x : Node) (row : List Sign) :
    partsIn (.part x :: row) = x :: partsIn row := rfl

@[simp] theorem partsIn_append (row row' : List Sign) :
    partsIn (row ++ row') = partsIn row ++ partsIn row' := List.filterMap_append ..

/-- Pieces between two brackets, with a gap before and after each. -/
def listed (opening closing : Tag) (gap : List Tag) (xs : List Node) : List Sign :=
  .token [opening] :: .gap gap :: (xs.flatMap fun x => [.part x, .gap gap]) ++ [.token [closing]]

@[simp] theorem partsIn_listed (opening closing : Tag) (gap : List Tag) (xs : List Node) :
    partsIn (listed opening closing gap xs) = xs := by
  have key : partsIn (xs.flatMap fun x => [.part x, .gap gap]) = xs := by
    induction xs with
    | nil => rfl
    | cons x xs ih => simp [ih]
  simp [listed, key]

/-! ## How pieces are written -/

/-- The tags of an identifier; an operator in a chain is a symbol, too. -/
def IdentKind.tags : IdentKind → List Tag
  | .simple => [.ident]
  | .symbol => [.symbol, .operator, .pipe, .dot]

/-- What stands between items of lists with commas. -/
def commas : List Tag := [.comma, .newline]

/-- What stands between the statements of a block. -/
def breaks : List Tag := [.newline]

def Path.signs (p : Path) : List Sign :=
  .part (.ident p.first) :: p.others.flatMap fun i => [.token [.dot], .part (.ident i)]

def PatternKind.signs : PatternKind → List Sign
  | .constructor path args => .part (.path path) :: args.map fun id => .part (.pattern id)
  | .group inner =>
    [.token [.lparen], .gap breaks, .part (.pattern inner), .gap breaks, .token [.rparen]]
  | .rest => [.token [.dotDot]]
  | .literal value => [.token [value.tokenKind.tag]]

def ParamKind.signs : ParamKind → List Sign
  | .typed none type => [.part (.expr type)]
  | .typed (some binding) type => [.part (.pattern binding), .token [.colon], .part (.expr type)]
  | .forAll name => [.token [.quote], .part (.ident name)]
  | .untyped pattern => [.part (.pattern pattern)]

def ParamSet.signs (p : ParamSet) : List Sign :=
  match p.kind with
  | .explicit => listed .lparen .rparen commas (p.params.map .param)
  | .implicit => listed .lbrace .rbrace commas (p.params.map .param)
  | .sigma => listed .lbracket .rbracket commas (p.params.map .param)
  | .domain => p.params.map fun q => .part (.param q)

/-- A statement is a `let`, or the expression that it holds. -/
def Stmt.node : Stmt → Node
  | .letIn pattern type value span => .letStmt pattern type value span
  | .expr value => .expr value

def Block.signs (b : Block) : List Sign := listed .lbrace .rbrace breaks (b.stmts.map Stmt.node)

/-- A type behind a colon, if there is one. -/
def typing (type : Option ExprId) : List Sign :=
  type.toList.flatMap fun id => [.token [.colon], .part (.expr id)]

def MatchArm.signs (a : MatchArm) : List Sign :=
  [.part (.pattern a.pattern), .token [.fatArrow], .gap breaks, .part (.expr a.body)]

def ExprKind.signs : ExprKind → List Sign
  | .literal value => [.token [value.tokenKind.tag]]
  | .path p => [.part (.path p)]
  | .freeVar name => [.token [.caret], .part (.ident name)]
  | .univ => [.token [.kwUniverse]]
  | .group inner => listed .lparen .rparen commas [.expr inner]
  | .tuple items _ => listed .lparen .rparen commas (items.map .expr)
  | .array items => listed .lbracket .rbracket commas (items.map .expr)
  | .lambda params body =>
    .token [.pipe] :: (params.map fun id => .part (.pattern id)) ++
      [.token [.pipe], .part (.expr body)]
  | .app callee args braces =>
    .part (.expr callee) :: (args.map fun id => .part (.expr id)) ++
      braces.toList.map fun b => .part (.block b)
  | .typeApp callee args => .part (.expr callee) :: args.map fun id => .part (.expr id)
  | .binary lhs op rhs => [.part (.expr lhs), .part (.ident op), .part (.expr rhs)]
  | .ann value type => [.part (.expr value), .token [.kwIs], .part (.expr type)]
  | .pi params result => [.part (.paramSet params), .token [.arrow], .part (.expr result)]
  | .sigma params result => [.part (.paramSet params), .token [.fatArrow], .part (.expr result)]
  | .cases scrutinee arms =>
    .token [.kwMatch] :: .part (.expr scrutinee) :: listed .lbrace .rbrace commas (arms.map .arm)
  | .cond test thenBranch elseBranch _ =>
    [.token [.kwIf], .part (.expr test), .gap breaks, .token [.kwThen], .gap breaks,
      .part (.expr thenBranch)] ++
      elseBranch.toList.flatMap fun id =>
        [.gap breaks, .token [.kwElse], .gap breaks, .part (.expr id)]
  | .ret value => .token [.kwReturn] :: value.toList.map fun id => .part (.expr id)
  | .block b => [.part (.block b)]

/-- Arguments in parentheses; if there are none, so may be the parentheses. -/
inductive Args : List ExprId → List Sign → Prop
  | none : Args [] []
  | listed (ids : List ExprId) : Args ids (listed .lparen .rparen commas (ids.map .expr))

/-- Doc-strings and attributes, with line breaks after each. -/
inductive Heading : Attributes → List Sign → Prop
  | none : Heading ⟨[], []⟩ []
  | doc {docs as row} (text : Name) : Heading ⟨docs, as⟩ row →
      Heading ⟨text :: docs, as⟩ (.token [.docString] :: .gap breaks :: row)
  | attr {docs as row} (a : Attribute) : Heading ⟨docs, as⟩ row →
      Heading ⟨docs, a :: as⟩ (.part (.attr a) :: .gap breaks :: row)

/-- What stands behind the name of a constructor. -/
inductive ConstructorKind.Writes : ConstructorKind → List Sign → Prop
  | signature (type : ExprId) : Writes (.signature type) [.token [.colon], .part (.expr type)]
  | function {fields row} : Args fields row → Writes (.function fields) row

/-- The token that asks for a visibility. -/
def Visibility.tag : Visibility → Tag
  | .isPublic => .kwPublic
  | .isSealed => .kwSealed
  | .isPrivate => .kwPrivate
  | .isInternal => .kwInternal

def DeclKind.signs : DeclKind → List Sign
  | .command name args =>
    .token [.hash] :: .part (.path name) :: args.flatMap fun id => [.gap [.comma], .part (.expr id)]
  | .using path => [.token [.kwUsing], .part (.path path)]
  | .inductiveType name params type constructors =>
    .token [.kwInductive] :: .part (.path name) :: (params.map fun p => .part (.paramSet p)) ++
      typing type ++ listed .lbrace .rbrace commas (constructors.map .constructor)
  | .signature name params type body =>
    .part (.path name) :: (params.map fun p => .part (.paramSet p)) ++ typing type ++
      body.toList.map fun b => .part (.block b)
  | .clause name patterns value =>
    .part (.path name) :: (patterns.map fun id => .part (.pattern id)) ++ .token [.eq] ::
      value.toList.map fun id => .part (.expr id)

/-- The rows as which a piece may be written. -/
inductive Arena.Writes (a : Arena) : Node → List Sign → Prop
  | ident (i : Ident) : Writes a (.ident i) [.token i.kind.tags]
  | path (p : Path) : Writes a (.path p) p.signs
  | pattern {id p} : a.pattern? id = some p → Writes a (.pattern id) p.kind.signs
  | param (p : Param) : Writes a (.param p) p.kind.signs
  | paramSet (p : ParamSet) : Writes a (.paramSet p) p.signs
  | expr {id e} : a.expr? id = some e → Writes a (.expr id) e.kind.signs
  | block (b : Block) : Writes a (.block b) b.signs
  | letStmt (pattern type value span) : Writes a (.letStmt pattern type value span)
      (.token [.kwLet] :: .part (.pattern pattern) :: typing type ++
        [.token [.eq], .part (.expr value)])
  | arm (m : MatchArm) : Writes a (.arm m) m.signs
  | attr {at' row} : Args at'.args row →
      Writes a (.attr at') (.token [.atSign] :: .part (.path at'.path) :: row)
  | constructor {c row row'} : Heading c.attrs row → c.kind.Writes row' →
      Writes a (.constructor c) (row ++ .part (.ident c.name) :: row')
  | decl {d row} : Heading d.attrs row → Writes a (.decl d)
      (row ++ (d.visibility.toList.map fun v => .token [v.tag]) ++ d.kind.signs)

/-- Some tokens are a row of signs, and every part of it has the span of its tokens. -/
inductive Written (ts : TokenList) (a : Arena) : List Sign → Nat → Nat → Prop
  | nil (i : Nat) : Written ts a [] i i
  | token {tags row i j} : ts.tagAt i ∈ tags → Written ts a row (i + 1) j →
      Written ts a (.token tags :: row) i j
  | gap {tags row i j k} : i ≤ k → (∀ m, i ≤ m → m < k → ts.tagAt m ∈ tags) →
      Written ts a row k j → Written ts a (.gap tags :: row) i j
  | part {x body row i j k} : a.Writes x body → Written ts a body i k →
      ts.Covers i k (x.span a) → Written ts a row k j → Written ts a (.part x :: row) i j

/-! ## Parts -/

theorem Args.partsIn_eq {ids : List ExprId} {row : List Sign} (h : Args ids row) :
    partsIn row = ids.map .expr := by
  cases h with
  | none => rfl
  | listed => simp

theorem Heading.partsIn_eq {attrs : Attributes} {row : List Sign} (h : Heading attrs row) :
    partsIn row = attrs.attributes.map .attr := by
  induction h with
  | none => rfl
  | doc _ _ ih => simpa using ih
  | attr _ _ ih => simpa using ih

/-- The parts of a piece, in the order in which they are written. -/
def Node.parts (a : Arena) : Node → List Node
  | ident _ => []
  | path p => partsIn p.signs
  | pattern id => ((a.pattern? id).map fun p => partsIn p.kind.signs).getD []
  | param p => partsIn p.kind.signs
  | paramSet p => partsIn p.signs
  | expr id => ((a.expr? id).map fun e => partsIn e.kind.signs).getD []
  | block b => b.stmts.map Stmt.node
  | letStmt p type value _ => pattern p :: type.toList.map expr ++ [expr value]
  | arm m => [.pattern m.pattern, .expr m.body]
  | attr at' => .path at'.path :: at'.args.map expr
  | constructor c =>
    c.attrs.attributes.map attr ++ .ident c.name ::
      match c.kind with
      | .signature type => [.expr type]
      | .function fields => fields.map expr
  | decl d => d.attrs.attributes.map attr ++ partsIn d.kind.signs

theorem Arena.Writes.partsIn_eq {a : Arena} {x : Node} {row : List Sign} (h : a.Writes x row) :
    partsIn row = x.parts a := by
  cases h with
  | ident | path | param | paramSet => rfl
  | pattern h => simp [Node.parts, h]
  | expr h => simp [Node.parts, h]
  | block b => simp [Node.parts, Block.signs]
  | letStmt pattern type value span => cases type <;> simp [Node.parts, typing]
  | arm => rfl
  | attr h => simp [Node.parts, h.partsIn_eq]
  | @constructor c _ _ h hk =>
    obtain ⟨attrs, name, kind, span⟩ := c
    rw [partsIn_append, h.partsIn_eq, partsIn_part, Node.parts]
    cases hk with
    | signature => rfl
    | function hargs => rw [hargs.partsIn_eq]
  | @decl d _ h =>
    have : partsIn (d.visibility.toList.map fun v => .token [v.tag]) = [] := by
      cases d.visibility <;> rfl
    rw [partsIn_append, partsIn_append, h.partsIn_eq, this, List.append_nil, Node.parts]

/-! ## Rows -/

namespace Written

variable {ts : TokenList} {a b : Arena} {row row' : List Sign} {i j k : Nat} {x y : Node}
  {tags : List Tag}

theorem le (h : Written ts a row i j) : i ≤ j := by
  induction h with
  | nil => exact Nat.le_refl _
  | token _ _ ih => exact Nat.le_of_succ_le ih
  | gap hle _ _ ih => exact Nat.le_trans hle ih
  | part _ _ hc _ _ ih => exact Nat.le_trans (Nat.le_of_lt hc.lt) ih

theorem append (h : Written ts a row i k) (h' : Written ts a row' k j) :
    Written ts a (row ++ row') i j := by
  induction h with
  | nil => exact h'
  | token ht _ ih => exact .token ht (ih h')
  | gap hle hg _ ih => exact .gap hle hg (ih h')
  | part hw hb hc _ _ ih => exact .part hw hb hc (ih h')

/-- One token. -/
theorem single (h : ts.tagAt i ∈ tags) : Written ts a [.token tags] i (i + 1) := .token h (.nil _)

/-- The span of a part. -/
theorem covers (h : Written ts a [.part x] i j) : ts.Covers i j (x.span a) := by
  cases h with
  | part _ _ hc hnil =>
    cases hnil
    exact hc

/-- Two gaps are one. -/
theorem widen {tags' : List Tag} (h : Written ts a [.gap tags] i j) (hsub : ∀ t ∈ tags, t ∈ tags') :
    Written ts a [.gap tags'] i j := by
  cases h with
  | gap hle hg hnil =>
    cases hnil
    exact .gap hle (fun m hm hmk => hsub _ (hg m hm hmk)) (.nil _)

theorem gap_append (h : Written ts a [.gap tags] i k) (h' : Written ts a [.gap tags] k j) :
    Written ts a [.gap tags] i j := by
  cases h with
  | gap hle hg hnil =>
    cases hnil
    cases h' with
    | gap hle' hg' hnil =>
      cases hnil
      refine .gap (Nat.le_trans hle hle') (fun m hm hmj => ?_) (.nil _)
      rcases Nat.lt_or_ge m k with hmk | hmk
      · exact hg m hm hmk
      · exact hg' m hmk hmj

/-- A row with a part has tokens. -/
theorem lt_of_part (h : Written ts a row i j) (hp : partsIn row ≠ []) : i < j := by
  induction h with
  | nil => exact absurd rfl hp
  | token _ hrest _ => exact hrest.le
  | gap hle _ _ ih => exact Nat.lt_of_le_of_lt hle (ih hp)
  | part _ _ hc hrest _ _ => exact Nat.lt_of_lt_of_le hc.lt hrest.le

/-- A part lies among the tokens of the row, and is written with tokens of its own. -/
theorem exists_part (h : Written ts a row i j) (hx : x ∈ partsIn row) :
    ∃ l k, i ≤ l ∧ k ≤ j ∧ Written ts a [.part x] l k := by
  induction h with
  | nil => cases hx
  | token _ _ ih =>
    obtain ⟨l, k, hl, hk, hw⟩ := ih hx
    exact ⟨l, k, Nat.le_of_succ_le hl, hk, hw⟩
  | gap hle _ _ ih =>
    obtain ⟨l, k, hl, hk, hw⟩ := ih hx
    exact ⟨l, k, Nat.le_trans hle hl, hk, hw⟩
  | @part y body row i j k hw hb hc hrest _ ih =>
    rw [partsIn_part] at hx
    rcases List.mem_cons.1 hx with rfl | hx
    · exact ⟨i, k, Nat.le_refl _, hrest.le, .part hw hb hc (.nil _)⟩
    · obtain ⟨l, k', hl, hk, hw⟩ := ih hx
      exact ⟨l, k', Nat.le_trans (Nat.le_of_lt hc.lt) hl, hk, hw⟩

/-- Parts come one after the other. -/
theorem apart (h : Written ts a row i j) (hts : ts.InOrder) :
    (partsIn row).Pairwise fun x y => (x.span a).stop ≤ (y.span a).start := by
  induction h with
  | nil => exact .nil
  | token _ _ ih | gap _ _ _ ih => exact ih
  | part _ _ hc hrest _ ih =>
    refine List.pairwise_cons.2 ⟨fun y hy => ?_, ih⟩
    obtain ⟨l, k, hl, -, hw⟩ := hrest.exists_part hy
    exact hc.apart hts hw.covers hl

/-- A piece is written as some row, whose parts are its parts. -/
theorem exists_row (h : Written ts a [.part x] i j) :
    ∃ row, a.Writes x row ∧ partsIn row = x.parts a ∧ Written ts a row i j := by
  cases h with
  | part hw hb _ hnil =>
    cases hnil
    exact ⟨_, hw, hw.partsIn_eq, hb⟩

end Written

/-! ## Arenas that grow -/

/-- Everything stored stays, but an expression may be put in another form that is written the same. -/
structure Arena.Retains (a b : Arena) : Prop where
  expr : ∀ id e, a.expr? id = some e →
    ∃ e', b.expr? id = some e' ∧ e'.span = e.span ∧ e'.kind.signs = e.kind.signs
  pattern : ∀ id p, a.pattern? id = some p → b.pattern? id = some p

namespace Arena.Retains

variable {a b c : Arena}

theorem refl (a : Arena) : a.Retains a := ⟨fun _ e h => ⟨e, h, rfl, rfl⟩, fun _ _ h => h⟩

theorem trans (h : a.Retains b) (k : b.Retains c) : a.Retains c where
  expr id e he := by
    obtain ⟨e₁, h₁, hs₁, hk₁⟩ := h.expr id e he
    obtain ⟨e₂, h₂, hs₂, hk₂⟩ := k.expr id e₁ h₁
    exact ⟨e₂, h₂, hs₂.trans hs₁, hk₂.trans hk₁⟩
  pattern id p hp := k.pattern id p (h.pattern id p hp)

theorem writes (h : a.Retains b) {x : Node} {row : List Sign} (hw : a.Writes x row) :
    b.Writes x row ∧ x.span b = x.span a := by
  cases hw with
  | @pattern id p hp =>
    have hp' := h.pattern id p hp
    exact ⟨.pattern hp', by simp [Node.span, patternSpan, hp, hp']⟩
  | @expr id e he =>
    obtain ⟨e', he', hspan, hsigns⟩ := h.expr id e he
    rw [← hsigns]
    exact ⟨.expr he', by simp [Node.span, exprSpan, he, he', hspan]⟩
  | ident i => exact ⟨.ident i, rfl⟩
  | path p => exact ⟨.path p, rfl⟩
  | param p => exact ⟨.param p, rfl⟩
  | paramSet p => exact ⟨.paramSet p, rfl⟩
  | block p => exact ⟨.block p, rfl⟩
  | letStmt => exact ⟨.letStmt _ _ _ _, rfl⟩
  | arm m => exact ⟨.arm m, rfl⟩
  | attr hargs => exact ⟨.attr hargs, rfl⟩
  | constructor hattrs hk => exact ⟨.constructor hattrs hk, rfl⟩
  | decl hattrs => exact ⟨.decl hattrs, rfl⟩

/-- One application of a value becomes one of a type. -/
theorem setKind {id : ExprId} {e : Expr} {callee : ExprId} {args : List ExprId}
    (he : a.expr? id = some e) (hk : e.kind = .app callee args none) :
    a.Retains (a.setKind id (.typeApp callee args)) := by
  refine ⟨fun j e' he' => ?_, fun _ _ h => h⟩
  by_cases hj : id.index = j.index
  · obtain ⟨i⟩ := id
    obtain ⟨j⟩ := j
    cases show i = j from hj
    rw [he] at he'
    cases he'
    refine ⟨{ e with kind := .typeApp callee args }, ?_, rfl, ?_⟩
    · simp only [expr?] at he ⊢
      simp [Arena.setKind, Array.getElem?_modify, he]
    · rw [hk]
      simp [ExprKind.signs]
  · refine ⟨e', ?_, rfl, rfl⟩
    simpa [expr?, Arena.setKind, Array.getElem?_modify, hj] using he'

/-- Reading as a type does not change what is written. -/
theorem retag (fuel : Nat) (id : ExprId) (a : Arena) : a.Retains (retag fuel id a).2 :=
  retag_related refl trans setKind fuel id a

end Arena.Retains

/-- What is written stays so. -/
theorem Written.mono {ts : TokenList} {a b : Arena} {row : List Sign} {i j : Nat}
    (h : Written ts a row i j) (hab : a.Retains b) : Written ts b row i j := by
  induction h with
  | nil => exact .nil _
  | token ht _ ih => exact .token ht ih
  | gap hle hg _ ih => exact .gap hle hg ih
  | part hw _ hc _ ihb ih =>
    obtain ⟨hw', hspan⟩ := hab.writes hw
    exact .part hw' ihb (hspan ▸ hc) ih

end SolSyntax
