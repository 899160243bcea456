import SolSyntax.Proofs.Independence
import SolSyntax.Proofs.LexedNames

/-!
# Parsing does not look at names

A parse asks tokens for their tags and spans, never for the names in them.  So it does the same if the
names are replaced by those that another interner has for the same strings: with other names it takes the
same tokens, and stores the same nodes with other names.  Two parses of the same source in two interners
are compared with one in a third interner that holds the strings of both.

Principal results: `Renames` instances for every production up to `declLine`; `parse_rename` — a parse with
other names; `results_same` — lexing and parsing in two interners.
-/

namespace SolSyntax

open Grammar

/-! ## Questions about the cursor -/

theorem TokenList.tagAt_rename (ρ : Name → Name) (ts : TokenList) (i : Nat) :
    (rename ρ ts).tagAt i = ts.tagAt i := by
  have hget : (rename ρ ts).tokens[i]? = ts.tokens[i]?.map (rename ρ) := Array.getElem?_map
  rw [tagAt, tagAt, hget]
  cases ts.tokens[i]? with
  | none => rfl
  | some t =>
    obtain ⟨kind, span, position⟩ := t
    cases kind <;> rfl

theorem TokenList.get?_rename (ρ : Name → Name) (ts : TokenList) (i : Nat) :
    (rename ρ ts).get? i = (ts.get? i).map (rename ρ) := Array.getElem?_map ..

theorem TokenList.size_rename (ρ : Name → Name) (ts : TokenList) : (rename ρ ts).size = ts.size :=
  Array.size_map ..

/-- What holds no names. -/
class Nameless (α : Type) [Rename α] : Prop where
  rename_eq : ∀ (ρ : Name → Name) (a : α), rename ρ a = a

namespace Nameless

instance : Nameless Unit := ⟨fun _ _ => rfl⟩
instance : Nameless Bool := ⟨fun _ _ => rfl⟩
instance : Nameless Tag := ⟨fun _ _ => rfl⟩
instance : Nameless Span := ⟨fun _ _ => rfl⟩
instance : Nameless ExprId := ⟨fun _ _ => rfl⟩
instance : Nameless PatternId := ⟨fun _ _ => rfl⟩
instance : Nameless Visibility := ⟨fun _ _ => rfl⟩
instance : Nameless SyntaxError := ⟨fun _ _ => rfl⟩
instance : Nameless Stmt := ⟨fun _ _ => rfl⟩
instance : Nameless Block := ⟨fun _ _ => rfl⟩
instance : Nameless MatchArm := ⟨fun _ _ => rfl⟩
instance : Nameless ConstructorKind := ⟨fun _ _ => rfl⟩

variable {α β : Type} [Rename α] [Rename β] [ha : Nameless α] [hb : Nameless β]

instance : Nameless (List α) := by
  refine ⟨fun ρ as => ?_⟩
  rw [show (rename ρ as : List α) = as.map (rename ρ) from rfl,
    show (rename ρ : α → α) = id from funext (ha.rename_eq ρ), List.map_id]

instance : Nameless (Option α) := by
  refine ⟨fun ρ o => ?_⟩
  cases o with
  | none => rfl
  | some a => exact congrArg some (ha.rename_eq ρ a)

instance : Nameless (α × β) := ⟨fun ρ p => Prod.ext (ha.rename_eq ρ p.1) (hb.rename_eq ρ p.2)⟩

instance : Nameless (Bracketed α) := by
  refine ⟨fun ρ b => ?_⟩
  show Bracketed.mk (rename ρ b.items) _ _ = b
  rw [Nameless.rename_eq]

instance : Nameless (ForInStep α) := by
  refine ⟨fun ρ step => ?_⟩
  cases step with
  | done a => exact congrArg ForInStep.done (ha.rename_eq ρ a)
  | yield a => exact congrArg ForInStep.yield (ha.rename_eq ρ a)

end Nameless

instance : Rename Cursor := ⟨fun ρ c => { c with tokens := rename ρ c.tokens }, fun ρ σ c => by simp⟩

/-- A question that is not about names. -/
class Blind (f : Cursor → β) : Prop where
  ask : ∀ (ρ : Name → Name) (c : Cursor), f (rename ρ c) = f c

namespace Cursor

theorem tagAt_rename (ρ : Name → Name) (c : Cursor) (i : Nat) : (rename ρ c).tagAt i = c.tagAt i :=
  c.tokens.tagAt_rename ρ i

theorem current_rename (ρ : Name → Name) (c : Cursor) : (rename ρ c).current = rename ρ c.current := by
  unfold current
  rw [show (rename ρ c).tokens = rename ρ c.tokens from rfl, TokenList.get?_rename]
  show ((c.tokens.get? c.position).map (rename ρ)).getD _ = rename ρ _
  cases c.tokens.get? c.position <;> rfl

theorem displayName_rename (ρ : Name → Name) (k : TokenKind) : (rename ρ k).displayName = k.displayName := by
  cases k <;> rfl

theorem complain_rename (ρ : Name → Name) (c : Cursor) (complaint : Complaint) :
    (rename ρ c).complain complaint = c.complain complaint := by
  unfold complain errorWith
  rw [current_rename, show (rename ρ c.current).kind = rename ρ c.current.kind from rfl,
    displayName_rename]
  rfl

theorem skipFrom_rename (ρ : Name → Name) (ts : TokenList) (p : Tag → Bool) (i : Nat) :
    skipFrom (rename ρ ts) p i = skipFrom ts p i := by
  fun_induction skipFrom ts p i with
  | case1 i h ih =>
    rw [skipFrom, TokenList.size_rename, TokenList.tagAt_rename, if_pos h, ih]
  | case2 i h => rw [skipFrom, TokenList.size_rename, TokenList.tagAt_rename, if_neg h]

theorem closeFrom_rename (ρ : Name → Name) (ts : TokenList) (i d : Nat) :
    closeFrom (rename ρ ts) i d = closeFrom ts i d := by
  fun_induction closeFrom ts i d <;> rw [closeFrom, TokenList.size_rename, TokenList.tagAt_rename] <;> grind

theorem occursFrom_rename (ρ : Name → Name) (ts : TokenList) (i stop d : Nat) (t : Tag) :
    occursFrom (rename ρ ts) i stop d t = occursFrom ts i stop d t := by
  fun_induction occursFrom ts i stop d t <;>
    rw [occursFrom, TokenList.size_rename, TokenList.tagAt_rename] <;> grind

theorem lineHasFrom_rename (ρ : Name → Name) (ts : TokenList) (t : Tag) (stops : TagSet) (i d : Nat) :
    lineHasFrom (rename ρ ts) t stops i d = lineHasFrom ts t stops i d := by
  fun_induction lineHasFrom ts t stops i d <;>
    rw [lineHasFrom, TokenList.size_rename, TokenList.tagAt_rename] <;> grind

theorem annotatedFrom_rename (ρ : Name → Name) (ts : TokenList) (i d : Nat) :
    annotatedFrom (rename ρ ts) i d = annotatedFrom ts i d := by
  fun_induction annotatedFrom ts i d <;>
    rw [annotatedFrom, TokenList.size_rename, TokenList.tagAt_rename] <;> grind

theorem currentTag_rename (ρ : Name → Name) (c : Cursor) : (rename ρ c).currentTag = c.currentTag :=
  c.tagAt_rename ρ c.position

theorem isAt_rename (ρ : Name → Name) (c : Cursor) (t : Tag) : (rename ρ c).isAt t = c.isAt t := by
  rw [isAt, isAt, currentTag_rename]

theorem matchingClose?_rename (ρ : Name → Name) (c : Cursor) (i : Nat) :
    (rename ρ c).matchingClose? i = c.matchingClose? i := closeFrom_rename ρ c.tokens i 0

theorem groupFollowedBy_rename (ρ : Name → Name) (c : Cursor) (t : Tag) :
    (rename ρ c).groupFollowedBy t = c.groupFollowedBy t := by
  unfold groupFollowedBy
  rw [show (rename ρ c).position = c.position from rfl, matchingClose?_rename]
  simp only [tagAt_rename]

theorem span_get?_rename (ρ : Name → Name) (c : Cursor) (i : Nat) :
    ((rename ρ c).tokens.get? i).map Token.span = (c.tokens.get? i).map Token.span := by
  rw [show (rename ρ c).tokens = rename ρ c.tokens from rfl, TokenList.get?_rename, Option.map_map]
  rfl

theorem previousSpan_rename (ρ : Name → Name) (c : Cursor) :
    (rename ρ c).previousSpan = c.previousSpan := by
  unfold previousSpan
  rw [span_get?_rename]
  rfl

theorem nextSpan_rename (ρ : Name → Name) (c : Cursor) : (rename ρ c).nextSpan = c.nextSpan := by
  unfold nextSpan
  rw [span_get?_rename, current_rename]
  rfl

end Cursor

namespace Blind

instance (t : Tag) : Blind fun c : Cursor => c.isAt t := ⟨fun ρ c => c.isAt_rename ρ t⟩
instance : Blind Cursor.isAtEnd := ⟨fun ρ c => c.isAt_rename ρ .eof⟩
instance : Blind Cursor.currentTag := ⟨fun ρ c => c.currentTag_rename ρ⟩
instance : Blind Cursor.previousSpan := ⟨fun ρ c => c.previousSpan_rename ρ⟩
instance (complaint : Complaint) : Blind fun c : Cursor => c.complain complaint :=
  ⟨fun ρ c => c.complain_rename ρ complaint⟩
instance (t : Tag) : Blind fun c : Cursor => c.tagPastNewlines == t := by
  refine ⟨fun ρ c => ?_⟩
  unfold Cursor.tagPastNewlines
  rw [Cursor.tagAt_rename, show (rename ρ c).tokens = rename ρ c.tokens from rfl, Cursor.skipFrom_rename]
  rfl

instance : Blind isPathDot := by
  refine ⟨fun ρ c => ?_⟩
  unfold isPathDot
  rw [Cursor.isAt_rename, Cursor.previousSpan_rename, Cursor.nextSpan_rename, Cursor.current_rename,
    show (rename ρ c).peekTag 1 = c.peekTag 1 from c.tagAt_rename ρ _]
  rfl

instance : Blind isTightDot := by
  refine ⟨fun ρ c => ?_⟩
  unfold isTightDot
  rw [Cursor.previousSpan_rename, Cursor.nextSpan_rename, Cursor.current_rename]
  rfl

instance : Blind startsSigma := by
  refine ⟨fun ρ c => ?_⟩
  unfold startsSigma
  rw [Cursor.isAt_rename, Cursor.groupFollowedBy_rename]

theorem isParamList_rename (ρ : Name → Name) (c : Cursor) : isParamList (rename ρ c) = isParamList c := by
  unfold isParamList
  rw [show (rename ρ c).position = c.position from rfl, Cursor.matchingClose?_rename]
  simp only [Cursor.tagAt_rename, Cursor.containsAtDepthZero]
  simp only [show (rename ρ c).tokens = rename ρ c.tokens from rfl, Cursor.occursFrom_rename]

instance : Blind startsParamList := by
  refine ⟨fun ρ c => ?_⟩
  unfold startsParamList
  rw [Cursor.isAt_rename, Cursor.isAt_rename, Cursor.groupFollowedBy_rename, isParamList_rename]

instance : Blind startsImplicitParams := by
  refine ⟨fun ρ c => ?_⟩
  unfold startsImplicitParams
  rw [Cursor.isAt_rename, show (rename ρ c).groupFollowedBy = c.groupFollowedBy from
    funext fun t => c.groupFollowedBy_rename ρ t]

instance : Blind isAnnotated := ⟨fun ρ c => Cursor.annotatedFrom_rename ρ c.tokens c.position 0⟩

instance : Blind isClauseLine :=
  ⟨fun ρ c => Cursor.lineHasFrom_rename ρ c.tokens .eq (.single .lbrace) c.position 0⟩

instance : Blind endsLine := by
  refine ⟨fun ρ c => ?_⟩
  unfold endsLine Cursor.isAtEnd
  rw [Cursor.isAt_rename, Cursor.isAt_rename]

instance : Blind continuesLine := ⟨fun ρ c => congrArg (!·) (ask ρ c)⟩

end Blind

/-! ## Nodes -/

namespace Arena

variable (ρ : Name → Name) (a : Arena)

theorem rename_empty {ρ : Name → Name} : rename ρ Arena.empty = Arena.empty :=
  congr (congrArg Arena.mk Array.map_empty) Array.map_empty

theorem expr?_rename (id : ExprId) : (rename ρ a).expr? id = (a.expr? id).map (rename ρ) :=
  Array.getElem?_map ..

theorem pattern?_rename (id : PatternId) : (rename ρ a).pattern? id = (a.pattern? id).map (rename ρ) :=
  Array.getElem?_map ..

theorem exprSpan_rename (id : ExprId) : (rename ρ a).exprSpan id = a.exprSpan id := by
  rw [exprSpan, exprSpan, expr?_rename, Option.map_map]
  rfl

theorem patternSpan_rename (id : PatternId) : (rename ρ a).patternSpan id = a.patternSpan id := by
  rw [patternSpan, patternSpan, pattern?_rename, Option.map_map]
  rfl

theorem newExpr_rename (e : Expr) :
    (rename ρ a).newExpr (rename ρ e) = ((a.newExpr e).1, rename ρ (a.newExpr e).2) := by
  have hexprs : (rename ρ a).exprs = a.exprs.map (rename ρ) := rfl
  simp only [newExpr, hexprs, Array.size_map, ← Array.map_push]
  rfl

theorem newPattern_rename (p : Pattern) :
    (rename ρ a).newPattern (rename ρ p) = ((a.newPattern p).1, rename ρ (a.newPattern p).2) := by
  have hpatterns : (rename ρ a).patterns = a.patterns.map (rename ρ) := rfl
  simp only [newPattern, hpatterns, Array.size_map, ← Array.map_push]
  rfl

theorem setKind_rename (id : ExprId) (kind : ExprKind) :
    (rename ρ a).setKind id (rename ρ kind) = rename ρ (a.setKind id kind) := by
  have hexprs : (a.exprs.map (rename ρ)).modify id.index (fun e => { e with kind := rename ρ kind }) =
      (a.exprs.modify id.index fun e => { e with kind }).map (rename ρ) := by
    apply Array.ext_getElem?
    intro i
    rw [Array.getElem?_modify, Array.getElem?_map, Array.getElem?_map, Array.getElem?_modify]
    split
    · rw [Option.map_map, Option.map_map]
      rfl
    · rfl
  exact congrArg (fun exprs => (⟨exprs, (rename ρ a).patterns⟩ : Arena)) hexprs

theorem forEach_rename {f : ExprId → Arena → Except BlockInType Unit × Arena}
    (hf : ∀ id a, f id (rename ρ a) = ((f id a).1, rename ρ (f id a).2)) (ids : List ExprId) :
    forEach f ids (rename ρ a) = ((forEach f ids a).1, rename ρ (forEach f ids a).2) := by
  induction ids generalizing a with
  | nil => rfl
  | cons id ids ih =>
    simp only [forEach, hf id a]
    obtain ⟨_ | _, b⟩ := f id a
    · rfl
    · exact ih b

/-- Reading an expression as a type does not depend on names. -/
theorem retag_rename (fuel : Nat) (id : ExprId) :
    retag fuel id (rename ρ a) = ((retag fuel id a).1, rename ρ (retag fuel id a).2) := by
  induction fuel generalizing id a with
  | zero => rfl
  | succ fuel ih =>
    have enter := fun ids b => forEach_rename ρ b (f := retag fuel) (fun id b => ih b id) ids
    unfold retag
    rw [expr?_rename, Option.map_map]
    obtain _ | ⟨kind, span⟩ := a.expr? id
    · rfl
    · cases kind with
      | app callee args block =>
        cases block with
        | none =>
          have hset := setKind_rename ρ a id (.typeApp callee args)
          show forEach (retag fuel) (callee :: args) ((rename ρ a).setKind id (.typeApp callee args)) = _
          rw [show ExprKind.typeApp callee args = rename ρ (.typeApp callee args) from rfl, hset]
          exact enter _ _
        | some block => rfl
      | binary lhs op rhs => exact enter _ _
      | ann value type => exact enter _ _
      | group inner => exact enter _ _
      | tuple items comma => exact enter _ _
      | array items => exact enter _ _
      | _ => rfl

end Arena

/-! ## Runs with other names -/

/-- An interner, and another one that holds what the names of the first one stand for. -/
structure Translation where
  source : Interner
  target : Interner
  holds : ∀ n, source.lookup n ∈ target.strings

namespace Translation

variable (τ : Translation)

/-- The name in the other interner. -/
def name (n : Name) : Name := (τ.target.intern (τ.source.lookup n)).1

theorem intern_lookup (n : Name) : τ.target.intern (τ.source.lookup n) = (τ.name n, τ.target) :=
  Prod.ext rfl (Interner.intern_of_mem (τ.holds n))

theorem lookup_name (n : Name) : τ.target.lookup (τ.name n) = τ.source.lookup n := by
  have hlookup := τ.target.lookup_intern (τ.source.lookup n)
  rwa [intern_lookup] at hlookup

end Translation

namespace Grammar

open Parse

/-- The same state with the names of the other interner, which has them all. -/
def State.translated (τ : Translation) (s : State) : State :=
  ⟨rename τ.name s.cursor, rename τ.name s.arena, τ.target⟩

/-- The same end with the other names. -/
def translated (τ : Translation) [Rename α] :
    EStateM.Result Failure State α → EStateM.Result Failure State α
  | .ok a s => .ok (rename τ.name a) (s.translated τ)
  | .error e s => .error e (s.translated τ)

/-- With other names `p'` does what `p` does, as long as `p` adds no names that there are no others
for. -/
class Renames (τ : Translation) [Rename α] (p p' : Parse α) : Prop where
  grows : ∀ s : State, s.names.Kept (final (p s)).names
  run : ∀ s : State, (final (p s)).names.Kept τ.source → p' (s.translated τ) = translated τ (p s)

namespace Renames

variable {τ : Translation} {p p' : Parse α} [Rename α] [Rename β]

/-- A step that adds no name. -/
theorem of_run (hnames : ∀ s : State, (final (p s)).names = s.names)
    (hrun : ∀ s : State, p' (s.translated τ) = translated τ (p s)) : Renames τ p p' :=
  ⟨fun s => hnames s ▸ .refl _, fun s _ => hrun s⟩

theorem of_pure (a : α) : Renames τ (pure a) (pure (rename τ.name a)) :=
  of_run (fun _ => rfl) fun _ => rfl

theorem of_pure_eq {a b : α} (h : rename τ.name a = b) : Renames τ (pure a) (pure b) := h ▸ of_pure a

/-- One step after another, of which the second is given the other names. -/
theorem bind {f f' : α → Parse β} (hp : Renames τ p p')
    (hf : ∀ a, Renames τ (f a) (f' (rename τ.name a))) : Renames τ (p >>= f) (p' >>= f') := by
  refine ⟨fun s => ?_, fun s hs => ?_⟩
  · have hgrows := hp.grows s
    cases e : p s with
    | ok a t =>
      rw [e] at hgrows
      rw [bind_of_ok e]
      exact hgrows.trans ((hf a).grows t)
    | error x t =>
      rw [e] at hgrows
      rwa [bind_of_error e]
  · have hrun := hp.run s
    cases e : p s with
    | ok a t =>
      rw [e] at hrun
      rw [bind_of_ok e] at hs ⊢
      rw [bind_of_ok (hrun (((hf a).grows t).trans hs))]
      exact (hf a).run t hs
    | error x t =>
      rw [e] at hrun
      rw [bind_of_error e] at hs ⊢
      rw [bind_of_error (hrun hs)]
      rfl

instance [h : Nameless α] (a : α) : Renames τ (pure a) (pure a) := by
  have := of_pure (τ := τ) a
  rwa [h.rename_eq] at this

/-- One step after another, of which the first gives no names. -/
theorem bind_same [h : Nameless α] {f f' : α → Parse β} (hp : Renames τ p p')
    (hf : ∀ a, Renames τ (f a) (f' a)) : Renames τ (p >>= f) (p' >>= f') :=
  bind hp fun a => by rw [h.rename_eq]; exact hf a

theorem ite {q q' : Parse α} {c : Prop} [Decidable c] (hp : Renames τ p p') (hq : Renames τ q q') :
    Renames τ (if c then p else q) (if c then p' else q') := by
  split
  · exact hp
  · exact hq

instance [Nameless α] [hp : Renames τ p p'] {f f' : α → Parse β} [hf : ∀ a, Renames τ (f a) (f' a)] :
    Renames τ (p >>= f) (p' >>= f') := bind_same hp hf

instance (priority := low) [hp : Renames τ p p'] {f f' : α → Parse β}
    [hf : ∀ a, Renames τ (f a) (f' (rename τ.name a))] : Renames τ (p >>= f) (p' >>= f') := bind hp hf

instance [hp : Renames τ p p'] {q q' : Parse α} [hq : Renames τ q q'] {c : Prop} [Decidable c] :
    Renames τ (if c then p else q) (if c then p' else q') := ite hp hq

theorem of_look {f f' : Cursor → α} (h : ∀ c, f' (rename τ.name c) = rename τ.name (f c)) :
    Renames τ (look f) (look f') :=
  of_run (fun _ => rfl) fun s => congrArg (EStateM.Result.ok · _) (h s.cursor)

instance [Nameless α] {f : Cursor → α} [h : Blind f] : Renames τ (look f) (look f) :=
  of_look fun c => by rw [h.ask, Nameless.rename_eq]

instance : Renames τ previousSpan previousSpan := by unfold previousSpan; infer_instance

instance : Renames τ current current := of_look (Cursor.current_rename τ.name)

theorem of_step {f : Cursor → α × Cursor}
    (h : ∀ c, f (rename τ.name c) = (rename τ.name (f c).1, rename τ.name (f c).2)) :
    Renames τ (step f) (step f) := by
  refine of_run (fun _ => rfl) fun s => ?_
  unfold step
  rw [show (s.translated τ).cursor = rename τ.name s.cursor from rfl, h]
  rfl

theorem of_tryStep {f : Cursor → Except SyntaxError α × Cursor}
    (h : ∀ c, f (rename τ.name c) = (rename τ.name (f c).1, rename τ.name (f c).2)) :
    Renames τ (tryStep f) (tryStep f) := by
  refine of_run (fun s => ?_) fun s => ?_
  · unfold tryStep
    split <;> rfl
  · unfold tryStep
    rw [show (s.translated τ).cursor = rename τ.name s.cursor from rfl, h]
    obtain ⟨_ | _, _⟩ := f s.cursor <;> rfl

instance (t : Tag) : Renames τ (isAt t) (isAt t) := by unfold isAt; infer_instance

instance (s : TagSet) : Renames τ (note s) (note s) := of_step fun _ => rfl

theorem check_rename (ρ : Name → Name) (c : Cursor) (t : Tag) :
    (rename ρ c).check t = ((c.check t).1, rename ρ (c.check t).2) := by
  unfold Cursor.check
  rw [Cursor.isAt_rename]
  split <;> rfl

instance (t : Tag) : Renames τ (check t) (check t) := of_step fun c => check_rename τ.name c t

instance (s : TagSet) : Renames τ (checkSet s) (checkSet s) := by
  refine of_step fun c => ?_
  unfold Cursor.checkSet
  rw [Cursor.currentTag_rename]
  split <;> rfl

theorem advance_rename (ρ : Name → Name) (c : Cursor) :
    (rename ρ c).advance = (rename ρ c.advance.1, rename ρ c.advance.2) := by
  unfold Cursor.advance
  rw [Cursor.current_rename, show (rename ρ c).isAtEnd = c.isAtEnd from c.isAt_rename ρ .eof]
  split <;> rfl

instance : Renames τ advance advance := of_step fun c => advance_rename τ.name c

instance (t : Tag) : Renames τ (expect t) (expect t) := by
  refine of_tryStep fun c => ?_
  unfold Cursor.expect
  rw [check_rename]
  obtain ⟨_ | _, d⟩ := c.check t
  · simp only [Cursor.complain_rename]
    rfl
  · simp only [advance_rename]
    rfl

instance : Renames τ expectIdent expectIdent := by
  refine of_tryStep fun c => ?_
  unfold Cursor.expectIdent
  rw [Cursor.current_rename, advance_rename]
  have hnote := (c.note .identStart).complain_rename τ.name .expectedIdentifier
  obtain ⟨kind, span, position⟩ := c.current
  cases kind <;> first | rfl | exact Prod.ext (congrArg Except.error hnote) rfl

theorem skipNewlines_rename (ρ : Name → Name) (c : Cursor) :
    (rename ρ c).skipNewlines = rename ρ c.skipNewlines := by
  unfold Cursor.skipNewlines
  rw [show (rename ρ c).tokens = rename ρ c.tokens from rfl, Cursor.skipFrom_rename]
  rfl

instance : Renames τ skipNewlines skipNewlines :=
  of_step fun c => Prod.ext rfl (skipNewlines_rename τ.name c)

instance : Renames τ eatSeparators eatSeparators := by
  refine of_step fun c => ?_
  unfold Cursor.eatSeparators
  rw [show (rename τ.name c).tokens = rename τ.name c.tokens from rfl, Cursor.skipFrom_rename,
    show (rename τ.name c).position = c.position from rfl]
  dsimp only
  split <;> rfl

instance (complaint : Complaint) : Renames τ (fail complaint : Parse α) (fail complaint) := by
  refine of_run (fun _ => rfl) fun s => ?_
  unfold fail
  rw [show (s.translated τ).cursor = rename τ.name s.cursor from rfl, Cursor.complain_rename]
  rfl

instance : Renames τ (exhausted : Parse α) exhausted := of_run (fun _ => rfl) fun _ => rfl

instance (e : SyntaxError) : Renames τ (raise e : Parse α) (raise e) := of_run (fun _ => rfl) fun _ => rfl

theorem within_final {γ : Type} (what : Construct) (p : Parse γ) (s : State) :
    (final (within what p s)).names = (final (p s)).names := by
  unfold within
  cases p s <;> rfl

instance [hp : Renames τ p p'] (what : Construct) : Renames τ (within what p) (within what p') := by
  refine ⟨fun s => within_final what p s ▸ hp.grows s, fun s hs => ?_⟩
  rw [within_final] at hs
  unfold within
  rw [hp.run s hs]
  cases p s <;> rfl

instance {p p' : Nat → Parse α} [h : ∀ n, Renames τ (p n) (p' n)] : Renames τ (bounded p) (bounded p') := by
  refine ⟨fun s => (h s.bound).grows s, fun s hs => ?_⟩
  have hbound : (s.translated τ).bound = s.bound :=
    congrArg (· + 1) (TokenList.size_rename τ.name s.cursor.tokens)
  unfold bounded
  rw [hbound]
  exact (h s.bound).run s hs

/-! ### Loops -/

/-- Whether a loop goes on or not does not depend on names. -/
theorem afterTurn {k k' : β → Parse β} (h : ∀ b, Renames τ (k b) (k' (rename τ.name b))) (step : ForInStep β) :
    Renames τ
      (match step with
        | .done b => pure b
        | .yield b => k b)
      (match rename τ.name step with
        | .done b => pure b
        | .yield b => k' b) := by
  cases step with
  | done b => exact of_pure b
  | yield b => exact h b

theorem of_turns {body body' : β → Parse (ForInStep β)}
    (h : ∀ b, Renames τ (body b) (body' (rename τ.name b))) (n : Nat) (b : β) :
    Renames τ (turns body n b) (turns body' n (rename τ.name b)) := by
  induction n generalizing b with
  | zero => unfold turns; infer_instance
  | succ n ih => exact (h b).bind fun step => afterTurn ih step

theorem of_repeating {body body' : β → Parse (ForInStep β)}
    (h : ∀ b, Renames τ (body b) (body' (rename τ.name b))) (b : β) :
    Renames τ (repeating body b) (repeating body' (rename τ.name b)) := by
  have := of_turns h
  unfold repeating
  exact inferInstanceAs (Renames τ (bounded fun n => turns body n b) (bounded fun n => turns body' n _))

instance [hb : Nameless β] {body body' : β → Parse (ForInStep β)} [h : ∀ b, Renames τ (body b) (body' b)] (b : β) :
    Renames τ (repeating body b) (repeating body' b) := by
  have hrun : Renames τ (repeating body b) (repeating body' (rename τ.name b)) :=
    of_repeating (fun b => by rw [hb.rename_eq]; exact h b) b
  rwa [hb.rename_eq] at hrun

/-! ### Nodes -/

theorem of_newExpr (kind : ExprKind) (span : Span) :
    Renames τ (newExpr kind span) (newExpr (rename τ.name kind) span) := by
  refine of_run (fun _ => rfl) fun s => ?_
  unfold newExpr
  rw [show (s.translated τ).arena = rename τ.name s.arena from rfl,
    show (⟨rename τ.name kind, span⟩ : Expr) = rename τ.name ⟨kind, span⟩ from rfl, Arena.newExpr_rename]
  rfl

theorem of_newPattern (kind : PatternKind) (span : Span) :
    Renames τ (newPattern kind span) (newPattern (rename τ.name kind) span) := by
  refine of_run (fun _ => rfl) fun s => ?_
  unfold newPattern
  rw [show (s.translated τ).arena = rename τ.name s.arena from rfl,
    show (⟨rename τ.name kind, span⟩ : Pattern) = rename τ.name ⟨kind, span⟩ from rfl,
    Arena.newPattern_rename]
  rfl

instance (id : ExprId) : Renames τ (exprSpan id) (exprSpan id) :=
  of_run (fun _ => rfl) fun s => congrArg (EStateM.Result.ok · _) (s.arena.exprSpan_rename τ.name id)

instance (id : PatternId) : Renames τ (patternSpan id) (patternSpan id) :=
  of_run (fun _ => rfl) fun s => congrArg (EStateM.Result.ok · _) (s.arena.patternSpan_rename τ.name id)

instance (id : ExprId) : Renames τ (isClosedForm id) (isClosedForm id) := by
  refine of_run (fun _ => rfl) fun s => ?_
  unfold isClosedForm
  rw [show (s.translated τ).arena = rename τ.name s.arena from rfl, Arena.expr?_rename]
  obtain _ | ⟨kind, span⟩ := s.arena.expr? id
  · rfl
  · cases kind <;> rfl

instance (id : ExprId) : Renames τ (isOpenIf id) (isOpenIf id) := by
  refine of_run (fun _ => rfl) fun s => ?_
  unfold isOpenIf
  rw [show (s.translated τ).arena = rename τ.name s.arena from rfl, Arena.expr?_rename]
  obtain _ | ⟨kind, span⟩ := s.arena.expr? id
  · rfl
  · cases kind with
    | cond test thenBranch elseBranch position => cases elseBranch <;> cases position <;> rfl
    | _ => rfl

instance (id : ExprId) : Renames τ (toType id) (toType id) := by
  refine of_run (fun s => ?_) fun s => ?_
  · unfold toType
    split <;> rfl
  · unfold toType Arena.toType
    rw [show (s.translated τ).arena = rename τ.name s.arena from rfl, Arena.retag_rename,
      show (s.translated τ).cursor = rename τ.name s.cursor from rfl, Cursor.current_rename]
    obtain ⟨_ | _, _⟩ := s.arena.retag (id.index + 1) id <;> rfl

instance (sign : String) : Renames τ (intern sign) (intern sign) := by
  refine ⟨fun s => .intern s.names sign, fun s hs => ?_⟩
  have hname := τ.intern_lookup (s.names.intern sign).1
  rw [Interner.Kept.lookup_intern hs] at hname
  show EStateM.Result.ok (τ.target.intern sign).1 { s.translated τ with names := (τ.target.intern sign).2 } =
    EStateM.Result.ok (τ.name (s.names.intern sign).1) _
  rw [hname]
  rfl

/-! ### Steps -/

instance (s : TagSet) (complaint : Complaint) :
    Renames τ (failWanting s complaint : Parse α) (failWanting s complaint) := by
  unfold failWanting; infer_instance

instance (close : Tag) (opening : Span) :
    Renames τ (expectClosing close opening) (expectClosing close opening) := by
  unfold expectClosing; infer_instance

instance (t : Tag) : Renames τ (accept t) (accept t) := by
  unfold accept; infer_instance
instance (start : Span) : Renames τ (spanFrom start) (spanFrom start) := by
  unfold spanFrom; infer_instance

/-! ### Rows and lists -/

theorem of_optionally {test test' : Parse Bool} (ht : Renames τ test test') (h : Renames τ p p') :
    Renames τ (optionally test p) (optionally test' p') :=
  bind_same ht fun _ => ite (h.bind fun a => of_pure (some a)) (of_pure none)

theorem of_manyTurn {item item' : Parse (Option α)} (h : Renames τ item item') (items : List α) :
    Renames τ (manyTurn item items) (manyTurn item' (rename τ.name items)) := by
  refine h.bind fun o => ?_
  cases o with
  | none => exact of_pure (ForInStep.done items)
  | some a => exact of_pure (ForInStep.yield (a :: items))

theorem of_many {item item' : Parse (Option α)} (h : Renames τ item item') :
    Renames τ (many item) (many item') := by
  exact (of_repeating (of_manyTurn h) []).bind fun items => of_pure_eq List.map_reverse

instance {test test' : Parse Bool} [ht : Renames τ test test'] [h : Renames τ p p'] :
    Renames τ (optionally test p) (optionally test' p') := of_optionally ht h

instance {item item' : Parse (Option α)} [h : Renames τ item item'] :
    Renames τ (many item) (many item') := of_many h

theorem of_sequenceTurn {close : Tag} {separator separator' : Parse Bool} (h : Renames τ p p')
    (hsep : Renames τ separator separator') (found : List α × Bool) :
    Renames τ (sequenceTurn close p separator found)
      (sequenceTurn close p' separator' (rename τ.name found)) := by
  refine bind_same inferInstance fun _ => ite (of_pure (ForInStep.done found)) (h.bind fun a => ?_)
  exact bind_same hsep fun _ =>
    ite (of_pure (ForInStep.yield (a :: found.1, true))) (of_pure (ForInStep.done (a :: found.1, false)))

instance {close : Tag} {separator separator' : Parse Bool} [h : Renames τ p p']
    [hsep : Renames τ separator separator'] :
    Renames τ (sequence close p separator) (sequence close p' separator') :=
  (of_repeating (of_sequenceTurn h hsep) ([], false)).bind fun _ =>
    of_pure_eq (Prod.ext List.map_reverse rfl)

instance : Renames τ commaSeparator commaSeparator := by unfold commaSeparator; infer_instance
instance : Renames τ breakSeparator breakSeparator := by unfold breakSeparator; infer_instance

instance {close : Tag} [h : Renames τ p p'] : Renames τ (bracketed close p) (bracketed close p') := by
  refine bind inferInstance fun opening => bind_same inferInstance fun _ => ?_
  refine bind inferInstance fun found => bind_same inferInstance fun closing => ?_
  exact of_pure (⟨found.1, found.2, opening.span.merge closing⟩ : Bracketed α)

instance {separator separator' : Parse Bool} {finish finish' : List α → Parse Unit} [Renames τ p p']
    [Renames τ separator separator'] [hf : ∀ items, Renames τ (finish items) (finish' (rename τ.name items))] :
    Renames τ (braced p separator finish) (braced p' separator' finish') := by
  refine bind inferInstance fun opening => bind_same inferInstance fun _ => ?_
  refine bind inferInstance fun found => bind_same (hf found.1) fun _ => ?_
  refine bind_same inferInstance fun closing => ?_
  exact of_pure (found.1, opening.span.merge closing)

instance (items : List α) : Renames τ (noObjection items) (noObjection (rename τ.name items)) :=
  of_pure ()

/-! ### Patterns -/

instance : Renames τ segment segment := by unfold segment; infer_instance

theorem ofIdents_rename (ρ : Name → Name) (first : Ident) (others : List Ident) :
    rename ρ (Path.ofIdents first others) = Path.ofIdents (rename ρ first) (rename ρ others) := by
  have fold : ∀ (others : List Ident) (q : Path), rename ρ (others.foldl Path.push q) =
      (others.map (rename ρ)).foldl Path.push (rename ρ q) := by
    intro others
    induction others with
    | nil => exact fun q => rfl
    | cons i is ih =>
      intro q
      have hpush : rename ρ (q.push i) = (rename ρ q).push (rename ρ i) := by
        exact congrArg (Path.mk _ · _) List.map_append
      rw [List.foldl_cons, ih, hpush]
      rfl
  exact fold others (.single first)

instance : Renames τ path path := by
  refine bind inferInstance fun first => bind inferInstance fun others => ?_
  exact of_pure_eq (ofIdents_rename τ.name first others)

instance : Renames τ patternPath patternPath := by
  refine bind inferInstance fun q => ?_
  exact of_newPattern (.constructor q []) q.span

variable {q q' : Parse PatternId}

instance [Renames τ q q'] : Renames τ (patternGroup q) (patternGroup q') := by
  refine bind inferInstance fun opening => bind_same inferInstance fun _ => ?_
  refine bind_same inferInstance fun inner => bind_same inferInstance fun _ => ?_
  refine bind_same inferInstance fun close => ?_
  exact of_newPattern (.group inner) (opening.span.merge close)

instance [Renames τ q q'] (token : Token) :
    Renames τ (atomOf q token) (atomOf q' (rename τ.name token)) := by
  obtain ⟨kind, span, position⟩ := token
  cases kind with
  | int value => exact bind inferInstance fun _ => of_newPattern (.literal (.int value)) span
  | float value => exact bind inferInstance fun _ => of_newPattern (.literal (.float value)) span
  | string value => exact bind inferInstance fun _ => of_newPattern (.literal (.string value)) span
  | char value => exact bind inferInstance fun _ => of_newPattern (.literal (.char value)) span
  | ident | symbol => exact inferInstanceAs (Renames τ patternPath patternPath)
  | dotDot => exact bind inferInstance fun _ => of_newPattern .rest span
  | lparen => exact inferInstanceAs (Renames τ (patternGroup q) (patternGroup q'))
  | _ => exact inferInstanceAs (Renames τ (failWanting .patternStart .expectedPattern) (failWanting _ _))

instance [Renames τ q q'] : Renames τ (atomWith q) (atomWith q') := by unfold atomWith; infer_instance

instance [Renames τ q q'] : Renames τ (patternApplication q) (patternApplication q') := by
  refine bind inferInstance fun head => bind_same inferInstance fun args => ?_
  refine bind_same (p := spanFrom head.span) inferInstance fun span => ?_
  exact of_newPattern (.constructor head args) span

instance [Renames τ q q'] : Renames τ (patternWith q) (patternWith q') := by
  unfold patternWith; infer_instance

instance (n : Nat) : Renames τ (patternAt n) (patternAt n) := by
  induction n with
  | zero => unfold patternAt; infer_instance
  | succ n ih => unfold patternAt; infer_instance

instance : Renames τ pattern pattern := by unfold pattern; infer_instance
instance : Renames τ atom atom := by unfold atom; infer_instance

end Renames

/-! ### Expressions -/

/-- Readers that do the same with other names. -/
class Rules.Renames (τ : Translation) (r : Rules) : Prop where
  expr : ∀ ctx, Grammar.Renames τ (r.expr ctx) (r.expr ctx)
  arrow : ∀ ctx, Grammar.Renames τ (r.arrow ctx) (r.arrow ctx)
  block : Grammar.Renames τ r.block r.block

namespace Renames

variable {τ : Translation} {r : Rules} [h : r.Renames τ]

instance (ctx : Context) : Renames τ (r.expr ctx) (r.expr ctx) := h.expr ctx
instance (ctx : Context) : Renames τ (r.arrow ctx) (r.arrow ctx) := h.arrow ctx
instance : Renames τ r.block r.block := h.block
instance : Renames τ r.value r.value := h.expr _
instance : Renames τ r.type r.type := h.arrow _

instance : Renames τ (optionalType r) (optionalType r) := by unfold optionalType; infer_instance

instance : Renames τ forAllParam forAllParam := by
  refine bind inferInstance fun mark => bind inferInstance fun name => ?_
  exact of_pure (⟨.forAll name, mark.span.merge name.span⟩ : Param)

instance : Renames τ (typedParam r) (typedParam r) := by
  refine bind_same inferInstance fun binding => bind inferInstance fun _ => ?_
  exact bind_same inferInstance fun type => of_pure (ParamKind.typed (some binding) type)

instance (kind : ParamSetKind) : Renames τ (bareParam r kind) (bareParam r kind) := by
  cases kind with
  | sigma => exact bind_same inferInstance fun pattern => of_pure (ParamKind.untyped pattern)
  | _ => exact bind_same (p := r.type) inferInstance fun type => of_pure (ParamKind.typed none type)

instance (kind : ParamSetKind) : Renames τ (memberParam r kind) (memberParam r kind) := by
  unfold memberParam; infer_instance

instance (kind : ParamSetKind) : Renames τ (param r kind) (param r kind) := by
  refine bind inferInstance fun start => bind_same inferInstance fun _ => ite inferInstance ?_
  refine bind inferInstance fun kind => bind_same (p := spanFrom start.span) inferInstance fun span => ?_
  exact of_pure (⟨kind, span⟩ : Param)

instance (tag : Tag) : Renames τ (paramSetOf r tag) (paramSetOf r tag) := by
  unfold paramSetOf
  split
  · infer_instance
  · rename_i kind close _
    refine bind inferInstance fun found => ?_
    exact of_pure (⟨kind, found.items, found.span⟩ : ParamSet)

instance : Renames τ (paramSet r) (paramSet r) := by unfold paramSet; infer_instance

variable (ctx : Context)

instance : Renames τ pathExpr pathExpr := by
  refine bind inferInstance fun path => ?_
  exact of_newExpr (.path path) path.span

instance : Renames τ freeVar freeVar := by
  refine bind inferInstance fun mark => bind inferInstance fun name => ?_
  exact of_newExpr (.freeVar name) (mark.span.merge name.span)

/-- A node that holds no name itself. -/
theorem of_newExpr_eq {kind : ExprKind} (span : Span) (h : rename τ.name kind = kind) :
    Renames τ (newExpr kind span) (newExpr kind span) := by
  have := of_newExpr (τ := τ) kind span
  rwa [h] at this

instance (items : List ExprId) (comma : Bool) (span : Span) :
    Renames τ (newExpr (groupOrTuple items comma) span) (newExpr (groupOrTuple items comma) span) := by
  refine of_newExpr_eq span ?_
  unfold groupOrTuple
  split <;> rfl

instance : Renames τ (parenthesized r ctx) (parenthesized r ctx) := by
  unfold parenthesized; infer_instance

instance (items : List ExprId) (span : Span) :
    Renames τ (newExpr (.array items) span) (newExpr (.array items) span) := of_newExpr_eq span rfl

instance : Renames τ (array r ctx) (array r ctx) := by unfold array; infer_instance

instance (block : Block) (span : Span) :
    Renames τ (newExpr (.block block) span) (newExpr (.block block) span) := of_newExpr_eq span rfl

instance : Renames τ (branch r ctx) (branch r ctx) := by unfold branch; infer_instance

instance (position : IfPosition) : Renames τ (elseBranch r ctx position) (elseBranch r ctx position) := by
  unfold elseBranch
  cases position <;> infer_instance

instance : Renames τ (condition r) (condition r) := by unfold condition; infer_instance

instance (test a : ExprId) (b : Option ExprId) (position : IfPosition) (span : Span) :
    Renames τ (newExpr (.cond test a b position) span) (newExpr (.cond test a b position) span) :=
  of_newExpr_eq span rfl

instance (position : IfPosition) : Renames τ (conditional r ctx position) (conditional r ctx position) := by
  unfold conditional; infer_instance

instance : Renames τ (matchArm r) (matchArm r) := by unfold matchArm; infer_instance

instance (scrutinee : ExprId) (arms : List MatchArm) (span : Span) :
    Renames τ (newExpr (.cases scrutinee arms) span) (newExpr (.cases scrutinee arms) span) :=
  of_newExpr_eq span rfl

instance : Renames τ (caseAnalysis r) (caseAnalysis r) := by unfold caseAnalysis; infer_instance

instance (value : Option ExprId) (span : Span) :
    Renames τ (newExpr (.ret value) span) (newExpr (.ret value) span) := of_newExpr_eq span rfl

instance : Renames τ (returning r ctx) (returning r ctx) := by unfold returning; infer_instance

instance (token : Token) : Renames τ (operandOf r ctx token) (operandOf r ctx (rename τ.name token)) := by
  obtain ⟨kind, span, position⟩ := token
  cases kind with
  | int value => exact bind inferInstance fun _ => of_newExpr (.literal (.int value)) span
  | float value => exact bind inferInstance fun _ => of_newExpr (.literal (.float value)) span
  | string value => exact bind inferInstance fun _ => of_newExpr (.literal (.string value)) span
  | char value => exact bind inferInstance fun _ => of_newExpr (.literal (.char value)) span
  | ident | symbol => exact inferInstanceAs (Renames τ pathExpr pathExpr)
  | caret => exact inferInstanceAs (Renames τ freeVar freeVar)
  | kwUniverse => exact bind inferInstance fun _ => of_newExpr .univ span
  | lparen => exact inferInstanceAs (Renames τ (parenthesized r ctx) (parenthesized r ctx))
  | lbracket => exact inferInstanceAs (Renames τ (array r ctx) (array r ctx))
  | kwIf => exact inferInstanceAs (Renames τ (conditional r ctx .expr) (conditional r ctx .expr))
  | kwMatch => exact inferInstanceAs (Renames τ (caseAnalysis r) (caseAnalysis r))
  | kwReturn => exact inferInstanceAs (Renames τ (returning r ctx) (returning r ctx))
  | _ => exact inferInstanceAs (Renames τ (failWanting .primaryStart .expectedExpression) (failWanting _ _))

instance : Renames τ (operand r ctx) (operand r ctx) := by unfold operand; infer_instance

instance : Renames τ (blockArgument r ctx) (blockArgument r ctx) := by
  unfold blockArgument; infer_instance

instance (callee : ExprId) (args : List ExprId) (block : Option Block) (span : Span) :
    Renames τ (newExpr (applicationKind ctx callee args block) span)
      (newExpr (applicationKind ctx callee args block) span) := by
  refine of_newExpr_eq span ?_
  unfold applicationKind
  split <;> rfl

instance (callee : ExprId) : Renames τ (applied r ctx callee) (applied r ctx callee) := by
  unfold applied; infer_instance

instance : Renames τ (application r ctx) (application r ctx) := by unfold application; infer_instance

instance (sign : String) (span : Span) : Renames τ (signOperator sign span) (signOperator sign span) :=
  bind inferInstance fun name => of_pure (some (⟨name, .symbol, span⟩ : Ident))

instance (token : Token) : Renames τ (operatorOf token) (operatorOf (rename τ.name token)) := by
  obtain ⟨kind, span, position⟩ := token
  cases kind with
  | operator name => exact of_pure (some (⟨name, .symbol, span⟩ : Ident))
  | pipe => exact inferInstanceAs (Renames τ (signOperator "|" span) (signOperator "|" span))
  | dot => exact bind_same inferInstance fun _ => ite (of_pure none) inferInstance
  | _ => exact bind_same (p := note .binaryOperator) inferInstance fun _ => of_pure none

instance : Renames τ operator? operator? := by unfold operator?; infer_instance

instance (lhs : ExprId) (op : Ident) : Renames τ (joined r ctx lhs op) (joined r ctx lhs (rename τ.name op)) := by
  refine bind inferInstance fun _ => bind_same inferInstance fun rhs => ?_
  refine bind_same inferInstance fun left => bind_same inferInstance fun right => ?_
  exact of_newExpr (.binary lhs op rhs) (left.merge right)

instance (lhs : ExprId) : Renames τ (chainTurn r ctx lhs) (chainTurn r ctx lhs) := by
  refine bind inferInstance fun op => ?_
  cases op with
  | none => exact of_pure (ForInStep.done lhs)
  | some op => exact bind_same (p := joined r ctx lhs op) inferInstance fun id => of_pure (ForInStep.yield id)

instance : Renames τ (chain r ctx) (chain r ctx) := by unfold chain; infer_instance

instance (value type : ExprId) (span : Span) :
    Renames τ (newExpr (.ann value type) span) (newExpr (.ann value type) span) := of_newExpr_eq span rfl

instance (value : ExprId) : Renames τ (ascribed r value) (ascribed r value) := by
  unfold ascribed; infer_instance

instance (value : ExprId) : Renames τ (annotationTurn r value) (annotationTurn r value) := by
  unfold annotationTurn; infer_instance

instance : Renames τ (annotated r ctx) (annotated r ctx) := by unfold annotated; infer_instance

instance (params : ParamSet) :
    Renames τ (sigmaResult r ctx params) (sigmaResult r ctx (rename τ.name params)) := by
  refine bind_same inferInstance fun result => bind_same inferInstance fun span => ?_
  exact of_newExpr (.sigma params result) (params.span.merge span)

instance : Renames τ (sigma r ctx) (sigma r ctx) := by unfold sigma; infer_instance

instance (params : ParamSet) :
    Renames τ (arrowResult r ctx params) (arrowResult r ctx (rename τ.name params)) := by
  refine bind_same inferInstance fun result => bind_same inferInstance fun span => ?_
  exact of_newExpr (.pi params result) (params.span.merge span)

instance (domain : ExprId) : Renames τ (domainResult r ctx domain) (domainResult r ctx domain) := by
  refine bind_same inferInstance fun _ => bind_same inferInstance fun span => ?_
  exact inferInstanceAs (Renames τ (arrowResult r ctx (domainParams domain span))
    (arrowResult r ctx (rename τ.name (domainParams domain span))))

instance : Renames τ (domainArrow r ctx) (domainArrow r ctx) := by unfold domainArrow; infer_instance
instance : Renames τ (arrow r ctx) (arrow r ctx) := by unfold arrow; infer_instance
instance (stop : Tag) : Renames τ (isBefore stop) (isBefore stop) := by unfold isBefore; infer_instance

instance (params : List PatternId) (body : ExprId) (span : Span) :
    Renames τ (newExpr (.lambda params body) span) (newExpr (.lambda params body) span) :=
  of_newExpr_eq span rfl

instance (start : Span) (params : List PatternId) :
    Renames τ (lambdaBody r ctx start params) (lambdaBody r ctx start params) := by
  unfold lambdaBody; infer_instance

instance : Renames τ (lambda r ctx) (lambda r ctx) := by unfold lambda; infer_instance
instance : Renames τ (letStmt r) (letStmt r) := by unfold letStmt; infer_instance
instance : Renames τ (stmt r) (stmt r) := by unfold stmt; infer_instance

instance (stmts : List Stmt) :
    Renames τ (rejectOpenIf stmts) (rejectOpenIf (rename τ.name stmts)) := by
  rw [Nameless.rename_eq]
  unfold rejectOpenIf
  split <;> infer_instance

instance : Renames τ (block r) (block r) :=
  bind_same inferInstance fun found => of_pure (⟨found.1, found.2⟩ : Block)

end Renames

instance (τ : Translation) : Rules.exhausted.Renames τ :=
  ⟨fun _ => inferInstanceAs (Grammar.Renames τ Parse.exhausted Parse.exhausted),
    fun _ => inferInstanceAs (Grammar.Renames τ Parse.exhausted Parse.exhausted),
    inferInstanceAs (Grammar.Renames τ Parse.exhausted Parse.exhausted)⟩

instance Rules.renames_rules (τ : Translation) (n : Nat) : (rules n).Renames τ := by
  induction n with
  | zero => exact inferInstanceAs (Rules.exhausted.Renames τ)
  | succ n ih =>
    exact ⟨fun ctx => inferInstanceAs (Grammar.Renames τ (lambda (rules n) ctx) (lambda (rules n) ctx)),
      fun ctx => inferInstanceAs
        (Grammar.Renames τ (Grammar.arrow (rules n) ctx) (Grammar.arrow (rules n) ctx)),
      inferInstanceAs (Grammar.Renames τ (Grammar.block (rules n)) (Grammar.block (rules n)))⟩

/-! ### Declarations -/

namespace Renames

variable {τ : Translation} {r : Rules} [r.Renames τ]

instance {p : Parse ExprId} [Renames τ p p] : Renames τ (optionalArgs p) (optionalArgs p) := by
  unfold optionalArgs; infer_instance

instance : Renames τ (attr r) (attr r) := by
  refine bind inferInstance fun start => bind inferInstance fun name => ?_
  refine bind_same inferInstance fun args => ?_
  refine bind_same (p := spanFrom start.span) inferInstance fun span => ?_
  exact of_pure (⟨name, args, span⟩ : Attribute)

instance (token : Token) : Renames τ (attachmentOf r token) (attachmentOf r (rename τ.name token)) := by
  obtain ⟨kind, span, position⟩ := token
  cases kind with
  | docString text =>
    refine bind inferInstance fun _ => bind_same inferInstance fun _ => ?_
    exact of_pure (some (Attachment.doc text))
  | atSign =>
    refine bind inferInstance fun value => bind_same inferInstance fun _ => ?_
    exact of_pure (some (Attachment.attr value))
  | _ => exact of_pure none

instance : Renames τ (attachment r) (attachment r) := by unfold attachment; infer_instance

theorem collect_rename (ρ : Name → Name) (attachments : List Attachment) :
    rename ρ (Attachment.collect attachments) = Attachment.collect (rename ρ attachments) := by
  induction attachments with
  | nil => rfl
  | cons a attachments ih =>
    cases a with
    | doc text => exact congrArg (fun attrs : Attributes => Attributes.mk (ρ text :: attrs.docs) attrs.attributes) ih
    | attr v => exact congrArg (fun attrs : Attributes => Attributes.mk attrs.docs (rename ρ v :: attrs.attributes)) ih

instance : Renames τ (attributes r) (attributes r) :=
  bind inferInstance fun attachments => of_pure_eq (collect_rename τ.name attachments)

instance (token : Token) : Renames τ (visibilityOf token) (visibilityOf (rename τ.name token)) := by
  have hkind : (rename τ.name token).kind.visibility? = token.kind.visibility? := by
    obtain ⟨kind, span, position⟩ := token
    cases kind <;> rfl
  unfold visibilityOf
  rw [hkind]
  split <;> infer_instance

instance : Renames τ visibility visibility := by unfold visibility; infer_instance
instance : Renames τ startsDeclParams startsDeclParams := by unfold startsDeclParams; infer_instance
instance : Renames τ (declParams r) (declParams r) := by unfold declParams; infer_instance

instance : Renames τ usingDecl usingDecl :=
  bind inferInstance fun _ => bind inferInstance fun path => of_pure (DeclKind.using path)

instance : Renames τ (commandArgs r) (commandArgs r) := by unfold commandArgs; infer_instance
instance : Renames τ (lineArgs r) (lineArgs r) := by unfold lineArgs; infer_instance

instance : Renames τ (commandDecl r) (commandDecl r) := by
  refine bind inferInstance fun _ => bind inferInstance fun name => ?_
  exact bind_same inferInstance fun args => of_pure (DeclKind.command name args)

instance : Renames τ (constructorKind r) (constructorKind r) := by
  unfold constructorKind; infer_instance

instance : Renames τ (constructor r) (constructor r) := by
  refine bind inferInstance fun start => bind inferInstance fun attrs => ?_
  refine bind inferInstance fun name => bind_same inferInstance fun kind => ?_
  refine bind_same (p := spanFrom start.span) inferInstance fun span => ?_
  exact of_pure (⟨attrs, name, kind, span⟩ : Constructor)

instance : Renames τ (inductiveDecl r) (inductiveDecl r) := by
  refine bind inferInstance fun _ => bind inferInstance fun name => ?_
  refine bind inferInstance fun params => bind_same inferInstance fun type => ?_
  exact bind inferInstance fun found => of_pure (DeclKind.inductiveType name params type found.1)

instance : Renames τ (signatureDecl r) (signatureDecl r) := by
  refine bind inferInstance fun name => bind inferInstance fun params => ?_
  refine bind_same inferInstance fun type => bind_same inferInstance fun body => ?_
  exact of_pure (DeclKind.signature name params type body)

instance : Renames τ (clauseDecl r) (clauseDecl r) := by
  refine bind inferInstance fun name => bind_same inferInstance fun patterns => ?_
  refine bind inferInstance fun _ => bind_same inferInstance fun value => ?_
  exact of_pure (DeclKind.clause name patterns value)

instance : Renames τ (namedDecl r) (namedDecl r) := by unfold namedDecl; infer_instance

instance (tag : Tag) : Renames τ (declKindOf r tag) (declKindOf r tag) := by
  unfold declKindOf
  split <;> infer_instance

instance : Renames τ (declKind r) (declKind r) := by unfold declKind; infer_instance

instance (start : Span) (attrs : Attributes) :
    Renames τ (attributed r start attrs) (attributed r start (rename τ.name attrs)) := by
  refine bind_same inferInstance fun visibility => bind inferInstance fun kind => ?_
  refine bind_same (p := spanFrom start) inferInstance fun span => ?_
  exact of_pure (⟨attrs, visibility, kind, span⟩ : Decl)

theorem isDangling_rename (ρ : Name → Name) (attrs : Attributes) (c : Cursor) :
    isDangling (rename ρ attrs) (rename ρ c) = isDangling attrs c := by
  have hempty : (rename ρ attrs).isEmpty = attrs.isEmpty := by
    show (List.isEmpty (attrs.docs.map _) && List.isEmpty (attrs.attributes.map _)) = _
    rw [List.isEmpty_map, List.isEmpty_map]
    rfl
  rw [isDangling, hempty, Blind.ask (f := Cursor.isAtEnd)]
  rfl

instance : Renames τ (decl r) (decl r) := by
  refine bind inferInstance fun start => bind inferInstance fun attrs => ?_
  exact bind_same (of_look (isDangling_rename τ.name attrs)) fun _ => ite inferInstance inferInstance

instance : Renames τ lineEnd lineEnd := by unfold lineEnd; infer_instance

instance : Renames τ (declLine r) (declLine r) :=
  bind inferInstance fun d => bind_same inferInstance fun _ => of_pure d

end Renames

end Grammar

/-! ## Modules -/

theorem TokenList.tagIndices_rename (ρ : Name → Name) (ts : TokenList) :
    (rename ρ ts).tagIndices = ts.tagIndices := by
  have htag : ∀ t : Token, (rename ρ t).tag = t.tag := by
    rintro ⟨kind, span, position⟩
    cases kind <;> rfl
  show (ts.tokens.map (rename ρ)).map _ = ts.tokens.map _
  rw [Array.map_map]
  exact congrArg (Array.map · ts.tokens) (funext fun t => congrArg Tag.index (htag t))

section Modules

variable {τ : Translation} {recovery : Recovery} {tags : Array Nat} {hashBang : Option Name}

/-- The same run with the other names. -/
def ModuleRun.translated (τ : Translation) (run : ModuleRun) : ModuleRun :=
  ⟨rename τ.name run.module, run.errors, run.state.translated τ, run.exhausted⟩

theorem ModuleRun.finish_translated (decls : List Decl) (errors : List SyntaxError) (s : State)
    (exhausted : Bool) :
    finish (rename τ.name hashBang) (rename τ.name decls) errors (s.translated τ) exhausted =
      (finish hashBang decls errors s exhausted).translated τ := by
  have hreverse : (rename τ.name decls).reverse = rename τ.name decls.reverse := List.map_reverse.symm
  rw [finish, hreverse]
  rfl

theorem skipped_translated (s : State) : skipped (s.translated τ) = (skipped s).translated τ :=
  congrArg (fun c => (⟨c, rename τ.name s.arena, τ.target⟩ : State))
    (Renames.skipNewlines_rename τ.name s.cursor)

theorem recover_translated (tags : Array Nat) (declStart : Nat) (s : State) :
    recover tags declStart (s.translated τ) = (recover tags declStart s).translated τ := by
  have hseek : ∀ i, (rename τ.name s.cursor).seek i = rename τ.name (s.cursor.seek i) := fun i => by
    unfold Cursor.seek
    rw [show (rename τ.name s.cursor).tokens = rename τ.name s.cursor.tokens from rfl,
      TokenList.size_rename]
    rfl
  exact congrArg (fun c => (⟨c, rename τ.name s.arena, τ.target⟩ : State)) (hseek _)

/-- The loop over declarations does the same with other names. -/
theorem parseDecls_translated (r : Rules) [r.Forward] [r.Renames τ] (n : Nat) (decls : List Decl)
    (errors : List SyntaxError) (s : State)
    (hs : (parseDecls recovery r tags hashBang n decls errors s).state.names.Kept τ.source) :
    parseDecls recovery r tags (rename τ.name hashBang) n (rename τ.name decls) errors (s.translated τ) =
      (parseDecls recovery r tags hashBang n decls errors s).translated τ := by
  induction n generalizing decls errors s with
  | zero => exact ModuleRun.finish_translated ..
  | succ n ih =>
    have hskipped := skipped_translated (τ := τ) s
    have hend' : (skipped (s.translated τ)).cursor.isAtEnd = (skipped s).cursor.isAtEnd := by
      rw [hskipped]
      exact Blind.ask (f := Cursor.isAtEnd) τ.name (skipped s).cursor
    have hline := (inferInstance : Renames τ (declLine r) (declLine r)).run (skipped s)
    cases hend : (skipped s).cursor.isAtEnd with
    | true =>
      rw [parseDecls_end hend, parseDecls_end (hend'.trans hend), hskipped, ModuleRun.finish_translated]
    | false =>
      rw [hend] at hend'
      rw [← hskipped] at hline
      cases hd : declLine r (skipped s) with
      | ok d t =>
        rw [hd] at hline
        rw [parseDecls_ok hend hd] at hs ⊢
        have hkept := (parseDecls_forward r n (d :: decls) errors t).1.trans hs
        rw [parseDecls_ok hend' (hline hkept)]
        exact ih (d :: decls) errors t hs
      | error e t =>
        rw [hd] at hline
        cases e with
        | exhausted =>
          rw [parseDecls_exhausted hend hd] at hs ⊢
          rw [parseDecls_exhausted hend' (hline hs), ModuleRun.finish_translated]
        | error e =>
          cases recovery with
          | strict =>
            rw [parseDecls_strict_error hend hd] at hs ⊢
            rw [parseDecls_strict_error hend' (hline hs), ModuleRun.finish_translated]
          | lenient =>
            rw [parseDecls_lenient_error hend hd] at hs ⊢
            have hkept := (parseDecls_forward r n decls (e :: errors) _).1.trans hs
            rw [parseDecls_lenient_error hend' (hline hkept), hskipped, recover_translated]
            exact ih decls (e :: errors) _ hs

theorem takeHashBang_translated (s : State) :
    takeHashBang (s.translated τ) =
      (rename τ.name (takeHashBang s).1, (takeHashBang s).2.translated τ) := by
  have hcurrent : (s.translated τ).cursor.current = rename τ.name s.cursor.current :=
    Cursor.current_rename τ.name s.cursor
  have hadvance : (s.translated τ).cursor.advance = _ := Renames.advance_rename τ.name s.cursor
  unfold takeHashBang
  rw [hcurrent, hadvance]
  obtain ⟨kind, span, position⟩ := s.cursor.current
  cases kind <;> rfl

/-- A parse does the same with other names, and adds no names if they are all there. -/
theorem parse_rename {tokens : TokenList} {names : Interner}
    (h : (parse tokens names recovery).2.Kept τ.source) :
    parse (rename τ.name tokens) τ.target recovery =
      (rename τ.name (parse tokens names recovery).1, τ.target) := by
  have hrun : parseModule recovery (.start (rename τ.name tokens) τ.target) =
      (parseModule recovery (.start tokens names)).translated τ := by
    have hstart : State.start (rename τ.name tokens) τ.target = (State.start tokens names).translated τ :=
      congrArg (fun a => (⟨.start (rename τ.name tokens), a, τ.target⟩ : State)) Arena.rename_empty.symm
    rw [parse_names, parseModule_eq] at h
    rw [parseModule_eq, parseModule_eq, TokenList.size_rename, TokenList.tagIndices_rename, hstart,
      takeHashBang_translated]
    exact parseDecls_translated (rules (tokens.size + 1)) (tokens.size + 1) [] [] _ h
  unfold parse
  rw [hrun]
  generalize parseModule recovery (.start tokens names) = run
  obtain ⟨module, errors, s, exhausted⟩ := run
  cases exhausted with
  | true => rfl
  | false =>
    cases recovery with
    | lenient => rfl
    | strict => cases errors <;> rfl

end Modules

/-! ## Two interners -/

/-- A table of all strings of two interners. -/
def Interner.joined (names names' : Interner) : Interner := ⟨#[""] ++ names.strings ++ names'.strings⟩

theorem Interner.lookup_mem (names : Interner) (n : Name) :
    names.lookup n = "" ∨ names.lookup n ∈ names.strings := by
  rw [lookup, Array.getD_eq_getD_getElem?]
  cases h : names.strings[n.index]? with
  | none => exact .inl rfl
  | some s => exact .inr (Array.mem_of_getElem? h)

namespace Translation

/-- The names of an interner, as names of a table with those of another one behind them. -/
def joinedLeft (names names' : Interner) : Translation where
  source := names
  target := names.joined names'
  holds n := by rcases names.lookup_mem n with e | e <;> simp [Interner.joined, e]

/-- The names of an interner, as names of a table with those of another one in front of them. -/
def joinedRight (names names' : Interner) : Translation where
  source := names'
  target := names.joined names'
  holds n := by rcases names'.lookup_mem n with e | e <;> simp [Interner.joined, e]

end Translation

open Translation in
/-- Parsing gives the same in any two interners, if the tokens are the same. -/
theorem parse_same {tokens tokens' : TokenList} (names names' : Interner) (recovery : Recovery)
    (h : (parse tokens names recovery).2.Same (parse tokens' names' recovery).2 tokens tokens') :
    (parse tokens names recovery).2.Same (parse tokens' names' recovery).2
      (parse tokens names recovery).1 (parse tokens' names' recovery).1 := by
  generalize hn : (parse tokens names recovery).2 = n at h ⊢
  generalize hn' : (parse tokens' names' recovery).2 = n' at h ⊢
  have kept : (parse tokens names recovery).2.Kept n := by
    rw [hn]
    exact .refl n
  have kept' : (parse tokens' names' recovery).2.Kept n' := by
    rw [hn']
    exact .refl n'
  have hleft : parse (rename (joinedLeft n n').name tokens) (n.joined n') recovery = _ :=
    parse_rename (τ := joinedLeft n n') kept
  have hright : parse (rename (joinedRight n n').name tokens') (n.joined n') recovery = _ :=
    parse_rename (τ := joinedRight n n') kept'
  have htokens : rename (joinedLeft n n').name tokens = rename (joinedRight n n').name tokens' :=
    h fun s => ((n.joined n').intern s).1
  rw [htokens, hright] at hleft
  intro code
  have hname : (fun x => code (n.lookup x)) =
      (fun x => code ((n.joined n').lookup x)) ∘ (joinedLeft n n').name :=
    funext fun x => congrArg code ((joinedLeft n n').lookup_name x).symm
  have hname' : (fun x => code (n'.lookup x)) =
      (fun x => code ((n.joined n').lookup x)) ∘ (joinedRight n n').name :=
    funext fun x => congrArg code ((joinedRight n n').lookup_name x).symm
  refine (congrArg (rename · _) hname).trans (Eq.trans ?_ (congrArg (rename · _) hname').symm)
  rw [← rename_rename, ← rename_rename, (Prod.mk.inj hleft).1]

/-- Parsing keeps all names. -/
theorem parse_kept (tokens : TokenList) (names : Interner) (recovery : Recovery) :
    names.Kept (parse tokens names recovery).2 := by
  have htake : (takeHashBang (.start tokens names)).2.names = names := by
    unfold takeHashBang
    split <;> rfl
  rw [parse_names, parseModule_eq]
  have hgrows (n : Nat) (s : State) : s.names.Kept
      (parseDecls recovery (rules n) tokens.tagIndices (takeHashBang (.start tokens names)).1 n [] [] s).state.names :=
    (parseDecls_forward (rules n) n [] [] s).1
  have hkept := hgrows (tokens.size + 1) (takeHashBang (.start tokens names)).2
  rwa [htake] at hkept

/-- Lexing and parsing give the same results whatever the interner holds. -/
theorem results_same (source : String) (names names' : Interner) (recovery : Recovery) :
    (lexWithComments source names).2.Same (lexWithComments source names').2
        (lexWithComments source names).1 (lexWithComments source names').1 ∧
      (parseSource source names recovery).2.Same (parseSource source names' recovery).2
        (parseSource source names recovery).1 (parseSource source names' recovery).1 := by
  refine ⟨lexWithComments_same source names names' (.refl _) (.refl _), ?_⟩
  have hlex : ∀ more more' : Interner, _ → _ → more.Same more' _ _ :=
    fun _ _ => lexWithComments_same source names names'
  unfold parseSource lex
  generalize lexWithComments source names = left at hlex ⊢
  generalize lexWithComments source names' = right at hlex ⊢
  obtain ⟨result, middle⟩ := left
  obtain ⟨result', middle'⟩ := right
  rcases (hlex middle middle' (.refl _) (.refl _)).cases with ⟨e, rfl, rfl⟩ | ⟨output, output', rfl, rfl, -⟩
  · exact fun _ => rfl
  · -- The tokens are the same in the interners that parsing leaves as well.
    have htokens := fun code => congrArg LexOutput.tokens <| Except.ok.inj <|
      hlex _ _ (parse_kept output.tokens middle recovery) (parse_kept output'.tokens middle' recovery) code
    have hparse := parse_same middle middle' recovery htokens
    dsimp only
    generalize parse output.tokens middle recovery = left at hparse ⊢
    generalize parse output'.tokens middle' recovery = right at hparse ⊢
    obtain ⟨parsed, final⟩ := left
    obtain ⟨parsed', final'⟩ := right
    rcases hparse.cases with ⟨e, rfl, rfl⟩ | ⟨a, a', rfl, rfl, ha⟩
    · exact fun _ => rfl
    · exact fun code => congrArg Except.ok (ha code)

end SolSyntax
