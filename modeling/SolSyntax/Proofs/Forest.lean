import SolSyntax.Proofs.Construction
import SolSyntax.Parsing

/-!
# The nodes of a module

Declarations are made of the nodes that their productions make, and a module of its declarations.  A
declaration that is given up leaves nodes behind which nobody uses; they are as well formed as all others.

Principal results: `parse_wellFormed` — all slots of a module that has been parsed are filled with what
they admit; `parse_isForest` — its nodes are a forest, and all of them are used if there was no error.
-/

namespace SolSyntax.Grammar

open Parse

section Declarations

variable {r : Rules} (h : r.Make)
include h

/-! ## What stands before a declaration -/

omit h in
theorem optionalArgs_make {p : Parse ExprId} {slot : Slot} (hp : Makes [] p fun id => [.expr slot id]) :
    Makes [] (optionalArgs p) fun ids => ids.map (.expr slot) := by
  refine .quiet fun _ => .ite (fun _ => ?_) fun _ => .give rfl
  have items : Makes [] (bracketed .rparen p) fun found => found.items.map (.expr slot) := by
    simpa only [flatMap_expr] using Makes.bracketed hp
  exact items.first fun found => .give rfl

theorem attr_makes : Makes [] (attr r) Attribute.uses := by
  refine .quiet fun start => .quiet fun name => ?_
  exact (optionalArgs_make (value_makes h)).first fun args => .quiet fun span => .give rfl

/-- The parts of a doc-string or attribute. -/
def Attachment.uses : Attachment → List Use
  | .doc _ => []
  | .attr value => value.uses

theorem attachment_makes :
    Makes [] (attachment r) fun o => o.toList.flatMap Attachment.uses := by
  refine .quiet fun token => ?_
  unfold attachmentOf
  split
  · exact .quiet fun _ => .quiet fun _ => .give rfl
  · refine ((attr_makes h).within _).first fun value => .quiet fun _ => .give ?_
    simp [Attachment.uses]
  · exact .give rfl

omit h in
theorem collect_uses (attachments : List Attachment) :
    (Attachment.collect attachments).uses = attachments.flatMap Attachment.uses := by
  induction attachments with
  | nil => rfl
  | cons a attachments ih =>
    cases a with
    | doc text => exact ih
    | attr value => exact congrArg (value.uses ++ ·) ih

theorem attributes_make : Makes [] (attributes r) Attributes.uses :=
  (Makes.many (attachment_makes h)).first fun attachments => .give (collect_uses attachments).symm

/-! ## Declarations -/

theorem declParams_make : Makes [] (declParams r) fun params => params.flatMap ParamSet.uses :=
  .many (.optionally (paramSet_makes h))

theorem lineArgs_make : Makes [] (lineArgs r) fun ids => ids.map (.expr .expr) := by
  refine .quiet fun _ => .ite (fun _ => .give rfl) fun _ => (value_makes h).first fun first => ?_
  have others : Makes [] (many (optionally (accept .comma) r.value)) fun ids => ids.map (.expr .expr) := by
    simpa only [flatMap_expr] using Makes.many (.optionally (value_makes h))
  exact others.first fun ids => .give rfl

theorem constructor_makes : Makes [] (constructor r) Constructor.uses := by
  refine .quiet fun start => (attributes_make h).first fun attrs => .quiet fun name => ?_
  have kind : Makes [] (constructorKind r) ConstructorKind.uses := by
    refine .quiet fun _ => .ite (fun _ => ?_) fun _ => ?_
    · exact (type_makes h).first fun type => .give rfl
    · exact (optionalArgs_make (type_makes h)).first fun fields => .give rfl
  exact kind.first fun k => .quiet fun span => .give rfl

theorem inductiveDecl_makes : Makes [] (inductiveDecl r) DeclKind.uses := by
  refine .quiet fun _ => .quiet fun name => (declParams_make h).first fun params => ?_
  refine (optionalType_makes h).first fun type => ?_
  exact (Makes.braced ((constructor_makes h).within _) fun _ => .give rfl).first fun found => .give rfl

theorem signatureDecl_makes : Makes [] (signatureDecl r) DeclKind.uses := by
  refine .quiet fun name => (declParams_make h).first fun params => ?_
  refine (optionalType_makes h).first fun type => ?_
  exact (Makes.optionally h.block).first fun body => .give rfl

theorem clauseDecl_makes : Makes [] (clauseDecl r) DeclKind.uses := by
  refine .quiet fun name => (atoms_make atom_makes).first fun patterns => .quiet fun _ => ?_
  exact (optionally_makes ((value_makes h).within _)).first fun value => .give rfl

theorem declKind_makes : Makes [] (declKind r) DeclKind.uses := by
  refine .quiet fun tag => ?_
  have named : Makes [] (namedDecl r) DeclKind.uses :=
    .quiet fun _ => .ite (fun _ => clauseDecl_makes h) fun _ => signatureDecl_makes h
  unfold declKindOf
  split
  · exact .quiet fun _ => .quiet fun name => .give rfl
  · exact .quiet fun _ => .quiet fun name => (lineArgs_make h).first fun args => .give rfl
  · exact (inductiveDecl_makes h).within _
  · exact named
  · exact named
  · exact .failWanting _ _

theorem declLine_makes : Makes [] (declLine r) Decl.uses := by
  have made : Makes [] (decl r) Decl.uses := by
    refine .quiet fun start => (attributes_make h).first fun attrs => .quiet fun _ => ?_
    refine .ite (fun _ => .fail _) fun _ => .quiet fun visibility => ?_
    exact (declKind_makes h).first fun kind => .quiet fun span => .give rfl
  exact made.first fun d => .quiet fun _ => .give rfl

end Declarations

end SolSyntax.Grammar

namespace SolSyntax

open Grammar

/-- A run holds the parts of its declarations; if there was no error, it holds nothing else. -/
def ModuleRun.Holds (run : ModuleRun) : Prop :=
  ∃ lost, run.state.arena.Balanced (run.module.uses ++ lost) ∧
    (run.exhausted = false → run.errors = [] → lost = [])

/-- What a run has lost it has lost to an error. -/
theorem parseDecls_holds {r : Rules} (hr : r.Make) {recovery : Recovery} {tags : Array Nat}
    {hashBang : Option Name} {n : Nat} {decls : List Decl} {errors : List SyntaxError} {s : State}
    {lost : List Use} (hs : s.arena.Balanced (decls.reverse.flatMap Decl.uses ++ lost))
    (hlost : errors = [] → lost = []) :
    (parseDecls recovery r tags hashBang n decls errors s).Holds := by
  induction n generalizing decls errors s lost with
  | zero => exact ⟨lost, hs, fun e => by cases e⟩
  | succ n ih =>
    unfold parseDecls
    dsimp only
    split
    · exact ⟨lost, hs, fun _ e => hlost (List.reverse_eq_nil_iff.1 e)⟩
    · have made := declLine_makes hr { s with cursor := s.cursor.skipNewlines }
        (decls.reverse.flatMap Decl.uses ++ lost) (by rw [List.append_nil]; exact hs)
      split
      · rename_i d s' hd
        rw [hd] at made
        refine ih (made.perm ?_) hlost
        rw [List.reverse_cons, List.flatMap_append, List.append_assoc, List.append_assoc]
        refine .append_left _ ?_
        rw [List.flatMap_singleton]
        exact List.perm_append_comm
      · rename_i s' hd
        rw [hd] at made
        obtain ⟨more, hmore⟩ := made
        rw [List.append_assoc] at hmore
        exact ⟨_, hmore, fun e => by cases e⟩
      · rename_i e s' hd
        rw [hd] at made
        obtain ⟨more, hmore⟩ := made
        rw [List.append_assoc] at hmore
        split
        · exact ⟨_, hmore, fun _ h => by simp [ModuleRun.finish] at h⟩
        · exact ih hmore fun h => by cases h

/-- Who has parsed a module holds its parts; if there was no error, nothing else. -/
theorem parse_balanced {tokens : TokenList} {names : Interner} {recovery : Recovery}
    {output : ParseOutput} (h : (parse tokens names recovery).1 = .ok output) :
    ∃ lost, output.arena.Balanced (output.module.uses ++ lost) ∧ (output.errors = [] → lost = []) := by
  obtain ⟨lost, hrun, hlost⟩ : (parseModule recovery (.start tokens names)).Holds := by
    have hstart : (State.start tokens names).arena.Balanced ([] ++ []) := .empty
    refine parseDecls_holds (rules_make _) ?_ fun _ => rfl
    split <;> exact hstart
  obtain ⟨hbound, -, rfl⟩ := (parse_ok_iff rfl).1 h
  exact ⟨lost, hrun, hlost hbound⟩

/-- All nodes of a module are proper, and all slots are filled with what they admit. -/
theorem parse_wellFormed {tokens : TokenList} {names : Interner} {recovery : Recovery}
    {output : ParseOutput} (h : (parse tokens names recovery).1 = .ok output) :
    output.arena.WellFormed output.module := by
  obtain ⟨lost, hbalanced, -⟩ := parse_balanced h
  exact hbalanced.wellFormed

/-- `f = a b -> c`, whose domain is read as a value first. -/
def domainClause : List Token :=
  [.ident ⟨1⟩, .eq, .ident ⟨2⟩, .ident ⟨3⟩, .arrow, .ident ⟨4⟩].map (⟨·, .dummy, .first⟩)

theorem domainClause_wellFormed :
    ∃ output, (parse (.ofTokens (domainClause ++ [⟨.eof, .dummy, .first⟩])) .new .strict).1 = .ok output ∧
      output.arena.WellFormed output.module := by
  have succeeds : (parse (.ofTokens (domainClause ++ [⟨.eof, .dummy, .first⟩])) .new .strict).1.isOk =
      true := by
    decide +kernel
  generalize hrun : (parse (.ofTokens (domainClause ++ [⟨.eof, .dummy, .first⟩])) .new .strict).1 = run
    at succeeds
  cases run with
  | error e => cases succeeds
  | ok output => exact ⟨output, rfl, parse_wellFormed hrun⟩

/-- The nodes of a module are a forest.  Without an error each of them is used. -/
theorem parse_isForest {tokens : TokenList} {names : Interner} {recovery : Recovery}
    {output : ParseOutput} (h : (parse tokens names recovery).1 = .ok output) :
    output.arena.IsForest output.module ∧ (output.errors = [] → output.arena.IsUsed output.module) := by
  obtain ⟨lost, hbalanced, hlost⟩ := parse_balanced h
  refine ⟨hbalanced.isForest, fun herrors => ?_⟩
  rw [hlost herrors, List.append_nil] at hbalanced
  exact hbalanced.isUsed

/-- The clause with a bracket behind it is given up, and its nodes are still a forest; on its own all of
its nodes are used. -/
theorem domainClause_isForest :
    ∃ whole broken,
      (parse (.ofTokens (domainClause ++ [⟨.eof, .dummy, .first⟩])) .new .strict).1 = .ok whole ∧
      whole.arena.IsForest whole.module ∧ whole.arena.IsUsed whole.module ∧
      (parse (.ofTokens (domainClause ++ [⟨.rparen, .dummy, .first⟩, ⟨.eof, .dummy, .first⟩])) .new
        .lenient).1 = .ok broken ∧
      broken.module.decls = [] ∧ broken.arena.IsForest broken.module := by
  have check : (match (parse (.ofTokens (domainClause ++ [⟨.eof, .dummy, .first⟩])) .new .strict).1 with
      | .ok whole => whole.errors == []
      | .error _ => false) = true := by
    decide +kernel
  have check' : (match (parse (.ofTokens (domainClause ++ [⟨.rparen, .dummy, .first⟩,
        ⟨.eof, .dummy, .first⟩])) .new .lenient).1 with
      | .ok broken => broken.module.decls == []
      | .error _ => false) = true := by
    decide +kernel
  generalize hwhole : (parse (.ofTokens (domainClause ++ [⟨.eof, .dummy, .first⟩])) .new .strict).1 = run
    at check
  generalize hbroken : (parse (.ofTokens (domainClause ++ [⟨.rparen, .dummy, .first⟩,
    ⟨.eof, .dummy, .first⟩])) .new .lenient).1 = run' at check'
  cases run with
  | error e => cases check
  | ok whole =>
    cases run' with
    | error e => cases check'
    | ok broken =>
      obtain ⟨forest, used⟩ := parse_isForest hwhole
      exact ⟨whole, broken, rfl, forest, used (eq_of_beq check), rfl, eq_of_beq check',
        (parse_isForest hbroken).1⟩

end SolSyntax
