import SolSyntax.Proofs.Slots

/-!
# Who uses what

While nodes are made, everything stored is used just once: as a part of a stored node, or by whoever
holds it to make it a part later.  `Balanced a held` says so, and that all slots are filled with what
they admit.  A new node takes its parts out of what is held and is held itself; reading a value again as
a type changes no part of any node.

Principal results: `Balanced.newExpr`, `Balanced.newPattern` — a new node; `Balanced.toType` — reading
a value as a type; `Balanced.isForest`, `Balanced.wellFormed`, `Balanced.isUsed` — what follows when the
held parts are those of a module.
-/

namespace SolSyntax

@[simp] theorem exprsIn_append (us vs : List Use) :
    exprsIn (us ++ vs) = exprsIn us ++ exprsIn vs := List.filterMap_append

@[simp] theorem patternsIn_append (us vs : List Use) :
    patternsIn (us ++ vs) = patternsIn us ++ patternsIn vs := List.filterMap_append

/-- The same uses, of which some ask for less. -/
inductive Widened : List Use → List Use → Prop
  | nil : Widened [] []
  | expr {us vs s t} (id) : s.Within t → Widened us vs → Widened (.expr s id :: us) (.expr t id :: vs)
  | pattern {us vs} (id) : Widened us vs → Widened (.pattern id :: us) (.pattern id :: vs)

namespace Widened

theorem refl (us : List Use) : Widened us us := by
  induction us with
  | nil => exact .nil
  | cons u us ih =>
    cases u with
    | expr slot id => exact .expr id (.refl slot) ih
    | pattern id => exact .pattern id ih

theorem append {us vs us' vs' : List Use} (h : Widened us us') (k : Widened vs vs') :
    Widened (us ++ vs) (us' ++ vs') := by
  induction h with
  | nil => exact k
  | expr id hw _ ih => exact .expr id hw ih
  | pattern id _ ih => exact .pattern id ih

/-- One use asks for less. -/
theorem one {s t : Slot} (h : s.Within t) (id : ExprId) : Widened [.expr s id] [.expr t id] :=
  .expr id h .nil

theorem exprsIn_eq {us vs : List Use} (h : Widened us vs) : exprsIn us = exprsIn vs := by
  induction h with
  | nil => rfl
  | expr id _ _ ih => exact congrArg (id :: ·) ih
  | pattern _ _ ih => exact ih

theorem patternsIn_eq {us vs : List Use} (h : Widened us vs) : patternsIn us = patternsIn vs := by
  induction h with
  | nil => rfl
  | expr _ _ _ ih => exact ih
  | pattern id _ ih => exact congrArg (id :: ·) ih

theorem exists_mem {us vs : List Use} (h : Widened us vs) {t : Slot} {id : ExprId}
    (hm : Use.expr t id ∈ vs) : ∃ s, Use.expr s id ∈ us ∧ s.Within t := by
  induction h with
  | nil => cases hm
  | expr i hw _ ih =>
    rcases List.mem_cons.1 hm with he | hm
    · cases he
      exact ⟨_, List.mem_cons_self, hw⟩
    · obtain ⟨s, hs, hw⟩ := ih hm
      exact ⟨s, List.mem_cons_of_mem _ hs, hw⟩
  | pattern i _ ih =>
    rcases List.mem_cons.1 hm with he | hm
    · cases he
    · obtain ⟨s, hs, hw⟩ := ih hm
      exact ⟨s, List.mem_cons_of_mem _ hs, hw⟩

end Widened

namespace Arena

/-- All expressions that are stored, in order. -/
def exprIds (a : Arena) : List ExprId := (List.range a.exprs.size).map ExprId.mk

/-- All patterns that are stored, in order. -/
def patternIds (a : Arena) : List PatternId := (List.range a.patterns.size).map PatternId.mk

theorem mem_exprIds {a : Arena} {id : ExprId} : id ∈ a.exprIds ↔ id.index < a.exprs.size := by
  obtain ⟨i⟩ := id
  simp [exprIds]

theorem mem_patternIds {a : Arena} {id : PatternId} :
    id ∈ a.patternIds ↔ id.index < a.patterns.size := by
  obtain ⟨i⟩ := id
  simp [patternIds]

theorem nodup_exprIds (a : Arena) : a.exprIds.Nodup :=
  List.Pairwise.map ExprId.mk (fun _ _ h e => h (ExprId.mk.inj e)) List.nodup_range

theorem nodup_patternIds (a : Arena) : a.patternIds.Nodup :=
  List.Pairwise.map PatternId.mk (fun _ _ h e => h (PatternId.mk.inj e)) List.nodup_range

@[simp] theorem exprIds_newExpr (a : Arena) (e : Expr) :
    (a.newExpr e).2.exprIds = a.exprIds ++ [(a.newExpr e).1] := by
  simp [exprIds, newExpr, List.range_succ]

@[simp] theorem patternIds_newExpr (a : Arena) (e : Expr) :
    (a.newExpr e).2.patternIds = a.patternIds := rfl

@[simp] theorem exprIds_newPattern (a : Arena) (p : Pattern) :
    (a.newPattern p).2.exprIds = a.exprIds := rfl

@[simp] theorem patternIds_newPattern (a : Arena) (p : Pattern) :
    (a.newPattern p).2.patternIds = a.patternIds ++ [(a.newPattern p).1] := by
  simp [patternIds, newPattern, List.range_succ]

theorem uses_newExpr (a : Arena) (e : Expr) :
    (a.newExpr e).2.uses.Perm (a.uses ++ e.kind.uses) := by
  simp only [uses, newExpr, Array.toList_push, List.flatMap_append, List.flatMap_cons,
    List.flatMap_nil, List.append_nil, List.append_assoc]
  exact .append_left _ List.perm_append_comm

theorem uses_newPattern (a : Arena) (p : Pattern) :
    (a.newPattern p).2.uses.Perm (a.uses ++ p.kind.uses) := by
  simp [uses, newPattern]

/-- Where nothing is stored yet, the next index is found. -/
theorem expr?_newExpr_cases {a : Arena} {e e' : Expr} {id : ExprId}
    (h : (a.newExpr e).2.expr? id = some e') :
    a.expr? id = some e' ∨ id = (a.newExpr e).1 ∧ e' = e := by
  have hlt : id.index < a.exprs.size + 1 := by
    have := (Array.getElem?_eq_some_iff.1 h).1
    simpa [newExpr] using this
  rcases Nat.lt_succ_iff_lt_or_eq.1 hlt with hlt | heq
  · rw [expr?_newExpr_of_lt a e hlt] at h
    exact .inl h
  · have hid : id = (a.newExpr e).1 := by
      obtain ⟨i⟩ := id
      exact congrArg ExprId.mk heq
    rw [hid, expr?_newExpr] at h
    exact .inr ⟨hid, (Option.some.inj h).symm⟩

theorem pattern?_newPattern_cases {a : Arena} {p p' : Pattern} {id : PatternId}
    (h : (a.newPattern p).2.pattern? id = some p') :
    a.pattern? id = some p' ∨ id = (a.newPattern p).1 ∧ p' = p := by
  have hlt : id.index < a.patterns.size + 1 := by
    have := (Array.getElem?_eq_some_iff.1 h).1
    simpa [newPattern] using this
  rcases Nat.lt_succ_iff_lt_or_eq.1 hlt with hlt | heq
  · rw [pattern?_newPattern_of_lt a p hlt] at h
    exact .inl h
  · have hid : id = (a.newPattern p).1 := by
      obtain ⟨i⟩ := id
      exact congrArg PatternId.mk heq
    rw [hid, pattern?_newPattern] at h
    exact .inr ⟨hid, (Option.some.inj h).symm⟩

theorem Fills.newExpr {a : Arena} {slot : Slot} {id : ExprId} (h : a.Fills slot id) (e : Expr) :
    (a.newExpr e).2.Fills slot id := by
  obtain ⟨e', he, hs⟩ := h
  have hlt : id.index < a.exprs.size := (Array.getElem?_eq_some_iff.1 he).1
  exact ⟨e', by rw [expr?_newExpr_of_lt a e hlt, he], hs⟩

/-- Everything stored is used once, in a node or by whoever holds it, and all slots are filled. -/
structure Balanced (a : Arena) (held : List Use) : Prop where
  exprs : (exprsIn (a.uses ++ held)).Perm a.exprIds
  patterns : (patternsIn (a.uses ++ held)).Perm a.patternIds
  filled : ∀ slot id, Use.expr slot id ∈ a.uses ++ held → a.Fills slot id
  exprsBefore : ∀ id e, a.expr? id = some e → ∀ part ∈ exprsIn e.kind.uses, part.index < id.index
  patternsBefore : ∀ id p, a.pattern? id = some p →
    ∀ part ∈ patternsIn p.kind.uses, part.index < id.index
  proper : ∀ id e, a.expr? id = some e → e.kind.IsProper

namespace Balanced

variable {a : Arena} {held held' : List Use}

theorem empty : Balanced .empty [] where
  exprs := .refl _
  patterns := .refl _
  filled := fun _ _ h => by cases h
  exprsBefore := fun _ _ h => by cases h
  patternsBefore := fun _ _ h => by cases h
  proper := fun _ _ h => by cases h

/-- In which order things are held does not matter. -/
theorem perm (h : a.Balanced held) (hp : held.Perm held') : a.Balanced held' where
  exprs := ((hp.symm.append_left a.uses).filterMap _).trans h.exprs
  patterns := ((hp.symm.append_left a.uses).filterMap _).trans h.patterns
  filled := fun slot id hm => h.filled slot id (((hp.append_left a.uses).mem_iff).2 hm)
  exprsBefore := h.exprsBefore
  patternsBefore := h.patternsBefore
  proper := h.proper

theorem fills (h : a.Balanced held) {slot : Slot} {id : ExprId} (hm : Use.expr slot id ∈ held) :
    a.Fills slot id := h.filled slot id (List.mem_append_right _ hm)

/-- What is held may ask for less. -/
theorem widen (h : a.Balanced held) (hw : Widened held held') : a.Balanced held' where
  exprs := by
    rw [exprsIn_append, ← hw.exprsIn_eq, ← exprsIn_append]
    exact h.exprs
  patterns := by
    rw [patternsIn_append, ← hw.patternsIn_eq, ← patternsIn_append]
    exact h.patterns
  filled := by
    intro slot id hm
    rcases List.mem_append.1 hm with hm | hm
    · exact h.filled slot id (List.mem_append_left _ hm)
    · obtain ⟨s, hs, hwithin⟩ := hw.exists_mem hm
      obtain ⟨e, he, hadm⟩ := h.fills hs
      exact ⟨e, he, hwithin _ hadm⟩
  exprsBefore := h.exprsBefore
  patternsBefore := h.patternsBefore
  proper := h.proper

/-- The last thing held may be moved to another slot that admits it. -/
theorem move {s t : Slot} {id : ExprId} (h : a.Balanced (held ++ [.expr s id]))
    (hm : ∀ e, a.expr? id = some e → s.admits e.kind = true → t.admits e.kind = true) :
    a.Balanced (held ++ [.expr t id]) where
  exprs := by
    have := h.exprs
    rw [exprsIn_append, exprsIn_append] at this ⊢
    exact this
  patterns := by
    have := h.patterns
    rw [patternsIn_append, patternsIn_append] at this ⊢
    exact this
  filled := by
    intro slot i hmem
    rw [← List.append_assoc] at hmem
    rcases List.mem_append.1 hmem with hmem | hmem
    · refine h.filled slot i ?_
      rw [← List.append_assoc]
      exact List.mem_append_left _ hmem
    · cases List.mem_singleton.1 hmem
      obtain ⟨e, he, hadm⟩ := h.fills (List.mem_append_right held (List.mem_singleton.2 rfl))
      exact ⟨e, he, hm e he hadm⟩
  exprsBefore := h.exprsBefore
  patternsBefore := h.patternsBefore
  proper := h.proper

theorem lt_of_mem_exprs (h : a.Balanced held) {id : ExprId} (hm : id ∈ exprsIn (a.uses ++ held)) :
    id.index < a.exprs.size := mem_exprIds.1 ((h.exprs.mem_iff).1 hm)

theorem lt_of_mem_patterns (h : a.Balanced held) {id : PatternId}
    (hm : id ∈ patternsIn (a.uses ++ held)) : id.index < a.patterns.size :=
  mem_patternIds.1 ((h.patterns.mem_iff).1 hm)

/-! ## New nodes -/

/-- A new node takes its parts out of what is held. -/
theorem uses_taken {old new taken : List Use} (h : new.Perm (old ++ taken)) (held us : List Use) :
    (new ++ (held ++ us)).Perm (old ++ (held ++ taken) ++ us) := by
  refine (h.append_right _).trans ?_
  simp only [List.append_assoc]
  refine .append_left _ ?_
  rw [← List.append_assoc, ← List.append_assoc held]
  exact .append_right _ List.perm_append_comm

theorem newExpr {kind : ExprKind} {slot : Slot} (h : a.Balanced (held ++ kind.uses))
    (hproper : kind.IsProper) (hslot : slot.admits kind = true) (span : Span) :
    (a.newExpr ⟨kind, span⟩).2.Balanced (held ++ [.expr slot (a.newExpr ⟨kind, span⟩).1]) := by
  have huses := uses_taken (uses_newExpr a ⟨kind, span⟩) held
  refine ⟨?_, ?_, ?_, ?_, h.patternsBefore, ?_⟩
  · refine ((huses _).filterMap _).trans ?_
    rw [List.filterMap_append, exprIds_newExpr]
    exact h.exprs.append_right _
  · refine ((huses _).filterMap _).trans ?_
    rw [List.filterMap_append, patternIds_newExpr]
    exact (List.append_nil _).symm ▸ h.patterns
  · intro s id hm
    rcases List.mem_append.1 (((huses _).mem_iff).1 hm) with hm | hm
    · exact (h.filled s id hm).newExpr _
    · cases List.mem_singleton.1 hm
      exact ⟨_, expr?_newExpr a ⟨kind, span⟩, hslot⟩
  · intro id e he part hpart
    rcases expr?_newExpr_cases he with he | ⟨rfl, rfl⟩
    · exact h.exprsBefore id e he part hpart
    · refine h.lt_of_mem_exprs ?_
      rw [exprsIn_append, exprsIn_append]
      exact List.mem_append_right _ (List.mem_append_right _ hpart)
  · intro id e he
    rcases expr?_newExpr_cases he with he | ⟨-, rfl⟩
    · exact h.proper id e he
    · exact hproper

theorem newPattern {kind : PatternKind} (h : a.Balanced (held ++ kind.uses)) (span : Span) :
    (a.newPattern ⟨kind, span⟩).2.Balanced (held ++ [.pattern (a.newPattern ⟨kind, span⟩).1]) := by
  have huses := uses_taken (uses_newPattern a ⟨kind, span⟩) held
  refine ⟨?_, ?_, ?_, h.exprsBefore, ?_, h.proper⟩
  · refine ((huses _).filterMap _).trans ?_
    rw [List.filterMap_append, exprIds_newPattern]
    exact (List.append_nil _).symm ▸ h.exprs
  · refine ((huses _).filterMap _).trans ?_
    rw [List.filterMap_append, patternIds_newPattern]
    exact h.patterns.append_right _
  · intro s id hm
    rcases List.mem_append.1 (((huses _).mem_iff).1 hm) with hm | hm
    · exact h.filled s id hm
    · cases List.mem_singleton.1 hm
  · intro id p hp part hpart
    rcases pattern?_newPattern_cases hp with hp | ⟨rfl, rfl⟩
    · exact h.patternsBefore id p hp part hpart
    · refine h.lt_of_mem_patterns ?_
      rw [patternsIn_append, patternsIn_append]
      exact List.mem_append_right _ (List.mem_append_right _ hpart)

end Balanced

/-! ## Reading a value as a type -/

/-- A change of kind concerns one expression. -/
theorem expr?_setKind_cases {a : Arena} {id j : ExprId} {kind : ExprKind} {e' : Expr}
    (h : (a.setKind id kind).expr? j = some e') :
    (j ≠ id ∧ a.expr? j = some e') ∨ ∃ e, j = id ∧ a.expr? id = some e ∧ e' = { e with kind } := by
  simp only [expr?, setKind, Array.getElem?_modify] at h
  by_cases hj : id.index = j.index
  · rw [if_pos hj] at h
    obtain ⟨e, he, rfl⟩ := Option.map_eq_some_iff.1 h
    obtain ⟨i⟩ := id
    obtain ⟨j⟩ := j
    cases hj
    exact .inr ⟨e, rfl, he, rfl⟩
  · rw [if_neg hj] at h
    exact .inl ⟨fun e => hj (congrArg ExprId.index e).symm, h⟩

/-- A node that gets another kind with the same parts uses what it used. -/
theorem uses_setKind {a : Arena} {id : ExprId} {e : Expr} {kind : ExprKind} (h : a.expr? id = some e)
    (huses : kind.uses = e.kind.uses) : (a.setKind id kind).uses = a.uses := by
  have hmap : (a.setKind id kind).exprs.toList.map (·.kind.uses) = a.exprs.toList.map (·.kind.uses) := by
    refine List.ext_getElem? fun i => ?_
    rw [List.getElem?_map, List.getElem?_map, Array.getElem?_toList, Array.getElem?_toList, setKind,
      Array.getElem?_modify]
    by_cases hi : id.index = i
    · rw [if_pos hi, ← hi, show a.exprs[id.index]? = some e from h]
      simp [huses]
    · rw [if_neg hi]
  simp only [uses, List.flatMap_def, hmap]
  rfl

/-- Some applications of values have become applications of types, and nothing else has changed. -/
structure Retyped (a b : Arena) : Prop where
  balanced : ∀ held, a.Balanced held → b.Balanced held
  stored : ∀ id e, b.expr? id = some e →
    a.expr? id = some e ∨ ∃ callee args, e.kind = .typeApp callee args

namespace Retyped

theorem refl (a : Arena) : a.Retyped a := ⟨fun _ h => h, fun _ _ h => .inl h⟩

theorem trans {a b c : Arena} (h : a.Retyped b) (k : b.Retyped c) : a.Retyped c :=
  ⟨fun held hb => k.balanced held (h.balanced held hb),
    fun id e he => (k.stored id e he).elim (h.stored id e) .inr⟩

/-- No application of a value is new. -/
theorem old {a b : Arena} (h : a.Retyped b) {id : ExprId} {e : Expr} (he : b.expr? id = some e)
    (happ : e.kind.isApp = true) : a.expr? id = some e := by
  rcases h.stored id e he with hold | ⟨callee, args, hk⟩
  · exact hold
  · rw [hk] at happ
    cases happ

/-- One application becomes one of a type. -/
theorem setKind {a : Arena} {id : ExprId} {e : Expr} {callee : ExprId} {args : List ExprId}
    (h : a.expr? id = some e) (hk : e.kind = .app callee args none) :
    a.Retyped (a.setKind id (.typeApp callee args)) := by
  have huses : (ExprKind.typeApp callee args).uses = e.kind.uses := by
    rw [hk]
    simp [ExprKind.uses]
  refine ⟨fun held hb => ⟨?_, ?_, ?_, ?_, hb.patternsBefore, ?_⟩, ?_⟩
  · rw [uses_setKind h huses, exprIds, Arena.setKind, Array.size_modify]
    exact hb.exprs
  · rw [uses_setKind h huses]
    exact hb.patterns
  · intro slot j hm
    rw [uses_setKind h huses] at hm
    obtain ⟨e', he', hadm⟩ := hb.filled slot j hm
    by_cases hj : j = id
    · rw [hj, h] at he'
      cases he'
      rw [hk] at hadm
      refine ⟨{ e with kind := .typeApp callee args }, ?_, Slot.admits_typeApp hadm⟩
      simp only [expr?] at h
      simp [hj, expr?, Arena.setKind, Array.getElem?_modify, h]
    · have hne : id.index ≠ j.index := fun e => hj (by
        obtain ⟨i⟩ := id
        obtain ⟨j⟩ := j
        exact congrArg ExprId.mk e.symm)
      exact ⟨e', by simpa [expr?, Arena.setKind, Array.getElem?_modify, hne] using he', hadm⟩
  · intro j e' he'
    obtain ⟨-, he'⟩ | ⟨e₀, rfl, he₀, rfl⟩ := expr?_setKind_cases he'
    · exact hb.exprsBefore j e' he'
    · rw [h] at he₀
      cases he₀
      intro part hpart
      exact hb.exprsBefore j e h part (huses ▸ hpart)
  · intro j e' he'
    obtain ⟨-, he'⟩ | ⟨e₀, rfl, he₀, rfl⟩ := expr?_setKind_cases he'
    · exact hb.proper j e' he'
    · have hproper := hb.proper j e h
      rw [hk] at hproper
      exact hproper.resolve_right fun e => by cases e
  · intro j e' he'
    obtain ⟨-, he'⟩ | ⟨e₀, rfl, he₀, rfl⟩ := expr?_setKind_cases he'
    · exact .inl he'
    · exact .inr ⟨callee, args, rfl⟩

theorem forEach {f : ExprId → Arena → Except BlockInType Unit × Arena}
    (hf : ∀ (id : ExprId) (a : Arena), a.Retyped (f id a).2) (ids : List ExprId) (a : Arena) :
    a.Retyped (Arena.forEach f ids a).2 := forEach_related refl trans hf ids a

theorem retag (fuel : Nat) (id : ExprId) (a : Arena) : a.Retyped (retag fuel id a).2 :=
  retag_related refl trans setKind fuel id a

end Retyped

/-- What has been read as a type is no application of a value. -/
theorem not_isApp_of_toType {a b : Arena} {id : ExprId} {e : Expr} (h : a.toType id = (.ok (), b))
    (he : b.expr? id = some e) : e.kind.isApp = false := by
  cases happ : e.kind.isApp with
  | false => rfl
  | true =>
    -- it would have been an application all the time
    have old : ∀ (c : Arena) (ids : List ExprId), Arena.forEach (retag id.index) ids c = (.ok (), b) →
        c.expr? id = some e := fun c ids hc =>
      (Retyped.forEach (Retyped.retag _) ids c).old (by rw [hc]; exact he) happ
    unfold toType retag at h
    split at h
    case h_1 => cases h
    case h_2 callee args hk =>
      obtain ⟨e₀, he₀, -⟩ := Option.map_eq_some_iff.1 hk
      obtain ⟨hne, -⟩ | ⟨e₁, -, -, rfl⟩ := expr?_setKind_cases (old _ _ h)
      · exact absurd rfl hne
      · cases happ
    case h_8 _ blocked plain _ _ _ _ _ =>
      cases h
      obtain ⟨kind, span⟩ := e
      cases kind with
      | app callee args block =>
        cases block with
        | none => exact (plain callee args (by rw [he]; rfl)).elim
        | some b => exact (blocked callee args b (by rw [he]; rfl)).elim
      | _ => cases happ
    all_goals
      rename_i hk
      rw [old _ _ h] at hk
      have hk' := Option.some.inj hk
      rw [hk'] at happ
      cases happ

namespace Balanced

variable {a : Arena} {held : List Use} {m : Module}

/-- Reading as a type what is held. -/
theorem toType {s t : Slot} {id : ExprId} (h : a.Balanced (held ++ [.expr s id])) {b : Arena}
    (hb : a.toType id = (.ok (), b))
    (ht : ∀ k, s.admits k = true → k.isApp = false → t.admits k = true) :
    b.Balanced (held ++ [.expr t id]) := by
  have retyped : a.Retyped (a.toType id).2 := .retag _ _ _
  rw [hb] at retyped
  exact (retyped.balanced _ h).move fun e he hadm => ht _ hadm (not_isApp_of_toType hb he)

/-! ## A whole module -/

/-- What declarations and others hold is a forest. -/
theorem isForest {others : List Use} (h : a.Balanced (m.uses ++ others)) : a.IsForest m := by
  have hsplit : a.uses ++ (m.uses ++ others) = a.uses ++ m.uses ++ others :=
    (List.append_assoc _ _ _).symm
  have hexprs := (h.exprs.nodup_iff).2 a.nodup_exprIds
  have hpatterns := (h.patterns.nodup_iff).2 a.nodup_patternIds
  rw [hsplit, exprsIn_append] at hexprs
  rw [hsplit, patternsIn_append] at hpatterns
  refine ⟨h.exprsBefore, h.patternsBefore, fun id e he part hpart => ?_, fun part hpart => ?_,
    fun part hpart => ?_, (List.nodup_append.1 hexprs).1, (List.nodup_append.1 hpatterns).1⟩
  · refine h.lt_of_mem_patterns ?_
    rw [patternsIn_append]
    refine List.mem_append_left _ ?_
    have hmem : e ∈ a.exprs.toList := Array.mem_def.1 (Array.mem_of_getElem? he)
    simp only [patternsIn, List.mem_filterMap] at hpart ⊢
    obtain ⟨u, hu, hp⟩ := hpart
    exact ⟨u, List.mem_append_left _ (List.mem_flatMap.2 ⟨e, hmem, hu⟩), hp⟩
  · refine h.lt_of_mem_exprs ?_
    rw [exprsIn_append, exprsIn_append]
    exact List.mem_append_right _ (List.mem_append_left _ hpart)
  · refine h.lt_of_mem_patterns ?_
    rw [patternsIn_append, patternsIn_append]
    exact List.mem_append_right _ (List.mem_append_left _ hpart)

theorem wellFormed {others : List Use} (h : a.Balanced (m.uses ++ others)) : a.WellFormed m := by
  refine ⟨h.proper, fun id e he slot part hpart => ?_, fun d hd slot part hpart => ?_⟩
  · have hmem : e ∈ a.exprs.toList := Array.mem_def.1 (Array.mem_of_getElem? he)
    exact h.filled slot part
      (List.mem_append_left _ (List.mem_append_left _ (List.mem_flatMap.2 ⟨e, hmem, hpart⟩)))
  · exact h.fills (List.mem_append_left _ (List.mem_flatMap.2 ⟨d, hd, hpart⟩))

/-- If nobody else holds anything, everything is used. -/
theorem isUsed (h : a.Balanced m.uses) : a.IsUsed m := by
  refine ⟨fun id hid => ?_, fun id hid => ?_⟩
  · rw [h.exprs.count_eq, a.nodup_exprIds.count, if_pos (mem_exprIds.2 hid)]
  · rw [h.patterns.count_eq, a.nodup_patternIds.count, if_pos (mem_patternIds.2 hid)]

end Balanced

end Arena

end SolSyntax
