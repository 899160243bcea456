import SolSyntax.Proofs.WrittenExprs

/-!
# How declarations are written

Attributes, constructors and declarations take the tokens of one part, too.  Doc-strings and attributes
come before the name of a constructor and before the visibility of a declaration, and belong to it.

Principal result: `declLine_reads` — a declaration has the span of the tokens it takes, down to its last
part.
-/

namespace SolSyntax.Grammar

open Parse

variable {ts : TokenList} {s t u : State} {r : Rules}

/-! ## What stands before a declaration -/

theorem optionalArgs_takes (hts : ts.InOrder) {p : Parse ExprId}
    (hp : Reads ts p fun id => [.part (.expr id)]) {ids : List ExprId} (hs : Inside ts s)
    (h : optionalArgs p s = .ok ids t) : ∃ row, Args ids row ∧ Takes ts s t row := by
  unfold optionalArgs at h
  obtain ⟨c, s₁, h₁, h⟩ := bind_eq_ok.1 h
  obtain ⟨m, hc⟩ := check_ok h₁
  have asked := Takes.of_moved hs m
  split at h
  · rename_i hparen
    rw [hc] at hparen
    obtain ⟨found, s₂, h₂, h⟩ := bind_eq_ok.1 h
    cases h
    have htag := m.currentTag.trans (eq_of_beq hparen)
    have list := (hp.bracketed hts asked.after htag (by decide) (by decide) h₂).1
    exact ⟨_, .listed _, list.start m⟩
  · cases h
    exact ⟨[], .none, asked⟩

theorem attr_takes (hts : ts.InOrder) (hr : r.Read ts) {a : Attribute} (hs : Inside ts s)
    (htag : s.cursor.currentTag = .atSign) (h : attr r s = .ok a t) :
    Takes ts s t [.part (.attr a)] := by
  unfold attr at h
  simp only [bind_eq_ok] at h
  obtain ⟨start, s₁, h₁, name, s₂, h₂, args, s₃, h₃, span, s₄, h₄, h⟩ := h
  cases h
  have first := advance_current hs h₁ htag (by decide)
  have name_takes := path_reads hts first.takes.after h₂
  obtain ⟨row, hargs, args_take⟩ := optionalArgs_takes hts (value_reads hr) name_takes.after h₃
  have rest := name_takes.trans args_take
  have whole := first.takes.trans rest
  obtain ⟨rfl, hspan⟩ := whole.covers_spanFrom hts first.covers rest.le h₄
  exact whole.part (.attr hargs) hspan

/-- A doc-string or an attribute and the line breaks after it. -/
def Attachment.signs : Attachment → List Sign
  | .doc _ => [.token [.docString], .gap breaks]
  | .attr a => [.part (.attr a), .gap breaks]

theorem heading_collect (attachments : List Attachment) :
    Heading (Attachment.collect attachments) (attachments.flatMap Attachment.signs) := by
  induction attachments with
  | nil => exact .none
  | cons a attachments ih =>
    cases a with
    | doc text => exact .doc text ih
    | attr a => exact .attr a ih

theorem attachmentOf_takes (hts : ts.InOrder) (hr : r.Read ts) {token : Token} {o : Option Attachment}
    (hs : Inside ts s) (htoken : token = s.cursor.current) (h : attachmentOf r token s = .ok o t) :
    Takes ts s t (o.toList.flatMap Attachment.signs) := by
  have kind_eq : ∀ {kind}, token.kind = kind → s.cursor.currentTag = kind.tag :=
    fun hkind => currentTag_of_kind (htoken ▸ hkind)
  generalize hp : attachmentOf r token = p at h
  unfold attachmentOf at hp
  split at hp <;> subst hp
  · rename_i hkind
    simp only [bind_eq_ok] at h
    obtain ⟨tok, s₁, h₁, _, s₂, h₂, h⟩ := h
    cases h
    have doc := advance_current hs h₁ (kind_eq hkind) (fun e => by cases e)
    exact doc.takes.trans (skipNewlines_takes doc.takes.after h₂)
  · rename_i hkind
    simp only [bind_eq_ok] at h
    obtain ⟨a, s₁, h₁, _, s₂, h₂, h⟩ := h
    cases h
    have attr := attr_takes hts hr hs (kind_eq hkind) (within_ok h₁)
    exact attr.trans (skipNewlines_takes attr.after h₂)
  · cases h
    exact .refl hs

theorem attributes_takes (hts : ts.InOrder) (hr : r.Read ts) {attrs : Attributes} (hs : Inside ts s)
    (h : attributes r s = .ok attrs t) : ∃ row, Heading attrs row ∧ Takes ts s t row := by
  unfold attributes at h
  obtain ⟨attachments, s₁, h₁, h⟩ := bind_eq_ok.1 h
  cases h
  have item : Reads ts (attachment r) fun o => o.toList.flatMap Attachment.signs := by
    intro s o t hs h
    unfold attachment at h
    obtain ⟨token, s₁, h₁, h⟩ := bind_eq_ok.1 h
    cases h₁
    exact attachmentOf_takes hts hr hs rfl h
  exact ⟨_, heading_collect _, item.many hs h₁⟩

theorem visibility_reads : Reads ts visibility fun o => o.toList.map fun v => .token [v.tag] := by
  intro s o t hs h
  unfold visibility at h
  obtain ⟨token, s₁, h₁, h⟩ := bind_eq_ok.1 h
  obtain ⟨rfl, rfl⟩ : token = s.cursor.current ∧ s₁ = s := by
    cases h₁
    exact ⟨rfl, rfl⟩
  generalize hkind : s₁.cursor.current.kind = kind at h
  unfold visibilityOf at h
  have htag := currentTag_of_kind hkind
  rw [hkind] at h
  cases hv : kind.visibility? with
  | none =>
    rw [hv] at h
    cases h
    exact .refl hs
  | some v =>
    rw [hv] at h
    obtain ⟨tok, s₂, h₂, h⟩ := bind_eq_ok.1 h
    cases h
    have heq : kind.tag = v.tag ∧ v.tag ≠ .eof := by
      cases kind <;> cases hv <;> exact ⟨rfl, fun e => by cases e⟩
    exact (advance_current hs h₂ (htag.trans heq.1) heq.2).takes

/-! ## Parts of declarations -/

theorem startsDeclParams_ok {c : Bool} (h : startsDeclParams s = .ok c t) : Moved 0 s t := by
  unfold startsDeclParams at h
  obtain ⟨c₁, s₁, h₁, h⟩ := bind_eq_ok.1 h
  have m₁ := (check_ok h₁).1
  split at h
  · cases h
    exact m₁
  · obtain ⟨c₂, s₂, h₂, h⟩ := bind_eq_ok.1 h
    have m₂ := m₁.trans (check_ok h₂).1
    split at h <;> cases h <;> exact m₂

section

variable (hts : ts.InOrder) (hr : r.Read ts)
include hts hr

theorem declParams_reads : Reads ts (declParams r) fun params =>
    params.map fun p => .part (.paramSet p) := by
  intro s params t hs h
  show Takes ts s t (params.map fun p => .part (.paramSet p))
  rw [List.map_eq_flatMap]
  exact ((paramSet_reads hts hr).optionally fun _ _ _ h => startsDeclParams_ok h).many hs h

omit hts in
/-- Arguments with commas between them. -/
theorem lineArgs_reads : Reads ts (lineArgs r) fun ids =>
    ids.flatMap fun id => [.gap [.comma], .part (.expr id)] := by
  intro s ids t hs h
  unfold lineArgs at h
  obtain ⟨c, s₁, h₁, h⟩ := bind_eq_ok.1 h
  cases h₁
  split at h
  · cases h
    exact .refl hs
  · unfold commandArgs at h
    simp only [bind_eq_ok] at h
    obtain ⟨first, s₁, h₁, others, s₂, h₂, h⟩ := h
    cases h
    have head := value_reads hr hs h₁
    have item : Reads ts (optionally (accept .comma) r.value) fun o =>
        o.toList.flatMap fun id => [.gap [.comma], .part (.expr id)] := by
      intro s o t hs h
      unfold optionally at h
      obtain ⟨c, s₁, h₁, h⟩ := bind_eq_ok.1 h
      have comma := accept_takes hs h₁ (by decide)
      split at h <;> rename_i hc
      · rw [if_pos hc] at comma
        obtain ⟨id, s₂, h₂, h⟩ := bind_eq_ok.1 h
        cases h
        exact (comma.gap_of_token (by decide)).trans (value_reads hr comma.after h₂)
      · rw [if_neg hc] at comma
        cases h
        exact comma
    have gap : Takes ts s s [.gap [.comma]] := (Takes.refl hs).gap_of_nil
    exact (gap.trans head).trans (item.many head.after h₂)

theorem constructorKind_takes {kind : ConstructorKind} (hs : Inside ts s)
    (h : constructorKind r s = .ok kind t) : ∃ row, kind.Writes row ∧ Takes ts s t row := by
  unfold constructorKind at h
  obtain ⟨c, s₁, h₁, h⟩ := bind_eq_ok.1 h
  have colon := accept_takes hs h₁ (by decide)
  split at h <;> rename_i hc
  · rw [if_pos hc] at colon
    obtain ⟨type, s₂, h₂, h⟩ := bind_eq_ok.1 h
    cases h
    exact ⟨_, .signature type, colon.trans (type_reads hr colon.after h₂)⟩
  · rw [if_neg hc] at colon
    obtain ⟨ids, s₂, h₂, h⟩ := bind_eq_ok.1 h
    cases h
    obtain ⟨row, hargs, args⟩ := optionalArgs_takes hts (type_reads hr) colon.after h₂
    exact ⟨row, .function hargs, colon.trans args⟩

theorem constructor_reads : Reads ts (constructor r) fun c => [.part (.constructor c)] := by
  intro s c t hs h
  unfold constructor at h
  obtain ⟨start, s₀, h₀, h⟩ := bind_eq_ok.1 h
  cases h₀
  simp only [bind_eq_ok] at h
  obtain ⟨attrs, s₁, h₁, name, s₂, h₂, kind, s₃, h₃, span, s₄, h₄, h⟩ := h
  cases h
  obtain ⟨row, heading, before⟩ := attributes_takes hts hr hs h₁
  have ident := expectIdent_takes before.after h₂
  obtain ⟨row', hkind, behind⟩ := constructorKind_takes hts hr ident.after h₃
  have whole := before.trans (ident.trans behind)
  have hlt := whole.written.lt_of_part (by simp)
  obtain ⟨rfl, hspan⟩ := whole.covers_spanFrom hts (whole.covers_first hlt) hlt h₄
  have hw : t.arena.Writes (.constructor ⟨attrs, name, kind, span⟩) _ := .constructor heading hkind
  exact whole.part hw hspan

/-! ## The forms of declarations -/

omit hr in
theorem usingDecl_takes {kind : DeclKind} (hs : Inside ts s) (htag : s.cursor.currentTag = .kwUsing)
    (h : usingDecl s = .ok kind t) : Takes ts s t kind.signs := by
  unfold usingDecl at h
  simp only [bind_eq_ok] at h
  obtain ⟨tok, s₁, h₁, name, s₂, h₂, h⟩ := h
  cases h
  have first := (advance_current hs h₁ htag (by decide)).takes
  exact first.trans (path_reads hts first.after h₂)

theorem commandDecl_takes {kind : DeclKind} (hs : Inside ts s) (htag : s.cursor.currentTag = .hash)
    (h : commandDecl r s = .ok kind t) : Takes ts s t kind.signs := by
  unfold commandDecl at h
  simp only [bind_eq_ok] at h
  obtain ⟨tok, s₁, h₁, name, s₂, h₂, args, s₃, h₃, h⟩ := h
  cases h
  have first := (advance_current hs h₁ htag (by decide)).takes
  have name_takes := path_reads hts first.after h₂
  exact first.trans (name_takes.trans (lineArgs_reads hr name_takes.after h₃))

theorem inductiveDecl_takes {kind : DeclKind} (hs : Inside ts s)
    (htag : s.cursor.currentTag = .kwInductive) (h : inductiveDecl r s = .ok kind t) :
    Takes ts s t kind.signs := by
  unfold inductiveDecl at h
  simp only [bind_eq_ok] at h
  obtain ⟨tok, s₁, h₁, name, s₂, h₂, params, s₃, h₃, type, s₄, h₄, found, s₅, h₅, h⟩ := h
  cases h
  have first := (advance_current hs h₁ htag (by decide)).takes
  have name_takes := path_reads hts first.after h₂
  have params_take := declParams_reads hts hr name_takes.after h₃
  have typed := optionalType_reads hr params_take.after h₄
  have list := (((constructor_reads hts hr).within _).braced .eatSeparators
    (fun _ _ _ _ h => by cases h; exact .refl _) hts (by decide) typed.after h₅).1
  have whole := first.trans (name_takes.trans (params_take.trans (typed.trans list)))
  simpa [DeclKind.signs] using whole

theorem signatureDecl_reads : Reads ts (signatureDecl r) DeclKind.signs := by
  intro s kind t hs h
  unfold signatureDecl at h
  simp only [bind_eq_ok] at h
  obtain ⟨name, s₁, h₁, params, s₂, h₂, type, s₃, h₃, body, s₄, h₄, h⟩ := h
  cases h
  have name_takes := path_reads hts hs h₁
  have params_take := declParams_reads hts hr name_takes.after h₂
  have typed := optionalType_reads hr params_take.after h₃
  have block := hr.block.optionally (fun _ _ _ h => (check_ok h).1) typed.after h₄
  have whole := name_takes.trans (params_take.trans (typed.trans block))
  simpa [DeclKind.signs, List.map_eq_flatMap] using whole

theorem clauseDecl_reads : Reads ts (clauseDecl r) DeclKind.signs := by
  intro s kind t hs h
  unfold clauseDecl at h
  simp only [bind_eq_ok] at h
  obtain ⟨name, s₁, h₁, patterns, s₂, h₂, tok, s₃, h₃, value, s₄, h₄, h⟩ := h
  cases h
  have name_takes := path_reads hts hs h₁
  have row := atoms_read (atom_reads hts) (fun _ _ _ h => (isBefore_ok h).1) name_takes.after h₂
  have eq := (advance_current row.after h₃ (many_isBefore h₂) (by decide)).takes
  have right := ((value_reads hr).within _).optionally
    (fun _ _ _ h => by cases h; exact .refl _) eq.after h₄
  have whole := name_takes.trans (row.trans (eq.trans right))
  simpa [DeclKind.signs, List.map_eq_flatMap] using whole

theorem declKind_reads : Reads ts (declKind r) DeclKind.signs := by
  intro s kind t hs h
  unfold declKind at h
  obtain ⟨tag, s₁, h₁, h⟩ := bind_eq_ok.1 h
  cases h₁
  have named : ∀ {kind}, namedDecl r s = .ok kind t → Takes ts s t kind.signs := by
    intro kind h
    unfold namedDecl at h
    obtain ⟨c, s₁, h₁, h⟩ := bind_eq_ok.1 h
    cases h₁
    split at h
    · exact clauseDecl_reads hts hr hs h
    · exact signatureDecl_reads hts hr hs h
  generalize htag : s.cursor.currentTag = tag at h
  generalize hp : declKindOf r tag = p at h
  unfold declKindOf at hp
  split at hp <;> subst hp
  · exact usingDecl_takes hts hs htag h
  · exact commandDecl_takes hts hr hs htag h
  · exact inductiveDecl_takes hts hr hs htag (within_ok h)
  · exact named h
  · exact named h
  · cases h

omit hts hr in
theorem DeclKind.parts_ne_nil (kind : DeclKind) : partsIn kind.signs ≠ [] := by
  cases kind <;> simp [DeclKind.signs]

theorem decl_reads : Reads ts (decl r) fun d => [.part (.decl d)] := by
  intro s d t hs h
  unfold decl at h
  obtain ⟨start, s₀, h₀, h⟩ := bind_eq_ok.1 h
  cases h₀
  obtain ⟨attrs, s₁, h₁, h⟩ := bind_eq_ok.1 h
  obtain ⟨dangling, s₂, h₂, h⟩ := bind_eq_ok.1 h
  obtain rfl : s₁ = s₂ := by
    cases h₂
    rfl
  split at h
  · cases h
  · unfold attributed at h
    simp only [bind_eq_ok] at h
    obtain ⟨vis, s₃, h₃, kind, s₄, h₄, span, s₅, h₅, h⟩ := h
    cases h
    obtain ⟨row, heading, before⟩ := attributes_takes hts hr hs h₁
    have vis_takes := visibility_reads before.after h₃
    have kind_takes := declKind_reads hts hr vis_takes.after h₄
    have whole := (before.trans vis_takes).trans kind_takes
    have hlt := whole.written.lt_of_part (by simp [DeclKind.parts_ne_nil])
    obtain ⟨rfl, hspan⟩ := whole.covers_spanFrom hts (whole.covers_first hlt) hlt h₅
    have hw : t.arena.Writes (.decl ⟨attrs, vis, kind, span⟩) _ := .decl heading
    exact whole.part hw hspan

omit hts hr in
theorem lineEnd_ok {x : Unit} (h : lineEnd s = .ok x t) : Moved 0 s t := by
  unfold lineEnd at h
  obtain ⟨c₁, s₁, h₁, h⟩ := bind_eq_ok.1 h
  have m₁ := (check_ok h₁).1
  split at h
  · cases h
    exact m₁
  · obtain ⟨c₂, s₂, h₂, h⟩ := bind_eq_ok.1 h
    have m₂ := m₁.trans (check_ok h₂).1
    split at h <;> cases h
    exact m₂

/-- A declaration has the span of its tokens, and so have all its parts. -/
theorem declLine_reads : Reads ts (declLine r) fun d => [.part (.decl d)] := by
  intro s d t hs h
  unfold declLine at h
  simp only [bind_eq_ok] at h
  obtain ⟨d', s₁, h₁, _, s₂, h₂, h⟩ := h
  cases h
  exact (decl_reads hts hr hs h₁).stay (lineEnd_ok h₂)

end

end SolSyntax.Grammar
