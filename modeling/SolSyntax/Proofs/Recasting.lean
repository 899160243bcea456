import SolSyntax.Proofs.Slots

/-!
# What becomes a type with the whole

Where an expression is read as a type, so are some of its parts: what is applied and what it is applied
to, operands, annotated values, and what stands in brackets.  Reading a stored expression again as a type
recasts the applications among them, and nothing else.

Principal results: `Arena.retag_asTypes` — in an arena where some expressions are types already, reading
again does what it does where they are values; `Arena.retag_eq` — where all are types it does nothing;
`Arena.retag_settles` — afterwards all are types.
-/

namespace SolSyntax

/-! ## Forms and their parts -/

/-- The type that a parameter ranges over. -/
def ParamKind.type? : ParamKind → Option ExprId
  | .typed _ type => some type
  | _ => none

/-- The domain, where it stands for a parameter list. -/
def ParamSet.domains (p : ParamSet) : List ExprId :=
  match p.kind with
  | .domain => p.params.filterMap (·.kind.type?)
  | _ => []

namespace ExprKind

/-- The form that an expression has in a type. -/
def asType : ExprKind → ExprKind
  | app callee args none => typeApp callee args
  | kind => kind

/-- The parts that are types where the whole is one.  A domain is a type wherever it stands. -/
def typeParts : ExprKind → List ExprId
  | app callee args _ | typeApp callee args => callee :: args
  | binary lhs _ rhs => [lhs, rhs]
  | ann value _ => [value]
  | group inner => [inner]
  | tuple items _ | array items => items
  | pi params _ => params.domains
  | _ => []

/-- The forms that reading again as a type takes to be types already. -/
def isSealed : ExprKind → Bool
  | typeApp _ _ | pi _ _ => true
  | _ => false

@[simp] theorem typeParts_asType (kind : ExprKind) : kind.asType.typeParts = kind.typeParts := by
  unfold asType
  split <;> rfl

@[simp] theorem asType_asType (kind : ExprKind) : kind.asType.asType = kind.asType := by
  cases kind with
  | app callee args block => cases block <;> rfl
  | _ => rfl

theorem asType_of_not_isApp {kind : ExprKind} (h : kind.isApp = false) : kind.asType = kind := by
  cases kind with
  | app => cases h
  | _ => rfl

/-- Every part that is a type with the whole is a part of it. -/
theorem mem_uses_of_mem_typeParts {kind : ExprKind} {part : ExprId} (h : part ∈ kind.typeParts) :
    part ∈ exprsIn kind.uses := by
  have items : ∀ {slot : Slot} {ids : List ExprId}, part ∈ ids → part ∈ exprsIn (ids.map (.expr slot)) :=
    fun {slot ids} hmem => List.mem_filterMap.2 ⟨.expr slot part, List.mem_map_of_mem hmem, rfl⟩
  unfold typeParts at h
  split at h
  · rename_i callee args block
    rcases List.mem_cons.1 h with rfl | h
    · exact List.mem_cons_self
    · refine List.mem_cons_of_mem _ ?_
      rw [List.filterMap_append]
      exact List.mem_append_left _ (items h)
  · rename_i callee args
    rcases List.mem_cons.1 h with rfl | h
    · exact List.mem_cons_self
    · exact List.mem_cons_of_mem _ (items h)
  · simpa [exprsIn, uses, Use.expr?] using h
  · simp only [List.mem_singleton] at h
    subst h
    exact List.mem_cons_self
  · simpa [exprsIn, uses, Use.expr?] using h
  · exact items h
  · exact items h
  · rename_i params result
    unfold ParamSet.domains at h
    split at h
    · rename_i hkind
      obtain ⟨p, hp, htype⟩ := List.mem_filterMap.1 h
      refine List.mem_filterMap.2 ⟨.expr .domain part, ?_, rfl⟩
      refine List.mem_append_left _ (List.mem_flatMap.2 ⟨p, hp, ?_⟩)
      rw [hkind]
      cases hk : p.kind <;> rw [hk] at htype <;> cases htype
      exact List.mem_append_right _ (List.mem_singleton.2 rfl)
    · cases h
  · cases h

end ExprKind

/-- The same expression in a type. -/
def Expr.asType (e : Expr) : Expr := { e with kind := e.kind.asType }

@[simp] theorem Expr.asType_asType (e : Expr) : e.asType.asType = e.asType := by
  simp [Expr.asType]

@[simp] theorem Expr.kind_asType (e : Expr) : e.asType.kind = e.kind.asType := rfl

namespace Arena

/-- What is a type if `root` is one. -/
inductive TypedWith (a : Arena) (root : ExprId) : ExprId → Prop
  | root : TypedWith a root root
  | part {id e part} : TypedWith a root id → a.expr? id = some e → part ∈ e.kind.typeParts →
      TypedWith a root part

/-- What is a type if all of `roots` are. -/
def TypedWithAny (a : Arena) (roots : List ExprId) (id : ExprId) : Prop :=
  ∃ root ∈ roots, a.TypedWith root id

/-- Expressions that are types only together with their parts. -/
def IsClosed (a : Arena) (S : ExprId → Prop) : Prop :=
  ∀ id e part, S id → a.expr? id = some e → part ∈ e.kind.typeParts → S part

theorem isClosed_typedWith (a : Arena) (root : ExprId) : a.IsClosed (a.TypedWith root) :=
  fun _ _ _ h he hpart => .part h he hpart

theorem isClosed_true (a : Arena) : a.IsClosed fun _ => True := fun _ _ _ _ _ _ => trivial

/-- With a root whatever is a type with it lies in a closed set. -/
theorem TypedWith.mem {a : Arena} {S : ExprId → Prop} {root id : ExprId} (h : a.TypedWith root id)
    (hc : a.IsClosed S) (hroot : S root) : S id := by
  induction h with
  | root => exact hroot
  | part _ he hpart ih => exact hc _ _ _ ih he hpart

theorem TypedWith.trans {a : Arena} {root id i : ExprId} (h : a.TypedWith root id)
    (k : a.TypedWith id i) : a.TypedWith root i := k.mem (a.isClosed_typedWith root) h

/-- What is a type with a root is the root itself, or is one with a part of it. -/
theorem TypedWith.cases_root {a : Arena} {root id : ExprId} (h : a.TypedWith root id) :
    id = root ∨ ∃ e, a.expr? root = some e ∧ a.TypedWithAny e.kind.typeParts id := by
  induction h with
  | root => exact .inl rfl
  | @part id e part _ he hpart ih =>
    obtain rfl | ⟨e', he', r, hr, hid⟩ := ih
    · exact .inr ⟨e, he, part, hpart, .root⟩
    · exact .inr ⟨e', he', r, hr, hid.part he hpart⟩

/-! ## Recast arenas -/

/-- Some of the applications in `S` have become types. -/
structure RecastIn (S : ExprId → Prop) (a b : Arena) : Prop where
  patterns : b.patterns = a.patterns
  expr : ∀ id, b.expr? id = a.expr? id ∨ S id ∧ b.expr? id = (a.expr? id).map Expr.asType

/-- All of the applications in `S` have become types. -/
structure AsTypes (S : ExprId → Prop) (a b : Arena) : Prop where
  patterns : b.patterns = a.patterns
  inside : ∀ id, S id → b.expr? id = (a.expr? id).map Expr.asType
  outside : ∀ id, ¬S id → b.expr? id = a.expr? id

namespace RecastIn

variable {S S' : ExprId → Prop} {a b c : Arena}

theorem refl (S : ExprId → Prop) (a : Arena) : a.RecastIn S a := ⟨rfl, fun _ => .inl rfl⟩

theorem mono (h : RecastIn S a b) (hS : ∀ id, S id → S' id) : RecastIn S' a b :=
  ⟨h.patterns, fun id => (h.expr id).imp_right fun ⟨hid, he⟩ => ⟨hS id hid, he⟩⟩

theorem trans (h : RecastIn S a b) (k : RecastIn S b c) : RecastIn S a c := by
  refine ⟨k.patterns.trans h.patterns, fun id => ?_⟩
  obtain hk | ⟨hid, hk⟩ := k.expr id
  · rw [hk]
    exact h.expr id
  · obtain hh | ⟨-, hh⟩ := h.expr id
    · exact .inr ⟨hid, hh ▸ hk⟩
    · refine .inr ⟨hid, ?_⟩
      rw [hk, hh, Option.map_map]
      exact congrFun (congrArg _ (funext Expr.asType_asType)) _

/-- What is stored in the one arena is stored in the other, perhaps as a type. -/
theorem exists_of_expr? (h : RecastIn S a b) {id : ExprId} {e : Expr} (he : a.expr? id = some e) :
    ∃ e', b.expr? id = some e' ∧ (e' = e ∨ S id ∧ e' = e.asType) := by
  obtain hb | ⟨hid, hb⟩ := h.expr id
  · exact ⟨e, hb.trans he, .inl rfl⟩
  · exact ⟨e.asType, by rw [hb, he]; rfl, .inr ⟨hid, rfl⟩⟩

theorem exists_of_expr?' (h : RecastIn S a b) {id : ExprId} {e' : Expr} (he : b.expr? id = some e') :
    ∃ e, a.expr? id = some e ∧ (e' = e ∨ S id ∧ e' = e.asType) := by
  obtain hb | ⟨hid, hb⟩ := h.expr id
  · exact ⟨e', hb ▸ he, .inl rfl⟩
  · rw [he] at hb
    obtain ⟨e, hold, rfl⟩ := Option.map_eq_some_iff.1 hb.symm
    exact ⟨e, hold, .inr ⟨hid, rfl⟩⟩

/-- Parts stay the same. -/
theorem typeParts_eq {id : ExprId} {e e' : Expr} (h : e' = e ∨ S id ∧ e' = e.asType) :
    e'.kind.typeParts = e.kind.typeParts := by
  obtain rfl | ⟨-, rfl⟩ := h
  · rfl
  · exact e.kind.typeParts_asType

theorem isClosed_iff (h : RecastIn S a b) : b.IsClosed S' ↔ a.IsClosed S' := by
  refine ⟨fun hc id e part hid he hpart => ?_, fun hc id e' part hid he' hpart => ?_⟩
  · obtain ⟨e', he', hsame⟩ := h.exists_of_expr? he
    exact hc id e' part hid he' (typeParts_eq hsame ▸ hpart)
  · obtain ⟨e, he, hsame⟩ := h.exists_of_expr?' he'
    exact hc id e part hid he (typeParts_eq hsame ▸ hpart)

theorem typedWith_iff (h : RecastIn S a b) {root id : ExprId} :
    b.TypedWith root id ↔ a.TypedWith root id :=
  ⟨fun k => k.mem (h.isClosed_iff.2 (a.isClosed_typedWith root)) .root,
    fun k => k.mem (h.isClosed_iff.1 (b.isClosed_typedWith root)) .root⟩

theorem typedWithAny_iff (h : RecastIn S a b) {roots : List ExprId} {id : ExprId} :
    b.TypedWithAny roots id ↔ a.TypedWithAny roots id := by
  simp only [TypedWithAny, h.typedWith_iff]

/-- The arenas have room for the same expressions. -/
theorem size_eq (h : RecastIn S a b) : b.exprs.size = a.exprs.size := by
  have stored : ∀ i, i < b.exprs.size ↔ i < a.exprs.size := by
    intro i
    have hsome : (b.expr? ⟨i⟩).isSome = (a.expr? ⟨i⟩).isSome := by
      obtain he | ⟨-, he⟩ := h.expr ⟨i⟩ <;> simp [he]
    rw [Bool.eq_iff_iff] at hsome
    simpa [expr?] using hsome
  have h₁ := stored a.exprs.size
  have h₂ := stored b.exprs.size
  omega

theorem exprSpan_eq (h : RecastIn S a b) (id : ExprId) : b.exprSpan id = a.exprSpan id := by
  unfold exprSpan
  obtain he | ⟨-, he⟩ := h.expr id
  · rw [he]
  · rw [he, Option.map_map]
    rfl

theorem patternSpan_eq (h : RecastIn S a b) (id : PatternId) : b.patternSpan id = a.patternSpan id := by
  rw [patternSpan, patternSpan, pattern?, pattern?, h.patterns]

end RecastIn

namespace AsTypes

variable {S S' : ExprId → Prop} {a b c : Arena}

theorem refl (a : Arena) : AsTypes (fun _ => False) a a := ⟨rfl, fun _ h => h.elim, fun _ _ => rfl⟩

theorem recastIn (h : AsTypes S a b) : RecastIn S a b := by
  refine ⟨h.patterns, fun id => ?_⟩
  by_cases hid : S id
  · exact .inr ⟨hid, h.inside id hid⟩
  · exact .inl (h.outside id hid)

theorem congr (h : AsTypes S a b) (hS : ∀ id, S id ↔ S' id) : AsTypes S' a b :=
  ⟨h.patterns, fun id hid => h.inside id ((hS id).2 hid), fun id hid => h.outside id (mt (hS id).1 hid)⟩

/-- What was a type in the one arena may be one in the other already. -/
theorem recast (h : AsTypes S a c) (k : RecastIn S a b) : AsTypes S b c := by
  refine ⟨h.patterns.trans k.patterns.symm, fun id hid => ?_, fun id hid => ?_⟩
  · rw [h.inside id hid]
    obtain he | ⟨-, he⟩ := k.expr id
    · rw [he]
    · rw [he, Option.map_map]
      exact congrFun (congrArg _ (funext fun e => e.asType_asType.symm)) _
  · rw [h.outside id hid]
    obtain he | ⟨hin, -⟩ := k.expr id
    · exact he.symm
    · exact (hid hin).elim

/-- The same application becomes a type in both arenas. -/
theorem setKind (h : AsTypes S a b) {id : ExprId} (hid : ¬S id) (kind : ExprKind) :
    AsTypes S (a.setKind id kind) (b.setKind id kind) := by
  have found (x : Arena) (i : ExprId) : (x.setKind id kind).expr? i =
      if id.index = i.index then (x.expr? i).map ({ · with kind }) else x.expr? i := by
    simp only [expr?, Arena.setKind, Array.getElem?_modify]
  refine ⟨h.patterns, fun i hi => ?_, fun i hi => ?_⟩
  · have hne : id.index ≠ i.index := fun he => hid (by
      obtain ⟨n⟩ := id
      obtain ⟨n'⟩ := i
      exact (show n = n' from he) ▸ hi)
    rw [found, found, if_neg hne, if_neg hne, h.inside i hi]
  · rw [found, found, h.outside i hi]

end AsTypes

/-! ## Reading again -/

/-- One application that becomes a type. -/
theorem recastIn_setKind {a : Arena} {id callee : ExprId} {args : List ExprId} {e : Expr}
    (he : a.expr? id = some e) (hk : e.kind = .app callee args none) {S : ExprId → Prop} (hid : S id) :
    RecastIn S a (a.setKind id (.typeApp callee args)) := by
  refine ⟨rfl, fun i => ?_⟩
  by_cases hi : id.index = i.index
  · obtain ⟨n⟩ := id
    obtain ⟨n'⟩ := i
    cases show n = n' from hi
    refine .inr ⟨hid, ?_⟩
    simp only [expr?] at he ⊢
    simp [setKind, Array.getElem?_modify, he, Expr.asType, hk, ExprKind.asType]
  · exact .inl (by simp [expr?, setKind, Array.getElem?_modify, hi])

theorem expr?_setKind_self {a : Arena} {id : ExprId} {e : Expr} (he : a.expr? id = some e)
    (kind : ExprKind) : (a.setKind id kind).expr? id = some { e with kind } := by
  simp only [expr?] at he ⊢
  simp [setKind, Array.getElem?_modify, he]

section Retag

variable {S : ExprId → Prop} {f : ExprId → Arena → Except BlockInType Unit × Arena}

theorem forEach_recastIn (hf : ∀ id a, a.IsClosed S → S id → RecastIn S a (f id a).2)
    (ids : List ExprId) (a : Arena) (hc : a.IsClosed S) (hids : ∀ id ∈ ids, S id) :
    RecastIn S a (forEach f ids a).2 := by
  induction ids generalizing a with
  | nil => exact .refl S a
  | cons id ids ih =>
    have first := hf id a hc (hids id List.mem_cons_self)
    unfold forEach
    split
    · rename_i b hb
      rw [hb] at first
      exact first.trans (ih b (first.isClosed_iff.2 hc) fun i hi => hids i (List.mem_cons_of_mem _ hi))
    · rename_i e b hb
      rw [hb] at first
      exact first

/-- Reading again recasts only what is a type with the whole. -/
theorem retag_recastIn (n : Nat) (id : ExprId) (a : Arena) (hc : a.IsClosed S) (hid : S id) :
    RecastIn S a (retag n id a).2 := by
  induction n generalizing id a with
  | zero => exact .refl S a
  | succ n ih =>
    have enter (ids : List ExprId) (b : Arena) (hb : b.IsClosed S) (hids : ∀ i ∈ ids, S i) :
        RecastIn S b (forEach (retag n) ids b).2 := forEach_recastIn ih ids b hb hids
    unfold retag
    cases he : a.expr? id with
    | none => exact .refl S a
    | some e =>
      have parts : ∀ part ∈ e.kind.typeParts, S part := fun part => hc id e part hid he
      obtain ⟨kind, span⟩ := e
      cases kind with
      | app callee args block =>
        cases block with
        | some block => exact .refl S a
        | none =>
          have first := recastIn_setKind (S := S) he rfl hid
          exact first.trans (enter _ _ (first.isClosed_iff.2 hc) parts)
      | binary lhs op rhs => exact enter _ a hc parts
      | ann value type => exact enter _ a hc parts
      | group inner => exact enter _ a hc parts
      | tuple items trailingComma => exact enter _ a hc parts
      | array items => exact enter _ a hc parts
      | _ => exact .refl S a

theorem forEach_asTypes (hclosed : ∀ id a, a.IsClosed S → (f id a).2.IsClosed S)
    (hf : ∀ id a b a', a.IsClosed S → AsTypes S a b → f id a = (.ok (), a') →
      ∃ b', f id b = (.ok (), b') ∧ AsTypes S a' b')
    (ids : List ExprId) {a b a' : Arena} (hc : a.IsClosed S) (hab : AsTypes S a b)
    (h : forEach f ids a = (.ok (), a')) : ∃ b', forEach f ids b = (.ok (), b') ∧ AsTypes S a' b' := by
  induction ids generalizing a b with
  | nil =>
    cases h
    exact ⟨b, rfl, hab⟩
  | cons id ids ih =>
    unfold forEach at h
    split at h
    · rename_i a₁ ha
      obtain ⟨b₁, hb, hab₁⟩ := hf id a b a₁ hc hab ha
      have hc₁ := hclosed id a hc
      rw [ha] at hc₁
      obtain ⟨b', hb', hab'⟩ := ih hc₁ hab₁ h
      refine ⟨b', ?_, hab'⟩
      unfold forEach
      rw [hb]
      exact hb'
    · cases h

/-- Where some expressions are types already, reading again succeeds if it does where they are values,
and then makes the same difference. -/
theorem retag_asTypes (n : Nat) (id : ExprId) (a b a' : Arena) (hc : a.IsClosed S) (hab : AsTypes S a b)
    (h : retag n id a = (.ok (), a')) : ∃ b', retag n id b = (.ok (), b') ∧ AsTypes S a' b' := by
  induction n generalizing id a b a' with
  | zero =>
    cases h
    exact ⟨b, rfl, hab⟩
  | succ n ih =>
    have closed (id : ExprId) (a : Arena) (hc : a.IsClosed S) : (retag n id a).2.IsClosed S :=
      (retag_recastIn (S := fun _ => True) n id a a.isClosed_true trivial).isClosed_iff.2 hc
    have enter (ids : List ExprId) {a b a' : Arena} (hc : a.IsClosed S) (hab : AsTypes S a b)
        (h : forEach (retag n) ids a = (.ok (), a')) :
        ∃ b', forEach (retag n) ids b = (.ok (), b') ∧ AsTypes S a' b' :=
      forEach_asTypes closed ih ids hc hab h
    have whole := h
    unfold retag at h
    cases he : a.expr? id with
    | none =>
      have hb : b.expr? id = none := by
        obtain hb | ⟨-, hb⟩ := hab.recastIn.expr id
        · exact hb.trans he
        · rw [hb, he]
          rfl
      rw [he] at h
      cases h
      exact ⟨b, by unfold retag; rw [hb]; rfl, hab⟩
    | some e =>
      obtain ⟨e', hb, hsame⟩ := hab.recastIn.exists_of_expr? he
      rw [he] at h
      obtain ⟨kind, span⟩ := e
      cases kind with
      | app callee args block =>
        cases block with
        | some block => cases h
        | none =>
          by_cases hid : S id
          · -- the other arena has a type here already, and reading again changes types alone
            have hb' := hab.inside id hid
            rw [he] at hb'
            have within := retag_recastIn (n + 1) id a hc hid
            rw [whole] at within
            exact ⟨b, by unfold retag; rw [hb']; rfl, hab.recast within⟩
          · have hb' := (hab.outside id hid).trans he
            have hset := recastIn_setKind (S := fun _ => True) he rfl trivial
            obtain ⟨b', hrun, hab'⟩ := enter (callee :: args) (hset.isClosed_iff.2 hc) (hab.setKind hid _) h
            exact ⟨b', by unfold retag; rw [hb']; exact hrun, hab'⟩
      | _ =>
        have hb' : b.expr? id = a.expr? id := by
          obtain rfl | ⟨-, rfl⟩ := hsame <;> exact hb.trans he.symm
        unfold retag
        rw [hb', he]
        first
          | exact enter _ hc hab h
          | (cases h; exact ⟨b, rfl, hab⟩)

/-- Where there is no application of a value left, reading again does nothing. -/
theorem retag_eq (n : Nat) (id : ExprId) (a : Arena) (hc : a.IsClosed S) (hid : S id)
    (hS : ∀ i e, S i → a.expr? i = some e → e.kind.isApp = false) : retag n id a = (.ok (), a) := by
  induction n generalizing id with
  | zero => rfl
  | succ n ih =>
    have enter (ids : List ExprId) (hids : ∀ i ∈ ids, S i) : forEach (retag n) ids a = (.ok (), a) := by
      induction ids with
      | nil => rfl
      | cons i ids ihs =>
        unfold forEach
        rw [ih i (hids i List.mem_cons_self)]
        exact ihs fun j hj => hids j (List.mem_cons_of_mem _ hj)
    unfold retag
    cases he : a.expr? id with
    | none => rfl
    | some e =>
      have parts : ∀ part ∈ e.kind.typeParts, S part := fun part => hc id e part hid he
      have happ := hS id e hid he
      obtain ⟨kind, span⟩ := e
      cases kind with
      | app callee args block => cases happ
      | binary lhs op rhs => exact enter _ parts
      | ann value type => exact enter _ parts
      | group inner => exact enter _ parts
      | tuple items trailingComma => exact enter _ parts
      | array items => exact enter _ parts
      | _ => rfl

end Retag

/-! ## Afterwards all are types -/

/-- With the root no application of a value is a type. -/
def Settled (a : Arena) (root : ExprId) : Prop :=
  ∀ id e, a.TypedWith root id → a.expr? id = some e → e.kind.isApp = false

theorem Settled.part {a : Arena} {root id : ExprId} (h : a.Settled root) (hid : a.TypedWith root id) :
    a.Settled id := fun i e hi he => h i e (hid.trans hi) he

theorem Settled.of_parts {a : Arena} {root : ExprId} {e : Expr} (he : a.expr? root = some e)
    (happ : e.kind.isApp = false) (h : ∀ part ∈ e.kind.typeParts, a.Settled part) : a.Settled root := by
  intro id e' hid he'
  obtain rfl | ⟨e₁, he₁, part, hpart, hid⟩ := hid.cases_root
  · rw [he] at he'
    cases he'
    exact happ
  · rw [he] at he₁
    cases he₁
    exact h part hpart id e' hid he'

theorem Settled.recast {S : ExprId → Prop} {a b : Arena} {root : ExprId} (h : a.Settled root)
    (k : RecastIn S a b) : b.Settled root := by
  intro id e' hid he'
  obtain ⟨e, he, hsame⟩ := k.exists_of_expr?' he'
  have happ := h id e (k.typedWith_iff.1 hid) he
  obtain rfl | ⟨-, rfl⟩ := hsame
  · exact happ
  · rwa [Expr.kind_asType, ExprKind.asType_of_not_isApp happ]

/-- An expression whose parts are stored before it, from `m` on.  What reading again would not enter is
settled; if `typed`, all is. -/
structure Rooted (a : Arena) (m : Nat) (typed : Bool) (root : ExprId) : Prop where
  stored : ∀ id, a.TypedWith root id → ∃ e, a.expr? id = some e ∧ m ≤ id.index ∧
    ∀ part ∈ e.kind.typeParts, part.index < id.index
  settled : ∀ id e, a.TypedWith root id → a.expr? id = some e → typed = true ∨ e.kind.isSealed = true →
    a.Settled id

namespace Rooted

variable {S : ExprId → Prop} {a b : Arena} {m : Nat} {typed : Bool} {root id : ExprId}

theorem part (h : a.Rooted m typed root) (hid : a.TypedWith root id) : a.Rooted m typed id :=
  ⟨fun i hi => h.stored i (hid.trans hi), fun i e hi => h.settled i e (hid.trans hi)⟩

/-- Parts come before the whole. -/
theorem index_le (h : a.Rooted m typed root) (hid : a.TypedWith root id) : id.index ≤ root.index := by
  induction hid with
  | root => exact Nat.le_refl _
  | part hid he hpart ih =>
    obtain ⟨e', he', -, hlt⟩ := h.stored _ hid
    rw [he] at he'
    cases he'
    exact Nat.le_trans (Nat.le_of_lt (hlt _ hpart)) ih

theorem le_index (h : a.Rooted m typed root) (hid : a.TypedWith root id) : m ≤ id.index := by
  obtain ⟨-, -, hm, -⟩ := h.stored id hid
  exact hm

theorem all_settled (h : a.Rooted m true root) : a.Settled root := by
  obtain ⟨e, he, -⟩ := h.stored root .root
  exact h.settled root e .root he (.inl rfl)

/-- A settled expression is one in a type. -/
theorem of_settled (h : a.Rooted m typed root) (hs : a.Settled root) (typed' : Bool) :
    a.Rooted m typed' root := ⟨h.stored, fun _ _ hid _ _ => hs.part hid⟩

/-- What has become a type has to be settled. -/
theorem recast (h : a.Rooted m typed root) (k : RecastIn S a b)
    (hS : ∀ i, a.TypedWith root i → S i → b.Settled i) : b.Rooted m typed root := by
  refine ⟨fun i hi => ?_, fun i e' hi he' hsealed => ?_⟩
  · obtain ⟨e, he, hm, hlt⟩ := h.stored i (k.typedWith_iff.1 hi)
    obtain ⟨e', he', hsame⟩ := k.exists_of_expr? he
    exact ⟨e', he', hm, RecastIn.typeParts_eq hsame ▸ hlt⟩
  · have hi := k.typedWith_iff.1 hi
    obtain ⟨e, he, rfl | ⟨hin, -⟩⟩ := k.exists_of_expr?' he'
    · exact (h.settled i e' hi he hsealed).recast k
    · exact hS i hi hin

end Rooted

theorem forEach_settles {m n : Nat} {typed : Bool} {f : ExprId → Arena → Except BlockInType Unit × Arena}
    (hrecast : ∀ (S : ExprId → Prop) id a, a.IsClosed S → S id → RecastIn S a (f id a).2)
    (hf : ∀ id a b, a.Rooted m typed id → id.index < n → f id a = (.ok (), b) → b.Settled id)
    (ids : List ExprId) {a b : Arena} (hids : ∀ id ∈ ids, a.Rooted m typed id ∧ id.index < n)
    (h : forEach f ids a = (.ok (), b)) : ∀ id ∈ ids, b.Settled id := by
  induction ids generalizing a with
  | nil => exact fun _ hid => absurd hid List.not_mem_nil
  | cons id ids ih =>
    unfold forEach at h
    split at h
    · rename_i a₁ ha
      obtain ⟨hroot, hlt⟩ := hids id List.mem_cons_self
      have first := hf id a a₁ hroot hlt ha
      have recast := hrecast (a.TypedWith id) id a (a.isClosed_typedWith id) .root
      rw [ha] at recast
      have rest := ih (fun i hi => by
        obtain ⟨hrooti, hlti⟩ := hids i (List.mem_cons_of_mem _ hi)
        exact ⟨hrooti.recast recast fun j _ hj => first.part (recast.typedWith_iff.2 hj), hlti⟩) h
      intro i hi
      rcases List.mem_cons.1 hi with rfl | hi
      · have onward := forEach_recastIn (hrecast fun _ => True) ids a₁ a₁.isClosed_true fun _ _ => trivial
        rw [h] at onward
        exact first.recast onward
      · exact rest i hi
    · cases h

theorem retag_settles {m : Nat} {typed : Bool} (n : Nat) (id : ExprId) (a b : Arena)
    (hroot : a.Rooted m typed id) (hn : id.index < n) (h : retag n id a = (.ok (), b)) : b.Settled id := by
  induction n generalizing id a b with
  | zero => exact absurd hn (Nat.not_lt_zero _)
  | succ n ih =>
    obtain ⟨e, he, -, hlt⟩ := hroot.stored id .root
    have recast := retag_recastIn (S := fun _ => True) (n + 1) id a a.isClosed_true trivial
    rw [h] at recast
    have parts : ∀ part ∈ e.kind.typeParts, a.Rooted m typed part ∧ part.index < n := fun part hpart =>
      ⟨hroot.part (.part .root he hpart), Nat.lt_of_lt_of_le (hlt part hpart) (Nat.lt_succ_iff.1 hn)⟩
    have enter {c : Arena} (hc : ∀ part ∈ e.kind.typeParts, c.Rooted m typed part ∧ part.index < n)
        (hrun : forEach (retag n) e.kind.typeParts c = (.ok (), b)) :
        ∀ part ∈ e.kind.typeParts, b.Settled part :=
      forEach_settles (fun S => retag_recastIn (S := S) n) (fun id a b => ih id a b) _ hc hrun
    have plain (happ : e.kind.isApp = false)
        (hrun : forEach (retag n) e.kind.typeParts a = (.ok (), b)) : b.Settled id := by
      obtain ⟨e', he', hsame⟩ := recast.exists_of_expr? he
      have hkind : e'.kind = e.kind := by
        obtain rfl | ⟨-, rfl⟩ := hsame
        · rfl
        · exact ExprKind.asType_of_not_isApp happ
      exact .of_parts he' (hkind ▸ happ) (hkind ▸ enter parts hrun)
    unfold retag at h
    rw [he] at h
    obtain ⟨kind, span⟩ := e
    cases kind with
    | app callee args block =>
      cases block with
      | some block => cases h
      | none =>
        have first := recastIn_setKind (S := fun i => i = id) he rfl rfl
        have settled := enter (fun part hpart => by
          obtain ⟨hpart', hlt'⟩ := parts part hpart
          refine ⟨hpart'.recast first fun i hi hid => ?_, hlt'⟩
          -- the whole is no part of its parts
          have hle := hpart'.index_le hi
          have := hlt part hpart
          rw [hid] at hle
          omega) h
        have onward := forEach_recastIn (fun i c => retag_recastIn (S := fun _ => True) n i c)
          (callee :: args) _ (isClosed_true (a.setKind id (.typeApp callee args))) fun _ _ => trivial
        rw [show forEach (retag n) (callee :: args) (a.setKind id (.typeApp callee args)) = (.ok (), b) from h]
          at onward
        obtain ⟨e', he', hsame⟩ := onward.exists_of_expr? (expr?_setKind_self he (.typeApp callee args))
        have hkind : e'.kind = .typeApp callee args := by
          obtain rfl | ⟨-, rfl⟩ := hsame <;> rfl
        exact .of_parts he' (by rw [hkind]; rfl) (hkind ▸ settled)
    | typeApp callee args =>
      cases h
      exact hroot.settled id _ .root he (.inr rfl)
    | pi params result =>
      cases h
      exact hroot.settled id _ .root he (.inr rfl)
    | _ => exact plain rfl h

/-- An expression that has been read as a type is one in a type. -/
theorem Rooted.toType {a b : Arena} {m : Nat} {typed : Bool} {root : ExprId} (h : a.Rooted m typed root)
    (hb : a.toType root = (.ok (), b)) : b.Rooted m true root := by
  have settled := retag_settles _ root a b h (Nat.lt_succ_self _) hb
  have recast := retag_recastIn (root.index + 1) root a (a.isClosed_typedWith root) .root
  rw [show retag (root.index + 1) root a = (.ok (), b) from hb] at recast
  exact (h.recast recast fun i hi _ => settled.part (recast.typedWith_iff.2 hi)).of_settled settled true

end Arena

end SolSyntax
