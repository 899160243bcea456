import SolSyntax.Proofs.Rooting
import SolSyntax.Proofs.Steering

/-!
# Types beside values

Of two runs that read the same tokens, one as a type and one as a value, the first stores applications of types where
the second stores applications of values.  These are all that the gists of what they have stored differ in, and the
parts of each have been read as types.  So what the first can read again as a type, the second can, too.

Principal results: `Softens` — how the gists are related; `retag_softens` — reading as a type succeeds on the right
if it does on the left; `Rooted.typeLike` — what has been read as a type is like one.
-/

namespace SolSyntax

/-- Reading as a type comes upon no application in an expression. -/
inductive TypeLike (g : List Gist) : ExprId → Prop
  | around {id parts} : g[id.index]? = some (.around parts) → (∀ part ∈ parts, TypeLike g part) → TypeLike g id
  | leaf {id kind} : g[id.index]? = some kind → kind ∈ [Gist.openIf, .closed, .other] → TypeLike g id

namespace TypeLike

variable {g : List Gist} {id : ExprId}

/-- What is stored later does not matter. -/
theorem append (h : TypeLike g id) (l : List Gist) : TypeLike (g ++ l) id := by
  have kept {i : Nat} {kind : Gist} (hi : g[i]? = some kind) : (g ++ l)[i]? = some kind := by
    rw [List.getElem?_append_left (List.getElem?_eq_some_iff.1 hi).1, hi]
  induction h with
  | around hid _ ih => exact .around (kept hid) ih
  | leaf hid hkind => exact .leaf (kept hid) hkind

/-- An application that becomes one of types was none of its parts. -/
theorem set (h : TypeLike g id) {i : Nat} {parts : List ExprId} (hi : g[i]? = some (.call parts)) :
    TypeLike (g.set i .other) id := by
  have kept {j : Nat} {kind : Gist} (hj : g[j]? = some kind) (hne : kind ≠ .call parts) :
      (g.set i .other)[j]? = some kind := by
    rw [List.getElem?_set_ne, hj]
    rintro rfl
    rw [hi] at hj
    cases hj
    exact hne rfl
  induction h with
  | around hid _ ih => exact .around (kept hid nofun) ih
  | leaf hid hkind => exact .leaf (kept hid (by rintro rfl; simp at hkind)) hkind

end TypeLike

/-- What has been stored on the right beside what has been on the left: the same, but for applications of values where
there are ones of types on the left. -/
structure Softens (g h : List Gist) : Prop where
  length : h.length = g.length
  gist : ∀ i : Nat, h[i]? = g[i]? ∨
    g[i]? = some .other ∧ ∃ parts, h[i]? = some (.call parts) ∧ ∀ part ∈ parts, TypeLike g part

namespace Softens

variable {g h : List Gist}

theorem refl (g : List Gist) : Softens g g := ⟨rfl, fun _ => .inl rfl⟩

/-- One more on each side. -/
theorem push (hs : Softens g h) {x y : Gist}
    (hxy : y = x ∨ x = .other ∧ ∃ parts, y = .call parts ∧ ∀ part ∈ parts, TypeLike g part) :
    Softens (g ++ [x]) (h ++ [y]) := by
  refine ⟨by simp [hs.length], fun i => ?_⟩
  rcases Nat.lt_trichotomy i g.length with hlt | rfl | hlt
  · rw [List.getElem?_append_left hlt, List.getElem?_append_left (hs.length ▸ hlt)]
    refine (hs.gist i).imp_right fun ⟨hother, parts, hcall, hparts⟩ => ⟨hother, parts, hcall, fun part hpart => ?_⟩
    exact (hparts part hpart).append _
  · rw [List.getElem?_concat_length, ← hs.length, List.getElem?_concat_length]
    obtain rfl | ⟨rfl, parts, rfl, hparts⟩ := hxy
    · exact .inl rfl
    · exact .inr ⟨rfl, parts, rfl, fun part hpart => (hparts part hpart).append _⟩
  · left
    rw [List.getElem?_eq_none, List.getElem?_eq_none]
    · simp only [List.length_append, List.length_singleton]
      omega
    · simp only [List.length_append, List.length_singleton, hs.length]
      omega

/-- Both have room for the same expressions. -/
theorem size_eq {a b : Arena} (hs : Softens a.gists b.gists) : b.exprs.size = a.exprs.size := by
  simpa [Arena.gists] using hs.length

/-- What is no application of types is the same. -/
theorem gist_eq (hs : Softens g h) {i : Nat} {kind : Gist} (hi : g[i]? = some kind) (hne : kind ≠ .other) :
    h[i]? = some kind := by
  obtain hsame | ⟨hother, -⟩ := hs.gist i
  · rw [hsame, hi]
  · rw [hi] at hother
    cases hother
    exact absurd rfl hne

/-- Forms of other kinds are told apart in the same way. -/
theorem beq_eq (hs : Softens g h) (i : Nat) {kind : Gist} (hkind : kind ∈ [Gist.openIf, .closed]) :
    (h[i]? == some kind) = (g[i]? == some kind) := by
  obtain hsame | ⟨hother, parts, hcall, -⟩ := hs.gist i
  · rw [hsame]
  · rw [hother, hcall]
    simp only [List.mem_cons, List.not_mem_nil, or_false] at hkind
    obtain rfl | rfl := hkind <;> rfl

/-- An application of values becomes one of types. -/
theorem set_right (hs : Softens g h) {i : Nat} (hi : g[i]? = some .other) : Softens g (h.set i .other) := by
  refine ⟨by rw [List.length_set, hs.length], fun j => ?_⟩
  by_cases hij : i = j
  · subst hij
    left
    rw [List.getElem?_set_self (hs.length ▸ (List.getElem?_eq_some_iff.1 hi).1), hi]
  · rw [List.getElem?_set_ne hij]
    exact hs.gist j

/-- So it does on both sides. -/
theorem set (hs : Softens g h) {i : Nat} {parts : List ExprId} (hi : g[i]? = some (.call parts)) :
    Softens (g.set i .other) (h.set i .other) := by
  refine ⟨by rw [List.length_set, List.length_set, hs.length], fun j => ?_⟩
  by_cases hij : i = j
  · subst hij
    have hlt := (List.getElem?_eq_some_iff.1 hi).1
    left
    rw [List.getElem?_set_self hlt, List.getElem?_set_self (hs.length ▸ hlt)]
  · rw [List.getElem?_set_ne hij, List.getElem?_set_ne hij]
    exact (hs.gist j).imp_right fun ⟨hother, parts, hcall, hparts⟩ =>
      ⟨hother, parts, hcall, fun part hpart => (hparts part hpart).set hi⟩

end Softens

namespace Arena

variable {a a' b : Arena} {g : List Gist}

/-- What each of some steps does, all of them do. -/
theorem forEach_ok {f : ExprId → Arena → Except BlockInType Unit × Arena} {P : Arena → Prop} {ids : List ExprId}
    (hf : ∀ id ∈ ids, ∀ b, P b → ∃ c, f id b = (.ok (), c) ∧ P c) (h : P b) :
    ∃ c, forEach f ids b = (.ok (), c) ∧ P c := by
  induction ids generalizing b with
  | nil => exact ⟨b, rfl, h⟩
  | cons id ids ih =>
    obtain ⟨c, hc, h⟩ := hf id List.mem_cons_self b h
    unfold forEach
    rw [hc]
    exact ih (fun id hid => hf id (List.mem_cons_of_mem _ hid)) h

/-- Steps that succeed on the right if they do on the left. -/
theorem forEach_ok_of_ok {f : ExprId → Arena → Except BlockInType Unit × Arena} {R : Arena → Arena → Prop}
    (hf : ∀ id a b a', R a b → f id a = (.ok (), a') → ∃ b', f id b = (.ok (), b') ∧ R a' b')
    {ids : List ExprId} (h : R a b) (ha : forEach f ids a = (.ok (), a')) :
    ∃ b', forEach f ids b = (.ok (), b') ∧ R a' b' := by
  induction ids generalizing a b with
  | nil =>
    cases ha
    exact ⟨b, rfl, h⟩
  | cons id ids ih =>
    unfold forEach at ha ⊢
    cases hfirst : f id a with
    | mk result a₁ =>
      rw [hfirst] at ha
      cases result with
      | error e => cases ha
      | ok _ =>
        obtain ⟨b₁, hb₁, h⟩ := hf id a b a₁ h hfirst
        rw [hb₁]
        exact ih h ha

/-- What is like a type on the left becomes one on the right. -/
theorem retag_typeLike (n : Nat) (id : ExprId) (b : Arena) (h : Softens g b.gists) (hid : TypeLike g id) :
    ∃ c, retag n id b = (.ok (), c) ∧ Softens g c.gists := by
  induction n generalizing id b with
  | zero => exact ⟨b, rfl, h⟩
  | succ n ih =>
    have step := retag_cases n id b
    cases hid with
    | around hid hparts =>
      rw [h.gist_eq hid nofun] at step
      rw [step]
      exact forEach_ok (fun part hpart b h => ih part b h (hparts part hpart)) h
    | leaf hid hkind =>
      obtain hsame | ⟨hother, parts, hcall, hparts⟩ := h.gist id.index
      · rw [hsame, hid] at step
        simp only [List.mem_cons, List.not_mem_nil, or_false] at hkind
        obtain rfl | rfl | rfl := hkind <;> exact ⟨b, step, h⟩
      · rw [hcall] at step
        obtain ⟨c, hc, hrun⟩ := step
        rw [hrun]
        exact forEach_ok (fun part hpart b h => ih part b h (hparts part hpart)) (hc ▸ h.set_right hother)

/-- **Reading as a type succeeds on the right** if it does on the left. -/
theorem retag_softens (n : Nat) (id : ExprId) (a b a' : Arena) (h : Softens a.gists b.gists)
    (ha : retag n id a = (.ok (), a')) : ∃ b', retag n id b = (.ok (), b') ∧ Softens a'.gists b'.gists := by
  induction n generalizing id a b a' with
  | zero =>
    cases ha
    exact ⟨b, rfl, h⟩
  | succ n ih =>
    have left := retag_cases n id a
    obtain hsame | ⟨hother, parts, hcall, hparts⟩ := h.gist id.index
    · have right := retag_cases n id b
      rw [hsame] at right
      split at left <;> simp only [*] at right
      · obtain ⟨_, left⟩ := left
        rw [left] at ha
        cases ha
      · rename_i hcall
        obtain ⟨c, hc, left⟩ := left
        obtain ⟨d, hd, right⟩ := right
        rw [left] at ha
        rw [right]
        exact forEach_ok_of_ok ih (by rw [hc, hd]; exact h.set hcall) ha
      · rw [left] at ha
        rw [right]
        exact forEach_ok_of_ok ih h ha
      · rw [left] at ha
        rw [right]
        cases ha
        exact ⟨b, rfl, h⟩
    · rw [hother] at left
      rw [left] at ha
      cases ha
      exact retag_typeLike (n + 1) id b h (.leaf hother (by simp))

/-- What has been read as a type is like one. -/
theorem Rooted.typeLike {m : Nat} {root : ExprId} (h : a.Rooted m true root) : TypeLike a.gists root := by
  obtain ⟨i, hi⟩ : ∃ i, root.index < i := ⟨_, Nat.lt_succ_self _⟩
  induction i generalizing root with
  | zero => exact absurd hi (Nat.not_lt_zero _)
  | succ i ih =>
    obtain ⟨e, he, -, hlt⟩ := h.stored root .root
    have happ := h.all_settled root e .root he
    have hgist : a.gists[root.index]? = some e.kind.gist := by rw [← gist?_eq, he]; rfl
    have hparts (part : ExprId) (hpart : part ∈ e.kind.typeParts) : TypeLike a.gists part :=
      ih (h.part (.part .root he hpart)) (Nat.lt_of_lt_of_le (hlt part hpart) (Nat.le_of_lt_succ hi))
    generalize e.kind = kind at *
    cases kind with
    | app => cases happ
    | binary | ann | group | tuple | array => exact .around hgist hparts
    | cond test yes no position =>
      refine .leaf hgist ?_
      cases no <;> cases position <;> simp [ExprKind.gist]
    | _ => exact .leaf hgist (by simp [ExprKind.gist])

end Arena

end SolSyntax
