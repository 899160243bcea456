import Mathlib.Data.List.Nodup
import SolSyntax.Proofs.Storage

/-!
# Names stand for strings

Whatever calls an interner serves, names and strings correspond: equal names go with equal strings, a name
keeps its string for good, and new strings are numbered in the order in which they come.  All of this
follows from one view of the interner: it holds the strings asked for, each of them once and where it came
first.

The search for a string can be replaced by an index.  `Interner.Table` keeps one, and counts the strings
besides; the three parts of a table agree after every call, and it gives the same answers.

Principal results: `Interner.serve_eq` — the view; `Interner.Table.Represents.ask` — a table after a call;
`Interner.names_correspond`.
-/

namespace SolSyntax

/-- What is met once only stays as it is. -/
theorem eraseDups_of_nodup {l : List String} (h : l.Nodup) : l.eraseDups = l := by
  induction l with
  | nil => rfl
  | cons s l ih =>
    obtain ⟨hs, hl⟩ := List.nodup_cons.1 h
    have hfilter : (l.filter fun t => !t == s) = l := by
      refine List.filter_eq_self.2 fun t ht => ?_
      have hne : t ≠ s := fun e => hs (e ▸ ht)
      simpa using hne
    rw [List.eraseDups_cons, hfilter, ih hl]

namespace Interner

/-- A call that asks for the name of a string. -/
inductive Call where
  | intern (s : String)
  | tryIntern (s : String)
  deriving DecidableEq, Repr

def Call.string : Call → String
  | intern s | tryIntern s => s

/-- What a call gives, and the interner after it. -/
def answer (names : Interner) : Call → Except InternError Name × Interner
  | .intern s => (.ok (names.intern s).1, (names.intern s).2)
  | .tryIntern s =>
    match names.tryIntern s with
    | .ok (n, names) => (.ok n, names)
    | .error e => (.error e, names)

/-- What calls give one after another, and the interner after them. -/
def serve (names : Interner) : List Call → List (Except InternError Name) × Interner
  | [] => ([], names)
  | call :: calls =>
    let (first, names) := names.answer call
    let (others, names) := names.serve calls
    (first :: others, names)

/-! ## What an interner holds -/

/-- No string is stored twice. -/
def Distinct (names : Interner) : Prop := names.strings.toList.Nodup

theorem new_distinct : new.Distinct := by
  unfold Distinct
  decide

/-- What an interner holds once it has been asked for the names of strings: first come, first stored. -/
def held (names : Interner) (asked : List String) : List String :=
  (names.strings.toList ++ asked).eraseDups

theorem held_nil {names : Interner} (h : names.Distinct) : names.held [] = names.strings.toList := by
  rw [held, List.append_nil, eraseDups_of_nodup h]

theorem length_le_length_held {names : Interner} (h : names.Distinct) (asked : List String) :
    names.size ≤ (names.held asked).length := by
  rw [held, List.eraseDups_append, eraseDups_of_nodup h, List.length_append, size, ← Array.length_toList]
  exact Nat.le_add_right _ _

theorem intern_of_find?_none {names : Interner} {s : String} (h : names.find? s = none) :
    names.intern s = (⟨names.size⟩, ⟨names.strings.push s⟩) := by
  rw [intern, h]

theorem intern_distinct {names : Interner} (h : names.Distinct) (s : String) :
    (names.intern s).2.Distinct := by
  cases hf : names.find? s with
  | some n =>
    rw [intern, hf]
    exact h
  | none =>
    rw [intern_of_find?_none hf, Distinct, Array.toList_push]
    refine List.nodup_append.2 ⟨h, List.nodup_singleton s, fun t ht u hu => ?_⟩
    obtain rfl := List.mem_singleton.1 hu
    exact fun e => find?_eq_none hf (e ▸ Array.mem_def.2 ht)

/-- A string stored before the others are asked for is the first of them. -/
theorem held_intern (names : Interner) (s : String) (asked : List String) :
    (names.intern s).2.held asked = names.held (s :: asked) := by
  cases hf : names.find? s with
  | some n =>
    have hs : s ∈ names.strings.toList :=
      Array.mem_def.1 (Array.mem_of_getElem? (find?_eq_some hf))
    rw [intern, hf, held, held, List.eraseDups_append, List.eraseDups_append, List.cons_removeAll,
      if_neg (by simpa using hs)]
  | none => rw [intern_of_find?_none hf, held, held, Array.toList_push, List.append_assoc, List.singleton_append]

theorem answer_tryIntern (names : Interner) (s : String) : names.answer (.tryIntern s) =
    if (names.find? s).isNone ∧ wordLimit ≤ names.size then (.error ⟨names.size⟩, names)
    else (.ok (names.intern s).1, (names.intern s).2) := by
  unfold answer tryIntern
  by_cases hfull : (names.find? s).isNone ∧ wordLimit ≤ names.size
  · simp only [if_pos hfull]
  · simp only [if_neg hfull]

/-- A call gets its name while the strings can be numbered. -/
theorem answer_eq {names : Interner} (h : names.Distinct) (call : Call) {asked : List String}
    (hroom : (names.held (call.string :: asked)).length ≤ wordLimit) :
    names.answer call = (.ok (names.intern call.string).1, (names.intern call.string).2) := by
  cases call with
  | intern s => rfl
  | tryIntern s =>
    have hfree : ¬((names.find? s).isNone = true ∧ wordLimit ≤ names.size) := by
      rintro ⟨hnew, hfull⟩
      have hnone : names.find? s = none := Option.isNone_iff_eq_none.1 hnew
      have hlength := length_le_length_held (intern_distinct h s) asked
      have hsize : (names.intern s).2.size = names.size + 1 := by
        rw [intern_of_find?_none hnone, size, Array.size_push, size]
      have hheld : (names.held (s :: asked)).length ≤ wordLimit := hroom
      rw [held_intern] at hlength
      omega
    rw [answer_tryIntern, if_neg hfree]
    rfl

/-- Names keep their strings, whatever is asked for next. -/
theorem kept_answer (names : Interner) (call : Call) : names.Kept (names.answer call).2 := by
  cases call with
  | intern s => exact .intern names s
  | tryIntern s =>
    rw [answer_tryIntern]
    split
    · exact .refl names
    · exact .intern names s

theorem kept_serve (names : Interner) (calls : List Call) : names.Kept (names.serve calls).2 := by
  induction calls generalizing names with
  | nil => exact .refl names
  | cons call calls ih => exact (kept_answer names call).trans (ih _)

/-- After some calls the interner holds what was asked for, and the calls gave the names that the strings
have in the end. -/
theorem serve_eq {names : Interner} (h : names.Distinct) (calls : List Call)
    (hroom : (names.held (calls.map Call.string)).length ≤ wordLimit) :
    ∃ final, names.serve calls = (calls.map fun call => .ok (final.intern call.string).1, final) ∧
      final.Distinct ∧ final.strings.toList = names.held (calls.map Call.string) := by
  induction calls generalizing names with
  | nil => exact ⟨names, rfl, h, (held_nil h).symm⟩
  | cons call calls ih =>
    have hfirst := answer_eq h call hroom
    have hheld := held_intern names call.string (calls.map Call.string)
    obtain ⟨final, hserve, hfinal, hstrings⟩ := ih (intern_distinct h call.string) (by rwa [hheld])
    have hkept := kept_serve (names.intern call.string).2 calls
    rw [hserve] at hkept
    refine ⟨final, ?_, hfinal, hstrings.trans hheld⟩
    rw [serve, hfirst]
    simp only [hserve, List.map_cons, Kept.intern_eq hkept]

/-! ## Names and strings -/

theorem find?_of_getElem? {names : Interner} (h : names.Distinct) {i : Nat} {s : String}
    (hi : names.strings[i]? = some s) : names.find? s = some ⟨i⟩ := by
  cases hf : names.find? s with
  | none => exact (find?_eq_none hf (Array.mem_of_getElem? hi)).elim
  | some n =>
    obtain ⟨hlt, he⟩ := Array.getElem?_eq_some_iff.1 hi
    obtain ⟨hlt', he'⟩ := Array.getElem?_eq_some_iff.1 (find?_eq_some hf)
    rw [← Array.getElem_toList] at he he'
    have := (List.Nodup.getElem_inj_iff h).1 (he'.trans he.symm)
    exact congrArg some (congrArg Name.mk this)

/-- A string has the index at which it is stored. -/
theorem intern_of_getElem? {names : Interner} (h : names.Distinct) {i : Nat} {s : String}
    (hi : names.strings[i]? = some s) : names.intern s = (⟨i⟩, names) := by
  rw [intern, find?_of_getElem? h hi]

theorem lookup_of_getElem? {names : Interner} {n : Name} {s : String}
    (h : names.strings[n.index]? = some s) : names.lookup n = s := by
  rw [lookup, Array.getD_eq_getD_getElem?, h]
  rfl

/-! ## Tables -/

/-- Strings with an index of them, and their number. -/
structure Table where
  index : Std.HashMap String Nat
  strings : Array String
  count : Nat

namespace Table

def empty : Table := ⟨∅, #[], 0⟩

/-- The name of a string, which is stored if it is new; there is none if no 32-bit index is left. -/
def ask (x : Table) (s : String) : Except InternError Name × Table :=
  match x.index[s]? with
  | some i => (.ok ⟨i⟩, x)
  | none =>
    if x.strings.size < wordLimit then
      (.ok ⟨x.strings.size⟩, ⟨x.index.insert s x.strings.size, x.strings.push s, x.count + 1⟩)
    else (.error ⟨x.strings.size⟩, x)

/-- What a table gives for strings one after another, and the table after them. -/
def serve (x : Table) : List String → List (Except InternError Name) × Table
  | [] => ([], x)
  | s :: asked =>
    let (first, x) := x.ask s
    let (others, x) := x.serve asked
    (first :: others, x)

/-- A table that has been asked for the initial strings. -/
def new : Table := (empty.serve initial).2

/-- The strings are those of an interner, the index takes every string back to its place, and the count
is right. -/
structure Represents (x : Table) (names : Interner) : Prop where
  strings : x.strings = names.strings
  index : ∀ (s : String) (i : Nat), x.index[s]? = some i ↔ x.strings[i]? = some s
  count : x.count = x.strings.size

namespace Represents

variable {x : Table} {names : Interner}

theorem empty : Table.empty.Represents ⟨#[]⟩ where
  strings := rfl
  index := fun s i => by simp [Table.empty]
  count := rfl

/-- A new string is stored behind the others. -/
theorem push (h : x.Represents names) {s : String} (hs : x.index[s]? = none) :
    Represents ⟨x.index.insert s x.strings.size, x.strings.push s, x.count + 1⟩ ⟨names.strings.push s⟩ where
  strings := congrArg (·.push s) h.strings
  index := by
    intro t i
    have hnew : ∀ j, x.strings[j]? ≠ some s := fun j hj => by
      rw [(h.index s j).2 hj] at hs
      cases hs
    rw [Std.HashMap.getElem?_insert, Array.getElem?_push]
    by_cases hst : s = t
    · subst hst
      have := hnew i
      by_cases hi : i = x.strings.size <;> simp_all [eq_comm]
    · have hold := h.index t i
      by_cases hi : i = x.strings.size <;> simp_all
  count := by rw [Array.size_push, h.count]

/-- A table gives what its interner gives, and goes on representing it. -/
theorem ask (h : x.Represents names) (s : String) :
    (x.ask s).1 = (names.answer (.tryIntern s)).1 ∧
      (x.ask s).2.Represents (names.answer (.tryIntern s)).2 := by
  rw [answer_tryIntern]
  unfold Table.ask
  cases hf : names.find? s with
  | some n =>
    have hat : x.index[s]? = some n.index := (h.index s n.index).2 (h.strings ▸ find?_eq_some hf)
    have hfree : ¬((some n).isNone = true ∧ wordLimit ≤ names.size) := fun hfull =>
      Bool.false_ne_true hfull.1
    rw [hat, if_neg hfree, intern, hf]
    exact ⟨rfl, h⟩
  | none =>
    have hnone : x.index[s]? = none := by
      refine Option.eq_none_iff_forall_ne_some.2 fun i hi => find?_eq_none hf ?_
      have := (h.index s i).1 hi
      rw [h.strings] at this
      exact Array.mem_of_getElem? this
    have hsize : x.strings.size = names.size := congrArg Array.size h.strings
    rw [hnone]
    by_cases hroom : x.strings.size < wordLimit
    · have hfree : ¬((none : Option Name).isNone = true ∧ wordLimit ≤ names.size) := by omega
      rw [if_neg hfree, intern_of_find?_none hf, hsize]
      dsimp only
      rw [if_pos (hsize ▸ hroom), ← hsize]
      exact ⟨rfl, h.push hnone⟩
    · have hfull : (none : Option Name).isNone = true ∧ wordLimit ≤ names.size := ⟨rfl, by omega⟩
      rw [if_pos hfull]
      dsimp only
      rw [if_neg hroom, hsize]
      exact ⟨rfl, h⟩

/-- While the strings can be numbered, a table gives the names that its interner gives. -/
theorem serve (h : x.Represents names) (hd : names.Distinct) (calls : List Call)
    (hroom : (names.held (calls.map Call.string)).length ≤ wordLimit) :
    (x.serve (calls.map Call.string)).1 = (names.serve calls).1 ∧
      (x.serve (calls.map Call.string)).2.Represents (names.serve calls).2 := by
  induction calls generalizing x names with
  | nil => exact ⟨rfl, h⟩
  | cons call calls ih =>
    have hsame : names.answer (.tryIntern call.string) = names.answer call :=
      (answer_eq hd (.tryIntern call.string) hroom).trans (answer_eq hd call hroom).symm
    obtain ⟨hfirst, hnext⟩ := h.ask call.string
    rw [hsame, answer_eq hd call hroom] at hfirst hnext
    have hrest : ((names.intern call.string).2.held (calls.map Call.string)).length ≤ wordLimit := by
      rwa [held_intern]
    obtain ⟨hothers, hlast⟩ := ih hnext (intern_distinct hd call.string) hrest
    rw [Interner.serve, answer_eq hd call hroom]
    exact ⟨List.cons_eq_cons.2 ⟨hfirst, hothers⟩, hlast⟩

/-- From the start. -/
theorem new : Table.new.Represents Interner.new := by
  have hasked : (initial.map Call.intern).map Call.string = initial := by
    rw [List.map_map]
    exact List.map_id initial
  have hd : (⟨#[]⟩ : Interner).Distinct := List.nodup_nil
  have hheld : (⟨#[]⟩ : Interner).held initial = initial := eraseDups_of_nodup new_distinct
  have hroom : ((⟨#[]⟩ : Interner).held ((initial.map Call.intern).map Call.string)).length ≤ wordLimit := by
    rw [hasked, hheld]
    decide
  obtain ⟨final, hserve, -, hstrings⟩ := serve_eq hd (initial.map Call.intern) hroom
  have hfinal : final = Interner.new := by
    rw [hasked, hheld] at hstrings
    exact congrArg Interner.mk (Array.toList_inj.1 hstrings)
  have := (Represents.empty.serve hd (initial.map Call.intern) hroom).2
  rwa [hasked, hserve, hfinal] at this

end Represents

end Table

/-! ## Names of the strings asked for -/

/-- The strings asked for that are not there from the start, in the order in which they first come. -/
def fresh (asked : List String) : List String := (asked.removeAll initial).eraseDups

theorem length_initial : initial.length = 15 := rfl

theorem held_new (asked : List String) : new.held asked = initial ++ fresh asked := by
  rw [held, List.eraseDups_append, eraseDups_of_nodup new_distinct]
  rfl

/-- The names that were given for the strings asked for correspond to them. -/
structure Correspond (asked : List String) (given : List Name) (names : Interner) : Prop where
  length : given.length = asked.length
  /-- Two calls give the same name exactly if they ask for the same string. -/
  same_iff : ∀ p ∈ asked.zip given, ∀ q ∈ asked.zip given, p.2 = q.2 ↔ p.1 = q.1
  /-- A name gives its string back, now and after any further calls. -/
  lookup : ∀ p ∈ asked.zip given, ∀ more, (names.serve more).2.lookup p.2 = p.1
  /-- So does the name of the empty string, which is always the same. -/
  empty : (∀ more, (names.serve more).2.lookup .empty = "") ∧
    ∀ p ∈ asked.zip given, p.1 = "" → p.2 = .empty
  /-- The `n`-th string that is not there from the start has the index `14 + n`. -/
  numbered : ∀ n s, 0 < n → (fresh asked)[n - 1]? = some s →
    (s, ⟨14 + n⟩) ∈ asked.zip given
  size : names.size = (initial ++ asked).eraseDups.length
  /-- No string is behind an index that was not given. -/
  vacant : ∀ i, initial.length ≤ i → ⟨i⟩ ∉ given → names.lookup ⟨i⟩ = ""

theorem mem_asked_of_fresh {s : String} {asked : List String} (h : s ∈ fresh asked) : s ∈ asked :=
  (List.mem_filter.1 (List.mem_eraseDups.1 h)).1

/-- A name that is behind a string stays there. -/
theorem lookup_serve {names : Interner} {n : Name} {s : String} (h : names.strings[n.index]? = some s)
    (more : List Call) : (names.serve more).2.lookup n = s :=
  lookup_of_getElem? (kept_serve names more _ _ h)

section View

variable {names : Interner} {asked : List String} (hheld : names.strings.toList = initial ++ fresh asked)
include hheld

theorem getElem?_fresh {i : Nat} (hi : initial.length ≤ i) :
    names.strings[i]? = (fresh asked)[i - initial.length]? := by
  rw [← Array.getElem?_toList, hheld, List.getElem?_append_right hi]

theorem getElem?_zero : names.strings[0]? = some "" := by
  rw [← Array.getElem?_toList, hheld]
  rfl

variable (hd : names.Distinct)
include hd

/-- A string that was asked for is stored at the index of its name. -/
theorem exists_stored {s : String} (hs : s ∈ asked) :
    ∃ i : Nat, names.strings[i]? = some s ∧ (names.intern s).1 = ⟨i⟩ := by
  have hmem : s ∈ names.strings.toList := by
    rw [hheld, ← held_new, held]
    exact List.mem_eraseDups.2 (List.mem_append_right _ hs)
  obtain ⟨i, hi⟩ := List.mem_iff_getElem?.1 hmem
  rw [Array.getElem?_toList] at hi
  exact ⟨i, hi, congrArg Prod.fst (intern_of_getElem? hd hi)⟩

/-- What an interner holds tells which names it gives. -/
theorem correspond_of_held : Correspond asked (asked.map fun s => (names.intern s).1) names := by
  have hpairs : asked.zip (asked.map fun s => (names.intern s).1) =
      asked.map fun s => (s, (names.intern s).1) := by
    have := List.zip_map' (f := id) (g := fun s => (names.intern s).1) (l := asked)
    rwa [List.map_id] at this
  constructor
  case length => exact List.length_map _
  case same_iff =>
    rw [hpairs]
    intro p hp q hq
    obtain ⟨s, hs, rfl⟩ := List.mem_map.1 hp
    obtain ⟨t, ht, rfl⟩ := List.mem_map.1 hq
    refine ⟨fun h => ?_, fun h => congrArg (fun s => (names.intern s).1) h⟩
    obtain ⟨i, hi, hn⟩ := exists_stored hheld hd hs
    obtain ⟨j, hj, hm⟩ := exists_stored hheld hd ht
    obtain rfl : i = j := Name.mk.inj (hn.symm.trans (h.trans hm))
    exact Option.some.inj (hi.symm.trans hj)
  case lookup =>
    rw [hpairs]
    intro p hp more
    obtain ⟨s, hs, rfl⟩ := List.mem_map.1 hp
    obtain ⟨i, hi, hn⟩ := exists_stored hheld hd hs
    exact lookup_serve (by rwa [hn]) more
  case empty =>
    rw [hpairs]
    refine ⟨lookup_serve (getElem?_zero hheld), fun p hp hempty => ?_⟩
    obtain ⟨s, -, rfl⟩ := List.mem_map.1 hp
    obtain rfl : s = "" := hempty
    exact congrArg Prod.fst (intern_of_getElem? hd (getElem?_zero hheld))
  case numbered =>
    rw [hpairs]
    intro n s hn hs
    have hplace : 14 + n - initial.length = n - 1 := by rw [length_initial]; omega
    have hat : names.strings[14 + n]? = some s := by
      rw [getElem?_fresh hheld (by rw [length_initial]; omega), hplace, hs]
    have hasked := mem_asked_of_fresh (List.mem_of_getElem? hs)
    exact List.mem_map.2 ⟨s, hasked, by rw [intern_of_getElem? hd hat]⟩
  case size =>
    rw [size, ← Array.length_toList, hheld, ← held_new, held]
    rfl
  case vacant =>
    intro i hi hvacant
    rw [lookup, Array.getD_eq_getD_getElem?]
    cases hat : names.strings[i]? with
    | none => rfl
    | some s =>
      -- otherwise a call has asked for the string there
      have hfresh := (getElem?_fresh hheld hi).symm.trans hat
      have hasked := mem_asked_of_fresh (List.mem_of_getElem? hfresh)
      exact (hvacant (List.mem_map.2 ⟨s, hasked, by rw [intern_of_getElem? hd hat]⟩)).elim

end View

/-- While the strings can be numbered, every call gives a name; names and strings correspond; and a table
gives the same names. -/
theorem names_correspond (calls : List Call)
    (hroom : (initial ++ calls.map Call.string).eraseDups.length ≤ wordLimit) :
    ∃ given names, new.serve calls = (given.map .ok, names) ∧
      Correspond (calls.map Call.string) given names ∧
      (Table.new.serve (calls.map Call.string)).1 = given.map .ok ∧
      (Table.new.serve (calls.map Call.string)).2.Represents names := by
  obtain ⟨names, hserve, hd, hheld⟩ := serve_eq new_distinct calls hroom
  have htable := Table.Represents.new.serve new_distinct calls hroom
  have hgiven : (calls.map fun call => Except.ok (ε := InternError) (names.intern call.string).1) =
      ((calls.map Call.string).map fun s => (names.intern s).1).map .ok := by
    simp only [List.map_map]
    rfl
  rw [hserve, hgiven] at htable
  rw [hgiven] at hserve
  exact ⟨_, names, hserve, correspond_of_held (hheld.trans (held_new _)) hd, htable⟩

/-- A reserved word, a string asked for twice and the empty string. -/
theorem reserved_among_names :
    (initial ++ ["b", "let", "a", "", "b"]).eraseDups.length ≤ wordLimit ∧
    ∃ given names, new.serve [.intern "b", .tryIntern "let", .intern "a", .intern "", .tryIntern "b"] =
        (given.map .ok, names) ∧ Correspond ["b", "let", "a", "", "b"] given names ∧
      (Table.new.serve ["b", "let", "a", "", "b"]).1 = given.map .ok ∧
      (Table.new.serve ["b", "let", "a", "", "b"]).2.Represents names := by
  have hroom : (initial ++ ["b", "let", "a", "", "b"]).eraseDups.length ≤ wordLimit := by decide
  exact ⟨hroom, names_correspond
    [.intern "b", .tryIntern "let", .intern "a", .intern "", .tryIntern "b"] hroom⟩

end Interner

end SolSyntax
