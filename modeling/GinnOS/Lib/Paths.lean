import Mathlib.Data.List.TakeWhile

/-! # Paths

A path is a list of letters with a separator between its components.  Walking its components from
the left keeps a stack: an empty component and `.` do nothing, `..` drops the last component.
`render` writes a stack as an absolute path, and splitting that gives the stack back
(`splitOn_render`).
-/

namespace Lib.Path

open List

variable {α : Type} [DecidableEq α] (sep dot : α)

/-- One component is processed. -/
def walk (stack : List (List α)) (c : List α) : List (List α) :=
  if c = [] ∨ c = [dot] then stack
  else if c = [dot, dot] then stack.dropLast
  else stack ++ [c]

def resolve (components : List (List α)) : List (List α) := components.foldl (walk dot) []

def render (stack : List (List α)) : List α := if stack = [] then [sep] else stack.flatMap (sep :: ·)

/-- A component that names something. -/
structure Proper (c : List α) : Prop where
  nonempty : c ≠ []
  notDot : c ≠ [dot]
  notUp : c ≠ [dot, dot]
  plain : sep ∉ c

/-- An absolute path without empty components, `.` and `..`; only the root ends with the separator. -/
def Canonical (path : List α) : Prop := path = [sep] ∨ ∃ components, components ≠ [] ∧ path.splitOn sep = [] :: components ∧
  ∀ c ∈ components, Proper sep dot c

instance Proper.decide (c : List α) : Decidable (Proper sep dot c) :=
  decidable_of_iff (c ≠ [] ∧ c ≠ [dot] ∧ c ≠ [dot, dot] ∧ sep ∉ c)
    ⟨fun ⟨a, b, c, d⟩ => ⟨a, b, c, d⟩, fun ⟨a, b, c, d⟩ => ⟨a, b, c, d⟩⟩

instance Canonical.decide (path : List α) : Decidable (Canonical sep dot path) :=
  decidable_of_iff (path = [sep] ∨ (path.splitOn sep).tail ≠ [] ∧ (path.splitOn sep).head? = some [] ∧
      ∀ c ∈ (path.splitOn sep).tail, Proper sep dot c) <| by
    refine or_congr Iff.rfl ⟨fun ⟨nonempty, rooted, proper⟩ => ⟨_, nonempty, ?_, proper⟩, ?_⟩
    · obtain ⟨components, isSplit⟩ := List.head?_eq_some_iff.mp rooted
      rw [isSplit, List.tail_cons]
    · rintro ⟨components, nonempty, isSplit, proper⟩
      rw [isSplit]
      exact ⟨nonempty, rfl, proper⟩

variable {sep dot} {stack : List (List α)} {c : List α}

theorem Proper.walk (proper : Proper sep dot c) : walk dot stack c = stack ++ [c] := by
  rw [Path.walk, if_neg (not_or.mpr ⟨proper.nonempty, proper.notDot⟩), if_neg proper.notUp]

theorem foldl_walk_proper (components : List (List α)) (proper : ∀ c ∈ components, Proper sep dot c) :
    components.foldl (walk dot) stack = stack ++ components := by
  induction components generalizing stack with
  | nil => exact (append_nil stack).symm
  | cons c components ih =>
    rw [foldl_cons, (proper c mem_cons_self).walk, ih fun c' member => proper c' (mem_cons_of_mem c member),
      append_assoc, singleton_append]

omit [DecidableEq α] in
theorem render_concat (stack : List (List α)) (c : List α) :
    render sep (stack ++ [c]) = render sep stack ++ if stack = [] then c else sep :: c := by
  by_cases empty : stack = []
  · simp [render, empty]
  · simp [render, empty]

theorem splitOn_append (c : List α) (plain : sep ∉ c) (rest : List α) :
    (c ++ sep :: rest).splitOn sep = c :: rest.splitOn sep := by
  rw [splitOn_append_cons_self, splitOn_eq_singleton plain, singleton_append]

theorem splitOn_sep_cons (rest : List α) : (sep :: rest).splitOn sep = [] :: rest.splitOn sep :=
  splitOn_append [] not_mem_nil rest

theorem splitOn_render (stack : List (List α)) (nonempty : stack ≠ []) (plain : ∀ c ∈ stack, sep ∉ c) :
    (render sep stack).splitOn sep = [] :: stack := by
  rw [render, if_neg nonempty]
  induction stack with
  | nil => exact absurd rfl nonempty
  | cons c stack ih =>
    have plainHere := plain c mem_cons_self
    rw [flatMap_cons, cons_append, splitOn_sep_cons]
    congr 1
    cases stack with
    | nil => rw [flatMap_nil, append_nil, splitOn_eq_singleton plainHere]
    | cons next stack =>
      have later := ih (cons_ne_nil next stack) fun c' member => plain c' (mem_cons_of_mem c member)
      rw [flatMap_cons, cons_append, splitOn_sep_cons] at later
      rw [flatMap_cons, cons_append, splitOn_append c plainHere, (cons.inj later).2]

theorem canonical_render (proper : ∀ c ∈ stack, Proper sep dot c) : Canonical sep dot (render sep stack) := by
  by_cases empty : stack = []
  · exact .inl (by rw [render, if_pos empty])
  · exact .inr ⟨stack, empty, splitOn_render stack empty fun c member => (proper c member).plain, proper⟩

theorem resolve_render (proper : ∀ c ∈ stack, Proper sep dot c) : resolve dot ((render sep stack).splitOn sep) = stack := by
  by_cases empty : stack = []
  · rw [empty, render, if_pos rfl]
    simp [resolve, walk, splitOn_sep_cons]
  · rw [splitOn_render stack empty fun c member => (proper c member).plain, resolve, foldl_cons,
      show walk dot [] [] = ([] : List (List α)) from if_pos (.inl rfl), foldl_walk_proper stack proper, nil_append]

omit [DecidableEq α] in
theorem render_append (nonempty : stack ≠ []) (more : List (List α)) :
    render sep (stack ++ more) = render sep stack ++ more.flatMap (sep :: ·) := by
  rw [render, render, if_neg nonempty, if_neg (append_ne_nil_of_left_ne_nil nonempty more), flatMap_append]

theorem eq_of_splitOn (sep : α) {path path' : List α} (same : path.splitOn sep = path'.splitOn sep) : path = path' := by
  have whole : [sep].intercalate (path.splitOn sep) = path := intercalate_splitOn sep
  have whole' : [sep].intercalate (path'.splitOn sep) = path' := intercalate_splitOn sep
  rw [same, whole'] at whole
  exact whole.symm

theorem Canonical.exists_stack {path : List α} (canonical : Canonical sep dot path) :
    ∃ stack, (∀ c ∈ stack, Proper sep dot c) ∧ path = render sep stack := by
  rcases canonical with isRoot | ⟨components, nonempty, split, proper⟩
  · exact ⟨[], fun c member => absurd member not_mem_nil, by rw [isRoot, render, if_pos rfl]⟩
  · refine ⟨components, proper, eq_of_splitOn sep ?_⟩
    rw [split, splitOn_render components nonempty fun c member => (proper c member).plain]

theorem render_ne_root (nonempty : stack ≠ []) (proper : ∀ c ∈ stack, Proper sep dot c) : render sep stack ≠ [sep] := by
  intro isRoot
  have split := splitOn_render stack nonempty fun c member => (proper c member).plain
  rw [isRoot, splitOn_sep_cons, splitOn_nil, cons.injEq] at split
  exact (proper [] (split.2 ▸ mem_singleton.mpr rfl)).nonempty rfl

theorem render_injective {stack' : List (List α)} (proper : ∀ c ∈ stack, Proper sep dot c)
    (proper' : ∀ c ∈ stack', Proper sep dot c) (same : render sep stack = render sep stack') : stack = stack' := by
  rw [← resolve_render proper, same, resolve_render proper']

/-! ## Walking along a path -/

/-- The stack after the components of a path. -/
def follow (sep dot : α) (stack : List (List α)) (path : List α) : List (List α) := (path.splitOn sep).foldl (walk dot) stack

theorem walk_nil (stack : List (List α)) : walk dot stack [] = stack := if_pos (.inl rfl)

section Fold

variable {β : Type} {g : β → List α → β} (skip : ∀ b, g b [] = b) (b : β)

include skip

theorem foldl_splitOn_sep_cons (path : List α) : ((sep :: path).splitOn sep).foldl g b = (path.splitOn sep).foldl g b := by
  rw [splitOn_sep_cons, foldl_cons, skip]

theorem foldl_splitOn_dropWhile (path : List α) :
    ((path.dropWhile (· == sep)).splitOn sep).foldl g b = (path.splitOn sep).foldl g b := by
  induction path with
  | nil => rfl
  | cons a path ih =>
    rw [dropWhile_cons]
    split
    · next isSep => rw [ih, beq_iff_eq.mp isSep, foldl_splitOn_sep_cons skip]
    · rfl

theorem foldl_splitOn_takeWhile (path : List α) : (path.splitOn sep).foldl g b =
    ((path.dropWhile (· != sep)).splitOn sep).foldl g (g b (path.takeWhile (· != sep))) := by
  have plain : sep ∉ path.takeWhile (· != sep) := fun member => by
    have := mem_takeWhile_imp member
    simp at this
  have whole := takeWhile_append_dropWhile (p := (· != sep)) (l := path)
  have stopped := head?_dropWhile_not (· != sep) path
  cases rest : path.dropWhile (· != sep) with
  | nil =>
    rw [rest, append_nil] at whole
    rw [whole] at plain ⊢
    rw [splitOn_eq_singleton plain, splitOn_nil, foldl_cons, foldl_nil, foldl_cons, foldl_nil, skip]
  | cons a rest' =>
    have isSep : a = sep := by simpa [rest] using stopped
    rw [rest, isSep] at whole
    have cut := congrArg (splitOn sep) whole.symm
    rw [cut, splitOn_append _ plain, foldl_cons, isSep, foldl_splitOn_sep_cons skip]

end Fold

@[simp] theorem follow_nil (stack : List (List α)) : follow sep dot stack [] = stack := by
  simp [follow, walk_nil]

theorem follow_append_cons (stack : List (List α)) (first rest : List α) :
    follow sep dot stack (first ++ sep :: rest) = follow sep dot (follow sep dot stack first) rest := by
  rw [follow, splitOn_append_cons_self, foldl_append]
  rfl

@[simp] theorem follow_sep_cons (stack : List (List α)) (path : List α) :
    follow sep dot stack (sep :: path) = follow sep dot stack path := foldl_splitOn_sep_cons walk_nil stack path

theorem follow_append_sep (stack : List (List α)) (path : List α) :
    follow sep dot stack (path ++ [sep]) = follow sep dot stack path := by
  rw [follow_append_cons, follow_nil]

end Lib.Path
