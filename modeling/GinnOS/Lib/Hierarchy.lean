import Mathlib.Data.List.Perm.Basic
import Mathlib.Data.List.Count

/-! # Hierarchies

A hierarchy has a root, a list of children for every node, and an upward link.
Some nodes may occur once only (`single`), among them those that have children of
their own (`dir`).  `Tree` says that this is so and that the upward links are
right, for everything that is reachable from the root.

The rules say what becomes of a tree, and of what is reachable, when a new node
is entered (`Tree.add`), when an entry is taken out (`Tree.drop`), and when an
entry goes from one node to another (`Tree.move`).  Lists of children count up to
order.
-/

namespace Lib

open List

variable {α : Type}

structure Hierarchy (α : Type) where
  root : α
  children : α → List α
  up : α → α
  single : α → Prop
  dir : α → Prop
  dir_single : ∀ c, dir c → single c

namespace Hierarchy

/-- `c` is `d` or below it. -/
def Below (H : Hierarchy α) (d c : α) : Prop :=
  Relation.ReflTransGen (fun d c => c ∈ H.children d) d c

def Reach (H : Hierarchy α) (c : α) : Prop := H.Below H.root c

variable {H K : Hierarchy α}

theorem reach_root : H.Reach H.root := .refl

theorem Below.child {a d c : α} (below : H.Below a d) (child : c ∈ H.children d) : H.Below a c :=
  .tail below child

theorem Reach.child {d c : α} (reach : H.Reach d) (child : c ∈ H.children d) : H.Reach c :=
  .tail reach child

/-- What holds of the root and goes on to children holds of everything reachable. -/
theorem Below.induct {P : α → Prop} {a c : α} (below : H.Below a c) (start : P a)
    (step : ∀ d c, H.Below a d → P d → c ∈ H.children d → P c) : P c := by
  induction below with
  | refl => exact start
  | tail before child ih => exact step _ _ before ih child

theorem Reach.parent {c : α} (reach : H.Reach c) :
    c = H.root ∨ ∃ d, H.Reach d ∧ c ∈ H.children d := by
  cases reach with
  | refl => exact .inl rfl
  | tail before child => exact .inr ⟨_, before, child⟩

/-- The two hierarchies have the same root, and the reachable nodes of the first are of the same
kind in the second. -/
structure SameKinds (H K : Hierarchy α) : Prop where
  root : K.root = H.root
  single : ∀ d, H.Reach d → (K.single d ↔ H.single d)
  dir : ∀ d, H.Reach d → (K.dir d ↔ H.dir d)

theorem reach_congr (kinds : SameKinds H K)
    (same : ∀ d, H.Reach d → (K.children d).Perm (H.children d)) (x : α) : K.Reach x ↔ H.Reach x := by
  constructor
  · intro reach
    refine reach.induct (P := H.Reach) (by rw [kinds.root]; exact reach_root) fun d c _ before child => ?_
    exact before.child ((same d before).mem_iff.mp child)
  · intro reach
    refine reach.induct (P := K.Reach) (by rw [← kinds.root]; exact reach_root) ?_
    intro d c known before child
    exact before.child ((same d known).mem_iff.mpr child)

variable [DecidableEq α]

structure Tree (H : Hierarchy α) : Prop where
  rootDir : H.dir H.root
  rootless : ∀ d, H.Reach d → H.root ∉ H.children d
  once : ∀ d c, H.Reach d → H.single c → (H.children d).count c ≤ 1
  unique : ∀ d d' c, H.Reach d → H.Reach d' → H.single c → c ∈ H.children d → c ∈ H.children d' → d = d'
  upRoot : H.up H.root = H.root
  up : ∀ d c, H.Reach d → H.dir c → c ∈ H.children d → H.up c = d

theorem SameKinds.rootDir (kinds : SameKinds H K) (tree : H.Tree) : K.dir K.root := by
  rw [kinds.root, kinds.dir _ reach_root]
  exact tree.rootDir

theorem Tree.not_self (tree : H.Tree) {p : α} (reach : H.Reach p) (one : H.single p) :
    p ∉ H.children p := by
  intro self
  refine reach.induct (P := (· ≠ p)) ?_ ?_ rfl
  · intro same
    exact tree.rootless p reach (by rw [same]; exact self)
  · intro d c before other child same
    rw [same] at child
    exact other (tree.unique d p p before reach one child self)

theorem Tree.congr (tree : H.Tree) (kinds : SameKinds H K)
    (same : ∀ d, H.Reach d → (K.children d).Perm (H.children d))
    (ups : ∀ d, H.Reach d → H.dir d → K.up d = H.up d) : K.Tree := by
  have reach := reach_congr kinds same
  have child {d c : α} (known : H.Reach d) (inside : c ∈ K.children d) : c ∈ H.children d :=
    (same d known).mem_iff.mp inside
  refine ⟨kinds.rootDir tree, ?_, ?_, ?_, ?_, ?_⟩
  · intro d known inside
    rw [reach] at known
    rw [kinds.root] at inside
    exact tree.rootless d known (child known inside)
  · intro d c known one
    rw [reach] at known
    rw [(same d known).count_eq]
    by_cases inside : c ∈ H.children d
    · exact tree.once d c known ((kinds.single c (known.child inside)).mp one)
    · rw [count_eq_zero_of_not_mem inside]
      exact Nat.zero_le 1
  · intro d d' c known known' one inside inside'
    rw [reach] at known known'
    have inside := child known inside
    exact tree.unique d d' c known known' ((kinds.single c (known.child inside)).mp one) inside
      (child known' inside')
  · rw [kinds.root, ups _ reach_root tree.rootDir, tree.upRoot]
  · intro d c known isDir inside
    rw [reach] at known
    have inside := child known inside
    have isDir := (kinds.dir c (known.child inside)).mp isDir
    rw [ups c (known.child inside) isDir, tree.up d c known isDir inside]

/-! ## A new entry -/

section Add

variable {p c : α} (entered : (K.children p).Perm (c :: H.children p))
  (others : ∀ d, H.Reach d → d ≠ p → (K.children d).Perm (H.children d))

include entered others

theorem add_child {d x : α} (known : H.Reach d) :
    x ∈ K.children d ↔ x ∈ H.children d ∨ (d = p ∧ x = c) := by
  by_cases here : d = p
  · rw [here, entered.mem_iff, mem_cons]
    tauto
  · rw [(others d known here).mem_iff]
    tauto

variable (kinds : SameKinds H K) (reached : H.Reach p) (leaf : K.children c = [])

include kinds reached leaf

theorem add_reach (x : α) : K.Reach x ↔ H.Reach x ∨ x = c := by
  have child {d x : α} (known : H.Reach d) := add_child entered others (x := x) known
  have kept {x : α} (reach : H.Reach x) : K.Reach x := by
    refine reach.induct (P := K.Reach) (by rw [← kinds.root]; exact reach_root) ?_
    intro d c known before inside
    exact before.child ((child known).mpr (.inl inside))
  constructor
  · intro reach
    refine reach.induct (P := fun x => H.Reach x ∨ x = c) (by rw [kinds.root]; exact .inl reach_root) ?_
    rintro d x _ (known | rfl) inside
    · rcases (child known).mp inside with old | ⟨_, new⟩
      · exact .inl (known.child old)
      · exact .inr new
    · rw [leaf] at inside
      cases inside
  · rintro (known | rfl)
    · exact kept known
    · exact (kept reached).child ((child reached).mpr (.inr ⟨rfl, rfl⟩))

/-- A new leaf is entered once, so the hierarchy stays a tree. -/
theorem Tree.add (tree : H.Tree) (fresh : ¬ H.Reach c) (ups : ∀ d, H.Reach d → H.dir d → K.up d = H.up d)
    (upNew : K.dir c → K.up c = p) : K.Tree := by
  have child {d x : α} (known : H.Reach d) := add_child entered others (x := x) known
  -- The new node has no children, so an entry is in an old node.
  have old {d x : α} (reach : K.Reach d) (inside : x ∈ K.children d) : H.Reach d := by
    rcases (add_reach entered others kinds reached leaf d).mp reach with known | rfl
    · exact known
    · rw [leaf] at inside
      cases inside
  have cases_child {d x : α} (known : H.Reach d) (inside : x ∈ K.children d) :
      (x ≠ c ∧ x ∈ H.children d) ∨ (x = c ∧ d = p) := by
    rcases (child known).mp inside with before | ⟨here, new⟩
    · exact .inl ⟨fun same => fresh (same ▸ known.child before), before⟩
    · exact .inr ⟨new, here⟩
  refine ⟨kinds.rootDir tree, ?_, ?_, ?_, ?_, ?_⟩
  · intro d reach inside
    have known := old reach inside
    rw [kinds.root] at inside
    rcases cases_child known inside with ⟨_, before⟩ | ⟨same, _⟩
    · exact tree.rootless d known before
    · exact fresh (same ▸ reach_root)
  · intro d x reach one
    by_cases inside : x ∈ K.children d
    · have known := old reach inside
      rcases cases_child known inside with ⟨other, before⟩ | ⟨rfl, rfl⟩
      · have one := (kinds.single x (known.child before)).mp one
        have count : (K.children d).count x = (H.children d).count x := by
          by_cases here : d = p
          · rw [here, entered.count_eq, count_cons_of_ne (Ne.symm other)]
          · exact (others d known here).count_eq x
        rw [count]
        exact tree.once d x known one
      · have none : (H.children d).count x = 0 :=
          count_eq_zero_of_not_mem fun before => fresh (known.child before)
        refine Nat.le_of_eq ?_
        rw [entered.count_eq, count_cons_self, none]
    · rw [count_eq_zero_of_not_mem inside]
      exact Nat.zero_le 1
  · intro d d' x reach reach' one inside inside'
    have known := old reach inside
    have known' := old reach' inside'
    rcases cases_child known inside with ⟨other, before⟩ | ⟨same, here⟩
    · rcases cases_child known' inside' with ⟨_, before'⟩ | ⟨same', _⟩
      · exact tree.unique d d' x known known' ((kinds.single x (known.child before)).mp one) before before'
      · exact absurd same' other
    · rcases cases_child known' inside' with ⟨other', _⟩ | ⟨_, here'⟩
      · exact absurd same other'
      · rw [here, here']
  · rw [kinds.root, ups _ reach_root tree.rootDir, tree.upRoot]
  · intro d x reach isDir inside
    have known := old reach inside
    rcases cases_child known inside with ⟨_, before⟩ | ⟨rfl, rfl⟩
    · have isDir := (kinds.dir x (known.child before)).mp isDir
      rw [ups x (known.child before) isDir, tree.up d x known isDir before]
    · exact upNew isDir

end Add

/-! ## An entry that is taken out -/

section Drop

variable {p c : α} (tree : H.Tree) (reached : H.Reach p) (one : H.single c)
  (removed : (H.children p).Perm (c :: K.children p))
  (others : ∀ d, H.Reach d → d ≠ p → (K.children d).Perm (H.children d))

include tree reached one removed others

theorem drop_child {d x : α} (known : H.Reach d) : x ∈ K.children d ↔ x ∈ H.children d ∧ x ≠ c := by
  have entry : c ∈ H.children p := removed.mem_iff.mpr mem_cons_self
  by_cases here : d = p
  · have last : c ∉ K.children p := by
      have count := removed.count_eq c
      have bound := tree.once p c reached one
      rw [count_cons_self] at count
      exact count_eq_zero.mp (by omega)
    rw [here, removed.mem_iff, mem_cons]
    constructor
    · exact fun inside => ⟨.inr inside, fun same => last (same ▸ inside)⟩
    · exact fun ⟨inside, other⟩ => inside.resolve_left other
  · rw [(others d known here).mem_iff]
    constructor
    · exact fun inside => ⟨inside, fun same => here (tree.unique d p c known reached one (same ▸ inside) entry)⟩
    · exact fun inside => inside.1

variable (kinds : SameKinds H K)

include kinds

theorem drop_reach {x : α} (reach : K.Reach x) : H.Reach x ∧ x ≠ c := by
  have entry : c ∈ H.children p := removed.mem_iff.mpr mem_cons_self
  refine reach.induct (P := fun x => H.Reach x ∧ x ≠ c) ?_ ?_
  · rw [kinds.root]
    exact ⟨reach_root, fun same => tree.rootless p reached (same ▸ entry)⟩
  · rintro d x _ ⟨known, _⟩ inside
    obtain ⟨before, other⟩ := (drop_child tree reached one removed others known).mp inside
    exact ⟨known.child before, other⟩

theorem drop_reach_iff (leaf : H.children c = []) (x : α) : K.Reach x ↔ H.Reach x ∧ x ≠ c := by
  refine ⟨drop_reach tree reached one removed others kinds, ?_⟩
  rintro ⟨reach, other⟩
  refine reach.induct (P := fun x => x ≠ c → K.Reach x)
    (fun _ => by rw [← kinds.root]; exact reach_root) ?_ other
  intro d x known before inside other
  have parent : d ≠ c := by
    rintro rfl
    rw [leaf] at inside
    cases inside
  exact (before parent).child
    ((drop_child tree reached one removed others known).mpr ⟨inside, other⟩)

theorem Tree.drop (ups : ∀ d, H.Reach d → H.dir d → K.up d = H.up d) : K.Tree := by
  have child {d x : α} (known : H.Reach d) :=
    drop_child tree reached one removed others (x := x) known
  have old {d : α} (reach : K.Reach d) := (drop_reach tree reached one removed others kinds reach).1
  refine ⟨kinds.rootDir tree, ?_, ?_, ?_, ?_, ?_⟩
  · intro d reach inside
    rw [kinds.root] at inside
    exact tree.rootless d (old reach) ((child (old reach)).mp inside).1
  · intro d x reach only
    have known := old reach
    by_cases inside : x ∈ K.children d
    · obtain ⟨before, other⟩ := (child known).mp inside
      have count : (K.children d).count x = (H.children d).count x := by
        by_cases here : d = p
        · rw [here, removed.count_eq, count_cons_of_ne (Ne.symm other)]
        · exact (others d known here).count_eq x
      rw [count]
      exact tree.once d x known ((kinds.single x (known.child before)).mp only)
    · rw [count_eq_zero_of_not_mem inside]
      exact Nat.zero_le 1
  · intro d d' x reach reach' only inside inside'
    have before := ((child (old reach)).mp inside).1
    exact tree.unique d d' x (old reach) (old reach')
      ((kinds.single x ((old reach).child before)).mp only) before ((child (old reach')).mp inside').1
  · rw [kinds.root, ups _ reach_root tree.rootDir, tree.upRoot]
  · intro d x reach isDir inside
    have before := ((child (old reach)).mp inside).1
    have isDir := (kinds.dir x ((old reach).child before)).mp isDir
    rw [ups x ((old reach).child before) isDir, tree.up d x (old reach) isDir before]

end Drop

/-! ## An entry that moves -/

section Move

variable {p q c : α} (tree : H.Tree) (reached : H.Reach p) (target : H.Reach q) (apart : p ≠ q)
  (removed : (H.children p).Perm (c :: K.children p))
  (entered : (K.children q).Perm (c :: H.children q))
  (others : ∀ d, H.Reach d → d ≠ p → d ≠ q → (K.children d).Perm (H.children d))

include removed entered others

theorem move_count {d x : α} (known : H.Reach d) (other : x ≠ c) :
    (K.children d).count x = (H.children d).count x := by
  by_cases source : d = p
  · rw [source, removed.count_eq, count_cons_of_ne (Ne.symm other)]
  · by_cases goal : d = q
    · rw [goal, entered.count_eq, count_cons_of_ne (Ne.symm other)]
    · exact (others d known source goal).count_eq x

theorem move_child {d x : α} (known : H.Reach d) (other : x ≠ c) :
    x ∈ K.children d ↔ x ∈ H.children d := by
  rw [← count_pos_iff, ← count_pos_iff, move_count removed entered others known other]

include reached

theorem move_reach (kinds : SameKinds H K) {x : α} (reach : K.Reach x) : H.Reach x := by
  refine reach.induct (P := H.Reach) (by rw [kinds.root]; exact reach_root) ?_
  intro d x _ known inside
  by_cases moved : x = c
  · rw [moved]
    exact reached.child (removed.mem_iff.mpr mem_cons_self)
  · exact known.child ((move_child removed entered others known moved).mp inside)

include tree target apart

/-- A node that may occur once is now in its new place only. -/
theorem move_self (one : H.single c) {d : α} (known : H.Reach d) : c ∈ K.children d ↔ d = q := by
  have entry : c ∈ H.children p := removed.mem_iff.mpr mem_cons_self
  constructor
  · intro inside
    by_contra goal
    by_cases source : d = p
    · have count := removed.count_eq c
      have bound := tree.once p c reached one
      rw [count_cons_self] at count
      rw [source] at inside
      have := count_pos_iff.mpr inside
      omega
    · have before := (others d known source goal).mem_iff.mp inside
      exact source (tree.unique d p c known reached one before entry)
  · rintro rfl
    exact entered.mem_iff.mpr mem_cons_self

theorem Tree.move (kinds : SameKinds H K)
    (ups : ∀ d, H.Reach d → H.dir d → d ≠ c → K.up d = H.up d) (upMoved : H.dir c → K.up c = q) :
    K.Tree := by
  have entry : c ∈ H.children p := removed.mem_iff.mpr mem_cons_self
  have reachedChild : H.Reach c := reached.child entry
  have old {d : α} (reach : K.Reach d) := move_reach reached removed entered others kinds reach
  have child {d x : α} (known : H.Reach d) (other : x ≠ c) :=
    move_child removed entered others known other
  have self (one : H.single c) {d : α} (known : H.Reach d) :=
    move_self tree reached target apart removed entered others one known
  have rootOther : H.root ≠ c := fun same => tree.rootless p reached (same ▸ entry)
  refine ⟨kinds.rootDir tree, ?_, ?_, ?_, ?_, ?_⟩
  · intro d reach inside
    rw [kinds.root] at inside
    exact tree.rootless d (old reach) ((child (old reach) rootOther).mp inside)
  · intro d x reach only
    have known := old reach
    by_cases moved : x = c
    · subst moved
      have one := (kinds.single x reachedChild).mp only
      by_cases goal : d = q
      · have none : (H.children q).count x = 0 := by
          refine count_eq_zero_of_not_mem fun inside => ?_
          exact apart (tree.unique p q x reached target one entry inside)
        refine Nat.le_of_eq ?_
        rw [goal, entered.count_eq, count_cons_self, none]
      · rw [count_eq_zero_of_not_mem fun inside => goal ((self one known).mp inside)]
        exact Nat.zero_le 1
    · by_cases inside : x ∈ K.children d
      · have before := (child known moved).mp inside
        rw [move_count removed entered others known moved]
        exact tree.once d x known ((kinds.single x (known.child before)).mp only)
      · rw [count_eq_zero_of_not_mem inside]
        exact Nat.zero_le 1
  · intro d d' x reach reach' only inside inside'
    have known := old reach
    have known' := old reach'
    by_cases moved : x = c
    · subst moved
      have one := (kinds.single x reachedChild).mp only
      rw [(self one known).mp inside, (self one known').mp inside']
    · have before := (child known moved).mp inside
      exact tree.unique d d' x known known' ((kinds.single x (known.child before)).mp only) before
        ((child known' moved).mp inside')
  · rw [kinds.root, ups _ reach_root tree.rootDir rootOther, tree.upRoot]
  · intro d x reach isDir inside
    have known := old reach
    by_cases moved : x = c
    · subst moved
      have isDir := (kinds.dir x reachedChild).mp isDir
      rw [upMoved isDir, (self (H.dir_single x isDir) known).mp inside]
    · have before := (child known moved).mp inside
      have isDir := (kinds.dir x (known.child before)).mp isDir
      rw [ups x (known.child before) isDir moved, tree.up d x known isDir before]

omit tree apart in
theorem move_reach_iff (kinds : SameKinds H K) (outside : ¬ H.Below c q) (x : α) :
    K.Reach x ↔ H.Reach x := by
  refine ⟨move_reach reached removed entered others kinds, fun reach => ?_⟩
  -- First everything that is not below `c`, in particular `q`; then `c` and what is below it.
  have upper {x : α} (reach : H.Reach x) (apart : ¬ H.Below c x) : K.Reach x := by
    refine reach.induct (P := fun x => ¬ H.Below c x → K.Reach x)
      (fun _ => by rw [← kinds.root]; exact reach_root) ?_ apart
    intro d x known before inside apart
    have moved : x ≠ c := fun same => apart (same ▸ .refl)
    exact (before fun below => apart (below.child inside)).child
      ((move_child removed entered others known moved).mpr inside)
  have moved : K.Reach c :=
    (upper target outside).child (entered.mem_iff.mpr mem_cons_self)
  by_cases below : H.Below c x
  · have start : H.Reach c := reached.child (removed.mem_iff.mpr mem_cons_self)
    refine (below.induct (P := fun x => H.Reach x ∧ K.Reach x) ⟨start, moved⟩ ?_).2
    rintro d x _ ⟨known, before⟩ inside
    refine ⟨known.child inside, ?_⟩
    by_cases again : x = c
    · rw [again]
      exact moved
    · exact before.child ((move_child removed entered others known again).mpr inside)
  · exact upper reach below

end Move

end Hierarchy

end Lib
