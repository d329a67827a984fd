import GinnOS.Memory.KernelMap
import GinnOS.Memory.Processes

/-! # Who owns which frame

Besides its page tables a process has a kernel stack and the frames of its user pages.  These
uses are of different frames, none of which holds a page table or heap (`Held`).  The actions
that the kernel's memory code is made of keep this: taking a page, overwriting a page in use,
mapping a spare page, making a directory, growing the heap, and giving a process's frames back.
-/

namespace GinnOS.Memory

open Lib Lib.Buf List

variable {m m' : Machine} {ps : List (Nat × Nat)} {ds : List Nat} {d f g i p w : Nat} {mem : Buf}

/-- The directories of processes, each given by its stack and directory. -/
def dirs (ps : List (Nat × Nat)) : List Nat := ps.map Prod.snd

inductive Use where
  | stack (d : Nat)
  | page (d p : Nat)

/-- Page `p` of the directory `d` is a user page in the frame `f` of RAM. -/
structure UserPage (m : Machine) (d p f : Nat) : Prop where
  bound : p < 1048576
  isThere : isPresent (pte m.mem d p) = true
  user : isUser (pte m.mem d p) = true
  frame : f = pageFrame (pte m.mem d p)
  ram : f < m.pmm.totalPages

def UseAt (m : Machine) (ps : List (Nat × Nat)) : Use → Nat → Prop
  | .stack d, f => (f, d) ∈ ps
  | .page d p, f => d ∈ dirs ps ∧ UserPage m d p f

structure Held (m : Machine) (ps : List (Nat × Nat)) : Prop where
  tables : Tables m (dirs ps)
  marked : Marked m (dirs ps)
  supervisor : ∀ p < 1048576, isUser (pte m.mem m.kernelDirectory p) = false
  nodup : (dirs ps).Nodup
  loose : ∀ {u f}, UseAt m ps u f → Loose m (dirs ps) f
  apart : ∀ {u u' f}, UseAt m ps u f → UseAt m ps u' f → u = u'

/-- A frame that was taken from the PMM and is used for nothing yet. -/
structure Spare (m : Machine) (ps : List (Nat × Nat)) (f : Nat) : Prop where
  loose : Loose m (dirs ps) f
  unused : ∀ u, ¬ UseAt m ps u f

theorem Undisturbed.userPage (same : Undisturbed ds m m') (member : d ∈ ds) :
    UserPage m' d p f ↔ UserPage m d p f := by
  have view (bound : p < 1048576) := same.view d (mem_cons_of_mem _ member) p bound
  constructor
  · rintro ⟨bound, isThere, user, frame, ram⟩
    rw [view bound] at isThere user frame
    exact ⟨bound, isThere, user, frame, by rw [← same.total]; exact ram⟩
  · rintro ⟨bound, isThere, user, frame, ram⟩
    rw [← view bound] at isThere user frame
    exact ⟨bound, isThere, user, frame, by rw [same.total]; exact ram⟩

theorem Undisturbed.useAt (same : Undisturbed (dirs ps) m m') (u : Use) (f : Nat) :
    UseAt m' ps u f ↔ UseAt m ps u f := by
  cases u with
  | stack d => exact Iff.rfl
  | page d p => exact and_congr_right fun member => same.userPage member

theorem Held.undisturbed (held : Held m ps) (same : Undisturbed (dirs ps) m m') : Held m' ps where
  tables := same.tables
  marked := same.marked
  supervisor p bound := by
    rw [same.kernel, same.view _ mem_cons_self p bound]
    exact held.supervisor p bound
  nodup := held.nodup
  loose use := same.loose _ (held.loose ((same.useAt _ _).mp use))
  apart one other := held.apart ((same.useAt _ _).mp one) ((same.useAt _ _).mp other)

theorem Spare.undisturbed (spare : Spare m ps f) (same : Undisturbed (dirs ps) m m') : Spare m' ps f :=
  ⟨same.loose f spare.loose, fun u use => spare.unused u ((same.useAt u f).mp use)⟩

theorem Held.alloc (held : Held m ps) (allocated : allocPage m = (some f, m')) : Held m' ps ∧ Spare m' ps f := by
  have same := Undisturbed.alloc held.tables held.marked allocated
  refine ⟨held.undisturbed same, (held.tables.alloc allocated).2, fun u use => ?_⟩
  exact (held.loose ((same.useAt u f).mp use)).ne_alloc allocated rfl

theorem Held.overwrite (held : Held m ps) (loose : Loose m (dirs ps) f)
    (others : ∀ g, g ≠ f → SameFrame g m.mem mem) : Undisturbed (dirs ps) m { m with mem := mem } :=
  loose.overwrite held.tables held.marked others

theorem Held.mapped (held : Held m ps) (member : d ∈ dirs ps) (bound : p < 1048576)
    (mapped : Mapped (dirs ps) m m' d p w) (fresh : pageFrame w < m.pmm.totalPages → Spare m ps (pageFrame w)) :
    Held m' ps := by
  have notKernel := held.tables.kernel_ne member
  have loose {g : Nat} (before : Loose m (dirs ps) g) := before.mapped mapped bound member notKernel
  -- a use is an old one, or the new page
  have uses {u : Use} {g : Nat} (use : UseAt m' ps u g) :
      (u = .page d p ∧ g = pageFrame w ∧ g < m.pmm.totalPages) ∨ (u ≠ .page d p ∧ UseAt m ps u g) := by
    cases u with
    | stack d' => exact .inr ⟨nofun, use⟩
    | page d' q =>
      obtain ⟨member', boundQ, isThere, user, frame, ram⟩ := use
      rw [mapped.noted.total] at ram
      have view := mapped.view d' (mem_cons_of_mem _ member') q boundQ
      by_cases here : d' = d ∧ q = p
      · rw [if_pos here] at view
        rw [view] at frame
        exact .inl ⟨by rw [here.1, here.2], frame, ram⟩
      · rw [if_neg here] at view
        rw [view] at isThere user frame
        refine .inr ⟨fun same => here ?_, member', boundQ, isThere, user, frame, ram⟩
        cases same
        exact ⟨rfl, rfl⟩
  refine ⟨mapped.tables, mapped.marked, fun q boundQ => ?_, held.nodup, fun use => ?_, fun {u u' g} one other => ?_⟩
  · rw [mapped.noted.kernel, mapped.view _ mem_cons_self q boundQ, if_neg fun same => notKernel same.1]
    exact held.supervisor q boundQ
  · rcases uses use with ⟨_, rfl, ram⟩ | ⟨_, old⟩
    · exact loose (fresh ram).loose
    · exact loose (held.loose old)
  · rcases uses one with ⟨isNew, rfl, ram⟩ | ⟨_, first⟩ <;> rcases uses other with ⟨isNew', frame, ram'⟩ | ⟨_, second⟩
    · rw [isNew, isNew']
    · exact absurd second ((fresh ram).unused u')
    · subst frame
      exact absurd first ((fresh ram').unused u)
    · exact held.apart first second

theorem Held.cloned (held : Held m ps) (stack : Spare m ps f) (cloned : Cloned (dirs ps) m m' d) :
    Held m' ((f, d) :: ps) := by
  have wasFree := (pmmAllocPage_some cloned.taken).1
  have notOld : d ∉ dirs ps := fun old => by
    rw [(held.tables.owned (n := .directory d) ⟨old, rfl⟩).used] at wasFree
    cases wasFree
  have loose {g : Nat} (before : Loose m (dirs ps) g) : Loose m' (dirs ((f, d) :: ps)) g :=
    before.cloned held.tables cloned
  have uses {u : Use} {g : Nat} (use : UseAt m' ((f, d) :: ps) u g) :
      (u = .stack d ∧ g = f) ∨ (u ≠ .stack d ∧ UseAt m ps u g) := by
    cases u with
    | stack d' =>
      rcases mem_cons.mp use with new | old
      · cases new
        exact .inl ⟨rfl, rfl⟩
      · refine .inr ⟨fun same => notOld ?_, old⟩
        cases same
        exact mem_map_of_mem old
    | page d' q =>
      obtain ⟨member, bound, isThere, user, frame, ram⟩ := use
      rw [cloned.noted.total] at ram
      rcases mem_cons.mp member with new | old
      · have new : d' = d := new
        subst new
        rw [cloned.pte bound, held.supervisor q bound] at user
        cases user
      · have view := cloned.view d' (mem_cons_of_mem _ old) q bound
        rw [view] at isThere user frame
        exact .inr ⟨nofun, old, bound, isThere, user, frame, ram⟩
  refine ⟨cloned.tables, cloned.marked, fun p bound => ?_, nodup_cons.mpr ⟨notOld, held.nodup⟩, fun use => ?_,
    fun one other => ?_⟩
  · rw [cloned.noted.kernel, cloned.view _ mem_cons_self p bound]
    exact held.supervisor p bound
  · rcases uses use with ⟨_, rfl⟩ | ⟨_, old⟩
    · exact loose stack.loose
    · exact loose (held.loose old)
  · rcases uses one with ⟨isNew, rfl⟩ | ⟨_, first⟩ <;> rcases uses other with ⟨isNew', frame⟩ | ⟨_, second⟩
    · rw [isNew, isNew']
    · exact absurd second (stack.unused _)
    · subst frame
      exact absurd first (stack.unused _)
    · exact held.apart first second

/-- The heap is used, and may grow over free pages. -/
theorem Undisturbed.grown {h : Heap} {rs : List Lib.Block} (tables : Tables m ds) (marked : Marked m ds)
    (grown : Grown m.toHeap h) (ok : HeapOk h rs) : Undisturbed ds m { m with toHeap := h } := by
  -- what is not the PMM's to give cannot become heap
  have outside {f : Nat} (owned : Owned m f) : ¬ (h.start ≤ 4096 * f ∧ 4096 * f < h.stop) := by
    rintro ⟨lower, upper⟩
    have start := grown.start
    rcases Nat.lt_or_ge (4096 * f) m.stop with inside | behind
    · exact owned.outside ⟨by omega, inside⟩
    · have wasFree := grown.taken f behind upper
      rw [owned.used] at wasFree
      cases wasFree
  have owned' {f : Nat} (owned : Owned m f) : Owned { m with toHeap := h } f :=
    ⟨by simp [grown.free, owned.used], Nat.lt_of_lt_of_eq owned.ram grown.total.symm, outside owned, owned.real⟩
  have same {f : Nat} (owned : Owned m f) : SameFrame f m.mem h.mem := by
    intro x inside
    have apart := outside owned
    have startPage := ok.startPage
    have start := grown.start
    exact grown.mem x (by omega)
  obtain ⟨tables₁, view, nodes⟩ := tables.scratch fun n f node => same (tables.owned node)
  have entries (a : Nat) (member : a ∈ m.kernelDirectory :: ds) (i : Nat) (bound : i < 1024) :
      entry h.mem a i = entry m.mem a i := by
    obtain ⟨n, node, _⟩ := directory_node (m := m) member
    exact (same (tables.owned node)).entry bound
  refine ⟨rfl, grown.total, ?_, marked.congr rfl entries, view, entries, fun f loose => ?_⟩
  · exact ⟨ok.pmm, ok.used, tables₁.apart, fun {n f} node => owned' (tables.owned ((nodes n f).mp node)),
      tables₁.supervisor, tables₁.present⟩
  · exact ⟨owned' loose.toOwned, fun n node => loose.noNode n ((nodes n f).mp node)⟩

theorem Held.giveBack (held : Held m ps) (spare : Spare m ps f) : Held { m with pmm := m.pmm.markFree f } ps := by
  have owned {g : Nat} (owned : Owned m g) (other : g ≠ f) : Owned { m with pmm := m.pmm.markFree f } g :=
    { owned with used := by simp [Pmm.markFree, owned.used, other] }
  have node {n : Node} {g : Nat} (node : NodeAt m.mem m.kernelDirectory (dirs ps) n g) : g ≠ f := by
    rintro rfl
    exact spare.loose.noNode n node
  have use {u : Use} {g : Nat} (at_ : UseAt { m with pmm := m.pmm.markFree f } ps u g) : UseAt m ps u g := by
    cases u with
    | stack d => exact at_
    | page d p => exact ⟨at_.1, at_.2.bound, at_.2.isThere, at_.2.user, at_.2.frame, at_.2.ram⟩
  refine ⟨⟨held.tables.pmm.markFree spare.loose.ram spare.loose.real, fun page lower upper => ?_, held.tables.apart,
    fun at_ => owned (held.tables.owned at_) (node at_), held.tables.supervisor, held.tables.present⟩, held.marked,
    held.supervisor, held.nodup, fun {u g} at_ => ?_, fun one other => held.apart (use one) (use other)⟩
  · have other : page ≠ f := by
      rintro rfl
      exact spare.loose.outside ⟨lower, upper⟩
    simp [Pmm.markFree, held.tables.heap page lower upper, other]
  · have other : g ≠ f := by
      rintro rfl
      exact spare.unused u (use at_)
    exact ⟨owned (held.loose (use at_)).toOwned other, (held.loose (use at_)).noNode⟩

theorem Held.perm {ps' : List (Nat × Nat)} (held : Held m ps) (same : ps'.Perm ps) : Held m ps' := by
  have members {d : Nat} (member : d ∈ dirs ps') : d ∈ dirs ps := (same.map Prod.snd).mem_iff.mp member
  have node {n : Node} {f : Nat} (at_ : NodeAt m.mem m.kernelDirectory (dirs ps') n f) :
      NodeAt m.mem m.kernelDirectory (dirs ps) n f := by
    cases n with
    | kernel => exact at_
    | kernelTable i => exact at_
    | directory d => exact ⟨members at_.1, at_.2⟩
    | table d i => exact ⟨members at_.1, at_.2⟩
  have use {u : Use} {f : Nat} (at_ : UseAt m ps' u f) : UseAt m ps u f := by
    cases u with
    | stack d => exact same.mem_iff.mp at_
    | page d p => exact ⟨members at_.1, at_.2⟩
  exact ⟨⟨held.tables.pmm, held.tables.heap, fun one other => held.tables.apart (node one) (node other),
    fun at_ => held.tables.owned (node at_), held.tables.supervisor, fun d member => held.tables.present d (members member)⟩,
    fun d member => held.marked d (members member), held.supervisor, (same.map Prod.snd).nodup_iff.mpr held.nodup,
    fun at_ => ⟨(held.loose (use at_)).toOwned, fun n at' => (held.loose (use at_)).noNode n (node at')⟩,
    fun one other => held.apart (use one) (use other)⟩

end GinnOS.Memory
