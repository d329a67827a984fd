import GinnOS.Lib.Run
import GinnOS.Memory.PageTables

/-! # Page tables refine per-process maps

`paging_map_in` changes one page of one directory, or nothing when it returns false; so the
directories behave like independent maps over the kernel's.
-/

namespace GinnOS.Memory

open Lib Lib.Buf List

variable {m m' : Machine} {ds : List Nat} {d f i j p t v w phys flags : Nat} {mem : Buf}

/-! ## The table of the process -/

/-- The directory `d` has a table of its own at `i`, and every page is mapped as before. -/
structure HasTable (ds : List Nat) (m m' : Machine) (d i : Nat) : Prop where
  tables : Tables m' ds
  view : SameView m m' ds
  noted : Noted ds m m'
  own : entry m'.mem d i ≠ entry m'.mem m'.kernelDirectory i
  entries : ∀ a ∈ m.kernelDirectory :: ds, ∀ i' < 1024, ¬ (a = d ∧ i' = i) → entry m'.mem a i' = entry m.mem a i'
  table : (m'.pmm = m.pmm ∧ entry m.mem d i ≠ entry m.mem m.kernelDirectory i ∧
      pageFrame (entry m'.mem d i) = pageFrame (entry m.mem d i)) ∨
    (entry m.mem d i = entry m.mem m.kernelDirectory i ∧
      pmmAllocPage m.pmm = (some (pageFrame (entry m'.mem d i)), m'.pmm))
  frames : ∀ f, f ≠ d → f ≠ pageFrame (entry m'.mem d i) → SameFrame f m.mem m'.mem

/-- The structure does not depend on the statistics, the log or the active directory. -/
theorem Tables.congr (tables : Tables m ds) (pmm : m'.pmm = m.pmm) (mem : m'.mem = m.mem)
    (kernel : m'.kernelDirectory = m.kernelDirectory) (start : m'.start = m.start) (stop : m'.stop = m.stop) :
    Tables m' ds := by
  obtain ⟨⟨p, b, _, first, last, _⟩, k, _, _⟩ := m'
  subst pmm mem kernel start stop
  exact ⟨tables.pmm, tables.heap, tables.apart, fun node => ⟨(tables.owned node).used, (tables.owned node).ram,
    (tables.owned node).outside, (tables.owned node).real⟩, tables.supervisor, tables.present⟩

theorem Tables.install (tables : Tables m ds) (loose : Loose m ds t) (member : d ∈ ds) (bound : i < 1024)
    (others : ∀ f, f ≠ t → SameFrame f m.mem mem)
    (row : ∀ j < 1024, entry mem t j = pte m.mem d (1024 * i + j)) (frame : pageFrame v = t)
    (value : v < 4294967296) (isThere : isPresent v = true) :
    Tables { m with mem := setEntry mem d i v } ds ∧ SameView m { m with mem := setEntry mem d i v } ds ∧
      SameView m { m with mem := mem } ds ∧
      entry (setEntry mem d i v) d i ≠ entry (setEntry mem d i v) m.kernelDirectory i ∧
      ∀ a ∈ m.kernelDirectory :: ds, ∀ i' < 1024, ¬ (a = d ∧ i' = i) →
        entry (setEntry mem d i v) a i' = entry m.mem a i' := by
  have apart {n : Node} {f : Nat} (node : NodeAt m.mem m.kernelDirectory ds n f) : f ≠ t := by
    rintro rfl
    exact loose.noNode n node
  obtain ⟨tables₁, view₁, nodes₁⟩ := tables.scratch fun n f node => others f (apart node)
  have kernelEntry {i' : Nat} (bound' : i' < 1024) : entry mem m.kernelDirectory i' = entry m.mem m.kernelDirectory i' :=
    (others _ (apart (n := .kernel) rfl)).entry bound'
  -- an entry with this frame would make it a table of the kernel
  have differs : v ≠ entry mem m.kernelDirectory i := by
    rintro same
    rw [kernelEntry bound] at same
    exact loose.noNode (.kernelTable i) ⟨bound, same ▸ isThere, by rw [← same, frame]⟩
  have notKernel := tables.kernel_ne member
  have noNode (n : Node) : ¬ NodeAt mem m.kernelDirectory ds n t := fun node =>
    loose.noNode n ((nodes₁ n t).mp node)
  obtain ⟨tables₂, view₂⟩ := tables₁.storePde member bound value isThere differs
    (by rw [frame]; exact fun n node => absurd node (noNode n))
    (by rw [frame]; exact ⟨loose.used, loose.ram, loose.outside, loose.real⟩)
    (by
      rw [frame]
      intro j inner
      rw [view₁ d (mem_cons_of_mem _ member) _ (by omega)]
      exact row j inner)
  refine ⟨tables₂, view₁.trans view₂ rfl, view₁, ?_, fun a inList i' bound' other => ?_⟩
  · rw [entry_setEntry _ _ _ value, entry_setEntry_other _ _ bound bound (.inl notKernel)]
    exact differs
  · rw [entry_setEntry_other _ _ bound bound' (by omega)]
    obtain ⟨n, node, _⟩ := directory_node (m := m) inList
    exact (others a (apart node)).entry bound'

/-- Installing a frame that was just allocated and filled, with every access noted: first the
directory, then the new frame, then the directory again. -/
theorem HasTable.of_fresh (tables : Tables m ds) (member : d ∈ ds) (bound : i < 1024) {m₁ m₂ : Machine}
    (shared : entry m.mem d i = entry m.mem m.kernelDirectory i) (allocated : allocPage (m.touch d) = (some t, m₁))
    (filled : Noted ds m₁ m₂ ∧ m₂.pmm = m₁.pmm ∧ ∀ f, f ≠ t → SameFrame f m₁.mem m₂.mem)
    (row : ∀ j < 1024, entry m₂.mem t j = pte m.mem d (1024 * i + j)) {n : Nat} (small : n < 4096)
    (isThere : isPresent (4096 * t + n) = true) : HasTable ds m (m₂.store d i (4096 * t + n)) d i := by
  have sameMem : m₁.mem = m.mem := congrArg (fun r => r.2.mem) allocated.symm
  have directory := tables.owned (n := .directory d) ⟨member, rfl⟩
  have noted₀ : Noted ds m m₁ :=
    (Noted.touch directory.ram).trans tables.pmm (SameView.refl m ds) (Noted.allocPage allocated)
  have touched : Tables (m.touch d) ds := tables.congr rfl rfl rfl rfl rfl
  obtain ⟨tables₁, loose⟩ := touched.alloc allocated
  have small' := tables₁.pmm.small
  have ram := loose.ram
  obtain ⟨noted₁, samePmm, others⟩ := filled
  have kernel₁ : m₁.kernelDirectory = m.kernelDirectory := noted₀.kernel
  obtain ⟨tables₂, view₂, view₁, own, entries⟩ := tables₁.install loose member bound others
    (by rw [sameMem]; exact row) (pageFrame_frame t small) (by omega) isThere
  have view₀ : SameView m m₁ ds := fun a _ p _ => by rw [sameMem]
  have noted₂ : Noted ds m m₂ := noted₀.trans tables.pmm view₀ noted₁
  have sameView : SameView m m₂ ds := view₀.trans view₁ kernel₁
  have stored : entry (setEntry m₂.mem d i (4096 * t + n)) d i = 4096 * t + n := entry_setEntry _ _ _ (by omega)
  refine ⟨tables₂.congr samePmm rfl noted₁.kernel noted₁.start noted₁.stop, view₀.trans view₂ kernel₁, ?_, ?_, ?_,
    .inr ⟨shared, ?_⟩, fun f notDirectory notTable => ?_⟩
  · refine noted₂.trans tables.pmm sameView (Noted.write ?_ _)
    rw [noted₂.total]
    exact directory.ram
  · rw [← noted₁.kernel] at own
    exact own
  · rw [kernel₁, sameMem] at entries
    exact entries
  · have taken : m₁.pmm = (pmmAllocPage m.pmm).2 := congrArg (fun r => r.2.pmm) allocated.symm
    have found : (pmmAllocPage m.pmm).1 = some t := congrArg Prod.fst allocated
    simp only [Machine.store]
    rw [stored, pageFrame_frame t small]
    exact Prod.ext found (samePmm.trans taken).symm
  · simp only [Machine.store] at notTable ⊢
    rw [stored, pageFrame_frame t small] at notTable
    intro x inside
    rw [sameFrame_setEntry _ _ bound notDirectory x inside, others f notTable x inside, sameMem]

theorem dirIndex_lt (virt : Nat) : dirIndex virt < 1024 := Nat.mod_lt _ (by omega)

theorem tableIndex_lt (virt : Nat) : tableIndex virt < 1024 := Nat.mod_lt _ (by omega)

theorem allocPage_none (ok : m.pmm.Ok) (allocated : allocPage m = (none, m')) : m' = m := by
  obtain ⟨pmm, taken, rfl⟩ := allocPage_eq allocated
  rw [pmmAllocPage_none ok taken]

theorem Marked.shared (marked : Marked m ds) (member : d ∈ ds) (bound : i < 1024)
    (notUser : isUser (entry m.mem d i) = false) : entry m.mem d i = entry m.mem m.kernelDirectory i := by
  by_contra own
  rw [marked d member i bound own] at notUser
  cases notUser

/-- Either half of `paging_map_in` fails only because there is no memory for a table. -/
structure NoTable (ds : List Nat) (m m' : Machine) (d i : Nat) : Prop where
  mem : m'.mem = m.mem
  pmm : m'.pmm = m.pmm
  noted : Noted ds m m'
  shared : entry m.mem d i = entry m.mem m.kernelDirectory i
  exhausted : (pmmAllocPage m.pmm).1 = none

theorem NoTable.of_alloc (tables : Tables m ds) (member : d ∈ ds)
    (shared : entry m.mem d i = entry m.mem m.kernelDirectory i) (allocated : allocPage (m.touch d) = (none, m')) :
    NoTable ds m m' d i := by
  have ok : (m.touch d).pmm.Ok := tables.pmm
  have same := allocPage_none ok allocated
  have directory := tables.owned (n := .directory d) ⟨member, rfl⟩
  rw [same]
  exact ⟨rfl, rfl, Noted.touch directory.ram, shared, congrArg Prod.fst allocated⟩

theorem ownTable_cases (tables : Tables m ds) (marked : Marked m ds) (member : d ∈ ds) (virt : Nat)
    (userFlag : isUser flags = true) :
    (∃ m', ownTable m d virt flags = (true, m') ∧ HasTable ds m m' d (dirIndex virt)) ∨
      ∃ m', ownTable m d virt flags = (false, m') ∧ NoTable ds m m' d (dirIndex virt) := by
  have bound := dirIndex_lt virt
  generalize index : dirIndex virt = i at bound
  have directory := tables.owned (n := .directory d) ⟨member, rfl⟩
  have pde : entry (m.touch d).mem d i = entry m.mem d i := rfl
  simp only [ownTable, index, pde, userFlag, Bool.true_and]
  cases isThere : isPresent (entry m.mem d i) with
  | false =>
    -- a process has a table wherever its entry is not the kernel's
    have shared : entry m.mem d i = entry m.mem m.kernelDirectory i := by
      by_contra own
      rw [tables.present d member i bound own] at isThere
      cases isThere
    cases allocated : allocPage (m.touch d) with
    | mk r m₁ =>
      cases r with
      | none => exact .inr ⟨m₁, rfl, .of_alloc tables member shared allocated⟩
      | some t =>
        have touched : Tables (m.touch d) ds := tables.congr rfl rfl rfl rfl rfl
        obtain ⟨_, loose⟩ := touched.alloc allocated
        have filled : Noted ds m₁ (m₁.clear t) ∧ (m₁.clear t).pmm = m₁.pmm ∧
            ∀ f, f ≠ t → SameFrame f m₁.mem (m₁.clear t).mem :=
          ⟨Noted.clear loose.ram, rfl, fun f other => sameFrame_clear m₁ other⟩
        refine .inl ⟨_, rfl, .of_fresh tables member bound shared allocated filled (fun j inner => ?_) (by decide) ?_⟩
        · rw [Machine.clear, fill, entry_splice _ _ _ inner, pte, show (1024 * i + j) / 1024 = i by omega, isThere]
          rfl
        · rw [isPresent_frame]
          rfl
  | true =>
    cases isMarked : isUser (entry m.mem d i) with
    | true =>
      have own : entry m.mem d i ≠ entry m.mem m.kernelDirectory i := fun same => by
        rw [same, tables.supervisor i bound] at isMarked
        cases isMarked
      exact .inl ⟨m.touch d, rfl, tables.congr rfl rfl rfl rfl rfl, SameView.refl m ds, Noted.touch directory.ram,
        own, fun _ _ _ _ _ => rfl, .inl ⟨rfl, own, rfl⟩, fun _ _ _ _ _ => rfl⟩
    | false =>
      have shared := marked.shared member bound isMarked
      cases allocated : allocPage (m.touch d) with
      | mk r m₁ =>
        cases r with
        | none => exact .inr ⟨m₁, rfl, .of_alloc tables member shared allocated⟩
        | some t =>
          have touched : Tables (m.touch d) ds := tables.congr rfl rfl rfl rfl rfl
          obtain ⟨tables₁, loose⟩ := touched.alloc allocated
          have sameMem : m₁.mem = m.mem := congrArg (fun r => r.2.mem) allocated.symm
          have old := (tables.owned (n := .kernelTable i) ⟨bound, shared ▸ isThere, rfl⟩).ram
          rw [← shared] at old
          have noted : Noted ds (m.touch d) m₁ := Noted.allocPage allocated
          have total : m₁.pmm.totalPages = m.pmm.totalPages := noted.total
          have filled : Noted ds m₁ (m₁.copyFrame t (pageFrame (entry m.mem d i))) ∧
              (m₁.copyFrame t (pageFrame (entry m.mem d i))).pmm = m₁.pmm ∧
              ∀ f, f ≠ t → SameFrame f m₁.mem (m₁.copyFrame t (pageFrame (entry m.mem d i))).mem :=
            ⟨Noted.copyFrame tables₁.pmm loose.ram (total ▸ old), rfl, fun f other => sameFrame_copyFrame m₁ _ other⟩
          refine .inl ⟨_, rfl, .of_fresh tables member bound shared allocated filled (fun j inner => ?_) (by decide) ?_⟩
          · rw [Machine.copyFrame, entry_splice _ _ _ inner, word_shift, sameMem, pte,
              show (1024 * i + j) / 1024 = i by omega, show (1024 * i + j) % 1024 = j by omega, isThere]
            rfl
          · rw [isPresent_frame]
            rfl

/-! ## The entry -/

/-- Page `p` of the directory `d` got the entry `w`; nothing else is mapped differently. -/
structure Mapped (ds : List Nat) (m m' : Machine) (d p w : Nat) : Prop where
  tables : Tables m' ds
  marked : Marked m' ds
  view : ∀ a ∈ m.kernelDirectory :: ds, ∀ q < 1048576, pte m'.mem a q = if a = d ∧ q = p then w else pte m.mem a q
  noted : Noted ds m m'
  own : entry m'.mem d (p / 1024) ≠ entry m'.mem m'.kernelDirectory (p / 1024)
  entries : ∀ a ∈ m.kernelDirectory :: ds, ∀ i < 1024, ¬ (a = d ∧ i = p / 1024) → entry m'.mem a i = entry m.mem a i
  table : (m'.pmm = m.pmm ∧ entry m.mem d (p / 1024) ≠ entry m.mem m.kernelDirectory (p / 1024) ∧
      pageFrame (entry m'.mem d (p / 1024)) = pageFrame (entry m.mem d (p / 1024))) ∨
    (entry m.mem d (p / 1024) = entry m.mem m.kernelDirectory (p / 1024) ∧
      pmmAllocPage m.pmm = (some (pageFrame (entry m'.mem d (p / 1024))), m'.pmm))
  frames : ∀ f, f ≠ d → f ≠ pageFrame (entry m'.mem d (p / 1024)) → SameFrame f m.mem m'.mem

theorem Tables.mark (tables : Tables m ds) (member : d ∈ ds) (bound : i < 1024)
    (own : entry m.mem d i ≠ entry m.mem m.kernelDirectory i) :
    Tables { m with mem := setEntry m.mem d i (withUser (entry m.mem d i)) } ds ∧
      SameView m { m with mem := setEntry m.mem d i (withUser (entry m.mem d i)) } ds := by
  have node : NodeAt m.mem m.kernelDirectory ds (.table d i) (pageFrame (entry m.mem d i)) :=
    ⟨member, bound, own, rfl⟩
  have isThere := tables.present d member i bound own
  refine tables.storePde member bound (withUser_lt (entry_lt _ _ _)) ?_ (fun same => ?_) ?_ ?_ fun j inner => ?_
  · rw [isPresent_withUser, isThere]
  · have notUser := tables.supervisor i bound
    rw [← same, isUser_withUser] at notUser
    cases notUser
  · rw [pageFrame_withUser]
    exact fun n other => tables.apart other node
  · rw [pageFrame_withUser]
    exact tables.owned node
  · rw [pageFrame_withUser, pte, show (1024 * i + j) / 1024 = i by omega, show (1024 * i + j) % 1024 = j by omega,
      if_pos isThere]

theorem HasTable.mark (has : HasTable ds m m' d i) (ok : m.pmm.Ok) (member : d ∈ ds) (bound : i < 1024) :
    HasTable ds m (m'.store d i (withUser (entry m'.mem d i))) d i ∧
      isUser (entry (m'.store d i (withUser (entry m'.mem d i))).mem d i) = true := by
  obtain ⟨tables, view, noted, own, entries, table, frames⟩ := has
  obtain ⟨tables₁, view₁⟩ := tables.mark member bound own
  have marked : entry (setEntry m'.mem d i (withUser (entry m'.mem d i))) d i = withUser (entry m'.mem d i) :=
    entry_setEntry _ _ _ (withUser_lt (entry_lt _ _ _))
  have frame : pageFrame (entry (setEntry m'.mem d i (withUser (entry m'.mem d i))) d i) =
      pageFrame (entry m'.mem d i) := by rw [marked, pageFrame_withUser]
  have isMarked : isUser (entry (setEntry m'.mem d i (withUser (entry m'.mem d i))) d i) = true := by
    rw [marked, isUser_withUser]
  have written : Noted ds m' (m'.store d i (withUser (entry m'.mem d i))) :=
    Noted.write (tables.owned (n := .directory d) ⟨member, rfl⟩).ram _
  refine ⟨⟨tables₁.congr rfl rfl rfl rfl rfl, view.trans view₁ noted.kernel, noted.trans ok view written, ?_,
    fun a inList i' bound' other => ?_, ?_, fun f notDirectory notTable x inside => ?_⟩, isMarked⟩
  · intro same
    have notUser := tables₁.supervisor i bound
    rw [Machine.store_mem, Machine.store_kernelDirectory] at same
    simp only [← same, isMarked] at notUser
    cases notUser
  · rw [Machine.store_mem, entry_setEntry_other _ _ bound bound' (by omega), entries a inList i' bound' other]
  · rw [Machine.store_mem, frame]
    exact table
  · rw [Machine.store_mem, frame] at notTable
    rw [Machine.store_mem, sameFrame_setEntry _ _ bound notDirectory x inside,
      frames f notDirectory notTable x inside]

/-- The last store of `paging_map_in`. -/
theorem HasTable.storePte (has : HasTable ds m m' d (p / 1024)) (ok : m.pmm.Ok) (marked : Marked m ds)
    (member : d ∈ ds) (bound : p < 1048576) (isMarked : isUser (entry m'.mem d (p / 1024)) = true)
    (value : w < 4294967296) :
    Mapped ds m (m'.store (pageFrame (entry m'.mem d (p / 1024))) (p % 1024) w) d p w := by
  obtain ⟨tables, view, noted, own, entries, table, frames⟩ := has
  have index : p / 1024 < 1024 := by omega
  have inner : p % 1024 < 1024 := by omega
  have node : NodeAt m'.mem m'.kernelDirectory ds (.table d (p / 1024)) (pageFrame (entry m'.mem d (p / 1024))) :=
    ⟨member, index, own, rfl⟩
  have written : Noted ds m' (m'.store (pageFrame (entry m'.mem d (p / 1024))) (p % 1024) w) :=
    Noted.write (tables.owned node).ram _
  obtain ⟨tables₁, same, view₁⟩ := tables.storePte node inner value
  rw [noted.kernel] at same view₁
  have here := same d (mem_cons_of_mem _ member) _ index
  have kernel {i : Nat} := same m.kernelDirectory mem_cons_self i
  refine ⟨tables₁.congr rfl rfl rfl rfl rfl, fun d' member' i bound' own' => ?_, fun a inList q boundQ => ?_,
    noted.trans ok view written, ?_, fun a inList i bound' other => ?_, ?_, fun f notDirectory notTable x inside => ?_⟩
  · rw [Machine.store_mem, Machine.store_kernelDirectory, noted.kernel, kernel bound',
      same d' (mem_cons_of_mem _ member') i bound'] at own'
    rw [Machine.store_mem, same d' (mem_cons_of_mem _ member') i bound']
    by_cases isHere : d' = d ∧ i = p / 1024
    · rw [isHere.1, isHere.2]
      exact isMarked
    · have notKernel := tables.kernel_ne member
      rw [noted.kernel] at notKernel
      rw [entries d' (mem_cons_of_mem _ member') i bound' isHere,
        entries m.kernelDirectory mem_cons_self i bound' (by omega)] at own'
      rw [entries d' (mem_cons_of_mem _ member') i bound' isHere]
      exact marked d' member' i bound' own'
  · rw [Machine.store_mem, view₁ a inList q boundQ, show 1024 * (p / 1024) + p % 1024 = p by omega,
      view a inList q boundQ]
  · rw [Machine.store_mem, Machine.store_kernelDirectory, noted.kernel, here, kernel index]
    rw [noted.kernel] at own
    exact own
  · rw [Machine.store_mem, same a inList i bound', entries a inList i bound' other]
  · rw [Machine.store_mem, here]
    exact table
  · rw [Machine.store_mem, here] at notTable
    rw [Machine.store_mem, sameFrame_setEntry _ _ inner notTable x inside, frames f notDirectory notTable x inside]

/-- `paging_map_in` with the user flag maps the page, or finds no memory for a table. -/
theorem pagingMapIn_cases (tables : Tables m ds) (marked : Marked m ds) (member : d ∈ ds) {virt : Nat}
    (low : virt < 4294967296) (userFlag : isUser flags = true) (high : phys < 4294967296) :
    (∃ m', pagingMapIn m d virt phys flags = (true, m') ∧ Mapped ds m m' d (virt / 4096) (pageEntry phys flags)) ∨
      ∃ m', pagingMapIn m d virt phys flags = (false, m') ∧ NoTable ds m m' d (virt / 4096 / 1024) := by
  have index : dirIndex virt = virt / 4096 / 1024 := by
    simp only [dirIndex]
    omega
  have value : pageEntry phys flags < 4294967296 := by
    simp only [pageEntry]
    omega
  simp only [pagingMapIn]
  rcases ownTable_cases tables marked member virt userFlag with ⟨m₁, owned, has⟩ | ⟨m₁, owned, none⟩
  · left
    rw [index] at has
    obtain ⟨has₂, isMarked⟩ := has.mark tables.pmm member (by omega)
    rw [owned]
    refine ⟨_, rfl, ?_⟩
    simp only [writePage, userFlag, if_true, index, tableIndex]
    exact has₂.storePte tables.pmm marked member (by omega) isMarked value
  · right
    rw [owned]
    rw [index] at none
    exact ⟨m₁, rfl, none⟩

/-! ## Loose frames -/

theorem Loose.congr (loose : Loose m ds f) (pmm : m'.pmm = m.pmm) (start : m'.start = m.start)
    (stop : m'.stop = m.stop) (nodes : ∀ n, NodeAt m'.mem m'.kernelDirectory ds n f →
      NodeAt m.mem m.kernelDirectory ds n f) : Loose m' ds f where
  used := by
    rw [pmm]
    exact loose.used
  ram := by
    rw [pmm]
    exact loose.ram
  outside := by
    rw [start, stop]
    exact loose.outside
  real := loose.real
  noNode n node := loose.noNode n (nodes n node)

theorem Loose.ne_alloc {m₁ : Machine} {g : Nat} (loose : Loose m ds f) (allocated : allocPage m = (some g, m₁)) :
    f ≠ g := by
  rintro rfl
  obtain ⟨_, taken, _⟩ := allocPage_eq allocated
  have wasFree := (pmmAllocPage_some taken).1
  rw [loose.used] at wasFree
  cases wasFree

theorem Loose.alloc {r : Option Nat} (loose : Loose m ds f) (allocated : allocPage m = (r, m')) :
    Loose m' ds f := by
  have noted : Noted ds m m' := Noted.allocPage allocated
  obtain ⟨pmm, taken, rfl⟩ := allocPage_eq allocated
  refine ⟨⟨?_, ?_, loose.outside, loose.real⟩, loose.noNode⟩
  · exact pmmAllocPage_used taken loose.used
  · exact Nat.lt_of_lt_of_eq loose.ram noted.total.symm

theorem Loose.mapped (loose : Loose m ds f) (mapped : Mapped ds m m' d p w) (bound : p < 1048576) (member : d ∈ ds)
    (notKernel : m.kernelDirectory ≠ d) : Loose m' ds f := by
  have index : p / 1024 < 1024 := by omega
  have kernel {i : Nat} (bound : i < 1024) :
      entry m'.mem m'.kernelDirectory i = entry m.mem m.kernelDirectory i := by
    rw [mapped.noted.kernel]
    exact mapped.entries _ mem_cons_self i bound fun same => notKernel same.1
  have used : m'.pmm.free f = false := by
    rcases mapped.table with ⟨same, _⟩ | ⟨_, taken⟩
    · rw [same]
      exact loose.used
    · exact pmmAllocPage_used taken loose.used
  refine ⟨⟨used, ?_, ?_, loose.real⟩, fun n node => ?_⟩
  · rw [mapped.noted.total]
    exact loose.ram
  · rw [mapped.noted.start, mapped.noted.stop]
    exact loose.outside
  · cases n with
    | kernel => exact loose.noNode .kernel (node.trans mapped.noted.kernel)
    | directory d' => exact loose.noNode (.directory d') node
    | kernelTable i =>
      obtain ⟨bound, isThere, frame⟩ := node
      rw [kernel bound] at isThere frame
      exact loose.noNode (.kernelTable i) ⟨bound, isThere, frame⟩
    | table d' i =>
      obtain ⟨member', bound, own, frame⟩ := node
      by_cases here : d' = d ∧ i = p / 1024
      · obtain ⟨rfl, rfl⟩ := here
        rcases mapped.table with ⟨_, own', same⟩ | ⟨_, taken⟩
        · exact loose.noNode (.table d' (p / 1024)) ⟨member, index, own', frame.trans same⟩
        · have wasFree := (pmmAllocPage_some taken).1
          rw [← frame, loose.used] at wasFree
          cases wasFree
      · rw [mapped.entries d' (mem_cons_of_mem _ member') i bound here] at own frame
        rw [kernel bound] at own
        exact loose.noNode (.table d' i) ⟨member', bound, own, frame⟩

theorem Marked.congr (marked : Marked m ds) (kernel : m'.kernelDirectory = m.kernelDirectory)
    (entries : ∀ a ∈ m.kernelDirectory :: ds, ∀ i < 1024, entry m'.mem a i = entry m.mem a i) : Marked m' ds := by
  intro d member i bound own
  rw [kernel, entries d (mem_cons_of_mem _ member) i bound, entries _ mem_cons_self i bound] at own
  rw [entries d (mem_cons_of_mem _ member) i bound]
  exact marked d member i bound own

/-- The structure is as before, and so is what every directory maps and which frames are loose. -/
structure Undisturbed (ds : List Nat) (m m' : Machine) : Prop where
  kernel : m'.kernelDirectory = m.kernelDirectory
  total : m'.pmm.totalPages = m.pmm.totalPages
  tables : Tables m' ds
  marked : Marked m' ds
  view : SameView m m' ds
  entries : ∀ a ∈ m.kernelDirectory :: ds, ∀ i < 1024, entry m'.mem a i = entry m.mem a i
  loose : ∀ g, Loose m ds g → Loose m' ds g

theorem Undisturbed.overwrite (noNode : ∀ n, ¬ NodeAt m.mem m.kernelDirectory ds n f) (tables : Tables m ds) (marked : Marked m ds)
    (others : ∀ g, g ≠ f → SameFrame g m.mem mem) : Undisturbed ds m { m with mem := mem } := by
  have apart (n : Node) (g : Nat) (node : NodeAt m.mem m.kernelDirectory ds n g) : SameFrame g m.mem mem := by
    refine others g ?_
    rintro rfl
    exact noNode n node
  obtain ⟨tables', view, nodes⟩ := tables.scratch apart
  have entries (a : Nat) (member : a ∈ m.kernelDirectory :: ds) (i : Nat) (bound : i < 1024) :
      entry mem a i = entry m.mem a i := by
    obtain ⟨n, node, _⟩ := directory_node (m := m) member
    exact (apart n a node).entry bound
  exact ⟨rfl, rfl, tables', marked.congr rfl entries, view, entries,
    fun g other => other.congr rfl rfl rfl fun n => (nodes n g).mp⟩

theorem Loose.overwrite (loose : Loose m ds f) (tables : Tables m ds) (marked : Marked m ds)
    (others : ∀ g, g ≠ f → SameFrame g m.mem mem) : Undisturbed ds m { m with mem := mem } :=
  .overwrite loose.noNode tables marked others

theorem Undisturbed.congr {m'' : Machine} (same : Undisturbed ds m m') (pmm : m''.pmm = m'.pmm) (mem : m''.mem = m'.mem)
    (kernel : m''.kernelDirectory = m'.kernelDirectory) (start : m''.start = m'.start) (stop : m''.stop = m'.stop) :
    Undisturbed ds m m'' where
  kernel := kernel.trans same.kernel
  total := (congrArg Pmm.totalPages pmm).trans same.total
  tables := same.tables.congr pmm mem kernel start stop
  marked := same.marked.congr kernel fun a _ i _ => by rw [mem]
  view a member p bound := by
    rw [mem]
    exact same.view a member p bound
  entries a member i bound := by
    rw [mem]
    exact same.entries a member i bound
  loose g before := (same.loose g before).congr pmm start stop fun n => by
    rw [mem, kernel]
    exact id

theorem Undisturbed.refl (tables : Tables m ds) (marked : Marked m ds) : Undisturbed ds m m :=
  ⟨rfl, rfl, tables, marked, SameView.refl m ds, fun _ _ _ _ => rfl, fun _ => id⟩

theorem Undisturbed.trans {m'' : Machine} (first : Undisturbed ds m m') (second : Undisturbed ds m' m'') :
    Undisturbed ds m m'' where
  kernel := second.kernel.trans first.kernel
  total := second.total.trans first.total
  tables := second.tables
  marked := second.marked
  view := first.view.trans second.view first.kernel
  entries a member i bound := by
    have later := second.entries a (by rw [first.kernel]; exact member) i bound
    rw [later, first.entries a member i bound]
  loose g before := second.loose g (first.loose g before)

theorem Undisturbed.alloc (tables : Tables m ds) (marked : Marked m ds) {r : Option Nat}
    (allocated : allocPage m = (r, m')) : Undisturbed ds m m' := by
  have noted : Noted ds m m' := Noted.allocPage allocated
  have tables' : Tables m' ds := by
    cases r with
    | none =>
      obtain rfl := allocPage_none tables.pmm allocated
      exact tables
    | some f => exact (tables.alloc allocated).1
  refine ⟨noted.kernel, noted.total, tables', ?_, ?_, ?_, fun g before => before.alloc allocated⟩
  all_goals obtain ⟨pmm, _, rfl⟩ := allocPage_eq allocated
  · exact marked.congr rfl fun _ _ _ _ => rfl
  · exact SameView.refl m ds
  · exact fun _ _ _ _ => rfl

/-- A call of `paging_map_in` that failed. -/
theorem NoTable.undisturbed (none : NoTable ds m m' d i) (tables : Tables m ds) (marked : Marked m ds) :
    Undisturbed ds m m' :=
  (Undisturbed.refl tables marked).congr none.pmm none.mem none.noted.kernel none.noted.start none.noted.stop

/-! ## A new directory -/

/-- A loose frame with the entries of the kernel directory becomes a directory. -/
theorem Tables.addDirectory (tables : Tables m ds) (loose : Loose m ds d)
    (same : ∀ i < 1024, entry m.mem d i = entry m.mem m.kernelDirectory i) : Tables m (d :: ds) := by
  have nodes {n : Node} {f : Nat} (node : NodeAt m.mem m.kernelDirectory (d :: ds) n f) :
      (n = .directory d ∧ f = d) ∨ NodeAt m.mem m.kernelDirectory ds n f := by
    cases n with
    | kernel => exact .inr node
    | kernelTable i => exact .inr node
    | directory d' =>
      obtain ⟨member, rfl⟩ := node
      rcases mem_cons.mp member with rfl | old
      · exact .inl ⟨rfl, rfl⟩
      · exact .inr ⟨old, rfl⟩
    | table d' i =>
      obtain ⟨member, bound, own, frame⟩ := node
      rcases mem_cons.mp member with rfl | old
      · exact absurd (same i bound) own
      · exact .inr ⟨old, bound, own, frame⟩
  refine ⟨tables.pmm, tables.heap, fun one other => ?_, fun {n f} node => ?_, tables.supervisor,
    fun d' member i bound own => ?_⟩
  · rcases nodes one with ⟨isNew, frame⟩ | first <;> rcases nodes other with ⟨isNew', frame'⟩ | second
    · rw [isNew, isNew']
    · rw [frame] at second
      exact absurd second (loose.noNode _)
    · rw [frame'] at first
      exact absurd first (loose.noNode _)
    · exact tables.apart first second
  · rcases nodes node with ⟨_, rfl⟩ | old
    · exact loose.toOwned
    · exact tables.owned old
  · rcases mem_cons.mp member with rfl | old
    · exact absurd (same i bound) own
    · exact tables.present d' old i bound own

/-- The directory `pd` was made, and maps what the kernel's does. -/
structure Cloned (ds : List Nat) (m m' : Machine) (pd : Nat) : Prop where
  tables : Tables m' (pd :: ds)
  marked : Marked m' (pd :: ds)
  view : SameView m m' ds
  shared : ∀ i < 1024, entry m'.mem pd i = entry m'.mem m'.kernelDirectory i
  noted : Noted ds m m'
  taken : pmmAllocPage m.pmm = (some pd, m'.pmm)
  frames : ∀ f, f ≠ pd → SameFrame f m.mem m'.mem

theorem Cloned.pte (cloned : Cloned ds m m' d) (bound : p < 1048576) :
    pte m'.mem d p = pte m.mem m.kernelDirectory p := by
  have view := cloned.view m.kernelDirectory mem_cons_self p bound
  rw [← view, ← cloned.noted.kernel]
  simp only [Memory.pte, cloned.shared (p / 1024) (by omega)]

theorem Loose.cloned (loose : Loose m ds f) (tables : Tables m ds) (cloned : Cloned ds m m' d) :
    Loose m' (d :: ds) f := by
  have wasFree := (pmmAllocPage_some cloned.taken).1
  have notFresh {n : Node} {g : Nat} (node : NodeAt m.mem m.kernelDirectory ds n g) : g ≠ d := by
    rintro rfl
    rw [(tables.owned node).used] at wasFree
    cases wasFree
  have other : f ≠ d := by
    rintro rfl
    rw [loose.used] at wasFree
    cases wasFree
  have kernel {i : Nat} (bound : i < 1024) :
      entry m'.mem m'.kernelDirectory i = entry m.mem m.kernelDirectory i := by
    rw [cloned.noted.kernel]
    exact (cloned.frames _ (notFresh (n := .kernel) rfl)).entry bound
  refine ⟨⟨pmmAllocPage_used cloned.taken loose.used, ?_, ?_, loose.real⟩, fun n node => ?_⟩
  · rw [cloned.noted.total]
    exact loose.ram
  · rw [cloned.noted.start, cloned.noted.stop]
    exact loose.outside
  · cases n with
    | kernel => exact loose.noNode .kernel (node.trans cloned.noted.kernel)
    | kernelTable i =>
      obtain ⟨bound, isThere, frame⟩ := node
      rw [kernel bound] at isThere frame
      exact loose.noNode (.kernelTable i) ⟨bound, isThere, frame⟩
    | directory d' =>
      obtain ⟨member, rfl⟩ := node
      exact loose.noNode (.directory f) ⟨(mem_cons.mp member).resolve_left other, rfl⟩
    | table d' i =>
      obtain ⟨member, bound, own, frame⟩ := node
      rcases mem_cons.mp member with rfl | old
      · exact own (cloned.shared i bound)
      · rw [(cloned.frames d' (notFresh (n := .directory d') ⟨old, rfl⟩)).entry bound] at own frame
        rw [kernel bound] at own
        exact loose.noNode (.table d' i) ⟨old, bound, own, frame⟩

theorem pagingCloneDirectory_cases (tables : Tables m ds) (marked : Marked m ds) :
    (∃ pd m', pagingCloneDirectory m = (some pd, m') ∧ Cloned ds m m' pd) ∨
      (pagingCloneDirectory m = (none, m) ∧ (pmmAllocPage m.pmm).1 = none) := by
  simp only [pagingCloneDirectory]
  cases allocated : allocPage m with
  | mk r m₁ =>
    cases r with
    | none =>
      obtain rfl := allocPage_none tables.pmm allocated
      exact .inr ⟨rfl, congrArg Prod.fst allocated⟩
    | some pd =>
      left
      refine ⟨pd, _, rfl, ?_⟩
      obtain ⟨tables₁, loose⟩ := tables.alloc allocated
      have noted₁ : Noted ds m m₁ := Noted.allocPage allocated
      obtain ⟨pmm, taken, rfl⟩ := allocPage_eq allocated
      have kernelOwned := tables₁.owned (n := .kernel) rfl
      have others (f : Nat) (other : f ≠ pd) :
          SameFrame f m.mem (splice m.mem (4096 * pd) 4096 (shift m.mem (4096 * m.kernelDirectory))) :=
        sameFrame_splice m.mem other
      obtain ⟨tables₂, view, nodes⟩ := tables₁.scratch fun n f node => others f fun same => loose.noNode n (same ▸ node)
      have notKernel : m.kernelDirectory ≠ pd := fun same => loose.noNode .kernel same.symm
      have shared (i : Nat) (bound : i < 1024) :
          entry (splice m.mem (4096 * pd) 4096 (shift m.mem (4096 * m.kernelDirectory))) pd i =
            entry (splice m.mem (4096 * pd) 4096 (shift m.mem (4096 * m.kernelDirectory))) m.kernelDirectory i := by
        rw [entry_splice _ _ _ bound, (others _ notKernel).entry bound, word_shift]
        rfl
      have directory := tables₂.addDirectory (loose.congr rfl rfl rfl fun n => (nodes n pd).mp) shared
      refine ⟨directory.congr rfl rfl rfl rfl rfl, fun d member i bound own => ?_, view, shared, ?_, taken, others⟩
      · rcases mem_cons.mp member with rfl | old
        · exact absurd (shared i bound) own
        · have notFresh : d ≠ pd := fun same => loose.noNode (.directory d) ⟨old, same.symm⟩
          have entryD := (others d notFresh).entry bound
          have entryK := (others _ notKernel).entry bound
          simp only [Machine.copyFrame, Machine.touch] at own ⊢
          rw [entryD, entryK] at own
          rw [entryD]
          exact marked d old i bound own
      · exact noted₁.trans tables.pmm (SameView.refl _ _) (Noted.copyFrame tables₁.pmm loose.ram kernelOwned.ram)

end GinnOS.Memory
