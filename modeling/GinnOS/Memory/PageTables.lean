import GinnOS.Memory.Paging

/-! # The shape of page tables

Page-table structures sit in pairwise different frames (`Tables.apart`), none of which the
PMM or the heap may hand out.  A directory of a process equals the kernel's but for the
entries that have a table of their own.  What a directory maps is read off by `pte`; the
steps of `paging_map_in` either keep every directory's view or change one entry of one.
-/

namespace GinnOS.Memory

open Lib Lib.Buf List

/-! ## Words of frames -/

section Frames

variable {mem mem' : Buf} {f g i j v : Nat}

theorem entry_lt (mem : Buf) (f i : Nat) : entry mem f i < 4294967296 := word_lt _ _

theorem isPresent_frame (f n : Nat) : isPresent (4096 * f + n) = isPresent n :=
  decide_eq_decide.mpr (by omega)

/-- The flags of a page that is there for users. -/
structure ForUsers (flags : Nat) : Prop where
  isThere : isPresent flags = true
  user : isUser flags = true

theorem forUsers_userRw : ForUsers userRw := ⟨rfl, rfl⟩

theorem isUser_frame (f n : Nat) : isUser (4096 * f + n) = isUser n :=
  decide_eq_decide.mpr (by omega)

theorem pageFrame_frame (f : Nat) {n : Nat} (small : n < 4096) : pageFrame (4096 * f + n) = f := by
  simp only [pageFrame]
  omega

theorem isPresent_withUser (e : Nat) : isPresent (withUser e) = isPresent e := by
  simp only [withUser]
  split
  · rfl
  · exact decide_eq_decide.mpr (by omega)

theorem isUser_withUser (e : Nat) : isUser (withUser e) = true := by
  simp only [withUser]
  split
  · assumption
  · next notUser =>
    simp only [isUser, decide_eq_true_eq] at notUser ⊢
    omega

theorem pageFrame_withUser (e : Nat) : pageFrame (withUser e) = pageFrame e := by
  simp only [withUser]
  split
  · rfl
  · next notUser =>
    simp only [isUser, decide_eq_true_eq] at notUser
    simp only [pageFrame]
    omega

theorem withUser_lt {e : Nat} (bound : e < 4294967296) : withUser e < 4294967296 := by
  simp only [withUser]
  split
  · exact bound
  · next notUser =>
    simp only [isUser, decide_eq_true_eq] at notUser
    omega

theorem pageFrame_pageEntry (phys flags : Nat) : pageFrame (pageEntry phys flags) = phys / 4096 := by
  simp only [pageFrame, pageEntry]
  omega

theorem isPresent_pageEntry (phys flags : Nat) : isPresent (pageEntry phys flags) = isPresent flags :=
  decide_eq_decide.mpr (by simp only [pageEntry]; omega)

theorem isUser_pageEntry (phys flags : Nat) : isUser (pageEntry phys flags) = isUser flags :=
  decide_eq_decide.mpr (by simp only [pageEntry]; omega)

def SameFrame (f : Nat) (mem mem' : Buf) : Prop := ∀ x, x / 4096 = f → mem' x = mem x

theorem SameFrame.entry (same : SameFrame f mem mem') (bound : i < 1024) : entry mem' f i = entry mem f i :=
  word_congr fun x _ _ => same x (by omega)

theorem entry_setEntry (mem : Buf) (f i : Nat) (bound : v < 4294967296) : entry (setEntry mem f i v) f i = v :=
  word_setWord _ _ bound

theorem entry_setEntry_other (mem : Buf) (v : Nat) (bound : i < 1024) (bound' : j < 1024) (other : g ≠ f ∨ j ≠ i) :
    entry (setEntry mem f i v) g j = entry mem g j := by
  refine word_setWord_apart mem v ?_
  rcases Nat.lt_trichotomy g f with less | rfl | more <;> omega

theorem sameFrame_setEntry (mem : Buf) (v : Nat) (bound : i < 1024) (other : g ≠ f) :
    SameFrame g mem (setEntry mem f i v) :=
  fun x inside => put32_outside (by omega)

theorem sameFrame_splice {src : Buf} (mem : Buf) (other : g ≠ f) :
    SameFrame g mem (splice mem (4096 * f) 4096 src) :=
  fun x inside => splice_outside (by omega)

theorem entry_splice (mem src : Buf) (f : Nat) (bound : i < 1024) :
    entry (splice mem (4096 * f) 4096 src) f i = word src (4 * i) := by
  rw [entry, word_splice_inside (by omega) (by omega), Nat.add_sub_cancel_left]

end Frames

/-! ## What a directory maps -/

/-- The page-table entry of page `p` in the directory `d`; zero without a table. -/
def pte (mem : Buf) (d p : Nat) : Nat :=
  let pde := entry mem d (p / 1024)
  if isPresent pde then entry mem (pageFrame pde) (p % 1024) else 0

theorem pagingGetPhysicalIn_eq (mem : Buf) (d : Nat) {virt : Nat} (bound : virt < 4294967296) :
    pagingGetPhysicalIn mem d virt =
      if isPresent (pte mem d (virt / 4096)) then 4096 * pageFrame (pte mem d (virt / 4096)) + virt % 4096
      else 0 := by
  have dir : dirIndex virt = virt / 4096 / 1024 := by
    simp only [dirIndex]
    omega
  simp only [pagingGetPhysicalIn, pte, dir, tableIndex]
  split
  · rfl
  · simp [isPresent]

/-- The parts of the page-table structure. -/
inductive Node where
  | kernel
  | kernelTable (i : Nat)
  | directory (d : Nat)
  | table (d i : Nat)

/-- The frame in which a part is.  A directory's own tables are those that the kernel directory
does not have at the same place. -/
def NodeAt (mem : Buf) (k : Nat) (ds : List Nat) : Node → Nat → Prop
  | .kernel, f => f = k
  | .kernelTable i, f => i < 1024 ∧ isPresent (entry mem k i) = true ∧ f = pageFrame (entry mem k i)
  | .directory d, f => d ∈ ds ∧ f = d
  | .table d i, f => d ∈ ds ∧ i < 1024 ∧ entry mem d i ≠ entry mem k i ∧ f = pageFrame (entry mem d i)

/-- A frame of RAM that neither the PMM nor the heap can hand out. -/
structure Owned (m : Machine) (f : Nat) : Prop where
  used : m.pmm.free f = false
  ram : f < m.pmm.totalPages
  outside : ¬ (m.start ≤ 4096 * f ∧ 4096 * f < m.stop)
  real : f ≠ 0

/-- `ds` are the directories of processes. -/
structure Tables (m : Machine) (ds : List Nat) : Prop where
  pmm : m.pmm.Ok
  heap : ∀ page, m.start ≤ 4096 * page → 4096 * page < m.stop → m.pmm.free page = false
  apart : ∀ {n n' f}, NodeAt m.mem m.kernelDirectory ds n f → NodeAt m.mem m.kernelDirectory ds n' f → n = n'
  owned : ∀ {n f}, NodeAt m.mem m.kernelDirectory ds n f → Owned m f
  supervisor : ∀ i < 1024, isUser (entry m.mem m.kernelDirectory i) = false
  present : ∀ d ∈ ds, ∀ i < 1024, entry m.mem d i ≠ entry m.mem m.kernelDirectory i →
    isPresent (entry m.mem d i) = true

/-- A process's own tables carry the user flag. -/
def Marked (m : Machine) (ds : List Nat) : Prop :=
  ∀ d ∈ ds, ∀ i < 1024, entry m.mem d i ≠ entry m.mem m.kernelDirectory i → isUser (entry m.mem d i) = true

/-- The frame belongs to no structure, and to nobody else. -/
structure Loose (m : Machine) (ds : List Nat) (f : Nat) : Prop extends Owned m f where
  noNode : ∀ n, ¬ NodeAt m.mem m.kernelDirectory ds n f

def SameView (m m' : Machine) (ds : List Nat) : Prop :=
  ∀ a ∈ m.kernelDirectory :: ds, ∀ p < 1048576, pte m'.mem a p = pte m.mem a p

section Steps

variable {m : Machine} {ds : List Nat} {mem : Buf} {a d f i j p t v w : Nat} {n : Node}

theorem table_node (member : a ∈ m.kernelDirectory :: ds) (bound : i < 1024)
    (isThere : isPresent (entry m.mem a i) = true) :
    ∃ n, NodeAt m.mem m.kernelDirectory ds n (pageFrame (entry m.mem a i)) ∧ (n = .kernelTable i ∨ n = .table a i) := by
  by_cases shared : entry m.mem a i = entry m.mem m.kernelDirectory i
  · rw [shared] at isThere ⊢
    exact ⟨.kernelTable i, ⟨bound, isThere, rfl⟩, .inl rfl⟩
  · have process : a ∈ ds := by
      rcases mem_cons.mp member with rfl | inList
      · exact absurd rfl shared
      · exact inList
    exact ⟨.table a i, ⟨process, bound, shared, rfl⟩, .inr rfl⟩

theorem directory_node (member : a ∈ m.kernelDirectory :: ds) :
    ∃ n, NodeAt m.mem m.kernelDirectory ds n a ∧ (n = .kernel ∨ n = .directory a) := by
  rcases mem_cons.mp member with rfl | inList
  · exact ⟨.kernel, rfl, .inl rfl⟩
  · exact ⟨.directory a, ⟨inList, rfl⟩, .inr rfl⟩

theorem allocPage_eq {m' : Machine} {r : Option Nat} (allocated : allocPage m = (r, m')) :
    ∃ pmm, pmmAllocPage m.pmm = (r, pmm) ∧ m' = { m with pmm := pmm } := by
  obtain ⟨rfl, rfl⟩ := allocated
  exact ⟨_, rfl, rfl⟩

namespace Tables

section

variable (tables : Tables m ds)

include tables

theorem of_entries
    (kernel : ∀ i < 1024, entry mem m.kernelDirectory i = entry m.mem m.kernelDirectory i)
    (process : ∀ d ∈ ds, ∀ i < 1024, entry mem d i = entry m.mem d i) :
    Tables { m with mem := mem } ds ∧
      ∀ n f, NodeAt mem m.kernelDirectory ds n f ↔ NodeAt m.mem m.kernelDirectory ds n f := by
  have nodes (n : Node) (f : Nat) :
      NodeAt mem m.kernelDirectory ds n f ↔ NodeAt m.mem m.kernelDirectory ds n f := by
    cases n with
    | kernel => exact Iff.rfl
    | kernelTable i => exact and_congr_right fun bound => by rw [kernel i bound]
    | directory d => exact Iff.rfl
    | table d i =>
      refine and_congr_right fun member => and_congr_right fun bound => ?_
      rw [process d member i bound, kernel i bound]
  refine ⟨⟨tables.pmm, tables.heap, fun one other => tables.apart ((nodes _ _).mp one) ((nodes _ _).mp other),
    fun one => ?_, fun i bound => ?_, fun d member i bound differs => ?_⟩, nodes⟩
  · obtain ⟨used, ram, outside, real⟩ := tables.owned ((nodes _ _).mp one)
    exact ⟨used, ram, outside, real⟩
  · rw [kernel i bound]
    exact tables.supervisor i bound
  · simp only [process d member i bound, kernel i bound] at differs ⊢
    exact tables.present d member i bound differs

theorem scratch
    (same : ∀ n f, NodeAt m.mem m.kernelDirectory ds n f → SameFrame f m.mem mem) :
    Tables { m with mem := mem } ds ∧ SameView m { m with mem := mem } ds ∧
      ∀ n f, NodeAt mem m.kernelDirectory ds n f ↔ NodeAt m.mem m.kernelDirectory ds n f := by
  have directories {a i : Nat} (member : a ∈ m.kernelDirectory :: ds) (bound : i < 1024) :
      entry mem a i = entry m.mem a i := by
    obtain ⟨n, node, _⟩ := directory_node (m := m) member
    exact (same n a node).entry bound
  obtain ⟨tables', nodes⟩ := tables.of_entries (fun i bound => directories mem_cons_self bound)
    fun d member i bound => directories (mem_cons_of_mem _ member) bound
  refine ⟨tables', fun a member p bound => ?_, nodes⟩
  have index : p / 1024 < 1024 := by omega
  simp only [pte, directories member index]
  split
  · next isThere =>
    obtain ⟨n, node, _⟩ := table_node member index isThere
    exact (same n _ node).entry (by omega)
  · rfl

theorem alloc {m' : Machine} (allocated : allocPage m = (some f, m')) :
    Tables m' ds ∧ Loose m' ds f := by
  obtain ⟨pmm, taken, rfl⟩ := allocPage_eq allocated
  obtain ⟨wasFree, real, result⟩ := pmmAllocPage_some taken
  have stays {g : Nat} : m.pmm.free g = false → pmm.free g = false := pmmAllocPage_used taken
  have gone : pmm.free f = false := by
    rw [result]
    simp [Pmm.markUsed]
  have fresh {Q : Prop} (isUsed : Q → m.pmm.free f = false) : ¬ Q := fun holds => by
    rw [isUsed holds] at wasFree
    cases wasFree
  have total : pmm.totalPages = m.pmm.totalPages := by
    rw [result]
    rfl
  refine ⟨⟨tables.pmm.alloc taken, fun page lower upper => stays (tables.heap page lower upper), tables.apart,
    fun node => ?_, tables.supervisor, tables.present⟩, ?_⟩
  · obtain ⟨used, ram, outside, real⟩ := tables.owned node
    exact ⟨stays used, Nat.lt_of_lt_of_eq ram total.symm, outside, real⟩
  · exact ⟨⟨gone, Nat.lt_of_lt_of_eq (tables.pmm.inside wasFree) total.symm,
      fresh fun inside => tables.heap f inside.1 inside.2, real⟩, fun n => fresh fun node => (tables.owned node).used⟩

theorem node_ne_kernel (node : NodeAt m.mem m.kernelDirectory ds n f) (other : n ≠ .kernel) :
    f ≠ m.kernelDirectory := fun same => by
  have kernel : NodeAt m.mem m.kernelDirectory ds .kernel f := same
  exact other (tables.apart node kernel)

theorem kernel_ne (member : d ∈ ds) : m.kernelDirectory ≠ d :=
  (tables.node_ne_kernel (n := .directory d) ⟨member, rfl⟩ nofun).symm

/-- An entry of a process directory is written: its table is a loose frame or was there before, and
has the entries the directory had. -/
theorem storePde (member : d ∈ ds) (bound : i < 1024) (value : v < 4294967296)
    (isThere : isPresent v = true) (differs : v ≠ entry m.mem m.kernelDirectory i)
    (only : ∀ n, NodeAt m.mem m.kernelDirectory ds n (pageFrame v) → n = .table d i)
    (owned : Owned m (pageFrame v)) (row : ∀ j < 1024, entry m.mem (pageFrame v) j = pte m.mem d (1024 * i + j)) :
    Tables { m with mem := setEntry m.mem d i v } ds ∧ SameView m { m with mem := setEntry m.mem d i v } ds := by
  have notKernel := tables.kernel_ne member
  have kernel {i' : Nat} (bound' : i' < 1024) :
      entry (setEntry m.mem d i v) m.kernelDirectory i' = entry m.mem m.kernelDirectory i' :=
    entry_setEntry_other _ _ bound bound' (.inl notKernel)
  -- the one part of the structure that is new or moved
  have nodes {n : Node} {f : Nat} (node : NodeAt (setEntry m.mem d i v) m.kernelDirectory ds n f) :
      (n = .table d i ∧ f = pageFrame v) ∨ (n ≠ .table d i ∧ NodeAt m.mem m.kernelDirectory ds n f) := by
    cases n with
    | kernel => exact .inr ⟨nofun, node⟩
    | directory d' => exact .inr ⟨nofun, node⟩
    | kernelTable i' =>
      obtain ⟨bound', there, frame⟩ := node
      rw [kernel bound'] at there frame
      exact .inr ⟨nofun, bound', there, frame⟩
    | table d' i' =>
      obtain ⟨member', bound', own, frame⟩ := node
      by_cases here : d' = d ∧ i' = i
      · obtain ⟨rfl, rfl⟩ := here
        rw [entry_setEntry _ _ _ value] at frame
        exact .inl ⟨rfl, frame⟩
      · have other : d' ≠ d ∨ i' ≠ i := by omega
        rw [entry_setEntry_other _ _ bound bound' other] at own frame
        rw [kernel bound'] at own
        refine .inr ⟨fun same => ?_, member', bound', own, frame⟩
        cases same
        exact here ⟨rfl, rfl⟩
  refine ⟨⟨tables.pmm, tables.heap, fun one other => ?_, fun {_ f} node => ?_, fun i' bound' => ?_,
    fun d' member' i' bound' own => ?_⟩, fun a memberA p boundP => ?_⟩
  · rcases nodes one with ⟨rfl, rfl⟩ | ⟨_, one⟩ <;> rcases nodes other with ⟨rfl, frame⟩ | ⟨notHere, other⟩
    · rfl
    · exact absurd (only _ other) notHere
    · subst frame
      exact only _ one
    · exact tables.apart one other
  · have isOwned : Owned m f := by
      rcases nodes node with ⟨_, rfl⟩ | ⟨_, old⟩
      · exact owned
      · exact tables.owned old
    exact ⟨isOwned.used, isOwned.ram, isOwned.outside, isOwned.real⟩
  · rw [kernel bound']
    exact tables.supervisor i' bound'
  · by_cases here : d' = d ∧ i' = i
    · obtain ⟨rfl, rfl⟩ := here
      rw [entry_setEntry _ _ _ value]
      exact isThere
    · have other : d' ≠ d ∨ i' ≠ i := by omega
      simp only [entry_setEntry_other _ _ bound bound' other, kernel bound'] at own ⊢
      exact tables.present d' member' i' bound' own
  · have index : p / 1024 < 1024 := by omega
    have inner : p % 1024 < 1024 := by omega
    -- tables are not in the frame that was written
    have notHere {n : Node} {f : Nat} (node : NodeAt m.mem m.kernelDirectory ds n f) (isTable : n ≠ .directory d) :
        f ≠ d := fun same => isTable (tables.apart node ⟨member, same⟩)
    simp only [pte]
    by_cases here : a = d ∧ p / 1024 = i
    · obtain ⟨rfl, rfl⟩ := here
      rw [entry_setEntry _ _ _ value, if_pos isThere]
      have apart : pageFrame v ≠ a := fun same => by
        cases only (.directory a) ⟨member, same⟩
      rw [entry_setEntry_other _ _ bound inner (.inl apart), row _ inner,
        show 1024 * (p / 1024) + p % 1024 = p by omega, pte]
    · have other : a ≠ d ∨ p / 1024 ≠ i := by omega
      rw [entry_setEntry_other _ _ bound index other]
      split
      · next there =>
        obtain ⟨n, node, isTable⟩ := table_node memberA index there
        refine entry_setEntry_other _ _ bound inner (.inl (notHere node ?_))
        rintro rfl
        simp at isTable
      · rfl

theorem storePte (node : NodeAt m.mem m.kernelDirectory ds (.table d i) t) (inner : j < 1024)
    (value : w < 4294967296) :
    Tables { m with mem := setEntry m.mem t j w } ds ∧
      (∀ a ∈ m.kernelDirectory :: ds, ∀ i' < 1024, entry (setEntry m.mem t j w) a i' = entry m.mem a i') ∧
      ∀ a ∈ m.kernelDirectory :: ds, ∀ p < 1048576,
        pte (setEntry m.mem t j w) a p = if a = d ∧ p = 1024 * i + j then w else pte m.mem a p := by
  have directories {a i' : Nat} (member : a ∈ m.kernelDirectory :: ds) (bound' : i' < 1024) :
      entry (setEntry m.mem t j w) a i' = entry m.mem a i' := by
    refine entry_setEntry_other _ _ inner bound' (.inl ?_)
    rintro rfl
    obtain ⟨n, here, isDirectory⟩ := directory_node (m := m) member
    cases tables.apart here node
    simp at isDirectory
  obtain ⟨tables', _⟩ := tables.of_entries (fun i' bound' => directories mem_cons_self bound')
    fun d' member i' bound' => directories (mem_cons_of_mem _ member) bound'
  refine ⟨tables', fun a member i' bound' => directories member bound', fun a member p bound => ?_⟩
  have index : p / 1024 < 1024 := by omega
  obtain ⟨process, boundI, own, frame⟩ := id node
  simp only [pte, directories member index]
  by_cases here : a = d ∧ p / 1024 = i
  · obtain ⟨rfl, rfl⟩ := here
    rw [if_pos (tables.present a process _ index own), if_pos (tables.present a process _ index own), ← frame]
    by_cases there : p % 1024 = j
    · rw [if_pos ⟨rfl, by omega⟩, there, entry_setEntry _ _ _ value]
    · rw [if_neg fun both => there (by omega), entry_setEntry_other _ _ inner (by omega) (.inr there)]
  · have elsewhere : ¬ (a = d ∧ p = 1024 * i + j) := fun both => here ⟨both.1, by omega⟩
    rw [if_neg elsewhere]
    split
    · next isThere =>
      obtain ⟨n, other, isTable⟩ := table_node member index isThere
      refine entry_setEntry_other _ _ inner (by omega) (.inl fun same => here ?_)
      rw [same] at other
      rcases isTable with rfl | rfl
      · cases tables.apart other node
      · cases tables.apart other node
        exact ⟨rfl, rfl⟩
    · rfl

end

end Tables

end Steps

/-! ## One mapping -/

/-- Between the two machines the log has grown by frames of RAM, each translated as the active
directory of the first one does. -/
structure Noted (ds : List Nat) (m m' : Machine) : Prop where
  kernel : m'.kernelDirectory = m.kernelDirectory
  active : m'.active = m.active
  head : m'.head = m.head
  start : m'.start = m.start
  stop : m'.stop = m.stop
  total : m'.pmm.totalPages = m.pmm.totalPages
  log : ∀ note ∈ m'.log, note ∈ m.log ∨ (note.1 < m.pmm.totalPages ∧
    (m.active ∈ m.kernelDirectory :: ds → note.2 = pagingGetPhysicalIn m.mem m.active (4096 * note.1)))

section Mapping

variable {m m' m'' : Machine} {ds : List Nat} {d f i t : Nat}

theorem SameView.refl (m : Machine) (ds : List Nat) : SameView m m ds := fun _ _ _ _ => rfl

theorem SameView.trans (first : SameView m m' ds) (second : SameView m' m'' ds)
    (kernel : m'.kernelDirectory = m.kernelDirectory) : SameView m m'' ds :=
  fun a member p bound => (second a (kernel ▸ member) p bound).trans (first a member p bound)

theorem SameView.translation (view : SameView m m' ds) {a virt : Nat} (member : a ∈ m.kernelDirectory :: ds)
    (bound : virt < 4294967296) : pagingGetPhysicalIn m'.mem a virt = pagingGetPhysicalIn m.mem a virt := by
  rw [pagingGetPhysicalIn_eq _ _ bound, pagingGetPhysicalIn_eq _ _ bound, view a member _ (by omega)]

theorem Noted.refl (ds : List Nat) (m : Machine) : Noted ds m m :=
  ⟨rfl, rfl, rfl, rfl, rfl, rfl, fun _ => .inl⟩

theorem Noted.trans (ok : m.pmm.Ok) (first : Noted ds m m') (view : SameView m m' ds) (second : Noted ds m' m'') :
    Noted ds m m'' where
  kernel := second.kernel.trans first.kernel
  active := second.active.trans first.active
  head := second.head.trans first.head
  start := second.start.trans first.start
  stop := second.stop.trans first.stop
  total := second.total.trans first.total
  log note member := by
    rcases second.log note member with old | ⟨ram, translated⟩
    · exact first.log note old
    · rw [first.total] at ram
      have small := ok.small
      refine .inr ⟨ram, fun inList => ?_⟩
      rw [first.active, first.kernel] at translated
      rw [translated inList, view.translation inList (by omega)]

theorem Noted.touch (ram : f < m.pmm.totalPages) : Noted ds m (m.touch f) where
  kernel := rfl
  active := rfl
  head := rfl
  start := rfl
  stop := rfl
  total := rfl
  log note member := by
    rcases mem_cons.mp member with rfl | old
    · exact .inr ⟨ram, fun _ => rfl⟩
    · exact .inl old

theorem Noted.write (ram : f < m.pmm.totalPages) (mem : Buf) : Noted ds m { m.touch f with mem := mem } :=
  { Noted.touch ram with }

theorem Noted.clear (ram : f < m.pmm.totalPages) : Noted ds m (m.clear f) := Noted.write ram _

theorem Noted.copyFrame (ok : m.pmm.Ok) (ram : f < m.pmm.totalPages) {g : Nat} (ram' : g < m.pmm.totalPages) :
    Noted ds m (m.copyFrame f g) := by
  have first : Noted ds m (m.touch g) := Noted.touch ram'
  have second : Noted ds (m.touch g) (m.copyFrame f g) := Noted.write (m := m.touch g) ram _
  exact first.trans ok (SameView.refl m ds) second

theorem sameFrame_clear (m : Machine) {g : Nat} (other : g ≠ f) : SameFrame g m.mem (m.clear f).mem := by
  simp only [Machine.clear, fill]
  exact sameFrame_splice m.mem other

theorem sameFrame_copyFrame (m : Machine) (src : Nat) {g : Nat} (other : g ≠ f) :
    SameFrame g m.mem (m.copyFrame f src).mem :=
  sameFrame_splice m.mem other

theorem Noted.allocPage {r : Option Nat} (allocated : allocPage m = (r, m')) : Noted ds m m' := by
  obtain ⟨pmm, taken, rfl⟩ := allocPage_eq allocated
  exact ⟨rfl, rfl, rfl, rfl, rfl, (congrArg (fun r => r.2.totalPages) taken).symm.trans (pmmAllocPage_totalPages m.pmm),
    fun _ => .inl⟩

end Mapping

end GinnOS.Memory
