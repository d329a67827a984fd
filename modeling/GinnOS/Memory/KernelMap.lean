import GinnOS.Memory.HeapRuns
import GinnOS.Memory.PageMaps

/-! # The kernel directory after boot

`paging_init` fills the kernel directory with identity tables and `map_framebuffer` adds
pages that map to themselves, so boot leaves a page-table structure without processes in
which every page of RAM maps to itself (`boot_tables`, `boot_identity`).
-/

namespace GinnOS.Memory

open Lib Lib.Buf

variable {m'' : Machine} {totalMemory addr : Nat} {h : Heap} {rs : List Lib.Block}

variable {m m' : Machine} {mem : Buf} {f i j n p t w : Nat}

theorem Tables.installKernel (tables : Tables m []) (loose : Loose m [] t) (bound : i < 1024)
    (absent : isPresent (entry m.mem m.kernelDirectory i) = false) (others : ∀ f, f ≠ t → SameFrame f m.mem mem) :
    Tables { m with mem := setEntry mem m.kernelDirectory i (4096 * t + kernelRw) } [] ∧
      ∀ p < 1048576, pte (setEntry mem m.kernelDirectory i (4096 * t + kernelRw)) m.kernelDirectory p =
        if p / 1024 = i then entry mem t (p % 1024) else pte m.mem m.kernelDirectory p := by
  have ram := loose.ram
  have small := tables.pmm.small
  have value : 4096 * t + kernelRw < 4294967296 := by
    simp only [kernelRw]
    omega
  have apart {n : Node} {f : Nat} (node : NodeAt m.mem m.kernelDirectory [] n f) : f ≠ t := by
    rintro rfl
    exact loose.noNode n node
  have notKernel : m.kernelDirectory ≠ t := apart (n := .kernel) rfl
  have here : entry (setEntry mem m.kernelDirectory i (4096 * t + kernelRw)) m.kernelDirectory i =
      4096 * t + kernelRw := entry_setEntry _ _ _ value
  have elsewhere {i' : Nat} (bound' : i' < 1024) (other : i' ≠ i) :
      entry (setEntry mem m.kernelDirectory i (4096 * t + kernelRw)) m.kernelDirectory i' =
        entry m.mem m.kernelDirectory i' := by
    rw [entry_setEntry_other _ _ bound bound' (.inr other), (others _ notKernel).entry bound']
  have frame : pageFrame (4096 * t + kernelRw) = t := pageFrame_frame t (by decide)
  have nodes {n : Node} {f : Nat}
      (node : NodeAt (setEntry mem m.kernelDirectory i (4096 * t + kernelRw)) m.kernelDirectory [] n f) :
      (n = .kernelTable i ∧ f = t) ∨ (n ≠ .kernelTable i ∧ NodeAt m.mem m.kernelDirectory [] n f) := by
    cases n with
    | kernel => exact .inr ⟨(by simp), node⟩
    | directory d => exact absurd node.1 List.not_mem_nil
    | table d i' => exact absurd node.1 List.not_mem_nil
    | kernelTable i' =>
      obtain ⟨bound', isThere, is⟩ := node
      rcases eq_or_ne i' i with rfl | other
      · rw [here, frame] at is
        exact .inl ⟨rfl, is⟩
      · rw [elsewhere bound' other] at isThere is
        exact .inr ⟨fun same => other (by injection same), bound', isThere, is⟩
  refine ⟨⟨tables.pmm, tables.heap, fun {n n' f} one other => ?_, fun {n f} node => ?_, fun i' bound' => ?_, (by simp)⟩,
    fun p boundP => ?_⟩
  · rcases nodes one with ⟨rfl, rfl⟩ | ⟨_, first⟩ <;> rcases nodes other with ⟨rfl, is⟩ | ⟨_, second⟩
    · rfl
    · exact absurd second (loose.noNode n')
    · exact absurd (is ▸ first) (loose.noNode n)
    · exact tables.apart first second
  · have owned : Owned m f := by
      rcases nodes node with ⟨_, rfl⟩ | ⟨_, old⟩
      · exact loose.toOwned
      · exact tables.owned old
    exact ⟨owned.used, owned.ram, owned.outside, owned.real⟩
  · rcases eq_or_ne i' i with rfl | other
    · rw [here, isUser_frame]
      rfl
    · rw [elsewhere bound' other]
      exact tables.supervisor i' bound'
  · have index : p / 1024 < 1024 := by omega
    have inner : p % 1024 < 1024 := by omega
    simp only [pte]
    by_cases same : p / 1024 = i
    · have isThere : isPresent (4096 * t + kernelRw) = true := isPresent_frame t kernelRw
      rw [if_pos same, same, here, if_pos isThere, frame, entry_setEntry_other _ _ bound inner (.inl notKernel.symm)]
    · rw [if_neg same, elsewhere index same]
      split
      · next isThere =>
        have node : NodeAt m.mem m.kernelDirectory [] (.kernelTable (p / 1024))
            (pageFrame (entry m.mem m.kernelDirectory (p / 1024))) := ⟨index, isThere, rfl⟩
        have notHere := tables.node_ne_kernel node (by simp)
        rw [entry_setEntry_other _ _ bound inner (.inl notHere), (others _ (apart node)).entry inner]
      · rfl

theorem Tables.storeKernelPte (tables : Tables m []) (bound : i < 1024) (inner : j < 1024)
    (isThere : isPresent (entry m.mem m.kernelDirectory i) = true) (value : w < 4294967296) :
    let t := pageFrame (entry m.mem m.kernelDirectory i)
    Tables { m with mem := setEntry m.mem t j w } [] ∧
      ∀ p < 1048576, pte (setEntry m.mem t j w) m.kernelDirectory p =
        if p = 1024 * i + j then w else pte m.mem m.kernelDirectory p := by
  intro t
  have node : NodeAt m.mem m.kernelDirectory [] (.kernelTable i) t := ⟨bound, isThere, rfl⟩
  have notKernel := (tables.node_ne_kernel node nofun).symm
  have kernel (i' : Nat) (bound' : i' < 1024) :
      entry (setEntry m.mem t j w) m.kernelDirectory i' = entry m.mem m.kernelDirectory i' :=
    entry_setEntry_other _ _ inner bound' (.inl notKernel)
  refine ⟨(tables.of_entries kernel nofun).1, fun p boundP => ?_⟩
  have index : p / 1024 < 1024 := by omega
  simp only [pte, kernel _ index]
  by_cases same : p / 1024 = i
  · rw [same, if_pos isThere, if_pos isThere]
    by_cases here : p % 1024 = j
    · rw [if_pos (by omega), here, entry_setEntry _ _ _ value]
    · rw [if_neg (by omega), entry_setEntry_other _ _ inner (by omega) (.inr here)]
  · rw [if_neg (show ¬ p = 1024 * i + j by omega)]
    split
    · next there =>
      have other : NodeAt m.mem m.kernelDirectory [] (.kernelTable (p / 1024))
          (pageFrame (entry m.mem m.kernelDirectory (p / 1024))) := ⟨index, there, rfl⟩
      refine entry_setEntry_other _ _ inner (by omega) (.inl fun sameFrame => same ?_)
      rw [sameFrame] at other
      injection tables.apart other node
    · rfl

/-! ## `paging_init` -/

theorem word_tableBytes (words : Nat → Nat) (j : Nat) (bound : words j < 4294967296) :
    word (tableBytes words) (4 * j) = words j := by
  simp only [word, le32, tableBytes, show 4 * j / 4 = j by omega, show (4 * j + 1) / 4 = j by omega,
    show (4 * j + 2) / 4 = j by omega, show (4 * j + 3) / 4 = j by omega, show 4 * j % 4 = 0 by omega,
    show (4 * j + 1) % 4 = 1 by omega, show (4 * j + 2) % 4 = 2 by omega, show (4 * j + 3) % 4 = 3 by omega]
  have assembled := assemble32 (UInt32.ofNat (words j))
  rw [UInt32.toNat_ofNat', Nat.mod_eq_of_lt bound] at assembled
  rw [assembled, UInt32.toNat_ofNat', Nat.mod_eq_of_lt bound]

theorem identityEntry_lt (totalMemory i j : Nat) : identityEntry totalMemory i j < 4294967296 := by
  simp only [identityEntry, kernelRw]
  split <;> omega

/-- The state of the loop of `paging_init` before table `i`. -/
structure Identity (totalMemory : Nat) (m : Machine) (i : Nat) : Prop where
  tables : Tables m []
  empty : ∀ i' < 1024, i ≤ i' → entry m.mem m.kernelDirectory i' = 0
  pages : ∀ p < 1048576, pte m.mem m.kernelDirectory p =
    if p / 1024 < i then identityEntry totalMemory (p / 1024) (p % 1024) else 0

/-- What boot does not change once the directory is there. -/
structure SameSetting (m m' : Machine) : Prop where
  kernel : m'.kernelDirectory = m.kernelDirectory
  active : m'.active = m.active
  log : m'.log = m.log
  total : m'.pmm.totalPages = m.pmm.totalPages
  heap : m'.head = m.head ∧ m'.start = m.start ∧ m'.stop = m.stop
  region : ∀ k, m.start ≤ k → k < m.stop → m'.mem k = m.mem k

theorem SameSetting.refl (m : Machine) : SameSetting m m := ⟨rfl, rfl, rfl, rfl, ⟨rfl, rfl, rfl⟩, fun _ _ _ => rfl⟩

theorem SameSetting.trans (first : SameSetting m m') (second : SameSetting m' m'') :
    SameSetting m m'' where
  kernel := second.kernel.trans first.kernel
  active := second.active.trans first.active
  log := second.log.trans first.log
  total := second.total.trans first.total
  heap := ⟨second.heap.1.trans first.heap.1, second.heap.2.1.trans first.heap.2.1,
    second.heap.2.2.trans first.heap.2.2⟩
  region k lower upper := by
    rw [second.region k (by rw [first.heap.2.1]; exact lower) (by rw [first.heap.2.2]; exact upper),
      first.region k lower upper]

/-- A page is aligned, so a frame outside the heap has no byte in it. -/
theorem Owned.not_heap {k : Nat} (owned : Owned m f) (aligned : m.start % 4096 = 0 ∧ m.stop % 4096 = 0)
    (lower : m.start ≤ k) (upper : k < m.stop) : k / 4096 ≠ f := by
  have outside := owned.outside
  omega

theorem Identity.step (identity : Identity totalMemory m i) (bound : i < 1024) {m₁ : Machine}
    (allocated : allocPage m = (some t, m₁)) (aligned : m.start % 4096 = 0 ∧ m.stop % 4096 = 0) :
    let mem := setEntry (splice m₁.mem (4096 * t) 4096 (tableBytes (identityEntry totalMemory i)))
      m₁.kernelDirectory i (4096 * t + kernelRw)
    Identity totalMemory { m₁ with mem := mem } (i + 1) ∧ SameSetting m { m₁ with mem := mem } := by
  intro mem
  obtain ⟨tables, loose⟩ := identity.tables.alloc allocated
  have noted : Noted [] m m₁ := Noted.allocPage allocated
  have total := noted.total
  obtain ⟨pmm, _, rfl⟩ := allocPage_eq allocated
  have zero := identity.empty i bound (Nat.le_refl i)
  have absent : isPresent (entry m.mem m.kernelDirectory i) = false := by
    rw [zero]
    rfl
  have others (f : Nat) (other : f ≠ t) :
      SameFrame f m.mem (splice m.mem (4096 * t) 4096 (tableBytes (identityEntry totalMemory i))) :=
    sameFrame_splice m.mem other
  obtain ⟨tables', pages⟩ := tables.installKernel loose bound absent others
  have kernelOwned := tables.owned (n := .kernel) rfl
  have notKernel : m.kernelDirectory ≠ t := by
    rintro rfl
    exact loose.noNode .kernel rfl
  refine ⟨⟨tables', fun i' bound' later => ?_, fun p boundP => ?_⟩, rfl, rfl, rfl, total, ⟨rfl, rfl, rfl⟩,
    fun k lower upper => ?_⟩
  · rw [entry_setEntry_other _ _ bound bound' (.inr (by omega)), (others _ notKernel).entry bound']
    exact identity.empty i' bound' (by omega)
  · rw [pages p boundP, identity.pages p boundP]
    by_cases here : p / 1024 = i
    · rw [if_pos here, if_pos (by omega), entry_splice _ _ _ (by omega),
        word_tableBytes _ _ (identityEntry_lt _ _ _), here]
    · by_cases before : p / 1024 < i
      · rw [if_neg here, if_pos before, if_pos (by omega)]
      · rw [if_neg here, if_neg before, if_neg (by omega)]
  · simp only [mem]
    rw [sameFrame_setEntry _ _ bound (kernelOwned.not_heap aligned lower upper) k rfl,
      others _ (loose.toOwned.not_heap aligned lower upper) k rfl]

theorem identityTables_identity (identity : Identity totalMemory m i) (bound : i + n ≤ 1024)
    (aligned : m.start % 4096 = 0 ∧ m.stop % 4096 = 0) (filled : identityTables totalMemory m n i = some m') :
    Identity totalMemory m' (i + n) ∧ SameSetting m m' := by
  induction n generalizing m i with
  | zero =>
    cases filled
    exact ⟨identity, .refl _⟩
  | succ n ih =>
    simp only [identityTables] at filled
    cases allocated : allocPage m with
    | mk r m₁ =>
      rw [allocated] at filled
      cases r with
      | none => cases filled
      | some t =>
        obtain ⟨next, setting⟩ := identity.step (by omega) allocated aligned
        rw [← setting.heap.2.1, ← setting.heap.2.2] at aligned
        obtain ⟨last, rest⟩ := ih next (by omega) aligned filled
        rw [show i + (n + 1) = i + 1 + n by omega]
        exact ⟨last, setting.trans rest⟩

/-- The empty directory that `paging_init` starts from. -/
theorem Identity.start (ok : HeapOk h rs) {directory : Nat} {pmm : Pmm}
    (allocated : pmmAllocPage h.pmm = (some directory, pmm)) (totalMemory : Nat) :
    let m : Machine := { h with
      pmm := pmm, mem := fill h.mem (4096 * directory) 4096 0
      kernelDirectory := directory, active := directory, log := [] }
    Identity totalMemory m 0 ∧ ∀ k, h.start ≤ k → k < h.stop → m.mem k = h.mem k := by
  intro m
  obtain ⟨wasFree, real, result⟩ := pmmAllocPage_some allocated
  have zero (i : Nat) (bound : i < 1024) : entry m.mem directory i = 0 := by
    simp only [m, fill]
    rw [entry_splice _ _ _ bound]
    rfl
  have none (i : Nat) (bound : i < 1024) : isPresent (entry m.mem directory i) = false := by
    rw [zero i bound]
    rfl
  have outside : ¬ (h.start ≤ 4096 * directory ∧ 4096 * directory < h.stop) := fun inside => by
    rw [ok.used directory inside.1 inside.2] at wasFree
    cases wasFree
  have owned : Owned m directory := by
    refine ⟨?_, ?_, outside, real⟩
    · simp [m, result, Pmm.markUsed]
    · simp only [m, result]
      exact ok.pmm.inside wasFree
  have onlyKernel {n : Node} {f : Nat} (node : NodeAt m.mem directory [] n f) : n = .kernel ∧ f = directory := by
    cases n with
    | kernel => exact ⟨rfl, node⟩
    | kernelTable i =>
      obtain ⟨bound, isThere, _⟩ := node
      rw [none i bound] at isThere
      cases isThere
    | directory d => exact absurd node.1 List.not_mem_nil
    | table d i => exact absurd node.1 List.not_mem_nil
  refine ⟨⟨⟨ok.pmm.alloc allocated, fun page lower upper => pmmAllocPage_used allocated (ok.used page lower upper), fun one other => ?_,
    fun node => ?_, fun i bound => ?_, (by simp)⟩, fun i bound _ => zero i bound, fun p bound => ?_⟩, fun k lower upper => ?_⟩
  · rw [(onlyKernel one).1, (onlyKernel other).1]
  · rw [(onlyKernel node).2]
    exact owned
  · rw [show entry m.mem m.kernelDirectory i = 0 from zero i bound]
    rfl
  · rw [pte, none _ (by omega)]
    rfl
  · have apart := owned.not_heap ⟨ok.startPage, ok.stopPage⟩ lower upper
    have same : splice h.mem (4096 * directory) 4096 (fun _ => 0) k = h.mem k := splice_outside (by omega)
    exact same

/-! ## The framebuffer -/

/-- Every page of RAM that the tables cover maps to itself. -/
def MapsRam (m : Machine) : Prop :=
  ∀ p < m.pmm.totalPages, pte m.mem m.kernelDirectory p = 4096 * p + kernelRw

/-- Entries were added that map a page to itself. -/
def Added (m m' : Machine) : Prop := ∀ p < 1048576,
  pte m'.mem m'.kernelDirectory p = pte m.mem m.kernelDirectory p ∨ pte m'.mem m'.kernelDirectory p = 4096 * p + kernelRw

theorem Added.refl (m : Machine) : Added m m := fun _ _ => .inl rfl

theorem Added.trans (first : Added m m') (second : Added m' m'') : Added m m'' := by
  intro p bound
  rcases second p bound with same | itself
  · rw [same]
    exact first p bound
  · exact .inr itself

theorem pageEntry_self (aligned : addr % 4096 = 0) : pageEntry addr kernelRw = 4096 * (addr / 4096) + kernelRw := by
  simp only [pageEntry, kernelRw]
  omega

/-- The first half of `paging_map`: a table for the page. -/
theorem pagingMap_eq (page : addr % 4096 = 0) (mapped : pagingMap m addr addr kernelRw = some m') :
    ∃ m₁ mem, m' = { m₁ with mem := mem } ∧
      mem = setEntry m₁.mem (pageFrame (entry m₁.mem m.kernelDirectory (dirIndex addr))) (tableIndex addr)
        (4096 * (addr / 4096) + kernelRw) ∧
      ((m₁ = m ∧ isPresent (entry m.mem m.kernelDirectory (dirIndex addr)) = true) ∨
        (isPresent (entry m.mem m.kernelDirectory (dirIndex addr)) = false ∧
          ∃ t m₀ filled, allocPage m = (some t, m₀) ∧ m₁ = { m₀ with mem := filled } ∧
            filled = setEntry (fill m₀.mem (4096 * t) 4096 0) m.kernelDirectory (dirIndex addr)
              (4096 * t + kernelRw))) := by
  have notUser : isUser kernelRw = false := rfl
  simp only [pagingMap, notUser, Bool.false_eq_true, if_false, pageEntry_self page] at mapped
  cases isThere : isPresent (entry m.mem m.kernelDirectory (dirIndex addr)) with
  | true =>
    simp only [isThere, if_true, Option.some.injEq] at mapped
    exact ⟨m, _, mapped.symm, rfl, .inl ⟨rfl, rfl⟩⟩
  | false =>
    simp only [isThere, Bool.false_eq_true, if_false] at mapped
    cases allocated : allocPage m with
    | mk r m₀ =>
      rw [allocated] at mapped
      cases r with
      | none => cases mapped
      | some t =>
        simp only [Option.some.injEq] at mapped
        exact ⟨{ m₀ with mem := setEntry (fill m₀.mem (4096 * t) 4096 0) m.kernelDirectory (dirIndex addr) _ }, _,
          mapped.symm, rfl, .inr ⟨rfl, t, m₀, _, rfl, rfl, rfl⟩⟩

theorem pagingMap_tables (tables : Tables m []) (aligned : m.start % 4096 = 0 ∧ m.stop % 4096 = 0)
    (page : addr % 4096 = 0) (low : addr < 4294967296) (mapped : pagingMap m addr addr kernelRw = some m') :
    Tables m' [] ∧ SameSetting m m' ∧ Added m m' := by
  have bound := dirIndex_lt addr
  have inner := tableIndex_lt addr
  obtain ⟨m₁, _, rfl, rfl, table⟩ := pagingMap_eq page mapped
  have first : Tables m₁ [] ∧ SameSetting m m₁ ∧ isPresent (entry m₁.mem m.kernelDirectory (dirIndex addr)) = true ∧
      ∀ p < 1048576, pte m₁.mem m.kernelDirectory p = pte m.mem m.kernelDirectory p := by
    rcases table with ⟨rfl, isThere⟩ | ⟨absent, t, m₀, _, allocated, rfl, rfl⟩
    · exact ⟨tables, .refl _, isThere, fun _ _ => rfl⟩
    · obtain ⟨tables₀, loose⟩ := tables.alloc allocated
      have noted : Noted [] m m₀ := Noted.allocPage allocated
      have total := noted.total
      obtain ⟨pmm, _, rfl⟩ := allocPage_eq allocated
      have others (f : Nat) (other : f ≠ t) : SameFrame f m.mem (fill m.mem (4096 * t) 4096 0) :=
        sameFrame_splice m.mem other
      obtain ⟨tables₁, pages⟩ := tables₀.installKernel loose bound absent others
      have kernelOwned : Owned m m.kernelDirectory := tables.owned (n := .kernel) rfl
      have small := tables₀.pmm.small
      have ram := loose.ram
      have region (k : Nat) (lower : m.start ≤ k) (upper : k < m.stop) :
          setEntry (fill m.mem (4096 * t) 4096 0) m.kernelDirectory (dirIndex addr) (4096 * t + kernelRw) k = m.mem k := by
        rw [sameFrame_setEntry _ _ bound (kernelOwned.not_heap aligned lower upper) k rfl,
          others _ (loose.toOwned.not_heap aligned lower upper) k rfl]
      refine ⟨tables₁, ⟨rfl, rfl, rfl, total, ⟨rfl, rfl, rfl⟩, region⟩, ?_, fun p boundP => ?_⟩
      · rw [entry_setEntry _ _ _ (by simp only [kernelRw]; omega), isPresent_frame]
        rfl
      · rw [pages p boundP]
        split
        · next same =>
          rw [fill, entry_splice _ _ _ (by omega), pte, same, absent]
          rfl
        · rfl
  obtain ⟨tables₁, setting, isThere, pages⟩ := first
  have kernel := setting.kernel
  rw [← kernel] at isThere pages ⊢
  have position : 1024 * dirIndex addr + tableIndex addr = addr / 4096 := by
    simp only [dirIndex, tableIndex]
    omega
  obtain ⟨tables₂, pages₂⟩ := tables₁.storeKernelPte bound inner isThere
    (w := 4096 * (addr / 4096) + kernelRw) (by simp only [kernelRw]; omega)
  have table : NodeAt m₁.mem m₁.kernelDirectory [] (.kernelTable (dirIndex addr)) _ := ⟨bound, isThere, rfl⟩
  have region (k : Nat) (lower : m₁.start ≤ k) (upper : k < m₁.stop) :
      setEntry m₁.mem (pageFrame (entry m₁.mem m₁.kernelDirectory (dirIndex addr))) (tableIndex addr)
        (4096 * (addr / 4096) + kernelRw) k = m₁.mem k := by
    rw [← setting.heap.2.1, ← setting.heap.2.2] at aligned
    exact sameFrame_setEntry _ _ inner ((tables₁.owned table).not_heap aligned lower upper) k rfl
  refine ⟨tables₂, setting.trans ⟨rfl, rfl, rfl, rfl, ⟨rfl, rfl, rfl⟩, region⟩, fun p bound => ?_⟩
  have entry := pages₂ p bound
  rw [position] at entry
  by_cases same : p = addr / 4096
  · exact .inr (entry.trans (by rw [if_pos same, same]))
  · exact .inl (entry.trans (by rw [if_neg same, pages p bound, kernel]))

theorem mapFramebufferPages_tables (tables : Tables m []) (aligned : m.start % 4096 = 0 ∧ m.stop % 4096 = 0) (page : addr % 4096 = 0) (low : 0 < n → addr + 4096 * n ≤ 4294967296)
    (mapped : mapFramebufferPages m n addr = some m') :
    Tables m' [] ∧ SameSetting m m' ∧ Added m m' := by
  induction n generalizing m addr with
  | zero =>
    cases mapped
    exact ⟨tables, .refl _, .refl _⟩
  | succ n ih =>
    simp only [mapFramebufferPages] at mapped
    cases one : pagingMap m addr addr kernelRw with
    | none =>
      rw [one] at mapped
      cases mapped
    | some m₁ =>
      rw [one] at mapped
      obtain ⟨tables₁, setting, added⟩ := pagingMap_tables tables aligned page (by omega) one
      rw [← setting.heap.2.1, ← setting.heap.2.2] at aligned
      obtain ⟨tables', setting', added'⟩ := ih tables₁ aligned (by omega) (by omega) mapped
      exact ⟨tables', setting.trans setting', added.trans added'⟩

/-! ## Boot -/

theorem HeapOk.congr {h' : Heap} (ok : HeapOk h rs) (pmm : h'.pmm.Ok)
    (used : ∀ page, h'.start ≤ 4096 * page → 4096 * page < h'.stop → h'.pmm.free page = false)
    (same : h'.head = h.head ∧ h'.start = h.start ∧ h'.stop = h.stop)
    (region : ∀ k, h.start ≤ k → k < h.stop → h'.mem k = h.mem k) : HeapOk h' rs := by
  obtain ⟨head, start, stop⟩ := same
  refine ⟨?_, ?_, ?_, ?_, ?_, ?_, ok.last, used, pmm⟩
  · rw [head, start, ok.head]
  · rw [start]
    exact ok.low
  · rw [stop]
    exact ok.top
  · rw [start]
    exact ok.startPage
  · rw [stop]
    exact ok.stopPage
  · rw [start, stop]
    refine ok.chain.imp fun off r lower upper stored => stored.congr fun k above below => region k (by omega) ?_
    have wide := blockHeader.width_le r
    omega

/-- Below the last 4 MiB the number of tables does not wrap, and every page of RAM has its entry. -/
theorem Identity.mapsRam {totalPages : Nat} (low : totalPages ≤ 1047552)
    (identity : Identity (totalPages * 4096 % 4294967296) m
      ((totalPages * 4096 % 4294967296 + 4194303) % 4294967296 / 4194304))
    (total : m.pmm.totalPages = totalPages) : MapsRam m := by
  intro p bound
  have covered : p / 1024 < (totalPages * 4096 % 4294967296 + 4194303) % 4294967296 / 4194304 := by omega
  have inside : (p / 1024 * 1024 + p % 1024) * 4096 % 4294967296 < totalPages * 4096 % 4294967296 := by omega
  rw [identity.pages p (by omega), if_pos covered, identityEntry, if_pos inside]
  omega

/-- No page of the kernel directory is for users. -/
def AllSupervisor (m : Machine) : Prop := ∀ p < 1048576, isUser (pte m.mem m.kernelDirectory p) = false

theorem Identity.allSupervisor (identity : Identity totalMemory m i) : AllSupervisor m := by
  intro p bound
  rw [identity.pages p bound]
  split
  · have address : (p / 1024 * 1024 + p % 1024) * 4096 % 4294967296 = 4096 * p := by omega
    simp only [identityEntry, address]
    split
    · rw [isUser_frame]
      rfl
    · rfl
  · rfl

theorem Added.mapsRam (added : Added m m') (total : m'.pmm.totalPages = m.pmm.totalPages) (ok : m.pmm.Ok)
    (ram : MapsRam m) : MapsRam m' := by
  intro p bound
  have small := ok.small
  rw [total] at bound
  rcases added p (by omega) with same | itself
  · rw [same]
    exact ram p bound
  · exact itself

theorem Added.allSupervisor (added : Added m m') (supervisor : AllSupervisor m) : AllSupervisor m' := by
  intro p bound
  rcases added p bound with same | itself
  · rw [same]
    exact supervisor p bound
  · rw [itself, isUser_frame]
    rfl

theorem pagingInit_booted (ok : HeapOk h rs) (initialised : pagingInit h = some m) :
    Tables m [] ∧ HeapOk m.toHeap rs ∧ m.active = m.kernelDirectory ∧ m.log = [] ∧
      m.pmm.totalPages = h.pmm.totalPages ∧ AllSupervisor m ∧ (h.pmm.totalPages ≤ 1047552 → MapsRam m) := by
  simp only [pagingInit] at initialised
  cases allocated : pmmAllocPage h.pmm with
  | mk r pmm =>
    rw [allocated] at initialised
    cases r with
    | none => cases initialised
    | some directory =>
      obtain ⟨start, region⟩ := Identity.start ok allocated (h.pmm.totalPages * 4096 % 4294967296)
      have few : 0 + (h.pmm.totalPages * 4096 % 4294967296 + 4194303) % 4294967296 / 4194304 ≤ 1024 := by omega
      obtain ⟨identity, setting⟩ := identityTables_identity start few ⟨ok.startPage, ok.stopPage⟩ initialised
      rw [Nat.zero_add] at identity
      have total : pmm.totalPages = h.pmm.totalPages := by
        obtain ⟨_, _, result⟩ := pmmAllocPage_some allocated
        rw [result]
        rfl
      have samePages := setting.total.trans total
      have kept (k : Nat) (lower : h.start ≤ k) (upper : k < h.stop) : m.mem k = h.mem k :=
        (setting.region k lower upper).trans (region k lower upper)
      refine ⟨identity.tables, ok.congr identity.tables.pmm identity.tables.heap setting.heap kept, ?_,
        setting.log, samePages, identity.allSupervisor, fun low => identity.mapsRam low samePages⟩
      rw [setting.active, setting.kernel]

/-- What boot leaves behind: page tables without processes, the heap of `memory_init`, and the
kernel directory active. -/
structure Booted (m : Machine) : Prop where
  tables : Tables m []
  heap : HeapOk m.toHeap [⟨65524, none⟩]
  active : m.active = m.kernelDirectory
  log : m.log = []
  supervisor : AllSupervisor m
  ram : m.pmm.totalPages ≤ 1047552 → MapsRam m

theorem boot_booted {image : KernelImage} {stage2 : Nat × Nat} {regions : List MemoryRegion}
    {framebuffer : Option (Nat × Nat)} (started : boot image stage2 regions mem framebuffer = some m) : Booted m := by
  simp only [boot] at started
  cases memory : memoryInit image stage2 regions mem with
  | none =>
    rw [memory] at started
    cases started
  | some h =>
    simp only [memory] at started
    cases paging : pagingInit h with
    | none =>
      simp only [paging] at started
      cases started
    | some m₁ =>
      simp only [paging] at started
      obtain ⟨tables, heap, active, log, total, supervisor, ram⟩ := pagingInit_booted (memoryInit_ok memory) paging
      rw [← total] at ram
      cases framebuffer with
      | none =>
        cases started
        exact ⟨tables, heap, active, log, supervisor, ram⟩
      | some area =>
        obtain ⟨physBase, bytes⟩ := area
        obtain ⟨tables', setting, added⟩ := mapFramebufferPages_tables tables ⟨heap.startPage, heap.stopPage⟩
          (by omega) (by omega) started
        refine ⟨tables', heap.congr tables'.pmm tables'.heap setting.heap setting.region, ?_, ?_,
          added.allSupervisor supervisor, fun low => ?_⟩
        · rw [setting.active, setting.kernel, active]
        · rw [setting.log, log]
        · exact added.mapsRam setting.total tables.pmm (ram (by rw [← setting.total]; exact low))

end GinnOS.Memory
