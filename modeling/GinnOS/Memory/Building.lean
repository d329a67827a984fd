import GinnOS.Memory.Ownership

/-! # Building an address space

What the kernel does to the memory of one process, between making its directory and freeing
it, is a sequence of four actions (`Act`): back a page with a fresh frame, map a device page,
read a page table, write into a user page.  They keep the ownership of frames, change the
process's view only at the pages they map, and leave the heap alone (`Acted`).
-/

namespace GinnOS.Memory

open Lib Lib.Buf List

variable {P' : Nat → Prop} {ok : Bool} {Q' : Machine → Nat → Bool → Prop} {m₁ m₂ : Machine} {vaddr : Nat}

variable {m m' m'' : Machine} {ps : List (Nat × Nat)} {ds : List Nat} {d f i n p q w flags : Nat} {mem : Buf}
  {P : Nat → Prop} {Q : Machine → Nat → Bool → Prop}

/-! ## The identity map -/

/-- Every access by a physical address so far has reached the frame at that address. -/
def Faithful (m : Machine) : Prop := ∀ note ∈ m.log, note.2 = 4096 * note.1

/-- Every page of RAM is identity-mapped in the kernel's directory and in those of processes. -/
def RamMapped (m : Machine) (ds : List Nat) : Prop :=
  ∀ a ∈ m.kernelDirectory :: ds, ∀ p < m.pmm.totalPages, pte m.mem a p = 4096 * p + kernelRw

theorem Noted.faithful (noted : Noted ds m m') (ok : m.pmm.Ok) (ram : RamMapped m ds)
    (active : m.active ∈ m.kernelDirectory :: ds) (faithful : Faithful m) : Faithful m' := by
  intro note member
  rcases noted.log note member with old | ⟨isRam, translated⟩
  · exact faithful note old
  · have small := ok.small
    have isThere : isPresent (4096 * note.1 + kernelRw) = true := isPresent_frame note.1 kernelRw
    have page : 4096 * note.1 / 4096 = note.1 := by omega
    rw [translated active, pagingGetPhysicalIn_eq _ _ (by omega), page, ram _ active _ isRam, if_pos isThere,
      pageFrame_frame _ (by decide)]
    omega

/-! ## Actions -/

/-- One action on the directory `d`; `Q` tells what is known of the machine, the page and the
answer when a page is mapped. -/
inductive Act (d : Nat) (Q : Machine → Nat → Bool → Prop) : Machine → Machine → Prop where
  | page {m m₁ m₂ : Machine} {q f flags : Nat} {ok : Bool} (bound : q < 1048576) (isThere : isPresent flags = true)
      (user : isUser flags = true) (allocated : allocPage m = (some f, m₁))
      (mapped : pagingMapIn (m₁.clear f) d (4096 * q) (4096 * f) flags = (ok, m₂)) (known : Q m q ok) : Act d Q m m₂
  | device {m m₁ : Machine} {q phys flags : Nat} {ok : Bool} (bound : q < 1048576) (isThere : isPresent flags = true)
      (user : isUser flags = true) (low : phys < 4294967296) (outside : m.pmm.totalPages ≤ phys / 4096)
      (mapped : pagingMapIn m d (4096 * q) phys flags = (ok, m₁)) (known : Q m q ok) : Act d Q m m₁
  | read {m : Machine} {f : Nat} (ram : f < m.pmm.totalPages) : Act d Q m (m.touch f)
  | write {m : Machine} {q f : Nat} {mem : Buf} (page : UserPage m d q f)
      (others : ∀ g, g ≠ f → SameFrame g m.mem mem) : Act d Q m { m.touch f with mem := mem }

/-- Ownership is kept, and only the pages `P` of the directory `d` are mapped differently; while
those are behind the end of RAM, no access goes astray. -/
structure Evolved (ps : List (Nat × Nat)) (d : Nat) (P : Nat → Prop) (m m' : Machine) : Prop where
  held : Held m' ps
  kernel : m'.kernelDirectory = m.kernelDirectory
  active : m'.active = m.active
  total : m'.pmm.totalPages = m.pmm.totalPages
  used : ∀ g, m.pmm.free g = false → m'.pmm.free g = false
  view : ∀ a ∈ m.kernelDirectory :: dirs ps, ∀ q < 1048576, ¬ (a = d ∧ P q) → pte m'.mem a q = pte m.mem a q
  faithful : RamMapped m (dirs ps) → m.active ∈ m.kernelDirectory :: dirs ps →
    (∀ q, P q → m.pmm.totalPages ≤ q) → Faithful m → Faithful m'

theorem Evolved.refl (held : Held m ps) : Evolved ps d P m m :=
  ⟨held, rfl, rfl, rfl, fun _ => id, fun _ _ _ _ _ => rfl, fun _ _ _ => id⟩

theorem Evolved.ramMapped (evolved : Evolved ps d P m m') (ok : m.pmm.Ok) (ram : RamMapped m (dirs ps))
    (apart : ∀ q, P q → m.pmm.totalPages ≤ q) : RamMapped m' (dirs ps) := by
  intro a member p bound
  rw [evolved.kernel] at member
  rw [evolved.total] at bound
  have small := ok.small
  rw [evolved.view a member p (by omega) fun here => by have := apart p here.2; omega]
  exact ram a member p bound

theorem Evolved.trans (first : Evolved ps d P m m') (ok : m.pmm.Ok) (second : Evolved ps d P m' m'') :
    Evolved ps d P m m'' where
  held := second.held
  kernel := second.kernel.trans first.kernel
  active := second.active.trans first.active
  total := second.total.trans first.total
  used g isUsed := second.used g (first.used g isUsed)
  view a member q bound other := by
    rw [second.view a (by rw [first.kernel]; exact member) q bound other, first.view a member q bound other]
  faithful ram active apart faithful := by
    refine second.faithful (first.ramMapped ok ram apart) ?_ ?_ (first.faithful ram active apart faithful)
    · rw [first.active, first.kernel]
      exact active
    · rw [first.total]
      exact apart

theorem Evolved.mono (evolved : Evolved ps d P m m') (weaker : ∀ q, P q → P' q) :
    Evolved ps d P' m m' :=
  { evolved with
    view := fun a member q bound other => evolved.view a member q bound fun here => other ⟨here.1, weaker q here.2⟩
    faithful := fun ram active apart => evolved.faithful ram active fun q here => apart q (weaker q here) }

theorem Evolved.userPage (evolved : Evolved ps d P m m') (member : d ∈ dirs ps) (page : UserPage m d q f)
    (other : ¬ P q) : UserPage m' d q f := by
  obtain ⟨bound, isThere, user, frame, ram⟩ := page
  rw [← evolved.view d (mem_cons_of_mem _ member) q bound fun here => other here.2] at isThere user frame
  exact ⟨bound, isThere, user, frame, by rw [evolved.total]; exact ram⟩

/-- The heap is used, and may grow. -/
theorem Evolved.grown (held : Held m ps) {h : Heap} {rs : List Lib.Block} (grown : Grown m.toHeap h) (ok : HeapOk h rs) :
    Evolved ps d P m { m with toHeap := h } where
  held := held.undisturbed (.grown held.tables held.marked grown ok)
  kernel := rfl
  active := rfl
  total := grown.total
  used g isUsed := by rw [grown.free, isUsed, Bool.false_and]
  view a member q bound _ := (Undisturbed.grown held.tables held.marked grown ok).view a member q bound
  faithful _ _ _ := id

/-- The heap is left alone, too. -/
structure Acted (ps : List (Nat × Nat)) (d : Nat) (P : Nat → Prop) (m m' : Machine) : Prop
    extends Evolved ps d P m m' where
  heap : m'.head = m.head ∧ m'.start = m.start ∧ m'.stop = m.stop
  region : ∀ k, m.start ≤ k → k < m.stop → m'.mem k = m.mem k

theorem Acted.refl (held : Held m ps) : Acted ps d P m m := ⟨.refl held, ⟨rfl, rfl, rfl⟩, fun _ _ _ => rfl⟩

theorem Acted.trans (first : Acted ps d P m m') (ok : m.pmm.Ok) (second : Acted ps d P m' m'') :
    Acted ps d P m m'' where
  toEvolved := first.toEvolved.trans ok second.toEvolved
  heap := ⟨second.heap.1.trans first.heap.1, second.heap.2.1.trans first.heap.2.1,
    second.heap.2.2.trans first.heap.2.2⟩
  region k lower upper := by
    rw [second.region k (by rw [first.heap.2.1]; exact lower) (by rw [first.heap.2.2]; exact upper),
      first.region k lower upper]

theorem Acted.mono (acted : Acted ps d P m m') (weaker : ∀ q, P q → P' q) : Acted ps d P' m m' :=
  { acted with toEvolved := acted.toEvolved.mono weaker }

theorem Acted.of_undisturbed (held : Held m ps) (same : Undisturbed (dirs ps) m m') (noted : Noted (dirs ps) m m')
    (used : ∀ g, m.pmm.free g = false → m'.pmm.free g = false)
    (region : ∀ k, m.start ≤ k → k < m.stop → m'.mem k = m.mem k) : Acted ps d P m m' where
  held := held.undisturbed same
  kernel := noted.kernel
  active := noted.active
  total := noted.total
  used := used
  heap := ⟨noted.head, noted.start, noted.stop⟩
  region := region
  view a member q bound _ := same.view a member q bound
  faithful ram active _ := noted.faithful held.tables.pmm ram active

/-- The memory of the process with the directory `d` can be worked on. -/
structure Ready (ps : List (Nat × Nat)) (d : Nat) (m : Machine) : Prop where
  held : Held m ps
  member : d ∈ dirs ps
  aligned : m.start % 4096 = 0 ∧ m.stop % 4096 = 0

theorem Ready.listed (ready : Ready ps d m) : d ∈ m.kernelDirectory :: dirs ps := mem_cons_of_mem _ ready.member

theorem Acted.ready (acted : Acted ps d P m m') (ready : Ready ps d m) : Ready ps d m' :=
  ⟨acted.held, ready.member, by rw [acted.heap.2.1, acted.heap.2.2]; exact ready.aligned⟩

theorem Acted.overwrite (held : Held m ps) (loose : Loose m (dirs ps) f)
    (aligned : m.start % 4096 = 0 ∧ m.stop % 4096 = 0) (others : ∀ g, g ≠ f → SameFrame g m.mem mem) :
    Acted ps d P m { m.touch f with mem := mem } :=
  .of_undisturbed held ((held.overwrite loose others).congr rfl rfl rfl rfl rfl) (Noted.write loose.ram mem)
    (fun _ => id) fun k lower upper => others _ (loose.toOwned.not_heap aligned lower upper) k rfl

theorem Held.pagingMapIn_cases (held : Held m ps) (member : d ∈ dirs ps) (bound : q < 1048576) (user : isUser flags = true)
    {phys : Nat} (low : phys < 4294967296) (mapped : pagingMapIn m d (4096 * q) phys flags = (ok, m')) :
    (ok = true ∧ Mapped (dirs ps) m m' d q (pageEntry phys flags)) ∨ (ok = false ∧ NoTable (dirs ps) m m' d (q / 1024)) := by
  have page : 4096 * q / 4096 = q := by omega
  rcases Memory.pagingMapIn_cases held.tables held.marked member (show 4096 * q < 4294967296 by omega) user low with
    ⟨m₁, made, done⟩ | ⟨m₁, failed, none⟩
  · obtain ⟨rfl, rfl⟩ := Prod.mk.inj (mapped.symm.trans made)
    exact .inl ⟨rfl, page ▸ done⟩
  · obtain ⟨rfl, rfl⟩ := Prod.mk.inj (mapped.symm.trans failed)
    exact .inr ⟨rfl, page ▸ none⟩

/-- `paging_map_in` of a spare frame, or of one that is not RAM. -/
theorem Ready.pagingMapIn_acted (ready : Ready ps d m) (bound : q < 1048576) (user : isUser flags = true)
    {phys : Nat} (low : phys < 4294967296) (fresh : phys / 4096 < m.pmm.totalPages → Spare m ps (phys / 4096))
    (here : P q) (mapped : pagingMapIn m d (4096 * q) phys flags = (ok, m')) : Acted ps d P m m' := by
  obtain ⟨held, member, aligned⟩ := ready
  rcases held.pagingMapIn_cases member bound user low mapped with ⟨_, done⟩ | ⟨_, none⟩
  · have frame : pageFrame (pageEntry phys flags) = phys / 4096 := pageFrame_pageEntry phys flags
    have held' := held.mapped member bound done (by rw [frame]; exact fresh)
    have table : NodeAt m'.mem m'.kernelDirectory (dirs ps) (.table d (q / 1024)) _ :=
      ⟨member, by omega, done.own, rfl⟩
    have directory : NodeAt m.mem m.kernelDirectory (dirs ps) (.directory d) d := ⟨member, rfl⟩
    have used (g : Nat) (isUsed : m.pmm.free g = false) : m'.pmm.free g = false := by
      rcases done.table with ⟨samePmm, _⟩ | ⟨_, allocated⟩
      · rwa [samePmm]
      · exact pmmAllocPage_used allocated isUsed
    refine ⟨⟨held', done.noted.kernel, done.noted.active, done.noted.total, used, fun a inList q' bound' other => ?_,
      fun ram active _ => done.noted.faithful held.tables.pmm ram active⟩,
      ⟨done.noted.head, done.noted.start, done.noted.stop⟩, fun k lower upper => ?_⟩
    · rw [done.view a inList q' bound', if_neg]
      rintro ⟨rfl, rfl⟩
      exact other ⟨rfl, here⟩
    · refine done.frames _ ((held.tables.owned directory).not_heap aligned lower upper) ?_ k rfl
      have owned := held'.tables.owned table
      rw [← done.noted.start, ← done.noted.stop] at aligned
      exact owned.not_heap aligned (by rw [done.noted.start]; exact lower) (by rw [done.noted.stop]; exact upper)
  · exact .of_undisturbed held (none.undisturbed held.tables held.marked) none.noted (fun g isUsed => by rwa [none.pmm])
      fun k _ _ => by rw [none.mem]

theorem Act.acted (ready : Ready ps d m) (pages : ∀ m q ok, Q m q ok → P q) (act : Act d Q m m') : Acted ps d P m m' := by
  obtain ⟨held, member, aligned⟩ := id ready
  cases act with
  | page bound isThere user allocated mapped known =>
    rename_i m₁ q f flags ok
    obtain ⟨held₁, spare⟩ := held.alloc allocated
    have noted : Noted (dirs ps) m m₁ := Noted.allocPage allocated
    have taken : Acted ps d P m m₁ := by
      refine .of_undisturbed held (Undisturbed.alloc held.tables held.marked allocated) noted (fun g isUsed => ?_)
        fun k _ _ => ?_
      · obtain ⟨pmm, taken, rfl⟩ := allocPage_eq allocated
        exact pmmAllocPage_used taken isUsed
      · obtain ⟨pmm, _, rfl⟩ := allocPage_eq allocated
        rfl
    have aligned₁ : m₁.start % 4096 = 0 ∧ m₁.stop % 4096 = 0 := by rwa [noted.start, noted.stop]
    have cleared : Acted ps d P m₁ (m₁.clear f) :=
      .overwrite held₁ spare.loose aligned₁ fun g other => sameFrame_clear m₁ other
    have spare₁ : Spare (m₁.clear f) ps f := spare.undisturbed
      ((held₁.overwrite spare.loose fun g other => sameFrame_clear m₁ other).congr rfl rfl rfl rfl rfl)
    have small := held₁.tables.pmm.small
    have ram := spare.loose.ram
    have frame : 4096 * f / 4096 = f := by omega
    have done := (cleared.ready ⟨held₁, member, aligned₁⟩).pagingMapIn_acted bound user (by omega)
      (fun _ => by rw [frame]; exact spare₁) (pages _ _ _ known) mapped
    exact (taken.trans held.tables.pmm cleared).trans held.tables.pmm done
  | device bound isThere user low outside mapped known =>
    exact ready.pagingMapIn_acted bound user low (fun ram => absurd ram (by omega)) (pages _ _ _ known) mapped
  | read ram =>
    exact .of_undisturbed held ((Undisturbed.refl held.tables held.marked).congr rfl rfl rfl rfl rfl)
      (Noted.touch ram) (fun _ => id) fun _ _ _ => rfl
  | write page others =>
    exact .overwrite held (held.loose (u := .page d _) ⟨member, page⟩) aligned others

abbrev Acts (d : Nat) (Q : Machine → Nat → Bool → Prop) : Machine → Machine → Prop := Relation.ReflTransGen (Act d Q)

theorem Act.mono (act : Act d Q m m') (weaker : ∀ m q ok, Q m q ok → Q' m q ok) :
    Act d Q' m m' := by
  cases act with
  | page bound isThere user allocated mapped known =>
    exact .page bound isThere user allocated mapped (weaker _ _ _ known)
  | device bound isThere user low outside mapped known =>
    exact .device bound isThere user low outside mapped (weaker _ _ _ known)
  | read ram => exact .read ram
  | write page others => exact .write page others

theorem Acts.mono (acts : Acts d Q m m')
    (weaker : ∀ m q ok, Q m q ok → Q' m q ok) : Acts d Q' m m' :=
  Relation.ReflTransGen.mono (fun _ _ (act : Act d Q _ _) => act.mono weaker) m m' acts

theorem Acts.acted (ready : Ready ps d m) (pages : ∀ m q ok, Q m q ok → P q) (acts : Acts d Q m m') : Acted ps d P m m' := by
  induction acts with
  | refl => exact .refl ready.held
  | tail _ act ih => exact ih.trans ready.held.tables.pmm (act.acted (ih.ready ready) pages)

/-! ## Backing one page -/

/-- The directory has a table of its own at the place. -/
def HasOwn (m : Machine) (d i : Nat) : Prop := entry m.mem d i ≠ entry m.mem m.kernelDirectory i
  deriving Decidable

/-- Page `q` of the directory `d` got the frame `f`, with a table for it if there was none. -/
structure Backed (ps : List (Nat × Nat)) (m m' : Machine) (d q f : Nat) : Prop where
  page : UserPage m' d q f
  own : HasOwn m' d (q / 1024)
  entries : ∀ a ∈ m.kernelDirectory :: dirs ps, ∀ i < 1024, ¬ (a = d ∧ i = q / 1024) →
    entry m'.mem a i = entry m.mem a i
  table : (HasOwn m d (q / 1024) ∧ Took m.pmm m'.pmm [f] ∧
      pageFrame (entry m'.mem d (q / 1024)) = pageFrame (entry m.mem d (q / 1024))) ∨
    (¬ HasOwn m d (q / 1024) ∧ Took m.pmm m'.pmm [pageFrame (entry m'.mem d (q / 1024)), f])

/-- The frame was taken, but there was none left for the table. -/
structure Stranded (m m' : Machine) (d q f : Nat) : Prop where
  shared : ¬ HasOwn m d (q / 1024)
  took : Took m.pmm m'.pmm [f]
  exhausted : m'.pmm.freeCount = 0

/-- The machine `m'` is `m` with a fresh frame that has been cleared. -/
structure Cleared (ps : List (Nat × Nat)) (m m' : Machine) (f : Nat) : Prop where
  same : Undisturbed (dirs ps) m m'
  held : Held m' ps
  spare : Spare m' ps f
  taken : pmmAllocPage m.pmm = (some f, m'.pmm)
  address : 4096 * f < 4294967296 ∧ 4096 * f / 4096 = f

theorem Held.cleared (held : Held m ps) (allocated : allocPage m = (some f, m₁)) : Cleared ps m (m₁.clear f) f := by
  obtain ⟨held₁, spare⟩ := held.alloc allocated
  have cleared : Undisturbed (dirs ps) m₁ (m₁.clear f) :=
    (held₁.overwrite spare.loose fun g other => sameFrame_clear m₁ other).congr rfl rfl rfl rfl rfl
  obtain ⟨pmm, taken, isTaken⟩ := allocPage_eq allocated
  have small := held₁.tables.pmm.small
  have ram := spare.loose.ram
  refine ⟨(Undisturbed.alloc held.tables held.marked allocated).trans cleared, held₁.undisturbed cleared, spare.undisturbed cleared,
    ?_, by omega, by omega⟩
  rw [isTaken]
  exact taken

theorem Ready.page_cases (ready : Ready ps d m) (bound : q < 1048576) (flagged : ForUsers flags)
    (allocated : allocPage m = (some f, m₁))
    (mapped : pagingMapIn (m₁.clear f) d (4096 * q) (4096 * f) flags = (ok, m₂)) :
    (ok = true ∧ Backed ps m m₂ d q f) ∨ (ok = false ∧ Stranded m m₂ d q f) := by
  obtain ⟨same, held₁, spare, taken, low, frame⟩ := ready.held.cleared allocated
  have taken := (Took.refl m.pmm).alloc taken
  have own (i : Nat) (inner : i < 1024) : HasOwn (m₁.clear f) d i ↔ HasOwn m d i := by
    simp only [HasOwn]
    rw [same.kernel, same.entries d ready.listed i inner, same.entries _ mem_cons_self i inner]
  rcases held₁.pagingMapIn_cases ready.member bound flagged.user low mapped with ⟨rfl, done⟩ | ⟨rfl, none⟩
  · have entry := done.view d (mem_cons_of_mem _ ready.member) q bound
    rw [if_pos ⟨rfl, rfl⟩] at entry
    refine .inl ⟨rfl, ⟨bound, ?_, ?_, ?_, ?_⟩, done.own, fun a inList i inner other => ?_, ?_⟩
    · rw [entry, isPresent_pageEntry, flagged.isThere]
    · rw [entry, isUser_pageEntry, flagged.user]
    · rw [entry, pageFrame_pageEntry, frame]
    · rw [done.noted.total]
      exact spare.loose.ram
    · rw [done.entries a (by rw [same.kernel]; exact inList) i inner other, same.entries a inList i inner]
    · rcases done.table with ⟨samePmm, before, sameTable⟩ | ⟨shared, fresh⟩
      · rw [same.entries d ready.listed _ (by omega)] at sameTable
        refine .inl ⟨(own _ (by omega)).mp before, ?_, sameTable⟩
        rw [samePmm]
        exact taken
      · exact .inr ⟨fun before => (own _ (by omega)).mpr before shared, taken.alloc fresh⟩
  · refine .inr ⟨rfl, fun before => (own _ (by omega)).mpr before none.shared, ?_, ?_⟩
    · rw [none.pmm]
      exact taken
    · rw [none.pmm]
      exact pmmAllocPage_exhausted held₁.tables.pmm none.exhausted

/-! ## Backing a range of pages -/

/-- The `n` pages from `p` on. -/
def InRange (p n q : Nat) : Prop := p ≤ q ∧ q < p + n

/-- The frames that the pages of a range take: one for each page and one for each table that
is missing, at most the first of them being there. -/
def framesNeeded (m : Machine) (d p n : Nat) : Nat :=
  if n = 0 then 0 else n + ((p + n - 1) / 1024 - p / 1024) + if HasOwn m d (p / 1024) then 0 else 1

/-- There are frames for all pages and their tables. -/
def Roomy (m : Machine) (d p n : Nat) : Prop := framesNeeded m d p n ≤ m.pmm.freeCount
  deriving Decidable

/-- The tables of all pages are the process's own. -/
def Covered (m : Machine) (d p n : Nat) : Prop := ∀ q, InRange p n q → HasOwn m d (q / 1024)

/-- Frames for the pages and their tables, or all tables, are there. -/
def Backable (m : Machine) (d p n : Nat) : Prop := Roomy m d p n ∨ Covered m d p n

/-- What is known each time a page of the range is mapped: it has the entry from before, and if
frames or tables suffice, it is mapped. -/
def Known (m₀ : Machine) (d p n : Nat) (m : Machine) (q : Nat) (ok : Bool) : Prop :=
  InRange p n q ∧ pte m.mem d q = pte m₀.mem d q ∧ (Roomy m₀ d p n ∨ Covered m₀ d p n → ok = true)

theorem Backed.need (backed : Backed ps m m' d p f) (ok : m.pmm.Ok) (ok' : m'.pmm.Ok) :
    m.pmm.freeCount + framesNeeded m' d (p + 1) n ≤ m'.pmm.freeCount + framesNeeded m d p (n + 1) := by
  have here : framesNeeded m d p (n + 1) =
      n + 1 + ((p + n) / 1024 - p / 1024) + if HasOwn m d (p / 1024) then 0 else 1 := by
    simp only [framesNeeded, if_neg (Nat.succ_ne_zero n), show p + (n + 1) - 1 = p + n by omega]
  have later : framesNeeded m' d (p + 1) n ≤ n + ((p + n) / 1024 - p / 1024) := by
    rcases Nat.eq_zero_or_pos n with rfl | positive
    · simp [framesNeeded]
    · simp only [framesNeeded, if_neg (Nat.pos_iff_ne_zero.mp positive), show p + 1 + n - 1 = p + n by omega]
      by_cases sameTable : (p + 1) / 1024 = p / 1024
      · rw [sameTable, if_pos backed.own]
        omega
      · split <;> omega
  rw [here]
  rcases backed.table with ⟨own, took, _⟩ | ⟨shared, took⟩
  · have count := took.freeCount ok ok'
    rw [if_pos own]
    simp only [length_cons, length_nil] at count
    omega
  · have count := took.freeCount ok ok'
    rw [if_neg shared]
    simp only [length_cons, length_nil] at count
    omega

theorem Backed.hasOwn (backed : Backed ps m m' d q f) (kernel : m'.kernelDirectory = m.kernelDirectory)
    (notKernel : m.kernelDirectory ≠ d) (member : d ∈ dirs ps) (bound : i < 1024) (own : HasOwn m d i) :
    HasOwn m' d i := by
  by_cases here : i = q / 1024
  · rw [here]
    exact backed.own
  · simp only [HasOwn] at own ⊢
    rw [kernel, backed.entries d (mem_cons_of_mem _ member) i bound fun same => here same.2,
      backed.entries _ mem_cons_self i bound fun same => notKernel same.1]
    exact own

/-- With frames or tables for the range the first page is mapped, and they suffice for the rest. -/
theorem Ready.page_backed (ready : Ready ps d m) (bound : p + (n + 1) ≤ 1048576) (flagged : ForUsers flags)
    (allocated : allocPage m = (some f, m₁))
    (mapped : pagingMapIn (m₁.clear f) d (4096 * p) (4096 * f) flags = (ok, m₂)) (acted : Acted ps d P m m₂)
    (enough : Backable m d p (n + 1)) : ok = true ∧ Backed ps m m₂ d p f ∧ Backable m₂ d (p + 1) n := by
  have pmm := ready.held.tables.pmm
  have pmm₂ := acted.held.tables.pmm
  have first : InRange p (n + 1) p := ⟨Nat.le_refl p, by omega⟩
  rcases ready.page_cases (by omega) flagged allocated mapped with ⟨done, backed⟩ | ⟨_, stranded⟩
  · refine ⟨done, backed, ?_⟩
    rcases enough with roomy | covered
    · have need := backed.need (n := n) pmm pmm₂
      simp only [Roomy] at roomy
      exact .inl (show framesNeeded m₂ d (p + 1) n ≤ m₂.pmm.freeCount by omega)
    · refine .inr fun q inside => ?_
      obtain ⟨lower, upper⟩ := inside
      exact backed.hasOwn acted.kernel (ready.held.tables.kernel_ne ready.member) ready.member (by omega)
        (covered q ⟨by omega, by omega⟩)
  · rcases enough with roomy | covered
    · have count := stranded.took.freeCount pmm pmm₂
      rw [stranded.exhausted] at count
      simp only [Roomy, framesNeeded, if_neg (Nat.succ_ne_zero n), if_neg stranded.shared] at roomy
      simp only [length_cons, length_nil] at count
      omega
    · exact absurd (covered p first) stranded.shared

theorem Ready.mapFresh_acts (ready : Ready ps d m) (flagged : ForUsers flags) (bound : p + n ≤ 1048576) :
    Acts d (Known m d p n) m (mapFresh d flags m n (4096 * p)).2 ∧
      (Roomy m d p n → (mapFresh d flags m n (4096 * p)).1 = true ∧
        (∀ q, InRange p n q → ∃ f, UserPage (mapFresh d flags m n (4096 * p)).2 d q f) ∧
        m.pmm.freeCount ≤ (mapFresh d flags m n (4096 * p)).2.pmm.freeCount + framesNeeded m d p n) := by
  induction n generalizing m p with
  | zero =>
    refine ⟨.refl, fun _ => ⟨rfl, fun q inside => ?_, ?_⟩⟩
    · obtain ⟨lower, upper⟩ := inside
      omega
    · exact Nat.le_add_right _ _
  | succ n ih =>
    have first : InRange p (n + 1) p := ⟨Nat.le_refl p, by omega⟩
    simp only [mapFresh]
    cases allocated : allocPage m with
    | mk r m₁ =>
      cases r with
      | none =>
        have ok := ready.held.tables.pmm
        obtain rfl := allocPage_none ok allocated
        refine ⟨.refl, fun roomy => ?_⟩
        have needed : 0 < framesNeeded m₁ d p (n + 1) := by
          simp only [framesNeeded, if_neg (Nat.succ_ne_zero n)]
          omega
        have exhausted := pmmAllocPage_exhausted ok (congrArg Prod.fst allocated)
        rw [Roomy, exhausted] at roomy
        omega
      | some f =>
        cases mapped : pagingMapIn (m₁.clear f) d (4096 * p) (4096 * f) flags with
        | mk mappedOk m₂ =>
          simp only [mapped]
          have act : Act d (fun m' q ok' => m' = m ∧ q = p ∧ ok' = _) m m₂ :=
            .page (by omega) flagged.isThere flagged.user allocated mapped ⟨rfl, rfl, rfl⟩
          have acted : Acted ps d (fun q => q = p) m m₂ := act.acted ready fun _ _ _ known => known.2.1
          have ready₂ := acted.ready ready
          have backed := ready.page_backed bound flagged allocated mapped acted
          obtain ⟨acts, done⟩ := ih (p := p + 1) ready₂ (by omega)
          rw [show 4096 * (p + 1) = 4096 * p + 4096 by omega] at acts done
          refine ⟨.head (act.mono ?_) (acts.mono ?_), fun roomy => ?_⟩
          · rintro _ _ _ ⟨rfl, rfl, rfl⟩
            exact ⟨first, rfl, fun enough => (backed enough).1⟩
          · rintro m' q ok' ⟨⟨lower, upper⟩, same, mapped'⟩
            refine ⟨⟨by omega, by omega⟩, ?_, fun enough => mapped' (backed enough).2.2⟩
            rw [same, acted.view d ready.listed q (by omega) (by omega)]
          · obtain ⟨_, backed, _⟩ := backed (.inl roomy)
            have need := backed.need (n := n) ready.held.tables.pmm ready₂.held.tables.pmm
            have roomy₂ : Roomy m₂ d (p + 1) n := by
              simp only [Roomy] at roomy ⊢
              omega
            obtain ⟨mappedAll, pages, count⟩ := done roomy₂
            have later : Acted ps d (InRange (p + 1) n) m₂ _ := acts.acted ready₂ fun _ _ _ known => known.1
            refine ⟨mappedAll, fun q inside => ?_, by omega⟩
            obtain ⟨lower, upper⟩ := inside
            rcases Nat.eq_or_lt_of_le lower with rfl | behind
            · exact ⟨f, later.userPage ready.member backed.page fun ⟨again, _⟩ => by omega⟩
            · exact pages q ⟨behind, by omega⟩

/-! ## Writing user pages -/

theorem UserPage.physical {virt : Nat} (page : UserPage m d (virt / 4096) f) (low : virt < 4294967296) :
    pagingGetPhysicalIn m.mem d virt = 4096 * f + virt % 4096 := by
  rw [pagingGetPhysicalIn_eq _ _ low, if_pos page.isThere, page.frame]

theorem Ready.translateIn_acts (ready : Ready ps d m) (virt : Nat) : Acts d Q m (translateIn m d virt).2 := by
  have directory : NodeAt m.mem m.kernelDirectory (dirs ps) (.directory d) d := ⟨ready.member, rfl⟩
  have first : Act d Q m (m.touch d) := .read (ready.held.tables.owned directory).ram
  simp only [translateIn]
  split
  · next isThere =>
    obtain ⟨n, node, _⟩ := table_node (m := m) ready.listed (dirIndex_lt virt) isThere
    exact .head first (.single (.read (ready.held.tables.owned node).ram))
  · exact .single first

theorem translateIn_mem (m : Machine) (d virt : Nat) :
    (translateIn m d virt).2.mem = m.mem ∧ (translateIn m d virt).2.pmm = m.pmm := by
  simp only [translateIn]
  split <;> exact ⟨rfl, rfl⟩

/-- One chunk is written: the bytes go to the frame of the first page. -/
structure Stored (ps : List (Nat × Nat)) (source : Buf → Nat → Buf) (d : Nat) (m m' : Machine) (vaddr done chunk : Nat) : Prop where
  acts : Acts d (fun _ _ _ => False) m m'
  acted : Acted ps d (fun _ => False) m m'
  page : ∃ f, UserPage m d (vaddr / 4096) f ∧ (translateIn m d vaddr).1 = 4096 * f + vaddr % 4096 ∧
    m'.mem = splice m.mem (4096 * f + vaddr % 4096) chunk (source m.mem done)

theorem Ready.storeInProcess_step (source : Buf → Nat → Buf) (done chunk : Nat) (ready : Ready ps d m)
    (low : vaddr < 4294967296) (inPage : vaddr % 4096 + chunk ≤ 4096) (page : UserPage m d (vaddr / 4096) f) :
    Stored ps source d m
      (writeChunk (translateIn m d vaddr).2 (translateIn m d vaddr).1 chunk (source (translateIn m d vaddr).2.mem done))
      vaddr done chunk := by
  have physical : (translateIn m d vaddr).1 = 4096 * f + vaddr % 4096 := page.physical low
  have reads := ready.translateIn_acts (Q := fun _ _ _ => False) vaddr
  obtain ⟨sameMem, samePmm⟩ := translateIn_mem m d vaddr
  have page₁ : UserPage (translateIn m d vaddr).2 d (vaddr / 4096) f := by
    obtain ⟨bound, isThere, user, frame, ram⟩ := page
    rw [← sameMem] at isThere user frame
    exact ⟨bound, isThere, user, frame, by rwa [samePmm]⟩
  have inFrame : (translateIn m d vaddr).1 / 4096 = f := by omega
  have write : Act d (fun _ _ _ => False) (translateIn m d vaddr).2
      (writeChunk (translateIn m d vaddr).2 (translateIn m d vaddr).1 chunk (source (translateIn m d vaddr).2.mem done)) := by
    simp only [writeChunk, inFrame]
    exact .write page₁ fun g other x inside => splice_outside (by omega)
  have acts : Acts d (fun _ _ _ => False) m _ := reads.tail write
  refine ⟨acts, acts.acted ready fun _ _ _ => id, f, page, physical, ?_⟩
  rw [writeChunk, physical, sameMem]

theorem Ready.storeInProcess_acts (source : Buf → Nat → Buf) {fuel done size : Nat} (ready : Ready ps d m)
    (enough : size < fuel) (low : vaddr < 4294967296) (range : vaddr + size ≤ 4294967296)
    (pages : ∀ q, vaddr / 4096 ≤ q → 4096 * q < vaddr + size → ∃ f, UserPage m d q f) :
    ∃ m', storeInProcess source d fuel m vaddr done size = some m' ∧ Acts d (fun _ _ _ => False) m m' := by
  induction fuel generalizing m vaddr done size with
  | zero => omega
  | succ fuel ih =>
    simp only [storeInProcess]
    rcases Nat.eq_zero_or_pos size with rfl | positive
    · exact ⟨m, rfl, .refl⟩
    · rw [if_neg (Nat.pos_iff_ne_zero.mp positive)]
      obtain ⟨f, page⟩ := pages (vaddr / 4096) (Nat.le_refl _) (by omega)
      obtain ⟨chunk, isChunk⟩ : ∃ chunk, min (4096 - vaddr % 4096) size = chunk := ⟨_, rfl⟩
      have stored := ready.storeInProcess_step source done chunk low (by omega) page
      rw [isChunk]
      generalize writeChunk (translateIn m d vaddr).2 _ chunk _ = m₁ at stored ⊢
      obtain ⟨m', ran, later⟩ : ∃ m', storeInProcess source d fuel m₁ ((vaddr + chunk) % 4294967296) (done + chunk) (size - chunk) = some m' ∧
          Acts d (fun _ _ _ => False) m₁ m' :=
        ih (stored.acted.ready ready) (by omega) (by omega) (by omega) fun q lower upper => by
          obtain ⟨g, old⟩ := pages q (by omega) (by omega)
          exact ⟨g, stored.acted.userPage ready.member old id⟩
      exact ⟨m', ran, stored.acts.trans later⟩

end GinnOS.Memory
