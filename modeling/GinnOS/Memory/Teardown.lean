import GinnOS.Memory.Ownership

/-! # Destroying a process

`paging_free_directory` finds the frames of a process through its page tables.  For a process
whose uses are held apart these are its tables and the frames of its user pages, each once
(`processFrames`), so every call of `pmm_free_page` is of a used page, and what other processes
own is left alone (`Held.destroy`).
-/

namespace GinnOS.Memory

open Lib Lib.Buf List

variable {total : Nat} {mem : Buf} {frames : List Nat} {o : Owner}

variable {m m' : Machine} {ps : List (Nat × Nat)} {ds : List Nat} {d f i j n p t stack : Nat}

/-! ## The frames in the order of the loops -/

/-- The frame that the entry makes the loop over a table free. -/
def freedFrame (total entry : Nat) : Option Nat :=
  if isPresent entry && isUser entry && (pageFrame entry ≠ 0 && pageFrame entry < total) then some (pageFrame entry)
  else none

/-- The frames of the entries `js` of a table. -/
def pageFrames (mem : Buf) (total t : Nat) (js : List Nat) : List Nat :=
  js.filterMap fun j => freedFrame total (entry mem t j)

/-- The directory entries that the teardown follows. -/
def isOwnEntry (entry : Nat) : Bool := isPresent entry && isUser entry

/-- The frames that a directory entry stands for: the pages of its table, and the table. -/
def entryFrames (mem : Buf) (total entry : Nat) : List Nat :=
  if isOwnEntry entry then
    pageFrames mem total (pageFrame entry) (List.range' 0 1024) ++ [pageFrame entry]
  else []

/-- The frames of the entries `is` of a directory. -/
def tableFrames (mem : Buf) (total d : Nat) (is : List Nat) : List Nat :=
  is.flatMap fun i => entryFrames mem total (entry mem d i)

/-- All frames of a process, in the order in which `process_destroy` frees them. -/
def processFrames (m : Machine) (stack d : Nat) : List Nat :=
  stack :: (tableFrames m.mem m.pmm.totalPages d (List.range' 0 1024) ++ [d])

theorem freedFrame_some {e : Nat} : freedFrame total e = some f ↔
    isPresent e = true ∧ isUser e = true ∧ f = pageFrame e ∧ f ≠ 0 ∧ f < total := by
  simp only [freedFrame]
  split
  · next both =>
    simp only [Bool.and_eq_true, decide_eq_true_eq, ne_eq] at both
    constructor
    · rintro ⟨⟩
      exact ⟨both.1.1, both.1.2, rfl, both.2.1, both.2.2⟩
    · rintro ⟨_, _, rfl, _⟩
      rfl
  · next missing =>
    simp only [Bool.and_eq_true, decide_eq_true_eq, ne_eq] at missing
    constructor
    · nofun
    · rintro ⟨isThere, user, rfl, real, ram⟩
      exact absurd ⟨⟨isThere, user⟩, real, ram⟩ missing

theorem mem_pageFrames {js : List Nat} :
    f ∈ pageFrames mem total t js ↔ ∃ j ∈ js, freedFrame total (entry mem t j) = some f := by
  simp only [pageFrames, mem_filterMap]

/-! ## The loops -/

/-- Frames were freed and accesses noted; nothing else changed. -/
structure Freed (ds : List Nat) (m m' : Machine) (frames : List Nat) : Prop where
  rest : m' = { m with pmm := m'.pmm, log := m'.log }
  took : Took m'.pmm m.pmm frames
  noted : Noted ds m m'

theorem Freed.trans {m'' : Machine} {more : List Nat} (ok : m.pmm.Ok) (first : Freed ds m m' frames)
    (second : Freed ds m' m'' more) : Freed ds m m'' (frames ++ more) := by
  have mem : m'.mem = m.mem := by rw [first.rest]
  refine ⟨?_, second.took.append first.took, first.noted.trans ok (fun a _ p _ => by rw [mem]) second.noted⟩
  rw [second.rest, first.rest]

theorem Freed.touch (ram : f < m.pmm.totalPages) : Freed ds m (m.touch f) [] :=
  ⟨rfl, Took.refl _, Noted.touch ram⟩

variable (ds) in
/-- One call of `pmm_free_page`. -/
theorem Freed.one (used : m.pmm.free f = false) (ram : f < m.pmm.totalPages) :
    pmmFreePage m.pmm (4096 * f) = some (m.pmm.markFree f) ∧ Freed ds m { m with pmm := m.pmm.markFree f } [f] := by
  obtain ⟨freed, took⟩ := Took.of_free used ram
  exact ⟨freed, rfl, took, ⟨rfl, rfl, rfl, rfl, rfl, rfl, fun note member => .inl member⟩⟩

theorem freeFrames_succ (t : Nat) (m : Machine) (n j : Nat) : freeFrames t m (n + 1) j =
    match freedFrame m.pmm.totalPages (entry m.mem t j) with
    | none => freeFrames t (m.touch t) n (j + 1)
    | some f =>
      match pmmFreePage m.pmm (4096 * f) with
      | none => none
      | some pmm => freeFrames t { m.touch t with pmm := pmm } n (j + 1) := by
  by_cases both : (isPresent (entry m.mem t j) && isUser (entry m.mem t j) &&
      (pageFrame (entry m.mem t j) ≠ 0 && pageFrame (entry m.mem t j) < m.pmm.totalPages)) = true
  · have here : freedFrame m.pmm.totalPages (entry m.mem t j) = some (pageFrame (entry m.mem t j)) := if_pos both
    rw [here]
    exact if_pos both
  · have here : freedFrame m.pmm.totalPages (entry m.mem t j) = none := if_neg both
    rw [here]
    exact if_neg both

variable (ds) in
theorem freeFrames_freed (ok : m.pmm.Ok) (table : t < m.pmm.totalPages)
    (nodup : (pageFrames m.mem m.pmm.totalPages t (range' j n)).Nodup)
    (used : ∀ f ∈ pageFrames m.mem m.pmm.totalPages t (range' j n), m.pmm.free f = false) :
    ∃ m', freeFrames t m n j = some m' ∧
      Freed ds m m' (pageFrames m.mem m.pmm.totalPages t (range' j n)) := by
  induction n generalizing m j with
  | zero => exact ⟨m, rfl, rfl, Took.refl _, Noted.refl ds m⟩
  | succ n ih =>
    have touched : Freed ds m (m.touch t) [] := Freed.touch table
    rw [freeFrames_succ]
    simp only [range'_succ] at nodup used ⊢
    cases here : freedFrame m.pmm.totalPages (entry m.mem t j) with
    | none =>
      have same : pageFrames m.mem m.pmm.totalPages t (j :: range' (j + 1) n) =
          pageFrames m.mem m.pmm.totalPages t (range' (j + 1) n) := filterMap_cons_none here
      rw [same] at nodup used ⊢
      obtain ⟨m', ran, freed⟩ := ih (m := m.touch t) ok table nodup used
      exact ⟨m', ran, touched.trans ok freed⟩
    | some f =>
      have same : pageFrames m.mem m.pmm.totalPages t (j :: range' (j + 1) n) =
          f :: pageFrames m.mem m.pmm.totalPages t (range' (j + 1) n) := filterMap_cons_some here
      rw [same] at nodup used ⊢
      obtain ⟨_, _, _, real, ram⟩ := freedFrame_some.mp here
      obtain ⟨notLater, nodup⟩ := nodup_cons.mp nodup
      have usedHere : (m.touch t).pmm.free f = false := used f mem_cons_self
      obtain ⟨freed, one⟩ := Freed.one ds usedHere ram
      have later (g : Nat) (member : g ∈ pageFrames m.mem m.pmm.totalPages t (range' (j + 1) n)) :
          (m.pmm.markFree f).free g = false := by
        have other : g ≠ f := fun same => notLater (same ▸ member)
        simpa [Pmm.markFree, other] using used g (mem_cons_of_mem f member)
      obtain ⟨m', ran, rest⟩ := ih (m := { m.touch t with pmm := m.pmm.markFree f }) (ok.markFree ram real) table nodup later
      simp only [show pmmFreePage m.pmm (4096 * f) = some (m.pmm.markFree f) from freed]
      exact ⟨m', ran, (touched.trans ok one).trans ok rest⟩

theorem Freed.ok (freed : Freed ds m m' frames) (ok : m.pmm.Ok)
    (real : ∀ f ∈ frames, f ≠ 0 ∧ f < m.pmm.totalPages) : m'.pmm.Ok := by
  have free (f : Nat) := freed.took.free f
  refine ⟨?_, fun {f} isFree => ?_, ?_⟩
  · have null := free 0
    rw [ok.null] at null
    by_cases member : 0 ∈ frames
    · exact absurd rfl (real 0 member).1
    · simpa [member] using null.symm
  · rw [← freed.took.total]
    by_cases member : f ∈ frames
    · exact (real f member).2
    · refine ok.inside ?_
      rw [free f, isFree]
      simp [member]
  · rw [← freed.took.total]
    exact ok.small

theorem freeTables_succ (d : Nat) (m : Machine) (n i : Nat) : freeTables d m (n + 1) i =
    if isOwnEntry (entry m.mem d i) then
      match freeFrames (pageFrame (entry m.mem d i)) (m.touch d) 1024 0 with
      | none => none
      | some m₁ =>
        match pmmFreePage m₁.pmm (4096 * pageFrame (entry m.mem d i)) with
        | none => none
        | some pmm => freeTables d { m₁ with pmm := pmm } n (i + 1)
    else freeTables d (m.touch d) n (i + 1) := rfl

theorem tableFrames_cons (mem : Buf) (total d i : Nat) (is : List Nat) :
    tableFrames mem total d (i :: is) = entryFrames mem total (entry mem d i) ++ tableFrames mem total d is := rfl

/-- Frames that are used stay so while others are freed. -/
theorem Freed.still_used (freed : Freed ds m m' frames) (used : m.pmm.free f = false)
    (other : f ∉ frames) : m'.pmm.free f = false := by
  have free := freed.took.free f
  rw [used] at free
  simpa [other] using free.symm

variable (ds) in
theorem freeTables_freed (ok : m.pmm.Ok) (directory : d < m.pmm.totalPages)
    (tables : ∀ k ∈ range' i n, isOwnEntry (entry m.mem d k) = true →
      pageFrame (entry m.mem d k) ≠ 0 ∧ pageFrame (entry m.mem d k) < m.pmm.totalPages)
    (nodup : (tableFrames m.mem m.pmm.totalPages d (range' i n)).Nodup)
    (used : ∀ f ∈ tableFrames m.mem m.pmm.totalPages d (range' i n), m.pmm.free f = false) :
    ∃ m', freeTables d m n i = some m' ∧
      Freed ds m m' (tableFrames m.mem m.pmm.totalPages d (range' i n)) := by
  induction n generalizing m i with
  | zero => exact ⟨m, rfl, rfl, Took.refl _, Noted.refl ds m⟩
  | succ n ih =>
    have touched : Freed ds m (m.touch d) [] := Freed.touch directory
    rw [freeTables_succ]
    simp only [range'_succ, tableFrames_cons] at tables nodup used ⊢
    obtain ⟨nodupHere, nodupLater, apart⟩ := nodup_append.mp nodup
    by_cases own : isOwnEntry (entry m.mem d i) = true
    · have frames : entryFrames m.mem m.pmm.totalPages (entry m.mem d i) =
          pageFrames m.mem m.pmm.totalPages (pageFrame (entry m.mem d i)) (range' 0 1024) ++
            [pageFrame (entry m.mem d i)] := if_pos own
      rw [if_pos own]
      rw [frames] at nodupHere used apart ⊢
      obtain ⟨real, ram⟩ := tables i mem_cons_self own
      obtain ⟨nodupPages, _, notPage⟩ := nodup_append.mp nodupHere
      obtain ⟨m₁, ranPages, freedPages⟩ := freeFrames_freed ds (m := m.touch d) (j := 0) (n := 1024) ok ram
        nodupPages fun f member => used f (mem_append_left _ (mem_append_left _ member))
      have mem : m₁.mem = m.mem := by rw [freedPages.rest]; rfl
      have total : m₁.pmm.totalPages = m.pmm.totalPages := freedPages.took.total.symm
      have realPages (f : Nat) (member : f ∈ pageFrames (m.touch d).mem (m.touch d).pmm.totalPages
          (pageFrame (entry m.mem d i)) (range' 0 1024)) : f ≠ 0 ∧ f < (m.touch d).pmm.totalPages := by
        obtain ⟨_, _, here⟩ := mem_pageFrames.mp member
        obtain ⟨_, _, _, real, ram⟩ := freedFrame_some.mp here
        exact ⟨real, ram⟩
      have ok₁ := freedPages.ok ok realPages
      have tableUsed : m₁.pmm.free (pageFrame (entry m.mem d i)) = false := by
        refine freedPages.still_used (used _ (mem_append_left _ (mem_append_right _ mem_cons_self))) ?_
        exact fun member => notPage _ member _ mem_cons_self rfl
      obtain ⟨freed, one⟩ := Freed.one ds tableUsed (by rw [total]; exact ram)
      have both := (touched.trans ok freedPages).trans ok one
      have later (f : Nat) (member : f ∈ tableFrames m.mem m.pmm.totalPages d (range' (i + 1) n)) :
          (m₁.pmm.markFree (pageFrame (entry m.mem d i))).free f = false :=
        both.still_used (used f (mem_append_right _ member)) fun earlier => apart f earlier f member rfl
      simp only [ranPages, freed]
      have same : tableFrames m₁.mem m₁.pmm.totalPages d (range' (i + 1) n) =
          tableFrames m.mem m.pmm.totalPages d (range' (i + 1) n) := by rw [mem, total]
      obtain ⟨m', ran, rest⟩ := ih (m := { m₁ with pmm := m₁.pmm.markFree (pageFrame (entry m.mem d i)) }) (i := i + 1)
        (ok₁.markFree (by rw [total]; exact ram) real) (by simpa [total] using directory)
        (by simpa [mem, total] using fun k member => tables k (mem_cons_of_mem _ member))
        (by rw [← same] at nodupLater; exact nodupLater) (by rw [← same] at later; exact later)
      have done := both.trans ok rest
      simp only [Pmm.markFree_totalPages, same] at done
      exact ⟨m', ran, done⟩
    · have frames : entryFrames m.mem m.pmm.totalPages (entry m.mem d i) = [] := if_neg own
      rw [if_neg own]
      rw [frames] at used ⊢
      obtain ⟨m', ran, freed⟩ := ih (m := m.touch d) ok directory
        (fun k member => tables k (mem_cons_of_mem _ member)) nodupLater used
      exact ⟨m', ran, touched.trans ok freed⟩

/-! ## Each frame once -/

/-- What a frame can be owned as. -/
inductive Owner where
  | node (n : Node)
  | use (u : Use)

def OwnerAt (m : Machine) (ps : List (Nat × Nat)) : Owner → Nat → Prop
  | .node n, f => NodeAt m.mem m.kernelDirectory (dirs ps) n f
  | .use u, f => UseAt m ps u f

theorem Held.owner_eq (held : Held m ps) {o' : Owner} (one : OwnerAt m ps o f) (other : OwnerAt m ps o' f) :
    o = o' := by
  cases o with
  | node n =>
    cases o' with
    | node n' => rw [held.tables.apart one other]
    | use u' => exact absurd one ((held.loose other).noNode n)
  | use u =>
    cases o' with
    | node n' => exact absurd other ((held.loose one).noNode n')
    | use u' => rw [held.apart one other]

theorem Held.owned (held : Held m ps) (at_ : OwnerAt m ps o f) : Owned m f := by
  cases o with
  | node n => exact held.tables.owned at_
  | use u => exact (held.loose at_).toOwned

theorem Held.isOwnEntry_iff (held : Held m ps) (member : d ∈ dirs ps) (bound : i < 1024) :
    isOwnEntry (entry m.mem d i) = true ↔ entry m.mem d i ≠ entry m.mem m.kernelDirectory i := by
  constructor
  · intro own same
    rw [same] at own
    simp [isOwnEntry, held.tables.supervisor i bound] at own
  · intro own
    simp [isOwnEntry, held.tables.present d member i bound own, held.marked d member i bound own]

theorem pte_own (isThere : isPresent (entry mem d i) = true) (inner : j < 1024) :
    pte mem d (1024 * i + j) = entry mem (pageFrame (entry mem d i)) j := by
  simp only [pte, show (1024 * i + j) / 1024 = i by omega, show (1024 * i + j) % 1024 = j by omega, if_pos isThere]

theorem Held.page_of_freed (held : Held m ps) (member : d ∈ dirs ps) (bound : i < 1024) (inner : j < 1024)
    (own : isOwnEntry (entry m.mem d i) = true)
    (freed : freedFrame m.pmm.totalPages (entry m.mem (pageFrame (entry m.mem d i)) j) = some f) :
    OwnerAt m ps (.use (.page d (1024 * i + j))) f := by
  obtain ⟨isThere, user, frame, _, ram⟩ := freedFrame_some.mp freed
  have tableThere := held.tables.present d member i bound ((held.isOwnEntry_iff member bound).mp own)
  rw [← pte_own tableThere inner] at isThere user frame
  exact ⟨member, by omega, isThere, user, frame, ram⟩

theorem mem_range_lt {k n : Nat} (member : k ∈ range' 0 n) : k < n := by
  have := mem_range'_1.mp member
  omega

section

variable (held : Held m ps) (member : d ∈ dirs ps)

include held member

theorem Held.entryFrames_owner (bound : i < 1024)
    (freed : f ∈ entryFrames m.mem m.pmm.totalPages (entry m.mem d i)) :
    OwnerAt m ps (.node (.table d i)) f ∨ ∃ j < 1024, OwnerAt m ps (.use (.page d (1024 * i + j))) f := by
  by_cases own : isOwnEntry (entry m.mem d i) = true
  · rw [entryFrames, if_pos own] at freed
    rcases mem_append.mp freed with page | table
    · obtain ⟨j, inner, here⟩ := mem_pageFrames.mp page
      have inner := mem_range_lt inner
      exact .inr ⟨j, inner, held.page_of_freed member bound inner own here⟩
    · exact .inl ⟨member, bound, (held.isOwnEntry_iff member bound).mp own, mem_singleton.mp table⟩
  · rw [entryFrames, if_neg own] at freed
    cases freed

theorem Held.entryFrames_nodup (bound : i < 1024) :
    (entryFrames m.mem m.pmm.totalPages (entry m.mem d i)).Nodup := by
  by_cases own : isOwnEntry (entry m.mem d i) = true
  · rw [entryFrames, if_pos own]
    refine nodup_append.mpr ⟨?_, nodup_singleton _, fun f page g table same => ?_⟩
    · refine pairwise_filterMap.mpr (Pairwise.imp_of_mem ?_ nodup_range')
      rintro j j' inner inner' apart f here g there same
      subst same
      have first := held.page_of_freed member bound (mem_range_lt inner) own here
      have second := held.page_of_freed member bound (mem_range_lt inner') own there
      have label := held.owner_eq first second
      injection label with label
      injection label with _ label
      omega
    · obtain ⟨j, inner, here⟩ := mem_pageFrames.mp page
      have inner := mem_range_lt inner
      have asPage := held.page_of_freed member bound inner own here
      have asTable : OwnerAt m ps (.node (.table d i)) f :=
        ⟨member, bound, (held.isOwnEntry_iff member bound).mp own, same.trans (mem_singleton.mp table)⟩
      cases held.owner_eq asPage asTable
  · rw [entryFrames, if_neg own]
    exact nodup_nil

theorem Held.tableFrames_nodup :
    (tableFrames m.mem m.pmm.totalPages d (range' 0 1024)).Nodup := by
  refine nodup_flatMap.mpr ⟨fun i inner => held.entryFrames_nodup member (mem_range_lt inner),
    Pairwise.imp_of_mem ?_ nodup_range'⟩
  intro i i' inner inner' apart
  refine disjoint_left.mpr fun f here there => apart ?_
  rcases held.entryFrames_owner member (mem_range_lt inner) here with table | ⟨j, _, page⟩ <;>
    rcases held.entryFrames_owner member (mem_range_lt inner') there with table' | ⟨j', _, page'⟩
  · cases held.owner_eq table table'
    rfl
  · cases held.owner_eq table page'
  · cases held.owner_eq page table'
  · have same := held.owner_eq page page'
    injection same with same
    injection same with _ same
    omega

theorem Held.mem_tableFrames (freed : f ∈ tableFrames m.mem m.pmm.totalPages d (range' 0 1024)) :
    (∃ i < 1024, OwnerAt m ps (.node (.table d i)) f) ∨ ∃ p, OwnerAt m ps (.use (.page d p)) f := by
  obtain ⟨i, inner, here⟩ := mem_flatMap.mp freed
  rcases held.entryFrames_owner member (mem_range_lt inner) here with table | ⟨j, _, page⟩
  · exact .inl ⟨i, mem_range_lt inner, table⟩
  · exact .inr ⟨_, page⟩

end

/-- The owners of the frames of the process with the directory `d`. -/
def Owner.of (d : Nat) : Owner → Prop
  | .node (.directory d') => d' = d
  | .node (.table d' _) => d' = d
  | .use (.stack d') => d' = d
  | .use (.page d' _) => d' = d
  | _ => False

theorem Held.processFrames_owner (held : Held m ps) (member : (stack, d) ∈ ps) (freed : f ∈ processFrames m stack d) :
    ∃ o : Owner, o.of d ∧ OwnerAt m ps o f := by
  have inDirs : d ∈ dirs ps := mem_map_of_mem member
  rcases mem_cons.mp freed with rfl | later
  · exact ⟨.use (.stack d), rfl, member⟩
  · rcases mem_append.mp later with table | directory
    · rcases held.mem_tableFrames inDirs table with ⟨i, _, node⟩ | ⟨p, page⟩
      · exact ⟨.node (.table d i), rfl, node⟩
      · exact ⟨.use (.page d p), rfl, page⟩
    · exact ⟨.node (.directory d), rfl, inDirs, mem_singleton.mp directory⟩

theorem Held.processFrames_nodup (held : Held m ps) (member : (stack, d) ∈ ps) : (processFrames m stack d).Nodup := by
  have inDirs : d ∈ dirs ps := mem_map_of_mem member
  have asStack : OwnerAt m ps (.use (.stack d)) stack := member
  have asDirectory : OwnerAt m ps (.node (.directory d)) d := ⟨inDirs, rfl⟩
  refine nodup_cons.mpr ⟨fun again => ?_, nodup_append.mpr
    ⟨held.tableFrames_nodup inDirs, nodup_singleton d, fun f table g directory same => ?_⟩⟩
  · rcases mem_append.mp again with table | directory
    · rcases held.mem_tableFrames inDirs table with ⟨i, _, node⟩ | ⟨p, page⟩
      · cases held.owner_eq asStack node
      · cases held.owner_eq asStack page
    · rw [mem_singleton.mp directory] at asStack
      cases held.owner_eq asStack asDirectory
  · have same : f = d := same.trans (mem_singleton.mp directory)
    subst same
    rcases held.mem_tableFrames inDirs table with ⟨i, _, node⟩ | ⟨p, page⟩
    · cases held.owner_eq asDirectory node
    · cases held.owner_eq asDirectory page

/-- `process_destroy` frees the frames of the process, and no call of `pmm_free_page` panics. -/
theorem Held.processDestroy_freed (held : Held m ps) {proc : Process}
    (member : (proc.kernelStack, proc.pageDirectory) ∈ ps) :
    ∃ m', processDestroy m proc = some m' ∧
      Freed (dirs ps) m m' (processFrames m proc.kernelStack proc.pageDirectory) := by
  obtain ⟨stack, d, _, _, _, _⟩ := proc
  have inDirs : d ∈ dirs ps := mem_map_of_mem member
  have nodup := held.processFrames_nodup member
  have owned (f : Nat) (freed : f ∈ processFrames m stack d) : Owned m f := by
    obtain ⟨o, _, at_⟩ := held.processFrames_owner member freed
    exact held.owned at_
  have ok := held.tables.pmm
  have stackOwned := owned stack mem_cons_self
  have directoryOwned : Owned m d := held.tables.owned (n := .directory d) ⟨inDirs, rfl⟩
  obtain ⟨notLater, nodupLater⟩ := nodup_cons.mp nodup
  obtain ⟨nodupTables, _, notTable⟩ := nodup_append.mp nodupLater
  obtain ⟨freedStack, one⟩ := Freed.one (dirs ps) stackOwned.used stackOwned.ram
  have ok₁ := one.ok ok fun f freed => by
    rw [mem_singleton.mp freed]
    exact ⟨stackOwned.real, stackOwned.ram⟩
  obtain ⟨m₂, ranTables, freedTables⟩ := freeTables_freed (dirs ps) (i := 0) (n := 1024) (d := d)
    (m := { m with pmm := m.pmm.markFree stack }) ok₁ directoryOwned.ram
    (fun i inner own => by
      have node : NodeAt m.mem m.kernelDirectory (dirs ps) (.table d i) (pageFrame (entry m.mem d i)) :=
        ⟨inDirs, mem_range_lt inner, (held.isOwnEntry_iff inDirs (mem_range_lt inner)).mp own, rfl⟩
      exact ⟨(held.tables.owned node).real, (held.tables.owned node).ram⟩)
    nodupTables
    (fun f freed => one.still_used (owned f (mem_cons_of_mem _ (mem_append_left _ freed))).used
      fun isStack => notLater (mem_append_left _ (mem_singleton.mp isStack ▸ freed)))
  have both := one.trans ok freedTables
  have directoryUsed : m₂.pmm.free d = false := by
    refine both.still_used directoryOwned.used fun earlier => ?_
    rcases mem_append.mp earlier with isStack | table
    · exact notLater (mem_append_right _ (mem_singleton.mpr (mem_singleton.mp isStack).symm))
    · exact notTable d table d (mem_singleton_self d) rfl
  have total : m₂.pmm.totalPages = m.pmm.totalPages := both.took.total.symm
  obtain ⟨freedDirectory, last⟩ := Freed.one (dirs ps) directoryUsed (by rw [total]; exact directoryOwned.ram)
  have someDirectory : ¬ (d = 0 ∨ d = m.kernelDirectory) := fun either =>
    either.elim directoryOwned.real (held.tables.kernel_ne inDirs).symm
  refine ⟨{ m₂ with pmm := m₂.pmm.markFree d }, ?_, ?_⟩
  · simp only [processDestroy, if_neg stackOwned.real, freedStack, pagingFreeDirectory, if_neg someDirectory, ranTables,
      freedDirectory]
  · have done := both.trans ok last
    simpa [processFrames] using done

theorem OwnerAt.weaken {x : Nat × Nat} (at_ : OwnerAt m ps o f) : OwnerAt m (x :: ps) o f := by
  rcases o with n | u
  · cases n with
    | kernel => exact at_
    | kernelTable i => exact at_
    | directory d => exact ⟨mem_cons_of_mem _ at_.1, at_.2⟩
    | table d i => exact ⟨mem_cons_of_mem _ at_.1, at_.2⟩
  · cases u with
    | stack d => exact mem_cons_of_mem _ at_
    | page d p => exact ⟨mem_cons_of_mem _ at_.1, at_.2⟩

theorem OwnerAt.mem_dirs (at_ : OwnerAt m ps o f) (of : o.of d) : d ∈ dirs ps := by
  rcases o with n | u
  · cases n with
    | kernel => cases of
    | kernelTable i => cases of
    | directory d' => exact (show d' = d from of) ▸ at_.1
    | table d' i => exact (show d' = d from of) ▸ at_.1
  · cases u with
    | stack d' => exact (show d' = d from of) ▸ mem_map_of_mem at_
    | page d' p => exact (show d' = d from of) ▸ at_.1

theorem Held.destroyed (held : Held m ((stack, d) :: ps))
    (freed : Freed (dirs ((stack, d) :: ps)) m m' (processFrames m stack d)) : Held m' ps := by
  have mem : m'.mem = m.mem := by rw [freed.rest]
  have kernel : m'.kernelDirectory = m.kernelDirectory := freed.noted.kernel
  have total := freed.noted.total
  obtain ⟨notOld, nodup⟩ := nodup_cons.mp held.nodup
  have member : (stack, d) ∈ (stack, d) :: ps := mem_cons_self
  -- what belongs to the others was not freed
  have kept {o : Owner} {f : Nat} (at_ : OwnerAt m ps o f) : f ∉ processFrames m stack d := fun gone => by
    obtain ⟨o', of, at'⟩ := held.processFrames_owner member gone
    rw [held.owner_eq at' at_.weaken] at of
    exact notOld (at_.mem_dirs of)
  have owned {o : Owner} {f : Nat} (at_ : OwnerAt m ps o f) : Owned m' f := by
    obtain ⟨used, ram, outside, real⟩ := held.owned at_.weaken
    refine ⟨freed.still_used used (kept at_), ?_, ?_, real⟩
    · rw [total]
      exact ram
    · rw [freed.noted.start, freed.noted.stop]
      exact outside
  have nodes {n : Node} {f : Nat} (node : NodeAt m'.mem m'.kernelDirectory (dirs ps) n f) :
      OwnerAt m ps (.node n) f := by
    rw [mem, kernel] at node
    exact node
  have uses {u : Use} {f : Nat} (use : UseAt m' ps u f) : OwnerAt m ps (.use u) f := by
    cases u with
    | stack d' => exact use
    | page d' p =>
      obtain ⟨member', bound, isThere, user, frame, ram⟩ := use
      rw [mem] at isThere user frame
      exact ⟨member', bound, isThere, user, frame, by rw [← total]; exact ram⟩
  have ownedFrames (f : Nat) (gone : f ∈ processFrames m stack d) : Owned m f := by
    obtain ⟨o, _, at_⟩ := held.processFrames_owner member gone
    exact held.owned at_
  refine ⟨⟨?_, fun page lower upper => ?_, fun one other => ?_, fun node => owned (nodes node), fun i bound => ?_,
    fun d' member' i bound own => ?_⟩, fun d' member' i bound own => ?_, fun p bound => ?_, nodup, fun use => ?_,
    fun one other => ?_⟩
  · exact freed.ok held.tables.pmm fun f gone => ⟨(ownedFrames f gone).real, (ownedFrames f gone).ram⟩
  · rw [freed.noted.start] at lower
    rw [freed.noted.stop] at upper
    exact freed.still_used (held.tables.heap page lower upper) fun gone => (ownedFrames page gone).outside ⟨lower, upper⟩
  · have same := held.owner_eq (nodes one).weaken (nodes other).weaken
    injection same
  · rw [mem, kernel]
    exact held.tables.supervisor i bound
  · rw [mem, kernel] at own
    rw [mem]
    exact held.tables.present d' (mem_cons_of_mem _ member') i bound own
  · rw [mem, kernel] at own
    rw [mem]
    exact held.marked d' (mem_cons_of_mem _ member') i bound own
  · rw [mem, kernel]
    exact held.supervisor p bound
  · refine ⟨owned (uses use), fun n node => ?_⟩
    cases held.owner_eq (uses use).weaken (nodes node).weaken
  · have same := held.owner_eq (uses one).weaken (uses other).weaken
    injection same

end GinnOS.Memory
