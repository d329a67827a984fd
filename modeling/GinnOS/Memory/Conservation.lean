import GinnOS.Memory.ProcessRuns

/-! # Frames are given back

The frames that a process owns are those that left the PMM since before it was created
(`Accounts`), as long as no page is mapped twice and every page that gets a frame also gets a
table.  `process_destroy` frees what the process owns, so the PMM is then as before.
-/

namespace GinnOS.Memory

open Lib Lib.Buf List
open Memory.System hiding frames setProcess slot_of_process step

variable {Q : Machine → Nat → Bool → Prop} {proc proc' : Process} {h h' : Heap} {file : ElfFile}
  {r : LoadResult} {s s' : System} {caller : Option Nat} {i total flags : Nat}

variable {m m' : Machine} {ps : List (Nat × Nat)} {d f q w stack : Nat} {p₀ : Pmm} {extra : List Nat}

/-- The process with the directory `d` owns the frame. -/
def OwnedBy (m : Machine) (ps : List (Nat × Nat)) (d f : Nat) : Prop := ∃ o : Owner, o.of d ∧ OwnerAt m ps o f

theorem Held.mem_processFrames (held : Held m ps) (member : (stack, d) ∈ ps) :
    f ∈ processFrames m stack d ↔ OwnedBy m ps d f := by
  refine ⟨held.processFrames_owner member, ?_⟩
  have inDirs : d ∈ dirs ps := mem_map_of_mem member
  have ofTable {i : Nat} (bound : i < 1024) (inside : f ∈ entryFrames m.mem m.pmm.totalPages (entry m.mem d i)) :
      f ∈ processFrames m stack d := by
    refine mem_cons_of_mem _ (mem_append_left _ (mem_flatMap.mpr ⟨i, ?_, inside⟩))
    exact mem_range'_1.mpr ⟨Nat.zero_le i, by omega⟩
  rintro ⟨o, of, at_⟩
  match o, of, at_ with
  | .node (.directory _), rfl, at_ =>
    rw [at_.2]
    exact mem_cons_of_mem _ (mem_append_right _ (mem_singleton_self d))
  | .node (.table _ i), rfl, at_ =>
    obtain ⟨_, bound, own, frame⟩ := at_
    refine ofTable bound ?_
    rw [entryFrames, if_pos ((held.isOwnEntry_iff inDirs bound).mpr own), frame]
    exact mem_append_right _ (mem_singleton_self _)
  | .use (.stack _), rfl, at_ =>
    have same := inj_on_of_nodup_map held.nodup at_ member rfl
    rw [(Prod.mk.inj same).1]
    exact mem_cons_self
  | .use (.page _ p), rfl, at_ =>
    have real := (held.loose (u := .page d p) at_).real
    obtain ⟨_, bound, isThere, user, frame, ram⟩ := at_
    have index : p / 1024 < 1024 := by omega
    have inner : p % 1024 < 1024 := by omega
    have place : p = 1024 * (p / 1024) + p % 1024 := by omega
    -- a shared table has no user pages
    have own : entry m.mem d (p / 1024) ≠ entry m.mem m.kernelDirectory (p / 1024) := fun shared => by
      have supervisor := held.supervisor p bound
      rw [pte, ← shared, ← pte, user] at supervisor
      cases supervisor
    have tableThere := held.tables.present d inDirs _ index own
    refine ofTable index ?_
    rw [entryFrames, if_pos ((held.isOwnEntry_iff inDirs index).mpr own)]
    refine mem_append_left _ (mem_pageFrames.mpr ⟨p % 1024, mem_range'_1.mpr ⟨Nat.zero_le _, by omega⟩, ?_⟩)
    rw [← pte_own tableThere inner, ← place]
    exact freedFrame_some.mpr ⟨isThere, user, frame, real, ram⟩

/-- The frames that left the PMM since `p₀` are those of the process and the `extra` ones. -/
def Accounts (p₀ : Pmm) (m : Machine) (ps : List (Nat × Nat)) (d : Nat) (extra : List Nat) : Prop :=
  ∃ frames, Took p₀ m.pmm frames ∧ ∀ f, f ∈ frames ↔ f ∈ extra ∨ OwnedBy m ps d f

theorem Took.undone {p p' p'' : Pmm} {frames more : List Nat} (took : Took p p' frames) (back : Took p'' p' more)
    (same : ∀ f, f ∈ frames ↔ f ∈ more) : p''.free = p.free ∧ p''.freePages = p.freePages := by
  have perm : frames.Perm more := (perm_ext_iff_of_nodup took.nodup back.nodup).mpr same
  refine ⟨funext fun f => ?_, ?_⟩
  · by_cases member : f ∈ frames
    · rw [took.were f member, back.were f ((same f).mp member)]
    · have first := took.free f
      have second := back.free f
      rw [decide_eq_false member] at first
      rw [decide_eq_false fun inside => member ((same f).mpr inside)] at second
      simp only [Bool.not_false, Bool.and_true] at first second
      rw [← first, second]
  · have first := took.count
    have second := back.count
    rw [perm.length_eq] at first
    rw [← first, second]

/-- The PMM after `process_destroy`. -/
theorem Accounts.destroyed (accounts : Accounts p₀ m ps d []) (held : Held m ps) (member : (stack, d) ∈ ps)
    (freed : Freed (dirs ps) m m' (processFrames m stack d)) :
    m'.pmm.free = p₀.free ∧ m'.pmm.freePages = p₀.freePages := by
  obtain ⟨frames, took, known⟩ := accounts
  refine took.undone freed.took fun f => ?_
  rw [known, held.mem_processFrames member]
  simp

/-! ## What keeps the accounts -/

theorem Undisturbed.ownedBy (same : Undisturbed (dirs ps) m m') (member : d ∈ dirs ps) :
    OwnedBy m' ps d f ↔ OwnedBy m ps d f := by
  have entries (i : Nat) (bound : i < 1024) : entry m'.mem d i = entry m.mem d i ∧
      entry m'.mem m'.kernelDirectory i = entry m.mem m.kernelDirectory i := by
    rw [same.kernel]
    exact ⟨same.entries d (mem_cons_of_mem _ member) i bound, same.entries _ mem_cons_self i bound⟩
  refine exists_congr fun o => and_congr_right fun of => ?_
  match o, of with
  | .node (.directory _), rfl => exact Iff.rfl
  | .node (.table _ i), rfl =>
    refine and_congr_right fun _ => and_congr_right fun bound => ?_
    rw [(entries i bound).1, (entries i bound).2]
  | .use (.stack _), rfl => exact Iff.rfl
  | .use (.page _ p), rfl => exact same.useAt (.page d p) f

theorem Accounts.undisturbed (accounts : Accounts p₀ m ps d extra) (member : d ∈ dirs ps)
    (same : Undisturbed (dirs ps) m m') (pmm : m'.pmm = m.pmm) : Accounts p₀ m' ps d extra := by
  obtain ⟨frames, took, known⟩ := accounts
  refine ⟨frames, by rwa [pmm], fun f => ?_⟩
  rw [known, same.ownedBy member]

theorem Accounts.cleared (accounts : Accounts p₀ m ps d extra) (member : d ∈ dirs ps) (cleared : Cleared ps m m' f) :
    Accounts p₀ m' ps d (f :: extra) := by
  obtain ⟨frames, took, known⟩ := accounts
  refine ⟨f :: frames, took.alloc cleared.taken, fun g => ?_⟩
  rw [mem_cons, mem_cons, known, cleared.same.ownedBy member, or_assoc]

/-- A mapping brings the frame of the page, if it is RAM, and that of a table that was missing. -/
theorem Mapped.ownedBy (mapped : Mapped (dirs ps) m m' d q w) (held : Held m ps) (member : d ∈ dirs ps)
    (bound : q < 1048576) (isThere : isPresent w = true) (user : isUser w = true)
    (fresh : isUser (pte m.mem d q) = false) :
    OwnedBy m' ps d f ↔ OwnedBy m ps d f ∨ (f = pageFrame w ∧ f < m.pmm.totalPages) ∨
      (¬ HasOwn m d (q / 1024) ∧ f = pageFrame (entry m'.mem d (q / 1024))) := by
  have notKernel := held.tables.kernel_ne member
  have inList := mem_cons_of_mem m.kernelDirectory member
  have kernel (i : Nat) (inner : i < 1024) :
      entry m'.mem m'.kernelDirectory i = entry m.mem m.kernelDirectory i := by
    rw [mapped.noted.kernel]
    exact mapped.entries _ mem_cons_self i inner fun same => notKernel same.1
  have elsewhere (i : Nat) (inner : i < 1024) (other : i ≠ q / 1024) : entry m'.mem d i = entry m.mem d i :=
    mapped.entries d inList i inner fun same => other same.2
  have here := mapped.view d inList q bound
  rw [if_pos ⟨rfl, rfl⟩] at here
  have otherPage (p : Nat) (low : p < 1048576) (other : p ≠ q) : pte m'.mem d p = pte m.mem d p := by
    rw [mapped.view d inList p low, if_neg fun same => other same.2]
  constructor
  · rintro ⟨o, of, at_⟩
    match o, of, at_ with
    | .node (.directory _), rfl, at_ => exact .inl ⟨.node (.directory d), rfl, at_⟩
    | .use (.stack _), rfl, at_ => exact .inl ⟨.use (.stack d), rfl, at_⟩
    | .node (.table _ i), rfl, at_ =>
      obtain ⟨_, inner, own, frame⟩ := at_
      by_cases same : i = q / 1024
      · subst same
        rcases mapped.table with ⟨_, before, sameTable⟩ | ⟨shared, _⟩
        · exact .inl ⟨.node (.table d (q / 1024)), rfl, member, inner, before, by rw [frame, sameTable]⟩
        · exact .inr (.inr ⟨fun before => before shared, frame⟩)
      · rw [elsewhere i inner same, kernel i inner] at own
        rw [elsewhere i inner same] at frame
        exact .inl ⟨.node (.table d i), rfl, member, inner, own, frame⟩
    | .use (.page _ p), rfl, at_ =>
      obtain ⟨_, low, thereP, userP, frame, ram⟩ := at_
      rw [mapped.noted.total] at ram
      by_cases same : p = q
      · rw [same, here] at frame
        exact .inr (.inl ⟨frame, ram⟩)
      · rw [otherPage p low same] at thereP userP frame
        exact .inl ⟨.use (.page d p), rfl, member, low, thereP, userP, frame, ram⟩
  · rintro (⟨o, of, at_⟩ | ⟨frame, ram⟩ | ⟨_, frame⟩)
    · match o, of, at_ with
      | .node (.directory _), rfl, at_ => exact ⟨.node (.directory d), rfl, at_⟩
      | .use (.stack _), rfl, at_ => exact ⟨.use (.stack d), rfl, at_⟩
      | .node (.table _ i), rfl, at_ =>
        obtain ⟨_, inner, own, frame⟩ := at_
        by_cases same : i = q / 1024
        · subst same
          rcases mapped.table with ⟨_, _, sameTable⟩ | ⟨shared, _⟩
          · exact ⟨.node (.table d (q / 1024)), rfl, member, inner, mapped.own, by rw [frame, sameTable]⟩
          · exact absurd shared own
        · rw [← elsewhere i inner same, ← kernel i inner] at own
          rw [← elsewhere i inner same] at frame
          exact ⟨.node (.table d i), rfl, member, inner, own, frame⟩
      | .use (.page _ p), rfl, at_ =>
        obtain ⟨_, low, thereP, userP, frame, ram⟩ := at_
        have other : p ≠ q := by
          rintro rfl
          rw [fresh] at userP
          cases userP
        rw [← otherPage p low other] at thereP userP frame
        rw [← mapped.noted.total] at ram
        exact ⟨.use (.page d p), rfl, member, low, thereP, userP, frame, ram⟩
    · rw [← mapped.noted.total] at ram
      exact ⟨.use (.page d q), rfl, member, bound, by rw [here]; exact isThere, by rw [here]; exact user,
        by rw [here]; exact frame, ram⟩
    · exact ⟨.node (.table d (q / 1024)), rfl, member, by omega, mapped.own, frame⟩

theorem Accounts.mapped (accounts : Accounts p₀ m ps d extra) (mapped : Mapped (dirs ps) m m' d q w) (held : Held m ps)
    (member : d ∈ dirs ps) (bound : q < 1048576) (isThere : isPresent w = true) (user : isUser w = true)
    (fresh : isUser (pte m.mem d q) = false)
    (spent : ∀ g, g ∈ extra ↔ g = pageFrame w ∧ g < m.pmm.totalPages) : Accounts p₀ m' ps d [] := by
  obtain ⟨frames, took, known⟩ := accounts
  have owners (g : Nat) := mapped.ownedBy (f := g) held member bound isThere user fresh
  rcases mapped.table with ⟨samePmm, before, _⟩ | ⟨shared, allocated⟩
  · refine ⟨frames, by rwa [samePmm], fun g => ?_⟩
    have noTable : ¬ ¬ HasOwn m d (q / 1024) := not_not.mpr before
    rw [known, spent, owners]
    simp only [noTable, false_and, or_false, not_mem_nil, false_or]
    exact or_comm
  · refine ⟨_, took.alloc allocated, fun g => ?_⟩
    have noTable : ¬ HasOwn m d (q / 1024) := fun own => own shared
    rw [mem_cons, known, spent, owners]
    simp only [noTable, not_false_iff, true_and, not_mem_nil, false_or]
    constructor
    · rintro (isTable | page | old)
      · exact .inr (.inr isTable)
      · exact .inr (.inl page)
      · exact .inl old
    · rintro (old | page | isTable)
      · exact .inr (.inr old)
      · exact .inr (.inl page)
      · exact .inl isTable

theorem Accounts.act (accounts : Accounts p₀ m ps d []) (ready : Ready ps d m)
    (clean : ∀ m q ok, Q m q ok → isUser (pte m.mem d q) = false ∧ ok = true)
    (act : Act d Q m m') : Accounts p₀ m' ps d [] := by
  obtain ⟨held, member, _⟩ := id ready
  cases act with
  | page bound isThere user allocated mapped known =>
    rename_i m₁ q f flags ok
    obtain ⟨fresh, rfl⟩ := clean _ _ _ known
    have cleared := held.cleared allocated
    have taken := accounts.cleared member cleared
    rcases cleared.held.pagingMapIn_cases member bound user cleared.address.1 mapped with ⟨_, done⟩ | ⟨failed, _⟩
    · refine taken.mapped done cleared.held member bound ?_ ?_ ?_ fun g => ?_
      · rw [isPresent_pageEntry, isThere]
      · rw [isUser_pageEntry, user]
      · rw [cleared.same.view d ready.listed q bound]
        exact fresh
      · rw [pageFrame_pageEntry, cleared.address.2, mem_singleton]
        exact ⟨fun isNew => ⟨isNew, by rw [isNew]; exact cleared.spare.loose.ram⟩, And.left⟩
    · cases failed
  | device bound isThere user low outside mapped known =>
    rename_i q phys flags ok
    obtain ⟨fresh, rfl⟩ := clean _ _ _ known
    rcases held.pagingMapIn_cases member bound user low mapped with ⟨_, done⟩ | ⟨failed, _⟩
    · refine accounts.mapped done held member bound ?_ ?_ fresh fun g => ?_
      · rw [isPresent_pageEntry, isThere]
      · rw [isUser_pageEntry, user]
      · rw [pageFrame_pageEntry]
        exact ⟨fun none => absurd none not_mem_nil, fun both => by omega⟩
    · cases failed
  | read ram =>
    exact accounts.undisturbed member ((Undisturbed.refl held.tables held.marked).congr rfl rfl rfl rfl rfl) rfl
  | write page others =>
    have loose := held.loose (u := .page d _) ⟨member, page⟩
    exact accounts.undisturbed member ((held.overwrite loose others).congr rfl rfl rfl rfl rfl) rfl

theorem Accounts.acts (accounts : Accounts p₀ m ps d []) (ready : Ready ps d m)
    (clean : ∀ m q ok, Q m q ok → isUser (pte m.mem d q) = false ∧ ok = true) (acts : Acts d Q m m') :
    Accounts p₀ m' ps d [] := by
  induction acts with
  | refl => exact accounts
  | tail before act ih =>
    have acted : Acted ps d (fun _ => True) m _ := Acts.acted ready (fun _ _ _ _ => trivial) before
    exact ih.act (acted.ready ready) clean act

/-! ## A process is created and loaded -/

theorem Created.accounts (created : Created ps m m' proc) :
    Accounts m.pmm m' ((proc.kernelStack, proc.pageDirectory) :: ps) proc.pageDirectory [] := by
  refine ⟨_, created.took, fun f => ⟨fun inside => .inr ?_, fun known => ?_⟩⟩
  · rcases mem_cons.mp inside with rfl | isStack
    · exact ⟨.node (.directory _), rfl, mem_cons_self, rfl⟩
    · rw [mem_singleton.mp isStack]
      exact ⟨.use (.stack _), rfl, mem_cons_self⟩
  · obtain ⟨o, of, at_⟩ := known.resolve_left not_mem_nil
    match o, of, at_ with
    | .node (.directory _), rfl, at_ =>
      rw [at_.2]
      exact mem_cons_self
    | .node (.table _ i), rfl, at_ => exact absurd (created.shared i at_.2.1) at_.2.2.1
    | .use (.stack _), rfl, at_ =>
      have same := inj_on_of_nodup_map created.held.nodup at_ mem_cons_self rfl
      rw [(Prod.mk.inj same).1]
      exact mem_cons_of_mem _ (mem_singleton_self _)
    | .use (.page _ p), rfl, at_ =>
      obtain ⟨_, bound, _, user, _, _⟩ := at_
      have supervisor := created.held.supervisor p bound
      rw [pte, ← created.shared (p / 1024) (by omega), ← pte, user] at supervisor
      cases supervisor

/-- The first-fit search finds a block, so that the heap does not grow. -/
def Heap.hasBlock (h : Heap) (size : Nat) : Bool :=
  match firstFit walkLimit h.mem h.head (align4 size) with
  | some (some _) => true
  | _ => false

theorem kmalloc_pmm {size ptr : Nat} (block : h.hasBlock size = true)
    (ran : kmalloc h size = some (ptr, h')) : h'.pmm = h.pmm := by
  simp only [Heap.hasBlock] at block
  split at block
  · next found =>
    simp only [kmalloc, found] at ran
    split at ran <;> cases ran <;> rfl
  · cases block

theorem Ready.elfLoad_some {live : List Nat} {lo hi : Nat} (ready : Ready ps d m) (holds : HeapHolds m.toHeap live)
    (fits : file.Fits lo hi m.pmm.freeCount) (loaded : Memory.elfLoad m (some file) d = some (some r, m')) :
    ∃ data h m₁ m₂ top h', kmalloc m.toHeap file.size.toNat = some (data, h) ∧
      m₁ = { m with toHeap := { h with mem := splice h.mem data file.delivered file.bytes } } ∧
      Grown m.toHeap m₁.toHeap ∧ HeapHolds m₁.toHeap (data :: live) ∧ Underway ps d file data lo hi 0 m₁ ∧
      loadSegments d file.size.toNat data 65537 m₁ 0 0 = some (some top, m₂) ∧ Acts d (Loaded m₁ d (file.loadedFrom 0)) m₁ m₂ ∧
      m' = { m₂ with toHeap := h' } ∧ Grown m₂.toHeap h' ∧ HeapHolds h' live ∧ h'.pmm = m₂.pmm ∧
      top ≠ 0 ∧ r.brk = pageAlignUp top := by
  have finished {m₁ m₂ : Machine} {data : Nat} {result : Option LoadResult}
      (done : finishLoad m₁ data result = some (some r, m₂)) : result = some r := by
    simp only [finishLoad] at done
    split at done
    · cases done
    · cases done
      rfl
  simp only [Memory.elfLoad] at loaded
  by_cases short : file.size.toNat < 52
  · rw [if_pos short] at loaded
    cases loaded
  rw [if_neg short] at loaded
  split at loaded
  · cases loaded
  next data h allocated =>
  by_cases null : data = 0
  · rw [if_pos null] at loaded
    cases loaded
  rw [if_neg null] at loaded
  by_cases partly : file.delivered ≠ file.size.toNat
  · rw [if_pos partly] at loaded
    cases finished loaded
  rw [if_neg partly] at loaded
  split at loaded
  · next valid =>
    obtain ⟨grown, holds₁, _⟩ := holds.fileRead fits.1 allocated null
    have underway := ready.underway holds fits (Nat.not_lt.mp short) allocated null (not_not.mp partly) valid
    obtain ⟨_, m₂, walked, acts, _⟩ := underway.loadSegments_acts file.phnum_lt (.inl rfl)
    have acted : Acted ps d (Between lo hi) _ m₂ := acts.acted underway.toReady fun _ _ _ known => known.between underway.sound
    simp only [elfLoadFrom, walked] at loaded
    split at loaded
    · cases loaded
    · cases finished loaded
    · next top _ isTop =>
      cases isTop
      split at loaded
      · cases finished loaded
      · next nonzero =>
        have result := finished loaded
        obtain ⟨h', done, grown', holds', pmm'⟩ := (holds₁.acted acted).finishLoad (some r)
        rw [result, done] at loaded
        cases loaded
        exact ⟨data, h, _, m₂, top, h', allocated, rfl, grown, holds₁, underway, walked, acts, rfl, grown', holds', pmm', nonzero,
          by rw [← Option.some.inj result]⟩
  · cases finished loaded

theorem Accounts.elfLoad {live : List Nat} {lo hi : Nat}
    (accounts : Accounts p₀ m ps d []) (ready : Ready ps d m) (holds : HeapHolds m.toHeap live)
    (bare : ∀ q < 1048576, isUser (pte m.mem d q) = false) (fits : file.Fits lo hi m.pmm.freeCount)
    (disjoint : Disjoint (file.loadedFrom 0)) (block : m.toHeap.hasBlock file.size.toNat = true)
    (loaded : Memory.elfLoad m (some file) d = some (some r, m')) : Accounts p₀ m' ps d [] := by
  obtain ⟨data, h, m₁, m₂, top, h', allocated, rfl, grown, holds₁, underway, walked, acts, rfl, grown', holds', pmm', _⟩ :=
    ready.elfLoad_some holds fits loaded
  have member := ready.member
  have same₁ := (ready.held.heap (d := d) (P := fun _ => False) grown holds₁).1
  have pmm₁ := kmalloc_pmm block allocated
  have accounts₁ := accounts.undisturbed member same₁ pmm₁
  have accounts₂ := accounts₁.acts underway.toReady (fun m' q ok known => ?_) acts
  · have acted : Acted ps d (Between lo hi) _ m₂ := acts.acted underway.toReady fun _ _ _ known => known.between underway.sound
    exact accounts₂.undisturbed member (acted.held.heap (d := d) (P := fun _ => False) grown' holds').1 pmm'
  · obtain ⟨⟨seg, inside, range⟩, unchanged, mapped⟩ := known
    have bounds := (underway.sound.2 seg inside).bounds (ElfFile.mem_loadedFrom.mp inside).2
    have upper := range.2
    refine ⟨?_, mapped⟩
    rw [unchanged disjoint, same₁.view d ready.listed q (by omega)]
    exact bare q (by omega)

/-! ## Its life -/

theorem Accounts.perm {ps' : List (Nat × Nat)} (accounts : Accounts p₀ m ps d extra) (same : ps'.Perm ps) :
    Accounts p₀ m ps' d extra := by
  have members (a : Nat) : a ∈ dirs ps' ↔ a ∈ dirs ps := (same.map Prod.snd).mem_iff
  have owned (f : Nat) : OwnedBy m ps' d f ↔ OwnedBy m ps d f := by
    refine exists_congr fun o => and_congr_right fun of => ?_
    match o, of with
    | .node (.directory _), rfl => exact and_congr_left fun _ => members d
    | .node (.table _ i), rfl => exact and_congr_left fun _ => members d
    | .use (.stack _), rfl => exact same.mem_iff
    | .use (.page _ p), rfl => exact and_congr_left fun _ => members d
  obtain ⟨frames, took, known⟩ := accounts
  exact ⟨frames, took, fun f => by rw [known, owned]⟩

theorem Held.switched (held : Held m ps) (a : Nat) : Undisturbed (dirs ps) m (pagingSwitchDirectory m a) :=
  (Undisturbed.refl held.tables held.marked).congr rfl rfl rfl rfl rfl

theorem Accounts.switch (accounts : Accounts p₀ m ps d extra) (held : Held m ps) (member : d ∈ dirs ps) (a : Nat) :
    Accounts p₀ (pagingSwitchDirectory m a) ps d extra :=
  accounts.undisturbed member (held.switched a) rfl

/-- The process in slot `i` accounts for what left the PMM since `p₀`. -/
structure System.Lives (s : System) (p₀ : Pmm) (total i : Nat) : Prop where
  ok : s.Ok total 0 0x100000
  accounts : ∃ proc, s.process i = some proc ∧ Accounts p₀ s.machine s.frames proc.pageDirectory []

/-- The pages that a call of the process is to back: the first one and their number. -/
def Process.maps (proc : Process) : SysOp → Nat × Nat
  | .start _ => (0x7FC, 4)
  | .sbrk _ increment =>
    let newBrk := (proc.brk + increment.toNat) % 4294967296
    if increment = 0 ∨ 2147483648 ≤ increment.toNat ∨ newBrk < proc.brk then (0, 0)
    else (proc.brk / 4096, pagesBetween proc.brk newBrk)
  | .mmap _ _ length _ _ offset =>
    let lenPages := pageAlignUp length.toNat
    if (length = 0 ∨ offset.toNat % 4096 ≠ 0) ∨ proc.mmapNext < 0x50000000 ∨ sub32 0xB0000000 proc.mmapNext < lenPages
    then (0, 0) else (proc.mmapNext / 4096, lenPages / 4096)
  | _ => (0, 0)

theorem sysSbrk_machine (m : Machine) (proc : Process) (i : Nat) (increment : UInt32) :
    (sysSbrk m proc increment).2.2 = (mapFresh proc.pageDirectory userRw m (proc.maps (.sbrk i increment)).2
      (4096 * (proc.maps (.sbrk i increment)).1)).2 := by
  simp only [sysSbrk, Process.maps]
  by_cases zero : increment = 0
  · rw [if_pos zero, if_pos (.inl zero)]
    rfl
  by_cases negative : 2147483648 ≤ increment.toNat
  · rw [if_neg zero, if_pos negative, if_pos (.inr (.inl negative))]
    rfl
  by_cases wraps : (proc.brk + increment.toNat) % 4294967296 < proc.brk
  · rw [if_neg zero, if_neg negative, if_pos wraps, if_pos (.inr (.inr wraps))]
    rfl
  rw [if_neg zero, if_neg negative, if_neg wraps, if_neg (by tauto), Nat.mul_comm 4096]
  split <;> simp_all

theorem sysMmap_machine (m : Machine) (proc : Process) (i : Nat) (isDevice : Bool) (device : Option (Nat × Nat))
    (length prot flags offset : UInt32) (anonymous : flags.toNat / 4 % 2 = 1) (page : proc.mmapNext % 4096 = 0) :
    (sysMmap m proc device length prot flags offset).2.2 = (mapFresh proc.pageDirectory (pageFlags prot) m
      (proc.maps (.mmap i isDevice length prot flags offset)).2
      (4096 * (proc.maps (.mmap i isDevice length prot flags offset)).1)).2 := by
  simp only [sysMmap, Process.maps, anonymous, if_true]
  by_cases empty : length = 0 ∨ offset.toNat % 4096 ≠ 0
  · rw [if_pos empty, if_pos (.inl empty)]
    rfl
  by_cases full : proc.mmapNext < 0x50000000 ∨ sub32 0xB0000000 proc.mmapNext < pageAlignUp length.toNat
  · rw [if_neg empty, if_pos full, if_pos (.inr full)]
    rfl
  have address : 4096 * (proc.mmapNext / 4096) = proc.mmapNext := by omega
  rw [if_neg empty, if_neg full, if_neg (by tauto), address]
  split <;> simp_all

/-- The pages are not mapped yet, and there are frames for them and their tables, or the process
has all tables. -/
def System.CanMap (s : System) (i : Nat) (op : SysOp) : Prop := ∀ proc ∈ s.process i,
  (∀ k < (proc.maps op).2, isUser (pte s.machine.mem proc.pageDirectory ((proc.maps op).1 + k)) = false) ∧
    (framesNeeded s.machine proc.pageDirectory (proc.maps op).1 (proc.maps op).2 ≤ s.machine.pmm.freeCount ∨
      ∀ k < (proc.maps op).2, HasOwn s.machine proc.pageDirectory (((proc.maps op).1 + k) / 1024))

instance (s : System) (i : Nat) (op : SysOp) : Decidable (s.CanMap i op) := inferInstanceAs (Decidable (∀ _ ∈ _, _))

/-- The first run, `sbrk` and anonymous `mmap` of the process in slot `i`. -/
def SysOp.growth (i : Nat) : SysOp → Bool
  | .start j => j = i
  | .sbrk j _ => j = i
  | .mmap j _ _ _ flags _ => j = i && flags.toNat / 4 % 2 = 1
  | _ => false

theorem Accounts.mapFresh {p n : Nat} (accounts : Accounts p₀ m ps d []) (ready : Ready ps d m) (flagged : ForUsers flags)
    (bound : p + n ≤ 1048576) (fresh : ∀ k < n, isUser (pte m.mem d (p + k)) = false)
    (enough : framesNeeded m d p n ≤ m.pmm.freeCount ∨ ∀ k < n, HasOwn m d ((p + k) / 1024)) :
    Accounts p₀ (Memory.mapFresh d flags m n (4096 * p)).2 ps d [] := by
  obtain ⟨acts, _⟩ := ready.mapFresh_acts flagged bound
  have offset {q : Nat} (inside : InRange p n q) : ∃ k < n, q = p + k := by
    obtain ⟨lower, upper⟩ := inside
    exact ⟨q - p, by omega, by omega⟩
  refine accounts.acts ready (fun m' q ok known => ?_) acts
  obtain ⟨inside, same, mapped⟩ := known
  obtain ⟨k, low, rfl⟩ := offset inside
  refine ⟨by rw [same]; exact fresh k low, mapped (enough.imp id fun own q inside => ?_)⟩
  obtain ⟨k, low, rfl⟩ := offset inside
  exact own k low

theorem Process.Ok.maps_bound (ok : proc.Ok 0) (op : SysOp) :
    (proc.maps op).1 + (proc.maps op).2 ≤ 1048576 := by
  obtain ⟨lower, upper, _⟩ := ok.cursor
  cases op with
  | start i => simp [Process.maps]
  | sbrk i increment =>
    simp only [Process.maps]
    split
    · decide
    · simp only [pagesBetween, pageAlignUp]
      omega
  | mmap i isDevice length prot flags offset =>
    simp only [Process.maps]
    split
    · decide
    · next fits =>
      simp only [sub32] at fits
      omega
  | exec caller file => exact Nat.zero_le _
  | destroy caller i => exact Nat.zero_le _
  | kmalloc size => exact Nat.zero_le _
  | kfree ptr => exact Nat.zero_le _

theorem System.frames_setProcess (is : s.process i = some proc)
    (frames : proc'.kernelStack = proc.kernelStack ∧ proc'.pageDirectory = proc.pageDirectory) :
    (s.setProcess i proc' m').frames = s.frames := by
  obtain ⟨before, after, old, new⟩ := frames_set (System.slot_of_process is) (.live proc')
  simp only [System.frames, System.setProcess]
  rw [new, old, Slot.frames, Slot.frames, frames.1, frames.2]

namespace System.Lives

variable {s s' : System} {total i : Nat} {op : SysOp} {ans : Option Nat}

theorem mapped (lives : s.Lives p₀ total i) (is : s.process i = some proc) (can : s.CanMap i op) (flagged : ForUsers flags) :
    Accounts p₀ (mapFresh proc.pageDirectory flags (s.under (some i)) (proc.maps op).2 (4096 * (proc.maps op).1)).2
      s.frames proc.pageDirectory [] := by
  obtain ⟨proc', is', accounts⟩ := lives.accounts
  cases is.symm.trans is'
  obtain ⟨sane, _⟩ := lives.ok.under (some i)
  have member := mem_dirs is
  obtain ⟨fresh, enough⟩ := can proc is
  obtain ⟨a, _, isUnder⟩ := s.under_eq (some i)
  rw [isUnder] at sane ⊢
  exact (accounts.switch lives.ok.sane.held member a).mapFresh (sane.ready member) flagged
    ((lives.ok.procs i proc is).maps_bound op) fresh enough

theorem setProcess {m' : Machine} (is : s.process i = some proc)
    (ok : (s.setProcess i proc' m').Ok total 0 0x100000)
    (frames : proc'.kernelStack = proc.kernelStack ∧ proc'.pageDirectory = proc.pageDirectory)
    (accounts : Accounts p₀ m' s.frames proc.pageDirectory []) : (s.setProcess i proc' m').Lives p₀ total i := by
  refine ⟨ok, proc', process_setProcess (System.slot_of_process is), ?_⟩
  rw [frames_setProcess is frames, frames.2]
  exact accounts

theorem step (lives : s.Lives p₀ total i) (growth : op.growth i = true) (possible : s.Possible op) (can : s.CanMap i op)
    (stepped : s.step op = (ans, s')) : s'.Lives p₀ total i := by
  have sound : s.Sound 0 0x100000 op := by
    cases op with
    | start j => trivial
    | sbrk j increment => exact fun proc _ => .inr (by omega)
    | mmap j isDevice length prot flags offset =>
      simp only [SysOp.growth, Bool.and_eq_true, decide_eq_true_eq] at growth
      exact fun _ other => absurd growth.2 other
    | _ => cases growth
  have ok' := lives.ok.step (by decide) (by decide) (by decide) possible sound stepped
  obtain ⟨proc, is, accounts⟩ := lives.accounts
  obtain rfl : (s.step op).2 = s' := congrArg Prod.snd stepped
  obtain ⟨sane, _⟩ := lives.ok.under (some i)
  have procOk := lives.ok.procs i proc is
  cases op with
  | start j =>
    obtain rfl : j = i := of_decide_eq_true growth
    have mapped := lives.mapped is can forUsers_userRw
    simp only [System.step, is, jumpToUsermode, Process.maps] at ok' mapped ⊢
    generalize mapFresh proc.pageDirectory userRw (s.under (some j)) 4 0x7FC000 = result at ok' mapped ⊢
    obtain ⟨done, m'⟩ := result
    cases done with
    | false => exact ⟨ok', proc, is, mapped⟩
    | true => exact setProcess is ok' ⟨rfl, rfl⟩ mapped
  | sbrk j increment =>
    obtain rfl : j = i := of_decide_eq_true growth
    have mapped := lives.mapped is can forUsers_userRw
    rw [← sysSbrk_machine] at mapped
    have called := (sane.ready (mem_dirs is)).sysSbrk_called procOk (Nat.le_refl _) (sound proc is)
    simp only [System.step, is] at ok' ⊢
    exact setProcess is ok' called.frames mapped
  | mmap j isDevice length prot flags offset =>
    simp only [SysOp.growth, Bool.and_eq_true, decide_eq_true_eq] at growth
    obtain ⟨rfl, anonymous⟩ := growth
    have mapped := lives.mapped is can (pageFlags_user prot)
    simp only [System.step, is] at ok' ⊢
    rw [← sysMmap_machine _ _ _ _ (if isDevice then s.framebuffer else none) _ _ _ _ anonymous procOk.cursor.2.2] at mapped
    have called : Called _ 0 0x100000 (s.under (some j)) _ proc
        (sysMmap (s.under (some j)) proc (if isDevice then s.framebuffer else none) length prot flags offset).2.1 :=
      (sane.ready (mem_dirs is)).sysMmap_called procOk (by decide) (by decide)
        fun other => absurd anonymous other
    exact setProcess is ok' called.frames mapped
  | _ => cases growth

theorem destroy (lives : s.Lives p₀ total i) (caller : Option Nat) : ∃ s', s.step (.destroy caller i) = (some 0, s') ∧
    s'.running = s.running ∧ s'.machine.pmm.free = p₀.free ∧ s'.machine.pmm.freePages = p₀.freePages := by
  obtain ⟨proc, is, accounts⟩ := lives.accounts
  obtain ⟨sane, _⟩ := lives.ok.under caller
  obtain ⟨m', ran, freed⟩ := sane.held.processDestroy_freed (mem_frames is)
  obtain ⟨a, _, isUnder⟩ := s.under_eq caller
  have switched : Accounts p₀ (s.under caller) s.frames proc.pageDirectory [] := by
    rw [isUnder]
    exact accounts.switch lives.ok.sane.held (mem_dirs is) a
  simp only [System.step, is, ran]
  exact ⟨_, rfl, rfl, switched.destroyed sane.held (mem_frames is) freed⟩

end System.Lives

end GinnOS.Memory
