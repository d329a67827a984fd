import GinnOS.Memory.Loading
import GinnOS.Memory.Teardown

/-! # The life of a process

The parts of a process's life, put together: every call keeps the frames owned apart and maps
pages of the caller's directory only in the range it may use (`Sane`).
-/

namespace GinnOS.Memory

open Lib Lib.Buf List

variable {m m' : Machine} {ps : List (Nat × Nat)} {d total lo hi : Nat} {live : List Nat} {proc : Process} {P : Nat → Prop}

/-! ## Making one -/

/-- A stack and a directory with the kernel's tables. -/
structure Created (ps : List (Nat × Nat)) (m m' : Machine) (proc : Process) : Prop where
  fields : proc = ⟨proc.kernelStack, proc.pageDirectory, 0, 0x50000000, 0, false⟩
  held : Held m' ((proc.kernelStack, proc.pageDirectory) :: ps)
  took : Took m.pmm m'.pmm [proc.pageDirectory, proc.kernelStack]
  noted : Noted (dirs ps) m m'
  view : SameView m m' (dirs ps)
  shared : ∀ i < 1024, entry m'.mem proc.pageDirectory i = entry m'.mem m'.kernelDirectory i
  region : ∀ k, m.start ≤ k → k < m.stop → m'.mem k = m.mem k

theorem Held.processCreate_cases (held : Held m ps) (aligned : m.start % 4096 = 0 ∧ m.stop % 4096 = 0) :
    (∃ proc m', processCreate m = some (some proc, m') ∧ Created ps m m' proc) ∨
      (m.pmm.freeCount < 2 ∧ ∃ m', processCreate m = some (none, m') ∧ Acted ps d P m m') := by
  simp only [processCreate]
  cases allocated : allocPage m with
  | mk r m₁ =>
    cases r with
    | none =>
      obtain rfl := allocPage_none held.tables.pmm allocated
      have exhausted := pmmAllocPage_exhausted held.tables.pmm (congrArg Prod.fst allocated)
      exact .inr ⟨by omega, m₁, rfl, .refl held⟩
    | some stack =>
      obtain ⟨held₁, spare⟩ := held.alloc allocated
      have noted₁ : Noted (dirs ps) m m₁ := Noted.allocPage allocated
      have same₁ := Undisturbed.alloc held.tables held.marked allocated
      obtain ⟨pmm, taken, rfl⟩ := allocPage_eq allocated
      have took₁ : Took m.pmm pmm [stack] := (Took.refl m.pmm).alloc taken
      have cleared : Undisturbed (dirs ps) _ (Machine.clear { m with pmm := pmm } stack) :=
        (held₁.overwrite spare.loose fun g other => sameFrame_clear _ other).congr rfl rfl rfl rfl rfl
      have same₂ := same₁.trans cleared
      have held₂ := held₁.undisturbed cleared
      have spare₂ := spare.undisturbed cleared
      have noted₂ := noted₁.trans held.tables.pmm same₁.view (Noted.clear spare.loose.ram)
      have region₂ (k : Nat) (lower : m.start ≤ k) (upper : k < m.stop) :
          (Machine.clear { m with pmm := pmm } stack).mem k = m.mem k :=
        sameFrame_clear { m with pmm := pmm } (spare.loose.toOwned.not_heap aligned lower upper) k rfl
      simp only
      rcases pagingCloneDirectory_cases held₂.tables held₂.marked with ⟨pd, m', made, cloned⟩ | ⟨failed, exhausted⟩
      · rw [made]
        refine .inl ⟨_, m', rfl, rfl, held₂.cloned spare₂ cloned, took₁.alloc cloned.taken,
          noted₂.trans held.tables.pmm same₂.view cloned.noted, same₂.view.trans cloned.view same₂.kernel, cloned.shared,
          fun k lower upper => ?_⟩
        have used := held₂.tables.heap (k / 4096) (show m.start ≤ 4096 * (k / 4096) by omega)
          (show 4096 * (k / 4096) < m.stop by omega)
        have other : k / 4096 ≠ pd := by
          rintro rfl
          rw [(pmmAllocPage_some cloned.taken).1] at used
          cases used
        rw [cloned.frames _ other k rfl, region₂ k lower upper]
      · rw [failed]
        obtain ⟨freed, _⟩ := Took.of_free spare₂.loose.used spare₂.loose.ram
        simp only [freed]
        refine .inr ⟨?_, _, rfl, ⟨held₂.giveBack spare₂, rfl, rfl, same₂.total, fun g isUsed => ?_,
          fun a member q bound _ => same₂.view a member q bound,
          fun ram active _ faithful => noted₂.faithful held.tables.pmm ram active faithful⟩, ⟨rfl, rfl, rfl⟩, region₂⟩
        · have count := took₁.freeCount held.tables.pmm held₂.tables.pmm
          have exhausted : pmm.freeCount = 0 := pmmAllocPage_exhausted held₂.tables.pmm exhausted
          simp only [length_singleton] at count
          omega
        · have other : g ≠ stack := by
            rintro rfl
            rw [took₁.were g mem_cons_self] at isUsed
            cases isUsed
          show Function.update pmm.free stack true g = false
          rw [Function.update_of_ne other, took₁.free, isUsed, Bool.false_and]

/-! ## The machine between calls -/

/-- Frames are owned apart, the heap holds the `live` blocks, and directories differ from the
kernel's only from page `lo` to `hi`.  If that is behind the end of RAM, then RAM is
identity-mapped, and no access has gone astray. -/
structure Sane (total lo hi : Nat) (m : Machine) (ps : List (Nat × Nat)) (live : List Nat) : Prop where
  held : Held m ps
  heap : HeapHolds m.toHeap live
  confined : ∀ d ∈ dirs ps, ∀ q < 1048576, ¬ Between lo hi q → pte m.mem d q = pte m.mem m.kernelDirectory q
  pages : m.pmm.totalPages = total
  ram : total ≤ lo → MapsRam m
  faithful : total ≤ lo → Faithful m

namespace Sane

section

variable (sane : Sane total lo hi m ps live)

include sane

theorem ready (member : d ∈ dirs ps) : Ready ps d m :=
  ⟨sane.held, member, sane.heap.aligned⟩

theorem ramMapped (behind : total ≤ lo) : RamMapped m (dirs ps) := by
  intro a member p bound
  have pages := sane.pages
  have small := sane.held.tables.pmm.small
  rcases mem_cons.mp member with rfl | inList
  · exact sane.ram behind p bound
  · rw [sane.confined a inList p (by omega) fun between => by have := between.1; omega]
    exact sane.ram behind p bound

theorem perm {ps' : List (Nat × Nat)} (same : ps'.Perm ps) : Sane total lo hi m ps' live :=
  { sane with
    held := sane.held.perm same
    confined := fun d member => sane.confined d ((same.map Prod.snd).mem_iff.mp member) }

theorem switch (a : Nat) : Sane total lo hi (pagingSwitchDirectory m a) ps live :=
  { sane with
    held := sane.held.undisturbed ((Undisturbed.refl sane.held.tables sane.held.marked).congr rfl rfl rfl rfl rfl) }

theorem evolved {live' : List Nat} (active : m.active ∈ m.kernelDirectory :: dirs ps)
    (evolved : Evolved ps d P m m') (pages : ∀ q, P q → Between lo hi q) (heap : HeapHolds m'.toHeap live') :
    Sane total lo hi m' ps live' where
  held := evolved.held
  heap := heap
  confined a member q bound outside := by
    have other (b : Nat) : ¬ (b = d ∧ P q) := fun here => outside (pages q here.2)
    rw [evolved.view a (mem_cons_of_mem _ member) q bound (other a), evolved.kernel,
      evolved.view _ mem_cons_self q bound (other _)]
    exact sane.confined a member q bound outside
  pages := evolved.total.trans sane.pages
  ram behind := by
    intro p bound
    have small := sane.held.tables.pmm.small
    have pages' := sane.pages
    rw [evolved.total] at bound
    rw [evolved.kernel, evolved.view _ mem_cons_self p (by omega) fun here => by
      have := (pages p here.2).1
      omega]
    exact sane.ram behind p bound
  faithful behind := by
    refine evolved.faithful (sane.ramMapped behind) active (fun q here => ?_) (sane.faithful behind)
    rw [sane.pages]
    exact behind.trans (pages q here).1

theorem acted (active : m.active ∈ m.kernelDirectory :: dirs ps)
    (acted : Acted ps d P m m') (pages : ∀ q, P q → Between lo hi q) : Sane total lo hi m' ps live :=
  sane.evolved active acted.toEvolved pages (sane.heap.acted acted)

theorem grown {h : Heap} {live' : List Nat} (grown : Grown m.toHeap h)
    (holds : HeapHolds h live') : Sane total lo hi { m with toHeap := h } ps live' := by
  have switched := sane.switch m.kernelDirectory
  have evolved : Evolved ps 0 (fun _ => False) (pagingSwitchDirectory m m.kernelDirectory)
      { pagingSwitchDirectory m m.kernelDirectory with toHeap := h } := (switched.held.heap grown holds).2
  exact (switched.evolved mem_cons_self evolved nofun holds).switch m.active

theorem created (active : m.active ∈ m.kernelDirectory :: dirs ps)
    (created : Created ps m m' proc) : Sane total lo hi m' ((proc.kernelStack, proc.pageDirectory) :: ps) live where
  held := created.held
  heap := by
    have noted := created.noted
    refine sane.heap.congr created.held.tables.pmm (fun page lower upper => ?_) ⟨noted.head, noted.start, noted.stop⟩
      created.region
    rw [created.took.free, sane.held.tables.heap page lower upper, Bool.false_and]
  confined d member q bound outside := by
    rcases mem_cons.mp member with rfl | old
    · simp only [pte, created.shared (q / 1024) (by omega)]
    · rw [created.view d (mem_cons_of_mem _ old) q bound, created.noted.kernel,
        created.view _ mem_cons_self q bound]
      exact sane.confined d old q bound outside
  pages := created.noted.total.trans sane.pages
  ram behind := by
    intro p bound
    have small := sane.held.tables.pmm.small
    rw [created.noted.total] at bound
    rw [created.noted.kernel, created.view _ mem_cons_self p (by omega)]
    exact sane.ram behind p bound
  faithful behind := by
    exact created.noted.faithful sane.held.tables.pmm (sane.ramMapped behind) active (sane.faithful behind)

end

theorem destroyed {stack : Nat} (sane : Sane total lo hi m ((stack, d) :: ps) live)
    (active : m.active ∈ m.kernelDirectory :: dirs ((stack, d) :: ps))
    (freed : Freed (dirs ((stack, d) :: ps)) m m' (processFrames m stack d)) : Sane total lo hi m' ps live := by
  have held := sane.held.destroyed freed
  have total' := freed.noted.total
  have mem : m'.mem = m.mem := by rw [freed.rest]
  have kernel := freed.noted.kernel
  refine ⟨held, ?_, fun a member q bound outside => ?_, total'.trans sane.pages, fun behind => ?_, fun behind => ?_⟩
  · refine sane.heap.congr held.tables.pmm (fun page lower upper => ?_)
      ⟨freed.noted.head, freed.noted.start, freed.noted.stop⟩ fun k _ _ => by rw [mem]
    exact held.tables.heap page (by rw [freed.noted.start]; exact lower) (by rw [freed.noted.stop]; exact upper)
  · rw [mem, kernel]
    exact sane.confined a (mem_cons_of_mem _ member) q bound outside
  · intro p bound
    rw [total'] at bound
    rw [mem, kernel]
    exact sane.ram behind p bound
  · exact freed.noted.faithful sane.held.tables.pmm (sane.ramMapped behind) active (sane.faithful behind)

end Sane

/-! ## The calls -/

section Calls

variable {n p f flags : Nat}

theorem Ready.mapFresh_acted (ready : Ready ps d m) (flagged : ForUsers flags) (bound : p + n ≤ 1048576) :
    Acted ps d (InRange p n) m (mapFresh d flags m n (4096 * p)).2 :=
  (ready.mapFresh_acts flagged bound).1.acted ready fun _ _ _ known => known.1

theorem Ready.mapDevice_acts (ready : Ready ps d m) (flagged : ForUsers flags) (bound : p + n ≤ 1048576)
    (outside : m.pmm.totalPages ≤ f) (low : f + n ≤ 1048576) :
    Acts d (fun _ q _ => InRange p n q) m (mapDevice d flags m n (4096 * p) (4096 * f)).2 := by
  induction n generalizing m p f with
  | zero => exact .refl
  | succ n ih =>
    simp only [mapDevice]
    cases mapped : pagingMapIn m d (4096 * p) (4096 * f) flags with
    | mk ok m₁ =>
      have act : Act d (fun _ q _ => InRange p (n + 1) q) m m₁ :=
        .device (by omega) flagged.isThere flagged.user (by omega) (by omega) mapped ⟨Nat.le_refl p, by omega⟩
      cases ok with
      | false => exact .single act
      | true =>
        have acted : Acted ps d (InRange p (n + 1)) m m₁ := act.acted ready fun _ _ _ => id
        have later := ih (p := p + 1) (f := f + 1) (acted.ready ready) (by omega) (by rw [acted.total]; omega) (by omega)
        refine .head act (later.mono fun _ q _ inside => ?_)
        obtain ⟨lower, upper⟩ := inside
        exact ⟨by omega, by omega⟩

theorem pageFlags_user (prot : UInt32) : ForUsers (pageFlags prot) := by
  simp only [pageFlags]
  split <;> exact ⟨rfl, rfl⟩

/-- The break is behind page `lo`, and the mapping cursor is in its region. -/
structure Process.Ok (proc : Process) (lo : Nat) : Prop where
  brk : 4096 * lo ≤ proc.brk ∧ proc.brk < 4294967296
  cursor : 0x50000000 ≤ proc.mmapNext ∧ proc.mmapNext ≤ 0xB0000000 ∧ proc.mmapNext % 4096 = 0

/-- A call of the process worked on its pages between `lo` and `hi`. -/
structure Called (ps : List (Nat × Nat)) (lo hi : Nat) (m m' : Machine) (proc proc' : Process) : Prop where
  acted : Acted ps proc.pageDirectory (Between lo hi) m m'
  ok : proc'.Ok lo
  frames : proc'.kernelStack = proc.kernelStack ∧ proc'.pageDirectory = proc.pageDirectory

theorem Ready.sysSbrk_called (ready : Ready ps proc.pageDirectory m) (ok : proc.Ok lo) (top : hi ≤ 1048576) {increment : UInt32}
    (inside : 2147483648 ≤ increment.toNat ∨ (proc.brk + increment.toNat) % 4294967296 ≤ 4096 * hi) :
    Called ps lo hi m (sysSbrk m proc increment).2.2 proc (sysSbrk m proc increment).2.1 := by
  have nothing : Called ps lo hi m m proc proc := ⟨.refl ready.held, ok, rfl, rfl⟩
  simp only [sysSbrk]
  split
  · exact nothing
  · split
    · exact nothing
    · next small =>
      split
      · exact nothing
      · next forward =>
        obtain ⟨lower, _⟩ := ok.brk
        have grow : Acted ps proc.pageDirectory _ m _ := ready.mapFresh_acted (p := proc.brk / 4096)
          (n := pagesBetween proc.brk ((proc.brk + increment.toNat) % 4294967296)) forUsers_userRw (by
            simp only [pagesBetween, pageAlignUp]
            omega)
        rw [Nat.mul_comm 4096] at grow
        have grown : Acted ps proc.pageDirectory (Between lo hi) m _ := grow.mono fun q range => by
          obtain ⟨above, below⟩ := range
          simp only [pagesBetween, pageAlignUp] at below
          exact ⟨by omega, by omega⟩
        generalize mapFresh proc.pageDirectory userRw m _ _ = result at grown ⊢
        obtain ⟨mapped, m₁⟩ := result
        cases mapped with
        | false => exact ⟨grown, ok, rfl, rfl⟩
        | true => exact ⟨grown, ⟨⟨by simp only; omega, by simp only; omega⟩, ok.cursor⟩, rfl, rfl⟩

/-- The device's memory is behind the end of RAM. -/
def OutsideRam (totalPages : Nat) (device : Nat × Nat) : Prop :=
  totalPages ≤ device.1 / 4096 ∧ device.1 + device.2 ≤ 4294963200
  deriving Decidable

/-- `fb_dev_mmap` may map one page more than was asked for, if the framebuffer is not aligned. -/
theorem Ready.fbDevMmap_acted (ready : Ready ps d m) {addr bytes length : Nat} (outside : OutsideRam m.pmm.totalPages (addr, bytes)) (prot offset : UInt32)
    (bound : p + length / 4096 < 1048576) (whole : length % 4096 = 0) :
    Acted ps d (InRange p (length / 4096 + 1)) m (fbDevMmap m addr bytes d (4096 * p) length prot offset).2 := by
  obtain ⟨behind, top⟩ := outside
  simp only [fbDevMmap]
  split
  · exact .refl ready.held
  · next inside =>
    have phys : (addr + offset.toNat) % 4294967296 = addr + offset.toNat := by
      omega
    obtain ⟨len, isLen⟩ : ∃ len, min length (bytes - offset.toNat) = len := ⟨_, rfl⟩
    rw [phys, isLen]
    have few : pagesBetween (addr + offset.toNat) (addr + offset.toNat + len) ≤ length / 4096 + 1 ∧
        (addr + offset.toNat) / 4096 + pagesBetween (addr + offset.toNat) (addr + offset.toNat + len) ≤ 1048576 := by
      simp only [pagesBetween, pageAlignUp] at top ⊢
      omega
    have acts := ready.mapDevice_acts (p := p) (f := (addr + offset.toNat) / 4096) (pageFlags_user prot)
      (n := pagesBetween (addr + offset.toNat) (addr + offset.toNat + len)) (by omega) (by simp only at behind; omega) few.2
    rw [Nat.mul_comm 4096 (_ / 4096)] at acts
    exact acts.acted ready fun _ q _ range => ⟨range.1, by have := range.2; omega⟩

theorem Ready.sysMmap_called (ready : Ready ps proc.pageDirectory m) (ok : proc.Ok lo) (low : lo ≤ 0x50000) (top : 0xB0001 ≤ hi)
    {device : Option (Nat × Nat)} {length prot flags offset : UInt32}
    (outside : flags.toNat / 4 % 2 ≠ 1 → ∀ fb ∈ device, OutsideRam m.pmm.totalPages fb) :
    Called ps lo hi m (sysMmap m proc device length prot flags offset).2.2 proc
      (sysMmap m proc device length prot flags offset).2.1 := by
  have nothing : Called ps lo hi m m proc proc := ⟨.refl ready.held, ok, rfl, rfl⟩
  obtain ⟨lower, upper, page⟩ := ok.cursor
  obtain ⟨p, isPage⟩ : ∃ p, proc.mmapNext = 4096 * p := ⟨proc.mmapNext / 4096, by omega⟩
  obtain ⟨len, isLen⟩ : ∃ len, pageAlignUp length.toNat = len := ⟨_, rfl⟩
  have whole : len % 4096 = 0 := by
    simp only [pageAlignUp] at isLen
    omega
  simp only [sysMmap, isLen]
  split
  · exact nothing
  · split
    · exact nothing
    · next fits =>
      have room : proc.mmapNext + len ≤ 0xB0000000 := by
        simp only [sub32] at fits
        omega
      have between (q : Nat) (range : InRange p (len / 4096 + 1) q) : Between lo hi q := by
        obtain ⟨above, below⟩ := range
        exact ⟨by omega, by omega⟩
      have moved : proc.Ok lo → Process.Ok { proc with mmapNext := (proc.mmapNext + len) % 4294967296 } lo := fun ok =>
        ⟨ok.brk, by simp only; omega, by simp only; omega, by simp only; omega⟩
      by_cases anonymous : flags.toNat / 4 % 2 = 1
      · rw [if_pos anonymous]
        have acted := (ready.mapFresh_acted (p := p) (n := len / 4096) (pageFlags_user prot) (by omega)).mono fun q range =>
          between q ⟨range.1, by have := range.2; omega⟩
        rw [← isPage] at acted
        generalize mapFresh proc.pageDirectory (pageFlags prot) m (len / 4096) proc.mmapNext = result at acted ⊢
        obtain ⟨_ | _, m₁⟩ := result
        · exact ⟨acted, ok, rfl, rfl⟩
        · exact ⟨acted, moved ok, rfl, rfl⟩
      · rw [if_neg anonymous]
        cases device with
        | none => exact nothing
        | some fb =>
          obtain ⟨addr, bytes⟩ := fb
          dsimp only
          have acted := (ready.fbDevMmap_acted (p := p) (outside anonymous _ rfl) prot offset (by omega) whole).mono between
          rw [← isPage] at acted
          generalize fbDevMmap m addr bytes proc.pageDirectory proc.mmapNext len prot offset = result at acted ⊢
          obtain ⟨_ | _, m₁⟩ := result
          · exact ⟨acted, ok, rfl, rfl⟩
          · exact ⟨acted, moved ok, rfl, rfl⟩

theorem Ready.jumpToUsermode_acted (ready : Ready ps d m) (low : lo ≤ 0x7FC) (top : 0x800 ≤ hi) :
    Acted ps d (Between lo hi) m (jumpToUsermode m d).2 := by
  have acted := ready.mapFresh_acted (p := 0x7FC) (n := 4) forUsers_userRw (by omega)
  exact acted.mono fun q range => ⟨by have := range.1; omega, by have := range.2; omega⟩

end Calls

end GinnOS.Memory
