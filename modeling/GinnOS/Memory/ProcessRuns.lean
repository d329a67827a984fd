import GinnOS.Memory.AddressSpaces
import GinnOS.Memory.Lifetimes

/-! # Runs of the system

Any number of processes, loaded, started, growing and destroyed in any order, with the heap
used in between.  While each call keeps to the pages from `lo` to `hi`, the frames stay owned
apart, and no directory differs from the kernel's outside these pages (`System.Ok`).
-/

namespace GinnOS.Memory

open Lib Lib.Buf

/-! ## The process table -/

def Slot.frames : Slot → Option (Nat × Nat)
  | .live proc => some (proc.kernelStack, proc.pageDirectory)
  | _ => none

theorem frames_set {slots : List Slot} {i : Nat} {old : Slot} (at_ : slots[i]? = some old) (new : Slot) :
    ∃ before after, slots.filterMap Slot.frames = before ++ (old.frames.toList ++ after) ∧
      (slots.set i new).filterMap Slot.frames = before ++ (new.frames.toList ++ after) := by
  obtain ⟨bound, is⟩ := List.getElem?_eq_some_iff.mp at_
  have whole : slots = slots.take i ++ old :: slots.drop (i + 1) := by
    rw [← is, List.cons_getElem_drop_succ, List.take_append_drop]
  have one (slot : Slot) (rest : List Slot) :
      (slot :: rest).filterMap Slot.frames = slot.frames.toList ++ rest.filterMap Slot.frames := by
    cases h : slot.frames <;> simp [h]
  refine ⟨(slots.take i).filterMap Slot.frames, (slots.drop (i + 1)).filterMap Slot.frames, ?_, ?_⟩
  · rw [← one, ← List.filterMap_append, ← whole]
  · rw [← one, ← List.filterMap_append, List.set_eq_take_append_cons_drop, if_pos bound]

namespace System

variable {s s' : System} {i j : Nat} {proc : Process} {m : Machine}

def frames (s : System) : List (Nat × Nat) := s.slots.filterMap Slot.frames

theorem slot_of_process (is : s.process i = some proc) : s.slots[i]? = some (.live proc) := by
  simp only [process] at is
  split at is
  · next at_ =>
    cases is
    exact at_
  · cases is

theorem mem_frames (is : s.process i = some proc) : (proc.kernelStack, proc.pageDirectory) ∈ s.frames :=
  List.mem_filterMap.mpr ⟨.live proc, List.mem_of_getElem? (slot_of_process is), rfl⟩

theorem mem_dirs (is : s.process i = some proc) : proc.pageDirectory ∈ dirs s.frames :=
  List.mem_map.mpr ⟨_, mem_frames is, rfl⟩

theorem slot_eq {other : Process} (nodup : (dirs s.frames).Nodup) (is : s.process i = some proc) (isOther : s.process j = some other)
    (same : other.pageDirectory = proc.pageDirectory) : j = i := by
  by_contra apart
  obtain ⟨before, after, old, new⟩ := frames_set (slot_of_process is) .unused
  -- without the one slot, the directory is still that of the other
  have still : (other.kernelStack, other.pageDirectory) ∈ (s.slots.set i .unused).filterMap Slot.frames :=
    List.mem_filterMap.mpr ⟨.live other, List.mem_of_getElem? ((List.getElem?_set_ne (Ne.symm apart)).trans (slot_of_process isOther)), rfl⟩
  rw [new, same] at still
  rw [dirs, frames, old, List.map_append] at nodup
  refine (List.nodup_cons.mp (List.nodup_middle.mp nodup)).1 ?_
  rw [← List.map_append]
  exact List.mem_map.mpr ⟨_, still, rfl⟩

theorem process_set {slots : List Slot} {new : Slot} {other : Process}
    (is : System.process { s with slots := slots.set i new } j = some other) :
    (j = i ∧ new = .live other) ∨ System.process { s with slots := slots } j = some other := by
  have at_ := slot_of_process is
  simp only [List.getElem?_set] at at_
  split at at_
  · next same =>
    split at at_
    · cases at_
      exact .inl ⟨same.symm, rfl⟩
    · cases at_
  · right
    simp only [process, at_]

theorem unused_of_find {slots : List Slot} (found : slots.findIdx? Slot.isUnused = some i) :
    slots[i]? = some .unused := by
  obtain ⟨bound, isUnused, _⟩ := List.findIdx?_eq_some_iff_getElem.mp found
  rw [List.getElem?_eq_getElem bound]
  cases slot : slots[i] with
  | unused => rfl
  | lost => simp [slot, Slot.isUnused] at isUnused
  | live p => simp [slot, Slot.isUnused] at isUnused

theorem process_setProcess {old : Slot} (at_ : s.slots[i]? = some old) : (s.setProcess i proc m).process i = some proc := by
  obtain ⟨bound, _⟩ := List.getElem?_eq_some_iff.mp at_
  simp only [process, setProcess, List.getElem?_set_self bound]

theorem under_eq (s : System) (caller : Option Nat) :
    ∃ a ∈ s.machine.kernelDirectory :: dirs s.frames, s.under caller = pagingSwitchDirectory s.machine a := by
  simp only [under]
  split
  · exact ⟨_, List.mem_cons_self, rfl⟩
  · next proc is =>
    obtain ⟨i, _, is⟩ := Option.bind_eq_some_iff.mp is
    exact ⟨_, List.mem_cons_of_mem _ (mem_dirs is), rfl⟩

/-! ## What every call keeps -/

/-- The pages that a call may map are between `lo` and `hi`, and there are frames for a program
to be loaded. -/
def Sound (s : System) (lo hi : Nat) : SysOp → Prop
  | .exec _ file => ∀ f ∈ file, f.Fits lo hi (s.machine.pmm.freeCount - 2)
  | .sbrk i increment => ∀ proc ∈ s.process i,
      2147483648 ≤ increment.toNat ∨ (proc.brk + increment.toNat) % 4294967296 ≤ 4096 * hi
  | .mmap _ isDevice _ _ flags _ => isDevice = true → flags.toNat / 4 % 2 ≠ 1 →
      ∀ fb ∈ s.framebuffer, OutsideRam s.machine.pmm.totalPages fb
  | _ => True

/-- The state between calls. -/
structure Ok (s : System) (total lo hi : Nat) : Prop where
  sane : Sane total lo hi s.machine s.frames s.held
  procs : ∀ i proc, s.process i = some proc → proc.Ok lo

namespace Ok

variable {total lo hi : Nat} {proc' : Process} {m' : Machine} {ans : Option Nat}

theorem under (ok : s.Ok total lo hi) (caller : Option Nat) : Sane total lo hi (s.under caller) s.frames s.held ∧
    (s.under caller).active ∈ (s.under caller).kernelDirectory :: dirs s.frames := by
  obtain ⟨a, member, is⟩ := s.under_eq caller
  rw [is]
  exact ⟨ok.sane.switch a, member⟩

/-- A call of the process in slot `i`. -/
theorem called (ok : s.Ok total lo hi) (is : s.process i = some proc)
    (called : Called s.frames lo hi (s.under (some i)) m' proc proc') : (s.setProcess i proc' m').Ok total lo hi := by
  obtain ⟨sane, active⟩ := ok.under (some i)
  have frames : (s.setProcess i proc' m').frames = s.frames := by
    obtain ⟨before, after, old, new⟩ := frames_set (slot_of_process is) (.live proc')
    simp only [System.frames, setProcess]
    rw [new, old, Slot.frames, Slot.frames, called.frames.1, called.frames.2]
  refine ⟨?_, fun j other isOther => ?_⟩
  · rw [frames]
    exact sane.acted active called.acted fun _ => id
  · rcases process_set isOther with ⟨_, same⟩ | old
    · cases same
      exact called.ok
    · exact ok.procs j other old

theorem machine (ok : s.Ok total lo hi) (sane : Sane total lo hi m s.frames s.held) : Ok { s with machine := m } total lo hi :=
  ⟨sane, ok.procs⟩

theorem panic (ok : s.Ok total lo hi) (sane : Sane total lo hi m s.frames s.held) : (s.panic m).2.Ok total lo hi := ⟨sane, ok.procs⟩

theorem destroy (ok : s.Ok total lo hi) (caller : Option Nat) (i : Nat) : (s.step (.destroy caller i)).2.Ok total lo hi := by
  simp only [System.step]
  split
  · exact ok
  · next proc is =>
    obtain ⟨sane, active⟩ := ok.under caller
    obtain ⟨before, after, old, new⟩ := frames_set (slot_of_process is) .unused
    have perm : ((proc.kernelStack, proc.pageDirectory) :: (before ++ after)).Perm s.frames := by
      rw [System.frames, old]
      exact List.perm_middle.symm
    have sane := sane.perm perm
    obtain ⟨m, ran, freed⟩ := sane.held.processDestroy_freed List.mem_cons_self
    rw [ran]
    refine ⟨?_, fun j other isOther => ?_⟩
    · have rest := sane.destroyed (by
        rcases List.mem_cons.mp active with kernel | inList
        · exact List.mem_cons.mpr (.inl kernel)
        · exact List.mem_cons_of_mem _ ((perm.map Prod.snd).mem_iff.mpr inList)) freed
      simp only [System.frames, new]
      exact rest
    · rcases process_set isOther with ⟨_, same⟩ | old
      · cases same
      · exact ok.procs j other old

theorem frames_created (unused : s.slots[i]? = some .unused) :
    (s.setProcess i proc m).frames.Perm ((proc.kernelStack, proc.pageDirectory) :: s.frames) := by
  obtain ⟨before, after, old, new⟩ := frames_set unused (.live proc)
  simp only [System.frames, setProcess]
  rw [new, old]
  exact List.perm_middle

/-- The process in slot `i` is new. -/
theorem created (ok : s.Ok total lo hi) (unused : s.slots[i]? = some .unused) (isOk : proc.Ok lo)
    (sane : Sane total lo hi m ((proc.kernelStack, proc.pageDirectory) :: s.frames) s.held) :
    (s.setProcess i proc m).Ok total lo hi := by
  refine ⟨sane.perm (frames_created unused), fun j other isOther => ?_⟩
  · rcases process_set isOther with ⟨_, same⟩ | old
    · cases same
      exact isOk
    · exact ok.procs j other old

theorem exec (ok : s.Ok total lo hi) (caller : Option Nat) (file : Option ElfFile) (sound : s.Sound lo hi (.exec caller file)) :
    (s.exec caller file).2.Ok total lo hi := by
  obtain ⟨sane, active⟩ := ok.under caller
  have free : (s.under caller).pmm = s.machine.pmm := by
    obtain ⟨a, _, is⟩ := s.under_eq caller
    rw [is]
    rfl
  simp only [System.exec]
  split
  · exact ok.machine sane
  · next i found =>
    have unused := unused_of_find found
    rcases sane.held.processCreate_cases (d := 0) (P := fun _ => False) sane.heap.aligned with
      ⟨proc, m, made, created⟩ | ⟨_, m, failed, acted⟩
    · rw [made]
      have count := created.took.freeCount sane.held.tables.pmm created.held.tables.pmm
      have sane₁ := sane.created active created
      simp only [List.length_cons, List.length_nil, free] at count
      obtain ⟨result, m₁, loaded, evolved, heap, brk⟩ := (sane₁.ready List.mem_cons_self).elfLoad sane₁.heap file
        fun f isFile => by
          rw [show m.pmm.freeCount = s.machine.pmm.freeCount - 2 by omega]
          exact sound f isFile
      have active₁ : m.active ∈ m.kernelDirectory :: dirs ((proc.kernelStack, proc.pageDirectory) :: s.frames) := by
        rw [created.noted.active, created.noted.kernel]
        rcases List.mem_cons.mp active with kernel | inList
        · exact List.mem_cons.mpr (.inl kernel)
        · exact List.mem_cons_of_mem _ (List.mem_cons_of_mem _ inList)
      have sane₂ := sane₁.evolved active₁ evolved (fun _ => id) heap
      simp only [loaded]
      cases result with
      | none =>
        obtain ⟨m₂, destroyed, freed⟩ := sane₂.held.processDestroy_freed List.mem_cons_self
        simp only [destroyed]
        refine ok.machine (sane₂.destroyed ?_ freed)
        rw [evolved.active, evolved.kernel]
        exact active₁
      | some elf =>
        obtain ⟨lower, upper⟩ := brk elf rfl
        have cursor : proc.mmapNext = 0x50000000 := by rw [created.fields]
        refine ok.created unused ⟨⟨lower, ?_⟩, ?_⟩ sane₂
        · simp only
          omega
        · simp only [cursor]
          decide
    · rw [failed]
      obtain ⟨before, after, old, new⟩ := frames_set unused .lost
      have frames : System.frames { s with machine := m, slots := s.slots.set i .lost } = s.frames := by
        simp only [System.frames]
        rw [new, old]
        rfl
      refine ⟨?_, fun j other isOther => ?_⟩
      · rw [frames]
        exact sane.acted active acted nofun
      · rcases process_set isOther with ⟨_, same⟩ | old
        · cases same
        · exact ok.procs j other old

theorem kmalloc (ok : s.Ok total lo hi) (size : UInt32) : (s.step (.kmalloc size)).2.Ok total lo hi := by
  obtain ⟨ptr, h, ran, grown, holds⟩ := ok.sane.heap.grant size
  simp only [System.step, ran]
  exact ⟨ok.sane.grown grown holds, ok.procs⟩

theorem kfree (ok : s.Ok total lo hi) {ptr : Nat} (live : ptr ∈ s.held) : (s.step (.kfree ptr)).2.Ok total lo hi := by
  obtain ⟨h, ran, grown, holds⟩ := ok.sane.heap.release live
  simp only [System.step, ran]
  exact ⟨ok.sane.grown grown holds, ok.procs⟩

theorem step {op : SysOp} (ok : s.Ok total lo hi) (low : lo ≤ 0x7FC) (high : 0xB0001 ≤ hi) (top : hi ≤ 1048576)
    (possible : s.Possible op) (sound : s.Sound lo hi op) (stepped : s.step op = (ans, s')) : s'.Ok total lo hi := by
  obtain rfl : (s.step op).2 = s' := congrArg Prod.snd stepped
  cases op with
  | exec caller file => exact ok.exec caller file sound
  | destroy caller i => exact ok.destroy caller i
  | kmalloc size => exact ok.kmalloc size
  | kfree ptr => exact ok.kfree possible
  | start i =>
    simp only [System.step]
    split
    · exact ok
    · next proc is =>
      obtain ⟨sane, active⟩ := ok.under (some i)
      have acted := (sane.ready (mem_dirs is)).jumpToUsermode_acted low (by omega : 0x800 ≤ hi)
      generalize jumpToUsermode (s.under (some i)) proc.pageDirectory = result at acted ⊢
      obtain ⟨mapped, m⟩ := result
      cases mapped with
      | false => exact ok.panic (sane.acted active acted fun _ => id)
      | true =>
        have procOk := ok.procs i proc is
        exact ok.called is ⟨acted, ⟨procOk.brk, procOk.cursor⟩, rfl, rfl⟩
  | sbrk i increment =>
    simp only [System.step]
    split
    · exact ok
    · next proc is =>
      obtain ⟨sane, _⟩ := ok.under (some i)
      exact ok.called is ((sane.ready (mem_dirs is)).sysSbrk_called (ok.procs i proc is) top (sound proc is))
  | mmap i isDevice length prot flags offset =>
    simp only [System.step]
    split
    · exact ok
    · next proc is =>
      obtain ⟨sane, _⟩ := ok.under (some i)
      have pages : (s.under (some i)).pmm.totalPages = s.machine.pmm.totalPages := by
        obtain ⟨a, _, isUnder⟩ := s.under_eq (some i)
        rw [isUnder]
        rfl
      refine ok.called is ((sane.ready (mem_dirs is)).sysMmap_called (ok.procs i proc is) (by omega) high
        fun mapped fb isFb => ?_)
      rw [pages]
      split at isFb
      · next device => exact sound device mapped fb isFb
      · cases isFb

theorem boot (booted : Booted m) (framebuffer : Option (Nat × Nat)) (low : lo ≤ 0x7FC) :
    (bootSystem m framebuffer).Ok m.pmm.totalPages lo hi := by
  have unused {u : Use} {f : Nat} (use : UseAt m [] u f) : False := by
    cases u with
    | stack d => cases use
    | page d p => cases use.1
  have held : Held m [] := ⟨booted.tables, nofun, booted.supervisor, .nil, fun use => (unused use).elim,
    fun use => (unused use).elim⟩
  refine ⟨⟨held, ⟨_, booted.heap, .nil⟩, nofun, rfl, fun behind => booted.ram ?_, fun _ => ?_⟩, fun i proc is => ?_⟩
  · omega
  · intro note noted
    rw [show (bootSystem m framebuffer).machine.log = [] from booted.log] at noted
    cases noted
  · have slot := List.mem_of_getElem? (slot_of_process is)
    cases List.eq_of_mem_replicate slot

end Ok

/-! ## Runs -/

/-- The kernel runs, and the call can happen. -/
def Allowed (s : System) (lo hi : Nat) (op : SysOp) : Prop := s.running = true ∧ s.Possible op ∧ s.Sound lo hi op

theorem Ok.run {lo hi : Nat} {image : KernelImage} {stage2 : Nat × Nat} {regions : List MemoryRegion} {mem : Buf}
    {framebuffer : Option (Nat × Nat)} {trace : List (SysOp × Option Nat)}
    (started : Memory.boot image stage2 regions mem framebuffer = some m) (low : lo ≤ 0x7FC) (high : 0xB0001 ≤ hi)
    (top : hi ≤ 1048576)
    (run : Run System.step (fun s op => s.Allowed lo hi op) (bootSystem m framebuffer) trace s) : s.Ok m.pmm.totalPages lo hi :=
  run.invariant (I := fun s => s.Ok m.pmm.totalPages lo hi) (fun ok allowed stepped => ok.step low high top allowed.2.1 allowed.2.2 stepped)
    (.boot (boot_booted started) framebuffer low)

instance (s : System) (i : Nat) : Decidable (s.Calls i) :=
  decidable_of_iff ((s.process i).any Process.started = true) (by simp [Calls, Option.any_eq_true])

instance (s : System) : ∀ op, Decidable (s.Possible op)
  | .exec caller _ => inferInstanceAs (Decidable (∀ i ∈ caller, s.Calls i))
  | .start i => decidable_of_iff ((s.process i).any (fun p => !p.started) = true) (by simp [Possible, Option.any_eq_true])
  | .sbrk i _ => inferInstanceAs (Decidable (s.Calls i))
  | .mmap i _ _ _ _ _ => inferInstanceAs (Decidable (s.Calls i))
  | .destroy caller i => decidable_of_iff ((s.process i).isSome = true ∧ ∀ j ∈ caller, s.Calls j ∧ j ≠ i)
      (by simp [Possible, Option.isSome_iff_exists])
  | .kmalloc _ => .isTrue trivial
  | .kfree ptr => inferInstanceAs (Decidable (ptr ∈ s.held))

instance (s : System) (lo hi : Nat) (op : SysOp) : Decidable (s.Sound lo hi op) := by
  cases op <;> dsimp only [Sound] <;> infer_instance

instance (s : System) (lo hi : Nat) (op : SysOp) : Decidable (s.Allowed lo hi op) :=
  inferInstanceAs (Decidable (_ ∧ _ ∧ _))

end System

/-! ### Sample programs -/

/-- An executable with one program header, for `memsz` zero bytes at `vaddr`. -/
def programBytes (vaddr memsz : UInt32) : List UInt8 :=
  [0x7F, 0x45, 0x4C, 0x46, 1, 1] ++ List.replicate 10 0 ++ bytes16 2 ++ bytes16 3 ++ bytes32 1 ++ bytes32 vaddr ++
    bytes32 52 ++ List.replicate 10 0 ++ bytes16 32 ++ bytes16 1 ++ List.replicate 6 0 ++
    (bytes32 1 ++ bytes32 0 ++ bytes32 vaddr ++ bytes32 0 ++ bytes32 0 ++ bytes32 memsz ++ bytes32 0 ++ bytes32 0)

def program (vaddr memsz : UInt32) : ElfFile := ⟨84, ofList (programBytes vaddr memsz), 84, by decide⟩

def sampleSystem : System := bootSystem sampleMachine none

/-- A process is loaded and started, and grows. -/
def sampleLives : List SysOp :=
  [.exec none (some (program 0x400000 16)), .start 0, .sbrk 0 100, .mmap 0 false 4096 3 4 0, .kmalloc 100]

def sampleRun : List (SysOp × Option Nat) × System := execute System.step sampleSystem sampleLives

theorem sampleMachine_boot : boot sampleImage (32768, 65536) sampleRegions (fun _ => 0) none = some sampleMachine :=
  (Option.some_get sampleBoot_isSome).symm

/-! ### User space -/

/-- While RAM ends below the user stack and programs are loaded behind its end, every access by
a physical address reaches the frame at that address. -/
theorem identity_map_is_sound {image : KernelImage} {stage2 : Nat × Nat} {regions : List MemoryRegion} {mem : Buf}
    {framebuffer : Option (Nat × Nat)} {m : Machine} {trace : List (SysOp × Option Nat)} {s : System}
    (started : boot image stage2 regions mem framebuffer = some m) (small : m.pmm.totalPages ≤ 0x7FC)
    (run : Run System.step (fun s op => s.Allowed m.pmm.totalPages 0x100000 op) (bootSystem m framebuffer) trace s) :
    Faithful s.machine :=
  (System.Ok.run started small (by decide) (by decide) run).sane.faithful (Nat.le_refl _)

theorem identity_map_is_sound_sample : Faithful sampleRun.2.machine := by
  have small : sampleMachine.pmm.totalPages ≤ 0x7FC := by decide +kernel
  have allowed : AllAllowed System.step (fun s op => s.Allowed sampleMachine.pmm.totalPages 0x100000 op) sampleSystem
      sampleLives := by decide +kernel
  have run : Run System.step (fun s op => s.Allowed sampleMachine.pmm.totalPages 0x100000 op) sampleSystem
      sampleRun.1 sampleRun.2 := Run.of_execute _ allowed
  exact identity_map_is_sound sampleMachine_boot small run

/-- RAM from 0x7F0000 to 0x810000, around the user stack. -/
def highRegions : List MemoryRegion := [⟨0x7F0000, 0x20000, 1⟩]

def highBoot : Option Machine := boot sampleImage (32768, 65536) highRegions (fun _ => 0) none

theorem highBoot_isSome : highBoot.isSome = true := by decide +kernel

def highSystem : System := bootSystem (highBoot.get highBoot_isSome) none

def highLife : List SysOp := [.exec none (some (program 0x900000 16)), .start 0]

def highStarted : System := (execute System.step highSystem highLife).2

/-- The fourth page of the stack gets frame 0x7FC, and clearing it clears the first page, which
is mapped at that address by then. -/
theorem stack_frame_cleared_elsewhere : ∃ trace,
    Run System.step (fun s op => s.running = true ∧ s.Possible op) highSystem trace highStarted ∧
    (0x7FC, 0x7F8000) ∈ highStarted.machine.log ∧ ¬ Faithful highStarted.machine := by
  have astray : (0x7FC, 0x7F8000) ∈ highStarted.machine.log := by decide +kernel
  have allowed : AllAllowed System.step (fun s op => s.running = true ∧ s.Possible op) highSystem highLife := by
    decide +kernel
  refine ⟨_, Run.of_execute _ allowed, astray, fun faithful => ?_⟩
  have reached := faithful _ astray
  revert reached
  decide

end GinnOS.Memory
