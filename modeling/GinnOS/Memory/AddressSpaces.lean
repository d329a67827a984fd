import GinnOS.Memory.KernelMap

/-! # Directories behave like independent maps

A run clones directories of the kernel and maps pages in them, in any order, while other code
takes pages from the PMM and writes them.  Each directory then translates an address as the
last mapping of its page in that directory says, and as the kernel directory does where there
was none (`page_tables_refine_maps`).
-/

namespace GinnOS.Memory

open Lib Lib.Buf List

/-- The machine with the directories that were cloned and the pages that were handed out. -/
structure Spaces where
  machine : Machine
  dirs : List Nat
  pages : List Nat

inductive SpaceOp where
  /-- `paging_clone_directory` -/
  | clone
  /-- `pmm_alloc_page` -/
  | alloc
  /-- the page in frame `f` is overwritten -/
  | write (f : Nat) (bytes : Buf)
  /-- `paging_map_in` -/
  | map (d : Nat) (virt phys flags : UInt32)

inductive SpaceAns where
  | frame (f : Option Nat)
  | mapped (ok : Bool)
  | done

namespace Spaces

def step (s : Spaces) : SpaceOp → SpaceAns × Spaces
  | .clone =>
    let (pd, m) := pagingCloneDirectory s.machine
    (.frame pd, { s with machine := m, dirs := pd.toList ++ s.dirs })
  | .alloc =>
    let (f, m) := allocPage s.machine
    (.frame f, { s with machine := m, pages := f.toList ++ s.pages })
  | .write f bytes =>
    let m := s.machine.touch f
    (.done, { s with machine := { m with mem := splice m.mem (4096 * f) 4096 bytes } })
  | .map d virt phys flags =>
    let (ok, m) := pagingMapIn s.machine d virt.toNat phys.toNat flags.toNat
    (.mapped ok, { s with machine := m })

/-- Pages are mapped for users, and only pages are overwritten. -/
def Allowed (s : Spaces) : SpaceOp → Prop
  | .clone => True
  | .alloc => True
  | .write f _ => f ∈ s.pages
  | .map d _ _ flags => d ∈ s.dirs ∧ isPresent flags.toNat = true ∧ isUser flags.toNat = true

/-- `paging_get_physical_in`. -/
def translate (s : Spaces) (pd : Nat) (virt : UInt32) : Nat := pagingGetPhysicalIn s.machine.mem pd virt.toNat

structure Ok (s : Spaces) : Prop where
  tables : Tables s.machine s.dirs
  marked : Marked s.machine s.dirs
  pages : ∀ f ∈ s.pages, Loose s.machine s.dirs f

end Spaces

/-- The frame that an operation, with its answer, gave to page `p` of directory `d`. -/
def SpaceOp.maps (op : SpaceOp) (ans : SpaceAns) (d p : Nat) : Option Nat :=
  match op, ans with
  | .map d' virt phys _, .mapped true => if d' = d ∧ virt.toNat / 4096 = p then some (phys.toNat / 4096) else none
  | _, _ => none

/-- The frame that the last successful mapping of page `p` in directory `d` gave it. -/
def lastMapped (d p : Nat) : List (SpaceOp × SpaceAns) → Option Nat
  | [] => none
  | (op, ans) :: trace => (lastMapped d p trace).or (op.maps ans d p)

/-- The directory a call of `paging_map_in` changes: none if it returned false. -/
def SpaceOp.target (op : SpaceOp) (ans : SpaceAns) : Option Nat :=
  match op, ans with
  | .map d _ _ _, .mapped true => some d
  | _, _ => none

variable {s s' : Spaces} {op : SpaceOp} {ans : SpaceAns}

/-- What one operation does to the translations. -/
structure Spaces.Stepped (s s' : Spaces) (op : SpaceOp) (ans : SpaceAns) : Prop where
  ok : s'.Ok
  kernel : s'.machine.kernelDirectory = s.machine.kernelDirectory
  dirs : ∀ d ∈ s.dirs, d ∈ s'.dirs
  others : ∀ a ∈ s.machine.kernelDirectory :: s.dirs, op.target ans ≠ some a →
    ∀ virt, s'.translate a virt = s.translate a virt
  translated : ∀ d ∈ s'.dirs, ∀ virt : UInt32, s'.translate d virt =
    match op.maps ans d (virt.toNat / 4096) with
    | some f => 4096 * f + virt.toNat % 4096
    | none => s.translate (if d ∈ s.dirs then d else s.machine.kernelDirectory) virt

theorem Spaces.Stepped.of_view (ok : s'.Ok) (kernel : s'.machine.kernelDirectory = s.machine.kernelDirectory)
    (dirs : s'.dirs = s.dirs) (nothing : ∀ d p, op.maps ans d p = none)
    (same : ∀ a ∈ s.machine.kernelDirectory :: s.dirs, ∀ virt, s'.translate a virt = s.translate a virt) :
    s.Stepped s' op ans := by
  refine ⟨ok, kernel, fun d member => by rw [dirs]; exact member, fun a member _ => same a member,
    fun d member virt => ?_⟩
  rw [dirs] at member
  simp only [nothing, if_pos member]
  exact same d (mem_cons_of_mem _ member) virt

theorem Spaces.Ok.clone (ok : s.Ok) (stepped : s.step .clone = (ans, s')) : s.Stepped s' .clone ans := by
  simp only [Spaces.step] at stepped
  rcases pagingCloneDirectory_cases ok.tables ok.marked with ⟨pd, m', made, cloned⟩ | ⟨failed, _⟩
  · rw [made] at stepped
    cases stepped
    refine ⟨⟨cloned.tables, cloned.marked, fun f member => (ok.pages f member).cloned ok.tables cloned⟩,
      cloned.noted.kernel, fun d => mem_cons_of_mem _,
      fun a member _ virt => cloned.view.translation member virt.toNat_lt, fun d member virt => ?_⟩
    simp only [SpaceOp.maps, Spaces.translate]
    split
    · next old => exact cloned.view.translation (mem_cons_of_mem _ old) virt.toNat_lt
    · next notOld =>
      obtain rfl : d = pd := (mem_cons.mp member).resolve_right notOld
      rw [pagingGetPhysicalIn_eq _ _ virt.toNat_lt, pagingGetPhysicalIn_eq _ _ virt.toNat_lt,
        cloned.pte (by have := virt.toNat_lt; omega)]
  · rw [failed] at stepped
    cases stepped
    exact .of_view ok rfl rfl (fun _ _ => rfl) fun _ _ _ => rfl

theorem Spaces.Ok.alloc (ok : s.Ok) (stepped : s.step .alloc = (ans, s')) : s.Stepped s' .alloc ans := by
  simp only [Spaces.step] at stepped
  cases allocated : allocPage s.machine with
  | mk r m' =>
    rw [allocated] at stepped
    cases stepped
    have same := Undisturbed.alloc ok.tables ok.marked allocated
    refine .of_view ⟨same.tables, same.marked, fun g member => ?_⟩ same.kernel rfl (fun _ _ => rfl)
      fun a inList virt => same.view.translation inList virt.toNat_lt
    rcases mem_append.mp member with fresh | before
    · rw [Option.mem_toList] at fresh
      cases fresh
      exact (ok.tables.alloc allocated).2
    · exact same.loose g (ok.pages g before)

theorem Spaces.Ok.write (ok : s.Ok) {f : Nat} (isPage : f ∈ s.pages) (bytes : Buf)
    (stepped : s.step (.write f bytes) = (ans, s')) : s.Stepped s' (.write f bytes) ans := by
  cases stepped
  have written : Undisturbed s.dirs s.machine
      { s.machine with mem := splice s.machine.mem (4096 * f) 4096 bytes } :=
    (ok.pages f isPage).overwrite ok.tables ok.marked fun g other => sameFrame_splice s.machine.mem other
  have noted : Undisturbed s.dirs s.machine { s.machine.touch f with mem := splice s.machine.mem (4096 * f) 4096 bytes } :=
    written.congr rfl rfl rfl rfl rfl
  exact .of_view ⟨noted.tables, noted.marked, fun g member => noted.loose g (ok.pages g member)⟩ rfl rfl
    (fun _ _ => rfl) fun a member virt => noted.view.translation member virt.toNat_lt

theorem Spaces.Ok.map (ok : s.Ok) {d : Nat} {virt phys flags : UInt32} (member : d ∈ s.dirs)
    (isThere : isPresent flags.toNat = true) (userFlag : isUser flags.toNat = true)
    (stepped : s.step (.map d virt phys flags) = (ans, s')) : s.Stepped s' (.map d virt phys flags) ans := by
  have page : virt.toNat / 4096 < 1048576 := by
    have := virt.toNat_lt
    omega
  simp only [Spaces.step] at stepped
  rcases pagingMapIn_cases ok.tables ok.marked member virt.toNat_lt userFlag phys.toNat_lt with
    ⟨m', made, mapped⟩ | ⟨m', failed, none⟩
  · rw [made] at stepped
    cases stepped
    have notKernel := ok.tables.kernel_ne member
    have translate {a : Nat} (inList : a ∈ s.machine.kernelDirectory :: s.dirs) (v : UInt32) :=
      mapped.view a inList (v.toNat / 4096) (by have := v.toNat_lt; omega)
    refine ⟨⟨mapped.tables, mapped.marked, fun f isPage => (ok.pages f isPage).mapped mapped page member notKernel⟩,
      mapped.noted.kernel, fun _ => id, fun a inList other v => ?_, fun a inList v => ?_⟩
    · have notHere : ¬ (a = d ∧ v.toNat / 4096 = virt.toNat / 4096) := by
        rintro ⟨rfl, _⟩
        exact other rfl
      simp only [Spaces.translate]
      rw [pagingGetPhysicalIn_eq _ _ v.toNat_lt, pagingGetPhysicalIn_eq _ _ v.toNat_lt, translate inList, if_neg notHere]
    · have entry := translate (mem_cons_of_mem _ inList) v
      have old : a ∈ s.dirs := inList
      simp only [SpaceOp.maps, if_pos old, Spaces.translate]
      rw [pagingGetPhysicalIn_eq _ _ v.toNat_lt, pagingGetPhysicalIn_eq _ _ v.toNat_lt]
      by_cases here : a = d ∧ v.toNat / 4096 = virt.toNat / 4096
      · rw [if_pos here] at entry
        rw [entry, isPresent_pageEntry, if_pos isThere, pageFrame_pageEntry, if_pos ⟨here.1.symm, here.2.symm⟩]
      · rw [if_neg here] at entry
        have elsewhere : ¬ (d = a ∧ virt.toNat / 4096 = v.toNat / 4096) := fun both => here ⟨both.1.symm, both.2.symm⟩
        rw [entry, if_neg elsewhere]
  · rw [failed] at stepped
    cases stepped
    have same := none.undisturbed ok.tables ok.marked
    exact .of_view ⟨same.tables, same.marked, fun f isPage => same.loose f (ok.pages f isPage)⟩ same.kernel rfl
      (fun _ _ => rfl) fun a inList v => same.view.translation inList v.toNat_lt

theorem Spaces.Ok.not_kernel (ok : s.Ok) (allowed : s.Allowed op) :
    op.target ans ≠ some s.machine.kernelDirectory := by
  intro isKernel
  cases op with
  | clone => cases isKernel
  | alloc => cases isKernel
  | write f bytes => cases isKernel
  | map d virt phys flags =>
    rcases ans with f | (_ | _) | _ <;> cases isKernel
    exact ok.tables.kernel_ne allowed.1 rfl

theorem Spaces.Allowed.maps_none (allowed : s.Allowed op) {d : Nat} (p : Nat) (missing : d ∉ s.dirs) :
    op.maps ans d p = none := by
  cases op with
  | clone => rfl
  | alloc => rfl
  | write f bytes => rfl
  | map d' virt phys flags =>
    rcases ans with f | (_ | _) | _
    · rfl
    · rfl
    · refine if_neg fun same => missing ?_
      rw [← same.1]
      exact allowed.1
    · rfl

theorem Spaces.Ok.step (ok : s.Ok) (allowed : s.Allowed op) (stepped : s.step op = (ans, s')) :
    s.Stepped s' op ans := by
  cases op with
  | clone => exact ok.clone stepped
  | alloc => exact ok.alloc stepped
  | write f bytes => exact ok.write allowed bytes stepped
  | map d virt phys flags => exact ok.map allowed.1 allowed.2.1 allowed.2.2 stepped

/-- The translation after a run, in the terms of its start: directories made later begin as the
kernel's. -/
theorem Spaces.Ok.run {trace : List (SpaceOp × SpaceAns)} (ok : s.Ok)
    (run : Run Spaces.step Spaces.Allowed s trace s') :
    s'.Ok ∧ s'.machine.kernelDirectory = s.machine.kernelDirectory ∧
      (∀ virt, s'.translate s.machine.kernelDirectory virt = s.translate s.machine.kernelDirectory virt) ∧
      ∀ d ∈ s'.dirs, ∀ virt : UInt32, s'.translate d virt =
        match lastMapped d (virt.toNat / 4096) trace with
        | some f => 4096 * f + virt.toNat % 4096
        | none => s.translate (if d ∈ s.dirs then d else s.machine.kernelDirectory) virt := by
  induction run with
  | nil s =>
    refine ⟨ok, rfl, fun _ => rfl, fun d member virt => ?_⟩
    simp only [lastMapped, if_pos member]
  | @cons s s₁ s' op ans trace allowed stepped rest ih =>
    have one := ok.step allowed stepped
    obtain ⟨ok', kernel, sameKernel, translated⟩ := ih one.ok
    rw [one.kernel] at kernel sameKernel translated
    have stays := one.others _ mem_cons_self (ok.not_kernel allowed)
    refine ⟨ok', kernel, fun virt => (sameKernel virt).trans (stays virt), fun d member virt => ?_⟩
    rw [translated d member virt, lastMapped]
    cases lastMapped d (virt.toNat / 4096) trace with
    | some f => rfl
    | none =>
      simp only [Option.none_or]
      by_cases made : d ∈ s₁.dirs
      · rw [if_pos made]
        exact one.translated d made virt
      · have notOld : d ∉ s.dirs := fun old => made (one.dirs d old)
        rw [if_neg made, stays virt, allowed.maps_none _ notOld]
        simp only [if_neg notOld]

/-- Page tables refine per-process maps. -/
theorem page_tables_refine_maps {image : KernelImage} {stage2 : Nat × Nat} {regions : List MemoryRegion} {mem : Buf}
    {framebuffer : Option (Nat × Nat)} {m : Machine} (started : boot image stage2 regions mem framebuffer = some m)
    {trace : List (SpaceOp × SpaceAns)} (run : Run Spaces.step Spaces.Allowed ⟨m, [], []⟩ trace s) :
    (∀ d ∈ s.dirs, ∀ virt : UInt32, s.translate d virt =
      match lastMapped d (virt.toNat / 4096) trace with
      | some f => 4096 * f + virt.toNat % 4096
      | none => s.translate s.machine.kernelDirectory virt) ∧
    ∀ op ans s', s.Allowed op → s.step op = (ans, s') →
      ∀ a ∈ s.machine.kernelDirectory :: s.dirs, op.target ans ≠ some a →
        ∀ virt, s'.translate a virt = s.translate a virt := by
  have start : Spaces.Ok ⟨m, [], []⟩ := ⟨(boot_booted started).tables, nofun, nofun⟩
  obtain ⟨ok, kernel, sameKernel, translated⟩ := start.run run
  refine ⟨fun d member virt => ?_, fun op ans s' allowed stepped => (ok.step allowed stepped).others⟩
  rw [translated d member virt, if_neg not_mem_nil, kernel, sameKernel virt]

/-! ### Two directories -/

instance (s : Spaces) (op : SpaceOp) : Decidable (s.Allowed op) := by
  cases op <;> dsimp only [Spaces.Allowed] <;> infer_instance

/-- One mebibyte of RAM without a framebuffer. -/
def sampleBoot : Option Machine := boot sampleImage (32768, 65536) sampleRegions (fun _ => 0) none

theorem sampleBoot_isSome : sampleBoot.isSome = true := by decide +kernel

def sampleMachine : Machine := sampleBoot.get sampleBoot_isSome

/-- Two directories map the same page of the identity map, one of them also a page beyond it. -/
def sampleMappings : List SpaceOp :=
  [.clone, .alloc, .clone, .write 4 fun _ => 255, .map 3 8192 16384 7, .map 5 8192 4244635648 7, .map 3 8388608 16384 5]

/-- The run over them: its trace and its last state. -/
def sampleSpaces : List (SpaceOp × SpaceAns) × Spaces := execute Spaces.step ⟨sampleMachine, [], []⟩ sampleMappings

theorem page_tables_refine_maps_sample :
    lastMapped 3 2 sampleSpaces.1 = some 4 ∧ sampleSpaces.2.dirs = [5, 3] ∧
    ∀ d ∈ sampleSpaces.2.dirs, ∀ virt : UInt32, sampleSpaces.2.translate d virt =
      match lastMapped d (virt.toNat / 4096) sampleSpaces.1 with
      | some f => 4096 * f + virt.toNat % 4096
      | none => sampleSpaces.2.translate sampleSpaces.2.machine.kernelDirectory virt := by
  have allowed : AllAllowed Spaces.step Spaces.Allowed ⟨sampleMachine, [], []⟩ sampleMappings := by decide +kernel
  have run : Run Spaces.step Spaces.Allowed ⟨sampleMachine, [], []⟩ sampleSpaces.1 sampleSpaces.2 :=
    Run.of_execute _ allowed
  have started : boot sampleImage (32768, 65536) sampleRegions (fun _ => 0) none = some sampleMachine :=
    (Option.some_get sampleBoot_isSome).symm
  exact ⟨by decide +kernel, by decide +kernel, (page_tables_refine_maps started run).1⟩

end GinnOS.Memory
