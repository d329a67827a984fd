import GinnOS.Memory.UserMemory

/-! # The break

A program stores into its memory and calls `sbrk` and anonymous `mmap`.  `sys_sbrk` backs whole pages from
the one of the old break on, whether that one has a frame or not.  So the bytes below the
break survive a call if the break is at the start of a page; if it is not, those on its page are
lost (`sbrk_clears_partial_page`).
-/

namespace GinnOS.Memory

open Lib Lib.Buf

inductive UserOp where
  | sbrk (increment : UInt32)
  /-- `mmap` with `MAP_ANONYMOUS` -/
  | mmap (length prot offset : UInt32)
  | store (virt : Nat) (value : UInt8)

/-- A process that runs, on the machine. -/
structure Running where
  machine : Machine
  proc : Process

namespace Running

def step (r : Running) : UserOp → Option Nat × Running
  | .sbrk increment =>
    let (ans, proc, machine) := sysSbrk r.machine r.proc increment
    (ans, ⟨machine, proc⟩)
  | .mmap length prot offset =>
    let (ans, proc, machine) := sysMmap r.machine r.proc none length prot 4 offset
    (ans, ⟨machine, proc⟩)
  | .store virt value => (none, { r with machine := poke r.machine r.proc.pageDirectory virt value })

/-- What the program reads. -/
def reads (r : Running) (virt : Nat) : Option UInt8 := peek r.machine.mem r.proc.pageDirectory virt

/-- The state between operations: `ps` are the stacks and directories of all processes. -/
structure Ok (r : Running) (ps : List (Nat × Nat)) : Prop where
  held : Held r.machine ps
  member : r.proc.pageDirectory ∈ dirs ps
  aligned : r.machine.start % 4096 = 0 ∧ r.machine.stop % 4096 = 0
  proc : r.proc.Ok 0

variable {r r' : Running} {ps : List (Nat × Nat)} {ans : Option Nat}

theorem Ok.ready (ok : r.Ok ps) : Ready ps r.proc.pageDirectory r.machine := ⟨ok.held, ok.member, ok.aligned⟩

theorem Ok.called (ok : r.Ok ps) {m' : Machine} {proc' : Process} (called : Called ps 0 1048576 r.machine m' r.proc proc') :
    Ok ⟨m', proc'⟩ ps where
  held := called.acted.held
  member := by
    rw [called.frames.2]
    exact ok.member
  aligned := by
    rw [called.acted.heap.2.1, called.acted.heap.2.2]
    exact ok.aligned
  proc := called.ok

theorem poke_undisturbed {m : Machine} {d : Nat} (held : Held m ps) (member : d ∈ dirs ps) {virt : Nat} (low : virt < 4294967296)
    (value : UInt8) : Undisturbed (dirs ps) m (poke m d virt value) := by
  have nothing := Undisturbed.refl held.tables held.marked
  rw [poke]
  rw [held.userEntry_eq member low]
  split
  · exact nothing
  · next e isEntry =>
    split at isEntry
    · next allowed =>
      cases isEntry
      rw [Bool.and_eq_true] at allowed
      split
      · have kept := held.kept_page member (q := virt / 4096) (by omega) allowed.1 allowed.2
        refine .overwrite (kept.noNode held.tables) held.tables held.marked fun g other x inside => put8_other ?_
        rintro rfl
        exact other (by omega)
      · exact nothing
    · cases isEntry

theorem poke_heap (m : Machine) (d virt : Nat) (value : UInt8) :
    (poke m d virt value).start = m.start ∧ (poke m d virt value).stop = m.stop := by
  rw [poke]
  split
  · exact ⟨rfl, rfl⟩
  · split <;> exact ⟨rfl, rfl⟩

/-- An address of the machine. -/
def Real : UserOp → Prop
  | .store virt _ => virt < 4294967296
  | _ => True

theorem Ok.step {op : UserOp} (ok : r.Ok ps) (real : Real op) : (r.step op).2.Ok ps := by
  cases op with
  | sbrk increment =>
    exact ok.called (ok.ready.sysSbrk_called ok.proc (Nat.le_refl _) (.inr (by omega)))
  | mmap length prot offset =>
    have called : Called ps 0 1048576 r.machine (sysMmap r.machine r.proc none length prot 4 offset).2.2 r.proc
        (sysMmap r.machine r.proc none length prot 4 offset).2.1 :=
      ok.ready.sysMmap_called ok.proc (by decide) (by decide) fun _ _ => nofun
    exact ok.called called
  | store virt value =>
    obtain ⟨start, stop⟩ := poke_heap r.machine r.proc.pageDirectory virt value
    refine ⟨ok.held.undisturbed (poke_undisturbed ok.held ok.member real value), ok.member, ?_, ok.proc⟩
    simp only [Running.step]
    rw [start, stop]
    exact ok.aligned

/-! ## One call of `sbrk` -/

theorem pages_between (start : Nat) {stop : Nat} (fits : stop ≤ 0xFFFFF000) :
    ∃ n, pagesBetween start stop = n ∧ n = (stop + 4095) / 4096 - start / 4096 :=
  ⟨_, rfl, by rw [pagesBetween, pageAlignUp]; omega⟩

/-- `sbrk` does nothing, or it backs the pages up to the new break. -/
theorem step_sbrk_cases (r : Running) (increment : UInt32) (low : r.proc.brk < 4294967296) :
    r.step (.sbrk increment) = (none, r) ∨ (increment = 0 ∧ r.step (.sbrk increment) = (some r.proc.brk, r)) ∨
      (r.proc.brk + increment.toNat < 4294967296 ∧ 0 < increment.toNat ∧ increment.toNat < 2147483648 ∧
        ∃ mapped m, mapFresh r.proc.pageDirectory userRw r.machine (pagesBetween r.proc.brk (r.proc.brk + increment.toNat))
            (4096 * (r.proc.brk / 4096)) = (mapped, m) ∧
          r.step (.sbrk increment) = if mapped then (some r.proc.brk, ⟨m, { r.proc with brk := r.proc.brk + increment.toNat }⟩)
            else (none, ⟨m, r.proc⟩)) := by
  simp only [Running.step, sysSbrk]
  split
  · next zero => exact .inr (.inl ⟨zero, rfl⟩)
  · next nonzero =>
    split
    · exact .inl rfl
    · next positive =>
      have real : increment.toNat ≠ 0 := fun zero => nonzero (UInt32.toNat_inj.mp zero)
      split
      · exact .inl rfl
      · next forward =>
        have sum : (r.proc.brk + increment.toNat) % 4294967296 = r.proc.brk + increment.toNat := by omega
        rw [sum, Nat.mul_comm (r.proc.brk / 4096)]
        right
        right
        refine ⟨by omega, by omega, by omega, ?_⟩
        cases result : mapFresh r.proc.pageDirectory userRw r.machine (pagesBetween r.proc.brk (r.proc.brk + increment.toNat))
          (4096 * (r.proc.brk / 4096)) with
        | mk mapped m => cases mapped <;> exact ⟨_, m, rfl, rfl⟩

theorem Ok.run {trace : List (UserOp × Option Nat)} {Legal : Running → UserOp → Prop} (legal : ∀ r op, Legal r op → Real op)
    (run : Run Running.step Legal r trace r') (start : r.Ok ps) : r'.Ok ps :=
  run.invariant (I := fun r => r.Ok ps) (fun ok allowed stepped => by
    have next := ok.step (legal _ _ allowed)
    rwa [stepped] at next) start

end Running

def sampleStart : List SysOp := [.exec none (some (program 0x400000 16)), .start 0]

def sampleStarted : List (SysOp × Option Nat) × System := execute System.step sampleSystem sampleStart

theorem sampleStarted_process : (sampleStarted.2.process 0).isSome = true := by decide +kernel

def sampleProcess : Process := (sampleStarted.2.process 0).get sampleStarted_process

theorem sampleStarted_run :
    Run System.step (fun s op => s.Allowed 0 0x100000 op) (bootSystem sampleMachine none) sampleStarted.1 sampleStarted.2 := by
  have allowed : AllAllowed System.step (fun s op => s.Allowed 0 0x100000 op) sampleSystem sampleStart := by decide +kernel
  exact Run.of_execute _ allowed

theorem sampleProcess_is : sampleStarted.2.process 0 = some sampleProcess := by rw [sampleProcess, Option.some_get]

end GinnOS.Memory
