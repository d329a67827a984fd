import GinnOS.Lib.Buffer
import GinnOS.Lib.Paths

/-! # Path resolution (`kernel/vfs/vfs_path.c`)

`vfs_resolve_path` puts the current directory and the input into one buffer and normalizes it: it
writes component after component to a second buffer and goes back over them for `..`.  Strings are
lists of bytes without their terminator, the three arrays of the calls are arrays of bytes and
offsets, and an access outside of one of them is a `fault`.

* `Holds size s stack` — the normalized path so far is that of `stack`.
* `resolve_path_meets_spec` — what is returned is the canonical path of the components.
-/

namespace GinnOS.Vfs

open Lib Lib.Buf List Function
open UInt32 (toNat_add toNat_sub_of_le le_iff_toNat_le lt_iff_toNat_lt not_le not_lt toNat_ofNat')

def slash : UInt8 := 47

def dot : UInt8 := 46

/-- `VFS_MAX_PATH_COMPONENTS`. -/
def maxComponents : UInt32 := 128

/-- The call returns false, or accesses an array outside of its bounds. -/
inductive PathFail where
  | refused
  | fault
deriving DecidableEq, Repr

abbrev PathM := Except PathFail

/-- `b[i] = v` for an array of `size` bytes. -/
def store (size : Nat) (b : Buf) (i : UInt32) (v : UInt8) : PathM Buf :=
  if i.toNat < size then .ok (put8 b i.toNat v) else .error .fault

/-- The loops that copy a string to `b[pos++]`. -/
def copyTo (size : Nat) : Buf → UInt32 → List UInt8 → PathM (Buf × UInt32)
  | b, pos, [] => .ok (b, pos)
  | b, pos, c :: cs => do
    let b ← store size b pos c
    copyTo size b (pos + 1) cs

/-- The string from `b[i]` on, for an array of which `n` bytes are left there. -/
def readString (b : Buf) : (n i : Nat) → PathM (List UInt8)
  | 0, _ => .error .fault
  | n + 1, i =>
    if b i = 0 then .ok []
    else do
      let rest ← readString b n (i + 1)
      .ok (b i :: rest)

/-- The variables of `vfs_normalize_absolute_path`. -/
structure Norm where
  output : Buf
  outPos : UInt32
  depth : UInt32
  componentStart : Nat → UInt32

namespace Norm

/-- A `..` component. -/
def up (size : UInt32) (s : Norm) : PathM Norm :=
  if 0 < s.depth then
    if s.depth - 1 < maxComponents then do
      let start := s.componentStart (s.depth - 1).toNat
      let outPos := if 1 < start then start - 1 else start
      let output ← store size.toNat s.output outPos 0
      .ok { s with output := output, outPos := outPos, depth := s.depth - 1 }
    else .error .fault
  else .ok s

/-- The slash in front of a component that is not the first one. -/
def separate (size : UInt32) (s : Norm) : PathM Norm :=
  if 1 < s.outPos then
    if size ≤ s.outPos + 1 then .error .refused
    else do
      let output ← store size.toNat s.output s.outPos slash
      .ok { s with output := output, outPos := s.outPos + 1 }
  else .ok s

/-- The start of the component is remembered. -/
def enter (s : Norm) : PathM Norm :=
  if s.depth < maxComponents then
    .ok { s with
      componentStart := Function.update s.componentStart s.depth.toNat s.outPos
      depth := s.depth + 1 }
  else .error .fault

/-- The bytes of a component and the terminator. -/
def write (size : UInt32) (s : Norm) (component : List UInt8) : PathM Norm :=
  if size < s.outPos + UInt32.ofNat component.length + 1 then .error .refused
  else do
    let (output, outPos) ← copyTo size.toNat s.output s.outPos component
    let output ← store size.toNat output outPos 0
    .ok { s with output := output, outPos := outPos }

/-- A component that is neither `.` nor `..`. -/
def push (size : UInt32) (s : Norm) (component : List UInt8) : PathM Norm :=
  if maxComponents ≤ s.depth then .error .refused
  else do
    let s ← s.separate size
    let s ← s.enter
    s.write size component

/-- One round of the loop, for the component that was found. -/
def process (size : UInt32) (s : Norm) (component : List UInt8) : PathM Norm :=
  if component = [dot] then .ok s
  else if component = [dot, dot] then s.up size
  else s.push size component

/-- The loop over the rest of the input; every round takes at least one byte. -/
def loop (size : UInt32) : (fuel : Nat) → (input : List UInt8) → Norm → PathM Norm
  | 0, _, _ => .error .fault
  | fuel + 1, input, s =>
    let input := input.dropWhile (· == slash)
    if input = [] then .ok s
    else do
      let s ← s.process size (input.takeWhile (· != slash))
      loop size fuel (input.dropWhile (· != slash)) s

end Norm

/-- `vfs_normalize_absolute_path`; `output` and `componentStart` are what the arrays held before. -/
def vfsNormalizeAbsolutePath (size : UInt32) (input : List UInt8) (output : Buf) (componentStart : Nat → UInt32) : PathM Buf :=
  if size < 2 then .error .refused
  else if input.head? ≠ some slash then .error .refused
  else do
    let output ← store size.toNat output 0 slash
    let output ← store size.toNat output 1 0
    let s ← Norm.loop size (input.length + 1) input ⟨output, 1, 0, componentStart⟩
    .ok s.output

structure Locals where
  combined : Buf
  normalized : Buf
  componentStart : Nat → UInt32

/-- `sizeof(combined)` and `sizeof(normalized)`. -/
def bufferSize : UInt32 := 512

/-- `vfs_resolve_path` from the normalization on. -/
def normalizeTo (size : UInt32) (path : List UInt8) (locals : Locals) : PathM (List UInt8) := do
  let normalized ← vfsNormalizeAbsolutePath bufferSize path locals.normalized locals.componentStart
  let output ← readString normalized bufferSize.toNat 0
  if size < UInt32.ofNat output.length + 1 then .error .refused else .ok output

/-- How many slashes of the current directory are skipped. -/
def cwdStart (cwd : List UInt8) : UInt32 :=
  let start := UInt32.ofNat (cwd.takeWhile (· == slash)).length
  if start = UInt32.ofNat cwd.length then UInt32.ofNat cwd.length - 1 else start

/-- The bytes needed for the combined path, in 32 bits. -/
def combinedNeeded (cwd input : List UInt8) : UInt32 :=
  let cwdLen := UInt32.ofNat cwd.length
  let needed := 1 + (cwdLen - cwdStart cwd) + UInt32.ofNat input.length + 1
  if cwdStart cwd < cwdLen ∧ cwd.getLast? ≠ some slash then needed + 1 else needed

/-- A slash behind the current directory, unless it ends with one. -/
def separateInput (combined : Buf) (pos : UInt32) : PathM (Buf × UInt32) :=
  if bufferSize ≤ pos - 1 then .error .fault
  else if combined (pos - 1).toNat ≠ slash then copyTo bufferSize.toNat combined pos [slash]
  else .ok (combined, pos)

/-- The current directory and the input in the buffer `combined`. -/
def combine (cwd input : List UInt8) (combined : Buf) : PathM Buf := do
  let combined ← store bufferSize.toNat combined 0 slash
  let (combined, pos) ← copyTo bufferSize.toNat combined 1 (cwd.drop (cwdStart cwd).toNat)
  let (combined, pos) ← separateInput combined pos
  let (combined, pos) ← copyTo bufferSize.toNat combined pos input
  store bufferSize.toNat combined pos 0

/-- `vfs_resolve_path`: the string that it leaves in `output`. -/
def vfsResolvePath (cwd input : List UInt8) (size : UInt32) (locals : Locals) : PathM (List UInt8) :=
  if size = 0 then .error .refused
  else if input = [] then .error .refused
  else if bufferSize < size then .error .refused
  else if input.head? = some slash then normalizeTo size input locals
  else if UInt32.ofNat cwd.length = 0 then .error .refused
  else if bufferSize < combinedNeeded cwd input then .error .refused
  else do
    let combined ← combine cwd input locals.combined
    let path ← readString combined bufferSize.toNat 0
    normalizeTo size path locals

/-! ## Strings in arrays -/

variable {b b' : Buf} {pos : UInt32} {text : List UInt8} {size : Nat} {s : Norm} {stack : List (List UInt8)}

/-- The array begins with the text, and `pos` is behind it. -/
structure Text (b : Buf) (pos : UInt32) (text : List UInt8) : Prop where
  pos : pos.toNat = text.length
  bytes : ∀ k, k < text.length → text[k]? = some (b k)

namespace Text

theorem toNat_succ (below : pos.toNat < size) (small : size < 4294967296) : (pos + 1).toNat = pos.toNat + 1 := by
  rw [toNat_add]
  exact Nat.mod_eq_of_lt (show pos.toNat + 1 < 4294967296 by omega)

theorem empty (b : Buf) : Text b 0 [] := ⟨rfl, fun k inside => absurd inside (Nat.not_lt_zero k)⟩

theorem store (size : Nat) (known : Text b pos text) (below : pos.toNat < size) (small : size < 4294967296) (v : UInt8) :
    ∃ b', Vfs.store size b pos v = .ok b' ∧ Text b' (pos + 1) (text ++ [v]) := by
  refine ⟨_, if_pos below, ?_, fun k inside => ?_⟩
  · rw [toNat_succ below small, known.pos, length_append, length_singleton]
  · rw [length_append, length_singleton] at inside
    by_cases last : k = text.length
    · rw [last, getElem?_append_right (Nat.le_refl _), Nat.sub_self, ← known.pos, put8_self]
      rfl
    · rw [getElem?_append_left (by omega), known.bytes k (by omega), put8_other (by rw [known.pos]; omega)]

theorem terminate (size : Nat) (known : Text b pos text) (below : pos.toNat < size) :
    ∃ b', Vfs.store size b pos 0 = .ok b' ∧ Text b' pos text ∧ b' pos.toNat = 0 := by
  refine ⟨_, if_pos below, ⟨known.pos, fun k inside => ?_⟩, put8_self ..⟩
  rw [known.bytes k inside, put8_other (by rw [known.pos]; omega)]

theorem copyTo (size : Nat) (more : List UInt8) (known : Text b pos text) (below : (text ++ more).length ≤ size) (small : size < 4294967296) :
    ∃ b' pos', Vfs.copyTo size b pos more = .ok (b', pos') ∧ Text b' pos' (text ++ more) := by
  induction more generalizing b pos text with
  | nil => exact ⟨b, pos, rfl, by rwa [append_nil]⟩
  | cons c more ih =>
    have inside : pos.toNat < size := by
      rw [length_append, length_cons, ← known.pos] at below
      omega
    obtain ⟨b₁, stored, first⟩ := known.store size inside small c
    rw [append_cons] at below ⊢
    obtain ⟨b₂, pos₂, copied, rest⟩ := ih first below
    refine ⟨b₂, pos₂, ?_, rest⟩
    rw [Vfs.copyTo, stored]
    exact copied

theorem shorten {pos' : UInt32} {more : List UInt8} (known : Text b pos (text ++ more)) (back : pos'.toNat = text.length) :
    Text b pos' text := by
  refine ⟨back, fun k inside => ?_⟩
  rw [← known.bytes k (by rw [length_append]; omega), getElem?_append_left inside]

theorem readFrom (n : Nat) (before : List UInt8) (known : Text b pos (before ++ text)) (noNul : 0 ∉ text)
    (ends : b pos.toNat = 0) (room : text.length < n) : readString b n before.length = .ok text := by
  induction text generalizing n before with
  | nil =>
    obtain _ | n := n
    · cases room
    have here := known.pos
    rw [append_nil] at here
    rw [readString, ← here, if_pos ends]
  | cons c text ih =>
    obtain _ | n := n
    · cases room
    obtain ⟨real, later⟩ := not_or.mp (mt mem_cons.mpr noNul)
    have here : b before.length = c := by
      have byte := known.bytes before.length (by simp)
      rw [getElem?_append_right (Nat.le_refl _), Nat.sub_self] at byte
      exact (Option.some.inj byte).symm
    rw [append_cons] at known
    have rest := ih n (before ++ [c]) known later (Nat.lt_of_succ_lt_succ room)
    rw [length_append, length_singleton] at rest
    rw [readString, here, if_neg (Ne.symm real), rest]
    rfl

theorem readString (known : Text b pos text) (size : Nat) (noNul : 0 ∉ text) (ends : b pos.toNat = 0) (room : text.length < size) :
    Vfs.readString b size 0 = .ok text := readFrom size [] known noNul ends room

/-- The last byte before `pos`. -/
theorem last (known : Text b pos text) (nonempty : text ≠ []) : (pos - 1).toNat = text.length - 1 ∧
    text.getLast? = some (b (pos - 1).toNat) := by
  have positive := length_pos_iff.mpr nonempty
  have before : (pos - 1).toNat = text.length - 1 := by
    rw [toNat_sub_of_le _ _ (UInt32.le_iff_toNat_le.mpr (by rw [known.pos]; exact positive)), known.pos]
    rfl
  refine ⟨before, ?_⟩
  rw [before, getLast?_eq_getElem?]
  exact known.bytes _ (by omega)

end Text

/-! ## Normalizing -/

open Lib.Path

/-- Where the component `k` of a stack begins. -/
def startOf (stack : List (List UInt8)) (k : Nat) : Nat :=
  (render slash (stack.take k)).length + if k = 0 then 0 else 1

/-- The path so far is that of the stack, and the starts of its components are remembered. -/
structure Holds (size : UInt32) (s : Norm) (stack : List (List UInt8)) : Prop where
  text : Text s.output s.outPos (render slash stack)
  ends : s.output s.outPos.toNat = 0
  fits : s.outPos < size
  depth : s.depth.toNat = stack.length
  few : stack.length ≤ maxComponents.toNat
  starts : ∀ k, k < stack.length → (s.componentStart k).toNat = startOf stack k
  proper : ∀ c ∈ stack, Proper slash dot c
  noNul : ∀ c ∈ stack, 0 ∉ c

/-- A stack for which the arrays have room. -/
def Fits (size : UInt32) (stack : List (List UInt8)) : Prop :=
  stack.length ≤ maxComponents.toNat ∧ (render slash stack).length < size.toNat

instance (size : UInt32) (stack : List (List UInt8)) : Decidable (Fits size stack) := inferInstanceAs (Decidable (_ ∧ _))

/-- The stack after a component, unless there is no room for it. -/
def advance (size : UInt32) (stack : Option (List (List UInt8))) (c : List UInt8) : Option (List (List UInt8)) :=
  stack.bind fun stack =>
    if (walk dot stack c).length ≤ stack.length ∨ Fits size (walk dot stack c) then some (walk dot stack c) else none

/-- What the code does where the stack is to become the given one; it refuses where there is none. -/
def Leaves (size : UInt32) (r : PathM Norm) : Option (List (List UInt8)) → Prop
  | none => r = .error .refused
  | some stack => ∃ s, r = .ok s ∧ Holds size s stack

theorem advance_nil (size : UInt32) (stack : Option (List (List UInt8))) : advance size stack [] = stack := by
  cases stack with
  | none => rfl
  | some stack => exact if_pos (.inl (by rw [walk_nil]))

theorem foldl_advance_none (size : UInt32) (cs : List (List UInt8)) : cs.foldl (advance size) none = none := by
  induction cs with
  | nil => rfl
  | cons c cs ih => exact ih

theorem foldl_advance {size : UInt32} {cs stack' : List (List UInt8)} (done : cs.foldl (advance size) (some stack) = some stack') :
    stack' = cs.foldl (walk dot) stack := by
  induction cs generalizing stack with
  | nil => exact (Option.some.inj done).symm
  | cons c cs ih =>
    rw [foldl_cons] at done ⊢
    cases next : advance size (some stack) c with
    | none =>
      rw [next, foldl_advance_none] at done
      cases done
    | some stack₁ =>
      rw [next] at done
      simp only [advance, Option.bind_some, Option.ite_none_right_eq_some, Option.some.injEq] at next
      rw [next.2]
      exact ih done

namespace Fits

variable {size : UInt32}

theorem of_append {more : List (List UInt8)} (fits : Fits size (stack ++ more)) : Fits size stack := by
  obtain ⟨few, short⟩ := fits
  rw [length_append] at few
  refine ⟨by omega, ?_⟩
  by_cases root : stack = []
  · subst root
    have positive : 0 < (render slash more).length := by
      cases more with
      | nil => exact Nat.one_pos
      | cons c more => simp [render]
    exact Nat.lt_of_le_of_lt positive short
  · rw [render_append root, length_append] at short
    omega

theorem foldl_proper {cs : List (List UInt8)} (fits : Fits size (stack ++ cs)) (proper : ∀ c ∈ cs, Proper slash dot c) :
    cs.foldl (advance size) (some stack) = some (stack ++ cs) := by
  induction cs generalizing stack with
  | nil => rw [append_nil, foldl_nil]
  | cons c cs ih =>
    rw [append_cons] at fits ⊢
    have next : advance size (some stack) c = some (stack ++ [c]) := by
      simp only [advance, Option.bind_some, (proper c mem_cons_self).walk, fits.of_append, or_true, if_true]
    rw [foldl_cons, next, ih fits fun c' member => proper c' (mem_cons_of_mem c member)]

/-- The path of a stack is walked as it is. -/
theorem advance_render (fits : Fits size stack) (proper : ∀ c ∈ stack, Proper slash dot c) :
    ((render slash stack).splitOn slash).foldl (advance size) (some []) = some stack := by
  by_cases root : stack = []
  · subst root
    rfl
  · rw [splitOn_render stack root fun c member => (proper c member).plain, foldl_cons, advance_nil]
    exact foldl_proper fits proper

end Fits

namespace Holds

variable {size : UInt32} {s : Norm} {stack : List (List UInt8)} {c : List UInt8}

theorem outPos_eq (holds : Holds size s stack) : s.outPos.toNat = (render slash stack).length := holds.text.pos

theorem room (holds : Holds size s stack) : Fits size stack :=
  ⟨holds.few, holds.outPos_eq ▸ UInt32.lt_iff_toNat_lt.mp holds.fits⟩

/-- The text in front of the next component. -/
def lead (stack : List (List UInt8)) : List UInt8 := if stack = [] then render slash [] else render slash stack ++ [slash]

theorem render_lead (stack : List (List UInt8)) (c : List UInt8) : render slash (stack ++ [c]) = lead stack ++ c := by
  rw [render_concat, lead]
  split
  · next empty => rw [empty]
  · rw [append_assoc, singleton_append]

theorem startOf_lead (stack : List (List UInt8)) (c : List UInt8) : startOf (stack ++ [c]) stack.length = (lead stack).length := by
  rw [startOf, take_left, lead]
  by_cases empty : stack = []
  · rw [empty, if_pos rfl, if_pos length_nil, Nat.add_zero]
  · rw [if_neg empty, if_neg (mt length_eq_zero_iff.mp empty), length_append, length_singleton]

theorem startOf_append {k : Nat} (known : k < stack.length) (c : List UInt8) : startOf (stack ++ [c]) k = startOf stack k := by
  rw [startOf, startOf, take_append_of_le_length (Nat.le_of_lt known)]

/-- Without the last component the path ends where its slash was, if it had one. -/
theorem before_lead {start : UInt32} (at_ : start.toNat = (lead stack).length) :
    (if 1 < start then start - 1 else start).toNat = (render slash stack).length := by
  by_cases root : stack = []
  · rw [lead, if_pos root] at at_
    rw [if_neg (by rw [lt_iff_toNat_lt, at_]; decide), at_, root]
  · have something : 0 < (render slash stack).length := by
      obtain ⟨c, rest, rfl⟩ := exists_cons_of_ne_nil root
      simp [render]
    rw [lead, if_neg root, length_append, length_singleton] at at_
    have long : 1 < start := UInt32.lt_iff_toNat_lt.mpr (by rw [at_]; exact Nat.succ_lt_succ something)
    rw [if_pos long, toNat_sub_of_le _ _ (UInt32.le_of_lt long), at_]
    rfl

theorem up (holds : Holds size s stack) : Leaves size (s.up size) (some stack.dropLast) := by
  rcases eq_nil_or_concat stack with rfl | ⟨init, last, isConcat⟩
  · refine ⟨s, if_neg fun positive => ?_, holds⟩
    have := UInt32.lt_iff_toNat_lt.mp positive
    rw [holds.depth] at this
    cases this
  · rw [concat_eq_append] at isConcat
    subst isConcat
    obtain ⟨text, _, fits, deep, few, starts, proper, noNul⟩ := holds
    simp only [length_append, length_singleton] at deep few starts
    have positive : 0 < s.depth := UInt32.lt_iff_toNat_lt.mpr (by rw [deep]; exact Nat.succ_pos _)
    have before : (s.depth - 1).toNat = init.length := by
      rw [toNat_sub_of_le _ _ (UInt32.le_iff_toNat_le.mpr (by rw [deep]; exact Nat.le_add_left 1 _)), deep]
      rfl
    have inside : s.depth - 1 < maxComponents := UInt32.lt_iff_toNat_lt.mpr (by rw [before]; exact few)
    have back := before_lead ((starts init.length (Nat.lt_succ_self _)).trans (startOf_lead init last))
    rw [render_concat] at text
    have below := UInt32.lt_iff_toNat_lt.mp fits
    rw [text.pos, length_append] at below
    have below := Nat.lt_of_le_of_lt (Nat.le_add_right _ _) below
    rw [← back] at below
    obtain ⟨output, stored, written, ends⟩ := (text.shorten back).terminate _ below
    refine ⟨⟨output, if 1 < s.componentStart init.length then s.componentStart init.length - 1 else s.componentStart init.length,
      s.depth - 1, s.componentStart⟩, ?_, ?_⟩
    · simp only [Norm.up, if_pos positive, if_pos inside, before]
      rw [stored]
      rfl
    · rw [dropLast_concat]
      exact ⟨written, ends, UInt32.lt_iff_toNat_lt.mpr below, before, Nat.le_of_succ_le few,
        fun k known => (starts k (Nat.lt_succ_of_lt known)).trans (startOf_append known last),
        fun c member => proper c (mem_append_left _ member), fun c member => noNul c (mem_append_left _ member)⟩

/-- The slash in front of the next component is written, or the path does not fit. -/
theorem separate (holds : Holds size s stack) :
    (s.separate size = .error .refused ∧ size.toNat ≤ (lead stack).length) ∨
      ∃ s₁, s.separate size = .ok s₁ ∧ Text s₁.output s₁.outPos (lead stack) ∧ s₁.depth = s.depth ∧
        s₁.componentStart = s.componentStart ∧ (lead stack).length < size.toNat := by
  have fits := UInt32.lt_iff_toNat_lt.mp holds.fits
  have at_ := holds.outPos_eq
  by_cases empty : stack = []
  · subst empty
    refine .inr ⟨s, if_neg fun later => ?_, holds.text, rfl, rfl, at_ ▸ fits⟩
    have := UInt32.lt_iff_toNat_lt.mp later
    rw [at_] at this
    exact Nat.lt_irrefl _ this
  · have later : 1 < s.outPos := by
      rw [lt_iff_toNat_lt, at_, render, if_neg empty]
      obtain ⟨c, rest, rfl⟩ := exists_cons_of_ne_nil empty
      have real := length_pos_iff.mpr (holds.proper c mem_cons_self).nonempty
      rw [flatMap_cons, length_append, length_cons]
      show 1 < _
      omega
    have next := Text.toNat_succ fits size.toNat_lt
    have length : (lead stack).length = (s.outPos + 1).toNat := by
      rw [lead, if_neg empty, length_append, length_singleton, next, at_]
    rw [Norm.separate, if_pos later, length]
    split
    · next full => exact .inl ⟨rfl, UInt32.le_iff_toNat_le.mp full⟩
    · next room =>
      obtain ⟨output, stored, text⟩ := holds.text.store _ fits size.toNat_lt slash
      refine .inr ⟨{ s with output := output, outPos := s.outPos + 1 }, ?_, ?_, rfl, rfl,
        UInt32.lt_iff_toNat_lt.mp (UInt32.not_le.mp room)⟩
      · rw [stored]
        rfl
      · rw [lead, if_neg empty]
        exact text

theorem push (holds : Holds size s stack) (proper : Proper slash dot c) (noNul : 0 ∉ c) (short : c.length + 1024 < 4294967296)
    (small : size ≤ bufferSize) :
    Leaves size (s.push size c) (if Fits size (stack ++ [c]) then some (stack ++ [c]) else none) := by
  have small : size.toNat ≤ 512 := UInt32.le_iff_toNat_le.mp small
  have deep : s.depth < maxComponents ↔ stack.length < maxComponents.toNat := by rw [lt_iff_toNat_lt, holds.depth]
  have room : Fits size (stack ++ [c]) ↔ stack.length < maxComponents.toNat ∧ (lead stack).length + c.length < size.toNat := by
    rw [Fits, render_lead, length_append, length_append]
    rfl
  by_cases few : stack.length < maxComponents.toNat
  · rw [Norm.push, if_neg (UInt32.not_le.mpr (deep.mpr few))]
    rcases holds.separate with ⟨refused, full⟩ | ⟨s₁, separated, text, sameDepth, sameStarts, _⟩
    · rw [if_neg fun fits => absurd (room.mp fits).2 (by omega), refused]
      rfl
    · have needed : size < s₁.outPos + UInt32.ofNat c.length + 1 ↔ ¬ Fits size (stack ++ [c]) := by
        simp only [lt_iff_toNat_lt, toNat_add, text.pos, toNat_ofNat', UInt32.reduceToNat, room, few, true_and]
        omega
      have entered : s₁.enter = .ok { s₁ with
          componentStart := update s₁.componentStart s₁.depth.toNat s₁.outPos, depth := s₁.depth + 1 } :=
        if_pos (sameDepth ▸ deep.mpr few)
      simp only [separated, bind, Except.bind, entered, Norm.write, needed]
      by_cases fits : Fits size (stack ++ [c])
      · have below : (lead stack ++ c).length < size.toNat := by
          rw [length_append]
          exact (room.mp fits).2
        obtain ⟨output, pos, copied, full⟩ := text.copyTo size.toNat c (Nat.le_of_lt below) size.toNat_lt
        rw [← full.pos] at below
        obtain ⟨output', stored, text', ends⟩ := full.terminate size.toNat below
        have depth : s₁.depth.toNat = stack.length := sameDepth ▸ holds.depth
        rw [if_pos fits, if_neg (not_not.mpr fits)]
        simp only [copied, stored]
        refine ⟨_, rfl, ?_, ends, UInt32.lt_iff_toNat_lt.mpr below, ?_, fits.1, fun k known => ?_, fun c' member => ?_, fun c' member => ?_⟩
        · rwa [render_lead]
        · rw [length_append, length_singleton, ← depth]
          exact Text.toNat_succ (depth ▸ few) (by decide)
        · rw [length_append, length_singleton] at known
          show (update s₁.componentStart s₁.depth.toNat s₁.outPos k).toNat = _
          by_cases last : k = stack.length
          · rw [last, depth, update_self, startOf_lead, text.pos]
          · have known : k < stack.length := by omega
            rw [update_of_ne (depth ▸ last), sameStarts, holds.starts k known, startOf_append known]
        · rcases mem_append.mp member with old | new
          · exact holds.proper c' old
          · exact mem_singleton.mp new ▸ proper
        · rcases mem_append.mp member with old | new
          · exact holds.noNul c' old
          · exact mem_singleton.mp new ▸ noNul
      · rw [if_neg fits, if_pos fits]
        rfl
  · rw [if_neg fun fits => few (room.mp fits).1, Norm.push, if_pos (UInt32.not_lt.mp fun below => few (deep.mp below))]
    rfl

theorem process (holds : Holds size s stack) (plain : slash ∉ c) (real : c ≠ []) (noNul : 0 ∉ c)
    (short : c.length + 1024 < 4294967296) (small : size ≤ bufferSize) :
    Leaves size (s.process size c) (advance size (some stack) c) := by
  rw [Norm.process, advance, Option.bind_some]
  by_cases isDot : c = [dot]
  · have stays : walk dot stack c = stack := if_pos (.inr isDot)
    rw [if_pos isDot, stays, if_pos (.inl (Nat.le_refl _))]
    exact ⟨s, rfl, holds⟩
  by_cases isUp : c = [dot, dot]
  · have back : walk dot stack c = stack.dropLast := by rw [walk, if_neg (not_or.mpr ⟨real, isDot⟩), if_pos isUp]
    rw [if_neg isDot, if_pos isUp, back, if_pos (.inl (by rw [length_dropLast]; exact Nat.sub_le _ _))]
    exact holds.up
  · have proper : Proper slash dot c := ⟨real, isDot, isUp, plain⟩
    have longer : ¬ (stack ++ [c]).length ≤ stack.length := by
      rw [length_append]
      exact Nat.not_succ_le_self _
    rw [if_neg isDot, if_neg isUp, proper.walk]
    simp only [longer, false_or]
    exact holds.push proper noNul short small

theorem loop (fuel : Nat) {input : List UInt8} (holds : Holds size s stack) (noNul : 0 ∉ input)
    (short : input.length + 1024 < 4294967296) (small : size ≤ bufferSize) (enough : input.length < fuel) :
    Leaves size (Norm.loop size fuel input s) ((input.splitOn slash).foldl (advance size) (some stack)) := by
  induction fuel generalizing input s stack with
  | zero => cases enough
  | succ fuel ih =>
    rw [Norm.loop, ← foldl_splitOn_dropWhile (advance_nil size)]
    have skipped := length_dropWhile_le (· == slash) input
    have noNul' : 0 ∉ input.dropWhile (· == slash) := fun member => noNul (dropWhile_subset _ member)
    have stopped := head?_dropWhile_not (· == slash) input
    generalize input.dropWhile (· == slash) = rest at *
    cases rest with
    | nil =>
      rw [splitOn_nil, foldl_cons, advance_nil]
      exact ⟨s, rfl, holds⟩
    | cons a more =>
      rw [if_neg (cons_ne_nil a more), foldl_splitOn_takeWhile (advance_nil size)]
      have notSlash : (a != slash) = true := by simpa using stopped
      have left := length_dropWhile_le (· != slash) more
      have takenShort := ( takeWhile_prefix (l := a :: more) (· != slash)).length_le
      rw [length_cons] at skipped takenShort
      have processed := holds.process (c := (a :: more).takeWhile (· != slash))
        (fun member => absurd (mem_takeWhile_imp member) (by simp)) (by rw [takeWhile_cons, if_pos notSlash]; exact cons_ne_nil _ _)
        (fun member => noNul' (takeWhile_subset _ member)) (by omega) small
      cases next : advance size (some stack) ((a :: more).takeWhile (· != slash)) with
      | none =>
        rw [next] at processed
        rw [foldl_advance_none, show Norm.process size s _ = _ from processed]
        rfl
      | some stack₁ =>
        rw [next] at processed
        obtain ⟨s₁, done, holds₁⟩ := processed
        rw [done]
        refine ih holds₁ (fun member => noNul' (dropWhile_subset _ member)) ?_ ?_
        · rw [dropWhile_cons, if_pos notSlash]
          omega
        · rw [dropWhile_cons, if_pos notSlash]
          omega

theorem start (size : UInt32) (output : Buf) (componentStart : Nat → UInt32) (room : 2 ≤ size) : ∃ output₁ output₂,
    store size.toNat output 0 slash = .ok output₁ ∧ store size.toNat output₁ 1 0 = .ok output₂ ∧
      Holds size ⟨output₂, 1, 0, componentStart⟩ [] := by
  have room : 2 ≤ size.toNat := UInt32.le_iff_toNat_le.mp room
  obtain ⟨output₁, first, text⟩ := (Text.empty output).store size.toNat (show 0 < size.toNat by omega) size.toNat_lt slash
  obtain ⟨output₂, second, text', ends⟩ := text.terminate size.toNat (show 1 < size.toNat by omega)
  exact ⟨output₁, output₂, first, second, text', ends, UInt32.lt_iff_toNat_lt.mpr (show 1 < size.toNat by omega), rfl,
    Nat.zero_le _, fun k inside => absurd inside (Nat.not_lt_zero k), fun c member => absurd member not_mem_nil,
    fun c member => absurd member not_mem_nil⟩

theorem render_noNul (noNul : ∀ c ∈ stack, 0 ∉ c) : 0 ∉ render slash stack := by
  rw [render]
  split
  · decide
  · intro member
    obtain ⟨c, inside, letter⟩ := mem_flatMap.mp member
    rcases mem_cons.mp letter with isSlash | later
    · exact absurd isSlash (by decide)
    · exact noNul c inside later

end Holds

variable {cwd input out : List UInt8} {size : UInt32}

/-- `normalizeTo` refuses what has no room, or its result is the path of the stack. -/
theorem normalizeTo_cases (size : UInt32) (locals : Locals) (rooted : input.head? = some slash) (noNul : 0 ∉ input)
    (short : input.length + 1024 < 4294967296) :
    ((input.splitOn slash).foldl (advance bufferSize) (some []) = none ∧ normalizeTo size input locals = .error .refused) ∨
      ∃ s stack, Holds bufferSize s stack ∧ (input.splitOn slash).foldl (advance bufferSize) (some []) = some stack ∧
        normalizeTo size input locals =
          if size.toNat < (render slash stack).length + 1 then .error .refused else .ok (render slash stack) := by
  obtain ⟨output₁, output₂, first, second, begun⟩ :=
    Holds.start bufferSize locals.normalized locals.componentStart (by decide)
  have looped := begun.loop (input.length + 1) noNul short (UInt32.le_refl _) (Nat.lt_succ_self _)
  rw [normalizeTo, vfsNormalizeAbsolutePath, if_neg (by decide), if_neg (not_not.mpr rooted), first]
  simp only [bind, Except.bind, second]
  cases walked : (input.splitOn slash).foldl (advance bufferSize) (some []) with
  | none =>
    rw [walked] at looped
    rw [show Norm.loop _ _ _ _ = _ from looped]
    exact .inl ⟨rfl, rfl⟩
  | some stack =>
    rw [walked] at looped
    obtain ⟨s, done, holds⟩ := looped
    have fits : (render slash stack).length < 512 := holds.room.2
    have read := holds.text.readString bufferSize.toNat (Holds.render_noNul holds.noNul) holds.ends fits
    have length : size < UInt32.ofNat (render slash stack).length + 1 ↔ size.toNat < (render slash stack).length + 1 := by
      simp only [lt_iff_toNat_lt, toNat_add, toNat_ofNat', UInt32.reduceToNat]
      omega
    simp only [done, read, length]
    exact .inr ⟨s, stack, holds, rfl, rfl⟩

theorem render_head (stack : List (List UInt8)) : (render slash stack).head? = some slash := by
  cases stack with
  | nil => rfl
  | cons c stack => simp [render]

theorem normalizeTo_render {s : Norm} (locals : Locals) (holds : Holds bufferSize s stack)
    (fits : (render slash stack).length + 1 ≤ size.toNat) :
    normalizeTo size (render slash stack) locals = .ok (render slash stack) := by
  have short : (render slash stack).length < 512 := holds.room.2
  have walked := holds.room.advance_render holds.proper
  rcases normalizeTo_cases size locals (render_head stack) (Holds.render_noNul holds.noNul) (by omega) with
    ⟨refused, _⟩ | ⟨_, stack', _, walked', done⟩
  · rw [walked] at refused
    cases refused
  · obtain rfl := Option.some.inj (walked'.symm.trans walked)
    rw [done, if_neg (Nat.not_lt.mpr fits)]

/-! ## Combining -/

/-- The arguments are strings in memory beside the arrays of the calls, which take 512 bytes each. -/
structure Strings (cwd input : List UInt8) : Prop where
  cwdPlain : 0 ∉ cwd
  inputPlain : 0 ∉ input
  room : (cwd.length + 1) + (input.length + 1) + 3 * 512 ≤ 4294967296

/-- The first slashes of the current directory are skipped, but not all of it. -/
theorem cwdStart_spec (strings : Strings cwd input) (rooted : cwd.head? = some slash) :
    (cwdStart cwd).toNat < cwd.length ∧
      follow slash dot [] (cwd.drop (cwdStart cwd).toNat) = follow slash dot [] cwd := by
  have room := strings.room
  have nonempty : cwd ≠ [] := by
    rintro rfl
    cases rooted
  have positive := length_pos_iff.mpr nonempty
  have short := ( takeWhile_prefix (l := cwd) (· == slash)).length_le
  have length := UInt32.toNat_ofNat_of_lt' (show cwd.length < 4294967296 by omega)
  have count := UInt32.toNat_ofNat_of_lt' (show (cwd.takeWhile (· == slash)).length < 4294967296 by omega)
  rw [cwdStart]
  split
  · next all =>
    -- nothing but slashes: the last one stays
    have same := congrArg UInt32.toNat all
    rw [count, length] at same
    have slashes := takeWhile_eq_self_iff.mp (( takeWhile_prefix (l := cwd) (· == slash)).eq_of_length same)
    have start : (UInt32.ofNat cwd.length - 1).toNat = cwd.length - 1 := by
      rw [toNat_sub_of_le _ _ (UInt32.le_iff_toNat_le.mpr (by rw [length]; exact positive)), length]
      rfl
    have last : cwd.getLast nonempty = slash := beq_iff_eq.mp (slashes _ (getLast_mem nonempty))
    have whole : cwd.dropLast ++ [slash] = cwd := by rw [← last, dropLast_concat_getLast nonempty]
    have tail : cwd.drop (cwd.length - 1) = [slash] := calc
      cwd.drop (cwd.length - 1) = (cwd.dropLast ++ [slash]).drop cwd.dropLast.length := by rw [whole, length_dropLast]
      _ = [slash] := drop_left
    have nowhere : follow slash dot [] cwd = [] := by
      rw [follow, ← foldl_splitOn_dropWhile walk_nil, dropWhile_eq_nil_iff.mpr slashes]
      rfl
    rw [start, tail, follow_sep_cons, follow_nil, nowhere]
    exact ⟨by omega, rfl⟩
  · next some_left =>
    have fewer : (cwd.takeWhile (· == slash)).length < cwd.length := by
      refine Nat.lt_of_le_of_ne short fun same => some_left ?_
      rw [same]
    have dropped : cwd.drop (cwd.takeWhile (· == slash)).length = cwd.dropWhile (· == slash) := by
      have whole := takeWhile_append_dropWhile (p := (· == slash)) (l := cwd)
      have cut := congrArg (drop (cwd.takeWhile (· == slash)).length) whole
      rw [drop_left] at cut
      exact cut.symm
    rw [count, dropped]
    exact ⟨fewer, foldl_splitOn_dropWhile walk_nil [] cwd⟩

/-- The path in the buffer `combined`. -/
def joined (cwd input : List UInt8) : List UInt8 :=
  slash :: cwd.drop (cwdStart cwd).toNat ++ (if cwd.getLast? = some slash then [] else [slash]) ++ input

theorem getLast_drop {n : Nat} (inside : n < cwd.length) : (cwd.drop n).getLast? = cwd.getLast? := by
  rw [getLast?_drop, if_neg (Nat.not_le.mpr inside)]

theorem follow_joined (strings : Strings cwd input) (rooted : cwd.head? = some slash) :
    follow slash dot [] (joined cwd input) = follow slash dot (follow slash dot [] cwd) input := by
  obtain ⟨inside, same⟩ := cwdStart_spec strings rooted
  rw [joined, cons_append, cons_append, follow_sep_cons, ← same]
  have last := getLast_drop inside
  split
  · next isSlash =>
    -- the slash at the end of the current directory separates
    rw [← last] at isSlash
    obtain ⟨front, isFront⟩ := getLast?_eq_some_iff.mp isSlash
    rw [isFront, append_nil, append_assoc, singleton_append, follow_append_cons, follow_append_sep]
  · rw [append_assoc, singleton_append, follow_append_cons]

theorem combinedNeeded_eq (strings : Strings cwd input) (rooted : cwd.head? = some slash) :
    (combinedNeeded cwd input).toNat = (joined cwd input).length + 1 := by
  have room := strings.room
  obtain ⟨inside, _⟩ := cwdStart_spec strings rooted
  have cwdLen := UInt32.toNat_ofNat_of_lt' (show cwd.length < 4294967296 by omega)
  have below : cwdStart cwd < UInt32.ofNat cwd.length := by rwa [lt_iff_toNat_lt, cwdLen]
  have left : (UInt32.ofNat cwd.length - cwdStart cwd).toNat = cwd.length - (cwdStart cwd).toNat := by
    rw [toNat_sub_of_le _ _ (UInt32.le_of_lt below), cwdLen]
  simp only [combinedNeeded, below, true_and, joined, length_append, length_cons, length_drop]
  by_cases isSlash : cwd.getLast? = some slash
  · rw [if_neg (not_not.mpr isSlash), if_pos isSlash, length_nil]
    simp only [toNat_add, left, toNat_ofNat', UInt32.reduceToNat]
    omega
  · rw [if_pos isSlash, if_neg isSlash, length_singleton]
    simp only [toNat_add, left, toNat_ofNat', UInt32.reduceToNat]
    omega

theorem joined_noNul (strings : Strings cwd input) : 0 ∉ joined cwd input := by
  intro member
  rcases mem_append.mp member with front | inInput
  · rcases mem_append.mp front with inCwd | between
    · rcases mem_cons.mp inCwd with isSlash | inCwd
      · exact absurd isSlash (by decide)
      · exact strings.cwdPlain (mem_of_mem_drop inCwd)
    · split at between
      · cases between
      · exact absurd (mem_singleton.mp between) (by decide)
  · exact strings.inputPlain inInput

theorem combine_spec (strings : Strings cwd input) (rooted : cwd.head? = some slash) (combined : Buf)
    (short : (joined cwd input).length < 512) : ∃ b, combine cwd input combined = .ok b ∧
      readString b bufferSize.toNat 0 = .ok (joined cwd input) := by
  obtain ⟨inside, _⟩ := cwdStart_spec strings rooted
  have parts : (joined cwd input).length = _ := length_append
  have front : (slash :: cwd.drop (cwdStart cwd).toNat ++ if cwd.getLast? = some slash then [] else [slash]).length = _ := length_append
  obtain ⟨b₁, stored, text₁⟩ := (Text.empty combined).store bufferSize.toNat (by decide) (by decide) slash
  have text₁ : Text b₁ 1 [slash] := text₁
  obtain ⟨b₂, pos₂, copied₂, text₂⟩ := text₁.copyTo bufferSize.toNat (cwd.drop (cwdStart cwd).toNat)
    (show (slash :: cwd.drop _).length ≤ 512 by omega) (by decide)
  obtain ⟨before, last⟩ := text₂.last (append_ne_nil_of_left_ne_nil (cons_ne_nil _ _) _)
  have lastIs : some (b₂ (pos₂ - 1).toNat) = cwd.getLast? := by
    rw [← last, getLast?_append, getLast_drop inside]
    cases isLast : cwd.getLast? with
    | none =>
      rw [getLast?_eq_none_iff] at isLast
      rw [isLast] at rooted
      cases rooted
    | some a => rfl
  have notPast : ¬ bufferSize ≤ pos₂ - 1 := by
    rw [le_iff_toNat_le, before]
    show ¬ 512 ≤ (slash :: cwd.drop _).length - 1
    omega
  obtain ⟨b₃, pos₃, separated, text₃⟩ : ∃ b₃ pos₃, separateInput b₂ pos₂ = .ok (b₃, pos₃) ∧
      Text b₃ pos₃ (slash :: cwd.drop (cwdStart cwd).toNat ++ if cwd.getLast? = some slash then [] else [slash]) := by
    rw [separateInput, if_neg notPast]
    by_cases isSlash : cwd.getLast? = some slash
    · have same := Option.some.inj (lastIs.trans isSlash)
      rw [if_pos isSlash, append_nil, if_neg (not_not.mpr same)]
      exact ⟨b₂, pos₂, rfl, text₂⟩
    · have other : b₂ (pos₂ - 1).toNat ≠ slash := fun same => isSlash (lastIs ▸ congrArg some same)
      rw [if_neg isSlash] at parts ⊢
      rw [if_pos other]
      exact text₂.copyTo bufferSize.toNat [slash] (show (slash :: cwd.drop _ ++ [slash]).length ≤ 512 by omega) (by decide)
  obtain ⟨b₄, pos₄, copied₄, text₄⟩ := text₃.copyTo bufferSize.toNat input (Nat.le_of_lt short) (by decide)
  obtain ⟨b₅, stored₅, text₅, ends⟩ := text₄.terminate bufferSize.toNat (by rw [text₄.pos]; exact short)
  refine ⟨b₅, ?_, text₅.readString _ (joined_noNul strings) ends short⟩
  simp only [combine, bind, Except.bind, stored, copied₂, separated, copied₄, stored₅]

def components (cwd input : List UInt8) : List (List UInt8) :=
  if input.head? = some slash then input.splitOn slash else cwd.splitOn slash ++ input.splitOn slash

theorem resolve_cases (strings : Strings cwd input) (rooted : cwd.head? = some slash) (nonempty : input ≠ [])
    (size : UInt32) (locals : Locals) : vfsResolvePath cwd input size locals = .error .refused ∨
      vfsResolvePath cwd input size locals = .ok (render slash (resolve dot (components cwd input))) ∧
        (render slash (resolve dot (components cwd input))).length + 1 ≤ size.toNat ∧ size ≤ bufferSize ∧
        ∃ s, Holds bufferSize s (resolve dot (components cwd input)) := by
  have room := strings.room
  rw [vfsResolvePath, if_neg nonempty]
  split
  · exact .inl rfl
  split
  · exact .inl rfl
  next small =>
  have small := UInt32.not_lt.mp small
  -- both ways end in a path that is normalized
  have normalized {path : List UInt8} (rooted : path.head? = some slash) (noNul : 0 ∉ path)
      (short : path.length + 1024 < 4294967296) (same : resolve dot (components cwd input) = follow slash dot [] path) :
      normalizeTo size path locals = .error .refused ∨
        normalizeTo size path locals = .ok (render slash (resolve dot (components cwd input))) ∧
          (render slash (resolve dot (components cwd input))).length + 1 ≤ size.toNat ∧ size ≤ bufferSize ∧
          ∃ s, Holds bufferSize s (resolve dot (components cwd input)) := by
    rcases normalizeTo_cases size locals rooted noNul short with ⟨_, refused⟩ | ⟨s, stack, holds, walked, done⟩
    · exact .inl refused
    · obtain rfl := same.trans (foldl_advance walked).symm
      rw [done]
      split
      · exact .inl rfl
      · next fits => exact .inr ⟨rfl, Nat.le_of_not_lt fits, small, s, holds⟩
  by_cases absolute : input.head? = some slash
  · rw [if_pos absolute]
    exact normalized absolute strings.inputPlain (by omega) (by rw [components, if_pos absolute]; rfl)
  · rw [if_neg absolute]
    split
    · exact .inl rfl
    split
    · exact .inl rfl
    next enough =>
    have short : (joined cwd input).length < 512 := by
      have needed := Nat.le_of_not_lt fun more => enough (UInt32.lt_iff_toNat_lt.mpr more)
      rw [combinedNeeded_eq strings rooted] at needed
      exact needed
    obtain ⟨b, combined, read⟩ := combine_spec strings rooted locals.combined short
    simp only [bind, Except.bind, combined, read]
    refine normalized rfl (joined_noNul strings) (by omega) ?_
    rw [components, if_neg absolute, resolve, foldl_append, follow_joined strings rooted]
    rfl

/-- Path resolution meets its specification.  No array is accessed outside of its bounds.  A path
that is returned is the canonical path of the components of the input, behind those of the current
directory if the input is relative; it fits, and resolving it again gives the same. -/
theorem resolve_path_meets_spec (strings : Strings cwd input) (rooted : cwd.head? = some slash) (nonempty : input ≠ [])
    (size : UInt32) (locals : Locals) : vfsResolvePath cwd input size locals ≠ .error .fault ∧
      ∀ out, vfsResolvePath cwd input size locals = .ok out →
        out = render slash (resolve dot (components cwd input)) ∧ out.head? = some slash ∧ Canonical slash dot out ∧
        out.length + 1 ≤ size.toNat ∧ ∀ cwd' locals', vfsResolvePath cwd' out size locals' = .ok out := by
  rcases resolve_cases strings rooted nonempty size locals with refused | ⟨done, fits, small, s, holds⟩
  · rw [refused]
    exact ⟨nofun, nofun⟩
  · rw [done]
    refine ⟨nofun, fun out isOut => ?_⟩
    obtain rfl := Except.ok.inj isOut
    refine ⟨rfl, render_head _, canonical_render holds.proper, fits, fun cwd' locals' => ?_⟩
    have positive : size ≠ 0 := fun zero => by
      rw [zero] at fits
      exact Nat.not_succ_le_zero _ fits
    have something : render slash (resolve dot (components cwd input)) ≠ [] := fun empty => by
      have head := render_head (resolve dot (components cwd input))
      rw [empty] at head
      cases head
    rw [vfsResolvePath, if_neg positive, if_neg something, if_neg (UInt32.not_lt.mpr small), if_pos (render_head _)]
    exact normalizeTo_render locals' holds fits

def emptyLocals : Locals := ⟨fun _ => 0, fun _ => 0, fun _ => 0⟩

/-- `/home//u` -/
def sampleCwd : List UInt8 := [47, 104, 111, 109, 101, 47, 47, 117]

/-- `../../../x/./y/` -/
def sampleInput : List UInt8 := [46, 46, 47, 46, 46, 47, 46, 46, 47, 120, 47, 46, 47, 121, 47]

theorem resolve_path_meets_spec_sample : vfsResolvePath sampleCwd sampleInput 5 emptyLocals = .ok [47, 120, 47, 121] ∧
    Canonical slash dot [47, 120, 47, 121] := by
  have strings : Strings sampleCwd sampleInput := ⟨by decide, by decide, by decide⟩
  have resolved : vfsResolvePath sampleCwd sampleInput 5 emptyLocals = .ok [47, 120, 47, 121] := by decide +kernel
  exact ⟨resolved, ((resolve_path_meets_spec strings rfl (by decide) 5 emptyLocals).2 _ resolved).2.2.1⟩

end GinnOS.Vfs
