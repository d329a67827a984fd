import GinnOS.Lib.Run
import GinnOS.Terminal.Model

/-! # The cursor stays on the screen

Every command clamps the position it moves to, but the clamps compare signed numbers, and the parser
lets a parameter of a sequence grow until it wraps: a negative count passes the comparison and takes
the cursor out of the screen (`negative_count_leaves_screen`).  As long as the counts of the relative
moves are not negative and their sums do not wrap, the cursor stays on the screen over any stream
of bytes, and so does every cell that is drawn (`cursor_stays_on_screen`); the loops of the commands then
end (`output_ends`).
-/

namespace GinnOS.Terminal

open Lib

variable {a b row col c n pos : UInt8} {tty : Tty} {α : Type} {go : UInt8 → Bool} {count : Int}

variable {σ : Type} {be : Backend σ} {t : Term σ}

/-- The cursor is what was stored last; `scroll` may move it to the last row and `clear` moves it home. -/
structure Backend.Lawful (be : Backend σ) : Prop where
  rows : 1 ≤ be.rows
  cols : 1 ≤ be.cols
  setCursor : ∀ row col d, be.getCursor (be.setCursor row col d) = (row, col)
  putAt : ∀ c row col d, be.getCursor (be.putAt c row col d) = be.getCursor d
  scroll : ∀ d, be.getCursor (be.scroll d) = be.getCursor d ∨ (be.getCursor (be.scroll d)).1 = be.rows - 1
  clear : ∀ d, be.getCursor (be.clear d) = (0, 0)
  setColors : ∀ setColors ∈ be.setColors, ∀ fg bg d, be.getCursor (setColors fg bg d) = be.getCursor d
  drawCursor : ∀ drawCursor ∈ be.drawCursor, ∀ row col visible d,
    be.getCursor (drawCursor row col visible d) = be.getCursor d
  flush : ∀ flush ∈ be.flush, ∀ d, be.getCursor (flush d) = be.getCursor d

def Backend.Cell (be : Backend σ) (cell : UInt8 × UInt8) : Prop := cell.1 < be.rows ∧ cell.2 < be.cols
  deriving Decidable

/-- The parameters fit in their array, and only cells of the screen were drawn. -/
structure Drawn (be : Backend σ) (t : Term σ) : Prop where
  count : t.tty.csiParamCount ≤ csiParamsMax
  puts : ∀ cell ∈ t.puts, be.Cell cell

structure Inside (be : Backend σ) (t : Term σ) : Prop extends Drawn be t where
  cursor : be.Cell (be.getCursor t.dev)

/-- The first parameter of a sequence that ends here. -/
def Tty.firstParam (tty : Tty) : Int := if tty.csiParamCount = 0 then tty.csiCurrentParam else tty.csiParams 0

/-- The count of a relative move is not negative, and going down or right by it does not wrap. -/
def Measured (be : Backend σ) (t : Term σ) (c : UInt8) : Prop :=
  t.tty.state = .csi → (Char.ofUInt8 c ∈ ['A', 'B', 'C', 'D'] → 0 ≤ t.tty.firstParam) ∧
    (Char.ofUInt8 c = 'B' → (be.getCursor t.dev).1.toNat + t.tty.firstParam < 2147483648) ∧
    (Char.ofUInt8 c = 'C' → (be.getCursor t.dev).2.toNat + t.tty.firstParam < 2147483648)
  deriving Decidable

/-- The bytes of a stream, for a terminal that is not in an endless loop. -/
def Tame (be : Backend σ) : Option (Term σ) → UInt8 → Prop
  | none, _ => True
  | some t, c => Measured be t c

instance Tame.decide (be : Backend σ) (s : Option (Term σ)) (c : UInt8) : Decidable (Tame be s c) := by
  cases s <;> dsimp only [Tame] <;> infer_instance

/-! ## Arithmetic -/

theorem toNat_succ (below : a < b) : (a + 1).toNat = a.toNat + 1 := by
  have small := b.toNat_lt
  rw [UInt8.lt_iff_toNat_lt] at below
  rw [UInt8.toNat_add]
  exact Nat.mod_eq_of_lt (show a.toNat + 1 < 256 by omega)

theorem Tty.pushParam_first (tty : Tty) : tty.pushParam.csiParams 0 = tty.firstParam := by
  rw [Tty.pushParam, Tty.firstParam]
  split
  · next room =>
    show Function.update tty.csiParams ⟨tty.csiParamCount, room⟩ tty.csiCurrentParam 0 = _
    by_cases first : tty.csiParamCount = 0
    · have here : (0 : Fin csiParamsMax) = ⟨tty.csiParamCount, room⟩ := Fin.ext first.symm
      rw [if_pos first, here, Function.update_self]
    · have apart : (0 : Fin csiParamsMax) ≠ ⟨tty.csiParamCount, room⟩ := fun same => first (congrArg Fin.val same).symm
      rw [if_neg first, Function.update_of_ne apart]
  · next full => rw [if_neg fun none => full (by rw [none]; decide)]

theorem Tty.pushParam_count (tty : Tty) (known : tty.csiParamCount ≤ csiParamsMax) :
    tty.pushParam.csiParamCount ≤ csiParamsMax := by
  rw [Tty.pushParam]
  split
  · next room => exact room
  · exact known

theorem Tty.sgr_count (tty : Tty) (p : Int) : (tty.sgr p).csiParamCount = tty.csiParamCount := by
  unfold Tty.sgr
  repeat' split
  all_goals rfl

/-! ## The operations of the backend -/

theorem Drawn.setCursor (lawful : be.Lawful) (drawn : Drawn be t) (cell : be.Cell (row, col)) :
    Inside be (Term.setCursor be row col t) :=
  ⟨⟨drawn.count, drawn.puts⟩, (lawful.setCursor row col t.dev).symm ▸ cell⟩

theorem Drawn.scroll (drawn : Drawn be t) : Drawn be (Term.scroll be t) := ⟨drawn.count, drawn.puts⟩

namespace Inside

theorem withTty (inside : Inside be t) (count : tty.csiParamCount ≤ csiParamsMax) : Inside be { t with tty := tty } :=
  ⟨⟨count, inside.puts⟩, inside.cursor⟩

theorem enter (inside : Inside be t) (state : TtyState) : Inside be (Term.enter state t) := inside.withTty inside.count

theorem withDev (inside : Inside be t) {dev : σ} (same : be.getCursor dev = be.getCursor t.dev) : Inside be { t with dev := dev } :=
  ⟨⟨inside.count, inside.puts⟩, same.symm ▸ inside.cursor⟩

section

variable (lawful : be.Lawful) (inside : Inside be t)

include lawful inside

theorem putAt (cell : be.Cell (row, col)) :
    Inside be (Term.putAt be c row col t) := by
  refine ⟨⟨inside.count, fun drawn known => ?_⟩, (lawful.putAt c row col t.dev).symm ▸ inside.cursor⟩
  rcases List.mem_append.mp known with old | new
  · exact inside.puts drawn old
  · rw [List.mem_singleton.mp new]
    exact cell

theorem clear : Inside be (Term.clear be t) := by
  refine ⟨⟨inside.count, inside.puts⟩, ?_⟩
  rw [show be.getCursor (Term.clear be t).dev = (0, 0) from lawful.clear t.dev]
  exact ⟨UInt8.lt_of_lt_of_le (by decide) lawful.rows, UInt8.lt_of_lt_of_le (by decide) lawful.cols⟩

theorem applyColors : Inside be (Term.applyColors be t) := by
  rw [Term.applyColors]
  split
  · exact inside
  · next setColors isSome => exact inside.withDev (lawful.setColors setColors isSome ..)

theorem caret (visible : Bool) : Inside be (Term.caret be visible t) := by
  rw [Term.caret]
  split
  · exact inside
  · next drawCursor isSome => exact inside.withDev (lawful.drawCursor drawCursor isSome ..)

theorem flush : Inside be (Term.flush be t) := by
  rw [Term.flush]
  split
  · exact inside
  · next flush isSome => exact inside.withDev (lawful.flush flush isSome _)

theorem applySgr : Inside be (Term.applySgr be t) := by
  refine applyColors lawful (inside.withTty ?_)
  generalize (List.finRange csiParamsMax).filter (·.val < t.tty.csiParamCount) = params
  suffices same : ∀ tty : Tty, (params.foldl (fun tty i => tty.sgr (t.tty.csiParams i)) tty).csiParamCount = tty.csiParamCount by
    rw [same]
    exact inside.count
  induction params with
  | nil => exact fun _ => rfl
  | cons i params ih => exact fun tty => (ih _).trans (tty.sgr_count _)

end

end Inside

/-! ## Loops -/

/-- A loop up to `n` keeps what its body keeps, and ends. -/
theorem forLoop_upto {I : α → Prop} {body : UInt8 → α → Option α}
    (goes : ∀ i, go i = true ↔ i < n) (keeps : ∀ i s, i < n → I s → ∃ s', body i s = some s' ∧ I s')
    (rounds : Nat) (i : UInt8) {s : α} (enough : n.toNat - i.toNat < rounds) (start : I s) :
    ∃ s', forLoop go body rounds i s = some s' ∧ I s' := by
  induction rounds generalizing i s with
  | zero => exact absurd enough (Nat.not_lt_zero _)
  | succ rounds ih =>
    rw [forLoop]
    by_cases more : go i = true
    · have below := (goes i).mp more
      obtain ⟨s₁, done, kept⟩ := keeps i s below start
      rw [if_pos more, done]
      refine ih (i + 1) ?_ kept
      rw [toNat_succ below]
      rw [UInt8.lt_iff_toNat_lt] at below
      omega
    · rw [if_neg more]
      exact ⟨s, rfl, start⟩

theorem forLoop_ends {I : α → Prop} {body : UInt8 → α → Option α}
    (goes : ∀ i, go i = true ↔ i < n) (keeps : ∀ i s, i < n → I s → ∃ s', body i s = some s' ∧ I s')
    (i : UInt8) {s : α} (start : I s) : ∃ s', forLoop go body 256 i s = some s' ∧ I s' :=
  forLoop_upto goes keeps 256 i (Nat.lt_of_le_of_lt (Nat.sub_le ..) n.toNat_lt) start

theorem Inside.blank (lawful : be.Lawful) (inside : Inside be t) (onRow : row < be.rows)
    (goes : ∀ i, go i = true ↔ i < n) (short : n ≤ be.cols) (start : UInt8) :
    ∃ t', Term.blank be row start go t = some t' ∧ Inside be t' := by
  refine forLoop_ends goes (fun col t below inside => ?_) start inside
  exact ⟨_, rfl, inside.putAt lawful ⟨onRow, UInt8.lt_of_lt_of_le below short⟩⟩

/-! ## One byte -/

theorem Tty.count_pos (known : 0 ≤ tty.csiParams 0) : 1 ≤ tty.count := by
  rw [Tty.count]
  split
  · omega
  · exact Int.le_refl 1

theorem Tty.count_le : tty.count ≤ max (tty.csiParams 0) 1 := by
  rw [Tty.count]
  split
  · exact Int.le_max_left ..
  · exact Int.le_max_right ..

theorem uint8_clamp_lt {x : Int} (positive : 1 ≤ n) : uint8 (min (max x 1) n.toNat - 1) < n := by
  have positive : 1 ≤ n.toNat := UInt8.le_iff_toNat_le.mp positive
  exact uint8_lt (by omega) (by omega)

theorem uint8_back_lt (below : pos < n) (counted : 1 ≤ count) :
    uint8 (int32 (pos.toNat - if (pos.toNat : Int) < count then (pos.toNat : Int) else count)) < n := by
  rw [UInt8.lt_iff_toNat_lt] at below
  split
  · exact uint8_int32_lt (by omega) (by omega)
  · exact uint8_int32_lt (by omega) (by omega)

theorem uint8_on_lt (below : pos < n) (counted : 1 ≤ count)
    (fits : pos.toNat + count < 2147483648) :
    uint8 (int32 (pos.toNat + if (n.toNat : Int) ≤ int32 (pos.toNat + count) then (n.toNat : Int) - 1 - pos.toNat
      else count)) < n := by
  rw [UInt8.lt_iff_toNat_lt] at below
  rw [int32_of_lt (x := pos.toNat + count) (by omega) fits]
  split
  · exact uint8_int32_lt (by omega) (by omega)
  · exact uint8_int32_lt (by omega) (by omega)

/-- What is known about the counts of the relative moves once the last parameter was pushed. -/
structure Counted (be : Backend σ) (final : UInt8) (t : Term σ) : Prop where
  positive : Char.ofUInt8 final ∈ ['A', 'B', 'C', 'D'] → 1 ≤ t.tty.count
  down : Char.ofUInt8 final = 'B' → (be.getCursor t.dev).1.toNat + t.tty.count < 2147483648
  right : Char.ofUInt8 final = 'C' → (be.getCursor t.dev).2.toNat + t.tty.count < 2147483648

theorem Inside.csiCommand (lawful : be.Lawful) (inside : Inside be t) {final : UInt8} (counted : Counted be final t) :
    ∃ t', Term.csiCommand be final t = some t' ∧ Inside be t' := by
  have belowCols : ∀ i : UInt8, decide (i < be.cols) = true ↔ i < be.cols := fun i => decide_eq_true_iff
  obtain ⟨onRow, onCol⟩ := inside.cursor
  obtain ⟨positive, down, right⟩ := counted
  rw [Term.csiCommand]
  cases isCursor : be.getCursor t.dev with
  | mk row col =>
    rw [isCursor] at onRow onCol down right
    dsimp only at onRow onCol down right ⊢
    split
    · next isUp => exact ⟨_, rfl, inside.setCursor lawful ⟨uint8_back_lt onRow (positive (by simp [isUp])), onCol⟩⟩
    · next isDown =>
      exact ⟨_, rfl, inside.setCursor lawful ⟨uint8_on_lt onRow (positive (by simp [isDown])) (down isDown), onCol⟩⟩
    · next isRight =>
      exact ⟨_, rfl, inside.setCursor lawful ⟨onRow, uint8_on_lt onCol (positive (by simp [isRight])) (right isRight)⟩⟩
    · next isLeft => exact ⟨_, rfl, inside.setCursor lawful ⟨onRow, uint8_back_lt onCol (positive (by simp [isLeft]))⟩⟩
    · exact ⟨_, rfl, inside.setCursor lawful ⟨onRow, uint8_clamp_lt lawful.cols⟩⟩
    · exact ⟨_, rfl, inside.setCursor lawful ⟨uint8_clamp_lt lawful.rows, uint8_clamp_lt lawful.cols⟩⟩
    · exact ⟨_, rfl, inside.setCursor lawful ⟨uint8_clamp_lt lawful.rows, uint8_clamp_lt lawful.cols⟩⟩
    · split
      · exact ⟨_, rfl, inside.clear lawful⟩
      · split
        · obtain ⟨t₁, done, inside₁⟩ := inside.blank lawful onRow belowCols (UInt8.le_refl _) col
          rw [done, Option.bind_some]
          refine forLoop_ends (fun _ => decide_eq_true_iff) (fun r t onRow inside => ?_) (row + 1) inside₁
          exact inside.blank lawful onRow belowCols (UInt8.le_refl _) 0
        · exact ⟨_, rfl, inside⟩
    · split
      · exact inside.blank lawful onRow belowCols (UInt8.le_refl _) col
      · split
        · refine inside.blank lawful onRow (n := col + 1) (fun i => ?_) ?_ 0
          · rw [decide_eq_true_iff, UInt8.le_iff_toNat_le, UInt8.lt_iff_toNat_lt, toNat_succ onCol]
            omega
          · rw [UInt8.le_iff_toNat_le, toNat_succ onCol]
            exact UInt8.lt_iff_toNat_lt.mp onCol
        · split
          · exact inside.blank lawful onRow belowCols (UInt8.le_refl _) 0
          · exact ⟨_, rfl, inside⟩
    · exact ⟨_, rfl, inside.applySgr lawful⟩
    · exact ⟨_, rfl, inside⟩

/-- The condition on a byte is one on the counts of the sequence that it ends. -/
theorem Measured.counted (measured : Measured be t c) (isCsi : t.tty.state = .csi) :
    Counted be c { t with tty := t.tty.pushParam } := by
  obtain ⟨positive, down, right⟩ := measured isCsi
  have atMost : t.tty.pushParam.count ≤ _ := Tty.count_le
  rw [Tty.pushParam_first] at atMost
  refine ⟨fun moves => Tty.count_pos ?_, fun isDown => ?_, fun isRight => ?_⟩
  · rw [Tty.pushParam_first]
    exact positive moves
  · have sum := down isDown
    have small := (be.getCursor t.dev).1.toNat_lt
    show ((be.getCursor t.dev).1.toNat : Int) + t.tty.pushParam.count < _
    omega
  · have sum := right isRight
    have small := (be.getCursor t.dev).2.toNat_lt
    show ((be.getCursor t.dev).2.toNat : Int) + t.tty.pushParam.count < _
    omega

theorem pred_lt (positive : 1 ≤ a) (below : a ≤ b) : a - 1 < b := by
  rw [UInt8.lt_iff_toNat_lt, UInt8.toNat_sub_of_le _ _ positive]
  rw [UInt8.le_iff_toNat_le] at positive below
  exact Nat.lt_of_lt_of_le (Nat.sub_lt positive Nat.one_pos) below

/-- The cursor goes on after a character; below the last row the screen scrolls. -/
theorem Inside.advance (lawful : be.Lawful) (inside : Inside be t) (onCol : col < be.cols) :
    Inside be (if be.rows ≤ row then Term.setCursor be (be.rows - 1) col (Term.scroll be t) else Term.setCursor be row col t) := by
  split
  · exact inside.scroll.setCursor lawful ⟨pred_lt lawful.rows (UInt8.le_refl _), onCol⟩
  · next below => exact inside.setCursor lawful ⟨UInt8.not_le.mp below, onCol⟩

theorem Inside.ttyOutputChar (lawful : be.Lawful) (inside : Inside be t) (c : UInt8) : Inside be (Term.ttyOutputChar be c t) := by
  obtain ⟨onRow, onCol⟩ := inside.cursor
  have first : (0 : UInt8) < be.cols := UInt8.lt_of_lt_of_le (by decide) lawful.cols
  have scrolled := lawful.scroll t.dev
  rw [Term.ttyOutputChar]
  cases isCursor : be.getCursor t.dev with
  | mk row col =>
    rw [isCursor] at onRow onCol scrolled
    dsimp only at onRow onCol ⊢
    split
    · split
      · -- the row after scrolling is the old one, or the last
        refine inside.scroll.setCursor lawful ⟨?_, first⟩
        show (be.getCursor (be.scroll t.dev)).1 < be.rows
        rcases scrolled with same | last
        · rw [same]
          exact onRow
        · rw [last]
          exact pred_lt lawful.rows (UInt8.le_refl _)
      · next below => exact inside.setCursor lawful ⟨UInt8.not_le.mp below, first⟩
    · exact inside.setCursor lawful ⟨onRow, first⟩
    · split
      · next positive =>
        have one : 1 ≤ col := UInt8.le_iff_toNat_le.mpr (UInt8.lt_iff_toNat_lt.mp positive)
        have onScreen : col - 1 < be.cols := pred_lt one (UInt8.le_of_lt onCol)
        exact (inside.putAt lawful ⟨onRow, onScreen⟩).setCursor lawful ⟨onRow, onScreen⟩
      · exact inside
    · have drawn := inside.putAt (c := c) lawful ⟨onRow, onCol⟩
      by_cases wraps : be.cols ≤ col + 1
      · simp only [if_pos wraps]
        exact drawn.advance lawful first
      · simp only [if_neg wraps]
        exact drawn.advance lawful (UInt8.not_le.mp wraps)

theorem Inside.ttyProcess (lawful : be.Lawful) (inside : Inside be t) (measured : Measured be t c) :
    ∃ t', Term.ttyProcess be c t = some t' ∧ Inside be t' := by
  rw [Term.ttyProcess]
  cases isState : t.tty.state with
  | normal =>
    dsimp only
    split
    · exact ⟨_, rfl, inside.enter .esc⟩
    · exact ⟨_, rfl, inside.ttyOutputChar lawful c⟩
  | esc =>
    dsimp only
    split
    · exact ⟨_, rfl, inside.withTty (Nat.zero_le _)⟩
    · exact ⟨_, rfl, (inside.enter .normal).ttyOutputChar lawful c⟩
  | csi =>
    dsimp only
    split
    · exact ⟨_, rfl, inside.enter .csiPriv⟩
    · split
      · exact ⟨_, rfl, inside.withTty inside.count⟩
      · split
        · exact ⟨_, rfl, inside.withTty (t.tty.pushParam_count inside.count)⟩
        · split
          · have pushed := inside.withTty (t.tty.pushParam_count inside.count)
            obtain ⟨t', done, inside'⟩ := pushed.csiCommand lawful (measured.counted isState)
            rw [Term.csiDispatch, done]
            exact ⟨_, rfl, inside'.enter .normal⟩
          · exact ⟨_, rfl, inside.enter .normal⟩
  | csiPriv =>
    dsimp only
    split
    · exact ⟨_, rfl, inside.enter .normal⟩
    · exact ⟨_, rfl, inside⟩

theorem Measured.caret (lawful : be.Lawful) (measured : Measured be t c) (visible : Bool) :
    Measured be (Term.caret be visible t) c := by
  rw [Term.caret]
  split
  · exact measured
  · next drawCursor isSome =>
    rw [Measured] at measured ⊢
    rw [lawful.drawCursor drawCursor isSome]
    exact measured

theorem Inside.ttyPutchar (lawful : be.Lawful) (inside : Inside be t) (measured : Measured be t c) :
    ∃ t', Term.ttyPutchar be c t = some t' ∧ Inside be t' := by
  obtain ⟨t', done, inside'⟩ := (inside.caret lawful false).ttyProcess lawful (measured.caret lawful false)
  rw [Term.ttyPutchar, done]
  exact ⟨_, rfl, (inside'.caret lawful true).flush lawful⟩

theorem Inside.ttyInit (lawful : be.Lawful) {dev : σ} (start : be.Cell (be.getCursor dev)) : Inside be (Term.ttyInit be dev) := by
  refine caret lawful (applyColors lawful ⟨⟨Nat.zero_le _, ?_⟩, start⟩) true
  exact fun cell drawn => absurd drawn List.not_mem_nil

/-! ## Any stream of bytes -/

/-- The cursor and every cell that is drawn are on the screen after every byte, the parameters fit in their array, and no
byte takes the terminal into an endless loop. -/
theorem cursor_stays_on_screen (lawful : be.Lawful) {dev : σ} (start : be.Cell (be.getCursor dev))
    {bytes : List (UInt8 × Unit)} {s : Option (Term σ)}
    (run : Run (Term.step be) (Tame be) (some (Term.ttyInit be dev)) bytes s) :
    ∃ t, s = some t ∧ be.Cell (be.getCursor t.dev) ∧ (∀ cell ∈ t.puts, be.Cell cell) ∧ t.tty.csiParamCount ≤ csiParamsMax := by
  have kept := run.invariant (I := fun s => ∃ t, s = some t ∧ Inside be t) (fun {s op ans s'} known allowed stepped => ?_)
    ⟨_, rfl, Inside.ttyInit lawful start⟩
  · obtain ⟨t, isSome, inside⟩ := kept
    exact ⟨t, isSome, inside.cursor, inside.puts, inside.count⟩
  · obtain ⟨t, rfl, inside⟩ := known
    cases stepped
    exact inside.ttyPutchar lawful allowed

theorem vgaBackend_lawful : vgaBackend.Lawful where
  rows := by decide
  cols := by decide
  setCursor row col _ := Prod.ext (UInt8.toUInt8_toUInt32 row) (UInt8.toUInt8_toUInt32 col)
  putAt c row col v := by
    show Vga.getCursor (Vga.putAt c row col v) = v.getCursor
    rw [Vga.putAt]
    split <;> rfl
  scroll _ := Or.inr (show (24 : UInt32).toUInt8 = (25 : UInt8) - 1 by decide)
  clear _ := rfl
  setColors := nofun
  drawCursor := nofun
  flush := nofun

/-- The VGA console when the machine starts. -/
def blankVga : Vga := ⟨fun _ => 0x0720, 0, 0⟩

/-- `ESC [ 2 ; 3 H`, a letter, `ESC [ 9 9 B`, `ESC [ 1 K`. -/
def sampleBytes : List UInt8 := [27, 91, 50, 59, 51, 72, 120, 27, 91, 57, 57, 66, 27, 91, 49, 75]

theorem cursor_stays_on_screen_sample : ∃ bytes s,
    Run (Term.step vgaBackend) (Tame vgaBackend) (some (Term.ttyInit vgaBackend blankVga)) bytes s ∧
      ∃ t, s = some t ∧ vgaBackend.Cell (vgaBackend.getCursor t.dev) := by
  have allowed : AllAllowed (Term.step vgaBackend) (Tame vgaBackend) (some (Term.ttyInit vgaBackend blankVga))
      sampleBytes := by
    decide +kernel
  have start : vgaBackend.Cell (vgaBackend.getCursor blankVga) := by decide
  have run := Run.of_execute sampleBytes allowed
  obtain ⟨t, isSome, onScreen, -⟩ := cursor_stays_on_screen vgaBackend_lawful start run
  exact ⟨_, _, run, t, isSome, onScreen⟩

/-- `ESC [ 4294967096 A`: the count is -200 as an `int`. -/
def negativeUp : List UInt8 := [27, 91, 52, 50, 57, 52, 57, 54, 55, 48, 57, 54, 65]

/-- On the VGA console with the cursor at home, the sequence takes the cursor to row 200, and the next letter is drawn there. -/
theorem negative_count_leaves_screen : vgaBackend.Lawful ∧ vgaBackend.Cell (vgaBackend.getCursor blankVga) ∧
    (execute (Term.step vgaBackend) (some (Term.ttyInit vgaBackend blankVga)) negativeUp).2.map
      (fun t => vgaBackend.getCursor t.dev) = some (200, 0) ∧
    (execute (Term.step vgaBackend) (some (Term.ttyInit vgaBackend blankVga)) (negativeUp ++ [120])).2.map
      (fun t => t.puts) = some [(200, 0)] ∧
    ¬ vgaBackend.Cell (200, 0) :=
  ⟨vgaBackend_lawful, by decide, by decide +kernel, by decide +kernel, by decide⟩

/-! ## Output that ends -/

/-- The byte does not end `ESC [ 1 K` while the cursor is in column 255, as the backend tells once the caret is erased. -/
def Erasable (be : Backend σ) (t : Term σ) (c : UInt8) : Prop :=
  t.tty.state = .csi → Char.ofUInt8 c = 'K' → t.tty.firstParam = 1 → (be.getCursor (Term.caret be false t).dev).2 < 255
  deriving Decidable

theorem Term.blank_returns (be : Backend σ) (t : Term σ) (row start : UInt8) (goes : ∀ i, go i = true ↔ i < n) : ∃ t', Term.blank be row start go t = some t' := by
  obtain ⟨t', done, -⟩ := forLoop_ends (I := fun _ => True) goes (fun _ _ _ _ => ⟨_, rfl, trivial⟩) start trivial
  exact ⟨t', done⟩

theorem Term.csiCommand_returns (be : Backend σ) (t : Term σ) {final : UInt8}
    (left : Char.ofUInt8 final = 'K' → t.tty.csiParams 0 = 1 → (be.getCursor t.dev).2 < 255) :
    ∃ t', Term.csiCommand be final t = some t' := by
  have belowCols : ∀ i : UInt8, decide (i < be.cols) = true ↔ i < be.cols := fun i => decide_eq_true_iff
  rw [Term.csiCommand]
  cases isCursor : be.getCursor t.dev with
  | mk row col =>
    rw [isCursor] at left
    dsimp only at left ⊢
    split
    case h_8 =>
      split
      · exact ⟨_, rfl⟩
      · split
        · obtain ⟨t₁, done⟩ := blank_returns be t row col belowCols
          rw [done, Option.bind_some]
          obtain ⟨t₂, ended, -⟩ := forLoop_ends (I := fun _ => True) (fun _ => decide_eq_true_iff)
            (fun r t _ _ => (blank_returns be t r 0 belowCols).imp fun _ done => ⟨done, trivial⟩) (row + 1) trivial
          exact ⟨t₂, ended⟩
        · exact ⟨_, rfl⟩
    case h_9 isErase =>
      split
      · exact blank_returns be t row col belowCols
      · split
        · next toCursor =>
          refine blank_returns (n := col + 1) be t row 0 fun i => ?_
          rw [decide_eq_true_iff, UInt8.le_iff_toNat_le, UInt8.lt_iff_toNat_lt, toNat_succ (left isErase toCursor)]
          omega
        · split
          · exact blank_returns be t row 0 belowCols
          · exact ⟨_, rfl⟩
    all_goals exact ⟨_, rfl⟩

theorem Erasable.ttyPutchar (erasable : Erasable be t c) : ∃ t', Term.ttyPutchar be c t = some t' := by
  have sameTty : (Term.caret be false t).tty = t.tty := by
    rw [Term.caret]
    split <;> rfl
  suffices returns : ∃ t', Term.ttyProcess be c (Term.caret be false t) = some t' by
    obtain ⟨t', done⟩ := returns
    exact ⟨_, by rw [Term.ttyPutchar, done, Option.map_some]⟩
  rw [Erasable, ← sameTty] at erasable
  generalize Term.caret be false t = t at erasable
  rw [Term.ttyProcess]
  cases isState : t.tty.state with
  | normal | esc | csiPriv =>
    dsimp only
    split <;> exact ⟨_, rfl⟩
  | csi =>
    dsimp only
    split
    · exact ⟨_, rfl⟩
    · split
      · exact ⟨_, rfl⟩
      · split
        · exact ⟨_, rfl⟩
        · split
          · obtain ⟨t', done⟩ := Term.csiCommand_returns be { t with tty := t.tty.pushParam }
              fun isErase toCursor => erasable isState isErase (t.tty.pushParam_first ▸ toCursor)
            exact ⟨_, by rw [Term.csiDispatch, done, Option.map_some]⟩
          · exact ⟨_, rfl⟩

/-- Over any backend and from any state of the terminal, every byte returns. -/
theorem output_ends {t₀ : Term σ} {bytes : List (UInt8 × Unit)} {s : Option (Term σ)}
    (run : Run (Term.step be) (fun s c => ∀ t ∈ s, Erasable be t c) (some t₀) bytes s) : ∃ t, s = some t := by
  refine run.invariant (I := fun s => ∃ t, s = some t) (fun {s op ans s'} known allowed stepped => ?_) ⟨t₀, rfl⟩
  obtain ⟨t, rfl⟩ := known
  cases stepped
  exact (allowed t rfl).ttyPutchar

theorem output_ends_sample : ∃ bytes s, Run (Term.step vgaBackend) (fun s c => ∀ t ∈ s, Erasable vgaBackend t c)
    (some (Term.ttyInit vgaBackend blankVga)) bytes s ∧ ∃ t, s = some t := by
  have allowed : AllAllowed (Term.step vgaBackend) (fun s c => ∀ t ∈ s, Erasable vgaBackend t c)
      (some (Term.ttyInit vgaBackend blankVga)) sampleBytes := by
    decide +kernel
  have run := Run.of_execute sampleBytes allowed
  exact ⟨_, _, run, output_ends run⟩

/-- `ESC [ 4294967041 D` takes the cursor to column 255, and `ESC [ 1 K` does not return from there. -/
theorem erase_does_not_end : vgaBackend.Lawful ∧
    (execute (Term.step vgaBackend) (some (Term.ttyInit vgaBackend blankVga))
      [27, 91, 52, 50, 57, 52, 57, 54, 55, 48, 52, 49, 68, 27, 91, 49, 75]).2.isNone = true :=
  ⟨vgaBackend_lawful, by decide +kernel⟩

end GinnOS.Terminal
