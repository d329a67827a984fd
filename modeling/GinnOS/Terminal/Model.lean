import GinnOS.Lib.Ints
import Mathlib.Algebra.GroupWithZero.Nat
import Mathlib.Data.List.FinRange

/-! # The terminal (`kernel/tty/tty.c`)

The escape parser, the cursor handling and the output of one byte, over any character-cell backend.
A `Term` is a terminal together with the state of its backend and the cells that were drawn.  An
`int` is taken modulo 2³², a row or a column is a `uint8_t`.  `vgaBackend` is the text console of
`kernel/console/console.c`.
-/

namespace GinnOS.Terminal

open Lib

/-- `TTY_CSI_PARAMS_MAX`. -/
abbrev csiParamsMax : Nat := 4

instance csiParams_nonzero : NeZero csiParamsMax := ⟨by decide⟩

/-- `tty_backend_t`; the operations that may be null are optional. -/
structure Backend (σ : Type) where
  putAt : UInt8 → (row col : UInt8) → σ → σ
  scroll : σ → σ
  clear : σ → σ
  setCursor : (row col : UInt8) → σ → σ
  getCursor : σ → UInt8 × UInt8
  setColors : Option ((fg bg : UInt8) → σ → σ)
  drawCursor : Option ((row col : UInt8) → Bool → σ → σ)
  flush : Option (σ → σ)
  rows : UInt8
  cols : UInt8

inductive TtyState where
  | normal
  | esc
  | csi
  | csiPriv
deriving DecidableEq, Repr

/-- `tty_t` without the pointer to the backend. -/
structure Tty where
  state : TtyState
  csiParams : Fin csiParamsMax → Int
  csiParamCount : Nat
  csiCurrentParam : Int
  mode : UInt8
  fg : UInt8
  bg : UInt8
  bold : Bool

/-- A terminal, its backend's state, and the cells of all calls of `put_at`. -/
structure Term (σ : Type) where
  tty : Tty
  dev : σ
  puts : List (UInt8 × UInt8)

/-! ## The parser's parameters and colours -/

namespace Tty

def csiReset (tty : Tty) : Tty := { tty with csiParamCount := 0, csiCurrentParam := 0, csiParams := fun _ => 0 }

/-- The parameter that was read becomes the next one of the sequence, if there is room. -/
def pushParam (tty : Tty) : Tty :=
  if room : tty.csiParamCount < csiParamsMax then
    { tty with
      csiParams := Function.update tty.csiParams ⟨tty.csiParamCount, room⟩ tty.csiCurrentParam
      csiParamCount := tty.csiParamCount + 1 }
  else tty

/-- One parameter of an SGR sequence. -/
def sgr (tty : Tty) (p : Int) : Tty :=
  if p = 0 then { tty with fg := 7, bg := 0, bold := false }
  else if p = 1 then { tty with bold := true }
  else if p = 22 then { tty with bold := false }
  else if 30 ≤ p ∧ p ≤ 37 then { tty with fg := uint8 (p - 30) }
  else if p = 39 then { tty with fg := 7 }
  else if 40 ≤ p ∧ p ≤ 47 then { tty with bg := uint8 (p - 40) }
  else if p = 49 then { tty with bg := 0 }
  else if 90 ≤ p ∧ p ≤ 97 then { tty with fg := uint8 (p - 90 + 8) }
  else if 100 ≤ p ∧ p ≤ 107 then { tty with bg := uint8 (p - 100 + 8) }
  else tty

/-- `csi_params[0] ? csi_params[0] : 1`. -/
def count (tty : Tty) : Int := if tty.csiParams 0 ≠ 0 then tty.csiParams 0 else 1

end Tty

/-! ## Drawing -/

namespace Term

variable {σ : Type} (be : Backend σ)

def putAt (c : UInt8) (row col : UInt8) (t : Term σ) : Term σ :=
  { t with dev := be.putAt c row col t.dev, puts := t.puts ++ [(row, col)] }

def setCursor (row col : UInt8) (t : Term σ) : Term σ := { t with dev := be.setCursor row col t.dev }

def scroll (t : Term σ) : Term σ := { t with dev := be.scroll t.dev }

def clear (t : Term σ) : Term σ := { t with dev := be.clear t.dev }

def applyColors (t : Term σ) : Term σ :=
  match be.setColors with
  | none => t
  | some setColors => { t with dev := setColors (if t.tty.bold ∧ t.tty.fg < 8 then t.tty.fg + 8 else t.tty.fg) t.tty.bg t.dev }

def applySgr (t : Term σ) : Term σ :=
  let params := (List.finRange csiParamsMax).filter (·.val < t.tty.csiParamCount)
  applyColors be { t with tty := params.foldl (fun tty i => tty.sgr (t.tty.csiParams i)) t.tty }

/-- The caret is drawn or erased. -/
def caret (visible : Bool) (t : Term σ) : Term σ :=
  match be.drawCursor with
  | none => t
  | some drawCursor => { t with dev := drawCursor (be.getCursor t.dev).1 (be.getCursor t.dev).2 visible t.dev }

def flush (t : Term σ) : Term σ :=
  match be.flush with
  | none => t
  | some flush => { t with dev := flush t.dev }

end Term

/-- `for (uint8_t i = start; go(i); i++)`.  A condition that has held 256 times in a row holds for
every value, and then the loop never ends. -/
def forLoop {α : Type} (go : UInt8 → Bool) (body : UInt8 → α → Option α) : (rounds : Nat) → UInt8 → α → Option α
  | 0, _, _ => none
  | rounds + 1, i, s => if go i then (body i s).bind (forLoop go body rounds (i + 1)) else some s

namespace Term

variable {σ : Type} (be : Backend σ)

/-- Blanks in the cells of a row, as long as the condition on the column holds. -/
def blank (row : UInt8) (start : UInt8) (go : UInt8 → Bool) (t : Term σ) : Option (Term σ) :=
  forLoop go (fun c2 t => some (putAt be 32 row c2 t)) 256 start t

/-- `csi_dispatch` after the last parameter was pushed. -/
def csiCommand (final : UInt8) (t : Term σ) : Option (Term σ) :=
  let (row, col) := be.getCursor t.dev
  let rowInt : Int := row.toNat
  let colInt : Int := col.toNat
  let rows : Int := be.rows.toNat
  let cols : Int := be.cols.toNat
  match Char.ofUInt8 final with
  | 'A' =>
    let n := if rowInt < t.tty.count then rowInt else t.tty.count
    some (setCursor be (uint8 (int32 (rowInt - n))) col t)
  | 'B' =>
    let n := if rows ≤ int32 (rowInt + t.tty.count) then rows - 1 - rowInt else t.tty.count
    some (setCursor be (uint8 (int32 (rowInt + n))) col t)
  | 'C' =>
    let n := if cols ≤ int32 (colInt + t.tty.count) then cols - 1 - colInt else t.tty.count
    some (setCursor be row (uint8 (int32 (colInt + n))) t)
  | 'D' =>
    let n := if colInt < t.tty.count then colInt else t.tty.count
    some (setCursor be row (uint8 (int32 (colInt - n))) t)
  | 'G' => some (setCursor be row (uint8 (min (max t.tty.count 1) cols - 1)) t)
  | 'H' | 'f' =>
    let c := if 2 ≤ t.tty.csiParamCount ∧ t.tty.csiParams 1 ≠ 0 then t.tty.csiParams 1 else 1
    some (setCursor be (uint8 (min (max t.tty.count 1) rows - 1)) (uint8 (min (max c 1) cols - 1)) t)
  | 'J' =>
    if t.tty.csiParams 0 = 2 then some (clear be t)
    else if t.tty.csiParams 0 = 0 then
      (blank be row col (· < be.cols) t).bind
        (forLoop (· < be.rows) (fun r => blank be r 0 (· < be.cols)) 256 (row + 1))
    else some t
  | 'K' =>
    if t.tty.csiParams 0 = 0 then blank be row col (· < be.cols) t
    else if t.tty.csiParams 0 = 1 then blank be row 0 (· ≤ col) t
    else if t.tty.csiParams 0 = 2 then blank be row 0 (· < be.cols) t
    else some t
  | 'm' => some (applySgr be t)
  | _ => some t

def csiDispatch (final : UInt8) (t : Term σ) : Option (Term σ) := csiCommand be final { t with tty := t.tty.pushParam }

def ttyOutputChar (c : UInt8) (t : Term σ) : Term σ :=
  let (row, col) := be.getCursor t.dev
  match Char.ofUInt8 c with
  | '\n' =>
    if be.rows ≤ row + 1 then
      let t := scroll be t
      setCursor be (be.getCursor t.dev).1 0 t
    else setCursor be (row + 1) 0 t
  | '\r' => setCursor be row 0 t
  | '\x08' => if 0 < col then setCursor be row (col - 1) (putAt be 32 row (col - 1) t) else t
  | _ =>
    let t := putAt be c row col t
    let (row, col) := if be.cols ≤ col + 1 then (row + 1, 0) else (row, col + 1)
    if be.rows ≤ row then setCursor be (be.rows - 1) col (scroll be t) else setCursor be row col t

/-- The parser goes to another state. -/
def enter (state : TtyState) (t : Term σ) : Term σ := { t with tty := { t.tty with state := state } }

/-- `tty_process`; nothing is returned when a loop does not end. -/
def ttyProcess (c : UInt8) (t : Term σ) : Option (Term σ) :=
  match t.tty.state with
  | .normal => if c = 27 then some (enter .esc t) else some (ttyOutputChar be c t)
  | .esc =>
    if c = 91 then some { t with tty := { t.tty with state := .csi }.csiReset }
    else some (ttyOutputChar be c (enter .normal t))
  | .csi =>
    if c = 63 then some (enter .csiPriv t)
    else if 48 ≤ c ∧ c ≤ 57 then
      some { t with tty := { t.tty with csiCurrentParam := int32 (t.tty.csiCurrentParam * 10 + (c.toNat - 48)) } }
    else if c = 59 then some { t with tty := { t.tty.pushParam with csiCurrentParam := 0 } }
    else if 64 ≤ c ∧ c ≤ 126 then (csiDispatch be c t).map (enter .normal)
    else some (enter .normal t)
  | .csiPriv => if 64 ≤ c ∧ c ≤ 126 then some (enter .normal t) else some t

def ttyPutchar (c : UInt8) (t : Term σ) : Option (Term σ) :=
  (ttyProcess be c (caret be false t)).map fun t => flush be (caret be true t)

def ttyInit (dev : σ) : Term σ :=
  caret be true (applyColors be ⟨⟨.normal, fun _ => 0, 0, 0, 0, 7, 0, false⟩, dev, []⟩)

/-- One byte of the stream, for a terminal that is not in an endless loop. -/
def step (t : Option (Term σ)) (c : UInt8) : Unit × Option (Term σ) := ((), t.bind (ttyPutchar be c))

end Term

/-! ## The VGA text console -/

/-- The text buffer and the cursor of `vga.c`. -/
structure Vga where
  buffer : Nat → UInt16
  cursorRow : UInt32
  cursorCol : UInt32

namespace Vga

/-- `vga_put_at`, in light grey on black. -/
def putAt (c row col : UInt8) (v : Vga) : Vga :=
  if 25 ≤ row ∨ 80 ≤ col then v
  else { v with buffer := Function.update v.buffer (row.toNat * 80 + col.toNat) (0x0700 ||| c.toUInt16) }

/-- The columns of a row, from left to right. -/
def eachCol (body : UInt8 → Vga → Vga) (v : Vga) : Vga := (List.range 80).foldl (fun v col => body col.toUInt8 v) v

def scroll (v : Vga) : Vga :=
  let moved := (List.range 24).foldl (fun v row =>
    eachCol (fun col v => putAt (v.buffer ((row + 1) * 80 + col.toNat)).toUInt8 row.toUInt8 col v) v) v
  { eachCol (putAt 32 24) moved with cursorRow := 24 }

def clear (v : Vga) : Vga :=
  { (List.range 25).foldl (fun v row => eachCol (putAt 32 row.toUInt8) v) v with cursorRow := 0, cursorCol := 0 }

def setCursor (row col : UInt8) (v : Vga) : Vga := { v with cursorRow := row.toUInt32, cursorCol := col.toUInt32 }

def getCursor (v : Vga) : UInt8 × UInt8 := (v.cursorRow.toUInt8, v.cursorCol.toUInt8)

end Vga

def vgaBackend : Backend Vga where
  putAt := Vga.putAt
  scroll := Vga.scroll
  clear := Vga.clear
  setCursor := Vga.setCursor
  getCursor := Vga.getCursor
  setColors := none
  drawCursor := none
  flush := none
  rows := 25
  cols := 80

end GinnOS.Terminal
