import GinnOS.Lib.Ints
import GinnOS.Shell.Tokens

/-! # Variable expansion (`user/sh/expand.c`) -/

namespace GinnOS.Shell

open Lib List

/-- What the expansion reads: the environment, the last exit code and the process id. -/
structure Vars where
  env : List UInt8 → Option (List UInt8)
  lastExitCode : Int
  pid : Int

def isVarChar (c : UInt8) : Bool := (97 ≤ c && c ≤ 122) || (65 ≤ c && c ≤ 90) || (48 ≤ c && c ≤ 57) || c == 95

/-- The digits of a number, the last one first. -/
def digits : (rounds : Nat) → (val : Int) → List UInt8
  | 0, _ => []
  | rounds + 1, val => uint8 (48 + val.tmod 10) :: if 0 < val.tdiv 10 then digits rounds (val.tdiv 10) else []

def Vars.value (vars : Vars) (name : List UInt8) : List UInt8 := (vars.env name).getD []

end GinnOS.Shell
