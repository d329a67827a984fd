import Mathlib.Data.List.TakeWhile

/-! # The tokenizer of the shell (`user/sh/tokenizer.c`)

A line is a string of bytes without NUL, and the end of the list is its terminator.  The three loops
over the line are `word`, `single` and `double`; each goes on where another one stops.
-/

namespace GinnOS.Shell

open List

def tokenMax : Nat := 32

/-- `TOKEN_LEN`, with the terminator. -/
def tokenLen : Nat := 128

abbrev backslash : UInt8 := 92
abbrev quote : UInt8 := 39
abbrev doubleQuote : UInt8 := 34
abbrev dollar : UInt8 := 36
abbrev space : UInt8 := 32

def isBlank (c : UInt8) : Bool := c == 32 || c == 9

/-- A character inside quotes, dropped when the token is full. -/
def push (out : List UInt8) (c : UInt8) : List UInt8 := if out.length < tokenLen - 1 then out ++ [c] else out

mutual

/-- The loop that builds a token: what is left of the line, and the token. -/
def word : (p out : List UInt8) → List UInt8 × List UInt8
  | [], out => ([], out)
  | c :: p, out =>
    if tokenLen - 1 ≤ out.length then (c :: p, out)
    else if isBlank c then (c :: p, out)
    else if c = backslash then escaped p out
    else if c = quote then single p out
    else if c = doubleQuote then double p out
    else word p (out ++ [c])
termination_by structural p _ => p

/-- Behind a backslash. -/
def escaped : (p out : List UInt8) → List UInt8 × List UInt8
  | [], out => ([], out)
  | c :: p, out => word p (out ++ [c])
termination_by structural p _ => p

/-- Behind a single quote. -/
def single : (p out : List UInt8) → List UInt8 × List UInt8
  | [], out => ([], out)
  | c :: p, out => if c = quote then word p out else single p (push out c)
termination_by structural p _ => p

/-- Behind a double quote. -/
def double : (p out : List UInt8) → List UInt8 × List UInt8
  | [], out => ([], out)
  | c :: p, out =>
    if c = doubleQuote then word p out
    else if c = backslash then doubleEscaped p out
    else double p (push out c)
termination_by structural p _ => p

/-- Behind a backslash in double quotes, which stays in front of a character it does not escape. -/
def doubleEscaped : (p out : List UInt8) → List UInt8 × List UInt8
  | [], out => ([], push out backslash)
  | c :: p, out =>
    if c = backslash ∨ c = doubleQuote ∨ c = dollar then double p (push out c)
    else double p (push (push out backslash) c)
termination_by structural p _ => p

end

/-- The outer loop. -/
def tokenizeLoop : (rounds : Nat) → (p : List UInt8) → (tokens : List (List UInt8)) → Option (List (List UInt8))
  | 0, _, _ => none
  | rounds + 1, p, tokens =>
    if p = [] ∨ tokenMax ≤ tokens.length then some tokens
    else if p.dropWhile isBlank = [] then some tokens
    else
      let (rest, out) := word (p.dropWhile isBlank) []
      tokenizeLoop rounds rest (if 0 < out.length then tokens ++ [out] else tokens)

/-- `tokenize`; every round of the loop takes a character at least. -/
def tokenize (input : List UInt8) : Option (List (List UInt8)) := tokenizeLoop (input.length + 1) input []

end GinnOS.Shell
