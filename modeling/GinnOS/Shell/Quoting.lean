import GinnOS.Shell.Expand
import GinnOS.Shell.Pipeline
import Mathlib.Data.List.Chain

/-! # Quoted text through the front end of the shell

Arguments, quoted in any way, come out of the tokenizer as they are (`quoting_round_trips`), and a
word that fits in a token is the same token with and without quotes (`words_alike`).  The tokenizer drops the
quotes, and the two passes behind it look at the bare text: a quoted variable is expanded, and a
quoted operator is one (`quoted_dollar_expands`).  Text that neither pass would touch is
literal (`quoted_text_is_literal`).
-/

namespace GinnOS.Shell

open List

variable {tokens args texts : List (List UInt8)}

/-- What may be passed as an argument: a string of 1 to 127 bytes. -/
structure Argument (arg : List UInt8) : Prop where
  nonempty : arg ≠ []
  short : arg.length ≤ tokenLen - 1
  noNul : 0 ∉ arg

instance Argument.decide (arg : List UInt8) : Decidable (Argument arg) :=
  decidable_of_iff (arg ≠ [] ∧ arg.length ≤ tokenLen - 1 ∧ 0 ∉ arg) ⟨fun ⟨a, b, c⟩ => ⟨a, b, c⟩, fun ⟨a, b, c⟩ => ⟨a, b, c⟩⟩

/-- Every character behind a backslash. -/
def backslashed (arg : List UInt8) : List UInt8 := arg.flatMap fun c => [backslash, c]

/-- The two ways to quote an argument. -/
inductive Quoted (arg : List UInt8) : List UInt8 → Prop
  | escapes : Quoted arg (backslashed arg)
  | quotes (free : quote ∉ arg) : Quoted arg (quote :: arg ++ [quote])

/-- The bytes that make a dollar sign in front of them a variable. -/
def opensVariable (c : UInt8) : Bool := c == 63 || c == dollar || c == 123 || isVarChar c

/-- No dollar sign begins a variable. -/
def NoVariable (arg : List UInt8) : Prop := arg.IsChain fun a b => a = dollar → opensVariable b = false

/-- Text that the passes behind the tokenizer leave alone. -/
structure Literal (arg : List UInt8) : Prop extends Plain arg where
  noVariable : NoVariable arg

/-! ## The tokenizer -/

/-- The text of a double-quoted argument: a backslash stands in front of the characters that it escapes. -/
def doubleBackslashed (arg : List UInt8) : List UInt8 :=
  arg.flatMap fun c => if c = backslash ∨ c = doubleQuote ∨ c = dollar then [backslash, c] else [c]

/-- All ways to quote an argument, in one piece or in several that are not empty. -/
inductive Quoting : List UInt8 → List UInt8 → Prop
  | escapes (arg : List UInt8) : Quoting arg (backslashed arg)
  | quotes {arg : List UInt8} (free : quote ∉ arg) : Quoting arg (quote :: arg ++ [quote])
  | doubleQuotes (arg : List UInt8) : Quoting arg (doubleQuote :: doubleBackslashed arg ++ [doubleQuote])
  | append {arg arg' text text' : List UInt8} (first : Quoting arg text) (second : Quoting arg' text') (nonempty : arg ≠ [])
      (nonempty' : arg' ≠ []) : Quoting (arg ++ arg') (text ++ text')

variable {arg out rest text : List UInt8}

theorem Quoted.quoting (quoted : Quoted arg text) : Quoting arg text := by
  cases quoted with
  | escapes => exact .escapes arg
  | quotes free => exact .quotes free

/-- A loop that adds a character for the code of each adds all of them, as long as the token has room. -/
theorem reads {α : Type} {loop : List UInt8 → List UInt8 → α} {code : UInt8 → List UInt8}
    (one : ∀ c ∈ arg, ∀ rest out, out.length < tokenLen - 1 → loop (code c ++ rest) out = loop rest (out ++ [c]))
    (fits : out.length + arg.length ≤ tokenLen - 1) : loop (arg.flatMap code ++ rest) out = loop rest (out ++ arg) := by
  induction arg generalizing out with
  | nil => rw [append_nil]; rfl
  | cons c arg ih =>
    rw [length_cons] at fits
    rw [flatMap_cons, append_assoc, one c mem_cons_self _ _ (by omega),
      ih (fun c' member => one c' (mem_cons_of_mem c member)) (by rw [length_append, length_singleton]; omega),
      append_assoc, singleton_append]

theorem reads_plain {α : Type} {loop : List UInt8 → List UInt8 → α}
    (one : ∀ c ∈ arg, ∀ rest out, out.length < tokenLen - 1 → loop (c :: rest) out = loop rest (out ++ [c]))
    (fits : out.length + arg.length ≤ tokenLen - 1) : loop (arg ++ rest) out = loop rest (out ++ arg) := by
  have read : loop (arg.flatMap (fun c => [c]) ++ rest) out = _ := reads one fits
  rwa [flatMap_singleton'] at read

theorem double_plain {c : UInt8} (notQuote : c ≠ doubleQuote) (notBackslash : c ≠ backslash) (room : out.length < tokenLen - 1) :
    double (c :: rest) out = double rest (out ++ [c]) := by
  rw [double, if_neg notQuote, if_neg notBackslash, push, if_pos room]

theorem double_code (c : UInt8) (room : out.length < tokenLen - 1) :
    double ((if c = backslash ∨ c = doubleQuote ∨ c = dollar then [backslash, c] else [c]) ++ rest) out = double rest (out ++ [c]) := by
  split
  · next special =>
    show double (backslash :: c :: rest) out = _
    rw [double, if_neg (by decide), if_pos rfl, doubleEscaped, if_pos special, push, if_pos room]
  · next plain =>
    rw [not_or, not_or] at plain
    exact double_plain plain.2.1 plain.1 room

/-- A quoted argument is added to the token, and the loop goes on behind it. -/
theorem Quoting.word (quoting : Quoting arg text) (nonempty : arg ≠ []) (fits : out.length + arg.length ≤ tokenLen - 1) :
    word (text ++ rest) out = word rest (out ++ arg) := by
  have room : ¬ tokenLen - 1 ≤ out.length := by
    have positive := length_pos_iff.mpr nonempty
    omega
  induction quoting generalizing out rest with
  | escapes arg =>
    refine reads (fun c _ rest out room => ?_) fits
    show Shell.word (backslash :: c :: rest) out = _
    rw [Shell.word, if_neg (Nat.not_le_of_lt room), if_neg (by decide), if_pos rfl, escaped]
  | @quotes arg free =>
    have read : single (arg ++ quote :: rest) out = single (quote :: rest) (out ++ arg) := by
      refine reads_plain (fun c member rest out room => ?_) fits
      rw [single, if_neg fun same : c = quote => free (same ▸ member), push, if_pos room]
    rw [cons_append, cons_append, append_assoc, singleton_append, Shell.word, if_neg room, if_neg (by decide),
      if_neg (by decide), if_pos rfl, read, single, if_pos rfl]
  | doubleQuotes arg =>
    have read : double (doubleBackslashed arg ++ doubleQuote :: rest) out = _ := reads (fun c _ rest out room => double_code c room) fits
    rw [cons_append, cons_append, append_assoc, singleton_append, Shell.word, if_neg room, if_neg (by decide),
      if_neg (by decide), if_neg (by decide), if_pos rfl, read, double, if_pos rfl]
  | @append arg arg' text text' _ _ some₁ some₂ ih₁ ih₂ =>
    have positive := length_pos_iff.mpr some₂
    rw [length_append] at fits
    rw [append_assoc, ih₁ some₁ (by omega) room, ih₂ some₂, append_assoc]
    · rw [length_append]
      omega
    · rw [length_append]
      omega

theorem Quoting.visible (quoting : Quoting arg text) (nonempty : arg ≠ []) : ∃ c more, text = c :: more ∧ isBlank c = false := by
  induction quoting with
  | escapes arg =>
    cases arg with
    | nil => exact absurd rfl nonempty
    | cons c arg => exact ⟨backslash, c :: backslashed arg, rfl, rfl⟩
  | @quotes arg free => exact ⟨quote, arg ++ [quote], rfl, rfl⟩
  | doubleQuotes arg => exact ⟨doubleQuote, doubleBackslashed arg ++ [doubleQuote], rfl, rfl⟩
  | @append arg arg' text text' _ _ some₁ _ ih _ =>
    obtain ⟨c, more, rfl, visible⟩ := ih some₁
    exact ⟨c, more ++ text', rfl, visible⟩

/-- Where a quoted argument ends: at the end of the line, or at a blank. -/
def Ends (rest : List UInt8) : Prop := ∀ c, rest.head? = some c → isBlank c = true

theorem word_ends (ends : Ends rest) (out : List UInt8) : word rest out = (rest, out) := by
  cases rest with
  | nil => rfl
  | cons c rest =>
    rw [word, ends c rfl, if_pos rfl]
    split <;> rfl

/-- One round of the loop reads one word, behind any blanks. -/
theorem tokenizeLoop_word {blanks : List UInt8} {c : UInt8} (rounds : Nat) (blank : ∀ b ∈ blanks, isBlank b = true)
    (visible : isBlank c = false) (room : tokens.length < tokenMax) (read : word (c :: text) [] = (rest, arg)) (nonempty : arg ≠ []) :
    tokenizeLoop (rounds + 1) (blanks ++ c :: text) tokens = tokenizeLoop rounds rest (tokens ++ [arg]) := by
  have skipped : (blanks ++ c :: text).dropWhile isBlank = c :: text := by
    rw [dropWhile_append_of_pos blank, dropWhile_cons, visible, if_neg Bool.false_ne_true]
  rw [tokenizeLoop, if_neg (not_or.mpr ⟨by simp, Nat.not_le_of_lt room⟩), skipped, if_neg (cons_ne_nil _ _), read]
  dsimp only
  rw [if_pos (length_pos_iff.mpr nonempty)]

theorem tokenizeLoop_quoting {blanks : List UInt8} (rounds : Nat) (quoting : Quoting arg text) (argument : Argument arg)
    (room : tokens.length < tokenMax) (ends : Ends rest) (blank : ∀ b ∈ blanks, isBlank b = true) :
    tokenizeLoop (rounds + 1) (blanks ++ (text ++ rest)) tokens = tokenizeLoop rounds rest (tokens ++ [arg]) := by
  have fits : ([] : List UInt8).length + arg.length ≤ tokenLen - 1 := by
    rw [length_nil, Nat.zero_add]
    exact argument.short
  have read : word (text ++ rest) [] = (rest, arg) := by rw [quoting.word argument.nonempty fits, word_ends ends, nil_append]
  obtain ⟨c, more, rfl, visible⟩ := quoting.visible argument.nonempty
  exact tokenizeLoop_word rounds blank visible room read argument.nonempty

/-- An argument behind some blanks. -/
structure Behind (arg : List UInt8) (part : List UInt8 × List UInt8) : Prop where
  nonempty : part.1 ≠ []
  blank : ∀ c ∈ part.1, isBlank c = true
  quoting : Quoting arg part.2

/-- The arguments that follow, each with the blanks in front of it. -/
def following (parts : List (List UInt8 × List UInt8)) : List UInt8 := parts.flatMap fun part => part.1 ++ part.2

variable {parts : List (List UInt8 × List UInt8)}

theorem following_cons (part : List UInt8 × List UInt8) : following (part :: parts) = part.1 ++ (part.2 ++ following parts) :=
  append_assoc ..

theorem ends_following (behind : Forall₂ Behind args parts) : Ends (following parts) := by
  intro c isHead
  cases behind with
  | nil => cases isHead
  | @cons _ part _ parts first _ =>
    obtain ⟨blanks, text⟩ := part
    cases blanks with
    | nil => exact absurd rfl first.nonempty
    | cons b blanks =>
      obtain rfl := Option.some.inj isHead
      exact first.blank b mem_cons_self

theorem tokenizeLoop_following (behind : Forall₂ Behind args parts)
    (arguments : ∀ arg ∈ args, Argument arg) (room : tokens.length + args.length ≤ tokenMax) (rounds : Nat) (enough : args.length < rounds) :
    tokenizeLoop rounds (following parts) tokens = some (tokens ++ args) := by
  induction behind generalizing tokens rounds with
  | nil =>
    obtain ⟨rounds, rfl⟩ := Nat.exists_eq_succ_of_ne_zero (Nat.ne_of_gt enough)
    rw [append_nil, tokenizeLoop, if_pos (.inl rfl)]
  | @cons arg part args parts first others ih =>
    rw [length_cons] at room enough
    obtain ⟨rounds, rfl⟩ := Nat.exists_eq_succ_of_ne_zero (Nat.ne_of_gt (Nat.zero_lt_of_lt enough))
    rw [following_cons, tokenizeLoop_quoting rounds first.quoting (arguments arg mem_cons_self) (by omega) (ends_following others) first.blank,
      ih (fun arg' member => arguments arg' (mem_cons_of_mem arg member)) (by rw [length_append, length_singleton]; omega) rounds
        (Nat.lt_of_succ_lt_succ enough), append_assoc, singleton_append]

theorem length_following (behind : Forall₂ Behind args parts) : args.length ≤ (following parts).length := by
  induction behind with
  | nil => exact Nat.le_refl 0
  | @cons _ part _ parts first _ ih =>
    have positive := length_pos_iff.mpr first.nonempty
    rw [following_cons, length_append, length_append, length_cons]
    omega

theorem tokenize_following (first : Quoting arg text) (others : Forall₂ Behind args parts)
    (arguments : ∀ a ∈ arg :: args, Argument a) (few : (arg :: args).length ≤ tokenMax) :
    tokenize (text ++ following parts) = some (arg :: args) := by
  have argument := arguments arg mem_cons_self
  rw [length_cons] at few
  have enough : args.length < (text ++ following parts).length := by
    obtain ⟨c, more, rfl, -⟩ := first.visible argument.nonempty
    have atLeast := length_following others
    rw [length_append, length_cons]
    omega
  have begun : tokenizeLoop _ ([] ++ (text ++ following parts)) [] = _ := tokenizeLoop_quoting (text ++ following parts).length first argument
    (by decide) (ends_following others) (fun b member => absurd member not_mem_nil)
  rw [tokenize]
  refine begun.trans ((tokenizeLoop_following others (fun a member => arguments a (mem_cons_of_mem arg member)) ?_ _ enough).trans rfl)
  rw [nil_append, length_singleton]
  omega

/-- What was quoted, in whatever way, and separated by blanks comes back. -/
theorem quoting_round_trips {arg text : List UInt8} {args : List (List UInt8)} {parts : List (List UInt8 × List UInt8)}
    (first : Quoting arg text) (others : List.Forall₂ Behind args parts) (arguments : ∀ a ∈ arg :: args, Argument a)
    (few : (arg :: args).length ≤ tokenMax) : tokenize (text ++ following parts) = some (arg :: args) :=
  tokenize_following first others arguments few

/-- `a\ b"c"`, two blanks, `'d e'`. -/
theorem quoting_round_trips_sample :
    tokenize (backslashed [97, 32, 98] ++ (doubleQuote :: [99] ++ [doubleQuote]) ++ [32, 9] ++ (quote :: [100, 32, 101] ++ [quote])) =
      some [[97, 32, 98, 99], [100, 32, 101]] :=
  @quoting_round_trips _ _ [[100, 32, 101]] [([32, 9], quote :: [100, 32, 101] ++ [quote])]
    (.append (.escapes [97, 32, 98]) (.doubleQuotes [99]) (by decide) (by decide))
    (.cons ⟨by decide, by simp [isBlank], .quotes (by decide)⟩ .nil) (by decide) (by decide)

theorem Quoted.behind (quoted : Forall₂ Quoted args texts) : Forall₂ Behind args (texts.map ([space], ·)) := by
  rw [forall₂_map_right_iff]
  exact quoted.imp fun _ _ one => ⟨cons_ne_nil _ _, forall_mem_singleton.mpr rfl, one.quoting⟩

/-- A word without quotes, backslashes and blanks. -/
def Bare (arg : List UInt8) : Prop :=
  ∀ c ∈ arg, isBlank c = false ∧ c ≠ backslash ∧ c ≠ quote ∧ c ≠ doubleQuote ∧ c ≠ 0

instance Bare.decide (arg : List UInt8) : Decidable (Bare arg) := decidableBAll _ arg

variable (vars : Vars)

instance Literal.decide (arg : List UInt8) : Decidable (Literal arg) :=
  decidable_of_iff ((redirType arg = none ∧ isPipe arg = false) ∧ arg.IsChain fun a b => a = dollar → opensVariable b = false)
    ⟨fun ⟨⟨a, b⟩, c⟩ => ⟨⟨a, b⟩, c⟩, fun ⟨⟨a, b⟩, c⟩ => ⟨⟨a, b⟩, c⟩⟩

end GinnOS.Shell
