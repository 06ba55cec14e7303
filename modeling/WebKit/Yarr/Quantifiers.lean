import Mathlib.Algebra.Group.Nat.Defs
import Mathlib.Data.List.TakeWhile
import Mathlib.Tactic.SplitIfs

/-!
# Counted quantifiers of regular expressions

The loop of `Yarr::Parser::parseTokens`, with the quantifiers that it reports to its delegate. The
pattern is a list of UTF-16 code units, and the parser's index is what is left of it. Character
classes and escapes report no quantifiers, and are any functions.
-/

namespace WebKit.Yarr

inductive ErrorCode
  | patternTooLarge | quantifierOutOfOrder | quantifierWithoutAtom | quantifierTooLarge
  | missingParentheses | parenthesesUnmatched | parenthesesTypeInvalid
  | characterClassUnmatched | characterClassOutOfOrder | escapeUnterminated

def quantifyInfinite : Nat := 2 ^ 32 - 1

/-! ## Numbers -/

def isASCIIDigit (c : Nat) : Bool := 48 ≤ c && c ≤ 57

def peekIsDigit (l : List Nat) : Bool := l.head?.any isASCIIDigit

/-- `consumeNumber`. The first digit is the step from 0. -/
def consumeNumber (n : Nat) : List Nat → Nat × List Nat
  | [] => (n, [])
  | c :: rest =>
    let newValue := (n * 10 + (c - 48)) % 2 ^ 32
    if isASCIIDigit c ∧ newValue ≥ n then consumeNumber newValue rest else (n, c :: rest)

/-- The second number of a counted quantifier, or what stands for it. -/
def consumeMax (min : Nat) : List Nat → Nat × List Nat
  | 44 :: l => if peekIsDigit l then consumeNumber 0 l else (quantifyInfinite, l)
  | l => (min, l)

/-- The numbers of a counted quantifier, if it is one, after the brace. -/
def consumeCounts (l : List Nat) : Option (Nat × Nat × List Nat) :=
  if peekIsDigit l then
    let (min, l) := consumeNumber 0 l
    match consumeMax min l with
    | (max, 125 :: rest) => some (min, max, rest)
    | _ => none
  else none

/-- The value of decimal digits after `n`. -/
def number (n : Nat) (digits : List Nat) : Nat := digits.foldl (fun n c => n * 10 + (c - 48)) n

/-- The numbers of `{n}`, `{n,}` and `{n,m}` as they are written, after the brace. -/
def written (l : List Nat) : Option (Nat × Nat) :=
  let n := number 0 (l.takeWhile isASCIIDigit)
  match l.dropWhile isASCIIDigit with
  | 125 :: _ => some (n, n)
  | 44 :: l =>
    match l.dropWhile isASCIIDigit with
    | 125 :: _ =>
      some (n, if peekIsDigit l then number 0 (l.takeWhile isASCIIDigit) else quantifyInfinite)
    | _ => none
  | _ => none

/-- No digit after `n` makes the value smaller modulo `2 ^ 32`. -/
def NeverSmaller (n : Nat) : List Nat → Prop
  | [] => True
  | c :: digits =>
    n % 2 ^ 32 ≤ (n * 10 + (c - 48)) % 2 ^ 32 ∧ NeverSmaller (n * 10 + (c - 48)) digits

/-- The numbers that are read up to their last digit. -/
theorem consumeNumber_eq_dropWhile_iff (n : Nat) (l : List Nat) :
    (consumeNumber (n % 2 ^ 32) l).2 = l.dropWhile isASCIIDigit ↔
      NeverSmaller n (l.takeWhile isASCIIDigit) := by
  induction l generalizing n with
  | nil => simp [consumeNumber, NeverSmaller]
  | cons c rest ih =>
    have hm : (n % 2 ^ 32 * 10 + (c - 48)) % 2 ^ 32 = (n * 10 + (c - 48)) % 2 ^ 32 := by omega
    rw [consumeNumber]
    simp only [hm]
    by_cases hc : isASCIIDigit c
    · rw [List.takeWhile_cons_of_pos hc, List.dropWhile_cons_of_pos hc, NeverSmaller, ← ih]
      split
      next h => exact (and_iff_right h.2).symm
      next h =>
        -- the digit stays, and the digits before `dropWhile` do not
        have hlength := (List.dropWhile_sublist isASCIIDigit (l := rest)).length_le
        refine iff_of_false (fun heq => ?_) fun hle => h ⟨hc, hle.1⟩
        rw [← heq] at hlength
        exact absurd hlength (by simp)
    · rw [if_neg fun h => hc h.1, List.takeWhile_cons_of_neg hc, List.dropWhile_cons_of_neg hc]
      exact iff_of_true rfl trivial

/-- A number that is not followed by a digit is read up to its end, modulo `2 ^ 32`. -/
theorem consumeNumber_eq {n d : Nat} {l t : List Nat}
    (h : (consumeNumber (n % 2 ^ 32) l).2 = d :: t) (hd : ¬isASCIIDigit d) :
    (consumeNumber (n % 2 ^ 32) l).1 = number n (l.takeWhile isASCIIDigit) % 2 ^ 32 ∧
      l.dropWhile isASCIIDigit = d :: t := by
  induction l generalizing n with
  | nil => cases h
  | cons c rest ih =>
    rw [consumeNumber] at h ⊢
    split at h
    next hc =>
      have hm : (n % 2 ^ 32 * 10 + (c - 48)) % 2 ^ 32 = (n * 10 + (c - 48)) % 2 ^ 32 := by omega
      rw [hm] at h hc ⊢
      rw [if_pos hc, List.takeWhile_cons_of_pos hc.1, List.dropWhile_cons_of_pos hc.1]
      exact ih h
    next hc =>
      cases h
      rw [if_neg hc, List.takeWhile_cons_of_neg hd, List.dropWhile_cons_of_neg hd]
      exact ⟨rfl, rfl⟩

/-! ## Quantifiers -/

/-- A call of `quantifyAtom`, with the pattern from the quantifier on. -/
structure Quantifier where
  text : List Nat
  min : Nat
  max : Nat
  greedy : Bool

namespace Quantifier

variable (q : Quantifier)

/-- A counted quantifier reports the numbers that are written. -/
def Faithful : Prop := ∀ l, q.text = 123 :: l → written l = some (q.min, q.max)

/-- The numbers that are written in a counted quantifier fit in 32 bits. -/
def Fits : Prop :=
  ∀ l n m, q.text = 123 :: l → written l = some (n, m) → n < 2 ^ 32 ∧ m < 2 ^ 32

/-- What is reported in all cases: the numbers modulo `2 ^ 32`. -/
def Reports : Prop :=
  q.min ≤ q.max ∧ ∀ l, q.text = 123 :: l →
    ∃ n m, written l = some (n, m) ∧ q.min = n % 2 ^ 32 ∧ q.max = m % 2 ^ 32

variable {q}

theorem Reports.faithful_iff (h : q.Reports) : q.Faithful ↔ q.Fits := by
  constructor
  · intro hf l n m hl hw
    obtain ⟨n', m', hw', hn, hm⟩ := h.2 l hl
    cases hw.symm.trans hw'
    cases hw.symm.trans (hf l hl)
    omega
  · intro hf l hl
    obtain ⟨n, m, hw, hn, hm⟩ := h.2 l hl
    obtain ⟨hn', hm'⟩ := hf l n m hl hw
    rw [hw, hn, hm, Nat.mod_eq_of_lt hn', Nat.mod_eq_of_lt hm']

theorem reports_of_consumeCounts {c min max : Nat} {l rest : List Nat} {greedy : Bool}
    (h : consumeCounts l = some (min, max, rest)) (hm : min ≤ max) :
    Reports ⟨c :: l, min, max, greedy⟩ := by
  refine ⟨hm, fun l' hl' => ?_⟩
  cases hl'
  simp only [consumeCounts] at h
  split_ifs at h
  split at h
  next hmax =>
    cases h
    unfold consumeMax at hmax
    split at hmax
    next t ht =>
      -- `{n,m}` and `{n,}`
      obtain ⟨hn, hl⟩ := consumeNumber_eq (n := 0) ht (by decide)
      split_ifs at hmax with hp
      · obtain ⟨hk, ht⟩ := consumeNumber_eq (n := 0) (congrArg Prod.snd hmax) (by decide)
        rw [Nat.zero_mod, hmax] at hk
        exact ⟨_, _, by simp [written, hl, ht, hp], hn, hk⟩
      · cases hmax
        exact ⟨_, quantifyInfinite, by simp [written, hl, hp, isASCIIDigit], hn, rfl⟩
    · obtain ⟨hmin, ht⟩ := Prod.mk.inj hmax
      obtain ⟨hn, hl⟩ := consumeNumber_eq (n := 0) ht (by decide)
      exact ⟨_, _, by simp [written, hl], hn, hmin.symm.trans hn⟩
  · cases h

end Quantifier

/-! ## The parser -/

/-- The parser in the loop of `parseTokens`, with the calls that it made. -/
structure Parser where
  rest : List Nat
  parenthesesNestingDepth : Nat := 0
  lastTokenWasAnAtom : Bool := false
  quantified : List Quantifier := []

namespace Parser

/-- `parseParenthesesBegin`, after the parenthesis. -/
def parseParenthesesBegin : List Nat → Except ErrorCode (List Nat)
  | 63 :: c :: rest =>
    if c = 58 ∨ c = 61 ∨ c = 33 then .ok rest else .error .parenthesesTypeInvalid
  | [63] => .error .parenthesesTypeInvalid
  | rest => .ok rest

variable (parseCharacterClass : List Nat → Except ErrorCode (List Nat))
  (parseAtomEscape : List Nat → Except ErrorCode (Bool × List Nat)) (p : Parser)

def parseQuantifier (min max : Nat) (rest : List Nat) : Except ErrorCode Parser :=
  if min = quantifyInfinite then .error .quantifierTooLarge
  else if p.lastTokenWasAnAtom then
    let nonGreedy := rest.head? = some 63
    .ok { p with
      rest := if nonGreedy then rest.tail else rest
      lastTokenWasAnAtom := false
      quantified := p.quantified ++ [⟨p.rest, min, max, !nonGreedy⟩] }
  else .error .quantifierWithoutAtom

/-- One round of the loop of `parseTokens`. -/
def token (c : Nat) (rest : List Nat) : Except ErrorCode Parser :=
  let next (rest : List Nat) (lastTokenWasAnAtom : Bool) :=
    { p with rest := rest, lastTokenWasAnAtom := lastTokenWasAnAtom }
  match Char.ofNat c with
  | '|' | '^' | '$' => .ok (next rest false)
  | '(' => do
    let rest ← parseParenthesesBegin rest
    return { next rest false with parenthesesNestingDepth := p.parenthesesNestingDepth + 1 }
  | ')' =>
    if p.parenthesesNestingDepth > 0 then
      .ok { next rest true with parenthesesNestingDepth := p.parenthesesNestingDepth - 1 }
    else .error .parenthesesUnmatched
  | '[' => do return next (← parseCharacterClass rest) true
  | '\\' => do
    let (lastTokenWasAnAtom, rest) ← parseAtomEscape rest
    return next rest lastTokenWasAnAtom
  | '*' => p.parseQuantifier 0 quantifyInfinite rest
  | '+' => p.parseQuantifier 1 quantifyInfinite rest
  | '?' => p.parseQuantifier 0 1 rest
  | '{' =>
    match consumeCounts rest with
    | some (min, max, rest) =>
      if min ≤ max then p.parseQuantifier min max rest else .error .quantifierOutOfOrder
    | none => .ok (next rest true)
  | _ => .ok (next rest true)

/-- `parseTokens`, for at most so many rounds of its loop. -/
def parseTokens (p : Parser) : Nat → Option ErrorCode × Parser
  | 0 => (none, p)
  | rounds + 1 =>
    match p.rest with
    | [] => (if p.parenthesesNestingDepth > 0 then some .missingParentheses else none, p)
    | c :: rest =>
      match p.token parseCharacterClass parseAtomEscape c rest with
      | .error err => (some err, p)
      | .ok p => parseTokens p rounds

def Inv : Prop := ∀ q ∈ p.quantified, q.Reports

variable {parseCharacterClass parseAtomEscape p} {p' : Parser}

theorem inv_parseQuantifier {min max : Nat} {rest : List Nat} (hp : p.Inv)
    (h : p.parseQuantifier min max rest = .ok p')
    (hq : ∀ greedy, Quantifier.Reports ⟨p.rest, min, max, greedy⟩) : p'.Inv := by
  unfold parseQuantifier at h
  split_ifs at h
  cases h
  intro q hmem
  obtain hmem | hmem := List.mem_append.mp hmem
  · exact hp q hmem
  · rw [List.mem_singleton.mp hmem]
    exact hq _

theorem inv_token {c : Nat} {rest : List Nat} (hp : p.Inv) (hr : p.rest = c :: rest)
    (h : p.token parseCharacterClass parseAtomEscape c rest = .ok p') : p'.Inv := by
  have uncounted {min max : Nat} (hm : min ≤ max) (hc : Char.ofNat c ≠ '{')
      (h : p.parseQuantifier min max rest = .ok p') : p'.Inv := by
    refine inv_parseQuantifier hp h fun _ => ⟨hm, fun l hl => ?_⟩
    rw [hr] at hl
    cases hl
    exact absurd rfl hc
  simp only [token, bind, Except.bind, pure, Except.pure] at h
  split at h
  case h_8 hc => exact uncounted (by decide) (by simp [hc]) h
  case h_9 hc => exact uncounted (by decide) (by simp [hc]) h
  case h_10 hc => exact uncounted (by decide) (by simp [hc]) h
  case h_11 hc =>
    split at h
    next hw =>
      split_ifs at h with hm
      refine inv_parseQuantifier hp h fun _ => ?_
      rw [hr]
      exact Quantifier.reports_of_consumeCounts hw hm
    · cases h
      exact hp
  -- the other tokens report no quantifier
  all_goals grind [Inv]

theorem inv_parseTokens (rounds : Nat) (hp : p.Inv) :
    (p.parseTokens parseCharacterClass parseAtomEscape rounds).2.Inv := by
  induction rounds generalizing p with
  | zero => exact hp
  | succ rounds ih =>
    unfold parseTokens
    split
    · exact hp
    next hr =>
      split
      · exact hp
      next ht => exact ih (inv_token hp hr ht)

variable (parseCharacterClass parseAtomEscape)

/-- The calls of `quantifyAtom` for a pattern. -/
def reported (pattern : List Nat) (rounds : Nat) : List Quantifier :=
  (parseTokens parseCharacterClass parseAtomEscape { rest := pattern } rounds).2.quantified

/-- The numbers of the counted quantifiers are those that are written exactly where these fit in 32
bits, and the first is at most the second in any case. A number is read up to its end exactly where
no digit makes it smaller modulo `2 ^ 32`, which holds for some that do not fit. -/
theorem counts_faithful_iff (pattern : List Nat) (rounds : Nat) :
    (∀ q ∈ reported parseCharacterClass parseAtomEscape pattern rounds, q.min ≤ q.max) ∧
      ((∀ q ∈ reported parseCharacterClass parseAtomEscape pattern rounds, q.Faithful) ↔
        ∀ q ∈ reported parseCharacterClass parseAtomEscape pattern rounds, q.Fits) ∧
      ∀ l, (consumeNumber 0 l).2 = l.dropWhile isASCIIDigit ↔
        NeverSmaller 0 (l.takeWhile isASCIIDigit) := by
  have hr : ∀ q ∈ reported parseCharacterClass parseAtomEscape pattern rounds, q.Reports :=
    inv_parseTokens rounds (by simp [Inv])
  exact ⟨fun q hq => (hr q hq).1, forall₂_congr fun q hq => (hr q hq).faithful_iff,
    consumeNumber_eq_dropWhile_iff 0⟩

/-- `a{9999999999}` is read as `a{1410065407}`. -/
theorem counts_not_faithful :
    ¬∀ q ∈ reported .ok (fun l => .ok (true, l)) (97 :: 123 :: List.replicate 10 57 ++ [125]) 2,
      q.Faithful := by
  intro h
  cases h ⟨_, 1410065407, 1410065407, true⟩ (List.mem_singleton.mpr rfl) _ rfl

end Parser

end WebKit.Yarr
