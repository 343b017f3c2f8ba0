import Mathlib.Computability.RegularExpressions
import Mathlib.Tactic.IntervalCases

/-!
# Expressions of the package `regexp`

The syntax of literals, `\d`, the operator `+` and a `$` at the end. An expression is looked for
anywhere in a text. Without the flag `m` a `$` stands for the end of the text, and not for the end
of a line.
-/

namespace DistributedCloud

/-- A regular expression that may end in `$`. -/
structure Regexp where
  body : RegularExpression Char
  /-- What is found has to end where the text ends. -/
  atEnd : Bool

namespace Regexp

/-! ## Matching -/

/-- A match begins at the front of the text. -/
def matchesFront (regx : Regexp) (text : List Char) : Bool :=
  if regx.atEnd then regx.body.rmatch text else text.inits.any regx.body.rmatch

/-- `MatchString`: a match may begin anywhere. -/
def matchString (regx : Regexp) (text : String) : Bool :=
  text.toList.tails.any regx.matchesFront

theorem matchesFront_iff (regx : Regexp) (text : List Char) :
    regx.matchesFront text = true ↔
      ∃ found after, text = found ++ after ∧ found ∈ regx.body.matches' ∧
        (regx.atEnd = true → after = []) := by
  unfold matchesFront
  cases regx.atEnd with
  | true =>
    simp only [if_true, RegularExpression.rmatch_iff_matches', forall_const]
    constructor
    · intro whole
      exact ⟨text, [], by simp, whole, rfl⟩
    · intro matched
      obtain ⟨found, after, rfl, whole, rfl⟩ := matched
      simpa using whole
  | false =>
    simp only [Bool.false_eq_true, if_false, List.any_eq_true, List.mem_inits,
      RegularExpression.rmatch_iff_matches']
    constructor
    · intro matched
      obtain ⟨found, ⟨after, rfl⟩, front⟩ := matched
      exact ⟨found, after, rfl, front, fun ends => absurd ends id⟩
    · intro matched
      obtain ⟨found, after, rfl, front, -⟩ := matched
      exact ⟨found, ⟨after, rfl⟩, front⟩

/-! ## Parts of an expression -/

/-- One of these characters. -/
def oneOf (chars : List Char) : RegularExpression Char := (chars.map .char).sum

/-- `\d` -/
def digit : RegularExpression Char := oneOf ['0', '1', '2', '3', '4', '5', '6', '7', '8', '9']

/-- The operator `+` -/
def repeated (r : RegularExpression Char) : RegularExpression Char := r * r.star

/-- The expression behind `r`. -/
def behind (r : RegularExpression Char) (regx : Regexp) : Regexp :=
  { regx with body := r * regx.body }

/-- The expression behind a literal text. -/
def behindText (text : List Char) (regx : Regexp) : Regexp :=
  text.foldr (fun c => behind (.char c)) regx

theorem mem_oneOf (chars found : List Char) :
    found ∈ (oneOf chars).matches' ↔ ∃ c ∈ chars, found = [c] := by
  induction chars with
  | nil => simp [oneOf, RegularExpression.matches'_zero, Language.notMem_zero]
  | cons c chars ih =>
    rw [oneOf, List.map_cons, List.sum_cons, RegularExpression.matches'_add, Language.mem_add]
    change found = [c] ∨ found ∈ (oneOf chars).matches' ↔ _
    rw [ih]
    simp

theorem mem_digitChars (c : Char) :
    c ∈ ['0', '1', '2', '3', '4', '5', '6', '7', '8', '9'] ↔ c.isDigit = true := by
  rw [Char.isDigit_iff_toNat]
  constructor
  · intro listed
    simp only [List.mem_cons, List.not_mem_nil, or_false] at listed
    rcases listed with rfl | rfl | rfl | rfl | rfl | rfl | rfl | rfl | rfl | rfl <;> decide
  · intro between
    obtain ⟨low, high⟩ := between
    rw [← Char.ofNat_toNat c]
    simp only [Char.reduceToNat] at low high
    interval_cases c.toNat <;> decide

theorem mem_digit (found : List Char) :
    found ∈ digit.matches' ↔ ∃ c, c.isDigit = true ∧ found = [c] := by
  simp only [digit, mem_oneOf, mem_digitChars]

section

variable {r : RegularExpression Char} {p : Char → Prop}

/-- An expression for one character with `p`, any number of times. -/
theorem mem_star (one : ∀ found, found ∈ r.matches' ↔ ∃ c, p c ∧ found = [c])
    (found : List Char) : found ∈ r.star.matches' ↔ ∀ c ∈ found, p c := by
  rw [RegularExpression.matches'_star, Language.mem_kstar]
  constructor
  · intro starred c listed
    obtain ⟨parts, rfl, matched⟩ := starred
    obtain ⟨part, chosen, inside⟩ := List.mem_flatten.mp listed
    obtain ⟨c', holds, rfl⟩ := (one part).mp (matched part chosen)
    rwa [List.mem_singleton.mp inside]
  · intro all
    refine ⟨found.map fun c => [c], (List.flatMap_singleton' found).symm, ?_⟩
    intro part chosen
    obtain ⟨c, listed, rfl⟩ := List.mem_map.mp chosen
    exact (one _).mpr ⟨c, all c listed, rfl⟩

theorem mem_repeated (one : ∀ found, found ∈ r.matches' ↔ ∃ c, p c ∧ found = [c])
    (found : List Char) :
    found ∈ (repeated r).matches' ↔ found ≠ [] ∧ ∀ c ∈ found, p c := by
  rw [repeated, RegularExpression.matches'_mul, Language.mem_mul]
  constructor
  · intro split
    obtain ⟨first, matched, rest, others, rfl⟩ := split
    obtain ⟨c, holds, rfl⟩ := (one first).mp matched
    exact ⟨by simp, List.forall_mem_cons.mpr ⟨holds, (mem_star one rest).mp others⟩⟩
  · intro all
    obtain ⟨c, rest, rfl⟩ := List.exists_cons_of_ne_nil all.1
    obtain ⟨first, others⟩ := List.forall_mem_cons.mp all.2
    exact ⟨[c], (one _).mpr ⟨c, first, rfl⟩, rest, (mem_star one rest).mpr others, rfl⟩

end

theorem mem_behind (r : RegularExpression Char) (regx : Regexp) (found : List Char) :
    found ∈ (behind r regx).body.matches' ↔
      ∃ front ∈ r.matches', ∃ rest ∈ regx.body.matches', front ++ rest = found := by
  rw [behind, RegularExpression.matches'_mul, Language.mem_mul]

theorem mem_behindText (text : List Char) (regx : Regexp) (found : List Char) :
    found ∈ (behindText text regx).body.matches' ↔
      ∃ rest ∈ regx.body.matches', text ++ rest = found := by
  induction text generalizing found with
  | nil => simp [behindText]
  | cons c text ih =>
    change found ∈ (behind (.char c) (behindText text regx)).body.matches' ↔ _
    rw [mem_behind]
    constructor
    · intro split
      obtain ⟨_, rfl, rest, matched, rfl⟩ := split
      obtain ⟨last, ends, rfl⟩ := (ih rest).mp matched
      exact ⟨last, ends, rfl⟩
    · intro split
      obtain ⟨rest, matched, rfl⟩ := split
      exact ⟨[c], rfl, text ++ rest, (ih _).mpr ⟨rest, matched, rfl⟩, rfl⟩

@[simp] theorem behindText_atEnd (text : List Char) (regx : Regexp) :
    (behindText text regx).atEnd = regx.atEnd := by
  induction text with
  | nil => rfl
  | cons c text ih => exact ih

/-! ## Syntax -/

/-- The parts of the text of an expression. -/
inductive Token where
  | one (r : RegularExpression Char)
  | plus
  | endText

/-- The characters that do not stand for themselves. -/
def special : List Char :=
  ['\\', '.', '+', '*', '?', '(', ')', '|', '[', ']', '\x7b', '\x7d', '^', '$']

/-- The parts of a text, if it has no special characters but these. -/
def scan : List Char → Option (List Token)
  | [] => some []
  | '\\' :: 'd' :: text => (scan text).map (.one digit :: ·)
  | '+' :: text => (scan text).map (.plus :: ·)
  | '$' :: text => (scan text).map (.endText :: ·)
  | c :: text => if c ∈ special then none else (scan text).map (.one (.char c) :: ·)

/-- The expression that the parts make up. -/
def parse : List Token → Option Regexp
  | [] => some ⟨1, false⟩
  | [.endText] => some ⟨1, true⟩
  | .one r :: .plus :: tokens => (parse tokens).map (behind (repeated r))
  | .one r :: tokens => (parse tokens).map (behind r)
  | _ => none

/-- `Compile`. There is no result for what it rejects and for syntax other than the above. -/
def compile (expr : String) : Option Regexp := (scan expr.toList).bind parse

theorem scan_text {literal : List Char} (plain : ∀ c ∈ literal, c ∉ special) (text : List Char) :
    scan (literal ++ text) =
      (scan text).map (literal.map (fun c => .one (.char c)) ++ ·) := by
  induction literal with
  | nil => simp
  | cons c literal ih =>
    obtain ⟨first, others⟩ := List.forall_mem_cons.mp plain
    have step : scan (c :: (literal ++ text)) =
        (scan (literal ++ text)).map (.one (.char c) :: ·) := by
      rw [scan, if_neg first]
      · rintro rest rfl
        simp [special] at first
      · rintro rfl
        simp [special] at first
      · rintro rfl
        simp [special] at first
    rw [List.cons_append, step, ih others, Option.map_map]
    rfl

theorem parse_one {r : RegularExpression Char} {tokens : List Token}
    (single : tokens.head? ≠ some .plus) :
    parse (.one r :: tokens) = (parse tokens).map (behind r) := by
  rw [parse]
  rintro rest rfl
  exact single rfl

theorem parse_text (literal : List Char) {tokens : List Token}
    (single : tokens.head? ≠ some .plus) :
    parse (literal.map (fun c => .one (.char c)) ++ tokens) =
      (parse tokens).map (behindText literal) := by
  induction literal with
  | nil => exact Option.map_id'.symm
  | cons c literal ih =>
    -- the character stands alone: it is followed by another one or by `tokens`
    have next : (literal.map (fun c => Token.one (.char c)) ++ tokens).head? ≠ some .plus := by
      cases literal with
      | nil => exact single
      | cons c literal => simp
    rw [List.map_cons, List.cons_append, parse_one next, ih, Option.map_map]
    rfl

end Regexp

end DistributedCloud
