import DistributedCloud.MapReduce.FileNames
import Mathlib.Data.List.Infix
import Mathlib.Data.List.TakeWhile

/-!
# Telling the files of a job apart

Every name can be read back, so two files of a job have the same name only if they are the same
file. Of these names the regular expression of a reduce task matches those of its own intermediate
files. A match can begin only at the front of a name, since no `r` comes after the first one.

The names are those of the formats in the source, and `matchString` is what `regexp` makes of the
pattern there.
-/

namespace DistributedCloud.MapReduce

open Decimal

namespace FileName

/-! ## Reading a name -/

theorem stops_nil : Stops [] := by simp [Stops]

theorem stops_dash (rest : List Char) : Stops ('-' :: rest) := by
  intro c first
  obtain rfl : '-' = c := by simpa using first
  rfl

theorem read_out (rest : List Char) : Decimal.read ('o' :: rest) = none := by
  simp [Decimal.read]

/-- The number at the front, and the random number behind `-tmp-` if there is one. -/
def readEnd (text : List Char) : Option (Nat × Option Nat) :=
  match Decimal.read text with
  | some (n, []) => some (n, none)
  | some (n, rest) => (Decimal.read (rest.drop 5)).map fun random => (n, some random.1)
  | none => none

theorem readEnd_digits (n : Nat) : readEnd (digits n) = some (n, none) := by
  have printed := read_digits (n := n) stops_nil
  rw [List.append_nil] at printed
  simp [readEnd, printed]

theorem readEnd_temp (n random : Nat) :
    readEnd (digits n ++ '-' :: 't' :: 'm' :: 'p' :: '-' :: digits random) =
      some (n, some random) := by
  have back := read_digits (n := random) stops_nil
  rw [List.append_nil] at back
  simp [readEnd, read_digits (stops_dash _), back]

/-- Reads `tail` back. -/
def parse (text : List Char) : Option FileName :=
  match Decimal.read text with
  | some (taskID, rest) =>
    (readEnd (rest.drop 1)).map fun p =>
      p.2.elim (intermediate taskID p.1) (intermediateTemp taskID p.1)
  | none => (readEnd (text.drop 4)).map fun p => p.2.elim (output p.1) (outputTemp p.1)

theorem parse_tail (name : FileName) : parse name.tail = some name := by
  cases name with
  | intermediate taskID i =>
    simp [parse, tail, read_digits (stops_dash _), readEnd_digits]
  | intermediateTemp taskID i random =>
    simp [parse, tail, read_digits (stops_dash _), readEnd_temp]
  | output taskID =>
    simp [parse, tail, read_out, readEnd_digits]
  | outputTemp taskID random =>
    simp [parse, tail, read_out, readEnd_temp]

theorem print_injective : Function.Injective print := by
  intro name name' same
  have tails : name.tail = name'.tail := by
    have chars := congrArg String.toList same
    simpa [print] using chars
  have parsed := congrArg parse tails
  simpa [parse_tail] using parsed

@[simp] theorem print_inj {name name' : FileName} : name.print = name'.print ↔ name = name' :=
  print_injective.eq_iff

/-! ## The regular expression -/

theorem not_mem_digits {n : Nat} {c : Char} (other : c.isDigit = false) : c ∉ digits n := by
  intro listed
  rw [isDigit_of_mem_digits listed] at other
  cases other

/-- The letters of `mr-` come back nowhere in a name. -/
theorem r_not_mem_tail (name : FileName) : 'r' ∉ name.tail := by
  have none : ∀ n, 'r' ∉ digits n := fun n => not_mem_digits rfl
  cases name with
  | intermediate taskID i => simp [tail, none]
  | intermediateTemp taskID i random => simp [tail, none]
  | output taskID => simp [tail, none]
  | outputTemp taskID random => simp [tail, none]

/-- What the expression matches: `mr-`, some digits, a dash and the number of the task. -/
theorem matchesAt_iff (taskID : Nat) (text : List Char) :
    matchesAt taskID text = true ↔
      ∃ run, (run ≠ [] ∧ ∀ c ∈ run, c.isDigit = true) ∧
        text = 'm' :: 'r' :: '-' :: (run ++ '-' :: digits taskID) := by
  constructor
  · intro matched
    unfold matchesAt at matched
    split at matched
    · rename_i rest
      simp only [Bool.and_eq_true, Bool.not_eq_true', List.isEmpty_eq_false_iff, beq_iff_eq]
        at matched
      refine ⟨rest.takeWhile Char.isDigit, ⟨matched.1, fun c => List.mem_takeWhile_imp⟩, ?_⟩
      rw [← matched.2, List.takeWhile_append_dropWhile]
    · cases matched
  · rintro ⟨run, ⟨some, decimal⟩, rfl⟩
    simp [matchesAt, takeWhile_run decimal (stops_dash _), dropWhile_run decimal (stops_dash _),
      some]

/-- Only at its front can a name match. -/
theorem matchString_iff_front (taskID : Nat) {tail : List Char} (once : 'r' ∉ tail) :
    matchString taskID (String.ofList ('m' :: 'r' :: '-' :: tail)) = true ↔
      matchesAt taskID ('m' :: 'r' :: '-' :: tail) = true := by
  simp only [matchString, String.toList_ofList, List.any_eq_true, List.mem_tails]
  constructor
  · rintro ⟨text, suffix, matched⟩
    obtain ⟨run, -, rfl⟩ := (matchesAt_iff _ _).mp matched
    rw [List.suffix_cons_iff] at suffix
    obtain whole | suffix := suffix
    · rwa [whole] at matched
    · rw [List.suffix_cons_iff] at suffix
      obtain same | suffix := suffix
      · simp at same
      · have inside : 'r' ∈ '-' :: tail := suffix.mem (by simp)
        exact absurd inside (by simp [once])
  · intro matched
    exact ⟨_, List.suffix_refl _, matched⟩

theorem matchesAt_digits (taskID n : Nat) (rest : List Char) (stops : Stops rest) :
    matchesAt taskID ('m' :: 'r' :: '-' :: (digits n ++ rest)) = true ↔
      rest = '-' :: digits taskID := by
  have decimal : ∀ c ∈ digits n, c.isDigit = true := fun c listed => isDigit_of_mem_digits listed
  simp [matchesAt, takeWhile_run decimal stops, dropWhile_run decimal stops, digits_ne_nil]

/-- A number and a dash are not followed by a number and a dash in what matches. -/
theorem matchesAt_dashes (taskID n i : Nat) (rest : List Char) :
    matchesAt taskID ('m' :: 'r' :: '-' :: (digits n ++ '-' :: (digits i ++ '-' :: rest))) =
      false := by
  rw [Bool.eq_false_iff, Ne, matchesAt_digits _ _ _ (stops_dash _)]
  intro same
  have inside : '-' ∈ digits taskID := by
    rw [← List.cons.inj same |>.2]
    simp
  exact not_mem_digits rfl inside

theorem matchesAt_out (taskID : Nat) (rest : List Char) :
    matchesAt taskID ('m' :: 'r' :: '-' :: 'o' :: rest) = false := by
  simp [matchesAt]

/-- The regular expression of a reduce task matches its own intermediate files, and none of the
    temporary and output files. -/
theorem matchString_print (taskID : Nat) (name : FileName) :
    matchString taskID name.print = true ↔ ∃ m, name = intermediate m taskID := by
  rw [print, matchString_iff_front taskID name.r_not_mem_tail]
  cases name with
  | intermediate m i =>
    rw [tail, matchesAt_digits _ _ _ (stops_dash _)]
    simp [digits_injective.eq_iff]
  | intermediateTemp m i random => simp [tail, matchesAt_dashes]
  | output m => simp [tail, matchesAt_out]
  | outputTemp m random => simp [tail, matchesAt_out]

end FileName

/-! ## The formats -/

theorem fillStar_append {random front : List Char} (rest : List Char) (plain : '*' ∉ front) :
    fillStar random (front ++ rest) = front ++ fillStar random rest := by
  induction front with
  | nil => rfl
  | cons c front ih =>
    obtain ⟨other, others⟩ := not_or.mp (List.mem_cons.not.mp plain)
    rw [List.cons_append, fillStar, ih others]
    · rfl
    · exact fun same => other same.symm

theorem newName_eq (taskID i : Nat) :
    newName taskID i =
      String.ofList ('m' :: 'r' :: '-' :: (digits taskID ++ '-' :: digits i)) := by
  simp [newName, sprintf, printFormat]

theorem newFileName_eq (taskID : Nat) :
    newFileName taskID =
      String.ofList ('m' :: 'r' :: '-' :: 'o' :: 'u' :: 't' :: '-' :: digits taskID) := by
  simp [newFileName, sprintf, printFormat]

theorem createTempName_filename (taskID i : Nat) (random : String) :
    createTempName (filename taskID i) random =
      String.ofList ('m' :: 'r' :: '-' :: (digits taskID ++ '-' :: (digits i ++
        '-' :: 't' :: 'm' :: 'p' :: '-' :: random.toList))) := by
  have plain : ∀ n, '*' ∉ digits n := fun n => FileName.not_mem_digits rfl
  simp [createTempName, filename, sprintf, printFormat, fillStar, fillStar_append, plain]

theorem createTempName_tmpFileName (taskID : Nat) (random : String) :
    createTempName (tmpFileName taskID) random =
      String.ofList ('m' :: 'r' :: '-' :: 'o' :: 'u' :: 't' :: '-' :: (digits taskID ++
        '-' :: 't' :: 'm' :: 'p' :: '-' :: random.toList)) := by
  have plain : '*' ∉ digits taskID := FileName.not_mem_digits rfl
  simp [createTempName, tmpFileName, sprintf, printFormat, fillStar, fillStar_append, plain]

theorem FileName.print_eq_formatted (name : FileName) : name.print = name.formatted := by
  have printed : ∀ n, (sprintf "%d" [n]).toList = digits n := by
    intro n
    simp [sprintf, printFormat]
  cases name with
  | intermediate taskID i => rw [formatted, newName_eq, print, tail]
  | intermediateTemp taskID i random =>
    rw [formatted, createTempName_filename, printed, print, tail]
  | output taskID => rw [formatted, newFileName_eq, print, tail]
  | outputTemp taskID random =>
    rw [formatted, createTempName_tmpFileName, printed, print, tail]

/-! ## The compiled expression -/

/-- What `pattern` compiles to. -/
def selection (taskID : Nat) : Regexp :=
  .behindText ['m', 'r', '-'] (.behind (Regexp.repeated Regexp.digit)
    (.behindText ('-' :: digits taskID) ⟨1, true⟩))

theorem compile_pattern (taskID : Nat) :
    Regexp.compile (pattern taskID) = some (selection taskID) := by
  have plain : ∀ c ∈ '-' :: digits taskID, c ∉ Regexp.special := by
    intro c listed
    rcases List.mem_cons.mp listed with rfl | listed
    · decide
    · intro special
      have other : ∀ c ∈ Regexp.special, c.isDigit = false := by simp [Regexp.special]
      exact FileName.not_mem_digits (other c special) listed
  have text : (pattern taskID).toList =
      ['m', 'r', '-'] ++ '\\' :: 'd' :: '+' :: ('-' :: digits taskID ++ ['$']) := by
    simp [pattern, sprintf, printFormat]
  have front : ∀ c ∈ ['m', 'r', '-'], c ∉ Regexp.special := by simp [Regexp.special]
  have tokens : Regexp.scan (pattern taskID).toList =
      some (['m', 'r', '-'].map (fun c => .one (.char c)) ++ .one Regexp.digit :: .plus ::
        (('-' :: digits taskID).map (fun c => .one (.char c)) ++ [.endText])) := by
    rw [text, Regexp.scan_text front, Regexp.scan, Regexp.scan, Regexp.scan_text plain]
    rfl
  rw [Regexp.compile, tokens, Option.bind_some, Regexp.parse_text _ (by simp), Regexp.parse,
    Regexp.parse_text _ (by simp)]
  rfl

theorem mem_selection (taskID : Nat) (found : List Char) :
    found ∈ (selection taskID).body.matches' ↔
      ∃ run, (run ≠ [] ∧ ∀ c ∈ run, c.isDigit = true) ∧
        found = 'm' :: 'r' :: '-' :: (run ++ '-' :: digits taskID) := by
  have last : ∀ rest, rest ∈ (Regexp.behindText ('-' :: digits taskID) ⟨1, true⟩).body.matches' ↔
      rest = '-' :: digits taskID := by
    intro rest
    simp [Regexp.mem_behindText, Language.mem_one, eq_comm]
  have middle := Regexp.mem_repeated Regexp.mem_digit
  simp only [selection, Regexp.mem_behindText, Regexp.mem_behind, middle, last]
  constructor
  · rintro ⟨_, ⟨run, decimal, _, rfl, rfl⟩, rfl⟩
    exact ⟨run, decimal, rfl⟩
  · rintro ⟨run, decimal, rfl⟩
    exact ⟨_, ⟨run, decimal, _, rfl, rfl⟩, rfl⟩

/-- `matchString` is what the compiled expression does, on every name. -/
theorem matchString_selection (taskID : Nat) (name : String) :
    (selection taskID).matchString name = matchString taskID name := by
  have same : (selection taskID).matchesFront = matchesAt taskID := by
    funext text
    rw [Bool.eq_iff_iff, FileName.matchesAt_iff, Regexp.matchesFront_iff]
    have ends : (selection taskID).atEnd = true := by simp [selection, Regexp.behind]
    simp only [ends, forall_const, mem_selection]
    constructor
    · rintro ⟨found, after, rfl, ⟨run, decimal, rfl⟩, rfl⟩
      exact ⟨run, decimal, List.append_nil _⟩
    · rintro ⟨run, decimal, rfl⟩
      exact ⟨_, [], (List.append_nil _).symm, ⟨run, decimal, rfl⟩, rfl⟩
  rw [Regexp.matchString, same, matchString]

theorem matchString_selection_front (taskID : Nat) {tail : List Char} (once : 'r' ∉ tail) :
    (selection taskID).matchString (String.ofList ('m' :: 'r' :: '-' :: tail)) =
      matchesAt taskID ('m' :: 'r' :: '-' :: tail) := by
  rw [matchString_selection, Bool.eq_iff_iff]
  exact FileName.matchString_iff_front taskID once

/-- `DoReduceTask` compiles its pattern without an error. Among the names that the tasks give to
    files it selects those of its own partition. -/
theorem pattern_selects (m k r : Nat) {d : String} (decimal : ∀ c ∈ d.toList, c.isDigit = true) :
    ∃ regx, Regexp.compile (pattern r) = some regx ∧
      (regx.matchString (newName m k) = true ↔ k = r) ∧
      regx.matchString (createTempName (filename m k) d) = false ∧
      regx.matchString (newFileName k) = false ∧
      regx.matchString (createTempName (tmpFileName k) d) = false := by
  -- an `r` behind `mr-` would let a match begin there
  have number : ∀ n, 'r' ∉ digits n := fun n => FileName.not_mem_digits rfl
  have random : 'r' ∉ d.toList := fun listed => absurd (decimal 'r' listed) (by decide)
  refine ⟨selection r, compile_pattern r, ?_, ?_, ?_, ?_⟩
  · rw [newName_eq, matchString_selection_front r (by simp [number]),
      FileName.matchesAt_digits _ _ _ (FileName.stops_dash _)]
    simp [digits_injective.eq_iff]
  · rw [createTempName_filename,
      matchString_selection_front r (by simp [number, random])]
    exact FileName.matchesAt_dashes r m k _
  · rw [newFileName_eq, matchString_selection_front r (by simp [number])]
    exact FileName.matchesAt_out r _
  · rw [createTempName_tmpFileName,
      matchString_selection_front r (by simp [number, random])]
    exact FileName.matchesAt_out r _

/-- The partitions 1 and 11, and a random text with zeros in front. -/
theorem pattern_selects_eleven :
    ∃ regx, Regexp.compile "mr-\\d+-1$" = some regx ∧
      (regx.matchString "mr-21-11" = true ↔ 11 = 1) ∧
      regx.matchString "mr-21-11-tmp-0011" = false ∧
      regx.matchString "mr-out-11" = false ∧
      regx.matchString "mr-out-11-tmp-0011" = false := by
  have decimal : ∀ c ∈ "0011".toList, c.isDigit = true := by simp
  have selects := pattern_selects 21 11 1 decimal
  have text : pattern 1 = "mr-\\d+-1$" := by decide
  have name : newName 21 11 = "mr-21-11" := by decide
  have temp : createTempName (filename 21 11) "0011" = "mr-21-11-tmp-0011" := by decide
  have out : newFileName 11 = "mr-out-11" := by decide
  have outTemp : createTempName (tmpFileName 11) "0011" = "mr-out-11-tmp-0011" := by decide
  rwa [text, name, temp, out, outTemp] at selects

end DistributedCloud.MapReduce
