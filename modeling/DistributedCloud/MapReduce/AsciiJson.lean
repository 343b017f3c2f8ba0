import DistributedCloud.MapReduce.Worker

/-!
# JSON for plain ASCII

What `encoding/json` writes for an `IntermediateFormat` whose strings need no escapes, and a decoder
for it. With them goes a small application.
-/

namespace DistributedCloud.MapReduce

namespace AsciiJson

/-- The bytes of an ASCII text. -/
def ascii (text : String) : Bytes := text.toList.map fun c => Fin.ofNat 256 c.toNat

/-- Printable ASCII that stands for itself: no `"`, `&`, `<`, `>` and backslash. -/
def Plain (text : Bytes) : Prop :=
  ∀ byte ∈ text, 32 ≤ byte ∧ byte < 127 ∧ byte ∉ [34, 38, 60, 62, 92]

instance : DecidablePred Plain := fun text =>
  inferInstanceAs (Decidable (∀ byte ∈ text, 32 ≤ byte ∧ byte < 127 ∧ byte ∉ [34, 38, 60, 62, 92]))

/-! ## Writing -/

/-- The text between quotation marks. -/
def quote (text : Bytes) : Bytes := 34 :: (text ++ [34])

/-- `{"Key":` -/
def opening : Bytes := ascii "\x7b\"Key\":"

/-- `,"Value":[` -/
def middle : Bytes := ascii ",\"Value\":["

/-- `]}` and the newline. -/
def closing : Bytes := [93, 125, 10]

/-- The values after the first one. -/
def encodeMore : List Bytes → Bytes
  | [] => closing
  | value :: values => 44 :: (quote value ++ encodeMore values)

/-- The values and what comes behind them. -/
def encodeValues : List Bytes → Bytes
  | [] => closing
  | value :: values => quote value ++ encodeMore values

/-- `Encode` of a pair, with its newline. -/
def encode (kv : IntermediateFormat) : Bytes :=
  opening ++ (quote kv.1 ++ (middle ++ encodeValues kv.2))

/-! ## Reading -/

/-- The text behind `front`. -/
def strip : Bytes → Bytes → Option Bytes
  | [], text => some text
  | _ :: _, [] => none
  | byte :: front, byte' :: text => if byte = byte' then strip front text else none

/-- The text between quotation marks, and what comes behind it. -/
def readQuoted (text : Bytes) : Option (Bytes × Bytes) := do
  let text ← strip [34] text
  let rest ← strip [34] (text.dropWhile (· ≠ 34))
  return (text.takeWhile (· ≠ 34), rest)

/-- The values after the first one, for which the fuel is at least their number. -/
def readMore : Nat → Bytes → Option (List Bytes × Bytes)
  | 0, _ => none
  | fuel + 1, text =>
    match strip closing text with
    | some rest => some ([], rest)
    | none => do
      let text ← strip [44] text
      let (value, rest) ← readQuoted text
      let (values, rest) ← readMore fuel rest
      return (value :: values, rest)

/-- The values up to the end of the entry. -/
def readValues (fuel : Nat) (text : Bytes) : Option (List Bytes × Bytes) :=
  match strip closing text with
  | some rest => some ([], rest)
  | none => do
    let (value, rest) ← readQuoted text
    let (values, rest) ← readMore fuel rest
    return (value :: values, rest)

/-- What `encode` has written. -/
def readEntry (text : Bytes) : Option (IntermediateFormat × Bytes) := do
  let rest ← strip opening text
  let (key, rest) ← readQuoted rest
  let rest ← strip middle rest
  let (values, rest) ← readValues text.length rest
  return ((key, values), rest)

/-- `Decode` of a text that was written by `encode`; another one is an error. -/
def decode (text : Bytes) : Decoded :=
  if text = [] then .eof
  else
    match readEntry text with
    | some (kv, rest) => if rest.length < text.length then .value kv rest else .error
    | none => .error

/-! ## Reading what was written -/

theorem strip_append (front rest : Bytes) : strip front (front ++ rest) = some rest := by
  induction front with
  | nil => rfl
  | cons byte front ih => simpa [strip] using ih

theorem readQuoted_quote {text : Bytes} (plain : Plain text) (rest : Bytes) :
    readQuoted (quote text ++ rest) = some (text, rest) := by
  have inside : ∀ byte ∈ text, decide (byte ≠ 34) = true := by
    intro byte listed
    obtain ⟨-, -, other⟩ := plain byte listed
    simp only [List.mem_cons, not_or] at other
    exact decide_eq_true other.1
  have opened : strip [34] (quote text ++ rest) = some (text ++ 34 :: rest) := by
    simp [quote, strip]
  have front : (text ++ 34 :: rest).takeWhile (· ≠ 34) = text := by
    rw [List.takeWhile_append_of_pos inside]
    simp
  have back : (text ++ 34 :: rest).dropWhile (· ≠ 34) = 34 :: rest := by
    rw [List.dropWhile_append_of_pos inside]
    simp
  simp only [readQuoted, opened, Option.bind_eq_bind, Option.bind_some, front, back]
  rfl

theorem readMore_encodeMore {values : List Bytes} (plain : ∀ value ∈ values, Plain value)
    (rest : Bytes) (fuel : Nat) (enough : values.length < fuel) :
    readMore fuel (encodeMore values ++ rest) = some (values, rest) := by
  induction values generalizing fuel with
  | nil =>
    obtain ⟨fuel, rfl⟩ := Nat.exists_eq_add_one_of_ne_zero (Nat.ne_of_gt enough)
    simp [readMore, encodeMore, strip_append]
  | cons value values ih =>
    obtain ⟨fuel, rfl⟩ := Nat.exists_eq_add_one_of_ne_zero (Nat.ne_zero_of_lt enough)
    have first := readQuoted_quote (plain value (by simp)) (encodeMore values ++ rest)
    have others := ih (fun other listed => plain other (by simp [listed])) fuel
      (Nat.lt_of_succ_lt_succ enough)
    simp [readMore, encodeMore, closing, strip, first, others]

theorem readValues_encodeValues {values : List Bytes} (plain : ∀ value ∈ values, Plain value)
    (rest : Bytes) (fuel : Nat) (enough : values.length < fuel + 1) :
    readValues fuel (encodeValues values ++ rest) = some (values, rest) := by
  cases values with
  | nil => simp [readValues, encodeValues, strip_append]
  | cons value values =>
    have first := readQuoted_quote (plain value (by simp)) (encodeMore values ++ rest)
    have others := readMore_encodeMore (fun other listed => plain other (by simp [listed])) rest fuel
      (Nat.lt_of_succ_lt_succ enough)
    have quoted : strip closing (quote value ++ (encodeMore values ++ rest)) = none := by
      simp [closing, quote, strip]
    simp [readValues, encodeValues, quoted, first, others]

theorem length_le_encodeValues (values : List Bytes) :
    values.length ≤ (encodeValues values).length := by
  have more : ∀ values : List Bytes, values.length ≤ (encodeMore values).length := by
    intro values
    induction values with
    | nil => simp
    | cons value values ih =>
      simp only [encodeMore, List.length_cons, List.length_append]
      omega
  cases values with
  | nil => simp
  | cons value values =>
    have rest := more values
    simp only [encodeValues, quote, List.length_cons, List.length_append]
    omega

theorem readEntry_encode {kv : IntermediateFormat} (key : Plain kv.1)
    (values : ∀ value ∈ kv.2, Plain value) (rest : Bytes) :
    readEntry (encode kv ++ rest) = some (kv, rest) := by
  have enough : kv.2.length < (encode kv ++ rest).length + 1 := by
    have fits := length_le_encodeValues kv.2
    simp only [encode, List.length_append]
    omega
  have parts : encode kv ++ rest =
      opening ++ (quote kv.1 ++ (middle ++ (encodeValues kv.2 ++ rest))) := by
    simp [encode]
  simp only [readEntry]
  generalize (encode kv ++ rest).length = fuel at enough ⊢
  rw [parts, strip_append]
  simp [readQuoted_quote key, strip_append, readValues_encodeValues values rest fuel enough]

theorem encode_ne_nil (kv : IntermediateFormat) : encode kv ≠ [] := by
  simp [encode, quote]

end AsciiJson

open AsciiJson in
/-- `encoding/json` for plain ASCII. -/
def asciiJson : Json where
  encode := encode
  decode := decode
  Plain := Plain
  decode_nil := rfl
  decode_encode := by
    intro kv rest key values
    have nonempty := encode_ne_nil kv
    simp [decode, nonempty, readEntry_encode key values]
  decode_consumes := by
    intro text kv rest decoded
    unfold decode at decoded
    split at decoded
    · cases decoded
    · split at decoded
      · split at decoded
        · rename_i shorter
          cases decoded
          exact shorter
        · cases decoded
      · cases decoded
  decode_skips := by
    intro text rest decoded
    unfold decode at decoded
    split at decoded
    · cases decoded
    · split at decoded
      · split at decoded <;> cases decoded
      · cases decoded

open AsciiJson in
/-- Counting letters in files that lie elsewhere, each with its name as its contents. -/
def letters : Setting where
  mapf := fun _ content => content.map fun byte => ([byte], ascii "1")
  reducef := fun _ values => ascii (toString values.length)
  json := asciiJson
  path := fun _ => none
  input := fun name => ascii name

end DistributedCloud.MapReduce
