import DistributedCloud.MapReduce.AsciiJson
import DistributedCloud.MapReduce.ReadLoop
import Mathlib.Logic.Relation

/-!
# When the read loop ends

A `Decode` that does not give an error for good leaves a shorter text, so that a text in which none of
them does is read in finitely many rounds. An error that the decoder keeps is met again in every round,
and there is no way out of the loop but the end of the file.
-/

namespace DistributedCloud.MapReduce

namespace Json

/-- `Decode` at `text` reads a value, of whatever type, and leaves `rest`. -/
def ReadsOn (json : Json) (text rest : Bytes) : Prop :=
  (∃ kv, json.decode text = .value kv rest) ∨ json.decode text = .mismatch rest

/-- No `Decode` on the way through the text gives an error that the decoder keeps, such as that for a
    value with a syntax error, one that is cut off or one that is nested too deeply. -/
def NeverFails (json : Json) (text : Bytes) : Prop :=
  ∀ rest, Relation.ReflTransGen json.ReadsOn text rest → json.decode rest ≠ .error

variable {json : Json} {text rest : Bytes}

/-- What is left is shorter. -/
theorem ReadsOn.length_lt (reads : json.ReadsOn text rest) : rest.length < text.length := by
  obtain ⟨kv, decoded⟩ | decoded := reads
  · exact json.decode_consumes text kv rest decoded
  · exact json.decode_skips text rest decoded

theorem NeverFails.after (sound : json.NeverFails text) (reads : json.ReadsOn text rest) :
    json.NeverFails rest :=
  fun last more => sound last (more.head reads)

theorem neverFails_iff :
    json.NeverFails text ↔
      json.decode text ≠ .error ∧ ∀ rest, json.ReadsOn text rest → json.NeverFails rest := by
  constructor
  · intro sound
    exact ⟨sound text .refl, fun rest reads => sound.after reads⟩
  · rintro ⟨first, later⟩ last way
    obtain rfl | ⟨rest, reads, more⟩ := way.cases_head
    · exact first
    · exact later rest reads last more

theorem neverFails_of_eof (ended : json.decode text = .eof) : json.NeverFails text := by
  rw [neverFails_iff]
  simp [ReadsOn, ended]

theorem neverFails_of_value {kv : IntermediateFormat} (decoded : json.decode text = .value kv rest)
    (later : json.NeverFails rest) : json.NeverFails text := by
  rw [neverFails_iff]
  simpa [ReadsOn, decoded] using later

theorem neverFails_of_mismatch (decoded : json.decode text = .mismatch rest)
    (later : json.NeverFails rest) : json.NeverFails text := by
  rw [neverFails_iff]
  simpa [ReadsOn, decoded] using later

end Json

section Loop

variable {json : Json}

/-! ## One file -/

section Rounds

variable {text rest : Bytes} (rounds : Nat) (finalStorage : Groups Bytes Bytes)

theorem loop_eof (ended : json.decode text = .eof) :
    (Decoder.reading text).loop json (rounds + 1) finalStorage = some finalStorage := by
  simp [Decoder.loop, Decoder.decode, ended]

theorem loop_value {kv : IntermediateFormat} (decoded : json.decode text = .value kv rest) :
    (Decoder.reading text).loop json (rounds + 1) finalStorage =
      (Decoder.reading rest).loop json rounds (finalStorage.add kv.1 kv.2) := by
  simp [Decoder.loop, Decoder.decode, decoded]

theorem loop_mismatch (decoded : json.decode text = .mismatch rest) :
    (Decoder.reading text).loop json (rounds + 1) finalStorage =
      (Decoder.reading rest).loop json rounds finalStorage := by
  simp [Decoder.loop, Decoder.decode, decoded]

/-- A decoder with an error never comes to the end of the file. -/
theorem loop_failed : Decoder.failed.loop json rounds finalStorage = none := by
  induction rounds with
  | zero => rfl
  | succ rounds ih => exact ih

theorem loop_error (decoded : json.decode text = .error) :
    (Decoder.reading text).loop json rounds finalStorage = none := by
  cases rounds with
  | zero => rfl
  | succ rounds =>
    have failed : Decoder.failed.loop json rounds finalStorage = none := loop_failed rounds finalStorage
    simpa [Decoder.loop, Decoder.decode, decoded] using failed

end Rounds

/-- A loop that ends has not met an error that the decoder keeps. -/
theorem neverFails_of_loop {rounds : Nat} {text : Bytes} {finalStorage result : Groups Bytes Bytes}
    (ended : (Decoder.reading text).loop json rounds finalStorage = some result) :
    json.NeverFails text := by
  induction rounds generalizing text finalStorage with
  | zero => cases ended
  | succ rounds ih =>
    cases decoded : json.decode text with
    | eof => exact Json.neverFails_of_eof decoded
    | value kv rest =>
      rw [loop_value rounds finalStorage decoded] at ended
      exact Json.neverFails_of_value decoded (ih ended)
    | mismatch rest =>
      rw [loop_mismatch rounds finalStorage decoded] at ended
      exact Json.neverFails_of_mismatch decoded (ih ended)
    | error =>
      rw [loop_error (rounds + 1) finalStorage decoded] at ended
      cases ended

theorem neverFails_of_decodeLoop {fuel : Nat} {text : Bytes} {kvs : List IntermediateFormat}
    (decodes : json.decodeLoop fuel text = some kvs) : json.NeverFails text := by
  induction fuel generalizing text kvs with
  | zero => cases decodes
  | succ fuel ih =>
    unfold Json.decodeLoop at decodes
    cases decoded : json.decode text with
    | eof => exact Json.neverFails_of_eof decoded
    | value kv rest =>
      rw [decoded] at decodes
      obtain ⟨kvs, decodes, -⟩ := Option.map_eq_some_iff.mp decodes
      exact Json.neverFails_of_value decoded (ih decodes)
    | mismatch rest =>
      rw [decoded] at decodes
      exact Json.neverFails_of_mismatch decoded (ih decodes)
    | error =>
      rw [decoded] at decodes
      cases decodes

/-- A text in which no `Decode` fails for good gives its entries, and in more rounds than it has bytes
    the loop has stored them. The induction is on the length of the text: what a `Decode` leaves is
    shorter. -/
theorem Json.NeverFails.loop {text : Bytes} (sound : json.NeverFails text) :
    ∃ kvs, ∀ fuel, text.length < fuel → json.decodeLoop fuel text = some kvs ∧
      ∀ finalStorage : Groups Bytes Bytes,
        (Decoder.reading text).loop json fuel finalStorage = some (finalStorage.addAll kvs) := by
  induction length : text.length using Nat.strong_induction_on generalizing text with
  | h n ih =>
    subst length
    cases decoded : json.decode text with
    | eof =>
      refine ⟨[], fun fuel enough => ?_⟩
      obtain ⟨fuel, rfl⟩ := Nat.exists_eq_add_one_of_ne_zero (Nat.ne_zero_of_lt enough)
      exact ⟨by simp [decodeLoop, decoded], fun finalStorage => loop_eof fuel finalStorage decoded⟩
    | value kv rest =>
      have reads : json.ReadsOn text rest := .inl ⟨kv, decoded⟩
      have shorter := reads.length_lt
      obtain ⟨kvs, later⟩ := ih rest.length shorter (sound.after reads) rfl
      refine ⟨kv :: kvs, fun fuel enough => ?_⟩
      obtain ⟨fuel, rfl⟩ := Nat.exists_eq_add_one_of_ne_zero (Nat.ne_zero_of_lt enough)
      obtain ⟨listed, stored⟩ := later fuel (by omega)
      refine ⟨by simp [decodeLoop, decoded, listed], fun finalStorage => ?_⟩
      rw [loop_value fuel finalStorage decoded, stored]
      rfl
    | mismatch rest =>
      have reads : json.ReadsOn text rest := .inr decoded
      have shorter := reads.length_lt
      obtain ⟨kvs, later⟩ := ih rest.length shorter (sound.after reads) rfl
      refine ⟨kvs, fun fuel enough => ?_⟩
      obtain ⟨fuel, rfl⟩ := Nat.exists_eq_add_one_of_ne_zero (Nat.ne_zero_of_lt enough)
      obtain ⟨listed, stored⟩ := later fuel (by omega)
      refine ⟨by simp [decodeLoop, decoded, listed], fun finalStorage => ?_⟩
      rw [loop_mismatch fuel finalStorage decoded, stored]
    | error => exact absurd decoded (sound text .refl)

theorem loop_new_isSome {contents : Option Bytes} {rounds : Nat} {finalStorage : Groups Bytes Bytes}
    (ended : ((Decoder.new contents).loop json rounds finalStorage).isSome) :
    ∃ text, contents = some text ∧ json.NeverFails text := by
  obtain ⟨result, returned⟩ := Option.isSome_iff_exists.mp ended
  cases contents with
  | none =>
    rw [Decoder.new, loop_failed] at returned
    cases returned
  | some text => exact ⟨text, rfl, neverFails_of_loop returned⟩

theorem decodeAll_eq_loop (text : Bytes) (finalStorage : Groups Bytes Bytes) :
    (json.decodeAll text).map finalStorage.addAll =
      (Decoder.reading text).loop json (text.length + 1) finalStorage := by
  by_cases sound : json.NeverFails text
  · obtain ⟨kvs, reads⟩ := sound.loop
    obtain ⟨listed, stored⟩ := reads _ (Nat.lt_succ_self text.length)
    rw [Json.decodeAll, listed, stored]
    rfl
  · have nothing : json.decodeAll text = none := by
      cases decodes : json.decodeAll text with
      | none => rfl
      | some kvs => exact absurd (neverFails_of_decodeLoop decodes) sound
    cases ended : (Decoder.reading text).loop json (text.length + 1) finalStorage with
    | none => rw [nothing]; rfl
    | some result => exact absurd (neverFails_of_loop ended) sound

/-- What an execution does with a file in one action is what the loop does in its rounds. -/
theorem step_reading_eq_loop {setting : Setting} {taskID : Nat} {directory : Directory}
    {temp : Option FileName} {name : String} {files : List (String × Bool)} {content : Bytes}
    (finalStorage : Groups Bytes Bytes) (matched : matchString taskID name = true)
    (found : directory.lookup name = some (.file content)) :
    ReduceStage.step setting taskID directory
        (.reading temp ((name, false) :: files) finalStorage) (.read true) =
      ((Decoder.new (some content)).loop setting.json (content.length + 1) finalStorage).map
        fun stored => (directory, some (.reading temp files stored)) := by
  rw [Decoder.new, ← decodeAll_eq_loop]
  cases decodes : setting.json.decodeAll content with
  | none => simp [ReduceStage.step, matched, found, decodes]
  | some kvs => simp [ReduceStage.step, matched, found, decodes]

/-! ## All files -/

/-- The file can be opened, and no `Decode` on the way through it gives an error that the decoder
    keeps. -/
def Opens (json : Json) (contents : String → Option Bytes) (name : String) : Prop :=
  ∃ text, contents name = some text ∧ json.NeverFails text

variable {taskID : Nat} {contents : String → Option Bytes}

/-- How many rounds the files of a list need at most. -/
def roundsFor (contents : String → Option Bytes) (files : List (String × Bool)) : Nat :=
  (files.map fun file => ((contents file.1).getD []).length).sum + 1

theorem readFiles_isSome {rounds : Nat} {files : List (String × Bool)}
    (readable : ∀ name, (name, false) ∈ files → matchString taskID name = true →
      Opens json contents name)
    (enough : roundsFor contents files ≤ rounds) (finalStorage : Groups Bytes Bytes) :
    (readFiles json taskID contents rounds files finalStorage).isSome := by
  induction files generalizing finalStorage with
  | nil => rfl
  | cons file files ih =>
    obtain ⟨name, isDir⟩ := file
    have later := ih (fun name listed => readable name (List.mem_cons_of_mem _ listed))
      (le_trans (by simp [roundsFor]) enough)
    simp only [readFiles]
    split
    · rename_i chosen
      obtain ⟨plain, matched⟩ := Bool.and_eq_true_iff.mp chosen
      obtain rfl : isDir = false := by simpa using plain
      obtain ⟨text, found, sound⟩ := readable name List.mem_cons_self matched
      obtain ⟨kvs, reads⟩ := sound.loop
      have fits : text.length < rounds := by
        simp only [roundsFor, List.map_cons, List.sum_cons, found, Option.getD_some] at enough
        omega
      rw [found, Decoder.new, (reads rounds fits).2, Option.bind_eq_bind, Option.bind_some]
      exact later _
    · exact later _

theorem opens_of_readFiles {rounds : Nat} {files : List (String × Bool)}
    {finalStorage : Groups Bytes Bytes}
    (ended : (readFiles json taskID contents rounds files finalStorage).isSome) :
    ∀ name, (name, false) ∈ files → matchString taskID name = true → Opens json contents name := by
  induction files generalizing finalStorage with
  | nil =>
    intro name listed
    cases listed
  | cons file files ih =>
    obtain ⟨name', isDir⟩ := file
    intro name listed matched
    simp only [readFiles] at ended
    split at ended
    · obtain ⟨result, returned⟩ := Option.isSome_iff_exists.mp ended
      obtain ⟨stored, first, rest⟩ := Option.bind_eq_some_iff.mp returned
      rcases List.mem_cons.mp listed with here | there
      · cases here
        exact loop_new_isSome (by rw [first]; rfl)
      · exact ih (by rw [rest]; rfl) name there matched
    · rename_i passed
      rcases List.mem_cons.mp listed with here | there
      · cases here
        simp [matched] at passed
      · exact ih ended name there matched

/-- The read loop ends exactly if every matching file can be opened and no `Decode` on the way through
    it gives an error that the decoder keeps. -/
theorem readFiles_ends_iff (json : Json) (taskID : Nat) (contents : String → Option Bytes)
    (files : List (String × Bool)) (finalStorage : Groups Bytes Bytes) :
    (∃ rounds, (readFiles json taskID contents rounds files finalStorage).isSome) ↔
      ∀ name, (name, false) ∈ files → matchString taskID name = true → Opens json contents name := by
  constructor
  · rintro ⟨rounds, ended⟩
    exact opens_of_readFiles ended
  · intro readable
    exact ⟨_, readFiles_isSome readable (le_refl _) finalStorage⟩

end Loop

/-! ## A file that was cut -/

/-- A file as `DoMapTask` writes it. -/
theorem readFiles_ends_iff_written :
    ∃ rounds, (readFiles asciiJson 0
      (fun _ => some (asciiJson.encode (AsciiJson.ascii "a", [AsciiJson.ascii "1"]))) rounds
      [("mr-0-0", false), ("mr-0-1", false)] ∅).isSome := by
  refine (readFiles_ends_iff _ _ _ _ _).mpr fun name _ _ => ⟨_, rfl, ?_⟩
  have key : AsciiJson.Plain (AsciiJson.ascii "a") := by decide +kernel
  have values : ∀ value ∈ [AsciiJson.ascii "1"], AsciiJson.Plain value := by decide +kernel
  have decoded := asciiJson.decode_encode (AsciiJson.ascii "a", [AsciiJson.ascii "1"]) [] key values
  rw [List.append_nil] at decoded
  exact Json.neverFails_of_value decoded (Json.neverFails_of_eof asciiJson.decode_nil)

/-- The first half of an entry, as an `Encode` that fails leaves it. -/
def cutEntry : Bytes := (asciiJson.encode (AsciiJson.ascii "a", [AsciiJson.ascii "1"])).take 9

/-- The reduce task never gets past such a file. -/
theorem cutEntry_endless :
    ¬ ∃ rounds, (readFiles asciiJson 0 (fun _ => some cutEntry) rounds
      [("mr-0-0", false)] ∅).isSome := by
  rintro ⟨rounds, ended⟩
  have matched : matchString 0 "mr-0-0" = true := by decide +kernel
  have decoded : asciiJson.decode cutEntry = .error := by decide +kernel
  simp [readFiles, matched, Decoder.new, loop_error rounds ∅ decoded] at ended

end DistributedCloud.MapReduce
