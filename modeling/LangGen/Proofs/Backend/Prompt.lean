/-
What a chat model is told. A pattern that is put together from texts and fields, the texts with
their braces doubled, is filled to just these texts and to the values of the fields
(`fill_written`): a doubled brace is one brace whatever stands beside it, and no value is read as a
pattern. The patterns of both messages are put together in this way, so the text and the
instructions are told as they are, whatever braces are in them.
-/
import LangGen.Backend.Prompt

namespace LangGen.Backend

/-! ## Doubled braces -/

/-- A text in which this character is doubled wherever it stands. -/
def doubled (c : Char) (s : Text) : Text := s.flatMap fun d => if d = c then [d, d] else [d]

theorem literal_cons (c : Char) (s : Text) :
    literal (c :: s) = (if c = '{' ∨ c = '}' then [c, c] else [c]) ++ literal s := rfl

/-- Doubling the opening braces and then the closing ones doubles each brace once. -/
theorem literal_eq_doubled (s : Text) : literal s = doubled '}' (doubled '{' s) := by
  induction s with
  | nil => rfl
  | cons c s ih =>
    have hcons : doubled '}' (doubled '{' (c :: s)) =
        doubled '}' (if c = '{' then [c, c] else [c]) ++ doubled '}' (doubled '{' s) := List.flatMap_append
    rw [literal_cons, ih, hcons]
    by_cases hopen : c = '{'
    · subst hopen
      rfl
    · by_cases hclose : c = '}' <;> simp [doubled, hopen, hclose]

/-! ## Pieces of patterns -/

/-- A part of a pattern. -/
inductive Piece
  /-- Stands for itself. -/
  | text (s : Text)
  /-- Stands for a value. -/
  | field (name : Text)

namespace Piece

/-- How a part stands in a pattern. -/
def written : Piece → Text
  | text s => literal s
  | field name => '{' :: name ++ ['}']

/-- What a part stands for. -/
def filled? (values : List (Text × Text)) : Piece → Option Text
  | text s => some s
  | field name => values.lookup name

/-- A field has a name, and there is no brace in it. -/
def Named : Piece → Prop
  | text _ => True
  | field name => name ≠ [] ∧ ∀ c ∈ name, c ≠ '{' ∧ c ≠ '}'

end Piece

variable {values : List (Text × Text)}

/-- A text with its braces doubled is filled to itself. -/
theorem fillFrom_literal (s rest : Text) :
    fillFrom values .plain (literal s ++ rest) = (fillFrom values .plain rest).map (s ++ ·) := by
  induction s with
  | nil => simp [literal]
  | cons c s ih =>
    rw [literal_cons, List.append_assoc]
    -- of a doubled brace the first one is not copied yet, and the second one is
    have hread : fillFrom values .plain ((if c = '{' ∨ c = '}' then [c, c] else [c]) ++ (literal s ++ rest)) =
        (fillFrom values .plain (literal s ++ rest)).map (c :: ·) := by
      by_cases hopen : c = '{'
      · subst hopen
        rfl
      · by_cases hclose : c = '}'
        · subst hclose
          rfl
        · simp [fillFrom, hopen, hclose]
    rw [hread, ih, Option.map_map]
    rfl

/-- The rest of a name is read up to the brace that closes the field. -/
theorem fillFrom_name (seen rest : Text) {name : Text} (h : ∀ c ∈ name, c ≠ '{' ∧ c ≠ '}') :
    fillFrom values (.field seen) (name ++ '}' :: rest) =
      (values.lookup (seen ++ name)).bind fun value => (fillFrom values .plain rest).map (value ++ ·) := by
  induction name generalizing seen with
  | nil => simp [fillFrom]
  | cons c name ih =>
    rw [List.forall_mem_cons] at h
    rw [List.cons_append, fillFrom, if_neg h.1.2, if_neg h.1.1, ih (seen ++ [c]) h.2]
    simp

theorem fillFrom_field (rest : Text) {name : Text} (hname : name ≠ [])
    (h : ∀ c ∈ name, c ≠ '{' ∧ c ≠ '}') :
    fillFrom values .plain ('{' :: name ++ '}' :: rest) =
      (values.lookup name).bind fun value => (fillFrom values .plain rest).map (value ++ ·) := by
  obtain ⟨c, name, rfl⟩ := List.exists_cons_of_ne_nil hname
  rw [List.forall_mem_cons] at h
  have hread : fillFrom values .plain ('{' :: (c :: name) ++ '}' :: rest) =
      fillFrom values (.field [c]) (name ++ '}' :: rest) := by
    simp [fillFrom, h.1.1, h.1.2]
  rw [hread, fillFrom_name [c] rest h.2]
  rfl

theorem fillFrom_written {p : Piece} (hp : p.Named) (rest : Text) :
    fillFrom values .plain (p.written ++ rest) =
      (p.filled? values).bind fun value => (fillFrom values .plain rest).map (value ++ ·) := by
  cases p with
  | text s => exact fillFrom_literal s rest
  | field name =>
    rw [Piece.written, List.append_assoc]
    exact fillFrom_field rest hp.1 hp.2

/-- A pattern is filled part by part. -/
theorem fill_written {ps : List Piece} (h : ∀ p ∈ ps, p.Named) :
    fill values (ps.flatMap Piece.written) = (ps.mapM (Piece.filled? values)).map List.flatten := by
  unfold fill
  induction ps with
  | nil => rfl
  | cons p ps ih =>
    rw [List.forall_mem_cons] at h
    rw [List.flatMap_cons, fillFrom_written h.1, ih h.2, List.mapM_cons]
    cases p.filled? values with
    | none => rfl
    | some value => cases ps.mapM (Piece.filled? values) <;> rfl

/-! ## The patterns of the messages -/

/-- The task, up to what is said about the language of the text. -/
def taskStart : Text :=
  "You translate lines of a language generation template file. ".toList ++ "Translate the user's text ".toList

/-- The task, between what is said about the two languages. -/
def taskMiddle : Text := "into the language with code '".toList

/-- The task, behind the language to translate to. -/
def taskEnd : Text :=
  "'. Keep every \x7bplaceholder\x7d in curly braces and every [reference] in square ".toList ++
    "brackets exactly as written. Reply with the translated text only.".toList

/-- The task for a language, with what is said about the language of the text. -/
def taskText (toLang clause : Text) : Text := taskStart ++ clause ++ taskMiddle ++ toLang ++ taskEnd

/-- What sets the task, part by part. -/
def taskPieces : List Piece :=
  [.text taskStart, .field "source_clause".toList, .text taskMiddle, .field "to_lang".toList, .text taskEnd]

/-- The instructions on the lines below the task; nothing when there are none. -/
def below : Option Text → Text
  | some (c :: r) => '\n' :: c :: r
  | _ => []

theorem taskPattern_eq : taskPattern = taskPieces.flatMap Piece.written := by decide +kernel

theorem systemPattern_eq_append (instructions : Option Text) :
    systemPattern instructions = taskPattern ++ literal (below instructions) := by
  rcases instructions with _ | _ | ⟨c, r⟩
  · exact (List.append_nil taskPattern).symm
  · exact (List.append_nil taskPattern).symm
  · rfl

theorem systemPattern_eq (instructions : Option Text) :
    systemPattern instructions = (taskPieces ++ [Piece.text (below instructions)]).flatMap Piece.written := by
  rw [systemPattern_eq_append, taskPattern_eq, List.flatMap_append]
  simp [Piece.written]

theorem named_system (instructions : Option Text) :
    ∀ p ∈ taskPieces ++ [Piece.text (below instructions)], p.Named := by
  intro p hp
  simp only [taskPieces, List.mem_append, List.mem_cons, List.not_mem_nil, or_false] at hp
  rcases hp with (rfl | rfl | rfl | rfl | rfl) | rfl
  · trivial
  · exact ⟨by decide, by simp⟩
  · trivial
  · exact ⟨by decide, by simp⟩
  · trivial
  · trivial

/-! ## Messages -/

theorem fill_systemPattern (instructions : Option Text) {toLang clause : Text}
    (hclause : values.lookup "source_clause".toList = some clause)
    (hlang : values.lookup "to_lang".toList = some toLang) :
    fill values (systemPattern instructions) = some (taskText toLang clause ++ below instructions) := by
  rw [systemPattern_eq, fill_written (named_system instructions)]
  simp only [taskPieces, taskText, List.cons_append, List.nil_append, List.mapM_cons, List.mapM_nil, Piece.filled?,
    hclause, hlang, Option.bind_eq_bind, Option.bind_some, Option.pure_def, Option.map_some, List.flatten_cons,
    List.flatten_nil, List.append_assoc, List.append_nil]

theorem fill_humanPattern {text : Text} (htext : values.lookup "text".toList = some text) :
    fill values humanPattern = some text := by
  have hhuman : humanPattern = [Piece.field "text".toList].flatMap Piece.written := by decide
  have hnamed : ∀ p ∈ [Piece.field "text".toList], p.Named := by
    intro p hp
    rw [List.mem_singleton.1 hp]
    exact ⟨by decide, by simp⟩
  rw [hhuman, fill_written hnamed]
  simp only [List.mapM_cons, List.mapM_nil, Piece.filled?, htext, Option.bind_eq_bind, Option.bind_some,
    Option.pure_def, Option.map_some, List.flatten_cons, List.flatten_nil, List.append_nil]

/-- Whatever braces are in them, there are messages for a text, languages and instructions: the
human message is the text, and the system message sets the task, with the instructions as they are
on the lines below it. In the pattern of the system message first the opening braces of the
instructions are doubled and then the closing ones. -/
theorem messages_literal (instructions : Option Text) :
    (∀ text toLang clause, messages instructions text toLang clause =
        some [(.system, taskText toLang clause ++ below instructions), (.human, text)]) ∧
      (∀ r : Request, messagesFor instructions r =
        some [(.system, taskText r.toLang (sourceClause r.fromLang) ++ below instructions), (.human, r.text)]) ∧
      systemPattern instructions = taskPattern ++ doubled '}' (doubled '{' (below instructions)) := by
  have hmessages : ∀ text toLang clause, messages instructions text toLang clause =
      some [(.system, taskText toLang clause ++ below instructions), (.human, text)] := by
    intro text toLang clause
    unfold messages
    dsimp only
    rw [fill_systemPattern instructions rfl rfl, fill_humanPattern rfl]
    rfl
  refine ⟨hmessages, fun r => hmessages r.text r.toLang (sourceClause r.fromLang), ?_⟩
  rw [← literal_eq_doubled, systemPattern_eq_append]

/-- The seam between the task and the instructions. -/
example : messages (some "\x7b\x7d\x7d\x7bto_lang\x7d".toList) "\x7btext".toList "de".toList [] =
    some [(.system, taskText "de".toList [] ++ '\n' :: "\x7b\x7d\x7d\x7bto_lang\x7d".toList),
      (.human, "\x7btext".toList)] := by decide +kernel

end LangGen.Backend
