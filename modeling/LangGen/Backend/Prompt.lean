/-
What a chat model is told for each text: a system message that sets the task and a human message
that is the text. Messages are made from patterns, in which a name in braces is a field to be filled
and a doubled brace is a brace.
-/
import LangGen.Localization.Translator
import LangGen.Text.Basic

namespace LangGen.Backend

/-! ## Patterns -/

/-- Where the reading of a pattern stands. -/
inductive PatternMode
  | plain
  /-- Right after an opening brace. -/
  | opened
  /-- Right after a closing brace. -/
  | closed
  /-- Inside a field, after this much of its name. -/
  | field (name : Text)
  deriving DecidableEq, Repr

/-- Fills the fields of the rest of a pattern. There is no result when a brace is left alone or a
field is unknown; a value is never read as a pattern. -/
def fillFrom (values : List (Text × Text)) : PatternMode → Text → Option Text
  | .plain, [] => some []
  | _, [] => none
  | .plain, c :: r =>
    if c = '{' then fillFrom values .opened r
    else if c = '}' then fillFrom values .closed r
    else (fillFrom values .plain r).map (c :: ·)
  | .opened, c :: r =>
    if c = '{' then (fillFrom values .plain r).map (c :: ·)
    else if c = '}' then none
    else fillFrom values (.field [c]) r
  | .closed, c :: r => if c = '}' then (fillFrom values .plain r).map (c :: ·) else none
  | .field name, c :: r =>
    if c = '}' then
      (values.lookup name).bind fun value => (fillFrom values .plain r).map (value ++ ·)
    else if c = '{' then none
    else fillFrom values (.field (name ++ [c])) r

/-- A pattern with its fields filled. -/
def fill (values : List (Text × Text)) (pattern : Text) : Option Text :=
  fillFrom values .plain pattern

/-- The pattern that stands for a text: its braces doubled. -/
def literal (s : Text) : Text :=
  s.flatMap fun c => if c = '{' ∨ c = '}' then [c, c] else [c]

/-! ## Messages -/

/-- What sets the task. -/
def taskPattern : Text :=
  "You translate lines of a language generation template file. ".toList ++
    "Translate the user's text \x7bsource_clause\x7dinto the language with code ".toList ++
    "'\x7bto_lang\x7d'. Keep every \x7b\x7bplaceholder\x7d\x7d in curly braces and ".toList ++
    "every [reference] in square brackets exactly as written. ".toList ++
    "Reply with the translated text only.".toList

/-- The pattern of the system message: the task, and instructions on the lines below it. -/
def systemPattern (instructions : Option Text) : Text :=
  match instructions with
  | some (c :: r) => taskPattern ++ '\n' :: literal (c :: r)
  | _ => taskPattern

/-- The pattern of the human message: the text alone. -/
def humanPattern : Text := "\x7btext\x7d".toList

/-- Who speaks. -/
inductive Speaker
  | system
  | human
  deriving DecidableEq, Repr

/-- The messages for a text. -/
def messages (instructions : Option Text) (text toLang sourceClause : Text) :
    Option (List (Speaker × Text)) :=
  let values := [("text".toList, text), ("to_lang".toList, toLang),
    ("source_clause".toList, sourceClause)]
  (fill values (systemPattern instructions)).bind fun system =>
    (fill values humanPattern).map fun human => [(.system, system), (.human, human)]

/-- What is said about the language of the text, when it is known. -/
def sourceClause (fromLang : Option Text) : Text :=
  match fromLang with
  | some (c :: r) => "from the language with code '".toList ++ c :: r ++ "' ".toList
  | _ => []

/-- The messages for a request. -/
def messagesFor (instructions : Option Text) (r : Request) : Option (List (Speaker × Text)) :=
  messages instructions r.text r.toLang (sourceClause r.fromLang)

/-! ## Replies -/

/-- What comes of calling a chat model. -/
inductive ChatReply
  | text (s : Text)
  /-- The provider reports an error. -/
  | providerError (why : Text)
  deriving DecidableEq, Repr

/-- The translation in a reply, trimmed. -/
def translationFrom : ChatReply → Except Failure Text
  | .text s => .ok (Text.trim s)
  | .providerError why =>
    .error { fault := .serviceFailed ("Chat model translation failed: ".toList ++ why) none }

end LangGen.Backend
