/-
The settings of a localization: the languages, what is sent to the translator besides variations,
and how the translation services are reached. Settings come from named texts of an environment, and
a caller may change what the environment gave.
-/
import LangGen.Decimal.Number
import LangGen.Text.Quoted

namespace LangGen

/-- How template files are localized. -/
structure Settings where
  /-- The language to translate into. -/
  toLang : Text
  /-- The language to translate from; a service finds it out when there is none. -/
  fromLang : Option Text := none
  translateComments : Bool := false
  /-- Whether the labels of file references are translated. Targets never are. -/
  translateLinkText : Bool := false
  /-- The key of the text translation service. -/
  serviceKey : Option Text := none
  /-- The address of the text translation service. -/
  endpoint : Text := "https://api.cognitive.microsofttranslator.com".toList
  /-- How long a call of the service may take, in seconds; none sets no limit. -/
  timeout : Option Number := some (.float (.ofDecimal false 10 0))
  /-- The provider and the name of the chat model to translate with. -/
  chatModel : Option Text := none
  deriving DecidableEq, Repr

namespace Settings

/-- Where texts to be translated are sent. -/
def translateUrl (endpoint : Text) : Text :=
  (endpoint.reverse.dropWhile (· == '/')).reverse ++ "/translate".toList

/-! ## The environment -/

/-- Why an environment gives no settings. -/
inductive Error
  /-- The timeout is not a number. -/
  | badTimeout (text : Text)
  | noTarget
  deriving DecidableEq, Repr

/-- How an error is reported. -/
def Error.message : Error → Text
  | badTimeout text => "could not convert string to float: ".toList ++ Text.quoted text
  | noTarget => "Target language is required (set MSLG_TO_LANG)".toList

/-- A text that is given and not empty. -/
def given? (s : Option Text) : Option Text := s.filter (!·.isEmpty)

/-- Whether a text switches something on. -/
def isOn (s : Option Text) : Bool :=
  s.elim false fun s =>
    ["1".toList, "true".toList, "yes".toList, "on".toList].any (Text.sameLetters · (Text.trim s))

/-- What a timeout is read as; an empty one is left at its default. -/
def timeoutOf (s : Option Text) (default : Option Number) : Except Error (Option Number) :=
  match given? s with
  | none => .ok default
  | some s => (Decimal.read? s).elim (.error (.badTimeout s)) fun x => .ok (some (.float x))

/-- The settings that an environment gives, after a caller's changes to them. The timeout is read
before the changes, and the target language is asked for after them. -/
def ofEnvironment (env : Text → Option Text) (change : Settings → Settings) :
    Except Error Settings :=
  let base : Settings := { toLang := (env "MSLG_TO_LANG".toList).getD [] }
  (timeoutOf (env "MSLG_TRANSLATOR_TIMEOUT".toList) base.timeout).bind fun timeout =>
    let s := change { base with
      fromLang := given? (env "MSLG_SRC_LANG".toList)
      translateComments := isOn (env "MSLG_TRANSLATE_COMMENTS".toList)
      translateLinkText := isOn (env "MSLG_TRANSLATE_LINK_TEXT".toList)
      serviceKey := given? (env "MSLG_TRANSLATE_KEY".toList)
      endpoint := (given? (env "MSLG_TRANSLATOR_ENDPOINT".toList)).getD base.endpoint
      timeout := timeout
      chatModel := given? (env "MSLG_LLM_MODEL".toList) }
    if s.toLang.isEmpty then .error .noTarget else .ok s

/-! ## Display -/

/-- A value as it is shown, or the word for none. -/
def showOption {α : Type} (f : α → Text) (a : Option α) : Text := a.elim "None".toList f

/-- A switch as a word. -/
def showSwitch (b : Bool) : Text := if b then "True".toList else "False".toList

/-- The settings on one line. The key of the service is kept out of it. -/
def display (s : Settings) : Text :=
  let fields : List (String × Text) :=
    [("to_lang", Text.quoted s.toLang), ("src_lang", showOption Text.quoted s.fromLang),
      ("translate_comments", showSwitch s.translateComments),
      ("translate_link_text", showSwitch s.translateLinkText),
      ("endpoint", Text.quoted s.endpoint), ("timeout_seconds", showOption Number.text s.timeout),
      ("llm_model", showOption Text.quoted s.chatModel)]
  "TranslationConfig(".toList ++
    Text.join ", ".toList (fields.map fun f => f.1.toList ++ '=' :: f.2) ++ [')']

end Settings

end LangGen
