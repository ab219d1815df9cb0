/-
Chat models to translate with, and the registry in which they have names. A model is told by a
specification `provider:model`.
-/
import LangGen.Backend.RateLimit
import LangGen.Localization.Settings
import LangGen.Text.Quoted

namespace LangGen.Backend

/-! ## Models -/

/-- Who offers a model. -/
inductive Provider
  | anthropic
  | google
  | openai
  deriving DecidableEq, Repr

/-- All providers, in the order in which they are listed to a user. -/
def Provider.all : List Provider := [anthropic, google, openai]

/-- The name of a provider. -/
def Provider.text : Provider → Text
  | anthropic => "anthropic".toList
  | google => "google".toList
  | openai => "openai".toList

/-- The provider with this name, blanks around it and the case of its letters aside. -/
def Provider.ofText? (s : Text) : Option Provider :=
  all.find? fun p => Text.sameLetters p.text (Text.trim s)

/-- The settings of a chat model. -/
structure ChatModel where
  provider : Provider
  name : Text
  /-- How freely it answers; none leaves it to the provider. -/
  temperature : Option Number := some (.float (.zero false))
  /-- Requests per second; none sets no limit. -/
  rate : Option Number := some (.float (.ofDecimal false 1 0))
  /-- Text added to what the model is told. -/
  instructions : Option Text := none
  deriving DecidableEq, Repr

/-- Why a specification names no model. -/
inductive SpecError
  /-- There is no specification. -/
  | missing
  /-- There is no colon, or nothing but blanks after it. -/
  | malformed (spec : Text)
  | unknownProvider (name : Text)
  deriving DecidableEq, Repr

/-- How an error is reported. -/
def SpecError.message : SpecError → Text
  | missing => "An LLM model spec is required (set MSLG_LLM_MODEL)".toList
  | malformed spec =>
    "Model spec \"".toList ++ spec ++ "\" must look like \"<provider>:<model>\"".toList
  | unknownProvider name =>
    "Unknown provider \"".toList ++ name ++ "\" (expected one of ".toList ++
      Text.join ", ".toList (Provider.all.map Provider.text) ++ [')']

/-- The provider and the name of the model of a specification: what stands before the first colon,
and what stands after it, trimmed. -/
def parseSpec (spec : Text) : Except SpecError (Provider × Text) :=
  let provider := spec.takeWhile (· != ':')
  let model := Text.trim (spec.drop (provider.length + 1))
  if model.isEmpty then .error (.malformed spec)
  else (Provider.ofText? provider).elim (.error (.unknownProvider provider)) fun p => .ok (p, model)

/-- The model of a specification, with the settings that every model starts from. -/
def ChatModel.ofSpec (spec : Text) : Except SpecError ChatModel :=
  (parseSpec spec).map fun p => { provider := p.1, name := p.2 }

/-- The model that settings tell of. -/
def ChatModel.ofSettings (s : Settings) : Except SpecError ChatModel :=
  (Settings.given? s.chatModel).elim (.error .missing) ChatModel.ofSpec

/-! ## The registry -/

/-- Models by name, in the order in which the names were first registered. -/
abbrev Registry := List (Text × ChatModel)

namespace Registry

/-- The name of the model that is used when none is asked for. -/
def defaultName : Text := "default".toList

/-- Adds a model, or puts it in the place of the one that has its name. -/
def register (r : Registry) (name : Text) (m : ChatModel) : Registry :=
  if r.any (·.1 == name) then r.map fun e => if e.1 == name then (name, m) else e
  else r ++ [(name, m)]

/-- The registered names. -/
def names (r : Registry) : List Text := r.map (·.1)

/-- What is reported of a name that is not registered. -/
def notRegistered (r : Registry) (name : Text) : Text :=
  "Translator model \"".toList ++ name ++ "\" is not registered. Registered models: ".toList ++
    Text.quotedList r.names

/-- The model of a name, or the report that there is none. -/
def get (r : Registry) (name : Text) : Except Text ChatModel :=
  match r.find? (·.1 == name) with
  | some e => .ok e.2
  | none => .error (r.notRegistered name)

end Registry

/-! ## Limiters -/

/-- The limiter of a model that is put to work. -/
inductive Limiter
  | none
  /-- The limiter that the caller gave. -/
  | given (label : Text)
  | own (limit : RateLimit)
  deriving DecidableEq, Repr

/-- The limiter to use: the caller's, or else that of the model's own rate, if it has one that is
not zero. -/
def ChatModel.limiter (m : ChatModel) (given : Option Text) : Except RateError Limiter :=
  match given, m.rate with
  | some label, _ => .ok (.given label)
  | Option.none, Option.none => .ok .none
  | Option.none, some rate =>
    if rate.isZero then .ok .none else (RateLimit.ofRate rate).map .own

end LangGen.Backend
