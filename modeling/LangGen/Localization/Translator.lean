/-
Translators. A translator answers a request for the translation of a text, and its answer may depend
on the requests before it; so work that calls a translator returns the requests that have been made
along with its result.
-/
import LangGen.Fault

namespace LangGen

/-- A text to be translated, and the languages. -/
structure Request where
  text : Text
  toLang : Text
  fromLang : Option Text := none
  deriving DecidableEq, Repr

/-- Answers a request, given the requests made before it. -/
abbrev Translator := List Request → Request → Except Failure Text

/-- A result, and all requests made up to it, in order. -/
structure Traced (ε α : Type) where
  result : Except ε α
  requests : List Request

/-- A result for which no request is made. -/
def Traced.pure {ε α : Type} (requests : List Request) (a : α) : Traced ε α := ⟨.ok a, requests⟩

/-- Changes a result. -/
def Traced.map {ε α β : Type} (f : α → β) (t : Traced ε α) : Traced ε β :=
  ⟨t.result.map f, t.requests⟩

/-- Makes a request after the given ones. -/
def Translator.ask (tr : Translator) (before : List Request) (r : Request) : Traced Failure Text :=
  ⟨tr before r, before ++ [r]⟩

end LangGen
