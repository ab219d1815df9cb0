/-
The text translation service: one request with one text, and the first translation in the reply.
-/
import LangGen.Fault
import LangGen.Json.Basic
import LangGen.Localization.Settings
import LangGen.Localization.Translator

namespace LangGen.Backend

/-! ## The service -/

/-- How the service is reached. -/
structure TextService where
  key : Text
  url : Text
  timeout : Option Number
  deriving DecidableEq, Repr

/-- What is reported when there is no key. -/
def noKey : Text := "A translator subscription key is required".toList

/-- The service at an endpoint, if there is a key. -/
def TextService.create? (key : Option Text) (endpoint : Text) (timeout : Option Number) :
    Except Text TextService :=
  match Settings.given? key with
  | some key => .ok ⟨key, Settings.translateUrl endpoint, timeout⟩
  | none => .error noKey

/-- The service that settings tell of. -/
def TextService.ofSettings (s : Settings) : Except Text TextService :=
  TextService.create? s.serviceKey s.endpoint s.timeout

/-! ## Requests and replies -/

/-- A request to the service. -/
structure Post where
  url : Text
  parameters : List (Text × Text)
  text : Text
  key : Text
  timeout : Option Number
  deriving DecidableEq, Repr

/-- The request for a translation. The language to translate from is named only when it is known. -/
def TextService.post (s : TextService) (r : Request) : Post where
  url := s.url
  parameters :=
    [("api-version".toList, "3.0".toList), ("to".toList, r.toLang),
      ("includeAlignment".toList, "true".toList)] ++
      ((Settings.given? r.fromLang).map fun l => ("from".toList, l)).toList
  text := r.text
  key := s.key
  timeout := s.timeout

/-- What comes of a request. -/
inductive Reply
  /-- Nothing came back; what is known about why. -/
  | unreachable (why : Text)
  /-- A status with its reason, and the body or why it is no JSON. Which statuses are `ok` is for
  the library that sends the request to say, and it says so beside the code: not every code of 400
  or more is a refusal to it. -/
  | status (ok : Bool) (code : Int) (reason : Text) (body : Except Text Json)

/-! ## Reading the body -/

/-- What a value that holds no parts is called. -/
def bareName : Json → Option Text
  | .null => some "NoneType".toList
  | .bool _ => some "bool".toList
  | .number literal => some (if literal.any fun c => c == '.' || c == 'e' || c == 'E' then
      "float".toList else "int".toList)
  | _ => none

/-- What is reported of a value without parts. -/
def noParts (j : Json) : Text :=
  '\'' :: (bareName j).getD [] ++ "' object is not subscriptable".toList

/-- The first item of a value. Of a string that is its first character. -/
def firstItem : Json → Except Text Json
  | .array (j :: _) => .ok j
  | .array [] => .error "list index out of range".toList
  | .string (c :: _) => .ok (.string [c])
  | .string [] => .error "string index out of range".toList
  | .object _ => .error ['0']
  | j => .error (noParts j)

/-- The member of a value with this key. -/
def memberAt (key : Text) : Json → Except Text Json
  | .object members => (Json.member? members key).elim (.error ('\'' :: key ++ ['\''])) .ok
  | .array _ => .error "list indices must be integers or slices, not str".toList
  | .string _ => .error "string indices must be integers, not 'str'".toList
  | j => .error (noParts j)

/-- The text of the first translation of the first element of a body, whatever value it is. -/
def translationIn (body : Json) : Except Text Json :=
  ((firstItem body).bind (memberAt "translations".toList)).bind fun ts =>
    (firstItem ts).bind (memberAt "text".toList)

/-- The fault that a reply amounts to, unless it holds a translation. -/
def translationOf (reply : Reply) : Except Failure Json :=
  let fail := fun message status =>
    .error { fault := .serviceFailed message status }
  match reply with
  | .unreachable why => fail ("Text translator service call failed: ".toList ++ why) none
  | .status ok code reason body =>
    if ok then
      match body.bind translationIn with
      | .ok j => .ok j
      | .error why =>
        fail ("Unexpected response from text translator service: ".toList ++ why) none
    else
      fail ("Text translator service call failed with [".toList ++ Text.ofInt code ++
        "] : ".toList ++ reason ++ ".\nPlease check key & language code validity".toList) (some code)

/-- The translation of a text by a service that is reached through `send`. -/
def TextService.translate (s : TextService) (send : Post → Reply) (r : Request) : Except Failure Json :=
  translationOf (send (s.post r))

end LangGen.Backend
