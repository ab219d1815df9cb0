/-
Localizing the text of a template file, line by line. Headers, entity definitions and the lines that
open branches stay as they are; variations are translated, and comments and the labels of file
references on demand. Every line of the result ends in CR LF.
-/
import LangGen.Line.Item
import LangGen.Line.Reference
import LangGen.Localization.Settings
import LangGen.Localization.Translator
import LangGen.Text.Lines

namespace LangGen.Localization

/-- Translates a text between the languages of the settings. -/
def translate (s : Settings) (tr : Translator) (before : List Request) (text : Text) :
    Traced Failure Text :=
  tr.ask before ⟨text, s.toLang, s.fromLang⟩

/-- Localizes a comment, which is trimmed and starts with its mark. -/
def comment (s : Settings) (tr : Translator) (before : List Request) (line : Text) :
    Traced Failure Text :=
  let body := Text.trim (line.drop 1)
  if !s.translateComments || body.isEmpty then .pure before line
  else (translate s tr before body).map ([Line.commentMark, ' '] ++ ·)

/-- Localizes a trimmed line that starts with the mark of a file reference. -/
def reference (s : Settings) (tr : Translator) (before : List Request) (line : Text) :
    Traced Failure Text :=
  match s.translateLinkText, Line.fileReference? line with
  | true, some (label, target) =>
    let whole := fun label => '[' :: label ++ [']', '('] ++ target ++ [')']
    if Text.allBlank label then .pure before (whole label)
    else (translate s tr before label).map whole
  | _, _ => .pure before line

/-- Localizes a trimmed list item with this mark and payload. -/
def item (s : Settings) (tr : Translator) (before : List Request) (line : Text) (mark : Char)
    (payload : Text) : Traced Failure Text :=
  match Line.Payload.ofText payload with
  | .variation text@(_ :: _) => (translate s tr before text).map (['\t', mark, ' '] ++ ·)
  | _ => .pure before line

/-- Localizes a line. -/
def line (s : Settings) (tr : Translator) (before : List Request) (raw : Text) :
    Traced Failure Text :=
  let line := Text.trim raw
  match line with
  | [] => .pure before []
  | c :: _ =>
    if c = Line.commentMark then comment s tr before line
    else if c = Line.referenceMark then reference s tr before line
    else if c = Line.entityMark ∨ c = Line.templateMark then .pure before line
    else
      match Line.item? line with
      | some (mark, payload) => item s tr before line mark payload
      | none =>
        ⟨.error { fault := .unrecognized line (some "Invalid line detected".toList) }, before⟩

/-- Localizes lines, and ends each with CR LF. -/
def lines (s : Settings) (tr : Translator) : List Request → List Text → Traced Failure Text
  | before, [] => .pure before []
  | before, raw :: rest =>
    match line s tr before raw with
    | ⟨.ok l, requests⟩ => (lines s tr requests rest).map (l ++ '\r' :: '\n' :: ·)
    | ⟨.error f, requests⟩ => ⟨.error f, requests⟩

/-- Localizes the text of a template file. -/
def content (s : Settings) (tr : Translator) (before : List Request) (text : Text) :
    Traced Failure Text :=
  lines s tr before (Text.lines text)

end LangGen.Localization
