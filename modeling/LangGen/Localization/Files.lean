/-
Localizing template files. Each file is read, localized as a whole and then written into a folder
named for the language, next to the file or below a folder that the caller names. Work ends at the
first failure, and what has been written by then stays.

A translator may answer with halves of surrogate pairs, which UTF-8 does not encode. No character is
such a half, so characters stand for them here: `lone` tells which ones, to be taken among those
that stand nowhere else in a run.
-/
import LangGen.Files.Source
import LangGen.Localization.Content

namespace LangGen.Localization

open LangGen.Files

/-! ## Where files are written -/

/-- The extension of template files. -/
def extension : Text := ['.', 'l', 'g']

/-- A name without the extension of template files at its end. -/
def dropExtension (name : Text) : Text :=
  if extension.isSuffixOf name then name.take (name.length - extension.length) else name

/-- The path that a localized file is written to. An empty folder counts as none; so does an empty
name, and the file then keeps its own. -/
def outputPath (file : Path) (toLang : Text) (folder name : Option Text) : Path :=
  let fileName := match Settings.given? name with
    | some name => dropExtension name ++ '_' :: file.stem ++ extension
    | none => file.fileName
  let base := (Settings.given? folder).elim file.parent Path.ofText
  base ++ Path.ofText toLang ++ Path.ofText fileName

/-! ## The run -/

/-- What a run over files leaves behind: the tree, the requests made, and the paths written or what
ended the run. -/
structure Run where
  tree : Tree
  requests : List Request
  result : Except Halt (List Path)

/-- The bytes of a text, unless one of its characters stands for half of a surrogate pair. -/
def encode? (lone : Char → Bool) (text : Text) : Option Text.Utf8.Bytes :=
  if text.any lone then none else some (Text.Utf8.encode text)

/-- Writes a localized file, with the folders above it. The file is emptied before its text is
encoded, and is left so if the text has no bytes. -/
def deliver (lone : Char → Bool) (t : Tree) (p : Path) (text : Text) : Tree × Option Halt :=
  match t.makeFolders p.parent with
  | (t, some e) => (t, some (.file e))
  | (t, none) =>
    match t.create p with
    | .error e => (t, some (.file e))
    | .ok (l, t) =>
      match encode? lone text with
      | none => (t, some .unencodable)
      | some bytes => (t.put l bytes, none)

/-- Localizes files in order, after some requests. -/
def filesFrom (lone : Char → Bool) (s : Settings) (tr : Translator) (folder name : Option Text) :
    Tree → List Request → List Path → Run
  | t, before, [] => ⟨t, before, .ok []⟩
  | t, before, p :: ps =>
    match readText t p with
    | .error halt => ⟨t, before, .error halt⟩
    | .ok text =>
      match content s tr before text with
      | ⟨.error f, requests⟩ => ⟨t, requests, .error (.failure f)⟩
      | ⟨.ok localized, requests⟩ =>
        let q := outputPath p s.toLang folder name
        match deliver lone t q localized with
        | (t, some halt) => ⟨t, requests, .error halt⟩
        | (t, none) =>
          let run := filesFrom lone s tr folder name t requests ps
          { run with result := run.result.map (q :: ·) }

/-- Localizes files. There must be one at least, and a folder that is named must exist. -/
def files (lone : Char → Bool) (s : Settings) (tr : Translator) (folder name : Option Text)
    (t : Tree) (ps : List Path) : Run :=
  let refuse := fun halt => (⟨t, [], .error halt⟩ : Run)
  if ps.isEmpty then refuse (.failure { fault := .general "No .lg files specified".toList })
  else
    match folder with
    | none => filesFrom lone s tr folder name t [] ps
    | some f =>
      match t.isFolder (Path.ofText f) with
      | .error e => refuse (.file e)
      | .ok true => filesFrom lone s tr folder name t [] ps
      | .ok false =>
        let text := "Output folder ".toList ++ f ++ " does not exist".toList
        refuse (.failure { fault := .general text })

end LangGen.Localization
