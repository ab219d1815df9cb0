/-
What a run over files does when it fails. Each file has its turn, in which it is read, localized as
a whole and written; so where a file cannot be read or localized, what is left is what the files
before it left. Every file that has been written holds the whole of a localized text
(`files_turns`), but for the last one where its text cannot be encoded: that one has been emptied by
then (`files_emptied`).
-/
import LangGen.Proofs.Localization.Files
import LangGen.Proofs.Localization.Requests

namespace LangGen.Localization

open LangGen.Files

variable {lone : Char → Bool} {s : Settings} {tr : Translator} {folder name : Option Text}

/-! ## Deliveries, one by one -/

namespace Delivers

variable {t u : Tree} {before after : List Request} {ds : List Delivery}

theorem append {v : Tree} {between : List Request} {es : List Delivery}
    (h : Delivers lone s tr folder name t before ds v between)
    (h' : Delivers lone s tr folder name v between es u after) :
    Delivers lone s tr folder name t before (ds ++ es) u after := by
  induction h with
  | nil => exact h'
  | cons hinput hread hcontent houtput hdeliver _ ih => exact .cons hinput hread hcontent houtput hdeliver (ih h')

/-- A file that deliveries leave was there before, or holds the whole of a localized text. -/
theorem file_cases (h : Delivers lone s tr folder name t before ds u after) {l : Location} {bytes : Text.Utf8.Bytes}
    (hfile : u.node? l = some (.file bytes)) :
    t.node? l = some (.file bytes) ∨ ∃ d ∈ ds, d.output = l ∧ bytes = Text.Utf8.encode d.localized := by
  induction h with
  | nil => exact .inl hfile
  | @cons t u v before between after d ds _ _ _ houtput hdeliver _ ih =>
    rcases ih hfile with hu | ⟨e, he, hout⟩
    · have hwritten := written_deliver hdeliver houtput
      by_cases hl : l = d.output
      · rw [hl, hwritten.node] at hu
        cases hu
        exact .inr ⟨d, List.mem_cons_self, hl.symm, rfl⟩
      · exact .inl ((hwritten.grown.other l (by simpa using hl) bytes).1 hu)
    · exact .inr ⟨e, .tail d he, hout⟩

end Delivers

/-! ## What is sent for a text -/

/-- Whether a request is for what a line of the text asks for. -/
def SentFor (s : Settings) (text : Text) (r : Request) : Prop :=
  ∃ raw ∈ Text.lines text, ∃ asked, Asks s raw asked ∧ r = request s asked

theorem mem_requestsOf {raws : List Text} {r : Request} (h : r ∈ requestsOf s raws) :
    ∃ raw ∈ raws, ∃ asked, Asks s raw asked ∧ r = request s asked := by
  obtain ⟨asked, hasked, rfl⟩ := List.mem_map.1 h
  obtain ⟨raw, hraw, heq⟩ := List.mem_filterMap.1 hasked
  exact ⟨raw, hraw, asked, asked?_eq_some_iff.1 heq, rfl⟩

/-- Localizing a text sends what its lines ask for. -/
theorem sentFor_of_mem_content {before : List Request} {text : Text} {r : Request}
    (h : r ∈ (content s tr before text).requests) : r ∈ before ∨ SentFor s text r := by
  obtain ⟨passed, rest, hlines, -, hstops⟩ := lines_stops s tr before (Text.lines text)
  have hpassed : r ∈ before ++ requestsOf s passed → r ∈ before ∨ SentFor s text r := by
    intro hr
    refine (List.mem_append.1 hr).imp_right fun hr => ?_
    obtain ⟨raw, hraw, hasks⟩ := mem_requestsOf hr
    exact ⟨raw, hlines ▸ List.mem_append_left _ hraw, hasks⟩
  unfold content at h
  generalize lines s tr before (Text.lines text) = out at h hstops
  cases hstops with
  | done => exact hpassed h
  | unrecognized _ => exact hpassed h
  | failed hasks _ =>
    rcases List.mem_append.1 h with h | h
    · exact hpassed h
    · refine .inr ⟨_, ?_, _, hasks, List.mem_singleton.1 h⟩
      rw [hlines]
      exact List.mem_append_right _ List.mem_cons_self

theorem Delivers.sentFor {t u : Tree} {before after : List Request} {ds : List Delivery}
    (h : Delivers lone s tr folder name t before ds u after) {r : Request} (hr : r ∈ after) :
    r ∈ before ∨ ∃ d ∈ ds, SentFor s d.text r := by
  induction h with
  | nil => exact .inl hr
  | @cons t u v before between after d ds _ _ hcontent _ _ _ ih =>
    rcases ih hr with hbetween | ⟨e, he, hsent⟩
    · have hmem : r ∈ (content s tr before d.text).requests := by rw [hcontent]; exact hbetween
      exact (sentFor_of_mem_content hmem).imp_right fun hsent => ⟨d, List.mem_cons_self, hsent⟩
    · exact .inr ⟨e, .tail d he, hsent⟩

/-! ## How runs end -/

namespace Ends

variable {t : Tree} {before : List Request} {rest : List Path} {run : Run} {emptied : Option Location}

/-- At the end of a run at most one file changes. -/
theorem grown (h : Ends lone s tr folder name t before rest run emptied) : Tree.Grown emptied.toList t run.tree := by
  cases h with
  | finished => exact .refl t
  | unread _ => exact .refl t
  | unlocalized _ _ => exact .refl t
  | undelivered _ _ _ hgrown => exact hgrown
  | unencodable _ _ _ _ hemptied => exact hemptied.grown

/-- At the end of a run, at most the text of the next file is sent. -/
theorem sentFor (h : Ends lone s tr folder name t before rest run emptied) {r : Request} (hr : r ∈ run.requests) :
    r ∈ before ∨ ∃ p later text, rest = p :: later ∧ readText t p = .ok text ∧ SentFor s text r := by
  -- what is sent in the turn of the next file is sent for its text, however that turn ends
  have hnext {p : Path} {later : List Path} {text : Text} {result : Except Failure Text} {after : List Request}
      (hread : readText t p = .ok text) (hcontent : content s tr before text = ⟨result, after⟩) (hr : r ∈ after) :
      r ∈ before ∨ ∃ p' later' text, p :: later = p' :: later' ∧ readText t p' = .ok text ∧ SentFor s text r := by
    have hsent : r ∈ before ∨ SentFor s text r := sentFor_of_mem_content (by rw [hcontent]; exact hr)
    exact hsent.imp_right fun hsent => ⟨p, later, text, rfl, hread, hsent⟩
  cases h with
  | finished => exact .inl hr
  | unread _ => exact .inl hr
  | unlocalized hread hcontent => exact hnext hread hcontent hr
  | undelivered hread hcontent _ _ => exact hnext hread hcontent hr
  | unencodable hread hcontent _ _ _ => exact hnext hread hcontent hr

end Ends

/-! ## Runs, turn by turn -/

/-- What a run over files comes to: `t` is the tree before it, `ds` are the deliveries of its first
files, `rest` are the other files, `u` and `sent` are the tree and the requests behind the
deliveries, and `emptied` is the file that the run has emptied for a text that cannot be encoded. -/
structure TakesTurns (lone : Char → Bool) (s : Settings) (tr : Translator) (folder name : Option Text) (t : Tree)
    (ps : List Path) (run : Run) (ds : List Delivery) (rest : List Path) (u : Tree) (sent : List Request)
    (emptied : Option Location) : Prop where
  paths : ps = ds.map Delivery.path ++ rest
  /-- The first files alone are delivered in the same way. -/
  first : filesFrom lone s tr folder name t [] (ds.map Delivery.path) =
    ⟨u, sent, .ok (outputPaths s folder name (ds.map Delivery.path))⟩
  ends : ∃ last, Ends lone s tr folder name u sent rest last emptied ∧
    run = last.behind (outputPaths s folder name (ds.map Delivery.path))
  /-- In its turn a file is read from the tree that the files before it left, localized as a whole
  and written. -/
  turn : ∀ earlier d later, ds = earlier ++ d :: later → ∃ v w before after,
    filesFrom lone s tr folder name t [] (earlier.map Delivery.path) =
        ⟨v, before, .ok (outputPaths s folder name (earlier.map Delivery.path))⟩ ∧
      readText v d.path = .ok d.text ∧ content s tr before d.text = ⟨.ok d.localized, after⟩ ∧
      d.localized.any lone = false ∧
      filesFrom lone s tr folder name t [] ((earlier ++ [d]).map Delivery.path) =
        ⟨w, after, .ok (outputPaths s folder name ((earlier ++ [d]).map Delivery.path))⟩ ∧
      w.locate (outputPath d.path s.toLang folder name) = .ok d.output ∧
      w.node? d.output = some (.file (Text.Utf8.encode d.localized))
  /-- A file that the run leaves was there before it, or holds the whole of a localized text, or has
  been emptied. -/
  files : ∀ l bytes, run.tree.node? l = some (.file bytes) →
    t.node? l = some (.file bytes) ∨ (∃ d ∈ ds, d.output = l ∧ bytes = Text.Utf8.encode d.localized) ∨
      emptied = some l ∧ bytes = []
  /-- The files that the run leaves are those behind the deliveries, but for the one that has been
  emptied. -/
  behind : ∀ l, emptied ≠ some l → ∀ bytes,
    run.tree.node? l = some (.file bytes) ↔ u.node? l = some (.file bytes)
  /-- What is sent comes from the files that are delivered and the one after them. -/
  requests : ∀ r ∈ run.requests, (∃ d ∈ ds, SentFor s d.text r) ∨
    ∃ p later text, rest = p :: later ∧ readText u p = .ok text ∧ SentFor s text r

theorem Ends.emptied_node {t : Tree} {before : List Request} {rest : List Path} {run : Run} {l : Location}
    (h : Ends lone s tr folder name t before rest run (some l)) : run.tree.node? l = some (.file []) := by
  cases h with
  | unencodable _ _ _ _ hemptied => exact hemptied.node

theorem Delivers.takesTurns {t u : Tree} {ds : List Delivery} {sent : List Request} {rest : List Path}
    {emptied : Option Location} (h : Delivers lone s tr folder name t [] ds u sent)
    (hends : Ends lone s tr folder name u sent rest (filesFrom lone s tr folder name u sent rest) emptied) :
    TakesTurns lone s tr folder name t (ds.map Delivery.path ++ rest)
      (filesFrom lone s tr folder name t [] (ds.map Delivery.path ++ rest)) ds rest u sent emptied := by
  have hbehind : ∀ l, emptied ≠ some l → ∀ bytes,
      (filesFrom lone s tr folder name t [] (ds.map Delivery.path ++ rest)).tree.node? l = some (.file bytes) ↔
        u.node? l = some (.file bytes) := by
    intro l hl bytes
    rw [h.filesFrom_append rest]
    exact hends.grown.other l (by simpa using hl) bytes
  refine ⟨rfl, h.filesFrom_eq, ⟨_, hends, h.filesFrom_append rest⟩, ?_, ?_, hbehind, ?_⟩
  · intro earlier d later hds
    obtain ⟨v, before, w, after, hbefore, hone, -⟩ := h.turn hds
    have hboth := (hbefore.append hone).filesFrom_eq
    cases hone with
    | cons _ hread hcontent houtput hdeliver hnil =>
      cases hnil
      exact ⟨v, w, before, after, hbefore.filesFrom_eq, hread, hcontent, (deliver_eq_ok hdeliver).1, hboth, houtput,
        (written_deliver hdeliver houtput).node⟩
  · intro l bytes hfile
    by_cases hl : emptied = some l
    · subst hl
      rw [h.filesFrom_append rest] at hfile
      have hnone := hends.emptied_node
      change (filesFrom lone s tr folder name u sent rest).tree.node? l = _ at hfile
      rw [hfile] at hnone
      cases hnone
      exact .inr (.inr ⟨rfl, rfl⟩)
    · exact (h.file_cases ((hbehind l hl bytes).1 hfile)).imp_right .inl
  · intro r hr
    rw [h.filesFrom_append rest] at hr
    rcases hends.sentFor hr with hsent | hlast
    · rcases h.sentFor hsent with hno | hsent
      · cases hno
      · exact .inl hsent
    · exact .inr hlast

/-- Whether a run is refused before it starts: there are no files, or what is named for a folder is
none. -/
def Refused (folder : Option Text) (t : Tree) (ps : List Path) : Prop :=
  ps = [] ∨ ∃ f, folder = some f ∧ t.isFolder (Path.ofText f) ≠ .ok true

/-- A run that is not refused goes through its files. -/
theorem files_cases (lone : Char → Bool) (s : Settings) (tr : Translator) (folder name : Option Text) (t : Tree)
    (ps : List Path) :
    (Refused folder t ps ∧ ∃ halt, files lone s tr folder name t ps = ⟨t, [], .error halt⟩) ∨
      files lone s tr folder name t ps = filesFrom lone s tr folder name t [] ps := by
  unfold files
  dsimp only
  split
  · rename_i hps
    exact .inl ⟨.inl (List.isEmpty_iff.1 hps), _, rfl⟩
  split
  · exact .inr rfl
  · rename_i f
    split
    · rename_i e he
      exact .inl ⟨.inr ⟨f, rfl, by rw [he]; nofun⟩, _, rfl⟩
    · exact .inr rfl
    · rename_i hfolder
      exact .inl ⟨.inr ⟨f, rfl, by rw [hfolder]; nofun⟩, _, rfl⟩

/-- A run over files is refused before it starts, or its files take turns, up to the end of the run. -/
theorem files_turns (lone : Char → Bool) (s : Settings) (tr : Translator) (folder name : Option Text) (t : Tree)
    (ps : List Path) :
    (Refused folder t ps ∧ ∃ halt, files lone s tr folder name t ps = ⟨t, [], .error halt⟩) ∨
      ∃ ds rest u sent emptied,
        TakesTurns lone s tr folder name t ps (files lone s tr folder name t ps) ds rest u sent emptied := by
  refine (files_cases lone s tr folder name t ps).imp_right fun heq => ?_
  obtain ⟨ds, rest, u, sent, emptied, rfl, hds, hends⟩ := filesFrom_ends lone s tr folder name t [] ps
  rw [heq]
  exact ⟨ds, rest, u, sent, emptied, hds.takesTurns hends⟩

/-- The file that is written to holds nothing afterwards if the text for it cannot be encoded,
though it held a text before. -/
theorem files_emptied :
    let half := Char.ofNat 0x100000
    let p := Path.ofText "a.lg".toList
    let l : Location := ⟨["de".toList, "a.lg".toList]⟩
    let t : Tree :=
      { folders := [⟨["de".toList]⟩]
        files := [(⟨["a.lg".toList]⟩, Text.Utf8.encode "- hi".toList), (l, Text.Utf8.encode "- old".toList)] }
    let s : Settings := { toLang := "de".toList }
    let tr : Translator := fun _ _ => .ok [half]
    let run := files (· == half) s tr none none t [p]
    t.WellFormed ∧ readText t p = .ok "- hi".toList ∧
      (content s tr [] "- hi".toList).result = .ok ("\t- ".toList ++ half :: "\r\n".toList) ∧
      t.node? l = some (.file (Text.Utf8.encode "- old".toList)) ∧
      run.result = .error .unencodable ∧ run.tree.node? l = some (.file []) :=
  ⟨by decide, rfl, rfl, rfl, rfl, rfl⟩

/-- The first file is written and stays, and nothing is written for the second one, whose item fails. -/
example :
    let t : Tree := { files := [(⟨["a.lg".toList]⟩, Text.Utf8.encode "- hi".toList),
      (⟨["b.lg".toList]⟩, Text.Utf8.encode "# B\n- bye".toList)] }
    let tr : Translator := fun before r =>
      if before.isEmpty then .ok r.text else .error { fault := .serviceFailed [] none }
    let ps := [Path.ofText "a.lg".toList, Path.ofText "b.lg".toList]
    (files (fun _ => false) { toLang := "de".toList } tr none none t ps).tree.files =
      t.files ++ [(⟨["de".toList, "a.lg".toList]⟩, Text.Utf8.encode "\t- hi\r\n".toList)] := rfl

end LangGen.Localization
