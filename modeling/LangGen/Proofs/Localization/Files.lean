/-
What a run over files does to them. Files are read when their turn comes, so that a run reads what
it has written, and nothing keeps it from writing to one file twice; but a file that no path of the
run leads to stays as it is, and what has been written stays until it is written again
(`files_delivered`). Where the language is a folder below that of an input, files that are written
are told apart by their folders and their names.
-/
import LangGen.Localization.Files
import LangGen.Proofs.Files.Growth
import LangGen.Proofs.Files.Name
import Mathlib.Data.List.Nodup

namespace LangGen.Localization

open LangGen.Files

/-! ## Names -/

/-- The name of the file that a localized file is written to. -/
def outputName (file : Path) (name : Option Text) : Text :=
  match Settings.given? name with
  | some name => dropExtension name ++ '_' :: file.stem ++ extension
  | none => file.fileName

theorem outputPath_eq (file : Path) (toLang : Text) (folder name : Option Text) :
    outputPath file toLang folder name = (Settings.given? folder).elim file.parent Path.ofText ++
      Path.ofText toLang ++ Path.ofText (outputName file name) := rfl

theorem dropExtension_subset (name : Text) : dropExtension name ⊆ name := by
  unfold dropExtension
  split
  · exact List.take_subset _ _
  · exact List.Subset.refl _

/-- A file is written to a name that does not go up. -/
theorem isName_outputName {p : Path} {name : Option Text} (hp : Path.IsName p.fileName)
    (hup : p.fileName ≠ ['.', '.']) (hname : ∀ n, name = some n → '/' ∉ n) :
    Path.IsName (outputName p name) ∧ outputName p name ≠ ['.', '.'] := by
  unfold outputName
  split
  · rename_i n hgiven
    have hn : '/' ∉ n := hname n (Option.filter_eq_some_iff.1 hgiven).1
    have hlong : 4 ≤ (dropExtension n ++ '_' :: p.stem ++ extension).length := by
      simp [extension]
      omega
    refine ⟨⟨by simp, fun h => ?_, ?_⟩, fun h => ?_⟩
    · rw [h] at hlong
      simp at hlong
    · simp only [List.mem_append, List.mem_cons, not_or]
      exact ⟨⟨fun h => hn (dropExtension_subset n h), by decide, fun h => hp.slash (Path.stem_subset p h)⟩,
        by decide⟩
    · rw [h] at hlong
      simp at hlong
  · exact ⟨hp, hup⟩

/-! ## Deliveries -/

variable {lone : Char → Bool} {s : Settings} {tr : Translator} {folder name : Option Text}

/-- What delivering a text comes to: folders at most, or the file, which holds nothing if the text
cannot be encoded. -/
theorem deliver_cases (lone : Char → Bool) (t : Tree) (q : Path) (text : Text) :
    (∃ u e, deliver lone t q text = (u, some (.file e)) ∧ Tree.Grown [] t u) ∨
      ∃ u l, (text.any lone = true ∧ deliver lone t q text = (u, some .unencodable) ∧ Tree.Written q l [] t u) ∨
        (text.any lone = false ∧ deliver lone t q text = (u, none) ∧
          Tree.Written q l (Text.Utf8.encode text) t u) := by
  have hmade := Tree.grown_makeFolders t q.parent
  have hwell := fun ht : t.WellFormed => ht.makeFolders q.parent
  unfold deliver
  generalize t.makeFolders q.parent = made at hmade hwell
  obtain ⟨v, _ | e⟩ := made
  · dsimp only
    cases hcreate : v.create q with
    | error e => exact .inl ⟨v, e, rfl, hmade⟩
    | ok created =>
      obtain ⟨l, u⟩ := created
      have hopen := (Tree.written_create hcreate).behind hmade hwell
      unfold encode?
      cases hlone : text.any lone with
      | true => exact .inr ⟨u, l, .inl ⟨rfl, rfl, hopen⟩⟩
      | false => exact .inr ⟨_, l, .inr ⟨rfl, rfl, hopen.put _⟩⟩
  · exact .inl ⟨v, e, rfl, hmade⟩

theorem deliver_eq_ok {t u : Tree} {q : Path} {text : Text} (h : deliver lone t q text = (u, none)) :
    text.any lone = false ∧ ∃ l, Tree.Written q l (Text.Utf8.encode text) t u := by
  rcases deliver_cases lone t q text with ⟨_, _, heq, -⟩ | ⟨_, l, ⟨-, heq, -⟩ | ⟨hlone, heq, hwritten⟩⟩
  · rw [h] at heq; cases heq
  · rw [h] at heq; cases heq
  · rw [h] at heq
    cases heq
    exact ⟨hlone, l, hwritten⟩

theorem written_deliver {t u : Tree} {q : Path} {text : Text} {l : Location} (h : deliver lone t q text = (u, none))
    (hl : u.locate q = .ok l) : Tree.Written q l (Text.Utf8.encode text) t u := by
  obtain ⟨-, l', hwritten⟩ := deliver_eq_ok h
  obtain rfl : l' = l := Except.ok.inj (hwritten.locate.symm.trans hl)
  exact hwritten

/-- A file that has been localized: its path, where it was read and where it was written, and the
texts. -/
structure Delivery where
  path : Path
  input : Location
  output : Location
  text : Text
  localized : Text

/-- A run over files, delivery by delivery. -/
inductive Delivers (lone : Char → Bool) (s : Settings) (tr : Translator) (folder name : Option Text) :
    Tree → List Request → List Delivery → Tree → List Request → Prop
  | nil {t : Tree} {before : List Request} : Delivers lone s tr folder name t before [] t before
  | cons {t u v : Tree} {before between after : List Request} {d : Delivery} {ds : List Delivery}
      (hinput : t.locate d.path = .ok d.input) (hread : readText t d.path = .ok d.text)
      (hcontent : content s tr before d.text = ⟨.ok d.localized, between⟩)
      (houtput : u.locate (outputPath d.path s.toLang folder name) = .ok d.output)
      (hdeliver : deliver lone t (outputPath d.path s.toLang folder name) d.localized = (u, none))
      (hrest : Delivers lone s tr folder name u between ds v after) :
      Delivers lone s tr folder name t before (d :: ds) v after

theorem readText_eq_ok {t : Tree} {p : Path} {text : Text} (h : readText t p = .ok text) :
    ∃ l bytes, t.locate p = .ok l ∧ t.node? l = some (.file bytes) ∧ textOf p bytes = .ok text := by
  unfold readText at h
  split at h
  · cases h
  · rename_i bytes hread
    obtain ⟨l, hl, hnode⟩ := Tree.read_eq_ok.1 hread
    split at h
    · rename_i htext
      cases h
      exact ⟨l, bytes, hl, hnode, htext⟩
    · cases h

theorem node?_of_readText {t : Tree} {p : Path} {text : Text} {l : Location} (h : readText t p = .ok text)
    (hl : t.locate p = .ok l) : ∃ bytes, t.node? l = some (.file bytes) ∧ textOf p bytes = .ok text := by
  obtain ⟨l', bytes, hl', hnode, htext⟩ := readText_eq_ok h
  obtain rfl : l' = l := Except.ok.inj (hl'.symm.trans hl)
  exact ⟨bytes, hnode, htext⟩

/-! ## Runs as deliveries -/

/-- The run with the paths written before it. -/
def Run.behind (written : List Path) (run : Run) : Run := { run with result := run.result.map (written ++ ·) }

/-- Where files are written to. -/
def outputPaths (s : Settings) (folder name : Option Text) (ps : List Path) : List Path :=
  ps.map (outputPath · s.toLang folder name)

namespace Delivers

variable {t u : Tree} {before after : List Request} {ds : List Delivery}

/-- A run goes on behind its deliveries as a run over the other files. -/
theorem filesFrom_append (h : Delivers lone s tr folder name t before ds u after) (rest : List Path) :
    filesFrom lone s tr folder name t before (ds.map Delivery.path ++ rest) =
      (filesFrom lone s tr folder name u after rest).behind (outputPaths s folder name (ds.map Delivery.path)) := by
  induction h with
  | @nil t before =>
    unfold Run.behind
    cases hrun : filesFrom lone s tr folder name t before rest with
    | mk tree requests result => cases result <;> simp [hrun, outputPaths, Except.map]
  | @cons t u v before between after d ds _ hread hcontent _ hdeliver _ ih =>
    rw [List.map_cons, List.cons_append, filesFrom, hread]
    dsimp only
    rw [hcontent]
    dsimp only
    rw [hdeliver]
    dsimp only
    rw [ih]
    unfold Run.behind
    cases (filesFrom lone s tr folder name v after rest).result <;> rfl

/-- A run over the files of its deliveries is these deliveries and no more. -/
theorem filesFrom_eq (h : Delivers lone s tr folder name t before ds u after) :
    filesFrom lone s tr folder name t before (ds.map Delivery.path) =
      ⟨u, after, .ok (outputPaths s folder name (ds.map Delivery.path))⟩ := by
  have happend := h.filesFrom_append []
  rw [List.append_nil] at happend
  rw [happend]
  simp [filesFrom, Run.behind, Except.map]

/-- A delivery is made after those before it, in the tree that they left. -/
theorem turn (h : Delivers lone s tr folder name t before ds u after) :
    ∀ {earlier later : List Delivery} {d : Delivery}, ds = earlier ++ d :: later → ∃ v sent w sent',
      Delivers lone s tr folder name t before earlier v sent ∧
        Delivers lone s tr folder name v sent [d] w sent' ∧ Delivers lone s tr folder name w sent' later u after := by
  induction h with
  | nil => intro earlier later d hds; simp at hds
  | @cons t u v before between after d ds hinput hread hcontent houtput hdeliver hrest ih =>
    intro earlier later e hds
    cases earlier with
    | nil =>
      cases hds
      exact ⟨t, before, u, between, .nil, .cons hinput hread hcontent houtput hdeliver .nil, hrest⟩
    | cons first earlier =>
      cases hds
      obtain ⟨v', sent, w, sent', hbefore, hone, hlater⟩ := ih rfl
      exact ⟨v', sent, w, sent', .cons hinput hread hcontent houtput hdeliver hbefore, hone, hlater⟩

end Delivers

/-- How a run ends behind the files that it has delivered, and which file it has emptied then: `t`
is the tree and `before` are the requests by then. Where a file cannot be read or localized, the
tree stays as it is. -/
inductive Ends (lone : Char → Bool) (s : Settings) (tr : Translator) (folder name : Option Text) (t : Tree)
    (before : List Request) : List Path → Run → Option Location → Prop
  | finished : Ends lone s tr folder name t before [] ⟨t, before, .ok []⟩ none
  | unread {p : Path} {later : List Path} {halt : Halt} (h : readText t p = .error halt) :
      Ends lone s tr folder name t before (p :: later) ⟨t, before, .error halt⟩ none
  | unlocalized {p : Path} {later : List Path} {text : Text} {f : Failure} {after : List Request}
      (hread : readText t p = .ok text) (h : content s tr before text = ⟨.error f, after⟩) :
      Ends lone s tr folder name t before (p :: later) ⟨t, after, .error (.failure f)⟩ none
  | undelivered {p : Path} {later : List Path} {text localized : Text} {after : List Request} {u : Tree}
      {e : FileError} (hread : readText t p = .ok text) (hcontent : content s tr before text = ⟨.ok localized, after⟩)
      (h : deliver lone t (outputPath p s.toLang folder name) localized = (u, some (.file e)))
      (hgrown : Tree.Grown [] t u) :
      Ends lone s tr folder name t before (p :: later) ⟨u, after, .error (.file e)⟩ none
  | unencodable {p : Path} {later : List Path} {text localized : Text} {after : List Request} {u : Tree}
      {l : Location} (hread : readText t p = .ok text) (hcontent : content s tr before text = ⟨.ok localized, after⟩)
      (h : deliver lone t (outputPath p s.toLang folder name) localized = (u, some .unencodable))
      (hlone : localized.any lone = true)
      (hemptied : Tree.Written (outputPath p s.toLang folder name) l [] t u) :
      Ends lone s tr folder name t before (p :: later) ⟨u, after, .error .unencodable⟩ (some l)

/-- A run is made up of deliveries and its end. -/
theorem filesFrom_ends (lone : Char → Bool) (s : Settings) (tr : Translator) (folder name : Option Text) :
    ∀ (t : Tree) (before : List Request) (ps : List Path), ∃ ds rest u sent emptied,
      ps = ds.map Delivery.path ++ rest ∧ Delivers lone s tr folder name t before ds u sent ∧
        Ends lone s tr folder name u sent rest (filesFrom lone s tr folder name u sent rest) emptied
  | t, before, [] => ⟨[], [], t, before, none, rfl, .nil, .finished⟩
  | t, before, p :: ps => by
    -- where the run ends at the first of the files, none is delivered
    have hend {emptied : Option Location} (h : Ends lone s tr folder name t before (p :: ps)
        (filesFrom lone s tr folder name t before (p :: ps)) emptied) :
        ∃ ds rest u sent emptied, p :: ps = ds.map Delivery.path ++ rest ∧
          Delivers lone s tr folder name t before ds u sent ∧
            Ends lone s tr folder name u sent rest (filesFrom lone s tr folder name u sent rest) emptied :=
      ⟨[], p :: ps, t, before, emptied, rfl, .nil, h⟩
    rw [filesFrom] at hend
    cases hread : readText t p with
    | error halt =>
      rw [hread] at hend
      exact hend (.unread hread)
    | ok text =>
      rw [hread] at hend
      cases hcontent : content s tr before text with
      | mk result after =>
        dsimp only at hend
        rw [hcontent] at hend
        cases result with
        | error f => exact hend (.unlocalized hread hcontent)
        | ok localized =>
          dsimp only at hend
          rcases deliver_cases lone t (outputPath p s.toLang folder name) localized with
            ⟨u, e, hdeliver, hgrown⟩ | ⟨u, l', ⟨hlone, hdeliver, hemptied⟩ | ⟨-, hdeliver, hwritten⟩⟩
          · rw [hdeliver] at hend
            exact hend (.undelivered hread hcontent hdeliver hgrown)
          · rw [hdeliver] at hend
            exact hend (.unencodable hread hcontent hdeliver hlone hemptied)
          · obtain ⟨ds, rest, v, sent, emptied, rfl, hds, hends⟩ := filesFrom_ends lone s tr folder name u after ps
            obtain ⟨l, -, hl, -⟩ := readText_eq_ok hread
            exact ⟨⟨p, l, l', text, localized⟩ :: ds, rest, v, sent, emptied, rfl,
              .cons hl hread hcontent hwritten.locate hdeliver hds, hends⟩

/-- A run that succeeds is made up of deliveries. -/
theorem delivers_filesFrom {ps qs : List Path} {t : Tree} {before : List Request}
    (h : (filesFrom lone s tr folder name t before ps).result = .ok qs) :
    qs = ps.map (outputPath · s.toLang folder name) ∧ ∃ ds, ds.map Delivery.path = ps ∧
      Delivers lone s tr folder name t before ds (filesFrom lone s tr folder name t before ps).tree
        (filesFrom lone s tr folder name t before ps).requests := by
  obtain ⟨ds, rest, u, sent, emptied, rfl, hds, hends⟩ := filesFrom_ends lone s tr folder name t before ps
  rw [hds.filesFrom_append rest] at h ⊢
  generalize filesFrom lone s tr folder name u sent rest = last at h hends ⊢
  cases hends with
  | finished =>
    cases h
    exact ⟨by simp [outputPaths], ds, by simp, hds⟩
  | unread _ => cases h
  | unlocalized _ _ => cases h
  | undelivered _ _ _ _ => cases h
  | unencodable _ _ _ _ _ => cases h

/-! ## What a run leaves -/

/-- Localizes texts one after the other, in memory. -/
def contents (s : Settings) (tr : Translator) : List Request → List Text → Traced Failure (List Text)
  | before, [] => .pure before []
  | before, text :: rest =>
    match content s tr before text with
    | ⟨.ok localized, requests⟩ => (contents s tr requests rest).map (localized :: ·)
    | ⟨.error f, requests⟩ => ⟨.error f, requests⟩

namespace Delivers

variable {t u : Tree} {before after : List Request} {ds : List Delivery}

theorem grown (h : Delivers lone s tr folder name t before ds u after) :
    Tree.Grown (ds.map Delivery.output) t u := by
  induction h with
  | nil => exact .refl _
  | cons _ _ _ houtput hdeliver _ ih => exact (written_deliver hdeliver houtput).grown.trans ih

theorem wellFormed (h : Delivers lone s tr folder name t before ds u after) (ht : t.WellFormed) : u.WellFormed := by
  induction h with
  | nil => exact ht
  | cons _ _ _ houtput hdeliver _ ih =>
    exact ih ((written_deliver hdeliver houtput).wellFormed ht)

theorem contents_eq (h : Delivers lone s tr folder name t before ds u after) :
    contents s tr before (ds.map Delivery.text) = ⟨.ok (ds.map Delivery.localized), after⟩ := by
  induction h with
  | nil => rfl
  | cons _ _ hcontent _ _ _ ih =>
    rw [List.map_cons, contents, hcontent]
    dsimp only
    rw [ih]
    rfl

/-- The paths of a delivery lead to its locations when the run has ended, and files are there. -/
theorem locate (h : Delivers lone s tr folder name t before ds u after) : ∀ d ∈ ds,
    u.locate d.path = .ok d.input ∧ u.locate (outputPath d.path s.toLang folder name) = .ok d.output ∧
      (∃ bytes, u.node? d.input = some (.file bytes)) ∧ ∃ bytes, u.node? d.output = some (.file bytes) := by
  intro d hd
  obtain ⟨earlier, later, rfl⟩ := List.append_of_mem hd
  obtain ⟨v, sent, w, sent', -, hone, hrest⟩ := h.turn rfl
  cases hone with
  | cons hinput hread _ houtput hdeliver hnil =>
    cases hnil
    obtain ⟨bytes, hfile, -⟩ := node?_of_readText hread hinput
    have hwritten := written_deliver hdeliver houtput
    obtain ⟨bytes', hfile'⟩ := hwritten.grown.file _ _ hfile
    have hlater := hrest.grown
    exact ⟨hlater.locate (hwritten.grown.locate hinput), hlater.locate houtput, hlater.file _ _ hfile',
      hlater.file _ _ hwritten.node⟩

/-- What is read is what was there before the run, unless an earlier delivery went there. -/
theorem reads {earlier later : List Delivery} {d : Delivery}
    (h : Delivers lone s tr folder name t before (earlier ++ d :: later) u after)
    (hnot : d.input ∉ earlier.map Delivery.output) :
    ∃ bytes, t.node? d.input = some (.file bytes) ∧ textOf d.path bytes = .ok d.text := by
  obtain ⟨v, sent, w, sent', hbefore, hone, -⟩ := h.turn rfl
  cases hone with
  | cons hinput hread _ _ _ _ =>
    obtain ⟨bytes, hnode, hbytes⟩ := node?_of_readText hread hinput
    exact ⟨bytes, (hbefore.grown.other _ hnot bytes).1 hnode, hbytes⟩

/-- What is written stays, unless a later delivery goes there. -/
theorem holds {earlier later : List Delivery} {d : Delivery}
    (h : Delivers lone s tr folder name t before (earlier ++ d :: later) u after)
    (hnot : d.output ∉ later.map Delivery.output) :
    u.node? d.output = some (.file (Text.Utf8.encode d.localized)) := by
  obtain ⟨v, sent, w, sent', -, hone, hlater⟩ := h.turn rfl
  cases hone with
  | cons _ _ _ houtput hdeliver hnil =>
    cases hnil
    exact (hlater.grown.other _ hnot _).2 (written_deliver hdeliver houtput).node

end Delivers

/-- What a run over files that succeeds leaves: `t` is the tree before it, and `ps` are the paths of
the files. -/
structure Delivered (s : Settings) (tr : Translator) (folder name : Option Text) (t : Tree) (ps : List Path)
    (run : Run) (ds : List Delivery) : Prop where
  paths : ds.map Delivery.path = ps
  result : run.result = .ok (ps.map (outputPath · s.toLang folder name))
  /-- Paths lead where they led before. -/
  leads : ∀ p l, t.locate p = .ok l → run.tree.locate p = .ok l
  input : ∀ d ∈ ds, run.tree.locate d.path = .ok d.input
  output : ∀ d ∈ ds, run.tree.locate (outputPath d.path s.toLang folder name) = .ok d.output ∧
    ∃ bytes, run.tree.node? d.output = some (.file bytes)
  /-- No file goes away, and only files that are written change or are new. -/
  files : ∀ l bytes, t.node? l = some (.file bytes) → ∃ bytes', run.tree.node? l = some (.file bytes')
  other : ∀ l ∉ ds.map Delivery.output, ∀ bytes,
    run.tree.node? l = some (.file bytes) ↔ t.node? l = some (.file bytes)
  /-- The texts that are written are those that are read, localized one after the other. -/
  contents : contents s tr [] (ds.map Delivery.text) = ⟨.ok (ds.map Delivery.localized), run.requests⟩
  reads : ∀ earlier d later, ds = earlier ++ d :: later → d.input ∉ earlier.map Delivery.output →
    ∃ bytes, t.node? d.input = some (.file bytes) ∧ textOf d.path bytes = .ok d.text
  holds : ∀ earlier d later, ds = earlier ++ d :: later → d.output ∉ later.map Delivery.output →
    run.tree.node? d.output = some (.file (Text.Utf8.encode d.localized))
  /-- Where files are written to different places, none of which is that of an input, each holds the
  localization of what its input was before the run. -/
  undisturbed : (ds.map Delivery.output).Nodup → (∀ d ∈ ds, d.input ∉ ds.map Delivery.output) → ∀ d ∈ ds,
    (∃ bytes, t.node? d.input = some (.file bytes) ∧ textOf d.path bytes = .ok d.text) ∧
      run.tree.node? d.output = some (.file (Text.Utf8.encode d.localized))

theorem Delivers.delivered {t : Tree} {run : Run} {ds : List Delivery}
    (h : Delivers lone s tr folder name t [] ds run.tree run.requests)
    (hresult : run.result = .ok ((ds.map Delivery.path).map (outputPath · s.toLang folder name))) :
    Delivered s tr folder name t (ds.map Delivery.path) run ds where
  paths := rfl
  result := hresult
  leads _ _ hl := h.grown.locate hl
  input d hd := (h.locate d hd).1
  output d hd := ⟨(h.locate d hd).2.1, (h.locate d hd).2.2.2⟩
  files := h.grown.file
  other := h.grown.other
  contents := h.contents_eq
  reads _ _ _ hds hnot := (hds ▸ h).reads hnot
  holds _ _ _ hds hnot := (hds ▸ h).holds hnot
  undisturbed hnodup hdisjoint d hd := by
    obtain ⟨earlier, later, rfl⟩ := List.append_of_mem hd
    refine ⟨h.reads fun hmem => hdisjoint d hd ?_, h.holds ?_⟩
    · rw [List.map_append]
      exact List.mem_append_left _ hmem
    · rw [List.map_append, List.map_cons, List.nodup_append, List.nodup_cons] at hnodup
      exact hnodup.2.1.1

/-! ## Where files go -/

/-- Where a file goes when the language is a folder below that of the input or below the one that
the caller names: `t` is the tree before the run. -/
structure Delivery.InPlace (s : Settings) (folder name : Option Text) (t : Tree) (d : Delivery) : Prop where
  named : d.input = d.input.parent.below [d.path.fileName]
  place : ∃ base, (Settings.given? folder = none → base = d.input.parent) ∧
    (∀ f, Settings.given? folder = some f → t.locate (Path.ofText f) = .ok base) ∧
    d.output = base.below ((Path.ofText s.toLang).names ++ [outputName d.path name])

namespace Delivery.InPlace

variable {t : Tree} {d e : Delivery}

/-- Two deliveries go to one place if their folders and their names are the same. -/
theorem output_eq_iff (hd : d.InPlace s folder name t) (he : e.InPlace s folder name t) :
    d.output = e.output ↔ (Settings.given? folder = none → d.input.parent = e.input.parent) ∧
      outputName d.path name = outputName e.path name := by
  obtain ⟨base, hnone, hsome, hout⟩ := hd.place
  obtain ⟨base', hnone', hsome', hout'⟩ := he.place
  rw [hout, hout', Location.below_concat_inj]
  refine and_congr_left' ?_
  cases hf : Settings.given? folder with
  | none => simp [hnone hf, hnone' hf]
  | some f =>
    have hbase : base = base' := Except.ok.inj ((hsome f hf).symm.trans (hsome' f hf))
    simp [hbase]

/-- Next to their inputs and under their own names, different files go to different places. -/
theorem input_eq_of_output_eq (hd : d.InPlace s folder name t) (he : e.InPlace s folder name t)
    (hfolder : Settings.given? folder = none) (hname : Settings.given? name = none) (h : d.output = e.output) :
    d.input = e.input := by
  have hown : ∀ file : Path, outputName file name = file.fileName := fun file => by
    unfold outputName
    rw [hname]
  obtain ⟨hparent, hfile⟩ := (hd.output_eq_iff he).1 h
  rw [hown, hown] at hfile
  rw [hd.named, he.named, hparent hfolder, hfile]

/-- An input that is written to is in a folder that the language names. -/
theorem suffix_of_output_eq (hd : d.InPlace s folder name t) (h : d.output = e.input) :
    (Path.ofText s.toLang).names <:+ e.input.parent.names := by
  obtain ⟨base, -, -, hout⟩ := hd.place
  rw [← h, hout, Location.parent_concat]
  exact List.suffix_append _ _

end Delivery.InPlace

/-- Where the files of a run go, and when they come upon each other or upon an input. -/
structure Placed (s : Settings) (folder name : Option Text) (t : Tree) (ds : List Delivery) : Prop where
  each : ∀ d ∈ ds, d.InPlace s folder name t
  same : ∀ d ∈ ds, ∀ e ∈ ds, d.output = e.output ↔
    (Settings.given? folder = none → d.input.parent = e.input.parent) ∧
      outputName d.path name = outputName e.path name
  apart : Settings.given? folder = none → Settings.given? name = none → (ds.map Delivery.input).Nodup →
    (ds.map Delivery.output).Nodup
  inside : ∀ d ∈ ds, ∀ e ∈ ds, d.output = e.input → (Path.ofText s.toLang).names <:+ e.input.parent.names

theorem Placed.of_each {t : Tree} {ds : List Delivery} (h : ∀ d ∈ ds, d.InPlace s folder name t) :
    Placed s folder name t ds where
  each := h
  same d hd e he := (h d hd).output_eq_iff (h e he)
  apart hfolder hname hnodup := by
    unfold List.Nodup at hnodup ⊢
    rw [List.pairwise_map] at hnodup ⊢
    exact hnodup.imp_of_mem fun {d e} hd he hne hout =>
      hne ((h d hd).input_eq_of_output_eq (h e he) hfolder hname hout)
  inside d hd _ _ hout := (h d hd).suffix_of_output_eq hout

section Places

variable {t u : Tree} {before after : List Request} {ds : List Delivery} {d : Delivery}

/-- The name of an input, and the way to its folder in the tree after the run. -/
theorem Delivers.named (h : Delivers lone s tr folder name t before ds u after) (ht : t.WellFormed) {inputs : List Text}
    (hpaths : ds.map Delivery.path = inputs.map Path.ofText) (hd : d ∈ ds) :
    ∃ init n, d.path.names = init ++ [n] ∧ Path.IsName n ∧ n ≠ ['.', '.'] ∧
      u.walk (Tree.start u.working d.path) init = .ok d.input.parent ∧
      d.input = d.input.parent.below [n] := by
  obtain ⟨hl, -, ⟨bytes, hfile⟩, -⟩ := h.locate d hd
  obtain ⟨init, n, hnames, hup, hwalk, hbelow⟩ := Tree.names_of_file (h.wellFormed ht) hl hfile
  obtain ⟨text, -, htext⟩ := List.mem_map.1 (hpaths ▸ List.mem_map_of_mem hd)
  have hn : n ∈ (Path.ofText text).names := by
    rw [htext, hnames]
    simp
  exact ⟨init, n, hnames, Path.isName_of_mem hn, hup, hwalk, hbelow⟩

theorem Delivers.inPlace (h : Delivers lone s tr folder name t before ds u after) (ht : t.WellFormed)
    {inputs : List Text} (hpaths : ds.map Delivery.path = inputs.map Path.ofText)
    (hlang : (Path.ofText s.toLang).Descends) (hname : ∀ n, name = some n → '/' ∉ n)
    (hfolder : ∀ f, folder = some f → ∃ l, t.locate (Path.ofText f) = .ok l) (hd : d ∈ ds) :
    d.InPlace s folder name t := by
  obtain ⟨init, n, hnames, hn, hup, hwalk, hnamed⟩ := h.named ht hpaths hd
  have hfile : d.path.fileName = n := Path.fileName_concat hnames
  obtain ⟨hout, houtup⟩ : Path.IsName (outputName d.path name) ∧ outputName d.path name ≠ ['.', '.'] :=
    isName_outputName (by rw [hfile]; exact hn) (by rw [hfile]; exact hup) hname
  have hdown : ['.', '.'] ∉ (Path.ofText s.toLang).names ++ [outputName d.path name] := by
    rw [List.mem_append, List.mem_singleton, not_or]
    exact ⟨hlang.down, Ne.symm houtup⟩
  have hl := (h.locate d hd).2.1
  rw [outputPath_eq, Path.append_of_relative (r := Path.ofText s.toLang) (by rw [hlang.root]; rfl),
    Path.ofText_name hout, Path.append_of_relative rfl] at hl
  dsimp only at hl
  rw [List.append_assoc] at hl
  -- the walk to the output goes through the folder that it starts from
  obtain ⟨base, hbase, hbelow⟩ := Tree.locate_below hdown hl
  refine ⟨by rw [hfile]; exact hnamed, base, fun hnone => ?_, fun f hsome => ?_, hbelow⟩
  · rw [hnone] at hbase
    change u.walk (Tree.start u.working d.path) d.path.names.dropLast = _ at hbase
    rw [hnames, List.dropLast_concat, hwalk] at hbase
    exact (Except.ok.inj hbase).symm
  · rw [hsome] at hbase
    obtain ⟨l, hl⟩ := hfolder f (Option.filter_eq_some_iff.1 hsome).1
    obtain ⟨-, -, hwalk⟩ := Tree.locate_eq_ok.1 (h.grown.locate hl)
    rw [hl, ← hwalk]
    exact hbase

end Places

/-! ## Runs over files -/

theorem files_eq_ok {t : Tree} {ps qs : List Path} (h : (files lone s tr folder name t ps).result = .ok qs) :
    files lone s tr folder name t ps = filesFrom lone s tr folder name t [] ps ∧
      ∀ f, folder = some f → ∃ l, t.locate (Path.ofText f) = .ok l := by
  unfold files at h ⊢
  dsimp only at h ⊢
  split at h
  · cases h
  · rename_i hps
    rw [if_neg hps]
    split at h
    · exact ⟨rfl, fun f hf => by cases hf⟩
    · rename_i f
      split at h
      · cases h
      · rename_i hfolder
        refine ⟨rfl, fun f' hf' => ?_⟩
        cases hf'
        unfold Tree.isFolder Tree.look at hfolder
        cases hl : t.locate (Path.ofText f) with
        | ok l => exact ⟨l, rfl⟩
        | error e => rw [hl] at hfolder; cases e <;> cases hfolder
      · cases h

/-- A run over files that succeeds has read and written as `Delivered` tells; and where the language
leads down and the name that is given holds no slash, each file is placed by its folder and its name. -/
theorem files_delivered {t : Tree} (ht : t.WellFormed) {inputs : List Text} {qs : List Path}
    (hok : (files lone s tr folder name t (inputs.map Path.ofText)).result = .ok qs) :
    ∃ ds, Delivered s tr folder name t (inputs.map Path.ofText)
        (files lone s tr folder name t (inputs.map Path.ofText)) ds ∧
      ((Path.ofText s.toLang).Descends → (∀ n, name = some n → '/' ∉ n) → Placed s folder name t ds) := by
  obtain ⟨heq, hfolder⟩ := files_eq_ok hok
  rw [heq] at hok ⊢
  obtain ⟨rfl, ds, hpaths, hds⟩ := delivers_filesFrom hok
  have hdelivered := hds.delivered (by rw [hpaths]; exact hok)
  rw [hpaths] at hdelivered
  exact ⟨ds, hdelivered, fun hlang hname => .of_each fun d hd => hds.inPlace ht hpaths hlang hname hfolder hd⟩

/-- Two folders with a file of one name each, and an empty one. -/
def drawers : Tree where
  folders := [⟨["a".toList]⟩, ⟨["b".toList]⟩, ⟨["out".toList]⟩]
  files := [(⟨["a".toList, "x.lg".toList]⟩, Text.Utf8.encode "> first".toList),
    (⟨["b".toList, "x.lg".toList]⟩, Text.Utf8.encode "> second".toList)]

theorem files_delivered_drawers :
    let inputs := ["a/x.lg".toList, "b/x.lg".toList]
    let run := files (fun _ => false) { toLang := "de".toList } (fun _ r => .ok r.text) none none drawers
      (inputs.map Path.ofText)
    drawers.WellFormed ∧ run.result = .ok [Path.ofText "a/de/x.lg".toList, Path.ofText "b/de/x.lg".toList] ∧
      ∃ ds, Delivered { toLang := "de".toList } (fun _ r => .ok r.text) none none drawers (inputs.map Path.ofText)
        run ds ∧ Placed { toLang := "de".toList } none none drawers ds := by
  intro inputs run
  have hwell : drawers.WellFormed := by decide
  have hok : run.result = .ok [Path.ofText "a/de/x.lg".toList, Path.ofText "b/de/x.lg".toList] := rfl
  obtain ⟨ds, hds, hplaced⟩ := files_delivered hwell hok
  exact ⟨hwell, hok, ds, hds, hplaced (by decide) fun n hn => by cases hn⟩

/-- Two files of one name go to one place below the folder that is named, and the second one
replaces the first. -/
theorem files_not_apart :
    ¬ ∀ (lone : Char → Bool) (s : Settings) (tr : Translator) (folder name : Option Text) (t : Tree)
      (inputs : List Text) (qs : List Path), t.WellFormed → s.toLang ≠ [] →
        (inputs.map fun i => t.locate (Path.ofText i)).Nodup →
        (files lone s tr folder name t (inputs.map Path.ofText)).result = .ok qs →
          (qs.map (files lone s tr folder name t (inputs.map Path.ofText)).tree.locate).Nodup := by
  intro h
  have hnodup := h (fun _ => false) { toLang := "de".toList } (fun _ r => .ok r.text) (some "out".toList) none drawers
    ["a/x.lg".toList, "b/x.lg".toList] [Path.ofText "out/de/x.lg".toList, Path.ofText "out/de/x.lg".toList]
    (by decide) (by decide) ?_ rfl
  · simp at hnodup
  · simp only [List.map_cons, List.map_nil, List.nodup_cons, List.mem_singleton]
    refine ⟨?_, by simp, List.nodup_nil⟩
    intro heq
    have h1 : drawers.locate (Path.ofText "a/x.lg".toList) = .ok ⟨["a".toList, "x.lg".toList]⟩ := rfl
    have h2 : drawers.locate (Path.ofText "b/x.lg".toList) = .ok ⟨["b".toList, "x.lg".toList]⟩ := rfl
    rw [h1, h2] at heq
    revert heq
    decide

end LangGen.Localization
