/-
Line ends do not count. A text is read and localized by its lines, however these end; and a file
that has been written is read back as the text that was written, with LF at the end of each line:
localized texts start with nothing that is taken for a byte order mark (`lineEnds_ignored`).
-/
import LangGen.Catalog.Reading
import LangGen.Proofs.Localization.Turns
import LangGen.Proofs.Text.Utf8

namespace LangGen

/-! ## Texts -/

theorem Chunk.split_unixLines (text : Text) : split (Text.unixLines text) = split text := by
  unfold split linesOf
  rw [Text.lines_unixLines]

theorem Catalog.readContent_unixLines (strict : Bool) (source : Option Text) (c : Catalog) (text : Text) :
    readContent strict source c (Text.unixLines text) = readContent strict source c text := by
  unfold readContent
  rw [Chunk.split_unixLines]

namespace Localization

open Line LangGen.Files

variable {lone : Char → Bool} {s : Settings} {tr : Translator} {folder name : Option Text}

theorem content_unixLines (s : Settings) (tr : Translator) (before : List Request) (text : Text) :
    content s tr before (Text.unixLines text) = content s tr before text := by
  unfold content
  rw [Text.lines_unixLines]

/-! ## How localized texts start -/

theorem not_known_markChar : ¬ Known (some Text.Utf8.markChar) := by
  unfold Known
  decide

theorem Site.head?_paste_ne (site : Site) (r : Text) : (site.paste r).head? ≠ some Text.Utf8.markChar := by
  cases site <;> exact fun h => absurd (Option.some.inj h) (by decide)

/-- A localized line does not start with the character of the byte order mark. -/
theorem Pasted.head?_ne {raw l : Text} {a : Option (Site × Text)} (h : Pasted s tr raw a l) :
    l.head? ≠ some Text.Utf8.markChar := by
  cases h with
  | copied hplan =>
    rcases plan_eq_copy hplan with ⟨rfl, hknown⟩ | ⟨label, target, -, rfl⟩
    · intro hhead
      rw [lead?_eq_head?_trim, hhead] at hknown
      exact not_known_markChar hknown
    · exact Site.head?_paste_ne _ _
  | asked _ _ => exact Site.head?_paste_ne _ _

/-- A localized text does not start with the character of the byte order mark. -/
theorem head?_content {before : List Request} {text out : Text} (h : (content s tr before text).result = .ok out) :
    out.head? ≠ some Text.Utf8.markChar := by
  obtain ⟨ls, rfl, -, hls⟩ := content_pasted h
  generalize (Text.lines text).zip (replies s tr before (Text.lines text)) = raws at hls
  cases hls with
  | nil => nofun
  | @cons p l _ ls hl _ =>
    cases l with
    | nil => exact fun h => absurd (Option.some.inj h) (by decide)
    | cons c r => exact hl.head?_ne

/-! ## Reading back -/

theorem readText_encode {t : Tree} {q : Path} {l : Location} {out : Text} (hl : t.locate q = .ok l)
    (hnode : t.node? l = some (.file (Text.Utf8.encode out))) (hhead : out.head? ≠ some Text.Utf8.markChar) :
    readText t q = .ok (Text.unixLines out) := by
  have hread : t.read q = .ok (Text.Utf8.encode out) := Tree.read_eq_ok.2 ⟨l, hl, hnode⟩
  unfold readText textOf
  rw [hread]
  dsimp only
  rw [Text.Utf8.decodeFile_encode hhead]

/-- A file that has been delivered is read back, right after that and until it is written again. -/
theorem Delivers.readText {t u : Tree} {before after : List Request} {earlier later : List Delivery} {d : Delivery}
    (h : Delivers lone s tr folder name t before (earlier ++ d :: later) u after) :
    ∃ w sent, Delivers lone s tr folder name t before (earlier ++ [d]) w sent ∧
      Files.readText w (outputPath d.path s.toLang folder name) = .ok (Text.unixLines d.localized) ∧
      ∀ v ls, Tree.Grown ls u v → d.output ∉ ls → d.output ∉ later.map Delivery.output →
        Files.readText v (outputPath d.path s.toLang folder name) = .ok (Text.unixLines d.localized) := by
  obtain ⟨v, sent, w, sent', hbefore, hone, hlater⟩ := h.turn rfl
  refine ⟨w, sent', hbefore.append hone, ?_⟩
  cases hone with
  | cons _ _ hcontent houtput hdeliver hnil =>
    cases hnil
    have hhead := head?_content (congrArg Traced.result hcontent)
    have hwritten := (written_deliver hdeliver houtput).node
    refine ⟨readText_encode houtput hwritten hhead, fun v' ls hgrown hls hnot => ?_⟩
    refine readText_encode (hgrown.locate (hlater.grown.locate houtput)) ?_ hhead
    rw [hgrown.other _ hls, hlater.grown.other _ hnot]
    exact hwritten

/-- Whether each file that a run delivers is read back as its localized text with LF at the end of
each line, right after it has been written and, if no later file goes to the same place or empties
it, after the run. -/
def ReadBack (lone : Char → Bool) (s : Settings) (tr : Translator) (folder name : Option Text) (t : Tree) (run : Run)
    (ds : List Delivery) (emptied : Option Location) : Prop :=
  ∀ earlier d later, ds = earlier ++ d :: later →
    readText (filesFrom lone s tr folder name t [] ((earlier ++ [d]).map Delivery.path)).tree
        (outputPath d.path s.toLang folder name) = .ok (Text.unixLines d.localized) ∧
      (d.output ∉ later.map Delivery.output → emptied ≠ some d.output →
        readText run.tree (outputPath d.path s.toLang folder name) = .ok (Text.unixLines d.localized))

/-- Whether lines end in CR, in LF or in both makes no difference to the chunks of a text, to what
is read from it, or to what is written and sent when it is localized; and files that a run writes
are read back as what was written, but for how lines end. -/
theorem lineEnds_ignored :
    (∀ text, Chunk.split (Text.unixLines text) = Chunk.split text) ∧
      (∀ strict source c text, Catalog.readContent strict source c (Text.unixLines text) =
        Catalog.readContent strict source c text) ∧
      (∀ s tr before text, content s tr before (Text.unixLines text) = content s tr before text) ∧
      ∀ lone s tr folder name t ps, (Refused folder t ps ∧ (files lone s tr folder name t ps).tree = t) ∨
        ∃ ds rest u sent emptied,
          TakesTurns lone s tr folder name t ps (files lone s tr folder name t ps) ds rest u sent emptied ∧
            ReadBack lone s tr folder name t (files lone s tr folder name t ps) ds emptied := by
  refine ⟨Chunk.split_unixLines, Catalog.readContent_unixLines, content_unixLines, ?_⟩
  intro lone s tr folder name t ps
  rcases files_cases lone s tr folder name t ps with ⟨hrefused, halt, heq⟩ | heq
  · exact .inl ⟨hrefused, by rw [heq]⟩
  · obtain ⟨ds, rest, u, sent, emptied, rfl, hds, hends⟩ := filesFrom_ends lone s tr folder name t [] ps
    rw [heq]
    refine .inr ⟨ds, rest, u, sent, emptied, hds.takesTurns hends, ?_⟩
    rintro earlier d later rfl
    obtain ⟨w, sent', hturn, hread, hlater⟩ := hds.readText
    rw [hturn.filesFrom_eq]
    refine ⟨hread, fun hnot hkept => ?_⟩
    rw [hds.filesFrom_append rest]
    exact hlater _ _ hends.grown (by simpa using hkept) hnot

end Localization

end LangGen
