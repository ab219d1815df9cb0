/-
What becomes of the list items of a file. An item belongs to the chunk of the nearest line above it
that opens one. Where that line is the header of a template, the template has what the item says,
and no later chunk takes it away. Where that line defines an entity or refers to a file, no other
line of its chunk is read, and the item might as well not be there (`readContent_item`).
-/
import LangGen.Proofs.Catalog.Joining
import LangGen.Proofs.Localization.Meaning

namespace LangGen

open Line

/-! ## What templates hold -/

namespace Template

/-- Whether a template has what a payload says: the branch of a condition, or a variation, its own
or that of a branch. -/
def Holds (t : Template) : Payload → Prop
  | .condition c | .default c => c ∈ t.branches.map Branch.condition
  | .variation v => v ∈ t.variations ∨ ∃ b ∈ t.branches, v ∈ b.variations

variable {t u : Template} {p : Payload}

theorem Holds.merge_left (h : t.Holds p) (u : Template) : (t.merge u).Holds p := by
  have hopened : ∀ c ∈ t.branches.map Branch.condition, c ∈ (t.merge u).branches.map Branch.condition :=
    (t.within_merge_left u).conditions
  cases p with
  | condition c => exact hopened c h
  | default c => exact hopened c h
  | variation v =>
    refine h.imp ((t.within_merge_left u).variations v) fun ⟨b, hb, hv⟩ => ?_
    obtain ⟨b', hb', -, hkept⟩ := exists_mem_upsertAll_left (R := fun b b' => v ∈ b.variations → v ∈ b'.variations)
      Branch.absorb_condition (fun _ => id) (fun _ _ _ h hv => mem_unite.2 (.inl (h hv))) t.branches u.branches b hb
    exact ⟨b', hb', hkept hv⟩

theorem Holds.merge_right (h : u.Holds p) (t : Template) : (t.merge u).Holds p := by
  have hopened : ∀ c ∈ u.branches.map Branch.condition, c ∈ (t.merge u).branches.map Branch.condition :=
    (t.within_merge_right u).conditions
  cases p with
  | condition c => exact hopened c h
  | default c => exact hopened c h
  | variation v =>
    refine h.imp ((t.within_merge_right u).variations v) fun ⟨b, hb, hv⟩ => ?_
    obtain ⟨b', hb', -, hkept⟩ := exists_mem_upsertAll (R := fun b b' => v ∈ b.variations → v ∈ b'.variations)
      Branch.absorb_condition (fun _ => id) (fun _ _ hv => mem_unite.2 (.inr hv))
      (fun _ _ _ h hv => mem_unite.2 (.inl (h hv))) t.branches u.branches b hb
    exact ⟨b', hb', hkept hv⟩

/-- A payload that is not a variation with a problem is held by what it adds. -/
theorem holds_share (target : Target) (hp : ∀ v, p = .variation v → Variation.problem? v = none) :
    (target.share p).Holds p := by
  cases p with
  | condition c => exact List.mem_singleton_self c
  | default c => exact List.mem_singleton_self c
  | variation v =>
    have hv := hp v rfl
    unfold Target.share
    dsimp only
    rw [if_pos hv]
    split
    · exact .inr ⟨_, List.mem_singleton_self _, List.mem_singleton_self v⟩
    · exact .inl (List.mem_singleton_self v)

/-- A template holds the payloads that are grouped into it, but for variations with a problem. -/
theorem holds_grouped (ht : (t.branches.map Branch.condition).Nodup) {ps : List Payload} (h : p ∈ ps)
    (hp : ∀ v, p = .variation v → Variation.problem? v = none) : (t.grouped ps).Holds p := by
  induction ps using List.reverseRecOn with
  | nil => cases h
  | append_singleton ps q ih =>
    rw [grouped_concat_eq_merge ht]
    rcases List.mem_append.1 h with h | h
    · exact (ih h).merge_left _
    · rw [List.mem_singleton.1 h] at hp ⊢
      exact (holds_share _ hp).merge_right _

end Template

/-! ## Items in a body -/

namespace Line

theorem payload?_trimEnd_item {line payload : Text} {mark : Char} (h : item? line = some (mark, payload)) :
    payload? (Text.trimEnd line) = some (.ofText (Text.trim (collapseLinks payload))) := by
  have hmark := (lead?_of_item? h).2
  obtain ⟨a, b, hline, ha, hb⟩ := trimEnd_item h
  have hnonblank : Text.allBlank (a ++ mark :: (b ++ payload)) = false := by
    simp [Text.allBlank, isBlank_of_isItemMark hmark]
  rw [hline, payload?, hnonblank, if_neg Bool.false_ne_true, (item?_collapseLinks hmark ha hb payload).2]
  rfl

theorem counts_of_item? {line payload : Text} {mark : Char} (h : item? line = some (mark, payload)) :
    Chunk.counts line = true := by
  obtain ⟨hlead, hmark⟩ := lead?_of_item? h
  rw [Chunk.counts_eq, hlead]
  show (mark != commentMark) = true
  rw [bne_iff_ne]
  rintro rfl
  exact absurd hmark (by decide)

end Line

/-- What has been read without failure has been so at each input. -/
theorem readEach_succeeds_mem {σ α : Type} {read : Nat → σ → α → Outcome σ} {x : α} :
    ∀ {xs : List α} {n : Nat} {s : σ}, (readEach read n s xs).failure = none → x ∈ xs →
      ∃ m s', (read m s' x).failure = none
  | y :: ys, n, s, hok, hx => by
    obtain ⟨hy, hys⟩ := (readEach_succeeds_cons ..).1 hok
    rcases List.mem_cons.1 hx with rfl | hx
    · exact ⟨n, s, hy⟩
    · exact readEach_succeeds_mem hys hx

/-- A line of a template that is read without failure is blank, or an item whose payload is admitted
somewhere. -/
theorem Catalog.admitted_of_readTemplate {strict : Bool} {c : Catalog} {header line : Text} {body : List Text}
    (hok : (c.readTemplate strict header body).failure = none) (hline : line ∈ body) :
    Text.allBlank line = true ∨ ∃ p conditions, payload? line = some p ∧ p.Admitted strict conditions := by
  obtain ⟨-, hbody, -⟩ := (readTemplate_succeeds strict c body rfl).1 hok
  obtain ⟨n, b, hread⟩ := readEach_succeeds_mem hbody hline
  have hread : (b.readLine strict line).failure = none := (Outcome.within_failure_eq_none _ _).1 hread
  exact ((Body.readLine_succeeds strict b line).1 hread).imp id fun ⟨p, hp, hadmitted⟩ => ⟨p, _, hp, hadmitted⟩

/-- Of the lines of a template that is read without failure, when strict, none says a variation with
a problem. -/
theorem Catalog.problem?_of_readTemplate {c : Catalog} {header line v : Text} {body : List Text}
    (hok : (c.readTemplate true header body).failure = none) (hline : line ∈ body)
    (hv : payload? line = some (.variation v)) : Variation.problem? v = none := by
  rcases admitted_of_readTemplate hok hline with hblank | ⟨p, conditions, hp, hadmitted⟩
  · rw [payload?, if_pos hblank] at hv
    cases hv
  · rw [hv] at hp
    cases hp
    exact hadmitted rfl

/-! ## Chunks of lines -/

namespace Chunk

/-- The chunk of a line that opens one, and the chunks around it. -/
theorem linesOf_opened {content header : Text} {above body after : List Text} (hopens : opens header = true)
    (hbody : ∀ l ∈ body, opens l = false) (habove : (group above).1 = [])
    (hcounted : countedLines content = above ++ header :: (body ++ after)) :
    linesOf content = (group above).2 ++
      (Text.trim header :: (body.map Text.trimEnd ++ (group after).1)) :: (group after).2 := by
  have hgroup := group_append_opens hopens (body ++ after) above
  rw [← hcounted, group_append_body after hbody] at hgroup
  rw [linesOf_of_nil (by rw [hgroup]; exact habove), hgroup]

end Chunk

/-! ## Items of a file -/

namespace Catalog

variable {strict : Bool} {source : Option Text} {c : Catalog} {content : Text}

/-- Lines before the first chunk are of no kind, and a file that has some is not read without failure. -/
theorem group_fst_of_readContent (hok : (readContent strict source c content).failure = none) :
    (Chunk.group (Chunk.countedLines content)).1 = [] := by
  cases hstray : (Chunk.group (Chunk.countedLines content)).1 with
  | nil => rfl
  | cons l body =>
    have hchunks := Chunk.linesOf_of_cons hstray
    have htidy : Chunk.Tidy (Text.trimStart l :: body) :=
      Chunk.tidy_of_mem_linesOf (by rw [hchunks]; exact List.mem_cons_self)
    have hkind : Chunk.kind? (Text.trimStart l) = none :=
      Chunk.kind?_trimStart.2 (Chunk.opens_of_mem_group (by rw [hstray]; exact List.mem_cons_self))
    unfold readContent readChunks Chunk.split at hok
    rw [hchunks, List.map_cons] at hok
    have hfirst := (Outcome.within_failure_eq_none _ _).1 ((readEach_succeeds_cons ..).1 hok).1
    rw [readChunk_joinLines strict c htidy, hkind] at hfirst
    cases hfirst

/-- What a line of a template chunk says is held by the template that the chunk adds to, unless it
says a variation with a problem. -/
theorem holds_of_mem_chunks {chunks : List Text} (hok : (readChunks strict source {} chunks).failure = none)
    {chunk header line : Text} {body : List Text} (hchunk : chunk ∈ chunks)
    (hkind : Chunk.kind? (Text.trim chunk) = some .template) (hlines : Text.lines (Text.trim chunk) = header :: body)
    {p : Payload} (hline : line ∈ body) (hp : payload? line = some p)
    (hwell : ∀ v, p = .variation v → Variation.problem? v = none) :
    ∃ t ∈ (readChunks strict source {} chunks).state.templates,
      t.name = Text.trim (header.drop 1) ∧ t.Holds p := by
  -- the template that the chunk describes holds it, and the one that is stored in the end takes
  -- that one in
  have hdescribed : templateOf? chunk =
      some (({ name := Text.trim (header.drop 1) } : Template).grouped (body.filterMap payload?)) := by
    rw [templateOf?, hkind, hlines]
  have hholds := Template.holds_grouped (t := { name := Text.trim (header.drop 1) }) List.nodup_nil
    (List.mem_filterMap.2 ⟨line, hline, hp⟩) hwell
  have htemplates : (readChunks strict source {} chunks).state.templates = _ :=
    templates_readEach chunks Distinct.empty hok
  rw [htemplates]
  obtain ⟨t, ht, hname, hkept⟩ := exists_mem_upsertAll (R := fun t u => t.Holds p → u.Holds p) Template.merge_name
    (fun _ => id) (fun t _ h => h.merge_right t) (fun _ _ u h ht => (h ht).merge_left u) [] _ _
    (List.mem_filterMap.2 ⟨chunk, hchunk, hdescribed⟩)
  exact ⟨t, ht, hname, hkept hholds⟩

/-- A template chunk among chunks that are read without failure is read so into some catalog. -/
theorem readTemplate_of_mem_chunks {chunks : List Text} (hok : (readChunks strict source c chunks).failure = none)
    {chunk header : Text} {body : List Text} (hchunk : chunk ∈ chunks)
    (hkind : Chunk.kind? (Text.trim chunk) = some .template)
    (hlines : Text.lines (Text.trim chunk) = header :: body) :
    ∃ d : Catalog, (d.readTemplate strict header body).failure = none := by
  obtain ⟨n, d, hread⟩ := readEach_succeeds_mem hok hchunk
  have hstep := readChunk_step ((readPlaced_succeeds n d chunk).1 hread)
  generalize (d.readChunk strict chunk).state = d' at hstep
  cases hstep with
  | template hkind' hlines' hok =>
    rw [hlines] at hlines'
    cases hlines'
    exact ⟨d, hok⟩
  | reference hkind' => rw [hkind] at hkind'; cases hkind'
  | entity hkind' => rw [hkind] at hkind'; cases hkind'

/-- What an item says is held by the template that its chunk adds to. -/
theorem holds_of_mem_linesOf (hok : (readContent true source {} content).failure = none) {header line : Text}
    {body : List Text} (hchunk : header :: body ∈ Chunk.linesOf content)
    (hkind : Chunk.kind? header = some .template) {p : Payload} (hline : line ∈ body)
    (hp : payload? line = some p) :
    ∃ t ∈ (readContent true source {} content).state.templates,
      t.name = Text.trim (header.drop 1) ∧ t.Holds p := by
  have htidy := Chunk.tidy_of_mem_linesOf hchunk
  have hhead : header ≠ [] := (htidy.forall_solid header List.mem_cons_self).ne_nil
  have hsplit : Text.joinLines (header :: body) ∈ Chunk.split content := List.mem_map.2 ⟨_, hchunk, rfl⟩
  have hkind' : Chunk.kind? (Text.trim (Text.joinLines (header :: body))) = some .template := by
    rw [Chunk.trim_joinLines htidy, Chunk.kind?_joinLines hhead, hkind]
  have hlines' : Text.lines (Text.trim (Text.joinLines (header :: body))) = header :: body := by
    rw [Chunk.trim_joinLines htidy, Chunk.lines_joinLines htidy]
  obtain ⟨c, hread⟩ := readTemplate_of_mem_chunks hok hsplit hkind' hlines'
  exact holds_of_mem_chunks hok hsplit hkind' hlines' hline hp fun v hv =>
    problem?_of_readTemplate hread hline (by rw [hp, hv])

/-- An input can be put in place of another one that is read alike. -/
theorem readEach_replace {σ α : Type} {read : Nat → σ → α → Outcome σ} {x y : α}
    (h : ∀ n s, read n s x = read n s y) (after : List α) : ∀ (before : List α) (n : Nat) (s : σ),
      readEach read n s (before ++ x :: after) = readEach read n s (before ++ y :: after)
  | [], n, s => by rw [List.nil_append, List.nil_append, readEach_cons, readEach_cons, h n s]
  | z :: before, n, s => by
    rw [List.cons_append, List.cons_append, readEach_cons, readEach_cons, readEach_replace h after before]

/-- Of a chunk that is not a template, only the first line is read. -/
theorem readChunk_first {header : Text} {body body' : List Text} (h : Chunk.Tidy (header :: body))
    (h' : Chunk.Tidy (header :: body')) {kind : Chunk.Kind} (hkind : Chunk.kind? header = some kind)
    (hne : kind ≠ .template) (strict : Bool) (c : Catalog) :
    c.readChunk strict (Text.joinLines (header :: body)) = c.readChunk strict (Text.joinLines (header :: body')) := by
  rw [readChunk_joinLines strict c h, readChunk_joinLines strict c h', hkind]
  cases kind with
  | template => exact absurd rfl hne
  | reference => rfl
  | entity => rfl

theorem readContent_first {content' header : Text} {before after : List (List Text)} {body body' : List Text}
    {kind : Chunk.Kind} (hkind : Chunk.kind? header = some kind) (hne : kind ≠ .template)
    (hchunks : Chunk.linesOf content = before ++ (header :: body) :: after)
    (hchunks' : Chunk.linesOf content' = before ++ (header :: body') :: after) :
    readContent strict source c content' = readContent strict source c content := by
  have hmem : header :: body ∈ Chunk.linesOf content := by simp [hchunks]
  have hmem' : header :: body' ∈ Chunk.linesOf content' := by simp [hchunks']
  unfold readContent readChunks Chunk.split
  rw [hchunks, hchunks', List.map_append, List.map_append, List.map_cons, List.map_cons]
  refine readEach_replace (fun n c => ?_) _ _ 0 c
  rw [readChunk_first (Chunk.tidy_of_mem_linesOf hmem') (Chunk.tidy_of_mem_linesOf hmem) hkind hne]

/-- An item of a file that is read without failure stands below a line that opens a chunk. -/
theorem exists_opener {line payload : Text} {mark : Char} {before after : List Text}
    (hok : (readContent strict source c content).failure = none)
    (hlines : Text.lines content = before ++ line :: after) (hitem : item? line = some (mark, payload)) :
    ∃ header, findLast? Chunk.opens before = some header := by
  rw [← Option.ne_none_iff_exists']
  intro hnone
  -- the item would be a line before the first chunk
  have hbody : ∀ l ∈ before.filter Chunk.counts ++ [line], Chunk.opens l = false := by
    intro l hl
    rcases List.mem_append.1 hl with hl | hl
    · exact findLast?_eq_none hnone l (List.mem_filter.1 hl).1
    · rw [List.mem_singleton.1 hl]
      exact Localization.opens_of_item? hitem
  have hcounted : Chunk.countedLines content =
      (before.filter Chunk.counts ++ [line]) ++ after.filter Chunk.counts := by
    simp [Chunk.countedLines, hlines, counts_of_item? hitem]
  have hstray := group_fst_of_readContent hok
  rw [hcounted, Chunk.group_append_body _ hbody] at hstray
  simp at hstray

/-- A list item of a file that is read without failure, when strict, belongs to the chunk of the
last line above it that opens one. If that is the header of a template, the template holds what the
item says; if not, the file reads the same without the item. -/
theorem readContent_item {source : Option Text} {content line payload : Text} {mark : Char}
    {before after : List Text} (hok : (readContent true source {} content).failure = none)
    (hlines : Text.lines content = before ++ line :: after) (hitem : item? line = some (mark, payload)) :
    ∃ header kind, findLast? Chunk.opens before = some header ∧ Chunk.kind? (Text.trim header) = some kind ∧
      (kind = .template → ∃ t ∈ (readContent true source {} content).state.templates,
        t.name = Text.trim ((Text.trim header).drop 1) ∧
          t.Holds (.ofText (Text.trim (collapseLinks payload)))) ∧
      (kind ≠ .template → ∀ content', Text.lines content' = before ++ after →
        readContent true source {} content' = readContent true source {} content) := by
  obtain ⟨header, hfound⟩ := exists_opener hok hlines hitem
  obtain ⟨above, between, rfl, hopens, hbetween⟩ := findLast?_split hfound
  obtain ⟨kind, hkind⟩ := Chunk.exists_kind?_trim hopens
  have hbody : ∀ l ∈ between.filter Chunk.counts, Chunk.opens l = false := fun l hl =>
    hbetween l (List.mem_filter.1 hl).1
  have hheader := Chunk.counts_of_opens hopens
  have hcounted : Chunk.countedLines content = above.filter Chunk.counts ++
      header :: ((between.filter Chunk.counts ++ [line]) ++ after.filter Chunk.counts) := by
    simp [Chunk.countedLines, hlines, hheader, counts_of_item? hitem]
  have hstray := group_fst_of_readContent hok
  rw [hcounted, Chunk.group_append_opens hopens] at hstray
  have hchunks := Chunk.linesOf_opened hopens (List.forall_mem_append.2
    ⟨hbody, List.forall_mem_singleton.2 (Localization.opens_of_item? hitem)⟩) hstray hcounted
  rw [List.map_append, List.map_singleton] at hchunks
  refine ⟨header, kind, hfound, hkind, ?_, fun hne content' hlines' => ?_⟩
  · rintro rfl
    have hbelow : Text.trimEnd line ∈ (between.filter Chunk.counts).map Text.trimEnd ++ [Text.trimEnd line] ++
        (Chunk.group (after.filter Chunk.counts)).1 := by simp
    exact holds_of_mem_linesOf hok (by rw [hchunks]; exact List.mem_append_right _ List.mem_cons_self) hkind
      hbelow (payload?_trimEnd_item hitem)
  · have hcounted' : Chunk.countedLines content' = above.filter Chunk.counts ++
        header :: (between.filter Chunk.counts ++ after.filter Chunk.counts) := by
      simp [Chunk.countedLines, hlines', hheader]
    exact readContent_first hkind hne hchunks (Chunk.linesOf_opened hopens hbody hstray hcounted')

/-- An item of a branch, with a link and blanks around it, and one below the definition of an entity. -/
theorem readContent_item_between :
    let content := "# A\n- IF: x\n  * see [it](u) \n> c\n$ n : int\n- lost\n# A\n- b".toList
    (readContent true none {} content).failure = none ∧
      (∃ t ∈ (readContent true none {} content).state.templates,
        t.name = "A".toList ∧ t.Holds (.variation "see [it]".toList)) ∧
      readContent true none {} "# A\n- IF: x\n  * see [it](u) \n> c\n$ n : int\n# A\n- b".toList =
        readContent true none {} content := by
  intro content
  have hok : (readContent true none {} content).failure = none := by decide +kernel
  refine ⟨hok, ?_, ?_⟩
  · have hlines : Text.lines content = ["# A".toList, "- IF: x".toList] ++ "  * see [it](u) ".toList ::
        ["> c", "$ n : int", "- lost", "# A", "- b"].map String.toList := by decide +kernel
    have hitem : item? "  * see [it](u) ".toList = some ('*', "see [it](u)".toList) := by decide +kernel
    obtain ⟨header, kind, hheader, hkind, hholds, -⟩ := readContent_item hok hlines hitem
    obtain rfl : "# A".toList = header := Option.some.inj (hheader ▸ by decide +kernel)
    obtain rfl : Chunk.Kind.template = kind := Option.some.inj (hkind ▸ by decide +kernel)
    exact hholds rfl
  · have hlines : Text.lines content = ["# A", "- IF: x", "  * see [it](u) ", "> c", "$ n : int"].map String.toList ++
        "- lost".toList :: ["# A".toList, "- b".toList] := by decide +kernel
    have hitem : item? "- lost".toList = some ('-', "lost".toList) := by decide +kernel
    obtain ⟨header, kind, hheader, hkind, -, hskipped⟩ := readContent_item hok hlines hitem
    obtain rfl : "$ n : int".toList = header := Option.some.inj (hheader ▸ by decide +kernel)
    obtain rfl : Chunk.Kind.entity = kind := Option.some.inj (hkind ▸ by decide +kernel)
    exact hskipped (by decide) _ (by decide +kernel)

/-- An item below the definition of an entity is in no template. -/
theorem readContent_loses_item :
    ¬ ∀ (source : Option Text) (content line payload : Text) (mark : Char), line ∈ Text.lines content →
      item? line = some (mark, payload) → (readContent true source {} content).failure = none →
        ∃ t ∈ (readContent true source {} content).state.templates,
          t.Holds (.ofText (Text.trim (collapseLinks payload))) := by
  intro h
  obtain ⟨t, ht, -⟩ := h none "$ x : int\n- hi".toList "- hi".toList "hi".toList '-' (by decide +kernel)
    (by decide +kernel) (by decide +kernel)
  have hnone : (readContent true none {} "$ x : int\n- hi".toList).state.templates = [] := by decide +kernel
  rw [hnone] at ht
  cases ht

end Catalog

end LangGen
