/-
What reading does to what is there. Lists grow at their end, and what stands in them grows in its
place (`Grown`): a template gets variations and branches, a branch gets variations, and an entity
may get the type of a definition that was read. Each step of a draft extends its template, so a body
does, a chunk does, and a run does, wherever it ends (`Catalog.readChunks_extends`).
-/
import LangGen.Proofs.Catalog.Progress

namespace LangGen

open Line

/-! ## Lists that grow -/

/-- Each member of the first list stands in its place in the second one, changed as `R` says; others
may have come behind. -/
inductive Grown {α : Type} (R : α → α → Prop) : List α → List α → Prop
  | nil (ys : List α) : Grown R [] ys
  | cons {x y : α} {xs ys : List α} (h : R x y) (hs : Grown R xs ys) : Grown R (x :: xs) (y :: ys)

section Grown

variable {α : Type} {R : α → α → Prop} {xs ys zs : List α}

theorem Grown.append (hR : ∀ x, R x x) : ∀ xs ys : List α, Grown R xs (xs ++ ys)
  | [], ys => .nil ys
  | x :: xs, ys => .cons (hR x) (append hR xs ys)

theorem Grown.of_isPrefix (hR : ∀ x, R x x) (h : xs <+: ys) : Grown R xs ys := by
  obtain ⟨zs, rfl⟩ := h
  exact .append hR xs zs

theorem Grown.refl (hR : ∀ x, R x x) (xs : List α) : Grown R xs xs := .of_isPrefix hR (List.prefix_refl xs)

theorem Grown.trans (hR : ∀ x y z, R x y → R y z → R x z) (h : Grown R xs ys) (h' : Grown R ys zs) :
    Grown R xs zs := by
  induction h generalizing zs with
  | nil => exact .nil zs
  | cons hxy _ ih =>
    cases h' with
    | cons hyz hs' => exact .cons (hR _ _ _ hxy hyz) (ih hs')

/-- What a change does not touch grows at the end only. -/
theorem Grown.prefix_map {β : Type} {f : α → β} (hf : ∀ x y, R x y → f y = f x) (h : Grown R xs ys) :
    xs.map f <+: ys.map f := by
  induction h with
  | nil => exact List.nil_prefix
  | cons hxy _ ih =>
    rw [List.map_cons, List.map_cons, hf _ _ hxy]
    exact List.cons_prefix_cons.2 ⟨rfl, ih⟩

theorem Grown.changeLast {p : α → Bool} {f : α → α} (hR : ∀ x, R x x)
    (hf : ∀ x, findLast? p xs = some x → R x (f x)) : Grown R xs (changeLast p f xs) := by
  induction xs with
  | nil => exact .nil _
  | cons x xs ih =>
    rw [findLast?_cons] at hf
    unfold LangGen.changeLast
    split
    · exact .cons (hR x) (ih fun y hy => hf y (by rw [hy, Option.some_or]))
    · rename_i hany
      have hnone : findLast? p xs = none := by
        cases hlast : findLast? p xs with
        | none => rfl
        | some y => exact absurd (List.any_eq_true.2 ⟨y, findLast?_eq_some hlast⟩) hany
      refine .cons ?_ (.refl hR xs)
      rw [hnone, Option.none_or] at hf
      split
      · rename_i hx
        exact hf x (if_pos hx)
      · exact hR x

theorem prefix_addNew [DecidableEq α] (xs : List α) (x : α) : xs <+: addNew xs x := by
  unfold addNew
  split
  · exact List.prefix_refl xs
  · exact List.prefix_append xs [x]

end Grown

/-! ## Templates -/

/-- A branch with what it had first, and perhaps with more. -/
structure Branch.Extends (b b' : Branch) : Prop where
  condition : b'.condition = b.condition
  variations : b.variations <+: b'.variations

namespace Branch

theorem Extends.refl (b : Branch) : b.Extends b := ⟨rfl, List.prefix_refl _⟩

theorem Extends.trans {b b' b'' : Branch} (h : b.Extends b') (h' : b'.Extends b'') : b.Extends b'' :=
  ⟨h'.condition.trans h.condition, h.variations.trans h'.variations⟩

theorem extends_addVariation (b : Branch) (v : Text) : b.Extends (b.addVariation v) := ⟨rfl, prefix_addNew _ v⟩

end Branch

/-- A template with what it had first, in the same order, and perhaps with more. -/
structure Template.Extends (t t' : Template) : Prop where
  name : t'.name = t.name
  variations : t.variations <+: t'.variations
  branches : Grown Branch.Extends t.branches t'.branches

namespace Template

theorem Extends.refl (t : Template) : t.Extends t := ⟨rfl, List.prefix_refl _, .refl Branch.Extends.refl _⟩

theorem Extends.trans {t t' t'' : Template} (h : t.Extends t') (h' : t'.Extends t'') : t.Extends t'' :=
  ⟨h'.name.trans h.name, h.variations.trans h'.variations, h.branches.trans (fun _ _ _ => .trans) h'.branches⟩

end Template

namespace Draft

theorem extends_settle (d : Draft) : d.template.Extends d.settle.template := by
  rcases d with ⟨t, _ | _ | b⟩
  · exact .refl t
  · exact .refl t
  · exact ⟨rfl, List.prefix_refl _, .append Branch.Extends.refl _ _⟩

theorem extends_addVariation (d : Draft) (v : Text) : d.template.Extends (d.addVariation v).template := by
  rcases d with ⟨t, _ | condition | b⟩
  · exact ⟨rfl, prefix_addNew _ v, .refl Branch.Extends.refl _⟩
  · exact ⟨rfl, List.prefix_refl _, .changeLast Branch.Extends.refl fun b _ => b.extends_addVariation v⟩
  · exact .refl t

/-- Whatever a payload makes of a draft, the template is extended. -/
theorem Step.extends {d d' : Draft} {p : Payload} (h : Step d p d') : d.template.Extends d'.template := by
  cases h with
  | ignored => exact .refl _
  | added => exact d.extends_addVariation _
  | reopened => exact d.extends_settle
  | opened => exact d.extends_settle
  | refused => exact d.extends_settle

end Draft

/-! ## Bodies -/

/-- What lines have been read into: the template is extended, and entities may have come behind the
others. -/
structure Body.Extends (b b' : Body) : Prop where
  template : b.draft.template.Extends b'.draft.template
  entities : b.entities <+: b'.entities

namespace Body

theorem Extends.refl (b : Body) : b.Extends b := ⟨.refl _, List.prefix_refl _⟩

theorem Extends.trans {b b' b'' : Body} (h : b.Extends b') (h' : b'.Extends b'') : b.Extends b'' :=
  ⟨h.template.trans h'.template, h.entities.trans h'.entities⟩

theorem prefix_addMention (es : List Entity) (name : Text) : es <+: addMention es name := by
  unfold addMention
  by_cases h : name ∈ es.map Entity.name
  · exact ⟨[], (List.append_nil es).trans (upsert_of_absorbed h fun _ _ _ => rfl).symm⟩
  · rw [upsert_of_not_mem h]
    exact List.prefix_append es _

theorem prefix_foldl_addMention (names : List Text) (es : List Entity) : es <+: names.foldl addMention es := by
  induction names generalizing es with
  | nil => exact List.prefix_refl es
  | cons name names ih => exact (prefix_addMention es name).trans (ih _)

theorem readLine_extends (strict : Bool) (b : Body) (line : Text) : b.Extends (b.readLine strict line).state where
  template := by
    rcases readLine_cases strict b line with hs | ⟨-, hs | ⟨p, -, hs⟩⟩
    · rw [hs]
      exact .refl _
    · rw [hs]
      exact .refl _
    · exact hs.extends
  entities := by
    rw [entities_readLine]
    exact prefix_foldl_addMention _ _

theorem extends_after (strict : Bool) (b : Body) (lines : List Text) : b.Extends (b.after strict lines) :=
  after_keeps (P := b.Extends) (fun b' line h => h.trans (readLine_extends strict b' line)) (.refl b) lines

end Body

/-! ## Catalogs -/

/-- How an entity may change where these definitions are read: it may get the type of one of its name. -/
structure Entity.Extends (Defined : Entity → Prop) (e e' : Entity) : Prop where
  name : e'.name = e.name
  attributes : e'.attributes = e.attributes
  type : e'.type = e.type ∨ ∃ d, Defined d ∧ d.name = e.name ∧ e'.type = d.type

/-- How a catalog may change where these definitions are read. -/
structure Catalog.Extends (Defined : Entity → Prop) (c c' : Catalog) : Prop where
  templates : Grown Template.Extends c.templates c'.templates
  entities : Grown (Entity.Extends Defined) c.entities c'.entities
  references : c.references <+: c'.references

variable {Defined : Entity → Prop}

theorem Entity.Extends.refl (e : Entity) : e.Extends Defined e := ⟨rfl, rfl, .inl rfl⟩

theorem Entity.Extends.trans {e e' e'' : Entity} (h : e.Extends Defined e') (h' : e'.Extends Defined e'') :
    e.Extends Defined e'' where
  name := h'.name.trans h.name
  attributes := h'.attributes.trans h.attributes
  type := by
    rcases h'.type with htype | ⟨d, hd, hname, htype⟩
    · rw [htype]
      exact h.type
    · exact .inr ⟨d, hd, hname.trans h.name, htype⟩

namespace Catalog

variable {c c' : Catalog} {strict : Bool} {chunk name : Text}

theorem Extends.refl (c : Catalog) : c.Extends Defined c :=
  ⟨.refl Template.Extends.refl _, .refl Entity.Extends.refl _, List.prefix_refl _⟩

theorem Extends.trans {c'' : Catalog} (h : c.Extends Defined c') (h' : c'.Extends Defined c'') :
    c.Extends Defined c'' where
  templates := h.templates.trans (fun _ _ _ => .trans) h'.templates
  entities := h.entities.trans (fun _ _ _ => .trans) h'.entities
  references := h.references.trans h'.references

theorem extends_during {b : Body} (h : (c.start name).Extends b) : c.Extends Defined (c.during b) where
  templates := by
    refine .changeLast Template.Extends.refl fun t ht => ?_
    have hname : b.draft.template.name = name := h.template.name.trans (c.templateOr_name name)
    have hstart : c.templateOr name = t := by
      rw [hname] at ht
      exact congrArg (Option.getD · _) ht
    rw [← hstart]
    exact h.template
  entities := .of_isPrefix Entity.Extends.refl h.entities
  references := List.prefix_refl _

theorem extends_finish {b : Body} (h : (c.start name).Extends b) : c.Extends Defined (c.finish b) := by
  have hsettled : (c.start name).Extends ⟨b.entities, b.draft.settle⟩ :=
    ⟨h.template.trans b.draft.extends_settle, h.entities⟩
  unfold finish
  dsimp only
  split
  · exact extends_during hsettled
  · exact ⟨.append Template.Extends.refl _ _, .of_isPrefix Entity.Extends.refl h.entities, List.prefix_refl _⟩

theorem extends_defineEntity {d : Entity} (hd : Defined d) : c.Extends Defined (c.defineEntity d) := by
  unfold defineEntity
  split
  · refine ⟨.refl Template.Extends.refl _, .changeLast Entity.Extends.refl fun e he => ?_, List.prefix_refl _⟩
    have hname : e.name = d.name := eq_of_beq (findLast?_eq_some he).2
    exact ⟨rfl, rfl, .inr ⟨d, hd, hname.symm, rfl⟩⟩
  · exact ⟨.refl Template.Extends.refl _, .append Entity.Extends.refl _ _, List.prefix_refl _⟩

/-- A chunk extends the catalog, whether it fails or not. -/
theorem readChunk_extends (hdefined : ∀ d, definition? chunk = some d → Defined d) :
    c.Extends Defined (c.readChunk strict chunk).state := by
  cases htemplate : Chunk.template? chunk with
  | none =>
    obtain ⟨o, hwhole, ho⟩ := readChunk_whole (c := c) htemplate
    rw [ho]
    cases hwhole with
    | refused => exact .refl c
    | referred target =>
      exact ⟨.refl Template.Extends.refl _, .refl Entity.Extends.refl _, List.prefix_append _ _⟩
    | defined hd => exact extends_defineEntity (hdefined _ hd)
  | some template =>
    have hbody := Body.extends_after strict (c.start template.1) template.2
    rw [readChunk_of_template? htemplate]
    dsimp only
    split
    · exact extends_during hbody
    · exact extends_finish hbody

/-! ## Runs -/

variable {source : Option Text}

theorem readEach_extends : ∀ {chunks : List Text} {n : Nat} {c : Catalog},
    (∀ k c' chunk d, Reached (readPlaced strict source) n c chunks k c' chunk →
      definition? chunk = some d → Defined d) → c.Extends Defined (readEach (readPlaced strict source) n c chunks).state
  | [], _, c, _ => .refl c
  | chunk :: chunks, n, c, hdefined => by
    have hchunk : c.Extends Defined (readPlaced strict source n c chunk).state :=
      readChunk_extends fun d hd => hdefined n c chunk d .here hd
    rw [readEach_cons]
    split
    · rename_i hok
      exact hchunk.trans (readEach_extends fun k c' chunk' d hreached => hdefined k c' chunk' d (.next hok hreached))
    · exact hchunk

/-- Reading only ever extends a catalog, whether it fails or not. Templates, entities and references
stay in their places, and new ones come behind; so do the variations and the branches of a template,
and the variations of a branch. An entity keeps its attributes, and it changes its type for that of
a definition of its name only, in a chunk that the run has come to. A chunk that fails at a line
adds no template. -/
theorem readChunks_extends (strict : Bool) (source : Option Text) (base : Catalog) (chunks : List Text) :
    let result := (readChunks strict source base chunks).state
    base.Extends (fun d => ∃ k c chunk, Reached (readPlaced strict source) 0 base chunks k c chunk ∧
        definition? chunk = some d) result ∧
      base.templates.map Template.name <+: result.templates.map Template.name ∧
      base.entities.map Entity.name <+: result.entities.map Entity.name ∧
      ∀ k n c b line, Visits strict source base chunks k n c b line → (b.readLine strict line).failure ≠ none →
        result.templates.map Template.name = c.templates.map Template.name := by
  intro result
  have hextends : base.Extends (fun d => ∃ k c chunk, Reached (readPlaced strict source) 0 base chunks k c chunk ∧
      definition? chunk = some d) result :=
    readEach_extends fun k c chunk d hreached hd => ⟨k, c, chunk, hreached, hd⟩
  refine ⟨hextends, hextends.templates.prefix_map fun _ _ h => h.name,
    hextends.entities.prefix_map fun _ _ h => h.name, fun k n c b line hvisits hfails => ?_⟩
  obtain ⟨f, hf⟩ := Option.ne_none_iff_exists'.1 hfails
  unfold result
  rw [hvisits.readChunks_eq hf]
  have hkey : ∀ t : Template, (t.name == (b.readLine strict line).state.draft.template.name) = true →
      (b.readLine strict line).state.draft.template.name = t.name := fun t ht => (eq_of_beq ht).symm
  exact map_key_changeLast hkey c.templates

/-- A template gets a branch, an entity another type, and then a template is not added whose second
line fails. -/
theorem readChunks_extends_dropped :
    let base : Catalog :=
      ⟨[⟨"A".toList, ["a".toList], []⟩], [⟨"x".toList, .int, [⟨"lo".toList, some "1".toList⟩]⟩], []⟩
    let chunks := ["# A\n- IF: y\n- b", "$ x : bool hi = 2", "# B\n- {z}\n- \x7d"].map String.toList
    let result := (readChunks true none base chunks).state
    base.Extends (fun d => ∃ k c chunk, Reached (readPlaced true none) 0 base chunks k c chunk ∧
        definition? chunk = some d) result ∧
      (∃ c b line, Visits true none base chunks 2 3 c b line ∧ (b.readLine true line).failure ≠ none ∧
        result.templates.map Template.name = c.templates.map Template.name) ∧
      result = ⟨[⟨"A".toList, ["a".toList], [⟨"y".toList, ["b".toList]⟩]⟩],
        [⟨"x".toList, .bool, [⟨"lo".toList, some "1".toList⟩]⟩, ⟨"z".toList, .unresolved, []⟩], []⟩ := by
  intro base chunks result
  obtain ⟨hextends, -, -, hdropped⟩ := readChunks_extends true none base chunks
  have hvisits : ∃ c b, Visits true none base chunks 2 3 c b "- \x7d".toList ∧
      (b.readLine true "- \x7d".toList).failure ≠ none :=
    ⟨_, _, ⟨"# B\n- {z}\n- \x7d".toList, .next (by decide +kernel) (.next (by decide +kernel) .here), "B".toList,
      ["- {z}", "- \x7d"].map String.toList, by decide +kernel, .next (by decide +kernel) .here⟩, by decide +kernel⟩
  obtain ⟨c, b, hvisits, hfails⟩ := hvisits
  exact ⟨hextends, ⟨c, b, _, hvisits, hfails, hdropped 2 3 c b _ hvisits hfails⟩, by decide +kernel⟩

end Catalog

end LangGen
