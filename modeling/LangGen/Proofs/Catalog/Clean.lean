/-
What catalogs hold after any run of readings and merges, failed or not: names and references that
are not empty and have no blanks around them, variations that are well delimited and open no branch,
branches that are the default one or have a condition, and entities for all that these texts
mention. A line makes its entities known before anything of it is stored, and what is stored is a
piece of it (`clean_of_payload?`), so no later failure can take an entity away from a stored text.
-/
import LangGen.Proofs.Catalog.Shelf
import LangGen.Proofs.Line.Piece

namespace LangGen

open Line

/-! ## Definitions -/

/-- A variation as it is stored where these entities are known. -/
structure Variation.Clean (known : List Text) (v : Text) : Prop where
  trimmed : Text.trim v = v
  accepted : ∀ strict, Variation.check strict v = .ok true
  plain : ∀ w ∈ conditionWords ++ defaultWords, ¬ w <+: v
  closed : ∀ name ∈ mentions v, name ∈ known

/-- A branch as it is stored: it is the default one exactly if its condition is no expression. -/
structure Branch.Clean (known : List Text) (b : Branch) : Prop where
  condition : b.condition = elseWord ↔ Condition.check b.condition true ≠ .ok ()
  closed : ∀ name ∈ mentions b.condition, name ∈ known
  variations : ∀ v ∈ b.variations, Variation.Clean known v

structure Template.Clean (known : List Text) (t : Template) : Prop where
  name : Text.Neat t.name
  variations : ∀ v ∈ t.variations, Variation.Clean known v
  branches : ∀ b ∈ t.branches, b.Clean known

/-- The names of the entities of a catalog. -/
def Catalog.known (c : Catalog) : List Text := c.entities.map Entity.name

structure Catalog.Clean (c : Catalog) : Prop where
  templates : ∀ t ∈ c.templates, t.Clean c.known
  entities : ∀ name ∈ c.known, Text.Neat name
  references : ∀ target ∈ c.references, Text.Neat target

/-! ## Variations, branches and templates -/

section Parts

variable {known known' : List Text} (hk : ∀ name ∈ known, name ∈ known')
include hk

theorem Variation.Clean.mono {v : Text} (h : Variation.Clean known v) : Variation.Clean known' v :=
  ⟨h.trimmed, h.accepted, h.plain, fun name hname => hk name (h.closed name hname)⟩

theorem Branch.Clean.mono {b : Branch} (h : b.Clean known) : b.Clean known' :=
  ⟨h.condition, fun name hname => hk name (h.closed name hname),
    fun v hv => (h.variations v hv).mono hk⟩

theorem Template.Clean.mono {t : Template} (h : t.Clean known) : t.Clean known' :=
  ⟨h.name, fun v hv => (h.variations v hv).mono hk, fun b hb => (h.branches b hb).mono hk⟩

end Parts

variable {known : List Text}

theorem Branch.Clean.addVariation {b : Branch} (h : b.Clean known) {v : Text}
    (hv : Variation.Clean known v) : (b.addVariation v).Clean known :=
  ⟨h.condition, h.closed, forall_mem_addNew h.variations hv⟩

theorem Branch.Clean.absorb {b b' : Branch} (h : b.Clean known) (h' : b'.Clean known) :
    (b.absorb b').Clean known :=
  ⟨h.condition, h.closed, forall_mem_unite h.variations h'.variations⟩

theorem Template.Clean.merge {t t' : Template} (h : t.Clean known) (h' : t'.Clean known) :
    (t.merge t').Clean known := by
  refine ⟨h.name, forall_mem_unite h.variations h'.variations, ?_⟩
  exact forall_mem_upsertAll h.branches h'.branches fun _ _ hb hb' => hb.absorb hb'

/-- A template with the name of a header and nothing else. -/
theorem clean_named {header name : Text} (hn : name = Text.trim header) (h0 : name ≠ []) :
    Template.Clean known { name := name } where
  name := ⟨h0, by rw [hn, Text.trim_trim]⟩
  variations _ h := by cases h
  branches _ h := by cases h

/-! ## Payloads -/

theorem after?_eq_some : ∀ {lead s rest : Text}, Text.after? lead s = some rest → s = lead ++ rest
  | [], _, _, h => by cases h; rfl
  | _ :: _, [], _, h => by cases h
  | a :: lead, c :: s, rest, h => by
    unfold Text.after? at h
    split at h
    · rename_i hac
      rw [hac, after?_eq_some h]
      rfl
    · cases h

/-- The default branch is stored under one word, whichever word opens it. -/
theorem eq_elseWord_of_check {rest : Text}
    (h : Condition.check (Text.trim (elseWord ++ rest)) false = .ok ()) :
    Text.trim (elseWord ++ rest) = elseWord := by
  -- what is checked is trimmed and starts with the word: only blanks may follow, and there are none
  have htrim := Text.trim_trim (elseWord ++ rest)
  have hne : Text.trim (elseWord ++ rest) ≠ [] := by
    intro hnil
    have hblank := Text.forall_blank_of_trim hnil 'E' (by simp [elseWord])
    exact absurd hblank (by decide)
  generalize Text.trim (elseWord ++ rest) = s at h htrim hne
  unfold Condition.check Condition.checkDefault at h
  rw [if_neg (by decide), htrim] at h
  dsimp only at h
  split at h
  · rename_i hempty
    rw [List.isEmpty_iff] at hempty
    cases hs : Text.after? elseWord s with
    | none => rw [hs] at hempty; exact absurd hempty hne
    | some residue =>
      rw [hs] at hempty
      have hresidue := Text.forall_blank_of_trim hempty
      rw [← htrim, after?_eq_some hs, Text.trim_append_blanks elseWord hresidue]
      decide
  · cases h

theorem check_elseWord : Condition.check elseWord true ≠ .ok () := by
  intro h
  cases h

/-- What a payload may bring into a template where these entities are known. -/
structure Line.Payload.Clean (known : List Text) (p : Payload) : Prop where
  variation : ∀ v, p = .variation v → Variation.problem? v = none → Variation.Clean known v
  branch : ∀ condition needs, p.branch? = some (condition, needs) →
    Condition.check condition needs = .ok () → Branch.Clean known ⟨condition, []⟩

/-- The payload of a line brings in what is well formed and mentions no more than the line does. -/
theorem clean_of_payload? {line : Text} {p : Payload} (hp : payload? line = some p)
    (hknown : ∀ name ∈ mentions (collapseLinks line), name ∈ known) : p.Clean known := by
  obtain ⟨-, mark, payload, hitem, hp⟩ := payload?_eq_some hp
  obtain ⟨hpiece, htrim⟩ := item?_eq_some hitem
  constructor
  · rintro v rfl hv
    obtain ⟨rfl, hplain⟩ := ofText_eq_variation hp
    refine ⟨htrim, fun strict => ?_, hplain, fun name hname => ?_⟩
    · rw [Variation.check, hv]
    · exact hknown name (mentions_piece hpiece hname)
  · intro condition needs hbranch hok
    cases p with
    | variation v => cases hbranch
    | condition text =>
      cases hbranch
      refine ⟨⟨?_, fun h => absurd hok h⟩, fun name hname => ?_, fun v hv => by cases hv⟩
      · rintro rfl
        exact check_elseWord
      · exact hknown name (mentions_piece ((ofText_eq_condition hp).trans hpiece) hname)
    | default text =>
      cases hbranch
      obtain ⟨rest, rfl⟩ := ofText_eq_default hp
      rw [eq_elseWord_of_check hok]
      refine ⟨⟨fun _ => check_elseWord, fun _ => rfl⟩, fun name hname => ?_, fun v hv => by cases hv⟩
      have hnone : mentions elseWord = [] := by decide
      rw [hnone] at hname
      cases hname

/-! ## Drafts and bodies -/

/-- The template is clean, and so is the branch that is not in it yet. -/
structure Draft.Clean (known : List Text) (d : Draft) : Prop where
  template : d.template.Clean known
  fresh : ∀ b, d.target = .fresh b → b.Clean known

namespace Draft.Clean

variable {d : Draft}

theorem mono {known' : List Text} (hk : ∀ name ∈ known, name ∈ known') (h : d.Clean known) :
    d.Clean known' :=
  ⟨h.template.mono hk, fun b hb => (h.fresh b hb).mono hk⟩

theorem settle (h : d.Clean known) : d.settle.Clean known := by
  obtain ⟨t, target⟩ := d
  cases target with
  | template => exact h
  | branch condition => exact h
  | fresh b =>
    refine ⟨⟨h.template.name, h.template.variations, fun b' hb' => ?_⟩, fun _ h => by cases h⟩
    rcases List.mem_append.1 hb' with hb' | hb'
    · exact h.template.branches b' hb'
    · rw [List.mem_singleton.1 hb']; exact h.fresh b rfl

theorem addVariation (h : d.Clean known) {v : Text} (hv : Variation.Clean known v) :
    (d.addVariation v).Clean known := by
  obtain ⟨t, target⟩ := d
  have ht := h.template
  cases target with
  | template =>
    exact ⟨⟨ht.name, forall_mem_addNew ht.variations hv, ht.branches⟩, fun _ h => by cases h⟩
  | branch condition =>
    refine ⟨⟨ht.name, ht.variations, ?_⟩, fun _ h => by cases h⟩
    apply forall_mem_changeLast ht.branches
    intro b hb _
    exact (ht.branches b hb).addVariation hv
  | fresh b =>
    refine ⟨ht, ?_⟩
    rintro _ ⟨⟩
    exact (h.fresh b rfl).addVariation hv

theorem step {d' : Draft} {p : Payload} (h : d.Clean known) (hp : p.Clean known)
    (hs : Draft.Step d p d') : d'.Clean known := by
  cases hs with
  | ignored => exact h
  | added hv => exact h.addVariation (hp.variation _ rfl hv)
  | reopened => exact ⟨h.settle.template, fun _ h => by cases h⟩
  | opened hbranch _ hok =>
    refine ⟨h.settle.template, ?_⟩
    rintro _ ⟨⟩
    exact hp.branch _ _ hbranch hok
  | refused => exact h.settle

end Draft.Clean

/-- The entities have names, and the draft is clean where they are known. -/
structure Body.Clean (b : Body) : Prop where
  entities : ∀ name ∈ b.entities.map Entity.name, Text.Neat name
  draft : b.draft.Clean (b.entities.map Entity.name)

theorem Body.Clean.readLine {strict : Bool} {b : Body} (line : Text) (h : b.Clean) :
    (b.readLine strict line).state.Clean := by
  rcases readLine_cases strict b line with hs | ⟨he, hd⟩
  · rw [hs]; exact h
  · have hnames := map_name_known b.entities line
    rw [← he] at hnames
    have hentities : ∀ name ∈ (b.readLine strict line).state.entities.map Entity.name,
        Text.Neat name := by
      rw [hnames]
      exact forall_mem_unite h.entities fun _ => neat_of_mem_mentions
    -- what has been stored before stays clean, for no entity is forgotten
    have hbefore : b.draft.Clean ((b.readLine strict line).state.entities.map Entity.name) := by
      refine h.draft.mono fun name hname => ?_
      rw [hnames, mem_unite]
      exact .inl hname
    refine ⟨hentities, ?_⟩
    rcases hd with hd | ⟨p, hp, hd⟩
    · rw [hd]; exact hbefore
    · refine hbefore.step (clean_of_payload? hp fun name hname => ?_) hd
      rw [hnames, mem_unite]
      exact .inr hname

/-- Entities stay known while lines are read. -/
theorem Body.mem_after {strict : Bool} {b : Body} {name : Text}
    (h : name ∈ b.entities.map Entity.name) (lines : List Text) :
    name ∈ (b.after strict lines).entities.map Entity.name := by
  refine after_keeps (P := fun b => name ∈ b.entities.map Entity.name) ?_ h lines
  intro b line hb
  rcases readLine_cases strict b line with hs | ⟨he, -⟩
  · rw [hs]; exact hb
  · rw [he, map_name_known, mem_unite]; exact .inl hb

theorem Body.Clean.after {strict : Bool} {b : Body} (h : b.Clean) (lines : List Text) :
    (b.after strict lines).Clean :=
  after_keeps (fun _ line hb => hb.readLine line) h lines

/-! ## Catalogs -/

theorem neat_of_fileReference? {line label target : Text} (h0 : target ≠ [])
    (h : fileReference? line = some (label, target)) : Text.Neat target := by
  refine ⟨h0, ?_⟩
  unfold fileReference? at h
  split at h
  · dsimp only at h
    split at h
    · split at h
      · obtain ⟨raw, -, hraw⟩ := Option.map_eq_some_iff.1 h
        cases hraw
        exact Text.trim_trim raw
      · cases h
    · cases h
  · cases h

theorem neat_of_entityOf? {line : Text} {e : Entity} (h : Catalog.entityOf? line = some e) :
    Text.Neat e.name := by
  unfold Catalog.entityOf? at h
  split at h
  · rename_i raw _ _
    split at h
    · rename_i c r _ _ hname _
      cases h
      refine ⟨List.cons_ne_nil c r, ?_⟩
      rw [← hname, Text.trim_trim]
    · cases h
  · cases h

namespace Catalog.Clean

variable {c : Catalog}

theorem empty : Catalog.Clean {} where
  templates _ h := by cases h
  entities _ h := by cases h
  references _ h := by cases h

theorem body (h : c.Clean) {t : Template} (ht : t.Clean c.known) (strict : Bool)
    (lines : List Text) : (Body.after strict ⟨c.entities, ⟨t, .template⟩⟩ lines).Clean := by
  have hbody : Body.Clean ⟨c.entities, ⟨t, .template⟩⟩ := ⟨h.entities, ht, fun _ h => by cases h⟩
  exact hbody.after lines

/-- The catalog stays clean with the entities that the lines of a template have made known. -/
theorem withEntities (h : c.Clean) {strict : Bool} {b : Body} {t : Template} {lines : List Text}
    (hb : b = Body.after strict ⟨c.entities, ⟨t, .template⟩⟩ lines) (hbody : b.Clean) :
    Catalog.Clean { c with entities := b.entities } := by
  refine ⟨fun t' ht' => (h.templates t' ht').mono fun name hname => ?_, hbody.entities, h.references⟩
  show name ∈ b.entities.map Entity.name
  rw [hb]
  exact Body.mem_after hname lines

theorem putTemplate (h : c.Clean) {t : Template} (ht : t.Clean c.known) : (c.putTemplate t).Clean where
  templates := forall_mem_changeLast h.templates fun _ _ _ => ht
  entities := h.entities
  references := h.references

theorem defineEntity (h : c.Clean) {e : Entity} (he : Text.Neat e.name) : (c.defineEntity e).Clean := by
  have hknown : (c.defineEntity e).known = addNew c.known e.name := map_name_defineEntity c e
  constructor
  · rw [defineEntity_templates]
    intro t ht
    refine (h.templates t ht).mono fun name hname => ?_
    rw [hknown, mem_addNew]; exact .inl hname
  · rw [hknown]; exact forall_mem_addNew h.entities he
  · rw [defineEntity_references]; exact h.references

/-- The effect of a chunk keeps a catalog clean. -/
theorem effect {strict : Bool} {c' : Catalog} (h : c.Clean) (he : Effect strict c c') : c'.Clean := by
  cases he with
  | same => exact h
  | referred href h0 =>
    refine ⟨h.templates, h.entities, fun target htarget => ?_⟩
    rcases List.mem_append.1 htarget with htarget | htarget
    · exact h.references target htarget
    · rw [List.mem_singleton.1 htarget]; exact neat_of_fileReference? h0 href
  | defined hdef => exact h.defineEntity (neat_of_entityOf? hdef)
  | @extended t t' b lines ht hb ht' =>
    have hbody := h.body (h.templates t (lastTemplate?_eq_some ht).1) strict lines
    rw [← hb] at hbody
    rcases ht' with rfl | rfl
    · exact (h.withEntities hb hbody).putTemplate hbody.draft.template
    · exact (h.withEntities hb hbody).putTemplate hbody.draft.settle.template
  | @dropped header name b lines hn h0 hb =>
    have hbody := h.body (clean_named hn h0) strict lines
    rw [← hb] at hbody
    exact h.withEntities hb hbody
  | @created header name b lines hn h0 hnew hb =>
    have hbody := h.body (clean_named hn h0) strict lines
    rw [← hb] at hbody
    have hstored := h.withEntities hb hbody
    refine ⟨fun t ht => ?_, hstored.entities, h.references⟩
    rcases List.mem_append.1 ht with ht | ht
    · exact hstored.templates t ht
    · rw [List.mem_singleton.1 ht]; exact hbody.draft.settle.template

theorem merge (h : c.Clean) {other : Catalog} (ho : other.Clean) : (c.merge other).Clean := by
  have hknown : (c.merge other).known = unite c.known other.known := map_name_merge c other
  have hleft : ∀ name ∈ c.known, name ∈ (c.merge other).known := by
    intro name hname; rw [hknown, mem_unite]; exact .inl hname
  have hright : ∀ name ∈ other.known, name ∈ (c.merge other).known := by
    intro name hname; rw [hknown, mem_unite]; exact .inr hname
  constructor
  · exact forall_mem_upsertAll (fun t ht => (h.templates t ht).mono hleft)
      (fun t ht => (ho.templates t ht).mono hright) fun _ _ ht ht' => ht.merge ht'
  · rw [hknown]; exact forall_mem_unite h.entities ho.entities
  · exact forall_mem_unite h.references ho.references

end Catalog.Clean

/-- After any readings into empty catalogs and any merges of them, all that is stored is well
formed, and what it mentions is known. -/
theorem Shelf.run_clean (steps : List Shelf.Step) (slot : Nat) : (Shelf.run steps slot).Clean :=
  Shelf.run_keeps Catalog.Clean.empty (fun _ _ _ => .effect) (fun _ _ h => h.merge) steps slot

end LangGen
