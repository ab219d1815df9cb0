/-
Reading in parts, for templates. What a chunk of a template does to the templates of a catalog is
taking in one template, and which one depends on the chunk alone (`templates_readChunk`). So the
chunks of a file make a list of templates to be taken in, and whether they are taken in one after
the other or first among themselves comes to the same, since merging templates is associative.
-/
import LangGen.Proofs.Catalog.Admission

namespace LangGen

open Line

/-! ## What payloads add -/

/-- What a payload adds to a template when variations go to `target`. -/
def Target.share (target : Target) : Payload → Template
  | .condition c | .default c => { name := [], branches := [⟨c, []⟩] }
  | .variation v =>
    if Variation.problem? v = none then
      match target with
      | .branch c => { name := [], branches := [⟨c, [v]⟩] }
      | _ => { name := [], variations := [v] }
    else { name := [] }

/-- A settled draft absorbs a payload by taking in what the payload adds. -/
theorem Draft.absorb_eq_merge {t : Template} {target : Target}
    (ht : (t.branches.map Branch.condition).Nodup)
    (htarget : target = .template ∨ ∃ c ∈ t.branches.map Branch.condition, target = .branch c)
    (p : Payload) : ((⟨t, target⟩ : Draft).absorb p).template = t.merge (target.share p) := by
  have hopen : ∀ c : Text, p.condition? = some c →
      ((⟨t, target⟩ : Draft).absorb p).template = t.putBranch ⟨c, []⟩ := by
    intro c hp
    rw [absorb_branch _ hp, Template.putBranch]
    by_cases hc : c ∈ t.branches.map Branch.condition
    · rw [if_pos hc, upsert_of_absorbed hc fun b _ _ => rfl]
    · rw [if_neg hc, upsert_of_not_mem hc]
  cases p with
  | condition c => exact hopen c rfl
  | default c => exact hopen c rfl
  | variation v =>
    rw [absorb]
    by_cases hv : Variation.problem? v = none
    · rw [if_pos hv]
      rcases htarget with rfl | ⟨c, hc, rfl⟩
      · rw [Target.share, if_pos hv]
        · rfl
        · intro c hc; cases hc
      · rw [Target.share, if_pos hv]
        show ({ t with branches := changeLast _ _ t.branches } : Template) = t.putBranch ⟨c, [v]⟩
        rw [Template.putBranch, upsert_eq_changeLast ht hc fun _ => beq_iff_eq]
        rfl
    · rw [if_neg hv]
      rcases htarget with rfl | ⟨c, hc, rfl⟩ <;> simp only [Target.share, if_neg hv] <;> rfl

namespace Template

theorem grouped_concat_eq_merge {t : Template} (ht : (t.branches.map Branch.condition).Nodup)
    (ps : List Payload) (p : Payload) :
    t.grouped (ps ++ [p]) = (t.grouped ps).merge ((Draft.targetAfter ps).share p) := by
  have hnodup : ((t.grouped ps).branches.map Branch.condition).Nodup := by
    rw [conditions_grouped]; exact nodup_unite ht _
  have htarget : Draft.targetAfter ps = .template ∨
      ∃ c ∈ (t.grouped ps).branches.map Branch.condition, Draft.targetAfter ps = .branch c := by
    unfold Draft.targetAfter
    cases hc : (opened ps).getLast? with
    | none => exact .inl rfl
    | some c =>
      refine .inr ⟨c, ?_, rfl⟩
      rw [conditions_grouped, mem_unite]
      exact .inr (List.mem_of_getLast? hc)
  rw [← Draft.absorb_eq_merge hnodup htarget p, grouped_concat ht ps p]

/-- Grouping payloads into a template is grouping them by themselves and taking in the outcome. -/
theorem grouped_eq_merge {t : Template} (ht : (t.branches.map Branch.condition).Nodup) (name : Text)
    (ps : List Payload) : t.grouped ps = t.merge (({ name := name } : Template).grouped ps) := by
  induction ps using List.reverseRecOn with
  | nil => rw [grouped_nil, grouped_nil]; rfl
  | append_singleton ps p ih =>
    have hempty : (({ name := name } : Template).branches.map Branch.condition).Nodup := List.nodup_nil
    have hnodup : ((({ name := name } : Template).grouped ps).branches.map Branch.condition).Nodup := by
      rw [conditions_grouped]; exact nodup_unite hempty _
    rw [grouped_concat_eq_merge ht, ih, merge_assoc hnodup, grouped_concat_eq_merge hempty]

end Template

/-! ## What chunks add -/

namespace Catalog

/-- The template that a chunk describes: its payloads grouped by themselves. -/
def templateOf? (chunk : Text) : Option Template :=
  match Chunk.kind? (Text.trim chunk), Text.lines (Text.trim chunk) with
  | some .template, header :: body =>
    some (({ name := Text.trim (header.drop 1) } : Template).grouped (body.filterMap payload?))
  | _, _ => none

variable {strict : Bool} {c d : Catalog}

theorem templates_readTemplate (hc : c.Distinct) {header name : Text} {body : List Text}
    (hname : Text.trim (header.drop 1) = name) (hok : (c.readTemplate strict header body).failure = none) :
    (c.readTemplate strict header body).state.templates =
      upsert Template.name Template.merge c.templates
        (({ name := name } : Template).grouped (body.filterMap payload?)) := by
  obtain ⟨-, hbody, -⟩ := (readTemplate_succeeds strict c body hname).1 hok
  have hgrouped := settle_readBody hc hbody
  rw [readTemplate_state hname hok]
  dsimp only
  cases hfound : c.lastTemplate? name with
  | some t =>
    rw [templateOr, hfound, Option.getD_some] at hgrouped
    obtain ⟨hmem, htname⟩ := lastTemplate?_eq_some hfound
    have hkey : name ∈ c.templates.map Template.name := List.mem_map.2 ⟨t, hmem, htname⟩
    dsimp only [putTemplate]
    rw [hgrouped, upsert_eq_changeLast hc.templates hkey fun _ => beq_iff_eq]
    show changeLast (fun u => u.name == t.name) _ c.templates = _
    rw [htname]
    refine changeLast_congr fun u hu hp => ?_
    -- the template that is put back is the only one of its name
    have hut : u = t :=
      List.inj_on_of_nodup_map hc.templates hu hmem ((eq_of_beq hp).trans htname.symm)
    rw [hut]
    exact Template.grouped_eq_merge (hc.each t hmem).conditions name _
  | none =>
    rw [templateOr, hfound, Option.getD_none] at hgrouped
    dsimp only
    rw [hgrouped, upsert_of_not_mem (lastTemplate?_eq_none hfound)]

/-- A chunk that is read without failure takes in the template that it describes, if it describes one. -/
theorem templates_readChunk (hc : c.Distinct) {chunk : Text}
    (hok : (c.readChunk strict chunk).failure = none) :
    (c.readChunk strict chunk).state.templates =
      upsertAll Template.name Template.merge c.templates (templateOf? chunk).toList := by
  have hstep := readChunk_step hok
  generalize (c.readChunk strict chunk).state = c' at hstep ⊢
  unfold templateOf?
  cases hstep with
  | template hkind hlines hok =>
    rw [hkind, hlines]
    exact templates_readTemplate hc rfl hok
  | reference hkind =>
    rw [hkind]
    rfl
  | entity hkind =>
    rw [hkind]
    exact defineEntity_templates ..

/-! ## Runs -/

/-- Reads a chunk and tells its place on failure. -/
def readPlaced (strict : Bool) (source : Option Text) (n : Nat) (c : Catalog) (chunk : Text) :
    Outcome Catalog :=
  (readChunk strict c chunk).within { file := source, chunk := some n }

variable {source : Option Text}

theorem readPlaced_succeeds (n : Nat) (c : Catalog) (chunk : Text) :
    (readPlaced strict source n c chunk).failure = none ↔ (c.readChunk strict chunk).failure = none :=
  Outcome.within_failure_eq_none _ _

theorem Distinct.readChunk (hc : c.Distinct) (strict : Bool) (chunk : Text) :
    (c.readChunk strict chunk).state.Distinct :=
  hc.effect (readChunk_effect strict c chunk)

theorem Distinct.readChunks (hc : c.Distinct) (strict : Bool) (source : Option Text) (chunks : List Text) :
    (readChunks strict source c chunks).state.Distinct :=
  readChunks_keeps (fun _ _ hc he => hc.effect he) source hc chunks

/-- Chunks that are read without failure take in the templates that they describe. -/
theorem templates_readEach : ∀ (chunks : List Text) {n : Nat} {c : Catalog}, c.Distinct →
    (readEach (readPlaced strict source) n c chunks).failure = none →
    (readEach (readPlaced strict source) n c chunks).state.templates =
      upsertAll Template.name Template.merge c.templates (chunks.filterMap templateOf?)
  | [], _, _, _, _ => rfl
  | chunk :: chunks, n, c, hc, hok => by
    obtain ⟨hchunk, hrest⟩ := (readEach_succeeds_cons ..).1 hok
    have hfirst := templates_readChunk hc ((readPlaced_succeeds n c chunk).1 hchunk)
    have hothers := templates_readEach chunks (hc.readChunk strict chunk) hrest
    rw [readEach_cons_of_succeeds hchunk]
    refine hothers.trans ?_
    rw [hfirst, ← upsertAll_append, List.filterMap_cons]
    cases templateOf? chunk <;> rfl

theorem nodup_of_templateOf? {chunk : Text} {t : Template} (h : templateOf? chunk = some t) :
    (t.branches.map Branch.condition).Nodup := by
  unfold templateOf? at h
  split at h
  · cases h
    rw [Template.conditions_grouped]
    exact nodup_unite List.nodup_nil _
  · cases h

/-- A catalog with the templates of another one taken in holds all that these hold. -/
theorem within_of_templates (hd : d.Distinct) {ts : List Template}
    (h : d.templates = upsertAll Template.name Template.merge ts c.templates) : c.Within d := by
  intro name
  unfold templateOr
  cases hfound : c.lastTemplate? name with
  | none => exact ⟨fun _ hv => (by cases hv), fun _ hb => (by cases hb)⟩
  | some t =>
    obtain ⟨hmem, hname⟩ := lastTemplate?_eq_some hfound
    obtain ⟨u, hu, huname, hwithin⟩ := exists_mem_upsertAll (R := Template.Within) Template.merge_name
      Template.Within.refl Template.within_merge_right (fun t u v h => h.trans (u.within_merge_left v)) ts c.templates t
      hmem
    rw [← h] at hu
    have hlast : d.lastTemplate? name = some u := by
      refine findLast?_eq_some_of_mem hd.templates hu fun v => ?_
      rw [huname, hname]
      exact beq_iff_eq
    rw [hlast]
    exact hwithin

/-- Chunks that are read without failure are so into every catalog that holds other templates before. -/
theorem readEach_succeeds_mono (ts : List Template) : ∀ (chunks : List Text) {n m : Nat} {c d : Catalog},
    c.Distinct → d.Distinct → d.templates = upsertAll Template.name Template.merge ts c.templates →
    (readEach (readPlaced strict source) n c chunks).failure = none →
    (readEach (readPlaced strict source) m d chunks).failure = none
  | [], _, _, _, _, _, _, _, _ => rfl
  | chunk :: chunks, n, m, c, d, hc, hd, h, hok => by
    obtain ⟨hchunk, hrest⟩ := (readEach_succeeds_cons ..).1 hok
    rw [readPlaced_succeeds] at hchunk
    have hchunk' := readChunk_succeeds_mono hc hd (within_of_templates hd h) hchunk
    rw [readEach_succeeds_cons, readPlaced_succeeds]
    refine ⟨hchunk', readEach_succeeds_mono ts chunks (hc.readChunk strict chunk)
      (hd.readChunk strict chunk) ?_ hrest⟩
    show (d.readChunk strict chunk).state.templates =
      upsertAll Template.name Template.merge ts (c.readChunk strict chunk).state.templates
    rw [templates_readChunk hd hchunk', templates_readChunk hc hchunk, h]
    apply templates_merge_assoc hc.templates fun t ht => (hc.each t ht).conditions
    intro t ht
    exact nodup_of_templateOf? (Option.mem_toList.1 ht)

/-! ## Parts -/

variable {chunks₁ chunks₂ : List Text}

/-- Chunks that are read without failure by themselves are so after others that are. -/
theorem readChunks_append_succeeds (h₁ : (readChunks strict source {} chunks₁).failure = none)
    (h₂ : (readChunks strict source {} chunks₂).failure = none) :
    (readChunks strict source {} (chunks₁ ++ chunks₂)).failure = none := by
  have happend : readChunks strict source {} (chunks₁ ++ chunks₂) = readEach (readPlaced strict source) _ _ _ :=
    readEach_append_of_succeeds chunks₁ chunks₂ h₁
  rw [happend]
  refine readEach_succeeds_mono (readChunks strict source {} chunks₁).state.templates chunks₂
    Distinct.empty (Distinct.empty.readChunks strict source chunks₁) ?_ h₂
  rfl

/-- Chunks that are read without failure in two parts are so in one go, and the templates are those
of the first part with those of the second merged in. -/
theorem templates_readChunks_append (h₁ : (readChunks strict source {} chunks₁).failure = none)
    (h₂ : (readChunks strict source {} chunks₂).failure = none) :
    (readChunks strict source {} (chunks₁ ++ chunks₂)).failure = none ∧
      (readChunks strict source {} (chunks₁ ++ chunks₂)).state.templates =
        ((readChunks strict source {} chunks₁).state.merge
          (readChunks strict source {} chunks₂).state).templates := by
  have hsucceeds := readChunks_append_succeeds h₁ h₂
  have hdescribed : ∀ chunks : List Text, (readChunks strict source {} chunks).failure = none →
      (readChunks strict source {} chunks).state.templates =
        upsertAll Template.name Template.merge [] (chunks.filterMap templateOf?) := fun chunks h =>
    templates_readEach chunks Distinct.empty h
  have hnodup : ∀ t ∈ chunks₂.filterMap templateOf?, (t.branches.map Branch.condition).Nodup := by
    intro t ht
    obtain ⟨chunk, -, hchunk⟩ := List.mem_filterMap.1 ht
    exact nodup_of_templateOf? hchunk
  refine ⟨hsucceeds, ?_⟩
  show _ = upsertAll Template.name Template.merge (readChunks strict source {} chunks₁).state.templates
    (readChunks strict source {} chunks₂).state.templates
  rw [hdescribed _ hsucceeds, hdescribed _ h₁, hdescribed _ h₂, List.filterMap_append, upsertAll_append]
  exact @templates_merge_assoc [] _ List.nodup_nil (fun _ h => by cases h) hnodup _

/-- A template that is met again in the second part, and there again: its branches come in another
order, and the last chunk opens the default branch by its condition. -/
theorem templates_readChunks_append_resumed :
    let chunks₁ := ["# t\n- a\n- IF: x > 1\n- b", "# u\n- c"].map String.toList
    let chunks₂ := ["# t\n- d\n- a\n- ELSE:\n- e\n- IF: x > 1\n- f", "# v\n- ELSE:",
      "# t\n- IF: ELSE:\n- g\n- e"].map String.toList
    ((readChunks true none {} chunks₁).failure = none ∧ (readChunks true none {} chunks₂).failure = none) ∧
      (readChunks true none {} (chunks₁ ++ chunks₂)).failure = none ∧
      (readChunks true none {} (chunks₁ ++ chunks₂)).state.templates =
        [⟨"t".toList, ["a".toList, "d".toList], [⟨"x > 1".toList, ["b".toList, "f".toList]⟩,
            ⟨"ELSE:".toList, ["e".toList, "g".toList]⟩]⟩,
          ⟨"u".toList, ["c".toList], []⟩, ⟨"v".toList, [], [⟨"ELSE:".toList, []⟩]⟩] := by
  intro chunks₁ chunks₂
  have h₁ : (readChunks true none {} chunks₁).failure = none := by decide +kernel
  have h₂ : (readChunks true none {} chunks₂).failure = none := by decide +kernel
  obtain ⟨hsucceeds, htemplates⟩ := templates_readChunks_append h₁ h₂
  refine ⟨⟨h₁, h₂⟩, hsucceeds, htemplates.trans ?_⟩
  decide +kernel

end Catalog

end LangGen
