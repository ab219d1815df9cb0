/-
Templates that hold nothing. Reading only adds to a template that is stored, so that it never takes
the last variation or branch away; but a new template is stored before it is seen to be empty, and
then it stays. Such a reading reports the name of the template, and there is no other way to an
empty one (`emptyNames_reported`).
-/
import LangGen.Proofs.Catalog.Admission
import LangGen.Proofs.Catalog.Place
import LangGen.Proofs.Catalog.Shelf

namespace LangGen

open Line

/-! ## Reports -/

/-- The name of the template that a failure reports to hold nothing. -/
def Failure.vacant? (f : Failure) : Option Text :=
  match f.fault with
  | .emptyTemplate name none => some name
  | _ => none

/-- The name of the template that an outcome reports to hold nothing. -/
def Outcome.vacant? {σ : Type} (o : Outcome σ) : Option Text := o.failure.bind Failure.vacant?

theorem Outcome.vacant?_within {σ : Type} (o : Outcome σ) (p : Place) : (o.within p).vacant? = o.vacant? := by
  rcases o with ⟨s, _ | f⟩ <;> rfl

namespace Body

theorem readLine_vacant? (strict : Bool) (b : Body) (line : Text) : (b.readLine strict line).vacant? = none := by
  have hopen : ∀ (b : Body) condition needs, (b.openBranch condition needs).vacant? = none := by
    intro b condition needs
    unfold openBranch
    split <;> rfl
  have hread := readLine_lineRead strict b line
  generalize b.readLine strict line = o at hread ⊢
  cases hread with
  | blank => rfl
  | undecorated => rfl
  | @payload p =>
    cases p with
    | condition c => exact hopen _ c true
    | default c => exact hopen _ c false
    | variation v =>
      unfold readPayload addVariation
      dsimp only
      split <;> rfl

/-- No line reports a template. -/
theorem vacant?_of_readLines {strict : Bool} {b : Body} {lines : List Text} {f : Failure}
    (h : (readEach (readNumbered strict) 2 b lines).failure = some f) : f.vacant? = none := by
  obtain ⟨k, -, b', line, hf⟩ := readEach_failure lines 2 b h
  have hline : (readNumbered strict (2 + k) b' line).vacant? = none :=
    (Outcome.vacant?_within _ _).trans (readLine_vacant? strict b' line)
  unfold Outcome.vacant? at hline
  rwa [hf] at hline

end Body

/-! ## What reading adds -/

namespace Draft

theorem within_settle (d : Draft) : d.template.Within d.settle.template := by
  rcases d with ⟨t, _ | c | b⟩
  · exact .refl t
  · exact .refl t
  · refine ⟨fun v hv => hv, fun c hc => ?_⟩
    show c ∈ (t.branches ++ [b]).map Branch.condition
    rw [List.map_append]
    exact List.mem_append_left _ hc

theorem within_addVariation (d : Draft) (v : Text) : d.template.Within (d.addVariation v).template := by
  rcases d with ⟨t, _ | c | b⟩
  · exact ⟨fun w hw => mem_addNew.2 (.inl hw), fun c hc => hc⟩
  · have hkey : ∀ b : Branch, (b.condition == c) = true → (b.addVariation v).condition = b.condition :=
      fun _ _ => rfl
    refine ⟨fun w hw => hw, fun c' hc' => ?_⟩
    show c' ∈ (changeLast _ _ t.branches).map Branch.condition
    rw [map_key_changeLast hkey]
    exact hc'
  · exact .refl t

/-- No payload takes anything away. -/
theorem Step.within {d d' : Draft} {p : Payload} (h : Step d p d') : d.template.Within d'.template := by
  cases h with
  | ignored => exact .refl _
  | added => exact within_addVariation d _
  | reopened => exact within_settle d
  | opened => exact within_settle d
  | refused => exact within_settle d

end Draft

theorem Body.within_after (strict : Bool) (b : Body) (lines : List Text) :
    b.draft.template.Within (b.after strict lines).draft.template := by
  refine after_keeps (P := fun b' => b.draft.template.Within b'.draft.template) ?_ (.refl _) lines
  intro b' line h
  rcases readLine_cases strict b' line with hs | ⟨-, hs | ⟨p, -, hs⟩⟩
  · rw [hs]; exact h
  · rw [hs]; exact h
  · exact h.trans hs.within

/-! ## Chunks -/

namespace Catalog

/-- The names of the templates that hold nothing. -/
def emptyNames (c : Catalog) : List Text := (c.templates.filter Template.isEmpty).map Template.name

theorem mem_emptyNames {c : Catalog} {name : Text} :
    name ∈ c.emptyNames ↔ ∃ t ∈ c.templates, t.isEmpty = true ∧ t.name = name := by
  simp [emptyNames, and_assoc]

/-- What reading leaves of empty templates: those that were there may stay, and the one that is
reported is there. -/
structure Reported (c : Catalog) (o : Outcome Catalog) : Prop where
  known : ∀ name ∈ o.state.emptyNames, name ∈ c.emptyNames ∨ o.vacant? = some name
  stored : ∀ name, o.vacant? = some name → name ∈ o.state.emptyNames

variable {c : Catalog}

theorem Reported.of_templates {o : Outcome Catalog} (h : o.state.templates = c.templates) (ho : o.vacant? = none) :
    c.Reported o := by
  refine ⟨fun name hname => .inl ?_, fun name hname => by rw [ho] at hname; cases hname⟩
  unfold emptyNames at hname ⊢
  rwa [h] at hname

/-- What is put back in place of a template that it contains is empty only if that one was. -/
theorem mem_emptyNames_putTemplate {t t' : Template} (ht : t ∈ c.templates) (hname : t'.name = t.name)
    (hwithin : t.Within t') {name : Text} (h : name ∈ (c.putTemplate t').emptyNames) : name ∈ c.emptyNames := by
  obtain ⟨u, hu, hempty, rfl⟩ := mem_emptyNames.1 h
  refine forall_mem_changeLast (P := fun u => u.isEmpty = true → u.name ∈ c.emptyNames) ?_ ?_ u hu hempty
  · intro u hu hempty
    exact mem_emptyNames.2 ⟨u, hu, hempty, rfl⟩
  · intro u _ _ hempty
    exact mem_emptyNames.2 ⟨t, ht, hwithin.isEmpty hempty, hname.symm⟩

theorem extendTemplate_reported {t : Template} (ht : c.lastTemplate? t.name = some t) (strict : Bool)
    (body : List Text) : c.Reported (c.extendTemplate strict t body) := by
  have hmem := (lastTemplate?_eq_some ht).1
  have hwithin := Body.within_after strict ⟨c.entities, ⟨t, .template⟩⟩ body
  have hname := Body.after_name strict ⟨c.entities, ⟨t, .template⟩⟩ body
  unfold Body.after at hwithin hname
  unfold extendTemplate
  dsimp only
  generalize hread : readEach (Body.readNumbered strict) 2 ⟨c.entities, ⟨t, .template⟩⟩ body = o at *
  cases hf : o.failure with
  | some f =>
    have hvacant : f.vacant? = none := Body.vacant?_of_readLines (by rw [hread, hf])
    refine ⟨fun name h => .inl (mem_emptyNames_putTemplate (c := { c with entities := o.state.entities })
      hmem hname hwithin h), fun name h => ?_⟩
    change f.vacant? = some name at h
    rw [hvacant] at h
    cases h
  | none =>
    have hsettled := (Draft.settle_name o.state.draft).trans hname
    refine ⟨fun name h => .inl (mem_emptyNames_putTemplate (c := { c with entities := o.state.entities })
      hmem hsettled (hwithin.trans (Draft.within_settle _)) h), fun name h => ?_⟩
    dsimp only [Outcome.vacant?] at h
    split at h
    · rename_i hempty
      cases h
      have hput := lastTemplate?_putTemplate (c := { c with entities := o.state.entities }) ht hsettled
      exact mem_emptyNames.2 ⟨_, (lastTemplate?_eq_some hput).1, hempty, rfl⟩
    · cases h

theorem newTemplate_reported (c : Catalog) (strict : Bool) (name : Text) (body : List Text) :
    c.Reported (c.newTemplate strict name body) := by
  unfold newTemplate
  dsimp only
  generalize hread : readEach (Body.readNumbered strict) 2 ⟨c.entities, ⟨{ name := name }, .template⟩⟩ body = o
  cases hf : o.failure with
  | some f => exact .of_templates rfl (Body.vacant?_of_readLines (by rw [hread, hf]))
  | none =>
    -- the template that is stored last is the only one that can be new among the empty ones
    refine ⟨fun name' h => ?_, fun name' h => ?_⟩
    · obtain ⟨t, ht, hempty, rfl⟩ := mem_emptyNames.1 h
      rcases List.mem_append.1 ht with ht | ht
      · exact .inl (mem_emptyNames.2 ⟨t, ht, hempty, rfl⟩)
      · rw [List.mem_singleton] at ht
        subst ht
        right
        dsimp only [Outcome.vacant?]
        rw [if_pos hempty]
        rfl
    · dsimp only [Outcome.vacant?] at h
      split at h
      · rename_i hempty
        cases h
        exact mem_emptyNames.2 ⟨_, List.mem_append_right _ (List.mem_singleton_self _), hempty, rfl⟩
      · cases h

theorem readChunk_reported (c : Catalog) (strict : Bool) (chunk : Text) : c.Reported (c.readChunk strict chunk) := by
  unfold readChunk Chunk.classify
  dsimp only
  split
  · rename_i f hf
    split at hf
    · cases hf
    · cases hf; exact .of_templates rfl rfl
  · unfold readTemplate
    dsimp only
    split
    · exact .of_templates rfl rfl
    · split
      · rename_i t ht
        exact extendTemplate_reported (by rw [(lastTemplate?_eq_some ht).2]; exact ht) strict _
      · exact newTemplate_reported c strict _ _
  · unfold readReference
    split <;> exact .of_templates rfl rfl
  · unfold readEntity
    split
    · exact .of_templates (defineEntity_templates ..) rfl
    · exact .of_templates rfl rfl
  · exact .of_templates rfl rfl

/-! ## Runs -/

/-- An empty template that a reading leaves behind was empty before, or it is the one that the
reading reports. -/
theorem readChunks_reported (strict : Bool) (source : Option Text) (c : Catalog) (chunks : List Text) :
    c.Reported (readChunks strict source c chunks) := by
  have hrun : ∀ (chunks : List Text) (n : Nat) (c : Catalog),
      c.Reported (readEach (fun n c chunk =>
        (readChunk strict c chunk).within { file := source, chunk := some n }) n c chunks) := by
    intro chunks
    induction chunks with
    | nil => exact fun n c => .of_templates rfl rfl
    | cons chunk chunks ih =>
      intro n c
      have hchunk : c.Reported ((readChunk strict c chunk).within { file := source, chunk := some n }) := by
        obtain ⟨hknown, hstored⟩ := readChunk_reported c strict chunk
        exact ⟨by rw [Outcome.vacant?_within]; exact hknown, by rw [Outcome.vacant?_within]; exact hstored⟩
      rw [readEach_cons]
      split
      · rename_i hok
        refine ⟨fun name hname => ?_, (ih (n + 1) _).stored⟩
        rcases (ih (n + 1) _).known name hname with h | h
        · refine (hchunk.known name h).imp id fun hvacant => ?_
          unfold Outcome.vacant? at hvacant
          rw [hok] at hvacant
          cases hvacant
        · exact .inr h
      · exact hchunk
  exact hrun chunks 0 c

/-- Merging two catalogs leaves no template empty that was not so in one of them. -/
theorem emptyNames_merge {c other : Catalog} {name : Text} (h : name ∈ (c.merge other).emptyNames) :
    name ∈ c.emptyNames ∨ name ∈ other.emptyNames := by
  obtain ⟨t, ht, hempty, rfl⟩ := mem_emptyNames.1 h
  refine forall_mem_upsertAll
    (P := fun t => t.isEmpty = true → t.name ∈ c.emptyNames ∨ t.name ∈ other.emptyNames) ?_ ?_ ?_ t ht hempty
  · exact fun t ht hempty => .inl (mem_emptyNames.2 ⟨t, ht, hempty, rfl⟩)
  · exact fun t ht hempty => .inr (mem_emptyNames.2 ⟨t, ht, hempty, rfl⟩)
  · exact fun t u ht _ hempty => ht ((t.within_merge_left u).isEmpty hempty)

end Catalog

namespace Shelf

/-- The name of the template that a step reports to hold nothing. -/
def Step.vacant? (s : Shelf) : Step → Option Text
  | .readChunks slot strict source chunks => (Catalog.readChunks strict source (s slot) chunks).vacant?
  | .readContent slot strict source content => (Catalog.readContent strict source (s slot) content).vacant?
  | .merge _ _ => none

theorem Step.mem_emptyNames_apply {s : Shelf} (step : Step) {slot : Nat} {name : Text}
    (h : name ∈ (step.apply s slot).emptyNames) :
    (∃ i, name ∈ (s i).emptyNames) ∨ step.vacant? s = some name := by
  have hput : ∀ {i : Nat} {c : Catalog}, name ∈ (s.put i c slot).emptyNames →
      name ∈ c.emptyNames ∨ name ∈ (s slot).emptyNames := by
    intro i c h
    unfold put at h
    split at h
    · exact .inl h
    · exact .inr h
  cases step with
  | readChunks i strict source chunks =>
    rcases hput h with h | h
    · exact ((Catalog.readChunks_reported strict source (s i) chunks).known name h).imp (⟨i, ·⟩) id
    · exact .inl ⟨slot, h⟩
  | readContent i strict source content =>
    rcases hput h with h | h
    · exact ((Catalog.readChunks_reported strict source (s i) _).known name h).imp (⟨i, ·⟩) id
    · exact .inl ⟨slot, h⟩
  | merge i other =>
    rcases hput h with h | h
    · exact .inl ((Catalog.emptyNames_merge h).elim (⟨i, ·⟩) (⟨other, ·⟩))
    · exact .inl ⟨slot, h⟩

/-- An empty template in any slot after a run has been reported by a step of the run. -/
theorem run_reported (steps : List Step) : ∀ {slot : Nat} {name : Text}, name ∈ (run steps slot).emptyNames →
    ∃ before step after, steps = before ++ step :: after ∧ step.vacant? (run before) = some name := by
  induction steps using List.reverseRecOn with
  | nil => intro slot name h; cases h
  | append_singleton steps step ih =>
    intro slot name h
    have hrun : run (steps ++ [step]) = step.apply (run steps) := List.foldl_concat ..
    rw [hrun] at h
    rcases step.mem_emptyNames_apply h with ⟨i, hi⟩ | hvacant
    · obtain ⟨before, first, after, rfl, hfirst⟩ := ih hi
      exact ⟨before, first, after ++ [step], by simp, hfirst⟩
    · exact ⟨steps, step, [], rfl, hvacant⟩

end Shelf

/-- A reading leaves no empty template behind but those that were there and the one that it reports,
which is there then; so it keeps a catalog without empty templates so exactly if it reports none.
After any run of readings and merges, each empty template has been reported by its name. -/
theorem Catalog.emptyNames_reported (strict : Bool) (source : Option Text) (c : Catalog) (chunks : List Text)
    (steps : List Shelf.Step) (slot : Nat) :
    c.Reported (readChunks strict source c chunks) ∧
      (c.emptyNames = [] → ((readChunks strict source c chunks).state.emptyNames = [] ↔
        (readChunks strict source c chunks).vacant? = none)) ∧
      ∀ name ∈ (Shelf.run steps slot).emptyNames,
        ∃ before step after, steps = before ++ step :: after ∧ step.vacant? (Shelf.run before) = some name := by
  have hreported := readChunks_reported strict source c chunks
  refine ⟨hreported, fun hnone => ⟨fun hempty => ?_, fun hvacant => ?_⟩, fun name h => Shelf.run_reported steps h⟩
  · rw [Option.eq_none_iff_forall_ne_some]
    intro name hname
    have hstored := hreported.stored name hname
    rw [hempty] at hstored
    cases hstored
  · rw [List.eq_nil_iff_forall_not_mem]
    intro name hname
    rcases hreported.known name hname with h | h
    · rw [hnone] at h
      cases h
    · rw [hvacant] at h
      cases h

/-- A header without lines: the reading fails, and the template stays. -/
theorem Catalog.readChunks_leaves_empty :
    ¬ ∀ (strict : Bool) (source : Option Text) (c : Catalog) (chunks : List Text), c.emptyNames = [] →
      (readChunks strict source c chunks).state.emptyNames = [] := by
  intro h
  have hnone := h false none {} ["# A".toList] rfl
  revert hnone
  decide +kernel

end LangGen
