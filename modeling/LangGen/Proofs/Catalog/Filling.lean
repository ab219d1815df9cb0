/-
Filling templates. The payloads of a chunk fill a template with variations and branches
(`Template.fill`), and nothing that is in a template goes away (`Template.KeptIn`). What payloads
have put into a template they find there for good: whatever becomes of the template, they change it
no more (`Template.fill_of_keptIn`). Conditions and variations may stand twice in a template;
variations go to the last branch of a condition.
-/
import LangGen.Proofs.Catalog.Admission
import LangGen.Proofs.Keyed.Last

namespace LangGen

open Line

/-! ## What stays -/

/-- Whether another branch has all variations of this one. -/
def Branch.KeptIn (b b' : Branch) : Prop := b.variations ⊆ b'.variations

namespace Branch

theorem KeptIn.refl (b : Branch) : b.KeptIn b := List.Subset.refl _

theorem KeptIn.trans (b b' b'' : Branch) (h : b.KeptIn b') (h' : b'.KeptIn b'') : b.KeptIn b'' := List.Subset.trans h h'

theorem keptIn_addVariation (b : Branch) (v : Text) : b.KeptIn (b.addVariation v) := fun _ hw => mem_addNew.2 (.inl hw)

end Branch

namespace Template

/-- Whether another template has all variations of this one, each in its place. -/
structure KeptIn (t u : Template) : Prop where
  variations : t.variations ⊆ u.variations
  branches : Covered Branch.condition Branch.KeptIn t.branches u.branches

variable {t u v : Template}

theorem KeptIn.refl (t : Template) : t.KeptIn t := ⟨List.Subset.refl _, .refl Branch.KeptIn.refl _⟩

theorem KeptIn.trans (h : t.KeptIn u) (h' : u.KeptIn v) : t.KeptIn v :=
  ⟨List.Subset.trans h.variations h'.variations, h.branches.trans Branch.KeptIn.trans h'.branches⟩

theorem KeptIn.conditions (h : t.KeptIn u) {c : Text} (hc : c ∈ t.branches.map Branch.condition) :
    c ∈ u.branches.map Branch.condition := h.branches.mem hc

/-- A template that keeps what is in another one is empty only if that one is. -/
theorem KeptIn.isEmpty (h : t.KeptIn u) (hu : u.isEmpty = true) : t.isEmpty = true :=
  Within.isEmpty ⟨h.variations, fun _ => h.conditions⟩ hu

/-- Whether a variation is where variations go. -/
def Has (t : Template) (w : Text) : Target → Prop
  | .template => w ∈ t.variations
  | .branch c => ∃ b, findLast? (·.condition == c) t.branches = some b ∧ w ∈ b.variations
  | .fresh _ => False

theorem Has.kept {w : Text} {target : Target} (hw : t.Has w target) (h : t.KeptIn u) : u.Has w target := by
  cases target with
  | template => exact h.variations hw
  | branch c =>
    obtain ⟨b, hb, hmem⟩ := hw
    obtain ⟨b', hb', hsub⟩ := h.branches c b hb
    exact ⟨b', hb', hsub hmem⟩
  | fresh b => cases hw

/-- Whether a template has all that payloads say, read one after the other with variations going to
`target`. -/
inductive HasAll (t : Template) : Target → List Payload → Prop
  | nil {target : Target} : HasAll t target []
  | branch {target : Target} {p : Payload} {c : Text} {ps : List Payload} (hp : p.condition? = some c)
      (hc : c ∈ t.branches.map Branch.condition) (h : HasAll t (.branch c) ps) : HasAll t target (p :: ps)
  | variation {target : Target} {w : Text} {ps : List Payload} (hw : Variation.problem? w = none → t.Has w target)
      (h : HasAll t target ps) : HasAll t target (.variation w :: ps)

end Template

/-! ## Payloads -/

namespace Draft

variable {t u : Template} {d : Draft} {w : Text}

theorem addVariation_of_has {target : Target} (h : t.Has w target) :
    (⟨t, target⟩ : Draft).addVariation w = ⟨t, target⟩ := by
  cases target with
  | template =>
    unfold addVariation Template.addVariation
    dsimp only
    rw [addNew_of_mem h]
  | branch c =>
    obtain ⟨b, hb, hmem⟩ := h
    have hfixed : changeLast (·.condition == c) (·.addVariation w) t.branches = t.branches := by
      refine changeLast_of_fixed fun b' hb' => ?_
      cases hb'.symm.trans hb
      rw [Branch.addVariation, addNew_of_mem hmem]
    unfold addVariation
    dsimp only
    rw [hfixed]
  | fresh b => cases h

/-- What a template has, it does not get again. -/
theorem absorb_of_hasAll {target : Target} {ps : List Payload} (h : t.HasAll target ps) :
    (ps.foldl absorb ⟨t, target⟩).template = t := by
  induction h with
  | nil => rfl
  | branch hp hc _ ih =>
    rw [List.foldl_cons, absorb_branch _ hp, if_pos hc]
    exact ih
  | @variation target w ps hw _ ih =>
    rw [List.foldl_cons]
    by_cases hproblem : Variation.problem? w = none
    · rw [absorb, if_pos hproblem, addVariation_of_has (hw hproblem)]
      exact ih
    · rw [absorb, if_neg hproblem]
      exact ih

theorem absorb_name (d : Draft) (p : Payload) : (d.absorb p).template.name = d.template.name := by
  cases p with
  | condition c => rfl
  | default c => rfl
  | variation w =>
    rw [absorb]
    split
    · exact addVariation_name d w
    · rfl

theorem keptIn_addVariation (d : Draft) (w : Text) : d.template.KeptIn (d.addVariation w).template := by
  rcases d with ⟨t, _ | c | b⟩
  · exact ⟨fun _ h => mem_addNew.2 (.inl h), .refl Branch.KeptIn.refl _⟩
  · exact ⟨List.Subset.refl _, .changeLast Branch.KeptIn.refl (fun _ => rfl) fun b => b.keptIn_addVariation w⟩
  · exact .refl t

theorem keptIn_absorb (d : Draft) (p : Payload) : d.template.KeptIn (d.absorb p).template := by
  have hopen : ∀ c, p.condition? = some c → d.template.KeptIn (d.absorb p).template := by
    intro c hp
    rw [absorb_branch d hp]
    refine ⟨List.Subset.refl _, ?_⟩
    dsimp only
    split
    · exact .refl Branch.KeptIn.refl _
    · rename_i hc
      exact .concat Branch.KeptIn.refl hc
  cases p with
  | condition c => exact hopen c rfl
  | default c => exact hopen c rfl
  | variation w =>
    rw [absorb]
    split
    · exact keptIn_addVariation d w
    · exact .refl _

theorem keptIn_foldl_absorb (ps : List Payload) (d : Draft) : d.template.KeptIn (ps.foldl absorb d).template := by
  induction ps generalizing d with
  | nil => exact .refl _
  | cons p ps ih => exact (keptIn_absorb d p).trans (ih _)

/-- Whether variations have a place to go to. -/
def Placed (d : Draft) : Prop :=
  match d.target with
  | .template => True
  | .branch c => c ∈ d.template.branches.map Branch.condition
  | .fresh _ => False

theorem has_addVariation (hd : d.Placed) (w : Text) : (d.addVariation w).template.Has w d.target := by
  rcases d with ⟨t, _ | c | b⟩
  · exact mem_addNew.2 (.inr rfl)
  · obtain ⟨b, hb⟩ := findLast?_key_of_mem (show c ∈ t.branches.map Branch.condition from hd)
    exact ⟨b.addVariation w, findLast?_changeLast hb fun _ h => h, mem_addNew.2 (.inr rfl)⟩
  · cases hd

theorem target_addVariation (hd : d.Placed) (w : Text) : (d.addVariation w).target = d.target := by
  rcases d with ⟨t, _ | c | b⟩
  · rfl
  · rfl
  · cases hd

theorem Placed.of_keptIn (hd : d.Placed) (h : d.template.KeptIn t) : Placed ⟨t, d.target⟩ := by
  rcases d with ⟨t', _ | c | b⟩
  · trivial
  · exact h.conditions hd
  · cases hd

/-- What payloads have said once stays in the template, whatever is read behind them. -/
theorem hasAll_of_absorb : ∀ {ps : List Payload} {d : Draft}, d.Placed → (ps.foldl absorb d).template.KeptIn u →
    u.HasAll d.target ps
  | [], _, _, _ => .nil
  | p :: ps, d, hd, hu => by
    have hkept : (d.absorb p).template.KeptIn u := (keptIn_foldl_absorb ps _).trans hu
    have hopen : ∀ c, p.condition? = some c → u.HasAll d.target (p :: ps) := by
      intro c hp
      have habsorb := absorb_branch d hp
      have hc : c ∈ (d.absorb p).template.branches.map Branch.condition := by
        rw [habsorb]
        dsimp only
        split
        · assumption
        · simp
      have htarget : (d.absorb p).target = .branch c := by rw [habsorb]
      have hplaced : (d.absorb p).Placed := by
        unfold Placed
        rw [htarget]
        exact hc
      have hrest := hasAll_of_absorb hplaced hu
      rw [htarget] at hrest
      exact .branch hp (hkept.conditions hc) hrest
    cases p with
    | condition c => exact hopen c rfl
    | default c => exact hopen c rfl
    | variation w =>
      rw [List.foldl_cons] at hu
      by_cases hw : Variation.problem? w = none
      · rw [absorb, if_pos hw] at hkept hu
        have hplaced : (d.addVariation w).Placed := by
          have h := hd.of_keptIn (keptIn_addVariation d w)
          rwa [← target_addVariation hd w] at h
        have hrest := hasAll_of_absorb hplaced hu
        rw [target_addVariation hd] at hrest
        exact .variation (fun _ => (has_addVariation hd w).kept hkept) hrest
      · rw [absorb, if_neg hw] at hu
        exact .variation (fun h => absurd h hw) (hasAll_of_absorb hd hu)

end Draft

/-! ## Filling -/

namespace Template

/-- The template once payloads have been read into it. -/
def fill (t : Template) (ps : List Payload) : Template := (ps.foldl Draft.absorb ⟨t, .template⟩).template

variable {t u : Template} {ps : List Payload}

theorem keptIn_fill (t : Template) (ps : List Payload) : t.KeptIn (t.fill ps) :=
  Draft.keptIn_foldl_absorb ps ⟨t, .template⟩

theorem fill_name (t : Template) (ps : List Payload) : (t.fill ps).name = t.name := by
  have hname : ∀ d : Draft, (ps.foldl Draft.absorb d).template.name = d.template.name := by
    induction ps with
    | nil => intro d; rfl
    | cons p ps ih => intro d; rw [List.foldl_cons, ih, Draft.absorb_name]
  exact hname ⟨t, .template⟩

/-- A template that keeps what payloads have made of another one is not changed by them. -/
theorem fill_of_keptIn (h : (t.fill ps).KeptIn u) : u.fill ps = u :=
  Draft.absorb_of_hasAll (Draft.hasAll_of_absorb (d := ⟨t, .template⟩) trivial h)

end Template

end LangGen
