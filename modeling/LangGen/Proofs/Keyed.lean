/-
Laws of lists whose members are told apart by a key. Uniting two lists appends the members of the
second that the first lacks, each once; combining by key adds keys in the same way and keeps the
members' properties; and where keys are distinct, changing the last member of a key is changing the
member of that key. Both ways of adding lists are associative (`unite_assoc`, `upsertAll_assoc`),
the second one where combining two members is.
-/
import LangGen.Keyed
import Mathlib.Data.List.Induction
import Mathlib.Data.List.Nodup

namespace LangGen

/-! ## Members without a key -/

section Plain

variable {α : Type} [DecidableEq α]

theorem mem_addNew {xs : List α} {x z : α} : z ∈ addNew xs x ↔ z ∈ xs ∨ z = x := by
  unfold addNew
  split
  · rename_i hx
    constructor
    · exact .inl
    · rintro (h | rfl); exact h; exact hx
  · simp

theorem nodup_addNew {xs : List α} (h : xs.Nodup) (x : α) : (addNew xs x).Nodup := by
  unfold addNew
  split
  · exact h
  · rename_i hx
    refine List.nodup_append.2 ⟨h, List.nodup_singleton x, fun a ha b hb => ?_⟩
    rw [List.mem_singleton] at hb; subst hb
    rintro rfl; exact hx ha

theorem mem_unite {xs ys : List α} {z : α} : z ∈ unite xs ys ↔ z ∈ xs ∨ z ∈ ys := by
  unfold unite
  induction ys generalizing xs with
  | nil => simp
  | cons y ys ih => rw [List.foldl_cons, ih, mem_addNew, List.mem_cons, or_assoc]

theorem forall_mem_addNew {P : α → Prop} {xs : List α} {x : α} (hxs : ∀ y ∈ xs, P y) (hx : P x) :
    ∀ y ∈ addNew xs x, P y := by
  intro y hy
  rcases mem_addNew.1 hy with hy | rfl
  · exact hxs y hy
  · exact hx

theorem forall_mem_unite {P : α → Prop} {xs ys : List α} (hxs : ∀ y ∈ xs, P y) (hys : ∀ y ∈ ys, P y) :
    ∀ y ∈ unite xs ys, P y := by
  intro y hy
  exact (mem_unite.1 hy).elim (hxs y) (hys y)

theorem nodup_unite {xs : List α} (h : xs.Nodup) (ys : List α) : (unite xs ys).Nodup := by
  unfold unite
  induction ys generalizing xs with
  | nil => exact h
  | cons y ys ih => exact ih (nodup_addNew h y)

theorem unite_concat (xs ys : List α) (y : α) : unite xs (ys ++ [y]) = addNew (unite xs ys) y := by
  simp [unite]

/-- The members of `ys` that are not in `xs`, each at its first occurrence. -/
def news (xs ys : List α) : List α := (ys.filter (· ∉ xs)).eraseDups

theorem mem_news {xs ys : List α} {z : α} : z ∈ news xs ys ↔ z ∈ ys ∧ z ∉ xs := by
  simp [news]

theorem news_concat (xs ys : List α) (y : α) :
    news xs (ys ++ [y]) = if y ∈ xs ∨ y ∈ ys then news xs ys else news xs ys ++ [y] := by
  unfold news
  rw [List.filter_append, List.eraseDups_append]
  by_cases hx : y ∈ xs
  · simp [hx]
  · by_cases hy : y ∈ ys <;> simp [hx, hy, List.removeAll, List.eraseDups_cons]

/-- Uniting two lists is appending what is new. -/
theorem unite_eq_append_news (xs ys : List α) : unite xs ys = xs ++ news xs ys := by
  induction ys using List.reverseRecOn with
  | nil => simp [unite, news]
  | append_singleton ys y ih =>
    rw [unite_concat, ih, news_concat]
    unfold addNew
    by_cases hx : y ∈ xs
    · simp [hx]
    · by_cases hy : y ∈ ys <;> simp [hx, hy, mem_news]

theorem addNew_of_mem {xs : List α} {x : α} (h : x ∈ xs) : addNew xs x = xs := if_pos h

theorem addNew_of_not_mem {xs : List α} {x : α} (h : x ∉ xs) : addNew xs x = xs ++ [x] := if_neg h

/-- Uniting with what is there already changes nothing. -/
theorem unite_of_subset {xs ys : List α} (h : ∀ y ∈ ys, y ∈ xs) : unite xs ys = xs := by
  rw [unite_eq_append_news, news, List.filter_eq_nil_iff.2 fun y hy => by simpa using h y hy]
  exact List.append_nil xs

theorem unite_nil_of_nodup {xs : List α} (h : xs.Nodup) : unite [] xs = xs := by
  induction xs using List.reverseRecOn with
  | nil => rfl
  | append_singleton xs x ih =>
    rw [← List.concat_eq_append, List.nodup_concat] at h
    rw [unite_concat, ih h.2, addNew_of_not_mem h.1]

theorem unite_assoc (xs ys zs : List α) : unite (unite xs ys) zs = unite xs (unite ys zs) := by
  induction zs using List.reverseRecOn with
  | nil => rfl
  | append_singleton zs z ih =>
    rw [unite_concat, unite_concat, ih]
    by_cases h : z ∈ unite ys zs
    · rw [addNew_of_mem h, addNew_of_mem (mem_unite.2 (.inr h))]
    · rw [addNew_of_not_mem h, unite_concat]

end Plain

/-! ## Combining by key -/

section Upsert

variable {α κ : Type} [DecidableEq κ] {key : α → κ} {combine : α → α → α}

/-- Combining keeps the keys as they are and adds a new one at the end. -/
theorem map_key_upsert (hkey : ∀ y x, key (combine y x) = key y) (xs : List α) (x : α) :
    (upsert key combine xs x).map key = addNew (xs.map key) (key x) := by
  induction xs with
  | nil => rfl
  | cons y ys ih =>
    unfold upsert
    split
    · rename_i h
      simp [addNew, hkey, h]
    · rename_i h
      rw [List.map_cons, ih]
      unfold addNew
      by_cases hx : key x ∈ ys.map key <;> simp [hx, Ne.symm h]

theorem map_key_upsertAll (hkey : ∀ y x, key (combine y x) = key y) (xs ys : List α) :
    (upsertAll key combine xs ys).map key = unite (xs.map key) (ys.map key) := by
  unfold upsertAll unite
  induction ys generalizing xs with
  | nil => rfl
  | cons y ys ih => rw [List.foldl_cons, ih, map_key_upsert hkey, List.map_cons, List.foldl_cons]

/-- What all members have and combining keeps, all members have afterwards. -/
theorem forall_mem_upsert {P : α → Prop} {xs : List α} {x : α} (hxs : ∀ y ∈ xs, P y) (hx : P x)
    (hc : ∀ y, P y → P (combine y x)) : ∀ y ∈ upsert key combine xs x, P y := by
  induction xs with
  | nil => simpa [upsert] using hx
  | cons y ys ih =>
    rw [List.forall_mem_cons] at hxs
    unfold upsert
    split
    · exact List.forall_mem_cons.2 ⟨hc y hxs.1, hxs.2⟩
    · exact List.forall_mem_cons.2 ⟨hxs.1, ih hxs.2⟩

theorem forall_mem_upsertAll {P : α → Prop} {xs ys : List α} (hxs : ∀ y ∈ xs, P y)
    (hys : ∀ y ∈ ys, P y) (hc : ∀ y x, P y → P x → P (combine y x)) :
    ∀ y ∈ upsertAll key combine xs ys, P y := by
  unfold upsertAll
  induction ys generalizing xs with
  | nil => exact hxs
  | cons y ys ih =>
    rw [List.forall_mem_cons] at hys
    exact ih (forall_mem_upsert hxs hys.1 fun z hz => hc z y hz hys.1) hys.2

/-! ### Where a member goes -/

theorem upsert_of_not_mem {xs : List α} {x : α} (h : key x ∉ xs.map key) :
    upsert key combine xs x = xs ++ [x] := by
  induction xs with
  | nil => rfl
  | cons y ys ih =>
    rw [List.map_cons, List.mem_cons, not_or] at h
    rw [upsert, if_neg (Ne.symm h.1), ih h.2]
    rfl

/-- A member that adds nothing to those of its key changes nothing. -/
theorem upsert_of_absorbed {xs : List α} {x : α} (h : key x ∈ xs.map key)
    (hc : ∀ y ∈ xs, key y = key x → combine y x = y) : upsert key combine xs x = xs := by
  induction xs with
  | nil => cases h
  | cons y ys ih =>
    rw [List.forall_mem_cons] at hc
    unfold upsert
    split
    · rename_i hy; rw [hc.1 hy]
    · rename_i hy; rw [ih (by simpa [Ne.symm hy] using h) hc.2]

/-- Where the keys are distinct, a member that combines to itself is there already. -/
theorem upsert_of_mem {xs : List α} (hxs : (xs.map key).Nodup) {x : α} (h : x ∈ xs)
    (hc : combine x x = x) : upsert key combine xs x = xs := by
  refine upsert_of_absorbed (List.mem_map_of_mem h) fun y hy hkey => ?_
  rw [List.inj_on_of_nodup_map hxs hy h hkey, hc]

/-- Where the keys are distinct and one of them is taken, combining changes the last member of it. -/
theorem upsert_eq_changeLast {xs : List α} (hxs : (xs.map key).Nodup) {x : α}
    (h : key x ∈ xs.map key) {p : α → Bool} (hp : ∀ y, p y = true ↔ key y = key x) :
    upsert key combine xs x = changeLast p (combine · x) xs := by
  induction xs with
  | nil => cases h
  | cons y ys ih =>
    rw [List.map_cons, List.nodup_cons] at hxs
    by_cases hy : key y = key x
    · have hys : ys.any p = false := by
        rw [List.any_eq_false]
        intro z hz hpz
        exact hxs.1 (List.mem_map.2 ⟨z, hz, ((hp z).1 hpz).trans hy.symm⟩)
      rw [upsert, if_pos hy, changeLast, hys, if_neg (by simp), if_pos ((hp y).2 hy)]
    · have hx : key x ∈ ys.map key := by simpa [Ne.symm hy] using h
      obtain ⟨z, hz, hkey⟩ := List.mem_map.1 hx
      have hys : ys.any p = true := List.any_eq_true.2 ⟨z, hz, (hp z).2 hkey⟩
      rw [upsert, if_neg hy, ih hxs.2 hx, changeLast, if_pos hys]

/-- Combining commutes with a change of the members that the combination respects. -/
theorem map_upsert {β : Type} {key' : β → κ} {combine' : β → β → β} (f : α → β) {x : α} {x' : β}
    (hx : key' x' = key x) (hkey : ∀ y, key' (f y) = key y)
    (hf : ∀ y, key y = key x → f (combine y x) = combine' (f y) x') (hnew : f x = x') (xs : List α) :
    (upsert key combine xs x).map f = upsert key' combine' (xs.map f) x' := by
  induction xs with
  | nil => simp [upsert, hnew]
  | cons y ys ih =>
    by_cases hy : key y = key x
    · simp [upsert, hkey, hx, hy, hf y hy]
    · simp [upsert, hkey, hx, hy, ih]

theorem map_upsertAll {β : Type} {key' : β → κ} {combine' : β → β → β} (f : α → β)
    (hkey : ∀ y, key' (f y) = key y) {ys : List α}
    (hf : ∀ y, ∀ x ∈ ys, key y = key x → f (combine y x) = combine' (f y) (f x)) (xs : List α) :
    (upsertAll key combine xs ys).map f = upsertAll key' combine' (xs.map f) (ys.map f) := by
  induction ys generalizing xs with
  | nil => rfl
  | cons y ys ih =>
    have hy := map_upsert f (hkey y) hkey (fun x => hf x y List.mem_cons_self) rfl xs
    show (upsertAll key combine (upsert key combine xs y) ys).map f =
      upsertAll key' combine' (upsert key' combine' (xs.map f) (f y)) (ys.map f)
    rw [ih (fun z x hx => hf z x (List.mem_cons_of_mem y hx)), hy]

/-- Where the keys are distinct, a member afterwards is an old one of another key, or an old one of
the key combined with the new one, or the new one. -/
theorem mem_upsert {xs : List α} (hxs : (xs.map key).Nodup) {x z : α} (h : z ∈ upsert key combine xs x) :
    (z ∈ xs ∧ key z ≠ key x) ∨ (∃ y ∈ xs, key y = key x ∧ z = combine y x) ∨
      (key x ∉ xs.map key ∧ z = x) := by
  induction xs with
  | nil => exact .inr (.inr ⟨by simp, by simpa [upsert] using h⟩)
  | cons y ys ih =>
    rw [List.map_cons, List.nodup_cons] at hxs
    unfold upsert at h
    split at h
    · rename_i hy
      rcases List.mem_cons.1 h with rfl | h
      · exact .inr (.inl ⟨y, List.mem_cons_self, hy, rfl⟩)
      · exact .inl ⟨List.mem_cons_of_mem y h, fun hz => hxs.1 (List.mem_map.2 ⟨z, h, hz.trans hy.symm⟩)⟩
    · rename_i hy
      rcases List.mem_cons.1 h with rfl | h
      · exact .inl ⟨List.mem_cons_self, hy⟩
      · rcases ih hxs.2 h with ⟨hz, hne⟩ | ⟨w, hw, hkey, rfl⟩ | ⟨hnew, rfl⟩
        · exact .inl ⟨List.mem_cons_of_mem y hz, hne⟩
        · exact .inr (.inl ⟨w, List.mem_cons_of_mem y hw, hkey, rfl⟩)
        · exact .inr (.inr ⟨by simpa [Ne.symm hy] using hnew, rfl⟩)

/-! ### The laws of combining -/

/-- Members of different keys may come in either order once the later one is there. -/
theorem upsert_comm (hkey : ∀ y x, key (combine y x) = key y) {ws : List α} {y z : α}
    (hyz : key y ≠ key z) (hz : key z ∈ ws.map key) :
    upsert key combine (upsert key combine ws y) z = upsert key combine (upsert key combine ws z) y := by
  induction ws with
  | nil => cases hz
  | cons w ws ih =>
    by_cases hwz : key w = key z
    · have hwy : key w ≠ key y := fun h => hyz (h.symm.trans hwz)
      simp [upsert, hwz, Ne.symm hyz, hkey]
    · have hz' : key z ∈ ws.map key := by simpa [Ne.symm hwz] using hz
      by_cases hwy : key w = key y
      · simp [upsert, hwy, hyz, hkey]
      · simp [upsert, hwy, hwz, ih hz']

theorem upsert_upsertAll_comm (hkey : ∀ y x, key (combine y x) = key y) {ws ys : List α} {z : α}
    (hys : ∀ y ∈ ys, key y ≠ key z) (hz : key z ∈ ws.map key) :
    upsert key combine (upsertAll key combine ws ys) z =
      upsertAll key combine (upsert key combine ws z) ys := by
  induction ys generalizing ws with
  | nil => rfl
  | cons y ys ih =>
    rw [List.forall_mem_cons] at hys
    have hz' : key z ∈ (upsert key combine ws y).map key := by
      rw [map_key_upsert hkey, mem_addNew]; exact .inl hz
    show upsert key combine (upsertAll key combine (upsert key combine ws y) ys) z =
      upsertAll key combine (upsert key combine (upsert key combine ws z) y) ys
    rw [ih hys.2 hz', upsert_comm hkey hys.1 hz]

theorem upsert_upsert (hkey : ∀ y x, key (combine y x) = key y) {y z : α} (hyz : key y = key z)
    (hassoc : ∀ w, combine (combine w y) z = combine w (combine y z)) (ws : List α) :
    upsert key combine (upsert key combine ws y) z = upsert key combine ws (combine y z) := by
  induction ws with
  | nil => simp [upsert, hyz]
  | cons w ws ih =>
    by_cases hw : key w = key z
    · simp [upsert, hyz, hw, hkey, hassoc]
    · simp [upsert, hyz, hw, hkey, ih]

theorem upsertAll_concat (xs ys : List α) (y : α) :
    upsertAll key combine xs (ys ++ [y]) = upsert key combine (upsertAll key combine xs ys) y := by
  simp [upsertAll]

theorem upsertAll_append (xs ys zs : List α) :
    upsertAll key combine xs (ys ++ zs) = upsertAll key combine (upsertAll key combine xs ys) zs :=
  List.foldl_append

/-- A member of a new list goes to the same place, whether it joins that list or what is made of it. -/
theorem upsertAll_upsert (hkey : ∀ y x, key (combine y x) = key y) {ys : List α} {z : α}
    (hys : (ys.map key).Nodup)
    (hassoc : ∀ w, ∀ y ∈ ys, combine (combine w y) z = combine w (combine y z)) (xs : List α) :
    upsertAll key combine xs (upsert key combine ys z) =
      upsert key combine (upsertAll key combine xs ys) z := by
  induction ys generalizing xs with
  | nil => rfl
  | cons y ys ih =>
    rw [List.map_cons, List.nodup_cons] at hys
    by_cases hyz : key y = key z
    · -- no later member has the key of `z`, so `z` passes over all of them
      have hne : ∀ u ∈ ys, key u ≠ key z := fun u hu h =>
        hys.1 (List.mem_map.2 ⟨u, hu, h.trans hyz.symm⟩)
      have hmem : key z ∈ (upsert key combine xs y).map key := by
        rw [map_key_upsert hkey, mem_addNew]; exact .inr hyz.symm
      rw [upsert, if_pos hyz]
      show upsertAll key combine (upsert key combine xs (combine y z)) ys =
        upsert key combine (upsertAll key combine (upsert key combine xs y) ys) z
      rw [upsert_upsertAll_comm hkey hne hmem, upsert_upsert hkey hyz fun w => hassoc w y List.mem_cons_self]
    · rw [upsert, if_neg hyz]
      exact ih hys.2 (fun w u hu => hassoc w u (List.mem_cons_of_mem y hu)) _

/-- Combining is associative where it is so on the members; `P` is what these must have. -/
theorem upsertAll_assoc {P : α → Prop} (hkey : ∀ y x, key (combine y x) = key y)
    (hP : ∀ y z, P y → P z → P (combine y z))
    (hassoc : ∀ w y z, P y → combine (combine w y) z = combine w (combine y z)) {ys zs : List α}
    (hys : (ys.map key).Nodup) (hPys : ∀ y ∈ ys, P y) (hPzs : ∀ z ∈ zs, P z) (xs : List α) :
    upsertAll key combine (upsertAll key combine xs ys) zs =
      upsertAll key combine xs (upsertAll key combine ys zs) := by
  induction zs using List.reverseRecOn with
  | nil => rfl
  | append_singleton zs z ih =>
    have hPzs' : ∀ z ∈ zs, P z := fun y hy => hPzs y (List.mem_append_left _ hy)
    have hnodup : ((upsertAll key combine ys zs).map key).Nodup := by
      rw [map_key_upsertAll hkey]; exact nodup_unite hys _
    have hmem : ∀ y ∈ upsertAll key combine ys zs, P y := forall_mem_upsertAll hPys hPzs' hP
    rw [upsertAll_concat, upsertAll_concat, ih hPzs',
      upsertAll_upsert hkey hnodup fun w y hy => hassoc w y z (hmem y hy)]

theorem exists_mem_upsert (hkey : ∀ y x, key (combine y x) = key y) (ws : List α) (y : α) :
    (∃ w ∈ upsert key combine ws y, key w = key y ∧ (w = y ∨ ∃ x ∈ ws, w = combine x y)) ∧
      ∀ w ∈ ws, ∃ w' ∈ upsert key combine ws y, key w' = key w ∧ (w' = w ∨ w' = combine w y) := by
  induction ws with
  | nil => exact ⟨⟨y, by simp [upsert], rfl, .inl rfl⟩, fun w hw => by cases hw⟩
  | cons x xs ih =>
    unfold upsert
    split
    · rename_i hx
      refine ⟨⟨combine x y, List.mem_cons_self, (hkey x y).trans hx, .inr ⟨x, List.mem_cons_self, rfl⟩⟩, ?_⟩
      intro w hw
      rcases List.mem_cons.1 hw with rfl | hw
      · exact ⟨combine w y, List.mem_cons_self, hkey w y, .inr rfl⟩
      · exact ⟨w, List.mem_cons_of_mem _ hw, rfl, .inl rfl⟩
    · obtain ⟨⟨w, hw, hwy, hfrom⟩, hkeep⟩ := ih
      refine ⟨⟨w, List.mem_cons_of_mem _ hw, hwy, hfrom.imp id ?_⟩, ?_⟩
      · rintro ⟨z, hz, rfl⟩; exact ⟨z, List.mem_cons_of_mem _ hz, rfl⟩
      · intro w hw
        rcases List.mem_cons.1 hw with rfl | hw
        · exact ⟨w, List.mem_cons_self, rfl, .inl rfl⟩
        · obtain ⟨w', hw', h⟩ := hkeep w hw
          exact ⟨w', List.mem_cons_of_mem _ hw', h⟩

/-- Each member of a list stands in some relation to the member of its key, once the list is taken
in, if combining stands in that relation to both of its sides. -/
theorem exists_mem_upsertAll {R : α → α → Prop} (hkey : ∀ y x, key (combine y x) = key y)
    (hrefl : ∀ y, R y y) (hright : ∀ x y, R y (combine x y)) (hleft : ∀ y w x, R y w → R y (combine w x))
    (xs ys : List α) : ∀ y ∈ ys, ∃ w ∈ upsertAll key combine xs ys, key w = key y ∧ R y w := by
  induction ys using List.reverseRecOn with
  | nil => intro y hy; cases hy
  | append_singleton ys z ih =>
    rw [upsertAll_concat]
    obtain ⟨⟨w, hw, hwz, hfrom⟩, hkeep⟩ :=
      exists_mem_upsert hkey (upsertAll key combine xs ys) z
    intro y hy
    rcases List.mem_append.1 hy with hy | hy
    · obtain ⟨u, hu, huy, hR⟩ := ih y hy
      obtain ⟨u', hu', hkeyu, rfl | rfl⟩ := hkeep u hu
      · exact ⟨u', hu', huy, hR⟩
      · exact ⟨_, hu', hkeyu.trans huy, hleft y u z hR⟩
    · rw [List.mem_singleton.1 hy]
      refine ⟨w, hw, hwz, ?_⟩
      rcases hfrom with rfl | ⟨x, -, rfl⟩
      · exact hrefl w
      · exact hright x z

/-- The members that are there before a list is taken in stand in such a relation to those of their
keys, too. -/
theorem exists_mem_upsertAll_left {R : α → α → Prop} (hkey : ∀ y x, key (combine y x) = key y)
    (hrefl : ∀ y, R y y) (hleft : ∀ y w x, R y w → R y (combine w x)) (xs ys : List α) :
    ∀ x ∈ xs, ∃ w ∈ upsertAll key combine xs ys, key w = key x ∧ R x w := by
  induction ys using List.reverseRecOn with
  | nil => exact fun x hx => ⟨x, hx, rfl, hrefl x⟩
  | append_singleton ys z ih =>
    rw [upsertAll_concat]
    intro x hx
    obtain ⟨u, hu, hux, hR⟩ := ih x hx
    obtain ⟨u', hu', hkeyu, rfl | rfl⟩ := (exists_mem_upsert hkey (upsertAll key combine xs ys) z).2 u hu
    · exact ⟨u', hu', hux, hR⟩
    · exact ⟨_, hu', hkeyu.trans hux, hleft x u z hR⟩

/-! ### What the members of a key have -/

/-- What a member has once a list is taken in, one of its key has had before, if combining gives
nothing new. -/
theorem exists_key_of_upsertAll {P : α → Prop} {k : κ} (hkey : ∀ y x, key (combine y x) = key y)
    (hP : ∀ y x, P (combine y x) → P y ∨ P x) {xs ys : List α}
    (h : ∃ z ∈ upsertAll key combine xs ys, key z = k ∧ P z) :
    (∃ z ∈ xs, key z = k ∧ P z) ∨ ∃ z ∈ ys, key z = k ∧ P z := by
  have hstep : ∀ (xs : List α) (x : α), (∃ z ∈ upsert key combine xs x, key z = k ∧ P z) →
      (∃ z ∈ xs, key z = k ∧ P z) ∨ key x = k ∧ P x := by
    intro xs x
    induction xs with
    | nil => simp [upsert]
    | cons y ys ih =>
      rintro ⟨z, hz, hzk, hPz⟩
      unfold upsert at hz
      split at hz
      · rename_i hyx
        rcases List.mem_cons.1 hz with rfl | hz
        · rw [hkey] at hzk
          rcases hP y x hPz with hPy | hPx
          · exact .inl ⟨y, List.mem_cons_self, hzk, hPy⟩
          · exact .inr ⟨hyx.symm.trans hzk, hPx⟩
        · exact .inl ⟨z, List.mem_cons_of_mem y hz, hzk, hPz⟩
      · rcases List.mem_cons.1 hz with rfl | hz
        · exact .inl ⟨z, List.mem_cons_self, hzk, hPz⟩
        · rcases ih ⟨z, hz, hzk, hPz⟩ with ⟨w, hw, hwk⟩ | hx
          · exact .inl ⟨w, List.mem_cons_of_mem y hw, hwk⟩
          · exact .inr hx
  induction ys using List.reverseRecOn with
  | nil => exact .inl h
  | append_singleton ys y ih =>
    rw [upsertAll_concat] at h
    rcases hstep _ y h with h | hy
    · rcases ih h with h | ⟨z, hz, hzk⟩
      · exact .inl h
      · exact .inr ⟨z, List.mem_append_left _ hz, hzk⟩
    · exact .inr ⟨y, by simp, hy⟩

/-- Once a list is taken in, the members of a key have what those of either side have. -/
theorem exists_key_upsertAll_iff {P : α → Prop} {k : κ} (hkey : ∀ y x, key (combine y x) = key y)
    (hP : ∀ y x, P (combine y x) ↔ P y ∨ P x) {xs ys : List α} :
    (∃ z ∈ upsertAll key combine xs ys, key z = k ∧ P z) ↔
      (∃ z ∈ xs, key z = k ∧ P z) ∨ ∃ z ∈ ys, key z = k ∧ P z := by
  have hleft : ∀ y w x, (P y → P w) → P y → P (combine w x) := fun y w x h hy => (hP w x).2 (.inl (h hy))
  constructor
  · exact exists_key_of_upsertAll hkey fun y x => (hP y x).1
  · rintro (⟨z, hz, hzk, hPz⟩ | ⟨z, hz, hzk, hPz⟩)
    · obtain ⟨w, hw, hwz, hPw⟩ :=
        exists_mem_upsertAll_left (R := fun y w => P y → P w) hkey (fun _ => id) hleft xs ys z hz
      exact ⟨w, hw, hwz.trans hzk, hPw hPz⟩
    · obtain ⟨w, hw, hwz, hPw⟩ := exists_mem_upsertAll (R := fun y w => P y → P w) hkey (fun _ => id)
        (fun x y hy => (hP x y).2 (.inr hy)) hleft xs ys z hz
      exact ⟨w, hw, hwz.trans hzk, hPw hPz⟩

/-- Taking in what is there already changes nothing. -/
theorem upsertAll_of_subset {xs ys : List α} (hxs : (xs.map key).Nodup) (h : ∀ y ∈ ys, y ∈ xs)
    (hc : ∀ y ∈ ys, combine y y = y) : upsertAll key combine xs ys = xs := by
  induction ys with
  | nil => rfl
  | cons y ys ih =>
    rw [List.forall_mem_cons] at h hc
    show upsertAll key combine (upsert key combine xs y) ys = xs
    rw [upsert_of_mem hxs h.1 hc.1, ih h.2 hc.2]

theorem upsertAll_nil_of_nodup {xs : List α} (h : (xs.map key).Nodup) : upsertAll key combine [] xs = xs := by
  induction xs using List.reverseRecOn with
  | nil => rfl
  | append_singleton xs x ih =>
    rw [List.map_append, List.map_singleton, ← List.concat_eq_append, List.nodup_concat] at h
    rw [upsertAll_concat, ih h.2, upsert_of_not_mem h.1]

end Upsert

/-! ## Changing one member -/

section Change

variable {α κ : Type} {key : α → κ} {p : α → Bool} {f : α → α}

theorem map_key_changeFirst (hf : ∀ x, p x = true → key (f x) = key x) (xs : List α) :
    (changeFirst p f xs).map key = xs.map key := by
  induction xs with
  | nil => rfl
  | cons x xs ih =>
    unfold changeFirst
    split
    · rename_i h; rw [List.map_cons, List.map_cons, hf x h]
    · rw [List.map_cons, List.map_cons, ih]

theorem forall_mem_changeFirst {P : α → Prop} {xs : List α} (hxs : ∀ x ∈ xs, P x)
    (hf : ∀ x ∈ xs, p x = true → P (f x)) : ∀ x ∈ changeFirst p f xs, P x := by
  induction xs with
  | nil => simp [changeFirst]
  | cons x xs ih =>
    rw [List.forall_mem_cons] at hxs hf
    unfold changeFirst
    split
    · rename_i h; exact List.forall_mem_cons.2 ⟨hf.1 h, hxs.2⟩
    · exact List.forall_mem_cons.2 ⟨hxs.1, ih hxs.2 hf.2⟩

theorem map_key_changeLast (hf : ∀ x, p x = true → key (f x) = key x) (xs : List α) :
    (changeLast p f xs).map key = xs.map key := by
  induction xs with
  | nil => rfl
  | cons x xs ih =>
    unfold changeLast
    split
    · rw [List.map_cons, List.map_cons, ih]
    · split
      · rename_i h; rw [List.map_cons, List.map_cons, hf x h]
      · rfl

theorem forall_mem_changeLast {P : α → Prop} {xs : List α} (hxs : ∀ x ∈ xs, P x)
    (hf : ∀ x ∈ xs, p x = true → P (f x)) : ∀ x ∈ changeLast p f xs, P x := by
  induction xs with
  | nil => simp [changeLast]
  | cons x xs ih =>
    rw [List.forall_mem_cons] at hxs hf
    unfold changeLast
    split
    · exact List.forall_mem_cons.2 ⟨hxs.1, ih hxs.2 hf.2⟩
    · split
      · rename_i h; exact List.forall_mem_cons.2 ⟨hf.1 h, hxs.2⟩
      · exact List.forall_mem_cons.2 hxs

theorem changeLast_of_forall_not {xs : List α} (h : ∀ x ∈ xs, p x = false) :
    changeLast p f xs = xs := by
  cases xs with
  | nil => rfl
  | cons x xs =>
    rw [List.forall_mem_cons] at h
    have hxs : xs.any p = false := List.any_eq_false.2 fun y hy => by simp [h.2 y hy]
    simp [changeLast, hxs, h.1]

theorem changeLast_congr {g : α → α} {xs : List α} (h : ∀ x ∈ xs, p x = true → f x = g x) :
    changeLast p f xs = changeLast p g xs := by
  induction xs with
  | nil => rfl
  | cons x xs ih =>
    rw [List.forall_mem_cons] at h
    unfold changeLast
    split
    · rw [ih h.2]
    · split
      · rename_i hx; rw [h.1 hx]
      · rfl

theorem changeLast_concat {xs : List α} {x : α} (h : p x = true) :
    changeLast p f (xs ++ [x]) = xs ++ [f x] := by
  induction xs with
  | nil => simp [changeLast, h]
  | cons y ys ih => simp [changeLast, h, ih]

/-- Where the keys are distinct, the last member of a key is the only one. -/
theorem changeLast_eq_map [DecidableEq κ] {k : κ} (hp : ∀ x, p x = true ↔ key x = k) {xs : List α}
    (h : (xs.map key).Nodup) : changeLast p f xs = xs.map fun x => if key x = k then f x else x := by
  induction xs with
  | nil => rfl
  | cons x xs ih =>
    rw [List.map_cons, List.nodup_cons] at h
    by_cases hx : key x = k
    · have hxs : ∀ y ∈ xs, key y ≠ k := fun y hy hyk =>
        h.1 (List.mem_map.2 ⟨y, hy, hyk.trans hx.symm⟩)
      have hany : xs.any p = false := by
        rw [List.any_eq_false]
        intro y hy hpy; exact hxs y hy ((hp y).1 hpy)
      have hmap : (xs.map fun x => if key x = k then f x else x) = xs := by
        conv_rhs => rw [← List.map_id xs]
        exact List.map_congr_left fun y hy => if_neg (hxs y hy)
      simp [changeLast, hany, hx, (hp x).2 hx, hmap]
    · have hpx : ¬ p x = true := fun h => hx ((hp x).1 h)
      rw [List.map_cons, if_neg hx, ← ih h.2]
      by_cases hany : xs.any p = true
      · simp [changeLast, hany]
      · rw [changeLast, if_neg hany, if_neg hpx, changeLast_of_forall_not]
        simpa using hany

/-! ## The last member of a kind -/

theorem findLast?_eq_some {xs : List α} {x : α} (h : findLast? p xs = some x) :
    x ∈ xs ∧ p x = true :=
  ⟨List.mem_reverse.1 (List.mem_of_find?_eq_some h), List.find?_some h⟩

theorem findLast?_eq_none {xs : List α} (h : findLast? p xs = none) : ∀ x ∈ xs, p x = false := by
  intro x hx
  simpa using List.find?_eq_none.1 h x (List.mem_reverse.2 hx)

/-- Where the last member that passes the test stands. -/
theorem findLast?_split {xs : List α} {x : α} (h : findLast? p xs = some x) :
    ∃ ys zs, xs = ys ++ x :: zs ∧ p x = true ∧ ∀ z ∈ zs, p z = false := by
  obtain ⟨hx, zs, ys, hsplit, hzs⟩ := List.find?_eq_some_iff_append.1 h
  refine ⟨ys.reverse, zs.reverse, ?_, hx, fun z hz => ?_⟩
  · rw [← List.reverse_reverse xs, hsplit]
    simp
  · simpa using hzs z (List.mem_reverse.1 hz)

theorem findLast?_concat {xs : List α} {x : α} (h : p x = true) :
    findLast? p (xs ++ [x]) = some x := by
  simp [findLast?, h]

theorem findLast?_append (xs ys : List α) :
    findLast? p (xs ++ ys) = (findLast? p ys).or (findLast? p xs) := by
  simp [findLast?, List.find?_append]

theorem findLast?_cons (p : α → Bool) (x : α) (xs : List α) :
    findLast? p (x :: xs) = (findLast? p xs).or (if p x then some x else none) := by
  simp only [findLast?, List.reverse_cons, List.find?_append, List.find?_cons, List.find?_nil]
  cases p x <;> rfl

/-- The member that has been changed is the one that is found afterwards. -/
theorem findLast?_changeLast {xs : List α} {x : α} (h : findLast? p xs = some x)
    (hf : ∀ y, p y = true → p (f y) = true) : findLast? p (changeLast p f xs) = some (f x) := by
  induction xs with
  | nil => cases h
  | cons y ys ih =>
    rw [findLast?_cons] at h
    unfold changeLast
    cases hl : findLast? p ys with
    | some z =>
      rw [hl, Option.some_or] at h; cases h
      have hany : ys.any p = true := List.any_eq_true.2 ⟨_, findLast?_eq_some hl⟩
      rw [if_pos hany, findLast?_cons, ih hl, Option.some_or]
    | none =>
      rw [hl, Option.none_or] at h
      have hany : ys.any p = false := by
        rw [List.any_eq_false]
        intro z hz; simp [findLast?_eq_none hl z hz]
      split at h
      · rename_i hy
        cases h
        rw [hany, if_neg (by simp), if_pos hy, findLast?_cons, hl, Option.none_or, if_pos (hf _ hy)]
      · cases h

end Change

/-! ## Folds over a part of a record -/

/-- Steps that change one part of a record, one after the other, change that part and nothing else. -/
theorem foldl_part {σ τ α : Type} (get : σ → τ) (put : σ → τ → σ) (hget : ∀ s t, get (put s t) = t)
    (hput : ∀ s t t', put (put s t) t' = put s t') (hself : ∀ s, put s (get s) = s) (f : τ → α → τ)
    (xs : List α) (s : σ) :
    xs.foldl (fun s x => put s (f (get s) x)) s = put s (xs.foldl f (get s)) := by
  induction xs generalizing s with
  | nil => exact (hself s).symm
  | cons x xs ih => rw [List.foldl_cons, ih, hget, hput]; rfl

/-! ## Changing the first member of a kind -/

section First

variable {α β κ : Type} {p : α → Bool} {f g : α → α}

theorem changeFirst_congr : ∀ {xs : List α}, (∀ x, xs.find? p = some x → f x = g x) →
    changeFirst p f xs = changeFirst p g xs
  | [], _ => rfl
  | x :: xs, h => by
    unfold changeFirst
    split
    · rename_i hx
      rw [h x (List.find?_cons_of_pos hx)]
    · rename_i hx
      rw [changeFirst_congr fun y hy => h y (by rw [List.find?_cons_of_neg hx]; exact hy)]

theorem changeFirst_id (xs : List α) : changeFirst p id xs = xs := by
  induction xs with
  | nil => rfl
  | cons x xs ih => unfold changeFirst; split <;> simp [ih]

theorem changeFirst_changeFirst (hf : ∀ x, p x = true → p (f x) = true) (xs : List α) :
    changeFirst p g (changeFirst p f xs) = changeFirst p (fun x => g (f x)) xs := by
  induction xs with
  | nil => rfl
  | cons x xs ih =>
    by_cases hx : p x = true
    · simp [changeFirst, hx, hf x hx]
    · simp [changeFirst, hx, ih]

/-- Changes of the first member, one after the other, are one change of it. -/
theorem foldl_changeFirst {h : β → α → α} (hp : ∀ b x, p x = true → p (h b x) = true) (bs : List β)
    (xs : List α) : bs.foldl (fun xs b => changeFirst p (h b) xs) xs =
      changeFirst p (fun x => bs.foldl (fun x b => h b x) x) xs := by
  induction bs generalizing xs with
  | nil => exact (changeFirst_id xs).symm
  | cons b bs ih => rw [List.foldl_cons, ih, changeFirst_changeFirst (hp b)]; rfl

/-- Combining with a member whose key is taken changes the first one of that key. -/
theorem upsert_eq_changeFirst [DecidableEq κ] {key : α → κ} {combine : α → α → α} {xs : List α} {x : α}
    (h : key x ∈ xs.map key) (hp : ∀ y, p y = true ↔ key y = key x) :
    upsert key combine xs x = changeFirst p (combine · x) xs := by
  induction xs with
  | nil => cases h
  | cons y ys ih =>
    by_cases hy : key y = key x
    · rw [upsert, if_pos hy, changeFirst, if_pos ((hp y).2 hy)]
    · rw [upsert, if_neg hy, changeFirst, if_neg (mt (hp y).1 hy), ih (by simpa [Ne.symm hy] using h)]

theorem find?_eq_none_iff {key : α → κ} {k : κ} (hp : ∀ y, p y = true ↔ key y = k) {xs : List α} :
    xs.find? p = none ↔ k ∉ xs.map key := by
  rw [List.find?_eq_none, List.mem_map]
  constructor
  · rintro h ⟨y, hy, hkey⟩; exact h y hy ((hp y).2 hkey)
  · intro h y hy hpy; exact h ⟨y, hy, (hp y).1 hpy⟩

/-- Where the keys are distinct, the first member of a key is the one that has it. -/
theorem find?_eq_some_of_mem {key : α → κ} {xs : List α} {x : α} (hxs : (xs.map key).Nodup) (hx : x ∈ xs)
    (hp : ∀ y, p y = true ↔ key y = key x) : xs.find? p = some x := by
  cases hfind : xs.find? p with
  | none => exact absurd ((hp x).2 rfl) (List.find?_eq_none.1 hfind x hx)
  | some y =>
    have hkey : key y = key x := (hp y).1 (List.find?_some hfind)
    rw [List.inj_on_of_nodup_map hxs (List.mem_of_find?_eq_some hfind) hx hkey]

/-- Where the keys are distinct, what some member of a key has is what the one that is found has. -/
theorem exists_key_iff {key : α → κ} {k : κ} {xs : List α} {x : α} (hxs : (xs.map key).Nodup)
    (hp : ∀ y, p y = true ↔ key y = k) (hfound : xs.find? p = some x) {P : α → Prop} :
    (∃ z ∈ xs, key z = k ∧ P z) ↔ P x := by
  have hx : x ∈ xs ∧ key x = k := ⟨List.mem_of_find?_eq_some hfound, (hp x).1 (List.find?_some hfound)⟩
  constructor
  · rintro ⟨z, hz, hzk, hPz⟩
    rwa [List.inj_on_of_nodup_map hxs hx.1 hz (hx.2.trans hzk.symm)]
  · exact fun hPx => ⟨x, hx.1, hx.2, hPx⟩

theorem findLast?_eq_some_of_mem {key : α → κ} {xs : List α} {x : α} (hxs : (xs.map key).Nodup)
    (hx : x ∈ xs) (hp : ∀ y, p y = true ↔ key y = key x) : findLast? p xs = some x := by
  have hrev : (xs.reverse.map key).Nodup := by
    rw [List.map_reverse, List.nodup_reverse]
    exact hxs
  exact find?_eq_some_of_mem hrev (List.mem_reverse.2 hx) hp

/-- What is found by a key after one more member has joined. -/
theorem find?_upsert [DecidableEq κ] {key : α → κ} {combine : α → α → α} {k : κ}
    (hkey : ∀ y x, key (combine y x) = key y) (hp : ∀ y, p y = true ↔ key y = k) (xs : List α) (x : α) :
    (upsert key combine xs x).find? p = if key x = k then some ((xs.find? p).elim x (combine · x)) else xs.find? p := by
  induction xs with
  | nil =>
    by_cases hx : key x = k
    · rw [upsert, if_pos hx, List.find?_cons_of_pos ((hp x).2 hx)]
      rfl
    · rw [upsert, if_neg hx, List.find?_cons_of_neg (mt (hp x).1 hx)]
  | cons y ys ih =>
    by_cases hyx : key y = key x <;> by_cases hy : key y = k
    · have hcombined : p (combine y x) = true := (hp _).2 ((hkey y x).trans hy)
      rw [upsert, if_pos hyx, if_pos (hyx.symm.trans hy), List.find?_cons_of_pos hcombined,
        List.find?_cons_of_pos ((hp y).2 hy)]
      rfl
    · have hcombined : ¬ p (combine y x) = true := fun h => hy ((hkey y x).symm.trans ((hp _).1 h))
      rw [upsert, if_pos hyx, if_neg fun hx => hy (hyx.trans hx), List.find?_cons_of_neg hcombined,
        List.find?_cons_of_neg (mt (hp y).1 hy)]
    · rw [upsert, if_neg hyx, if_neg fun hx => hyx (hy.trans hx.symm), List.find?_cons_of_pos ((hp y).2 hy),
        List.find?_cons_of_pos ((hp y).2 hy)]
    · rw [upsert, if_neg hyx, List.find?_cons_of_neg (mt (hp y).1 hy), List.find?_cons_of_neg (mt (hp y).1 hy), ih]

end First

end LangGen
