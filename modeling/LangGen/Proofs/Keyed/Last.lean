/-
Lists in which the last member of a key is the one that counts, as it is while chunks are read: what
is met again changes the last member of its key, and what is new comes behind (`putLast`). Nothing
is asked of the keys; where several members share one, the others stay as they are. Two views of
such a list are used. `Covered` looks at what is found by each key, and only ever grows;
`changeLasts` changes what is found by each key at once, and two such changes come to one.
-/
import LangGen.Proofs.Keyed

namespace LangGen

variable {α κ : Type} {key : α → κ}

/-! ## One change -/

section Change

variable {p q : α → Bool} {f g : α → α}

/-- Changing the last member counts for that member only. -/
theorem changeLast_congr_findLast? {xs : List α} (h : ∀ x, findLast? p xs = some x → f x = g x) :
    changeLast p f xs = changeLast p g xs := by
  induction xs with
  | nil => rfl
  | cons x xs ih =>
    rw [findLast?_cons] at h
    unfold changeLast
    split
    · rw [ih fun y hy => h y (by rw [hy, Option.some_or])]
    · rename_i hany
      split
      · rename_i hx
        have hnone : findLast? p xs = none := by
          by_contra hsome
          obtain ⟨y, hy⟩ := Option.ne_none_iff_exists'.1 hsome
          exact hany (List.any_eq_true.2 ⟨y, findLast?_eq_some hy⟩)
        rw [h x (by rw [hnone, Option.none_or, if_pos hx])]
      · rfl

theorem changeLast_id (p : α → Bool) (xs : List α) : changeLast p id xs = xs := by
  induction xs with
  | nil => rfl
  | cons x xs ih =>
    unfold changeLast
    rw [ih]
    split
    · rfl
    · split <;> rfl

/-- A list stays as it is when its last member does. -/
theorem changeLast_of_fixed {xs : List α} (h : ∀ x, findLast? p xs = some x → f x = x) :
    changeLast p f xs = xs :=
  (changeLast_congr_findLast? h).trans (changeLast_id p xs)

theorem findLast?_changeLast_of_not (hf : ∀ x, p x = true → q x = false ∧ q (f x) = false) (xs : List α) :
    findLast? q (changeLast p f xs) = findLast? q xs := by
  induction xs with
  | nil => rfl
  | cons x xs ih =>
    unfold changeLast
    split
    · rw [findLast?_cons, ih, findLast?_cons]
    · split
      · rename_i hx
        rw [findLast?_cons, findLast?_cons, (hf x hx).1, (hf x hx).2]
        rfl
      · rfl

end Change

/-! ## Changing or adding -/

variable [BEq κ]

/-- Changes the last member of a key, or adds one behind the others. -/
def putLast (key : α → κ) (k : κ) (f : α → α) (x : α) (xs : List α) : List α :=
  if xs.any (key · == k) then changeLast (key · == k) f xs else xs ++ [x]

section PutLast

variable [LawfulBEq κ] {k : κ} {f : α → α} {x : α} {xs : List α}

theorem findLast?_key_eq_none : findLast? (key · == k) xs = none ↔ k ∉ xs.map key := by
  simp [findLast?]

theorem findLast?_key_of_mem (h : k ∈ xs.map key) :
    ∃ x, findLast? (key · == k) xs = some x :=
  Option.ne_none_iff_exists'.1 fun hnone => findLast?_key_eq_none.1 hnone h

theorem putLast_of_mem (h : k ∈ xs.map key) : putLast key k f x xs = changeLast (key · == k) f xs := by
  have hany : xs.any (key · == k) = true := by simpa using h
  rw [putLast, if_pos hany]

theorem putLast_of_not_mem (h : k ∉ xs.map key) : putLast key k f x xs = xs ++ [x] := by
  have hany : ¬ xs.any (key · == k) = true := by simpa using h
  rw [putLast, if_neg hany]

theorem findLast?_putLast_of_mem (hf : ∀ y, key (f y) = key y) {y : α} (hy : findLast? (key · == k) xs = some y) :
    findLast? (key · == k) (putLast key k f x xs) = some (f y) := by
  obtain ⟨hmem, hkey⟩ := findLast?_eq_some hy
  have hk : key y = k := by simpa using hkey
  rw [putLast_of_mem (hk ▸ List.mem_map_of_mem hmem)]
  exact findLast?_changeLast hy fun z hz => by rw [hf]; exact hz

theorem findLast?_putLast_of_not_mem (hx : key x = k) (h : k ∉ xs.map key) :
    findLast? (key · == k) (putLast key k f x xs) = some x := by
  rw [putLast_of_not_mem h]
  exact findLast?_concat (by simpa using hx)

end PutLast

/-! ## Lists that cover each other -/

/-- Whether what is found in a list by a key is found in another list too, and related to what is
found there. -/
def Covered (key : α → κ) (R : α → α → Prop) (xs ys : List α) : Prop :=
  ∀ k x, findLast? (key · == k) xs = some x → ∃ y, findLast? (key · == k) ys = some y ∧ R x y

namespace Covered

variable {R : α → α → Prop} {xs ys zs : List α}

theorem refl (hR : ∀ x, R x x) (xs : List α) : Covered key R xs xs := fun _ x hx => ⟨x, hx, hR x⟩

theorem trans (hR : ∀ x y z, R x y → R y z → R x z) (h : Covered key R xs ys) (h' : Covered key R ys zs) :
    Covered key R xs zs := by
  intro k x hx
  obtain ⟨y, hy, hxy⟩ := h k x hx
  obtain ⟨z, hz, hyz⟩ := h' k y hy
  exact ⟨z, hz, hR x y z hxy hyz⟩

variable [LawfulBEq κ]

theorem mem (h : Covered key R xs ys) {k : κ} (hk : k ∈ xs.map key) : k ∈ ys.map key := by
  obtain ⟨x, hx⟩ := findLast?_key_of_mem hk
  obtain ⟨y, hy, -⟩ := h k x hx
  by_contra hnot
  rw [findLast?_key_eq_none.2 hnot] at hy
  cases hy

theorem changeLast (hR : ∀ x, R x x) {k : κ} {f : α → α} (hkey : ∀ x, key (f x) = key x) (hf : ∀ x, R x (f x)) :
    Covered key R xs (changeLast (key · == k) f xs) := by
  intro k' x hx
  by_cases hk : k' = k
  · subst hk
    exact ⟨f x, findLast?_changeLast hx fun y hy => by rw [hkey]; exact hy, hf x⟩
  · refine ⟨x, ?_, hR x⟩
    rw [findLast?_changeLast_of_not, hx]
    intro y hy
    have hy : key y = k := by simpa using hy
    rw [hkey, hy]
    simp [Ne.symm hk]

theorem concat (hR : ∀ x, R x x) {x : α} (h : key x ∉ xs.map key) : Covered key R xs (xs ++ [x]) := by
  intro k y hy
  refine ⟨y, ?_, hR y⟩
  have hk : ¬ key x = k := by
    rintro rfl
    rw [findLast?_key_eq_none.2 h] at hy
    cases hy
  rw [findLast?_append, hy]
  simp [findLast?, hk]

theorem putLast (hR : ∀ x, R x x) {k : κ} {f : α → α} {x : α} (hkey : ∀ x, key (f x) = key x)
    (hf : ∀ x, R x (f x)) (hx : key x = k) : Covered key R xs (putLast key k f x xs) := by
  by_cases h : k ∈ xs.map key
  · rw [putLast_of_mem h]
    exact .changeLast hR hkey hf
  · rw [putLast_of_not_mem h]
    exact .concat hR (hx ▸ h)

end Covered

/-! ## Changing what is found by every key -/

/-- Changes the last member of each key. -/
def changeLasts (key : α → κ) (f : α → α) : List α → List α
  | [] => []
  | x :: xs => (if xs.any (key · == key x) then x else f x) :: changeLasts key f xs

section ChangeLasts

variable {f g : α → α} {xs : List α}

theorem map_key_changeLasts (hf : ∀ x, key (f x) = key x) (xs : List α) :
    (changeLasts key f xs).map key = xs.map key := by
  induction xs with
  | nil => rfl
  | cons x xs ih =>
    rw [changeLasts, List.map_cons, List.map_cons, ih]
    split
    · rfl
    · rw [hf]

theorem any_key_congr {xs ys : List α} (h : xs.map key = ys.map key) (k : κ) :
    xs.any (key · == k) = ys.any (key · == k) := by
  have hany : (xs.map key).any (· == k) = (ys.map key).any (· == k) := by rw [h]
  rwa [List.any_map, List.any_map] at hany

theorem changeLasts_congr (h : ∀ x ∈ xs, f x = g x) : changeLasts key f xs = changeLasts key g xs := by
  induction xs with
  | nil => rfl
  | cons x xs ih =>
    rw [List.forall_mem_cons] at h
    rw [changeLasts, changeLasts, h.1, ih h.2]

theorem changeLasts_id (h : ∀ x, f x = x) (xs : List α) : changeLasts key f xs = xs := by
  induction xs with
  | nil => rfl
  | cons x xs ih => rw [changeLasts, ih, h, ite_self]

theorem changeLasts_changeLasts (hf : ∀ x, key (f x) = key x) (xs : List α) :
    changeLasts key g (changeLasts key f xs) = changeLasts key (fun x => g (f x)) xs := by
  induction xs with
  | nil => rfl
  | cons x xs ih =>
    rw [changeLasts, changeLasts, changeLasts, ih]
    have hkey : key (if xs.any (key · == key x) then x else f x) = key x := by
      split
      · rfl
      · exact hf x
    rw [hkey, any_key_congr (map_key_changeLasts hf xs)]
    by_cases hany : xs.any (key · == key x) = true
    · rw [if_pos hany, if_pos hany, if_pos hany]
    · rw [if_neg hany, if_neg hany, if_neg hany]

variable [LawfulBEq κ]

theorem changeLasts_concat {x : α} (h : key x ∉ xs.map key) :
    changeLasts key f (xs ++ [x]) = changeLasts key f xs ++ [f x] := by
  induction xs with
  | nil => rfl
  | cons y xs ih =>
    rw [List.map_cons, List.mem_cons, not_or] at h
    have hany : (xs ++ [x]).any (key · == key y) = xs.any (key · == key y) := by
      simp [h.1]
    rw [List.cons_append, changeLasts, ih h.2, hany]
    rfl

/-- Changing what is found by one key leaves what is found by the others. -/
theorem changeLast_eq_changeLasts (k : κ) (f : α → α) (xs : List α) :
    changeLast (key · == k) f xs = changeLasts key (fun x => if key x == k then f x else x) xs := by
  induction xs with
  | nil => rfl
  | cons x xs ih =>
    rw [changeLast, changeLasts]
    by_cases hx : key x = k
    · subst hx
      simp only [beq_self_eq_true, if_true]
      by_cases hany : xs.any (key · == key x) = true
      · rw [if_pos hany, if_pos hany, ih]
      · have hxs : ∀ y ∈ xs, (key y == key x) = false := by
          intro y hy
          by_contra hbeq
          exact hany (List.any_eq_true.2 ⟨y, hy, by simpa using hbeq⟩)
        rw [if_neg hany, if_neg hany, ← ih, changeLast_of_forall_not hxs]
    · have hbeq : (key x == k) = false := by simpa using hx
      simp only [hbeq, Bool.false_eq_true, if_false, ite_self]
      by_cases hany : xs.any (key · == k) = true
      · rw [if_pos hany, ih]
      · have hxs : ∀ y ∈ xs, (key y == k) = false := by
          intro y hy
          by_contra hbeq
          exact hany (List.any_eq_true.2 ⟨y, hy, by simpa using hbeq⟩)
        rw [if_neg hany, ← ih, changeLast_of_forall_not hxs]

end ChangeLasts

end LangGen
