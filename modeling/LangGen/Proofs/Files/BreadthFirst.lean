/-
Breadth-first orders. Members lead to further members, and of those with one key only the first that
is met counts. An order is breadth-first if it lists what is met, each at its first meeting, when
the members are gone through in that very order. There is one such order only, and a search with a
queue finds it (`Searching.visit`).
-/
import Mathlib.Data.List.Nodup

namespace LangGen

section BreadthFirst

variable {α κ : Type} [DecidableEq κ] (key : α → κ)

/-! ## First meetings -/

/-- The members of a list whose keys are neither among the given ones nor those of earlier members. -/
def firsts (seen : List κ) : List α → List α
  | [] => []
  | x :: xs => if key x ∈ seen then firsts seen xs else x :: firsts (key x :: seen) xs

variable {key}

theorem firsts_congr : ∀ (xs : List α) {seen seen' : List κ}, (∀ k, k ∈ seen ↔ k ∈ seen') →
    firsts key seen xs = firsts key seen' xs
  | [], _, _, _ => rfl
  | x :: xs, seen, seen', h => by
    have hcons : ∀ k, k ∈ key x :: seen ↔ k ∈ key x :: seen' := by
      intro k
      rw [List.mem_cons, List.mem_cons, h]
    rw [firsts, firsts, firsts_congr xs h, firsts_congr xs hcons]
    simp only [h]

theorem mem_map_key_firsts (k : κ) : ∀ (xs : List α) (seen : List κ),
    k ∈ (firsts key seen xs).map key ↔ k ∈ xs.map key ∧ k ∉ seen
  | [], _ => by simp [firsts]
  | x :: xs, seen => by
    rw [firsts]
    split
    · rename_i hx
      rw [mem_map_key_firsts k xs seen, List.map_cons, List.mem_cons]
      constructor
      · rintro ⟨hk, hseen⟩; exact ⟨.inr hk, hseen⟩
      · rintro ⟨rfl | hk, hseen⟩
        · exact absurd hx hseen
        · exact ⟨hk, hseen⟩
    · rename_i hx
      rw [List.map_cons, List.mem_cons, mem_map_key_firsts k xs, List.map_cons, List.mem_cons, List.mem_cons]
      by_cases hk : k = key x
      · simp [hk, hx]
      · simp [hk]

theorem nodup_firsts : ∀ (xs : List α) (seen : List κ), ((firsts key seen xs).map key).Nodup
  | [], _ => List.nodup_nil
  | x :: xs, seen => by
    rw [firsts]
    split
    · exact nodup_firsts xs seen
    · rw [List.map_cons, List.nodup_cons, mem_map_key_firsts]
      exact ⟨fun h => h.2 List.mem_cons_self, nodup_firsts xs _⟩

theorem firsts_append (ys : List α) : ∀ (xs : List α) (seen : List κ),
    firsts key seen (xs ++ ys) = firsts key seen xs ++ firsts key (xs.map key ++ seen) ys
  | [], _ => rfl
  | x :: xs, seen => by
    rw [List.cons_append, firsts, firsts]
    split
    · rename_i hx
      rw [firsts_append ys xs seen]
      congr 1
      refine firsts_congr ys fun k => ?_
      simp only [List.map_cons, List.cons_append, List.mem_cons, List.mem_append]
      constructor
      · exact .inr
      · rintro (rfl | h)
        · exact .inr hx
        · exact h
    · rw [firsts_append ys xs, List.cons_append]
      congr 2
      refine firsts_congr ys fun k => ?_
      simp only [List.map_cons, List.cons_append, List.mem_cons, List.mem_append]
      tauto

theorem firsts_concat_of_mem {x : α} {xs : List α} (h : key x ∈ (firsts key [] xs).map key) :
    firsts key [] (xs ++ [x]) = firsts key [] xs := by
  have hx := ((mem_map_key_firsts _ _ _).1 h).1
  rw [firsts_append, firsts, if_pos (List.mem_append_left _ hx)]
  exact List.append_nil _

theorem firsts_concat_of_not_mem {x : α} {xs : List α} (h : key x ∉ (firsts key [] xs).map key) :
    firsts key [] (xs ++ [x]) = firsts key [] xs ++ [x] := by
  have hx : key x ∉ xs.map key ++ [] := by
    rw [List.append_nil]
    exact fun hx => h ((mem_map_key_firsts _ _ _).2 ⟨hx, List.not_mem_nil⟩)
  rw [firsts_append, firsts, if_neg hx]
  rfl

/-! ## Orders -/

/-- Whether an order is breadth-first, from the given members on: it lists them and all that its
members lead to, each where it is met first, and each is met from a member before it. -/
structure BreadthFirst (key : α → κ) (next : α → List α) (start order : List α) : Prop where
  order_eq : order = firsts key [] (start ++ order.flatMap next)
  earlier : ∀ (k : Nat) (x : α), order[k]? = some x → x ∈ start ++ (order.take k).flatMap next

namespace BreadthFirst

variable {next : α → List α} {start order : List α}

/-- No key is met twice. -/
theorem nodup (h : BreadthFirst key next start order) : (order.map key).Nodup := by
  rw [h.order_eq]
  exact nodup_firsts _ _

theorem mem_of_start (h : BreadthFirst key next start order) {x : α} (hx : x ∈ start) :
    key x ∈ order.map key := by
  rw [h.order_eq, mem_map_key_firsts]
  exact ⟨List.mem_map_of_mem (List.mem_append_left _ hx), List.not_mem_nil⟩

/-- What a member leads to is in the order. -/
theorem mem_of_next (h : BreadthFirst key next start order) {x y : α} (hx : x ∈ order) (hy : y ∈ next x) :
    key y ∈ order.map key := by
  rw [h.order_eq, mem_map_key_firsts]
  exact ⟨List.mem_map_of_mem (List.mem_append_right _ (List.mem_flatMap.2 ⟨x, hx, hy⟩)), List.not_mem_nil⟩

/-- What holds at the start and passes on to what is met holds of the whole order. -/
theorem forall_of_next (h : BreadthFirst key next start order) {P : α → Prop} (hstart : ∀ x ∈ start, P x)
    (hnext : ∀ x, P x → ∀ y ∈ next x, P y) : ∀ x ∈ order, P x := by
  -- by the place in the order: each member is met from one before it
  have hplace : ∀ (k : Nat) (x : α), order[k]? = some x → P x := by
    intro k
    induction k using Nat.strongRecOn with
    | ind k ih =>
      intro x hx
      rcases List.mem_append.1 (h.earlier k x hx) with hx | hx
      · exact hstart x hx
      · obtain ⟨y, hy, hx⟩ := List.mem_flatMap.1 hx
        obtain ⟨j, hj⟩ := List.getElem?_of_mem hy
        rw [List.getElem?_take] at hj
        split at hj
        · rename_i hlt
          exact hnext y (ih j hlt y hj) x hx
        · cases hj
  intro x hx
  obtain ⟨k, hk⟩ := List.getElem?_of_mem hx
  exact hplace k x hk

/-- The member at a place is the one that is met there for the first time, when the members before
it are gone through. -/
theorem getElem?_eq (h : BreadthFirst key next start order) (n : Nat) :
    order[n]? = (firsts key [] (start ++ (order.take n).flatMap next))[n]? := by
  have hsplit : start ++ order.flatMap next =
      (start ++ (order.take n).flatMap next) ++ (order.drop n).flatMap next := by
    rw [List.append_assoc, ← List.flatMap_append, List.take_append_drop]
  have horder := h.order_eq
  rw [hsplit, firsts_append] at horder
  generalize hmet : start ++ (order.take n).flatMap next = met at horder
  generalize firsts key (met.map key ++ []) ((order.drop n).flatMap next) = rest at horder
  by_cases hn : n < (firsts key [] met).length
  · conv_lhs => rw [horder]
    exact List.getElem?_append_left hn
  · -- a member at this place would be met for the second time
    have hnone : (firsts key [] met)[n]? = none := List.getElem?_eq_none (by omega)
    rw [hnone]
    cases hx : order[n]? with
    | none => rfl
    | some x =>
      exfalso
      -- it has been met from a member before it, and again where the order lists it
      have hkey : key x ∈ (firsts key [] met).map key := by
        rw [mem_map_key_firsts, ← hmet]
        exact ⟨List.mem_map_of_mem (h.earlier n x hx), List.not_mem_nil⟩
      have hrest : x ∈ rest := by
        rw [horder, List.getElem?_append_right (by omega)] at hx
        exact List.mem_of_getElem? hx
      have hnodup := h.nodup
      rw [horder, List.map_append, List.nodup_append] at hnodup
      exact hnodup.2.2 _ hkey _ (List.mem_map_of_mem hrest) rfl

/-- There is one breadth-first order only. -/
theorem unique {order' : List α} (h : BreadthFirst key next start order)
    (h' : BreadthFirst key next start order') : order = order' := by
  apply List.ext_getElem?
  intro n
  induction n using Nat.strongRecOn with
  | ind n ih =>
    have htake : order.take n = order'.take n := by
      apply List.ext_getElem?
      intro k
      rw [List.getElem?_take, List.getElem?_take]
      split
      · rename_i hk; exact ih k hk
      · rfl
    rw [h.getElem?_eq, h'.getElem?_eq, htake]

end BreadthFirst

/-! ## Searching -/

/-- What a search with a queue has done: it has visited some members, and what they and the start
lead to has been taken from the queue or waits there. -/
structure Searching (key : α → κ) (next : α → List α) (start done queue : List α) : Prop where
  met : ∃ met, start ++ done.flatMap next = met ++ queue ∧ done = firsts key [] met
  earlier : ∀ (k : Nat) (x : α), done[k]? = some x → x ∈ start ++ (done.take k).flatMap next

namespace Searching

variable {next : α → List α} {start done queue : List α} {x : α}

theorem init (next : α → List α) (start : List α) : Searching key next start [] start where
  met := ⟨[], by simp, rfl⟩
  earlier _ _ h := by simp at h

/-- A member whose key has been visited is passed over. -/
theorem skip (h : Searching key next start done (x :: queue)) (hx : key x ∈ done.map key) :
    Searching key next start done queue := by
  obtain ⟨met, hmet, hdone⟩ := h.met
  refine ⟨⟨met ++ [x], by simpa using hmet, ?_⟩, h.earlier⟩
  rw [hdone] at hx
  rw [firsts_concat_of_mem hx, ← hdone]

/-- Another member is visited, and what it leads to waits behind the rest. -/
theorem visit (h : Searching key next start done (x :: queue)) (hx : key x ∉ done.map key) :
    Searching key next start (done ++ [x]) (queue ++ next x) := by
  obtain ⟨met, hmet, hdone⟩ := h.met
  refine ⟨⟨met ++ [x], ?_, ?_⟩, ?_⟩
  · rw [List.flatMap_append, ← List.append_assoc, hmet]
    simp
  · rw [hdone] at hx
    rw [firsts_concat_of_not_mem hx, ← hdone]
  · intro k y hy
    rcases Nat.lt_or_ge k done.length with hk | hk
    · rw [List.getElem?_append_left hk] at hy
      rw [List.take_append_of_le_length (Nat.le_of_lt hk)]
      exact h.earlier k y hy
    · -- the new member has waited in the queue
      obtain ⟨rfl, hyx⟩ : k = done.length ∧ x = y := by
        rw [List.getElem?_append_right hk, List.getElem?_singleton] at hy
        split at hy
        · cases hy; exact ⟨by omega, rfl⟩
        · cases hy
      rw [List.take_left, hmet, ← hyx]
      simp

/-- Once nothing waits, the visits are in breadth-first order. -/
theorem finish (h : Searching key next start done []) : BreadthFirst key next start done := by
  obtain ⟨met, hmet, hdone⟩ := h.met
  rw [List.append_nil] at hmet
  exact ⟨by rw [hmet, ← hdone], h.earlier⟩

end Searching

end BreadthFirst

end LangGen
