/-
Gathering follows references breadth-first. Each round of the search passes over a file that has
been visited or visits the next one, so the search ends, and what it comes to is what the visits
come to, one after the other in breadth-first order (`gatherFrom_eq_foldlM`). It succeeds exactly if
all files that are reached are sound and no reference is looked up by a path that is too long.
-/
import LangGen.Proofs.Files.BreadthFirst
import LangGen.Proofs.Files.Visit

namespace LangGen.Files

variable {t : Tree} {strict : Bool}

/-- The location of the file of an entry. -/
def place (e : Entry t) : Location := e.2.1.1

/-! ## Rounds -/

/-- The state of a search: the files that wait, the locations that have been visited, and the catalog. -/
structure Search (t : Tree) where
  queue : List (Entry t)
  seen : List Location := []
  catalog : Catalog := {}

namespace Search

/-- One round of a search, which ends it or leaves it in another state. -/
def round (strict : Bool) (s : Search t) : Except Halt Catalog ⊕ Search t :=
  match s.queue with
  | [] => .inl (.ok s.catalog)
  | e :: queue =>
    if place e ∈ s.seen then .inr { s with queue := queue }
    else
      match visit t strict e with
      | .error h => .inl (.error h)
      | .ok (file, entries) => .inr ⟨queue ++ entries, place e :: s.seen, s.catalog.merge file⟩

/-- What a search ends with, if it does so within `n` rounds. -/
def run (strict : Bool) : Nat → Search t → Option (Except Halt Catalog)
  | 0, _ => none
  | n + 1, s =>
    match s.round strict with
    | .inl result => some result
    | .inr s => run strict n s

end Search

theorem gatherFrom_nil (seen : List Location) (c : Catalog) : gatherFrom t true strict [] seen c = .ok c := by
  rw [gatherFrom]

theorem gatherFrom_cons_of_mem {e : Entry t} {seen : List Location} (h : place e ∈ seen)
    (queue : List (Entry t)) (c : Catalog) :
    gatherFrom t true strict (e :: queue) seen c = gatherFrom t true strict queue seen c := by
  have hseen : e.2.1.1 ∈ seen := h
  rw [gatherFrom, dif_pos hseen]

theorem gatherFrom_cons {e : Entry t} {seen : List Location} (h : place e ∉ seen)
    (queue : List (Entry t)) (c : Catalog) :
    gatherFrom t true strict (e :: queue) seen c =
      match visit t strict e with
      | .error h => .error h
      | .ok (file, entries) => gatherFrom t true strict (queue ++ entries) (place e :: seen) (c.merge file) := by
  have hseen : e.2.1.1 ∉ seen := h
  rw [gatherFrom, dif_neg hseen]
  unfold visit
  cases textOf e.1 e.2.1.2 with
  | error f => rfl
  | ok content =>
    dsimp only
    rcases Catalog.readContent strict (some e.1.text) {} content with ⟨file, _ | f⟩
    · dsimp only
      rw [if_pos rfl]
      cases entriesOf t e.1 file.references <;> rfl
    · rfl

/-- Gathering goes on round by round. -/
theorem gatherFrom_eq_round (s : Search t) :
    gatherFrom t true strict s.queue s.seen s.catalog =
      match s.round strict with
      | .inl result => result
      | .inr s => gatherFrom t true strict s.queue s.seen s.catalog := by
  obtain ⟨queue, seen, c⟩ := s
  unfold Search.round
  cases queue with
  | nil => exact gatherFrom_nil seen c
  | cons e queue =>
    dsimp only
    by_cases h : place e ∈ seen
    · rw [gatherFrom_cons_of_mem h, if_pos h]
    · rw [gatherFrom_cons h, if_neg h]
      rcases visit t strict e with h | ⟨file, entries⟩ <;> rfl

/-! ## The order of visits -/

/-- The files that a search visits as long as no visit fails: of those that wait, each that has not
been visited, and behind the others what it refers to. -/
def visitsFrom (t : Tree) (strict : Bool) (queue : List (Entry t)) (seen : List Location) : List (Entry t) :=
  match queue with
  | [] => []
  | e :: queue =>
    if _h : place e ∈ seen then visitsFrom t strict queue seen
    else e :: visitsFrom t strict (queue ++ next t strict e) (place e :: seen)
termination_by (unseen t seen, queue.length)
decreasing_by
  · exact Prod.Lex.right _ (by simp)
  · exact Prod.Lex.left _ _ (unseen_cons_lt t seen e.2.1 e.2.2 _h)

/-- The files are visited in breadth-first order. -/
theorem visitsFrom_breadthFirst {start : List (Entry t)} (queue : List (Entry t)) (seen : List Location) :
    ∀ {done : List (Entry t)}, Searching place (next t strict) start done queue →
      (∀ l, l ∈ seen ↔ l ∈ done.map place) →
        BreadthFirst place (next t strict) start (done ++ visitsFrom t strict queue seen) := by
  -- round by round, with what has been visited in `done`
  induction queue, seen using visitsFrom.induct t strict with
  | case1 seen =>
    intro done h _
    rw [visitsFrom, List.append_nil]
    exact h.finish
  | case2 seen e queue hseen ih =>
    intro done h hmem
    rw [visitsFrom, dif_pos hseen]
    exact ih (h.skip ((hmem _).1 hseen)) hmem
  | case3 seen e queue hseen ih =>
    intro done h hmem
    rw [visitsFrom, dif_neg hseen]
    have hdone := ih (h.visit fun hx => hseen ((hmem _).2 hx)) fun l => by
      rw [List.mem_cons, List.map_append, List.mem_append, hmem]
      simp [or_comm]
    rwa [List.append_assoc, List.singleton_append] at hdone

/-- Gathering is visiting one file after the other, and merging their catalogs. -/
theorem gatherFrom_eq_foldlM (queue : List (Entry t)) (seen : List Location) : ∀ c : Catalog,
    gatherFrom t true strict queue seen c =
      (visitsFrom t strict queue seen).foldlM (fun c e => (visit t strict e).map fun v => c.merge v.1) c := by
  induction queue, seen using visitsFrom.induct t strict with
  | case1 seen =>
    intro c
    rw [gatherFrom_nil, visitsFrom]
    rfl
  | case2 seen e queue hseen ih =>
    intro c
    rw [gatherFrom_cons_of_mem hseen, visitsFrom, dif_pos hseen, ih]
  | case3 seen e queue hseen ih =>
    intro c
    rw [gatherFrom_cons hseen, visitsFrom, dif_neg hseen, List.foldlM_cons]
    rcases visit_cases t strict e with ⟨file, -, hvisit, -⟩ | ⟨h, hvisit, -⟩
    · rw [hvisit]
      exact ih (c.merge file)
    · rw [hvisit]
      rfl

/-- A search ends if it does so after its first round. -/
theorem exists_run_of_round (s : Search t) (h : ∀ s', s.round strict = .inr s' →
    ∃ n, Search.run strict n s' = some (gatherFrom t true strict s'.queue s'.seen s'.catalog)) :
    ∃ n, Search.run strict n s = some (gatherFrom t true strict s.queue s.seen s.catalog) := by
  rw [gatherFrom_eq_round]
  cases hround : s.round strict with
  | inl result => exact ⟨1, by rw [Search.run, hround]⟩
  | inr s' =>
    obtain ⟨n, hn⟩ := h s' hround
    exact ⟨n + 1, by rw [Search.run, hround]; exact hn⟩

/-- A search ends. -/
theorem exists_run (queue : List (Entry t)) (seen : List Location) : ∀ c : Catalog,
    ∃ n, Search.run strict n ⟨queue, seen, c⟩ = some (gatherFrom t true strict queue seen c) := by
  induction queue, seen using visitsFrom.induct t strict with
  | case1 seen =>
    refine fun c => exists_run_of_round ⟨[], seen, c⟩ fun s' h => ?_
    rw [Search.round] at h
    cases h
  | case2 seen e queue hseen ih =>
    refine fun c => exists_run_of_round ⟨e :: queue, seen, c⟩ fun s' h => ?_
    rw [Search.round] at h
    dsimp only at h
    rw [if_pos hseen] at h
    cases h
    exact ih c
  | case3 seen e queue hseen ih =>
    refine fun c => exists_run_of_round ⟨e :: queue, seen, c⟩ fun s' h => ?_
    rw [Search.round] at h
    dsimp only at h
    rw [if_neg hseen] at h
    rcases visit_cases t strict e with ⟨file, -, hvisit, -⟩ | ⟨_, hvisit, -⟩
    · rw [hvisit] at h
      cases h
      exact ih (c.merge file)
    · rw [hvisit] at h
      cases h

/-! ## Visits in order -/

/-- Visits succeed all, and then their catalogs are merged, or end with the first that fails. -/
theorem foldlM_visit_cases (t : Tree) (strict : Bool) : ∀ (order : List (Entry t)) (c : Catalog),
    ((∀ e ∈ order, ∃ v, visit t strict e = .ok v) ∧
      order.foldlM (fun c e => (visit t strict e).map fun v => c.merge v.1) c =
        .ok ((order.filterMap fun e => catalogOf? strict e.2.1.2).foldl Catalog.merge c)) ∨
      ∃ done e rest h, order = done ++ e :: rest ∧ (∀ d ∈ done, ∃ v, visit t strict d = .ok v) ∧
        visit t strict e = .error h ∧ Fails t strict e h ∧
        order.foldlM (fun c e => (visit t strict e).map fun v => c.merge v.1) c = .error h
  | [], c => .inl ⟨by simp, rfl⟩
  | e :: order, c => by
    rw [List.foldlM_cons]
    rcases visit_cases t strict e with ⟨file, hfile, hvisit, -⟩ | ⟨h, hvisit, hfails, -⟩
    · rw [hvisit]
      rcases foldlM_visit_cases t strict order (c.merge file) with
        ⟨hall, hok⟩ | ⟨done, e', rest, h, rfl, hdone, hvisit', hfails, herr⟩
      · refine .inl ⟨List.forall_mem_cons.2 ⟨⟨_, hvisit⟩, hall⟩, ?_⟩
        rw [List.filterMap_cons, hfile, List.foldl_cons]
        exact hok
      · exact .inr ⟨e :: done, e', rest, h, rfl, List.forall_mem_cons.2 ⟨⟨_, hvisit⟩, hdone⟩, hvisit', hfails, herr⟩
    · rw [hvisit]
      exact .inr ⟨[], e, order, h, rfl, by simp, hvisit, hfails, rfl⟩

section Order

variable {p : Path} {f : t.File} {order : List (Entry t)}

theorem refer_eq_some {e e' : Entry t} (h : e' ∈ next t strict e) :
    ∃ r ∈ referencesOf strict e.2.1.2, e'.1 = lookupPath e.1 r ∧ t.file? (lookupPath e.1 r) = .ok (some e'.2) := by
  obtain ⟨r, hr, hrefer⟩ := List.mem_filterMap.1 h
  unfold refer at hrefer
  split at hrefer
  · rename_i g hg
    cases hrefer
    exact ⟨r, hr, rfl, hg⟩
  · cases hrefer

theorem mem_next {e : Entry t} {r : Text} (hr : r ∈ referencesOf strict e.2.1.2) {g : t.File}
    (hg : t.file? (lookupPath e.1 r) = .ok (some g)) : (lookupPath e.1 r, g) ∈ next t strict e := by
  refine List.mem_filterMap.2 ⟨r, hr, ?_⟩
  unfold refer
  rw [hg]

variable (ht : t.WellFormed) (hf : t.file? p = .ok (some f))
  (horder : BreadthFirst place (next t strict) [(p, f)] order)

include ht hf horder

/-- The files in the order are reached, and each path leads to its file. -/
theorem reaches_of_mem : ∀ e ∈ order, t.file? e.1 = .ok (some e.2) ∧ Reaches t strict f e.2 := by
  refine horder.forall_of_next (fun e he => ?_) fun e ⟨he, hreach⟩ e' he' => ?_
  · rw [List.mem_singleton.1 he]
    exact ⟨hf, .refl⟩
  · obtain ⟨r, hr, hpath, hfile⟩ := refer_eq_some he'
    refine ⟨by rw [hpath]; exact hfile, hreach.tail ⟨r, hr, ?_⟩⟩
    exact ((Tree.file?_reference ht he _).1 hfile).2

/-- A location in the order is that of the file that is found there. -/
theorem mem_of_place {g : t.File} (hg : t.fileAt? g.1.1 = some g) (h : g.1.1 ∈ order.map place) :
    ∃ e ∈ order, e.2 = g := by
  obtain ⟨e, he, hplace⟩ := List.mem_map.1 h
  obtain ⟨hfile, -⟩ := reaches_of_mem ht hf horder e he
  -- a location tells the file: it is the first one of the tree that is there
  have hat := Tree.fileAt?_of_fileFrom? (Tree.file?_eq_some.1 hfile).2
  have hsame : e.2.1.1 = g.1.1 := hplace
  rw [hsame, hg] at hat
  exact ⟨e, he, (Option.some.inj hat).symm⟩

/-- As long as no reference is looked up by a path that is too long, the files in the order are all
that are reached. -/
theorem mem_of_reaches (hshort : ∀ e ∈ order, ∀ r ∈ referencesOf strict e.2.1.2, ¬ (lookupPath e.1 r).TooLong)
    {g : t.File} (hg : Reaches t strict f g) : ∃ e ∈ order, e.2 = g := by
  -- along the references from the root: what a file of the order refers to is met when it is visited
  induction hg with
  | refl =>
    refine mem_of_place ht hf horder (Tree.fileAt?_of_fileFrom? (Tree.file?_eq_some.1 hf).2) ?_
    exact horder.mem_of_start (x := (p, f)) List.mem_cons_self
  | tail _ hrefers ih =>
    obtain ⟨e, he, rfl⟩ := ih
    obtain ⟨r, hr, hfrom⟩ := hrefers
    refine mem_of_place ht hf horder (Tree.fileAt?_of_fileFrom? hfrom) ?_
    have hlook := (Tree.file?_reference ht (reaches_of_mem ht hf horder e he).1 (Path.ofText r)).2
      ⟨hshort e he r hr, hfrom⟩
    exact horder.mem_of_next he (mem_next hr hlook)

/-- All visits in the order succeed exactly if all files that are reached are sound, and no path
gets too long. -/
theorem visits_succeed_iff : (∀ e ∈ order, ∃ v, visit t strict e = .ok v) ↔
    (∀ g, Reaches t strict f g → Sound t strict g) ∧
      ∀ e ∈ order, ∀ r ∈ referencesOf strict e.2.1.2, ¬ (lookupPath e.1 r).TooLong := by
  have hreach := reaches_of_mem ht hf horder
  constructor
  · intro hall
    have hvisit := fun e he => (visit_succeeds_iff ht (hreach e he).1).1 (hall e he)
    have hshort := fun e he => (hvisit e he).2
    refine ⟨fun g hg => ?_, hshort⟩
    obtain ⟨e, he, rfl⟩ := mem_of_reaches ht hf horder hshort hg
    exact (hvisit e he).1
  · rintro ⟨hsound, hshort⟩ e he
    exact (visit_succeeds_iff ht (hreach e he).1).2 ⟨hsound _ (hreach e he).2, hshort e he⟩

end Order

/-! ## Gathering -/

/-- What gathering the file `f`, which the path `p` leads to, comes to. -/
structure Gathered (t : Tree) (strict : Bool) (p : Path) (f : t.File) (order : List (Entry t)) : Prop where
  /-- The search ends. -/
  ends : ∃ n, Search.run strict n ⟨[(p, f)], [], {}⟩ = some (gather t true strict p)
  /-- Files are met from the root on, each when it is referred to first. -/
  breadthFirst : BreadthFirst place (next t strict) [(p, f)] order
  reached : ∀ e ∈ order, t.file? e.1 = .ok (some e.2) ∧ Reaches t strict f e.2
  /-- Gathering succeeds if all files that are reached are sound, and no path gets too long. -/
  succeeds_iff : (∃ c, gather t true strict p = .ok c) ↔
    (∀ g, Reaches t strict f g → Sound t strict g) ∧
      ∀ e ∈ order, ∀ r ∈ referencesOf strict e.2.1.2, ¬ (lookupPath e.1 r).TooLong
  /-- Then it is the merge of the catalogs of the files that are reached, each taken once. -/
  result : ∀ c, gather t true strict p = .ok c →
    (∀ g, Reaches t strict f g ↔ ∃ e ∈ order, e.2 = g) ∧ (order.map place).Nodup ∧
      c = (order.filterMap fun e => catalogOf? strict e.2.1.2).foldl Catalog.merge {}
  /-- Else the first file in the order that cannot be visited tells why, under the path that has led
  there. -/
  failure : ∀ h, gather t true strict p = .error h → ∃ done e rest, order = done ++ e :: rest ∧
    (∀ d ∈ done, Sound t strict d.2 ∧ ∀ r ∈ referencesOf strict d.2.1.2, ¬ (lookupPath d.1 r).TooLong) ∧
      Fails t strict e h ∧
        ((∃ f, h = .failure f ∧ f.file? = some e.1.text) ∨
          h = .file .nameTooLong ∧ ∃ r ∈ referencesOf strict e.2.1.2, (lookupPath e.1 r).Oversized)

theorem gathered_visitsFrom (ht : t.WellFormed) {p : Path} {f : t.File} (hf : t.file? p = .ok (some f)) :
    Gathered t strict p f (visitsFrom t strict [(p, f)] []) := by
  have horder : BreadthFirst place (next t strict) [(p, f)] (visitsFrom t strict [(p, f)] []) := by
    simpa using visitsFrom_breadthFirst [(p, f)] [] (Searching.init (next t strict) [(p, f)]) (by simp)
  have hgather : gather t true strict p = gatherFrom t true strict [(p, f)] [] {} := by
    unfold gather
    rw [hf]
  have hfold : gather t true strict p = _ := hgather.trans (gatherFrom_eq_foldlM [(p, f)] [] {})
  -- that the order is breadth-first is all that is needed of it
  generalize visitsFrom t strict [(p, f)] [] = order at hfold horder
  have hreach := reaches_of_mem ht hf horder
  have hiff := visits_succeed_iff ht hf horder
  have hends : ∃ n, Search.run strict n ⟨[(p, f)], [], {}⟩ = some (gather t true strict p) := by
    rw [hgather]
    exact exists_run _ _ _
  rcases foldlM_visit_cases t strict order {} with ⟨hall, hok⟩ | ⟨done, e, rest, h, rfl, hdone, herr, hfails, hend⟩
  · rw [hok] at hfold
    refine ⟨hends, horder, hreach, iff_of_true ⟨_, hfold⟩ (hiff.1 hall), fun c hc => ?_, fun h hh => ?_⟩
    · refine ⟨fun g => ⟨mem_of_reaches ht hf horder (hiff.1 hall).2, ?_⟩, horder.nodup, ?_⟩
      · rintro ⟨e, he, rfl⟩
        exact (hreach e he).2
      · rw [hfold] at hc
        cases hc
        rfl
    · rw [hfold] at hh
      cases hh
  · rw [hend] at hfold
    have hnot : ¬ ∀ d ∈ done ++ e :: rest, ∃ v, visit t strict d = .ok v := by
      intro hall
      obtain ⟨v, hv⟩ := hall e (by simp)
      rw [herr] at hv
      cases hv
    refine ⟨hends, horder, hreach, iff_of_false ?_ fun h => hnot (hiff.2 h), fun c hc => ?_, fun h' hh => ?_⟩
    · rintro ⟨c, hc⟩
      rw [hfold] at hc
      cases hc
    · rw [hfold] at hc
      cases hc
    · rw [hfold] at hh
      cases hh
      refine ⟨done, e, rest, rfl, fun d hd => ?_, hfails, hfails.source⟩
      exact (visit_succeeds_iff ht (hreach d (List.mem_append_left _ hd)).1).1 (hdone d hd)

/-- Gathering with references. A root that is oversized or leads to no file is reported as such;
else files are gathered in the one breadth-first order. -/
theorem gather_cases (ht : t.WellFormed) (strict : Bool) (p : Path) :
    match t.file? p with
    | .error _ => p.Oversized ∧ gather t true strict p = .error (.file .nameTooLong)
    | .ok none =>
      gather t true strict p =
        .error (.failure { fault := .invalidReference p.text "LG file does not exist".toList })
    | .ok (some f) => ∃! order, Gathered t strict p f order := by
  cases hfile : t.file? p with
  | error e =>
    obtain ⟨rfl, hsize⟩ := Tree.file?_eq_error hfile
    refine ⟨hsize, ?_⟩
    unfold gather
    rw [hfile]
  | ok found =>
    cases found with
    | none =>
      dsimp only
      unfold gather
      rw [hfile]
    | some f =>
      have h : Gathered t strict p f _ := gathered_visitsFrom ht hfile
      exact ⟨_, h, fun _ h' => h'.breadthFirst.unique h.breadthFirst⟩

/-- Two files that refer to each other, one in the working folder and one outside it: the second
reference leaves that folder and comes back to it by its name. -/
def cycle : Tree where
  working := ⟨["lg".toList]⟩
  folders := [⟨["lg".toList]⟩, ⟨["shared".toList]⟩]
  files := [(⟨["lg".toList, "a.lg".toList]⟩, Text.Utf8.encode "[b](../shared/b.lg)".toList),
    (⟨["shared".toList, "b.lg".toList]⟩, Text.Utf8.encode "[a](../lg/a.lg)".toList)]

theorem gather_cases_cycle : cycle.WellFormed ∧
    cycle.file? (Path.ofText "../shared/../lg/a.lg".toList) = cycle.file? (Path.ofText "a.lg".toList) ∧
    ∃! order, Gathered cycle true (Path.ofText "a.lg".toList) ⟨_, List.mem_cons_self⟩ order :=
  ⟨by decide, rfl, gather_cases (t := cycle) (by decide) true (Path.ofText "a.lg".toList)⟩

/-- A file with a reference to this name, where no file is. -/
def referring (name : Text) : Tree where
  files := [(⟨["a.lg".toList]⟩, Text.Utf8.encode ("[r](".toList ++ name ++ ")".toList))]

set_option maxRecDepth 8000 in
/-- A reference that leads to no file is not reported as such if its name is too long, and the
failure tells no file. -/
theorem gather_not_sourced :
    let t := referring (List.replicate 256 'n')
    let p := Path.ofText "a.lg".toList
    t.WellFormed ∧ (∃ f, t.file? p = .ok (some f)) ∧
      ∃ h, gather t true true p = .error h ∧ ∀ f, h ≠ .failure f := by
  intro t p
  have hroot : t.file? p = .ok (some ⟨_, List.mem_cons_self⟩) := rfl
  have hvisit : visit t true (p, ⟨_, List.mem_cons_self⟩) = .error (.file .nameTooLong) := rfl
  refine ⟨by decide, ⟨_, hroot⟩, .file .nameTooLong, ?_, by simp⟩
  unfold gather
  rw [hroot]
  dsimp only
  rw [gatherFrom_cons (by simp), hvisit]

end LangGen.Files
