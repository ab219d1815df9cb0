/-
Written values are read back. Each part of a written value spells its lexemes whatever follows it
(`Spells`), so that the layout is gone once the text has been split; and the lexemes of a value take
the reader from expecting a value to having read it, with the open containers as they were
(`reads_lexemesOf`).
-/
import LangGen.Json.Printer
import LangGen.Json.Reader
import Mathlib.Data.List.Basic

namespace LangGen.Json

/-! ## Characters -/

theorem hexValue?_hexDigit : ∀ d < 16, hexValue? (Text.hexDigit d) = some d := by decide

/-- Four digits are read back as the number that they are written for. -/
theorem hex4?_hex {n : Nat} (h : n < 0x10000) :
    ∃ a b c d, Text.hex 4 n = [a, b, c, d] ∧ hex4? a b c d = some n := by
  refine ⟨_, _, _, _, rfl, ?_⟩
  unfold hex4?
  rw [hexValue?_hexDigit _ (Nat.mod_lt _ (by omega)), hexValue?_hexDigit _ (Nat.mod_lt _ (by omega)),
    hexValue?_hexDigit _ (Nat.mod_lt _ (by omega)), hexValue?_hexDigit _ (Nat.mod_lt _ (by omega))]
  simp only [Option.bind_eq_bind, Option.bind_some, Option.pure_def, Option.some.injEq]
  omega

/-- A character is written as itself, or as a backslash and what it is read back from. -/
theorem escapeChar_cases (c : Char) :
    (escapeChar c = [c] ∧ c ≠ '"' ∧ c ≠ '\\' ∧ 32 ≤ c.toNat) ∨
      ∃ e, escapeChar c = '\\' :: e ∧ ∀ r, escape? (e ++ r) = some (c, e.length) := by
  have hnat : ∀ n, c.toNat = n → c = Char.ofNat n := fun n h => by rw [← h, Char.ofNat_toNat]
  unfold escapeChar
  split_ifs with hquote hslash hn hr ht hb hf hcontrol
  · exact .inr ⟨['"'], rfl, fun r => by rw [hquote]; rfl⟩
  · exact .inr ⟨['\\'], rfl, fun r => by rw [hslash]; rfl⟩
  · exact .inr ⟨['n'], rfl, fun r => by rw [hn]; rfl⟩
  · exact .inr ⟨['r'], rfl, fun r => by rw [hr]; rfl⟩
  · exact .inr ⟨['t'], rfl, fun r => by rw [ht]; rfl⟩
  · exact .inr ⟨['b'], rfl, fun r => by rw [hnat 8 hb]; rfl⟩
  · exact .inr ⟨['f'], rfl, fun r => by rw [hnat 12 hf]; rfl⟩
  · obtain ⟨a, b, c', d, hhex, hread⟩ := hex4?_hex (n := c.toNat) (by omega)
    refine .inr ⟨'u' :: Text.hex 4 c.toNat, rfl, fun r => ?_⟩
    rw [hhex]
    simp [escape?, unicodeEscape?, hread, show c.toNat < 0xD800 by omega, Char.ofNat_toNat]
  · exact .inl ⟨rfl, hquote, hslash, by omega⟩

/-! ## Strings -/

theorem stringFrom_skip (u r : Text) :
    stringFrom u.length (u ++ r) = (stringFrom 0 r).map fun p => (p.1, p.2 + u.length) := by
  induction u with
  | nil => simp
  | cons c u ih =>
    rw [List.length_cons, List.cons_append, stringFrom, ih, Option.map_map]
    rfl

theorem stringFrom_escapeChar (c : Char) (r : Text) :
    stringFrom 0 (escapeChar c ++ r) =
      (stringFrom 0 r).map fun p => (c :: p.1, p.2 + (escapeChar c).length) := by
  rcases escapeChar_cases c with ⟨he, hquote, hslash, hcontrol⟩ | ⟨e, he, hread⟩
  · rw [he, List.singleton_append, stringFrom, if_neg hquote, if_neg hslash, if_neg (by omega)]
    rfl
  · rw [he, List.cons_append, stringFrom, if_neg (by decide), if_pos rfl, hread, Option.bind_some,
      stringFrom_skip, Option.map_map]
    rfl

/-- A string is read up to the quote that ends it. -/
theorem stringFrom_flatMap (s r : Text) :
    stringFrom 0 (s.flatMap escapeChar ++ '"' :: r) = some (s, (s.flatMap escapeChar).length + 1) := by
  induction s with
  | nil => rfl
  | cons c s ih =>
    rw [List.flatMap_cons, List.append_assoc, stringFrom_escapeChar, ih, Option.map_some,
      List.length_append]
    simp only [Option.some.injEq, Prod.mk.injEq, true_and]
    omega

/-! ## Lexemes -/

/-- Whether a text is split into these lexemes whatever follows it. -/
def Spells (limits : Limits) (text : Text) (ls : List Lexeme) : Prop :=
  ∀ r, lexemesFrom limits 0 (text ++ r) = (lexemesFrom limits 0 r).map (ls ++ ·)

section Spelling

variable {limits : Limits}

theorem Spells.nil : Spells limits [] [] := fun r => by simp

theorem Spells.append {s t : Text} {as bs : List Lexeme} (hs : Spells limits s as)
    (ht : Spells limits t bs) : Spells limits (s ++ t) (as ++ bs) := by
  intro r
  rw [List.append_assoc, hs, ht, Option.map_map]
  congr 1
  funext ls
  exact (List.append_assoc ..).symm

theorem lexemesFrom_skip (u r : Text) : lexemesFrom limits u.length (u ++ r) = lexemesFrom limits 0 r := by
  induction u with
  | nil => rfl
  | cons c u ih => exact ih

/-- A text whose first lexeme takes all of it spells that lexeme. -/
theorem Spells.of_lexeme? {c : Char} {u : Text} {l : Lexeme} (hblank : isBlank c = false)
    (h : ∀ r, lexeme? limits (c :: (u ++ r)) = some (l, u.length + 1)) : Spells limits (c :: u) [l] := by
  intro r
  rw [List.cons_append, lexemesFrom, hblank, if_neg Bool.false_ne_true, h]
  simp only [Option.bind_some, Nat.add_sub_cancel, lexemesFrom_skip]
  rfl

theorem Spells.blank {c : Char} {s : Text} {ls : List Lexeme} (hc : isBlank c = true)
    (hs : Spells limits s ls) : Spells limits (c :: s) ls := by
  intro r
  rw [List.cons_append, lexemesFrom, if_pos hc, hs]

theorem Spells.blanks {s : Text} (h : ∀ c ∈ s, isBlank c = true) : Spells limits s [] := by
  induction s with
  | nil => exact .nil
  | cons c s ih => exact .blank (h c List.mem_cons_self) (ih fun x hx => h x (.tail c hx))

theorem isBlank_of_mark? {c : Char} {l : Lexeme} (h : mark? c = some l) : isBlank c = false := by
  unfold mark? at h
  split_ifs at h <;> (subst c; rfl)

theorem Spells.mark {c : Char} {l : Lexeme} {s : Text} {ls : List Lexeme} (h : mark? c = some l)
    (hs : Spells limits s ls) : Spells limits (c :: s) (l :: ls) := by
  have hmark : Spells limits [c] [l] :=
    .of_lexeme? (isBlank_of_mark? h) fun r => by simp only [lexeme?, h, List.length_nil]
  exact hmark.append hs

theorem spells_writeString (s : Text) : Spells limits (writeString s) [.string s] := by
  have hwrite : writeString s = '"' :: (s.flatMap escapeChar ++ ['"']) := rfl
  have hmark : mark? '"' = none := rfl
  rw [hwrite]
  refine .of_lexeme? rfl fun r => ?_
  rw [List.append_assoc, List.singleton_append, lexeme?]
  simp only [hmark, if_true, stringFrom_flatMap, Option.map_some, List.length_append, List.length_singleton]

/-! ### Layout -/

theorem spells_newLine (l : Layout) (level : Nat) : Spells limits (l.newLine level) [] := by
  cases l with
  | compact => exact .nil
  | lines indent =>
    refine .blank rfl (.blanks fun c hc => ?_)
    rw [List.eq_of_mem_replicate hc]
    rfl

theorem spells_colon (l : Layout) : Spells limits l.colon [.colon] := by
  cases l with
  | compact => exact .mark rfl .nil
  | lines _ => exact .mark rfl (.blank rfl .nil)

end Spelling

/-! ## Values -/

/-- A value without numbers that is nested at most `n` deep. What a number is read as depends on
what follows it. -/
inductive Plain : Nat → Json → Prop
  | null {n : Nat} : Plain n .null
  | bool {n : Nat} (b : Bool) : Plain n (.bool b)
  | string {n : Nat} (s : Text) : Plain n (.string s)
  | array {n : Nat} {items : List Json} (h : ∀ j ∈ items, Plain n j) : Plain (n + 1) (.array items)
  | object {n : Nat} {members : List (Text × Json)} (h : ∀ m ∈ members, Plain n m.2) :
    Plain (n + 1) (.object members)

mutual

/-- The lexemes of a value. -/
def lexemesOf : Json → List Lexeme
  | null => [.null]
  | bool b => [.bool b]
  | number literal => [.number literal]
  | string s => [.string s]
  | array [] => [.openArray, .closeArray]
  | array (item :: items) => .openArray :: (lexemesOf item ++ lexemesOfItems items)
  | object [] => [.openObject, .closeObject]
  | object ((key, value) :: members) =>
    .openObject :: .string key :: .colon :: (lexemesOf value ++ lexemesOfMembers members)

/-- The lexemes of the items after the first one, and of the end of the array. -/
def lexemesOfItems : List Json → List Lexeme
  | [] => [.closeArray]
  | item :: items => .comma :: (lexemesOf item ++ lexemesOfItems items)

/-- The lexemes of the members after the first one, and of the end of the object. -/
def lexemesOfMembers : List (Text × Json) → List Lexeme
  | [] => [.closeObject]
  | (key, value) :: members =>
    .comma :: .string key :: .colon :: (lexemesOf value ++ lexemesOfMembers members)

end

section Writing

variable {limits : Limits} {l : Layout}

theorem spells_item {level : Nat} {j : Json} (hj : Spells limits (write l level j) (lexemesOf j)) :
    Spells limits (l.newLine level ++ write l level j) (lexemesOf j) :=
  (spells_newLine l level).append hj

theorem spells_member {level : Nat} {key : Text} {j : Json}
    (hj : Spells limits (write l level j) (lexemesOf j)) :
    Spells limits (l.newLine level ++ writeString key ++ l.colon ++ write l level j)
      (.string key :: .colon :: lexemesOf j) :=
  (((spells_newLine l level).append (spells_writeString key)).append (spells_colon l)).append hj

theorem spells_writeItems (level : Nat) : ∀ items : List Json,
    (∀ j ∈ items, Spells limits (write l (level + 1) j) (lexemesOf j)) →
      Spells limits (writeItems l level items) (lexemesOfItems items)
  | [], _ => (spells_newLine l level).append (.mark rfl .nil)
  | item :: items, h => by
    rw [writeItems, lexemesOfItems]
    exact .mark rfl ((spells_item (h item List.mem_cons_self)).append
      (spells_writeItems level items fun j hj => h j (.tail item hj)))

theorem spells_writeMembers (level : Nat) : ∀ members : List (Text × Json),
    (∀ m ∈ members, Spells limits (write l (level + 1) m.2) (lexemesOf m.2)) →
      Spells limits (writeMembers l level members) (lexemesOfMembers members)
  | [], _ => (spells_newLine l level).append (.mark rfl .nil)
  | (key, value) :: members, h => by
    rw [writeMembers, lexemesOfMembers]
    exact .mark rfl ((spells_member (h (key, value) List.mem_cons_self)).append
      (spells_writeMembers level members fun m hm => h m (.tail _ hm)))

/-- In every layout and at every level, a value is split into its lexemes. -/
theorem spells_write {n : Nat} {j : Json} (h : Plain n j) (level : Nat) :
    Spells limits (write l level j) (lexemesOf j) := by
  induction h generalizing level with
  | null => exact .of_lexeme? rfl fun r => rfl
  | bool b => cases b <;> exact .of_lexeme? rfl fun r => rfl
  | string s =>
    rw [write]
    exact spells_writeString s
  | @array n items h ih =>
    cases items with
    | nil => exact .mark rfl (.mark rfl .nil)
    | cons item items =>
      rw [write, lexemesOf]
      exact .mark rfl ((spells_item (ih item List.mem_cons_self (level + 1))).append
        (spells_writeItems level items fun j hj => ih j (.tail item hj) (level + 1)))
  | @object n members h ih =>
    cases members with
    | nil => exact .mark rfl (.mark rfl .nil)
    | cons member members =>
      obtain ⟨key, value⟩ := member
      rw [write, lexemesOf]
      exact .mark rfl ((spells_member (ih (key, value) List.mem_cons_self (level + 1))).append
        (spells_writeMembers level members fun m hm => ih m (.tail _ hm) (level + 1)))

end Writing

/-! ## Reading -/

/-- Whether lexemes take the reader from one state to another. -/
def Reads (limits : Limits) (s : ReaderState) (ls : List Lexeme) (s' : ReaderState) : Prop :=
  ls.foldlM (readLexeme limits) s = some s'

section Reading

variable {limits : Limits}

theorem Reads.nil (s : ReaderState) : Reads limits s [] s := rfl

theorem Reads.cons {s s' s'' : ReaderState} {l : Lexeme} {ls : List Lexeme}
    (hl : readLexeme limits s l = some s') (hls : Reads limits s' ls s'') : Reads limits s (l :: ls) s'' := by
  unfold Reads at hls ⊢
  rw [List.foldlM_cons, hl]
  exact hls

theorem Reads.append {s s' s'' : ReaderState} {ls ls' : List Lexeme} (h : Reads limits s ls s')
    (h' : Reads limits s' ls' s'') : Reads limits s (ls ++ ls') s'' := by
  unfold Reads at h h' ⊢
  rw [List.foldlM_append, h]
  exact h'

/-- No value starts with the end of an array, so that a first item is read like any other. -/
theorem Reads.firstItem {frames : List Frame} {j : Json} {s : ReaderState}
    (hdepth : frames.length < limits.depth)
    (h : Reads limits ⟨.value, .array [] :: frames⟩ (lexemesOf j) s) :
    Reads limits ⟨.firstItem, frames⟩ (lexemesOf j) s := by
  have hfirst : ∃ l ls, lexemesOf j = l :: ls ∧ l ≠ .closeArray := by
    fun_cases lexemesOf j <;> exact ⟨_, _, rfl, by simp⟩
  obtain ⟨l, ls, hj, hl⟩ := hfirst
  rw [hj] at h ⊢
  unfold Reads at h ⊢
  rw [List.foldlM_cons] at h ⊢
  have hstep : readLexeme limits ⟨.firstItem, frames⟩ l =
      readLexeme limits ⟨.value, .array [] :: frames⟩ l := by
    cases l <;> simp_all [readLexeme]
  rw [hstep]
  exact h

theorem reads_items (frames : List Frame) : ∀ (items done : List Json) (j : Json),
    (∀ j ∈ items, ∀ done, Reads limits ⟨.value, .array done :: frames⟩ (lexemesOf j)
      ⟨.after j, .array done :: frames⟩) →
    Reads limits ⟨.after j, .array done :: frames⟩ (lexemesOfItems items)
      ⟨.after (array (done ++ j :: items)), frames⟩
  | [], done, j, _ => .cons rfl (.nil _)
  | item :: items, done, j, h => by
    have hrest := reads_items frames items (done ++ [j]) item fun x hx => h x (.tail item hx)
    rw [List.append_assoc, List.singleton_append] at hrest
    rw [lexemesOfItems]
    exact .cons rfl ((h item List.mem_cons_self _).append hrest)

theorem reads_members (frames : List Frame) :
    ∀ (members done : List (Text × Json)) (key : Text) (value : Json),
    (∀ m ∈ members, ∀ done, Reads limits ⟨.value, .object done m.1 :: frames⟩ (lexemesOf m.2)
      ⟨.after m.2, .object done m.1 :: frames⟩) →
    Reads limits ⟨.after value, .object done key :: frames⟩ (lexemesOfMembers members)
      ⟨.after (object (done ++ (key, value) :: members)), frames⟩
  | [], done, key, value, _ => .cons rfl (.nil _)
  | (key', value') :: members, done, key, value, h => by
    have hrest := reads_members frames members (done ++ [(key, value)]) key' value' fun m hm => h m (.tail _ hm)
    rw [List.append_assoc, List.singleton_append] at hrest
    rw [lexemesOfMembers]
    exact .cons rfl (.cons rfl (.cons rfl ((h (key', value') List.mem_cons_self _).append hrest)))

/-- The lexemes of a value that fits below the open containers are read as that value. -/
theorem reads_lexemesOf {n : Nat} {j : Json} (h : Plain n j) {frames : List Frame}
    (hdepth : frames.length + n ≤ limits.depth) :
    Reads limits ⟨.value, frames⟩ (lexemesOf j) ⟨.after j, frames⟩ := by
  induction h generalizing frames with
  | null => exact .cons rfl (.nil _)
  | bool b => exact .cons rfl (.nil _)
  | string s => exact .cons rfl (.nil _)
  | @array n items h ih =>
    have hitem : ∀ j ∈ items, ∀ done, Reads limits ⟨.value, .array done :: frames⟩ (lexemesOf j)
        ⟨.after j, .array done :: frames⟩ := fun j hj done => ih j hj (by simp; omega)
    cases items with
    | nil => exact .cons rfl (.cons rfl (.nil _))
    | cons item items =>
      rw [lexemesOf]
      have hfits : frames.length < limits.depth := by omega
      refine .cons rfl (.append (.firstItem hfits (hitem item List.mem_cons_self [])) ?_)
      exact reads_items frames items [] item fun j hj => hitem j (.tail item hj)
  | @object n members h ih =>
    have hmember : ∀ m ∈ members, ∀ done, Reads limits ⟨.value, .object done m.1 :: frames⟩ (lexemesOf m.2)
        ⟨.after m.2, .object done m.1 :: frames⟩ := fun m hm done => ih m hm (by simp; omega)
    cases members with
    | nil => exact .cons rfl (.cons rfl (.nil _))
    | cons member members =>
      obtain ⟨key, value⟩ := member
      have hfits : frames.length < limits.depth := by omega
      have hkey : readLexeme limits ⟨.firstKey, frames⟩ (.string key) = some ⟨.colon [] key, frames⟩ :=
        if_pos hfits
      rw [lexemesOf]
      refine .cons rfl (.cons hkey (.cons rfl ((hmember (key, value) List.mem_cons_self []).append ?_)))
      exact reads_members frames members [] key value fun m hm => hmember m (.tail _ hm)

/-- A written value is read back, in whatever layout it has been written. -/
theorem parse?_print {j : Json} (h : Plain limits.depth j) (l : Layout) :
    parse? limits (print l j) = some j := by
  have hlexemes : lexemesFrom limits 0 (print l j) = some (lexemesOf j) := by
    have hspell : Spells limits (write l 0 j) (lexemesOf j) := spells_write h 0
    simpa [print, lexemesFrom] using hspell []
  have hreads : Reads limits ⟨.value, []⟩ (lexemesOf j) ⟨.after j, []⟩ := reads_lexemesOf h (by simp)
  unfold Reads at hreads
  unfold parse? ofLexemes?
  rw [hlexemes, Option.bind_some, hreads]

end Reading

end LangGen.Json
