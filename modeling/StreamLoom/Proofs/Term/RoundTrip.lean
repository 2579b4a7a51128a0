import StreamLoom.Proofs.Term.Spans

/-!
# Terms that are written and read again

Writing terms keeps the tokens apart. A symbol has no delimiter in it, so that it is the same symbol
wherever a blank or a bracket follows; a quoted string ends at its second quote whatever is in it; and
what a file has between its terms, comments included, is not written at all. Terms that were read are
therefore read again from what they are written as, up to their spans.
-/

namespace StreamLoom.Term

def bare (t : Term) : Term := t.mapSpan fun _ => .origin

/-- A text of terms, each as it is written, with blanks between any two of them. -/
inductive Written : List Term → List Char → Prop where
  | nothing {gap : List Char} (hgap : ∀ c ∈ gap, Text.isBlank c = true) : Written [] gap
  | term (t : Term) {ts : List Term} {gap text : List Char} (hgap : ∀ c ∈ gap, Text.isBlank c = true)
      (hapart : ts = [] ∨ gap ≠ []) (hrest : Written ts text) :
      Written (t :: ts) (t.text.toList ++ (gap ++ text))

/-- The elements of a group are written with single spaces. -/
theorem written_textAll (ts : List Term) : Written ts (textAll ts).toList := by
  induction ts with
  | nil => exact .nothing (by simp [textAll])
  | cons t ts ih =>
    cases ts with
    | nil =>
      have honly : Written [t] (t.text.toList ++ ([] ++ [])) := .term t (by simp) (.inl rfl) ih
      simpa [textAll] using honly
    | cons u ts =>
      have hspace : ∀ c ∈ [' '], Text.isBlank c = true := List.forall_mem_singleton.2 rfl
      simpa [textAll] using Written.term t hspace (.inr (by simp)) ih

theorem spells_blanks {gap : List Char} (hgap : ∀ c ∈ gap, Text.isBlank c = true) {here : Nat}
    {text : List Char} {ts : List Term} (h : Spells (here + gap.length) text ts) :
    Spells here (gap ++ text) ts := by
  induction gap generalizing here with
  | nil => exact h
  | cons c gap ih =>
    refine .blank (hgap c (by simp)) (ih (fun c hc => hgap c (by simp [hc])) ?_)
    simpa [Nat.add_assoc, Nat.add_comm 1] using h

/-- Wherever it is, what the term is written as spells the term. -/
def Recovered (t : Term) : Prop := ∀ here, ∃ u, Exact here t.text.toList u ∧ u.bare = t.bare

/-- What is written spells the terms, if each of them does so alone. -/
theorem Written.spells {ts : List Term} {text : List Char} (h : Written ts text)
    (hts : ∀ t ∈ ts, Recovered t) (here : Nat) :
    ∃ us, Spells here text us ∧ us.map bare = ts.map bare := by
  induction h generalizing here with
  | @nothing gap hgap =>
    exact ⟨[], by simpa using spells_blanks hgap (.nothing (here + gap.length)), rfl⟩
  | @term t ts gap text hgap hapart hrest ih =>
    obtain ⟨u, hu, hbare⟩ := hts t (by simp) here
    obtain ⟨us, hus, hbares⟩ := ih (fun t ht => hts t (by simp [ht]))
      (here + t.text.toList.length + gap.length)
    refine ⟨u :: us, hu.spells ?_ (spells_blanks hgap hus), by simp [hbare, hbares]⟩
    cases gap with
    | cons c gap => exact delimits_cons.mpr (isDelimiter_of_isBlank (hgap c (by simp)))
    | nil =>
      -- without a blank there are no further terms, and so at most blanks
      obtain rfl := hapart.resolve_right (by simp)
      cases hrest with
      | nothing hgap =>
        intro c hc
        exact isDelimiter_of_isBlank (hgap c (List.mem_of_head? hc))

/-- Terms that a text spells are recovered from what they are written as, at any depth. -/
theorem Spells.recovered {here : Nat} {text : List Char} {ts : List Term} (h : Spells here text ts) :
    ∀ t ∈ ts, Recovered t := by
  induction h with
  | nothing => simp
  | blank _ _ ih => exact ih
  | comment _ _ ih => exact ih
  | @plain _ word _ _ hword _ _ ih =>
    rintro t (_ | ⟨_, ht⟩)
    · intro here
      refine ⟨.symbol (.ofLength here word.length) (String.ofList word), ?_, rfl⟩
      rw [Term.text, String.toList_ofList]
      exact .plain hword
    · exact ih t ht
  | @quoted _ body _ _ hbody _ ih =>
    rintro t (_ | ⟨_, ht⟩)
    · intro here
      refine ⟨.symbol (.ofLength here (body.length + 2)) (String.ofList ('"' :: (body ++ ['"']))), ?_,
        rfl⟩
      rw [Term.text, String.toList_ofList]
      exact .quoted hbody
    · exact ih t ht
  | @group _ bracket inner _ es _ _ _ ihinner ih =>
    rintro t (_ | ⟨_, ht⟩)
    · intro here
      obtain ⟨us, hus, hbare⟩ := (written_textAll es).spells ihinner (here + 1)
      refine ⟨_, by simpa [Term.text] using Exact.group bracket hus, ?_⟩
      have hmaps : us.map (mapSpan fun _ => .origin) = es.map (mapSpan fun _ => .origin) := hbare
      simp only [bare, mapSpan, mapSpanAll_eq_map, hmaps]
    · exact ih t ht

/-- The terms of a file are read again from any text that they are written as. -/
theorem parse_written (file : SourceFile) (haccepted : (parse file).error = none) (name : String)
    (text : List Char) (htext : Written (parse file).terms text) :
    ∃ us, parse ⟨name, text⟩ = ⟨us, none⟩ ∧ us.map bare = (parse file).terms.map bare := by
  obtain ⟨body, last, -, hbody, -⟩ :=
    (parse_eq_iff file (parse file).terms).mp (by rw [← haccepted])
  obtain ⟨us, hus, hbare⟩ := htext.spells hbody.recovered 0
  exact ⟨us, (parse_eq_iff _ us).mpr ⟨text, [], by simp, hus, .inl rfl⟩, hbare⟩

/-- Adjacent terms, quotes inside symbols, and a quoted string of delimiters over two lines. -/
theorem parse_written_adjacent :
    let file : SourceFile := ⟨"test.fun", "(a\"b\" \"(;]\n\"[c]\"d\"e);f\n\"g\"h".toList⟩
    let text := (textAll (parse file).terms).toList
    (parse file).error = none ∧ (parse file).terms.length = 3 ∧ Written (parse file).terms text ∧
      ∃ us, parse ⟨"again.fun", text⟩ = ⟨us, none⟩ ∧ us.map bare = (parse file).terms.map bare := by
  intro file text
  have haccepted : (parse file).error = none := by decide +kernel
  have hwritten : Written (parse file).terms text := written_textAll (parse file).terms
  exact ⟨haccepted, by decide +kernel, hwritten, parse_written file haccepted "again.fun" text hwritten⟩

end StreamLoom.Term
