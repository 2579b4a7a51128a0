import Mathlib.Data.List.TakeWhile
import StreamLoom.Term.Parser

/-!
# The grammar of terms

A text consists of blanks, comments, symbols, quoted strings, and groups in matching brackets. Two
rules make the reading of a text unique: a symbol extends to the next delimiter, so that a quote
inside it is like any other character, and a comment extends to the end of its line.

`Spells` says which terms a text spells, and where each of them is. Reading accepts exactly the texts
that spell some terms, and gives these. One direction is by the grammar; the other by the length of the
text, where what the open brackets still ask of it is written down as `Closes`.
-/

namespace StreamLoom.Term

/-! ### The grammar -/

structure Plain (word : List Char) : Prop where
  nonempty : word ≠ []
  unquoted : word.head? ≠ some '"'
  undelimited : ∀ c ∈ word, Lexeme.isDelimiter c = false

/-- A symbol may end before the text: it starts with a delimiter, or there is none of it. -/
def Delimits (text : List Char) : Prop := ∀ c, text.head? = some c → Lexeme.isDelimiter c = true

/-- The terms that a text spells from a position on. Every comment is followed by its line break. -/
inductive Spells : Nat → List Char → List Term → Prop where
  | nothing (here : Nat) : Spells here [] []
  | blank {here : Nat} {c : Char} {cs : List Char} {ts : List Term} (hc : Text.isBlank c = true)
      (hrest : Spells (here + 1) cs ts) : Spells here (c :: cs) ts
  | comment {here : Nat} {line cs : List Char} {ts : List Term} (hline : '\n' ∉ line)
      (hrest : Spells (here + (line.length + 2)) cs ts) :
      Spells here (';' :: (line ++ '\n' :: cs)) ts
  | plain {here : Nat} {word cs : List Char} {ts : List Term} (hword : Plain word)
      (hends : Delimits cs) (hrest : Spells (here + word.length) cs ts) :
      Spells here (word ++ cs) (.symbol (.ofLength here word.length) (String.ofList word) :: ts)
  | quoted {here : Nat} {body cs : List Char} {ts : List Term} (hbody : '"' ∉ body)
      (hrest : Spells (here + (body.length + 2)) cs ts) :
      Spells here ('"' :: (body ++ '"' :: cs)) (.symbol (.ofLength here (body.length + 2))
        (String.ofList ('"' :: (body ++ ['"']))) :: ts)
  | group {here : Nat} (bracket : Bracket) {inner cs : List Char} {es ts : List Term}
      (hinner : Spells (here + 1) inner es) (hrest : Spells (here + (inner.length + 2)) cs ts) :
      Spells here (bracket.opening :: (inner ++ bracket.closing :: cs))
        (.group (.ofLength here (inner.length + 2)) bracket es :: ts)

/-- A comment on the last line, which no line break ends, or nothing. -/
def Unbroken (text : List Char) : Prop := text = [] ∨ ∃ line, '\n' ∉ line ∧ text = ';' :: line

/-- The terms that a whole text spells, the last comment of which may lack a line break. -/
def Reads (here : Nat) (text : List Char) (ts : List Term) : Prop :=
  ∃ body last, text = body ++ last ∧ Spells here body ts ∧ Unbroken last

/-! ### Delimiters -/

theorem isDelimiter_of_isBlank {c : Char} (h : Text.isBlank c = true) :
    Lexeme.isDelimiter c = true := by
  simp [Lexeme.isDelimiter, h]

theorem isDelimiter_closing (bracket : Bracket) : Lexeme.isDelimiter bracket.closing = true := by
  cases bracket <;> rfl

@[simp] theorem delimits_nil : Delimits [] := by simp [Delimits]

@[simp] theorem delimits_cons {c : Char} {cs : List Char} :
    Delimits (c :: cs) ↔ Lexeme.isDelimiter c = true := by
  simp [Delimits]

theorem Delimits.of_isPrefix {body text : List Char} (h : Delimits text) (hbody : body <+: text) :
    Delimits body := by
  obtain ⟨rest, rfl⟩ := hbody
  cases body with
  | nil => exact delimits_nil
  | cons c cs => exact delimits_cons.mpr (delimits_cons.mp h)

theorem Delimits.append {text rest : List Char} (h : Delimits text) (hrest : Delimits rest) :
    Delimits (text ++ rest) := by
  cases text with
  | nil => exact hrest
  | cons c cs => exact delimits_cons.mpr (delimits_cons.mp h)

theorem Unbroken.delimits {text : List Char} (h : Unbroken text) : Delimits text := by
  rcases h with rfl | ⟨line, -, rfl⟩
  · exact delimits_nil
  · exact delimits_cons.mpr rfl

/-! ### What the lexemes of a text begin with -/

section

open Lexeme

variable {here : Nat} {cs : List Char}

theorem scanFrom_blank {c : Char} (hc : Text.isBlank c = true) :
    scanFrom .blank here (c :: cs) = scanFrom .blank (here + 1) cs := by
  have hsemicolon : c ≠ ';' := by
    rintro rfl
    exact absurd hc (by decide)
  simp [scanFrom, advance, initial, hc, hsemicolon]

private theorem scanFrom_line (cs : List Char) {line : List Char} (hline : '\n' ∉ line) :
    scanFrom .comment here (line ++ '\n' :: cs) = scanFrom .blank (here + (line.length + 1)) cs ∧
      scanFrom .comment here line = [] := by
  induction line generalizing here with
  | nil => simp [scanFrom, advance, finish]
  | cons c line ih =>
    have hc : c ≠ '\n' := fun h => hline (by simp [h])
    obtain ⟨hbroken, hunbroken⟩ := @ih (here + 1) fun h => hline (by simp [h])
    simp only [List.cons_append, scanFrom, advance, hc, if_false, List.nil_append, hbroken,
      hunbroken, List.length_cons, and_true]
    congr 1
    omega

theorem scanFrom_comment {line : List Char} (hline : '\n' ∉ line) :
    scanFrom .blank here (';' :: (line ++ '\n' :: cs)) =
      scanFrom .blank (here + (line.length + 2)) cs := by
  simp only [scanFrom, advance, initial, if_true, List.nil_append, (scanFrom_line cs hline).1]
  congr 1
  omega

theorem scanFrom_unbroken {last : List Char} (h : Unbroken last) :
    scanFrom .blank here last = [] := by
  rcases h with rfl | ⟨line, hline, rfl⟩
  · rfl
  · simp only [scanFrom, advance, initial, if_true, List.nil_append,
      (scanFrom_line [] hline).2]

theorem scanFrom_opening (bracket : Bracket) :
    scanFrom .blank here (bracket.opening :: cs) =
      .opening bracket here :: scanFrom .blank (here + 1) cs := by
  cases bracket <;> rfl

theorem scanFrom_closing (bracket : Bracket) :
    scanFrom .blank here (bracket.closing :: cs) =
      .closing bracket here :: scanFrom .blank (here + 1) cs := by
  cases bracket <;> rfl

private theorem scanFrom_body (cs : List Char) {start : Nat} {reversed body : List Char} (hbody : '"' ∉ body) :
    scanFrom (.quoted start reversed) here (body ++ '"' :: cs) =
      .word start (reversed.reverse ++ (body ++ ['"'])) ::
        scanFrom .blank (here + (body.length + 1)) cs ∧
    scanFrom (.quoted start reversed) here body = [.unterminated start] := by
  induction body generalizing here reversed with
  | nil => simp [scanFrom, advance, finish]
  | cons c body ih =>
    have hc : c ≠ '"' := fun h => hbody (by simp [h])
    obtain ⟨hclosed, hopen⟩ := @ih (here + 1) (c :: reversed) fun h => hbody (by simp [h])
    simp only [List.cons_append, scanFrom, advance, hc, if_false, List.nil_append, hclosed, hopen,
      List.length_cons, List.reverse_cons, List.append_assoc, and_true]
    congr 2
    omega

theorem scanFrom_quoted {body : List Char} (hbody : '"' ∉ body) :
    scanFrom .blank here ('"' :: (body ++ '"' :: cs)) = .word here ('"' :: (body ++ ['"'])) ::
      scanFrom .blank (here + (body.length + 2)) cs := by
  change scanFrom (.quoted here ['"']) (here + 1) (body ++ '"' :: cs) = _
  rw [(scanFrom_body cs hbody).1]
  congr 2
  omega

theorem scanFrom_unterminated {body : List Char} (hbody : '"' ∉ body) :
    scanFrom .blank here ('"' :: body) = [.unterminated here] := by
  change scanFrom (.quoted here ['"']) (here + 1) body = _
  exact (scanFrom_body [] hbody).2

private theorem initial_word {c : Char} (hc : isDelimiter c = false) (hquote : c ≠ '"') :
    initial here c = ([], .word here [c]) := by
  simp only [isDelimiter, Bool.or_eq_false_iff, beq_eq_false_iff_ne, ne_eq] at hc
  obtain ⟨⟨⟨⟨⟨h₁, h₂⟩, h₃⟩, h₄⟩, h₅⟩, hblank⟩ := hc
  simp [initial, h₁, h₂, h₃, h₄, h₅, hblank, hquote]

private theorem scanFrom_letters {start : Nat} {reversed word : List Char}
    (hword : ∀ c ∈ word, isDelimiter c = false) (hends : Delimits cs) :
    scanFrom (.word start reversed) here (word ++ cs) =
      .word start (reversed.reverse ++ word) :: scanFrom .blank (here + word.length) cs := by
  induction word generalizing here reversed with
  | nil =>
    cases cs with
    | nil => simp [scanFrom, finish]
    | cons c cs => simp [scanFrom, advance, delimits_cons.mp hends]
  | cons c word ih =>
    have hc := hword c (by simp)
    have hrest := @ih (here + 1) (c :: reversed) fun c hc => hword c (by simp [hc])
    simp only [List.cons_append, scanFrom, advance, hc, Bool.false_eq_true, if_false,
      List.nil_append, hrest, List.length_cons, List.reverse_cons, List.append_assoc]
    congr 2
    omega

theorem scanFrom_plain {word : List Char} (hword : Plain word) (hends : Delimits cs) :
    scanFrom .blank here (word ++ cs) = .word here word :: scanFrom .blank (here + word.length) cs := by
  cases word with
  | nil => exact absurd rfl hword.nonempty
  | cons c word =>
    have hquote : c ≠ '"' := fun h => hword.unquoted (by simp [h])
    have hletters : ∀ c ∈ word, isDelimiter c = false := fun c hc => hword.undelimited c (by simp [hc])
    simp only [List.cons_append, scanFrom, advance, initial_word (hword.undelimited c (by simp)) hquote,
      List.nil_append, scanFrom_letters hletters hends, List.length_cons, List.reverse_singleton]
    congr 2
    omega

end

/-! ### Texts that spell terms are read -/

namespace Progress

/-- Adds some terms to the innermost bracket. -/
def pushAll (p : Progress) (ts : List Term) : Progress := ts.foldl push p

theorem pushAll_outermost (reversed ts : List Term) :
    pushAll ⟨[], reversed⟩ ts = ⟨[], ts.reverse ++ reversed⟩ := by
  induction ts generalizing reversed with
  | nil => rfl
  | cons t ts ih =>
    change pushAll ⟨[], t :: reversed⟩ ts = _
    simp [ih]

theorem pushAll_inside (g : OpenGroup) (outer : List OpenGroup) (reversed ts : List Term) :
    pushAll ⟨g :: outer, reversed⟩ ts =
      ⟨{ g with reversed := ts.reverse ++ g.reversed } :: outer, reversed⟩ := by
  induction ts generalizing g with
  | nil => rfl
  | cons t ts ih =>
    change pushAll ⟨{ g with reversed := t :: g.reversed } :: outer, reversed⟩ ts = _
    simp [ih]

end Progress

/-- Reading goes past a text with the terms that it spells. -/
theorem parseFrom_of_spells {here : Nat} {text : List Char} {ts : List Term}
    (h : Spells here text ts) {rest : List Char} (hrest : Delimits rest) (length : Nat)
    (p : Progress) : parseFrom length p (Lexeme.scanFrom .blank here (text ++ rest)) =
      parseFrom length (p.pushAll ts) (Lexeme.scanFrom .blank (here + text.length) rest) := by
  induction h generalizing rest p with
  | nothing here => rfl
  | blank hc _ ih =>
    rw [List.cons_append, scanFrom_blank hc, ih hrest, List.length_cons]
    congr 2
    omega
  | comment hline _ ih =>
    rw [List.cons_append, List.append_assoc, List.cons_append, scanFrom_comment hline, ih hrest]
    congr 2
    simp
    omega
  | plain hword hends _ ih =>
    rw [List.append_assoc, scanFrom_plain hword (hends.append hrest)]
    change parseFrom length (p.push _) _ = _
    rw [ih hrest, List.length_append, Nat.add_assoc]
    rfl
  | quoted hbody _ ih =>
    rw [List.cons_append, List.append_assoc, List.cons_append, scanFrom_quoted hbody]
    change parseFrom length (p.push _) _ = _
    rw [ih hrest]
    simp only [List.length_cons, List.length_append, List.length_nil, Progress.pushAll, List.foldl_cons]
    congr 2
    omega
  | @group here bracket inner cs es ts _ _ ihinner ih =>
    have hclosing : Delimits (bracket.closing :: (cs ++ rest)) :=
      delimits_cons.mpr (isDelimiter_closing bracket)
    rw [List.cons_append, List.append_assoc, List.cons_append, scanFrom_opening]
    change parseFrom length ⟨⟨bracket, here, []⟩ :: p.stack, p.reversed⟩ _ = _
    rw [ihinner hclosing, scanFrom_closing, Progress.pushAll_inside]
    have hspan : here + 1 + inner.length + 1 - here = inner.length + 2 := by omega
    simp only [parseFrom, Progress.step, if_true, List.append_nil, List.reverse_reverse, hspan]
    have hnext : here + 1 + inner.length + 1 = here + (inner.length + 2) := by omega
    rw [hnext]
    change parseFrom length (p.push _) _ = _
    rw [ih hrest]
    simp only [List.length_cons, List.length_append, Progress.pushAll, List.foldl_cons]
    congr 2
    omega

/-! ### What is read spells terms -/

/-- Everything that a text can begin with. -/
inductive Begins : List Char → Prop where
  | nothing : Begins []
  | blank {c : Char} (hc : Text.isBlank c = true) (cs : List Char) : Begins (c :: cs)
  | comment {line : List Char} (hline : '\n' ∉ line) (cs : List Char) :
      Begins (';' :: (line ++ '\n' :: cs))
  | unbroken {line : List Char} (hline : '\n' ∉ line) : Begins (';' :: line)
  | opening (bracket : Bracket) (cs : List Char) : Begins (bracket.opening :: cs)
  | closing (bracket : Bracket) (cs : List Char) : Begins (bracket.closing :: cs)
  | quoted {body : List Char} (hbody : '"' ∉ body) (cs : List Char) :
      Begins ('"' :: (body ++ '"' :: cs))
  | unterminated {body : List Char} (hbody : '"' ∉ body) : Begins ('"' :: body)
  | plain {word cs : List Char} (hword : Plain word) (hends : Delimits cs) : Begins (word ++ cs)

theorem isDelimiter_cases {c : Char} (h : Lexeme.isDelimiter c = true) :
    Text.isBlank c = true ∨ c = ';' ∨ (∃ bracket : Bracket, c = bracket.opening) ∨
      ∃ bracket : Bracket, c = bracket.closing := by
  simp only [Lexeme.isDelimiter, Bool.or_eq_true, beq_iff_eq] at h
  rcases h with ((((rfl | rfl) | rfl) | rfl) | rfl) | hblank
  · exact .inr (.inr (.inl ⟨.round, rfl⟩))
  · exact .inr (.inr (.inr ⟨.round, rfl⟩))
  · exact .inr (.inr (.inl ⟨.square, rfl⟩))
  · exact .inr (.inr (.inr ⟨.square, rfl⟩))
  · exact .inr (.inl rfl)
  · exact .inl hblank

theorem begins (text : List Char) : Begins text := by
  cases text with
  | nil => exact .nothing
  | cons c cs =>
    by_cases hdelimiter : Lexeme.isDelimiter c = true
    · rcases isDelimiter_cases hdelimiter with hblank | rfl | ⟨bracket, rfl⟩ | ⟨bracket, rfl⟩
      · exact .blank hblank cs
      · by_cases hline : '\n' ∈ cs
        · obtain ⟨line, rest, rfl, hfirst⟩ := List.eq_append_cons_of_mem hline
          exact .comment hfirst rest
        · exact .unbroken hline
      · exact .opening bracket cs
      · exact .closing bracket cs
    · by_cases hquote : c = '"'
      · subst hquote
        by_cases hbody : '"' ∈ cs
        · obtain ⟨body, rest, rfl, hfirst⟩ := List.eq_append_cons_of_mem hbody
          exact .quoted hfirst rest
        · exact .unterminated hbody
      · -- the word takes in everything up to the next delimiter
        have hsplit : c :: cs = (c :: cs.takeWhile (!Lexeme.isDelimiter ·)) ++
            cs.dropWhile (!Lexeme.isDelimiter ·) := by
          rw [List.cons_append, List.takeWhile_append_dropWhile]
        rw [hsplit]
        refine .plain ⟨by simp, by simpa using hquote, fun d hd => ?_⟩ fun d hd => ?_
        · rcases List.mem_cons.mp hd with rfl | hd
          · simpa using hdelimiter
          · simpa using List.mem_takeWhile_imp hd
        · have hnot := List.head?_dropWhile_not (!Lexeme.isDelimiter ·) cs
          rw [hd] at hnot
          simpa using hnot

/-- What the open brackets still ask of the text: each innermost one finds its elements and then its
closing bracket, and after the outermost one the text ends. -/
inductive Closes (ts : List Term) : Progress → Nat → List Char → Prop where
  | outermost {reversed us : List Term} {here : Nat} {text : List Char} (h : Reads here text us)
      (hts : ts = reversed.reverse ++ us) : Closes ts ⟨[], reversed⟩ here text
  | inside {g : OpenGroup} {outer : List OpenGroup} {reversed us : List Term} {here : Nat}
      {inner rest : List Char} (h : Spells here inner us)
      (hrest : Closes ts (Progress.push ⟨outer, reversed⟩ (.group
        (.ofLength g.start (here + inner.length + 1 - g.start)) g.bracket (g.reversed.reverse ++ us)))
        (here + inner.length + 1) rest) :
      Closes ts ⟨g :: outer, reversed⟩ here (inner ++ g.bracket.closing :: rest)

/-- A text can be put in front of what the brackets ask for, if it spells the terms between. -/
theorem Closes.prepend {ts : List Term} {p : Progress} {next : Nat} {text : List Char} (here : Nat)
    (front : List Char) (us : List Term) (h : Closes ts (p.pushAll us) next text)
    (hnext : next = here + front.length)
    (hfront : ∀ body vs, body <+: text → Spells next body vs → Spells here (front ++ body) (us ++ vs)) :
    Closes ts p here (front ++ text) := by
  obtain ⟨stack, reversed⟩ := p
  cases stack with
  | nil =>
    rw [Progress.pushAll_outermost] at h
    cases h with
    | outermost h hts =>
      obtain ⟨body, last, rfl, hbody, hlast⟩ := h
      refine .outermost ⟨front ++ body, last, by simp, hfront body _ ⟨last, rfl⟩ hbody, hlast⟩ ?_
      simpa using hts
  | cons g outer =>
    rw [Progress.pushAll_inside] at h
    cases h with
    | @inside _ _ _ vs _ inner rest h hrest =>
      rw [← List.append_assoc]
      refine .inside (hfront inner vs ⟨_, rfl⟩ h) ?_
      have hlength : here + (front ++ inner).length + 1 = next + inner.length + 1 := by
        simp [hnext, Nat.add_assoc]
      rw [hlength]
      simpa using hrest

/-- A bracket that opens finds its own closing one first. -/
theorem Closes.opening {ts : List Term} {p : Progress} {here : Nat} {cs : List Char}
    (bracket : Bracket)
    (h : Closes ts ⟨⟨bracket, here, []⟩ :: p.stack, p.reversed⟩ (here + 1) cs) :
    Closes ts p here (bracket.opening :: cs) := by
  cases h with
  | @inside _ _ _ us _ inner rest hinner hrest =>
    have hspan : here + 1 + inner.length + 1 - here = inner.length + 2 := by omega
    have hgroup := hrest.prepend here (bracket.opening :: (inner ++ [bracket.closing])) [_]
      (by simp; omega) fun body vs _ hbody => by
        have hbody : Spells (here + (inner.length + 2)) body vs := by
          rwa [show here + (inner.length + 2) = here + 1 + inner.length + 1 by omega]
        rw [hspan]
        simpa using Spells.group bracket hinner hbody
    simpa using hgroup

/-- Where nothing but a last comment is left, no bracket is open. -/
theorem Closes.of_unbroken {length here : Nat} {ts : List Term} {p : Progress} {text : List Char}
    (htext : Unbroken text)
    (h : parseFrom length p (Lexeme.scanFrom .blank here text) = (ts, none)) :
    Closes ts p here text := by
  rw [scanFrom_unbroken htext] at h
  obtain ⟨stack, reversed⟩ := p
  cases stack with
  | nil =>
    refine .outermost ⟨[], text, rfl, .nothing here, htext⟩ ?_
    simpa [parseFrom, eq_comm] using h
  | cons g outer => simp [parseFrom] at h

/-- A text that is read to its end closes the brackets that were open. -/
theorem closes_of_parseFrom {length : Nat} {ts : List Term} {p : Progress} {here : Nat}
    {text : List Char} (h : parseFrom length p (Lexeme.scanFrom .blank here text) = (ts, none)) :
    Closes ts p here text := by
  induction hn : text.length using Nat.strong_induction_on generalizing p here text with
  | _ n ih =>
    subst hn
    cases begins text with
    | nothing => exact .of_unbroken (.inl rfl) h
    | unbroken hline => exact .of_unbroken (.inr ⟨_, hline, rfl⟩) h
    | @blank c hc cs =>
      rw [scanFrom_blank hc] at h
      exact (ih _ (by simp) h rfl).prepend here [c] [] (by simp) fun body vs _ hbody => .blank hc hbody
    | @comment line hline cs =>
      rw [scanFrom_comment hline] at h
      have hrest := (ih _ (by simp; omega) h rfl).prepend here (';' :: (line ++ ['\n'])) [] (by simp)
        fun body vs _ hbody => by simpa using Spells.comment hline hbody
      simpa using hrest
    | @plain word cs hword hends =>
      rw [scanFrom_plain hword hends] at h
      have hpositive : 0 < word.length := List.length_pos_iff.mpr hword.nonempty
      exact (ih _ (by simp; omega) h rfl).prepend here word [_] rfl
        fun body vs hprefix hbody => .plain hword (hends.of_isPrefix hprefix) hbody
    | @quoted body hbody cs =>
      rw [scanFrom_quoted hbody] at h
      have hrest := (ih _ (by simp; omega) h rfl).prepend here ('"' :: (body ++ ['"'])) [_] (by simp)
        fun body' vs _ hbody' => by simpa using Spells.quoted hbody hbody'
      simpa using hrest
    | unterminated hbody =>
      rw [scanFrom_unterminated hbody] at h
      simp [parseFrom, Progress.step] at h
    | opening bracket cs =>
      rw [scanFrom_opening] at h
      exact .opening bracket (ih _ (by simp) h rfl)
    | closing bracket cs =>
      rw [scanFrom_closing] at h
      obtain ⟨stack, reversed⟩ := p
      cases stack with
      | nil => simp [parseFrom, Progress.step] at h
      | cons g outer =>
        by_cases hbracket : g.bracket = bracket
        · subst hbracket
          simp only [parseFrom, Progress.step, if_true] at h
          change Closes ts _ here ([] ++ g.bracket.closing :: cs)
          exact .inside (.nothing here) (by simpa using ih _ (by simp) h rfl)
        · simp [parseFrom, Progress.step, hbracket] at h

/-- Reading gives the terms that a text spells, and fails if it spells none. -/
theorem parse_eq_iff (file : SourceFile) (ts : List Term) :
    parse file = ⟨ts, none⟩ ↔ Reads 0 file.contents ts := by
  have hparse : parse file = ⟨ts, none⟩ ↔
      parseFrom file.contents.length {} (Lexeme.scanFrom .blank 0 file.contents) = (ts, none) := by
    simp [parse, Lexeme.scan, Prod.ext_iff]
  rw [hparse]
  constructor
  · intro h
    cases closes_of_parseFrom h with
    | outermost h hts => simpa [hts] using h
  · rintro ⟨body, last, htext, hbody, hlast⟩
    rw [htext, parseFrom_of_spells hbody hlast.delimits, scanFrom_unbroken hlast]
    simp [parseFrom, Progress.pushAll_outermost]

end StreamLoom.Term
