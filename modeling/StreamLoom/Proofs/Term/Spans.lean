import StreamLoom.Proofs.Term.Grammar

/-!
# The spans of terms

Every term that is read, at whatever depth, is spelled by the text of its span and by nothing else
around it. The text therefore gives the same term again when it is read alone, except that its spans
count from there. The elements of a group lie between its brackets, one after the other.
-/

namespace StreamLoom

/-- The span further along by some characters. -/
def Span.moved (k : Nat) (s : Span) : Span := ⟨s.start + k, s.stop + k, by have := s.ordered; omega⟩

theorem Span.moved_ofLength (k start length : Nat) :
    (Span.ofLength start length).moved k = .ofLength (start + k) length := by
  simp only [Span.moved, Span.ofLength, Span.mk.injEq]
  omega

def SourceFile.textOf (file : SourceFile) (span : Span) : List Char :=
  (file.contents.drop span.start.toNat).take (span.stop - span.start).toNat

theorem SourceFile.textOf_ofLength {file : SourceFile} {front slice rest : List Char}
    (h : file.contents = front ++ (slice ++ rest)) :
    file.textOf (.ofLength front.length slice.length) = slice := by
  have hlength : ((Span.ofLength front.length slice.length).stop -
      (Span.ofLength front.length slice.length).start).toNat = slice.length := by
    simp only [Span.ofLength]
    omega
  rw [textOf, hlength, h]
  simp [Span.ofLength]

namespace Term

mutual

def mapSpan (f : Span → Span) : Term → Term
  | symbol span value => symbol (f span) value
  | group span bracket elements => group (f span) bracket (mapSpanAll f elements)

def mapSpanAll (f : Span → Span) : List Term → List Term
  | [] => []
  | t :: rest => t.mapSpan f :: mapSpanAll f rest

end

theorem mapSpanAll_eq_map (f : Span → Span) (ts : List Term) :
    mapSpanAll f ts = ts.map (mapSpan f) := by
  induction ts with
  | nil => rfl
  | cons t ts ih => rw [mapSpanAll, ih, List.map_cons]

theorem Spells.moved {start here k : Nat} {text : List Char} {ts : List Term}
    (h : Spells start text ts) (hstart : start = here + k) :
    ∃ us, Spells here text us ∧ us.map (mapSpan (Span.moved k)) = ts := by
  induction h generalizing here with
  | nothing => exact ⟨[], .nothing here, rfl⟩
  | blank hc _ ih =>
    obtain ⟨us, hus, hmoved⟩ := @ih (here + 1) (by omega)
    exact ⟨us, .blank hc hus, hmoved⟩
  | @comment _ line _ _ hline _ ih =>
    obtain ⟨us, hus, hmoved⟩ := @ih (here + (line.length + 2)) (by omega)
    exact ⟨us, .comment hline hus, hmoved⟩
  | @plain _ word _ _ hword hends _ ih =>
    obtain ⟨us, hus, hmoved⟩ := @ih (here + word.length) (by omega)
    refine ⟨_ :: us, .plain hword hends hus, ?_⟩
    rw [List.map_cons, mapSpan, Span.moved_ofLength, hmoved, hstart]
  | @quoted _ body _ _ hbody _ ih =>
    obtain ⟨us, hus, hmoved⟩ := @ih (here + (body.length + 2)) (by omega)
    refine ⟨_ :: us, .quoted hbody hus, ?_⟩
    rw [List.map_cons, mapSpan, Span.moved_ofLength, hmoved, hstart]
  | @group _ bracket inner _ _ _ _ _ ihinner ih =>
    obtain ⟨vs, hvs, hinner⟩ := @ihinner (here + 1) (by omega)
    obtain ⟨us, hus, hmoved⟩ := @ih (here + (inner.length + 2)) (by omega)
    refine ⟨_ :: us, .group bracket hvs hus, ?_⟩
    rw [List.map_cons, mapSpan, mapSpanAll_eq_map, Span.moved_ofLength, hinner, hmoved, hstart]

/-! ### One term and nothing around it -/

/-- The text spells the term and nothing around it. -/
inductive Exact (here : Nat) : List Char → Term → Prop where
  | plain {word : List Char} (hword : Plain word) :
      Exact here word (.symbol (.ofLength here word.length) (String.ofList word))
  | quoted {body : List Char} (hbody : '"' ∉ body) :
      Exact here ('"' :: (body ++ ['"'])) (.symbol (.ofLength here (body.length + 2))
        (String.ofList ('"' :: (body ++ ['"']))))
  | group (bracket : Bracket) {inner : List Char} {es : List Term}
      (hinner : Spells (here + 1) inner es) :
      Exact here (bracket.opening :: (inner ++ [bracket.closing]))
        (.group (.ofLength here (inner.length + 2)) bracket es)

namespace Exact

variable {here : Nat} {text : List Char} {t : Term}

theorem span_eq (h : Exact here text t) : t.span = .ofLength here text.length := by
  cases h <;> simp [Term.span]

theorem length_pos (h : Exact here text t) : 0 < text.length := by
  cases h with
  | plain hword => exact List.length_pos_iff.mpr hword.nonempty
  | quoted => simp
  | group => simp

theorem spells (h : Exact here text t) {rest : List Char} {ts : List Term} (hends : Delimits rest)
    (hrest : Spells (here + text.length) rest ts) : Spells here (text ++ rest) (t :: ts) := by
  cases h with
  | plain hword => exact .plain hword hends hrest
  | quoted hbody => simpa using Spells.quoted hbody (by simpa using hrest)
  | group bracket hinner => simpa using Spells.group bracket hinner (by simpa using hrest)

theorem alone (h : Exact here text t) : Spells here text [t] := by
  simpa using h.spells delimits_nil (.nothing _)

end Exact

/-- A text that spells terms is one term after the other, with something else between them. -/
theorem Spells.sequence {motive : Nat → List Char → List Term → Prop}
    (nothing : ∀ here, motive here [] [])
    (skip : ∀ here gap text ts, motive (here + gap.length) text ts → motive here (gap ++ text) ts)
    (term : ∀ here slice text t ts, Exact here slice t → motive (here + slice.length) text ts →
      motive here (slice ++ text) (t :: ts))
    {here : Nat} {text : List Char} {ts : List Term} (h : Spells here text ts) :
    motive here text ts := by
  induction h with
  | nothing here => exact nothing here
  | @blank here c text ts _ _ ih => exact skip here [c] text ts ih
  | @comment here line text ts _ _ ih =>
    simpa using skip here (';' :: (line ++ ['\n'])) text ts (by simpa using ih)
  | plain hword _ _ ih => exact term _ _ _ _ _ (.plain hword) ih
  | quoted hbody _ ih => simpa using term _ _ _ _ _ (.quoted hbody) (by simpa using ih)
  | group bracket hinner _ _ ih => simpa using term _ _ _ _ _ (.group bracket hinner) (by simpa using ih)

/-- Terms that follow each other without overlapping. -/
def Ordered (ts : List Term) : Prop := ts.Pairwise fun t u => t.span.stop ≤ u.span.start

/-- The terms follow each other within the text. -/
structure Between (here : Nat) (text : List Char) (ts : List Term) : Prop where
  ordered : Ordered ts
  within : ∀ t ∈ ts, here ≤ t.span.start ∧ t.span.start < t.span.stop ∧
    t.span.stop ≤ here + text.length

theorem Spells.between {here : Nat} {text : List Char} {ts : List Term} (h : Spells here text ts) :
    Between here text ts := by
  refine Spells.sequence (motive := Between) (fun here => ⟨.nil, by simp⟩)
    (fun here gap text ts ih => ⟨ih.ordered, fun t ht => ?_⟩)
    (fun here slice text t ts hslice ih => ?_) h
  · obtain ⟨hstart, hlt, hstop⟩ := ih.within t ht
    simp only [List.length_append, Int.natCast_add] at hstart hstop ⊢
    omega
  · have hspan := hslice.span_eq
    have hpositive := hslice.length_pos
    refine ⟨List.pairwise_cons.mpr ⟨fun u hu => ?_, ih.ordered⟩, fun u hu => ?_⟩
    · obtain ⟨hstart, -, -⟩ := ih.within u hu
      simpa [hspan, Span.ofLength] using hstart
    · rcases List.mem_cons.mp hu with rfl | hu
      · simp only [hspan, Span.ofLength, List.length_append, Int.natCast_add]
        omega
      · obtain ⟨hstart, hlt, hstop⟩ := ih.within u hu
        simp only [List.length_append, Int.natCast_add] at hstart hstop ⊢
        omega

/-- Somewhere in the text there is the term and nothing around it. -/
def Occurs (here : Nat) (text : List Char) (t : Term) : Prop :=
  ∃ front slice rest, text = front ++ (slice ++ rest) ∧ Exact (here + front.length) slice t

theorem Occurs.within {here : Nat} (front : List Char) {text : List Char} (rest : List Char) {t : Term}
    (h : Occurs (here + front.length) text t) : Occurs here (front ++ (text ++ rest)) t := by
  obtain ⟨before, slice, after, rfl, hslice⟩ := h
  exact ⟨front ++ before, slice, after ++ rest, by simp, by simpa [Nat.add_assoc] using hslice⟩

theorem Spells.occurs_of_mem {here : Nat} {text : List Char} {ts : List Term}
    (h : Spells here text ts) : ∀ t ∈ ts, Occurs here text t := by
  refine Spells.sequence (motive := fun here text ts => ∀ t ∈ ts, Occurs here text t)
    (fun here => by simp) (fun here gap text ts ih t ht => ?_)
    (fun here slice text u ts hslice ih t ht => ?_) h
  · simpa using (ih t ht).within _ []
  · rcases List.mem_cons.mp ht with rfl | ht
    · exact ⟨[], slice, text, rfl, hslice⟩
    · simpa using (ih t ht).within _ []

/-! ### At any depth -/

/-- The term is one of some terms or, at whatever depth, one of the elements of theirs. -/
inductive Among (t : Term) : List Term → Prop where
  | here {ts : List Term} (h : t ∈ ts) : Among t ts
  | inside {ts es : List Term} {span : Span} {bracket : Bracket}
      (hgroup : .group span bracket es ∈ ts) (h : Among t es) : Among t ts

theorem Among.occurs {t : Term} {ts : List Term} (ht : Among t ts) {here : Nat} {text : List Char}
    (h : Spells here text ts) : Occurs here text t := by
  induction ht generalizing here text with
  | here ht => exact h.occurs_of_mem _ ht
  | @inside ts es span bracket hgroup _ ih =>
    obtain ⟨front, slice, rest, rfl, hslice⟩ := h.occurs_of_mem _ hgroup
    cases hslice with
    | @group _ inner _ hinner =>
      have hinside : Occurs (here + front.length) (bracket.opening :: (inner ++ [bracket.closing])) t :=
        (ih hinner).within [bracket.opening] [bracket.closing]
      exact hinside.within front rest

/-- What the span of a term in a file says about the text. -/
structure Placed (file : SourceFile) (t : Term) : Prop where
  /-- It is a part of the file that is not empty. -/
  within : 0 ≤ t.span.start ∧ t.span.start < t.span.stop ∧ t.span.stop ≤ file.contents.length
  /-- Its text alone gives the term, with spans that count from there. -/
  alone : ∃ u, parse ⟨file.name, file.textOf t.span⟩ = ⟨[u], none⟩ ∧
    u.mapSpan (Span.moved t.span.start.toNat) = t
  /-- The elements follow each other strictly inside. -/
  elements : ∀ span bracket es, t = .group span bracket es → Ordered es ∧
    ∀ e ∈ es, span.start < e.span.start ∧ e.span.stop < span.stop

theorem Occurs.placed {file : SourceFile} {t : Term} (h : Occurs 0 file.contents t) :
    Placed file t := by
  obtain ⟨front, slice, rest, htext, hslice⟩ := h
  rw [Nat.zero_add] at hslice
  have hspan := hslice.span_eq
  refine ⟨?_, ?_, ?_⟩
  · have hpositive := hslice.length_pos
    rw [hspan, htext]
    simp only [Span.ofLength, List.length_append, Int.natCast_add]
    omega
  · obtain ⟨us, hus, hmoved⟩ := hslice.alone.moved (Nat.zero_add front.length).symm
    obtain ⟨u, rfl, hu⟩ := List.map_eq_singleton_iff.mp hmoved
    refine ⟨u, ?_, by simpa [hspan, Span.ofLength] using hu⟩
    rw [hspan, SourceFile.textOf_ofLength htext, parse_eq_iff]
    exact ⟨slice, [], by simp, hus, .inl rfl⟩
  · rintro span bracket es rfl
    cases hslice with
    | group _ hinner =>
      obtain ⟨hordered, hbetween⟩ := hinner.between
      refine ⟨hordered, fun e he => ?_⟩
      obtain ⟨hstart, -, hstop⟩ := hbetween e he
      simp only [Span.ofLength]
      omega

/-- A file is read without an error exactly when its text is made of blanks, comments, symbols, quoted
strings and groups. Then the spans of all its terms are exact. -/
theorem parse_exact (file : SourceFile) :
    ((parse file).error = none ↔ ∃ ts, Reads 0 file.contents ts) ∧
    ∀ ts, parse file = ⟨ts, none⟩ →
      Reads 0 file.contents ts ∧ Ordered ts ∧ ∀ t, Among t ts → Placed file t := by
  constructor
  · constructor
    · intro h
      exact ⟨_, (parse_eq_iff file (parse file).terms).mp (by rw [← h])⟩
    · rintro ⟨ts, h⟩
      rw [(parse_eq_iff file ts).mpr h]
  · intro ts h
    have hreads := (parse_eq_iff file ts).mp h
    obtain ⟨body, last, htext, hbody, hlast⟩ := id hreads
    refine ⟨hreads, hbody.between.ordered, fun t ht => ?_⟩
    have hoccurs : Occurs 0 file.contents t := by
      rw [htext]
      exact (ht.occurs hbody).within [] last
    exact hoccurs.placed

theorem placed_nested :
    let file : SourceFile := ⟨"test.fun", "  (a [b c]) ; \n\"d e\"".toList⟩
    (parse file).error = none ∧ (parse file).terms.length = 2 ∧
      ∀ t, Among t (parse file).terms → Placed file t := by
  intro file
  have haccepted : (parse file).error = none := by decide +kernel
  refine ⟨haccepted, by decide +kernel, ((parse_exact file).2 _ ?_).2.2⟩
  rw [← haccepted]

end Term

end StreamLoom
