import StreamLoom.Program.Read
import StreamLoom.Proofs.Model.Words

/-!
# Elements are defined once

A model is only built when no two patterns of an identifier were found to define the same element. What
is found depends on the arithmetic. With unbounded integers nothing is missed, so that the elements are
really defined once wherever words lead to the same finding, as they do when guards compare index variables
with each other and with small constants. Words alone do not suffice: a bound close to the greatest word can
turn into one that nothing satisfies.
-/

namespace StreamLoom

/-- Whether two patterns of an identifier are found to define an element in common. -/
def Identifier.collide [Arithmetic] (id : Identifier) (array : DataArray) (k l : Nat)
    (first second : Pattern) : Except Failure Bool := do
  let s ← Program.patternDomain array (Program.statementName id k) first
  let t ← Program.patternDomain array (Program.statementName id l) second
  return !(t.intersect s).isIntegerEmpty

section

variable [Arithmetic] {p : Program} {m : Model}

/-- No two patterns of an identifier were found to collide when a model was built. -/
theorem Model.collide_of_build (hm : (Model.build p).execute.1 = .ok m) {i : Nat} {id : Identifier}
    (hid : p.identifiers[i]? = some id) {array : DataArray} (harray : p.identifierArray id i = .ok array)
    {k l : Nat} {first second : Pattern} (hkl : k < l) (hfirst : id.patterns[k]? = some first)
    (hsecond : id.patterns[l]? = some second) :
    first.indices.length = array.rank ∧ second.indices.length = array.rank ∧
      id.collide array k l first second = .ok false := by
  obtain ⟨_, _, hassembled⟩ := assembled_of_build hm
  obtain ⟨hrank, hrank', s, t, hs, ht, hempty⟩ := hassembled.exists_domains hid harray hkl hfirst hsecond
  refine ⟨hrank, hrank', ?_⟩
  rw [Identifier.collide, hs, ht]
  simp [bind, Except.bind, pure, Except.pure, hempty]

end

attribute [local instance] Arithmetic.exact

/-- With unbounded integers, patterns that define an element in common are found to collide. -/
theorem Identifier.not_defines_of_collide {id : Identifier} {array : DataArray} {k l : Nat}
    {first second : Pattern} (hfirst : first.indices.length = array.rank)
    (hsecond : second.indices.length = array.rank) (h : id.collide array k l first second = .ok false)
    (x : List Int) : ¬ (first.Defines array.extents x ∧ second.Defines array.extents x) := by
  obtain ⟨s, hs, hrest⟩ := Outcome.bind_eq_ok h
  obtain ⟨t, ht, hpure⟩ := Outcome.bind_eq_ok hrest
  have hempty : (t.intersect s).isIntegerEmpty = true := by simpa using Except.ok.inj hpure
  obtain ⟨hdims, -, hregular⟩ := Program.regular_patternDomain hs hfirst
  obtain ⟨hdims', -, hregular'⟩ := Program.regular_patternDomain ht hsecond
  rw [← Program.includes_patternDomain hs hfirst, ← Program.includes_patternDomain ht hsecond,
    PointSet.includes_iff hregular, PointSet.includes_iff hregular']
  rintro ⟨⟨-, hx⟩, -, hx'⟩
  exact PointSet.not_has_of_isIntegerEmpty (PointSet.regular_intersect hregular') hempty (valuation x)
    ((PointSet.has_intersect hregular' hregular (hdims.trans hdims'.symm)).mpr ⟨hx', hx⟩)

/-- Two patterns of an array whose guards compare index variables with each other and with constants. The
constants and the extents are small for the rank of the array. -/
structure DataArray.Modest (array : DataArray) (bound : Nat) (first second : Pattern) : Prop where
  sizes : array.sizesWithin bound = true
  first : first.comparesWithin bound = true
  second : second.comparesWithin bound = true
  small : 2 ^ ((array.rank + 1) * (array.rank + 1)) * (2 * bound + 1) < 2 ^ 62

/-- Words find the same as unbounded integers for patterns with small constants. -/
theorem Identifier.collide_words {id : Identifier} {array : DataArray} {bound k l : Nat}
    {first second : Pattern} (hfirst : first.indices.length = array.rank)
    (hsecond : second.indices.length = array.rank) (h : array.Modest bound first second) :
    @collide .word64 id array k l first second = id.collide array k l first second := by
  have hsmall := h.small
  have hle : 2 * (2 * bound + 1) ≤ 2 ^ ((array.rank + 1) * (array.rank + 1)) * (2 * bound + 1) :=
    Nat.mul_le_mul_right _ (Nat.le_self_pow (by positivity) 2)
  obtain ⟨hwords, hdomain⟩ := Program.patternDomain_words (by omega) hfirst h.sizes h.first
    (Program.statementName id k)
  obtain ⟨hwords', hdomain'⟩ := Program.patternDomain_words (by omega) hsecond h.sizes h.second
    (Program.statementName id l)
  unfold collide
  rw [hwords, hwords']
  cases hs : Program.patternDomain array (Program.statementName id k) first with
  | error failure => simp only [bind, Except.bind]
  | ok s =>
    cases ht : Program.patternDomain array (Program.statementName id l) second with
    | error failure => simp only [bind, Except.bind]
    | ok t =>
      have hempty := ((hdomain' t ht).intersect (hdomain s hs)).isIntegerEmpty hsmall
      simp only [bind, Except.bind, hempty]

/-- What is accepted on words is defined at most once, wherever words find the same as unbounded integers
would, and for patterns with small constants they do. -/
theorem Model.defined_once {p : Program} {m : Model} (hm : (@build .word64 p).execute.1 = .ok m) {i : Nat}
    {id : Identifier} (hid : p.identifiers[i]? = some id) {array : DataArray}
    (harray : p.identifierArray id i = .ok array) {k l : Nat} {first second : Pattern} (hkl : k < l)
    (hfirst : id.patterns[k]? = some first) (hsecond : id.patterns[l]? = some second)
    (hfits : (∃ bound, array.Modest bound first second) ∨
      @Identifier.collide .word64 id array k l first second =
        @Identifier.collide .exact id array k l first second) (x : List Int) :
    ¬ (first.Defines array.extents x ∧ second.Defines array.extents x) := by
  obtain ⟨hrank, hrank', hcollide⟩ := @collide_of_build .word64 p m hm i id hid array harray k l first second
    hkl hfirst hsecond
  have hsame : @Identifier.collide .word64 id array k l first second =
      @Identifier.collide .exact id array k l first second := by
    rcases hfits with ⟨bound, hmodest⟩ | hsame
    · exact Identifier.collide_words hrank hrank' hmodest
    · exact hsame
  rw [hsame] at hcollide
  exact Identifier.not_defines_of_collide hrank hrank' hcollide x

/-- A stream with a first element and all others. -/
def headAndTail : List SourceFile :=
  [⟨"", "(array a int [inf] (pattern [0] 1) (pattern [i] (when (> i 0)) 2))".toList⟩]

theorem Model.defined_once_headAndTail : ∃ p m id array first second,
    (@Program.read .word64 ⟨⟨"", []⟩, []⟩ headAndTail).result = .ok p ∧
    (@build .word64 p).execute.1 = .ok m ∧ p.identifiers[0]? = some id ∧
    p.identifierArray id 0 = .ok array ∧ id.patterns[0]? = some first ∧ id.patterns[1]? = some second ∧
    array.Modest 0 first second ∧
    ∀ x, ¬ (first.Defines array.extents x ∧ second.Defines array.extents x) := by
  have hrun : (Outcome.passes (@Program.read .word64 ⟨⟨"", []⟩, []⟩ headAndTail).result fun p =>
      Outcome.passes (@build .word64 p).execute.1 fun _ => p.identifiers[0]?.any fun id =>
        Outcome.passes (p.identifierArray id 0) fun array => id.patterns[0]?.any fun first =>
          id.patterns[1]?.any fun second => decide (array.sizesWithin 0 = true ∧
            first.comparesWithin 0 = true ∧ second.comparesWithin 0 = true ∧
            2 ^ ((array.rank + 1) * (array.rank + 1)) * (2 * 0 + 1) < 2 ^ 62)) = true := by
    decide +kernel
  obtain ⟨p, hread, hrun⟩ := Outcome.exists_of_passes hrun
  obtain ⟨m, hm, hrun⟩ := Outcome.exists_of_passes hrun
  obtain ⟨id, hid, hrun⟩ := (Option.any_eq_true _ _).mp hrun
  obtain ⟨array, harray, hrun⟩ := Outcome.exists_of_passes hrun
  obtain ⟨first, hfirst, hrun⟩ := (Option.any_eq_true _ _).mp hrun
  obtain ⟨second, hsecond, hrun⟩ := (Option.any_eq_true _ _).mp hrun
  obtain ⟨hsizes, hwithin, hwithin', hsmall⟩ := of_decide_eq_true hrun
  have hmodest : array.Modest 0 first second := ⟨hsizes, hwithin, hwithin', hsmall⟩
  exact ⟨p, m, id, array, first, second, hread, hm, hid, harray, hfirst, hsecond, hmodest,
    defined_once hm hid harray (by decide) hfirst hsecond (.inl ⟨0, hmodest⟩)⟩

/-- A stream whose first element is defined by two patterns. The bound of the second one is the least
word, which has no negation. -/
def twiceBegun : List SourceFile :=
  [⟨"", "(array a int [inf] (pattern [0] 1) (pattern [i] (when (>= i -9223372036854775808)) 2))".toList⟩]

/-- Without wide enough words an element can be defined twice. -/
theorem Model.defined_twice : ∃ p m id array first second,
    (@Program.read .word64 ⟨⟨"", []⟩, []⟩ twiceBegun).result = .ok p ∧
    (@build .word64 p).execute.1 = .ok m ∧ p.identifiers[0]? = some id ∧
    p.identifierArray id 0 = .ok array ∧ id.patterns[0]? = some first ∧ id.patterns[1]? = some second ∧
    first.Defines array.extents [0] ∧ second.Defines array.extents [0] := by
  have hrun : (Outcome.passes (@Program.read .word64 ⟨⟨"", []⟩, []⟩ twiceBegun).result fun p =>
      Outcome.passes (@build .word64 p).execute.1 fun _ => p.identifiers[0]?.any fun id =>
        Outcome.passes (p.identifierArray id 0) fun array => id.patterns[0]?.any fun first =>
          id.patterns[1]?.any fun second =>
            Outcome.passes (Program.patternDomain array "a" first) fun s =>
              Outcome.passes (Program.patternDomain array "a" second) fun t =>
                decide (first.indices.length = array.rank ∧ second.indices.length = array.rank ∧
                  (1 = s.dims ∧ 0 = s.locals ∧ ∀ c ∈ s.cons, c.holds [0] = true) ∧
                  (1 = t.dims ∧ 0 = t.locals ∧ ∀ c ∈ t.cons, c.holds [0] = true))) = true := by
    decide +kernel
  obtain ⟨p, hread, hrun⟩ := Outcome.exists_of_passes hrun
  obtain ⟨m, hm, hrun⟩ := Outcome.exists_of_passes hrun
  obtain ⟨id, hid, hrun⟩ := (Option.any_eq_true _ _).mp hrun
  obtain ⟨array, harray, hrun⟩ := Outcome.exists_of_passes hrun
  obtain ⟨first, hfirst, hrun⟩ := (Option.any_eq_true _ _).mp hrun
  obtain ⟨second, hsecond, hrun⟩ := (Option.any_eq_true _ _).mp hrun
  obtain ⟨s, hs, hrun⟩ := Outcome.exists_of_passes hrun
  obtain ⟨t, ht, hrun⟩ := Outcome.exists_of_passes hrun
  obtain ⟨hrank, hrank', ⟨hdims, hlocals, hx⟩, hdims', hlocals', hx'⟩ := of_decide_eq_true hrun
  exact ⟨p, m, id, array, first, second, hread, hm, hid, harray, hfirst, hsecond,
    (Program.includes_patternDomain hs hrank [0]).mp ⟨hdims, [], hlocals, hx⟩,
    (Program.includes_patternDomain ht hrank' [0]).mp ⟨hdims', [], hlocals', hx'⟩⟩

end StreamLoom
