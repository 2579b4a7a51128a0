import StreamLoom.Affine.System

/-!
# Integer solutions

The rational shadow of a system can be inhabited although the system has no integer solution. The
search settles this for bounded systems: it fixes the variable with the narrowest bounds to each of
its values in turn. A budget limits the number of values tried, and when it runs out, or when no
variable is bounded, a solution is assumed to exist.
-/

namespace StreamLoom.System

variable [Arithmetic]

/-- The number of values that a search may try. -/
def searchBudget : Int := 4096

def mentions (rows : System) (v : Nat) : Bool := rows.any (·.coeff v != 0)

/-- The variable that a search branches on, with its least and greatest value. -/
structure Branch where
  var : Nat
  lower : Int
  upper : Int

/-- What the shadows of a system onto single variables tell about it. -/
inductive Outlook where
  | infeasible
  | unbounded
  | narrowest (branch : Branch)

/-- Keeps the narrower of two branches, the earlier when they are equally wide. -/
def Branch.narrower (best : Option Branch) (next : Branch) : Branch :=
  match best with
  | none => next
  | some b => if fit (next.upper - next.lower) < fit (b.upper - b.lower) then next else b

/-- The outlook of a system over `n` variables, given what the earlier variables tell. -/
def outlookFrom (n : Nat) (rows : System) : List Nat → Option Branch → Outlook
  | [], none => .unbounded
  | [], some best => .narrowest best
  | v :: vs, best =>
    if !rows.mentions v then outlookFrom n rows vs best
    else match (project rows ((List.range n).filter (· ≠ v))).bind (·.bounds v) with
      | none => .infeasible
      | some interval =>
        match interval.ends? with
        | none => outlookFrom n rows vs best
        | some (lo, hi) => outlookFrom n rows vs (some (Branch.narrower best ⟨v, lo, hi⟩))

def outlook (n : Nat) (rows : System) : Outlook := outlookFrom n rows (List.range n) none

/-- Tries as many consecutive values as the count says until one of them succeeds, and returns the
budget that is left. -/
def tryValues (attempt : Int → Int → Bool × Int) : Nat → Int → Int → Bool × Int
  | 0, _, budget => (false, budget)
  | count + 1, x, budget =>
    let (found, budget) := attempt x (budget - 1)
    if found then (true, budget) else tryValues attempt count (x + 1) budget

/-- Searches a system over `n` variables. Each level fixes one variable, which is not mentioned
afterwards, so that `n + 1` levels suffice. -/
def search (n : Nat) : Nat → System → Int → Bool × Int
  | 0, _, budget => (true, budget)
  | levels + 1, rows, budget =>
    match outlook n rows with
    | .infeasible => (false, budget)
    | .unbounded => (true, budget)
    | .narrowest ⟨v, lo, hi⟩ =>
      if fit (hi - lo) ≥ budget then (true, budget)
      else
        let attempt (x budget : Int) : Bool × Int :=
          let fixed := Constraint.equal (.var n v) (.constant n x)
          match (ofConstraints (rows ++ [fixed])).bind (·.eliminate v) with
          | none => (false, budget)
          | some rows => search n levels rows budget
        tryValues attempt (hi - lo + 1).toNat lo budget

/-- Whether a system over `n` variables has an integer solution, as far as the search can tell. -/
def hasIntegerSolution (n : Nat) (rows : System) : Bool :=
  (search n (n + 1) rows searchBudget).1

end StreamLoom.System
