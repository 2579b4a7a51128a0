import StreamLoom.Arithmetic.Basic

/-!
# Least delays

An arc demands that its target starts at least its weight later than its source. The least delays
which meet all demands are the longest paths through the arcs. They are found by relaxing all arcs
again and again; when that has no end there is a cycle of positive weight.
-/

namespace StreamLoom

structure Arc where
  source : Nat
  target : Nat
  weight : Int
deriving DecidableEq, Repr

namespace Arc

variable [Arithmetic]

/-- Delays the target of an arc if it starts too early, and adds it to those which changed. -/
def relax : List Int × List Nat → Arc → List Int × List Nat
  | (delays, changed), a =>
    let demand := fit (delays.getD a.source 0 + a.weight)
    if demand > delays.getD a.target 0 then (delays.set a.target demand, changed ++ [a.target])
    else (delays, changed)

/-- Relaxes every arc once, and returns the entries which had to be delayed. -/
def relaxAll (arcs : List Arc) (delays : List Int) : List Int × List Nat :=
  arcs.foldl relax (delays, [])

/-- Relaxes until nothing changes. After as many rounds as are left over, the entries that still
change are returned. -/
def settle (arcs : List Arc) : Nat → List Int → Except (List Nat) (List Int)
  | left, delays =>
    match relaxAll arcs delays with
    | (delays, []) => .ok delays
    | (delays, changed) =>
      match left with
      | 0 => .error changed
      | left + 1 => settle arcs left delays

/-- The least delays of `n` entries, or the entries that still change in the last round. -/
def longestPaths (n : Nat) (arcs : List Arc) : Except (List Nat) (List Int) :=
  settle arcs n (List.replicate n 0)

end Arc

end StreamLoom
