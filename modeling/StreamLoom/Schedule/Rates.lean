import StreamLoom.Failure
import StreamLoom.Model.Basic

/-!
# Rates of streams

All streams of a period advance together. When a statement reads a stream at twice its own index, the
stream has to advance twice as fast. Each such access is a balance between two arrays, and the rates
are the least integers that satisfy all of them.
-/

namespace StreamLoom

/-- The producer advances `ratio` times as fast as the consumer. -/
structure Balance where
  producer : Nat
  consumer : Nat
  ratio : Int
  /-- The statements which the access is between. -/
  statements : List String

/-- The rate of each array which has one, in the order in which they were found. -/
abbrev Rates (α : Type) := List (Nat × α)

namespace Balance

/-- Determines the rate of one array from that of the other. -/
def apply (rates : Rates Rat) (b : Balance) : Except Failure (Rates Rat) :=
  match rates.lookup b.producer, rates.lookup b.consumer with
  | none, some c => .ok (rates ++ [(b.producer, c * b.ratio)])
  | some p, none => .ok (rates ++ [(b.consumer, p / b.ratio)])
  | some p, some c =>
    if p = c * b.ratio then .ok rates
    else .error (.infeasible b.statements "inconsistent stream rates")
  | none, none => .ok rates

/-- Applies all balances as often as the count says. Every round but the last settles an array, so
that one more round than there are balances suffices. -/
def spread (balances : List Balance) : Nat → Rates Rat → Except Failure (Rates Rat)
  | 0, rates => .ok rates
  | rounds + 1, rates => do spread balances rounds (← balances.foldlM apply rates)

end Balance

namespace Rates

variable [Arithmetic]

/-- The least common multiple of a period and another one, where none has been found at first. -/
def common (a b : Int) : Int := if a = 0 then b else Arithmetic.lcm a b

/-- Scales the rates of connected arrays to the least integers. -/
def integral (rates : Rates Rat) : Except Fault (Rates Int) := do
  let denominator := rates.foldl (fun d r => common d (fit r.2.den)) 1
  let numerators := rates.map fun r => (r.1, fit (r.2 * (denominator : Rat)).num)
  let divisor := numerators.foldl (fun g r => Arithmetic.gcd g r.2) 0
  numerators.mapM fun r => return (r.1, ← Arithmetic.truncDiv? r.2 divisor)

/-- Adds the rates of an array, and of all arrays connected to it, to those that are known. -/
def connect (balances : List Balance) (known : Rates Rat × Rates Int) (array : Nat) :
    Except Failure (Rates Rat × Rates Int) := do
  if (known.1.lookup array).isSome then return known
  let rates ← Balance.spread balances (balances.length + 1) (known.1 ++ [(array, 1)])
  let periods ← (integral (rates.drop known.1.length)).mapError .fault
  return (rates, known.2 ++ periods)

/-- The multiplier of the consumer's flow index in the producer's. -/
def flowRatio (d : Dependency) (consumer producer : Nat) : Option Int :=
  match d.relation.mapping with
  | .ok mapping => some (mapping.coefficient consumer producer)
  | .error _ => d.relation.slope consumer producer

/-- The balance of a dependency. Steady statements advance with every stream that they read, unless
they always read it at the same index. -/
def balance (m : Model) (steady : List Bool) (d : Dependency) : Except Failure (Option Balance) := do
  match m.statements[d.producer]?, m.statements[d.consumer]? with
  | some producer, some consumer =>
    match producer.flow, consumer.flow with
    | some source, some sink =>
      if !steady.getD d.consumer false then return none
      let names := [producer.name, consumer.name]
      match flowRatio d sink source with
      | none => throw (.infeasible names "non-affine stream access")
      | some ratio =>
        if ratio < 0 then throw (.infeasible names "stream accessed in reverse")
        else if ratio > 0 then return some ⟨producer.array, consumer.array, ratio, names⟩
        else return none
    | _, _ => return none
  | _, _ => return none

/-- The number of flow indices that each period produces, of every array that advances. -/
def ofModel (m : Model) (steady : List Bool) : Except Failure (Rates Int) := do
  let balances ← m.dependencies.mapM (balance m steady)
  let arrays := (m.statements.zip steady).filterMap fun (s, isSteady) =>
    if isSteady then some s.array else none
  return (← arrays.foldlM (connect (balances.filterMap id)) ([], [])).2

/-- The rates in the order of the arrays. -/
def sorted (rates : Rates Int) : Rates Int := rates.mergeSort fun a b => a.1 ≤ b.1

/-- The least number of steps after which every array has advanced by a whole number of periods. -/
def period (rates : Rates Int) : Int := rates.sorted.foldl (fun l r => common l r.2) 0

def text (rates : Rates Int) : String :=
  "map" ++ Text.bracketed (rates.sorted.map fun r => toString r.1 ++ ":" ++ toString r.2)

end Rates

end StreamLoom
