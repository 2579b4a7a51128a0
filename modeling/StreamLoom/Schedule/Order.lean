import StreamLoom.Arithmetic.Basic

/-!
# Order of entries

Entries which can execute at the same time are put into an order in which producers precede
consumers. Of the entries that could come next, the one declared first is taken.
-/

namespace StreamLoom

/-- A producer which has to precede a consumer. -/
structure Tie where
  producer : Nat
  consumer : Nat
deriving DecidableEq, Repr

namespace Tie

/-- Whether everything that has to precede an entry is done. -/
def isReady (ties : List Tie) (done : List Nat) (i : Nat) : Bool :=
  ties.all fun t => t.consumer != i || done.contains t.producer

/-- The entries that have not been done. -/
def pending (n : Nat) (done : List Nat) : List Nat := (List.range n).filter (!done.contains ·)

/-- Takes as many further entries as the count says, or returns those which are left over when none
of them is ready. -/
def take (n : Nat) (ties : List Tie) : Nat → List Nat → Except (List Nat) (List Nat)
  | 0, done => .ok done
  | count + 1, done =>
    match (pending n done).find? (isReady ties done) with
    | some i => take n ties count (done ++ [i])
    | none => .error (pending n done)

/-- The sequence in which `n` entries are done, or the entries that wait for each other. -/
def sequence (n : Nat) (ties : List Tie) : Except (List Nat) (List Nat) := take n ties n []

end Tie

end StreamLoom
