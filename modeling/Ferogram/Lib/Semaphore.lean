import Mathlib.Algebra.Order.Ring.Nat

/- A fair counting semaphore. An ask names a caller and how many permits it wants at once; asks
   are granted in the order in which they came, so one that cannot be granted holds up those
   behind it. A granted ask gives its permits back all together, and a waiting one may be
   dropped. -/
namespace Semaphore

structure Ask where
  caller : Nat
  permits : Nat
  deriving DecidableEq, Repr

/-- `queue` has the first in line in front. -/
structure State where
  free : Nat
  queue : List Ask
  held : List Ask
  deriving DecidableEq, Repr

inductive Event where
  | acquire (ask : Ask)
  | release (ask : Ask)
  | drop (ask : Ask)
  deriving DecidableEq, Repr

def new (permits : Nat) : State := { free := permits, queue := [], held := [] }

/-- Grant from the front of the queue, as far as the free permits go. -/
def grant (free : Nat) (held : List Ask) : List Ask → State
  | [] => { free := free, queue := [], held := held }
  | ask :: queue =>
    if ask.permits ≤ free then grant (free - ask.permits) (ask :: held) queue
    else { free := free, queue := ask :: queue, held := held }

/-- A release of what is not held, and a drop of what does not wait, do nothing. -/
def next (s : State) : Event → State
  | .acquire ask => grant s.free s.held (s.queue ++ [ask])
  | .release ask => if ask ∈ s.held then grant (s.free + ask.permits) (s.held.erase ask) s.queue else s
  | .drop ask => grant s.free s.held (s.queue.erase ask)

/-- On an idle semaphore an ask is granted at once exactly when there are permits for it. -/
theorem alone_granted_iff (total : Nat) (ask : Ask) :
    ask ∈ (next (new total) (.acquire ask)).held ↔ ask.permits ≤ total := by
  by_cases hfits : ask.permits ≤ total <;> simp [next, new, grant, hfits]

end Semaphore
