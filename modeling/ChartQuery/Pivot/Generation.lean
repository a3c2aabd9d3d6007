namespace ChartQuery

/-- The generations of batches. A batch is current from its ticket until the next one is taken. -/
structure Generation where
  current : UInt64
  deriving DecidableEq, Repr

namespace Generation

def start : Generation := ⟨0⟩

def next (g : Generation) : Generation := ⟨g.current + 1⟩

/-- Takes a ticket, which is the number of the generation that it starts. -/
def advance (g : Generation) : UInt64 × Generation := (g.next.current, g.next)

def isCurrent (g : Generation) (ticket : UInt64) : Bool := g.current == ticket

def after (g : Generation) (tickets : UInt64) : Generation := ⟨g.current + tickets⟩

end Generation

/-- Several counters of generations, and handles on them that may share one. -/
structure Counters where
  counters : List Generation
  /-- For each handle the index of its counter. -/
  handles : List Nat
  deriving DecidableEq, Repr

namespace Counters

def single : Counters := ⟨[.start], [0]⟩

def generation? (c : Counters) (handle : Nat) : Option Generation :=
  c.handles[handle]?.bind (c.counters[·]?)

def advance (c : Counters) (handle : Nat) : Counters :=
  match c.handles[handle]? with
  | some i => { c with counters := c.counters.modify i Generation.next }
  | none => c

def clone (c : Counters) (handle : Nat) : Counters :=
  match c.handles[handle]? with
  | some i => { c with handles := c.handles ++ [i] }
  | none => c

def add (c : Counters) : Counters :=
  ⟨c.counters ++ [.start], c.handles ++ [c.counters.length]⟩

def currents (c : Counters) : List UInt64 :=
  (List.range c.handles.length).filterMap fun h => (c.generation? h).map Generation.current

end Counters

end ChartQuery
