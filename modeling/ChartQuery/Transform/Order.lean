import ChartQuery.Distinct
import ChartQuery.Transform.Basic
import ChartQuery.Transform.Countdown

namespace ChartQuery.Transform

def lastIndex? (key : String) : List String → Option Nat
  | [] => none
  | k :: keys =>
    match lastIndex? key keys with
    | some i => some (i + 1)
    | none => if k = key then some 0 else none

/-- For each transform the positions of those it reads. A key stands for the last transform that
carries it; a key that none carries does not count. -/
def precedents (ts : List Transform) : List (List Nat) :=
  let keys := ts.map key
  ts.map fun t => distinct (t.references.filterMap (lastIndex? · keys))

def readsOf (table : Array (List Nat)) (i : Nat) : List Nat := table.getD i []

/-- The positions of those that read the transform at `i`. -/
def readersOf (table : Array (List Nat)) (i : Nat) : List Nat :=
  (List.range table.size).filter fun j => (readsOf table j).contains i

/-- Positions in the order of evaluation, and the stuck ones: those that wait for ever. -/
def placement (ts : List Transform) : List Nat × List Nat :=
  let reads := precedents ts
  let (placed, last) := (Countdown.start (reads.map List.length)).drain (readersOf reads.toArray)
  (placed, (List.range ts.length).filter fun i => 0 < last.count i)

/-- Follows `next` from the end of a path until it comes back to the path, and gives the loop with
its first position repeated at the end. -/
def loop? (next : Nat → Option Nat) : Nat → List Nat → Nat → Option (List Nat)
  | 0, _, _ => none
  | fuel + 1, path, i =>
    match next i with
    | none => none
    | some j =>
      if path.contains j then some (path.dropWhile (· != j) ++ [j])
      else loop? next fuel (path ++ [j]) j

/-- The earliest stuck position that the one at `i` reads. -/
def stuckRead? (reads : Nat → List Nat) (stuck : List Nat) (i : Nat) : Option Nat :=
  ((reads i).filter stuck.contains).min?

/-- The circle that is found from the first stuck position, if there is one. -/
def circle? (reads : Nat → List Nat) (stuck : List Nat) : Option (List Nat) :=
  stuck.head?.bind fun start => loop? (stuckRead? reads stuck) stuck.length [start] start

/-- A circle of references among stuck positions, or else all of them. -/
def cycle (reads : Nat → List Nat) (stuck : List Nat) : List Nat :=
  (circle? reads stuck).getD stuck

def select (ts : List Transform) (positions : List Nat) : List Transform :=
  positions.filterMap (ts[·]?)

def keysAt (ts : List Transform) (positions : List Nat) : List String :=
  (select ts positions).map key

def stuckKeys (ts : List Transform) : List String := keysAt ts (placement ts).2

/-- The transforms in the order of evaluation. If some are stuck, the policy decides: they are
refused with the keys of a circle, or they come last in the order of the input. -/
def order (policy : CyclePolicy) (ts : List Transform) :
    Except (List String) (List Transform) :=
  let (placed, stuck) := placement ts
  match policy with
  | .keep => .ok (select ts (placed ++ stuck))
  | .reject =>
    if stuck = [] then .ok (select ts placed)
    else .error (keysAt ts (cycle (readsOf (precedents ts).toArray) stuck))

end ChartQuery.Transform
