/-
  Debugging displays of streams, liveness and allocations.
-/
import Codegen.Allocation
import Codegen.Graph.Dot
import Codegen.Liveness
import Codegen.Text.Table

namespace Codegen.Display

/-- The heading of a displayed stream. -/
def streamHeading (name : String) : String := "==============Stream@" ++ name ++ "==============\n"

/-- A stream under its name. -/
def stream (name : String) (items : Stream) : Except Fault String := do
  return streamHeading name ++ (← items.listing)

/-- How often each register occurs, by name. -/
def counts (occurrences : List (Register × Nat)) : String :=
  let named := occurrences.map fun (r, n) => (r.text, n)
  let sorted := named.mergeSort fun a b => decide (a.1 ≤ b.1)
  let row (entry : String × Nat) : String :=
    "  (string) (len=" ++ toString entry.1.utf8ByteSize ++ ") " ++ Text.quote entry.1 ++ ": (int) " ++
      toString entry.2
  let size := if sorted.isEmpty then "" else "(len=" ++ toString sorted.length ++ ") "
  let body := if sorted.isEmpty then "" else ",\n".intercalate (sorted.map row) ++ "\n"
  "(map[string]int) " ++ size ++ "\x7b\n" ++ body ++ "\x7d\n"

/-- An interference graph and how often each register occurs. -/
def liveness (name : String) (found : Liveness.Result) : String :=
  found.interference.dot name ++ "\n" ++ counts found.occurrences

/-- The physical registers given to the listed registers. -/
def allocationTable (name : String) (a : Allocation) (order : List Register) : Text.Table where
  title := some ("Allocation@" ++ name)
  columns := [("Register", .left), ("Physical", .left)]
  rows := order.map fun r => [r.text, ((a.lookup r).map Physical.name).getD "-"]

/-- An allocation under its name. -/
def allocation (name : String) (a : Allocation) (order : List Register) : String :=
  (allocationTable name a order).render ++ "\n" ++ String.ofList (List.replicate 48 '=') ++ "\n"

end Codegen.Display
