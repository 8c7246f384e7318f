/-
  Liveness analysis of streams.

  A register is live at a place if control may reach a use of it from there
  without passing a definition.  The analysis works backwards over the items
  until nothing changes and then builds two graphs over the registers:

  * `interference` joins a register that an instruction defines with every
    register live after it; the source of a register-to-register move does not
    count at that move;
  * `copies` joins the two sides of the register-to-register moves that do not
    interfere.
-/
import Codegen.Graph.Basic
import Codegen.Instr.Stream

namespace Codegen

namespace Stream

/-- The position of a label: its last definition counts. -/
def position? (items : Stream) (l : Label) : Option Nat :=
  items.zipIdx.foldl (fun found (item, k) => if item = .label l then some k else found) none

/-- The positions that control may go to after the item at position `k`. -/
def next (items : Stream) (k : Nat) : Item → Except Fault (List Nat)
  | .label _ => .ok following
  | .stray r => .error (.strayItem r)
  | .instr i =>
    let falls := if i.fallsThrough then following else []
    match i.target? with
    | none => .ok falls
    | some l =>
      match items.position? l with
      | some j => .ok (falls ++ [j])
      | none => .error (.unknownTarget l i)
where
  following : List Nat := if k + 1 < items.length then [k + 1] else []

end Stream

namespace Liveness

/-- A set of registers as a list without repetition. -/
abbrev LiveSet := List Register

/-- The set with those of another one added at its end. -/
def LiveSet.union (s t : LiveSet) : LiveSet := s ++ t.filter fun r => !s.contains r

/-- The registers live before an item, from those live after it. -/
def before (item : Item) (out : LiveSet) : LiveSet :=
  match item.instr? with
  | none => out
  | some i => LiveSet.union (out.filter fun r => !i.defines.contains r) i.uses.eraseDups

/-- The registers live after an item, from those live before its successors. -/
def after (live : Array LiveSet) (next : List Nat) : LiveSet :=
  next.foldl (fun out k => out.union (live.getD k [])) []

/-- An item with its position and the positions after it. -/
structure Point where
  index : Nat
  item : Item
  next : List Nat

/-- The points of a stream. -/
def points (items : Stream) : Except Fault (List Point) :=
  items.zipIdx.mapM fun (item, k) => do return ⟨k, item, ← items.next k item⟩

/-- Adds to the set before one point what follows from the sets after it. -/
def refine (live : Array LiveSet) (p : Point) : Array LiveSet :=
  live.modify p.index fun s => s.union (before p.item (after live p.next))

/-- One backward pass over all points. -/
def sweep (ps : List Point) (live : Array LiveSet) : Array LiveSet :=
  ps.foldr (fun p live => refine live p) live

/-- Passes over the points until nothing changes, at most `limit` times. -/
def solve (ps : List Point) : (limit : Nat) → Array LiveSet → Array LiveSet
  | 0, live => live
  | limit + 1, live =>
    let live' := sweep ps live
    if live' = live then live else solve ps limit live'

/-- What the analysis finds. -/
structure Result where
  interference : Graph
  copies : Graph
  /-- How often each register is mentioned, in order of first mention. -/
  occurrences : List (Register × Nat)
  deriving DecidableEq, Repr

/-- The registers that an instruction's definitions conflict with, among those
    live after it. -/
def conflicts (i : Instr) (live : LiveSet) : LiveSet :=
  match i.copy? with
  | none => live
  | some (_, source) => live.filter (· ≠ source)

/-- The interference edges of one instruction, given what is live after it. -/
def addConflicts (g : Graph) (i : Instr) (live : LiveSet) : Graph :=
  let others := conflicts i live
  i.defines.foldl (fun g d => g.connect d (others.filter (· ≠ d))) g

/-- The interference graph of the points, given what is live before each. -/
def interference (nodes : Graph) (ps : List Point) (live : Array LiveSet) : Graph :=
  ps.foldl (fun g p =>
    match p.item.instr? with
    | none => g
    | some i => addConflicts g i (after live p.next)) nodes

/-- The copy graph of a stream, without the pairs that interfere. -/
def copies (nodes : Graph) (items : Stream) (conflict : Graph) : Graph :=
  let moves := items.instructions.filterMap Instr.copy?
  let g := moves.foldl (fun g (dst, src) => g.addEdge dst src) nodes
  g.edgeList.foldl (fun g (a, b) => if conflict.linked a b then g.removeEdge a b else g) g

/-- The analysis of a stream. -/
def analyze (items : Stream) : Except Fault Result := do
  let ps ← points items
  let registers := items.registers
  let start := Array.replicate items.length []
  let live := solve ps (items.length * registers.length + 1) start
  let nodes := registers.foldl Graph.addNode {}
  let conflict := interference nodes ps live
  let mentions := items.mentions
  return ⟨conflict, copies nodes items conflict, registers.map fun r => (r, mentions.count r)⟩

end Liveness

end Codegen
