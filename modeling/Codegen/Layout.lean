/-
  Layout of a control-flow graph as one stream.

  The graph is walked depth first and each reachable block is covered once.  A
  block gets a label when some block continues with it: the labels of a
  block's successors are drawn just before the block is covered, and a label
  stands in front of the code of its block.  The root block comes first; its
  label, if it has one, heads the stream.
-/
import Codegen.Flow.Basic
import Codegen.Instr.Stream
import Codegen.Selection

namespace Codegen.Layout

variable {n : Nat}

/-- The labels given to blocks so far.  A missing block can have one, too. -/
abbrev Labels (n : Nat) := List (Option (Fin n) × Label)

/-- The label of a block, drawn if the block has none yet. -/
def label (labels : Labels n) (b : Option (Fin n)) : Fresh (Label × Labels n) :=
  match labels.lookup b with
  | some l => return (l, labels)
  | none => do
    let l ← Fresh.label
    return (l, (b, l) :: labels)

/-- A block that is to be laid out, with the label to be put in front of it. -/
structure Pending (n : Nat) where
  label : Option Label
  block : Option (Fin n)

/-- Lays out the pending blocks and what they lead to, but for the blocks done
    already. -/
def walk (g : Flow) (cover : Coverer) (pending : List (Pending g.size)) (done : List (Fin g.size))
    (labels : Labels g.size) : Fresh (Stream × Labels g.size) := do
  match pending with
  | [] => return ([], labels)
  | ⟨_, none⟩ :: _ => throw .missingBlock
  | ⟨place, some i⟩ :: rest =>
    if _h : i ∈ done then walk g cover rest done labels
    else
      let front := place.toList.map Item.label
      match g.block i with
      | .straight body none =>
        let code ← cover.sequence i body Label.none
        let (items, labels) ← walk g cover rest (i :: done) labels
        return (front ++ code.map Item.instr ++ items, labels)
      | .straight body (some j) =>
        let (l, labels) ← label labels (some j)
        let code ← cover.sequence i body l
        let (items, labels) ← walk g cover (⟨l, some j⟩ :: rest) (i :: done) labels
        return (front ++ code.map Item.instr ++ items, labels)
      | .branch cond t f =>
        let (lt, labels) ← label labels t
        let (lf, labels) ← label labels f
        let code ← cover.branch i cond lt lf
        let (items, labels) ← walk g cover (⟨lt, t⟩ :: ⟨lf, f⟩ :: rest) (i :: done) labels
        return (front ++ code.map Item.instr ++ items, labels)
termination_by (Flow.unseen done, pending.length)
decreasing_by
  · exact Prod.Lex.right _ (by simp)
  all_goals exact Prod.Lex.left _ _ (Flow.unseen_cons_lt _h)

end Codegen.Layout

namespace Codegen

/-- The stream of a graph.  Unless `entry` is absent, it names the root block. -/
def Flow.layout (g : Flow) (cover : Coverer) (entry : Label) : Fresh Stream := do
  let labels := if entry = Label.none then [] else [(g.root, entry)]
  let (items, labels) ← Layout.walk g cover [⟨none, g.root⟩] [] labels
  match labels.lookup g.root with
  | some l => return .label l :: items
  | none => return items

end Codegen
