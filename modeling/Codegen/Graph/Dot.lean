/-
  Graphs as text for drawing tools.

  Nodes come in node order and edges once each, from the node added first.
  Names that are not plain identifiers, numbers, quoted texts or marked-up texts
  are quoted, and so are the words of the drawing language.
-/
import Codegen.Graph.Basic
import Codegen.Text.Quoted

namespace Codegen.Dot

/-- May the character stand in an identifier?  Of the characters beyond ASCII,
    those with codes of one byte may. -/
def isIdentifierChar (c : Char) : Bool :=
  c.isAlphanum || c == '_' || (decide (0x80 ≤ c.toNat) && decide (c.toNat ≤ 0xff))

/-- An identifier: letters, digits and underscores, not a digit first. -/
def isIdentifier (s : String) : Bool :=
  match s.toList with
  | [] => false
  | c :: cs => !c.isDigit && (c :: cs).all isIdentifierChar

/-- A number: an optional sign, then digits with an optional fraction, or a
    fraction alone. -/
def isNumber (s : String) : Bool :=
  let unsigned := match s.toList with
    | '-' :: cs => cs
    | cs => cs
  let whole := unsigned.takeWhile Char.isDigit
  match unsigned.dropWhile Char.isDigit with
  | [] => !whole.isEmpty
  | '.' :: fraction => fraction.all Char.isDigit && !(whole.isEmpty && fraction.isEmpty)
  | _ => false

/-- A marked-up text between angle brackets. -/
def isMarkup (s : String) : Bool :=
  match s.toList with
  | '<' :: cs => cs.getLast? == some '>'
  | _ => false

/-- The words of the drawing language. -/
def keywords : List String := ["node", "edge", "graph", "digraph", "subgraph", "strict"]

/-- A name, quoted if it has to be. -/
def name (s : String) : String :=
  if keywords.contains s.toLower then Text.quote s
  else if isIdentifier s || isNumber s || Text.isQuoted s || isMarkup s then s
  else Text.quote s

end Codegen.Dot

namespace Codegen.Graph

/-- The graph as text; an empty name is left out. -/
def dot (g : Graph) (title : String) : String :=
  let node (r : Register) := "  " ++ Dot.name r.text ++ ";\n"
  let edge (e : Register × Register) :=
    "  " ++ Dot.name e.1.text ++ " -- " ++ Dot.name e.2.text ++ ";\n"
  let nodes := if g.nodes.isEmpty then ""
    else "  // Node definitions.\n" ++ String.join (g.nodes.map node)
  let edges := if g.edgeList.isEmpty then ""
    else "\n  // Edge definitions.\n" ++ String.join (g.edgeList.map edge)
  "strict graph " ++ (if title = "" then "" else Dot.name title ++ " ") ++ "\x7b\n" ++ nodes ++
    edges ++ "\x7d"

end Codegen.Graph
