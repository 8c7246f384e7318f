/-
  Sample functions with known results.

  `expression` makes a body that keeps many values alive at once and folds them
  with operators, both drawn from a sequence of words.  It comes with the value
  that the body returns.
-/
import Codegen.Flow.Basic
import Codegen.Supply

namespace Codegen.Sample

/-- An endless sequence of words. -/
abbrev Sequence := Nat → Word

namespace Sequence

/-- The same word over and over. -/
def const (w : Word) : Sequence := fun _ => w

/-- The words after a given one, in order. -/
def increasing (start : Word) : Sequence := fun k => start + Int64.ofNat (k + 1)

/-- One step of the pseudo-random sequence. -/
def scramble (s : UInt32) : UInt32 := s * 1664525 + 1013904223

/-- The state after a number of steps. -/
def scrambled (seed : UInt32) : Nat → UInt32
  | 0 => seed
  | k + 1 => scramble (scrambled seed k)

/-- A pseudo-random sequence of words that are not negative. -/
def pseudoRandom (seed : UInt32) : Sequence := fun k =>
  Int64.ofNat ((scrambled seed (k + 1)) >>> 1).toNat

/-- The first words of a sequence. -/
def take (s : Sequence) (count : Nat) : List Word := (List.range count).map s

end Sequence

/-- The operators that values are folded with, and what they compute. -/
def folds : List (BinaryOp × (Word → Word → Word)) :=
  [(.add, (· + ·)), (.sub, (· - ·)), (.mul, (· * ·)),
   (.and, (· &&& ·)), (.or, (· ||| ·)), (.xor, (· ^^^ ·))]

/-- The operator that a word chooses. -/
def fold (w : Word) : Except Fault (BinaryOp × (Word → Word → Word)) :=
  let k := w % 6
  if k < 0 then .error (.outOfRange k.toInt folds.length)
  else
    match folds[k.toInt.toNat]? with
    | some f => .ok f
    | none => .error (.outOfRange k.toInt folds.length)

/-- A body of one block. -/
def body (ops : List Stmt) : Flow := ⟨1, #v[.straight ops none], some 0⟩

/-- The operations that fold values, drawn from the given position on, into the
    register `acc`, and the value that it holds in the end. -/
def foldValues (s : Sequence) (acc : Register) :
    List (Register × Word) → (position : Nat) → Word → Except Fault (List Stmt × Word)
  | [], _, value => .ok ([], value)
  | (r, w) :: rest, position, value => do
    let (op, eval) ← fold (s position)
    let (ops, value) ← foldValues s acc rest (position + 1) (eval value w)
    return (.write acc (.binary op (.read acc) (.read r)) :: ops, value)

/-- A body that defines `count` values drawn from the sequence, keeps them all
    alive, folds them with operators drawn from it and returns the result in
    `ret`; and the value that it returns. -/
def expression (s : Sequence) (count : Int) (ret : Register) : Fresh (Flow × Word) := do
  let values ← (List.range count.toNat).mapM fun k => do return (← Fresh.register, s k % 100)
  match values with
  | [] => throw .noValues
  | (r, w) :: rest =>
    let acc ← Fresh.register
    let (ops, value) ← Fresh.ofExcept (foldValues s acc rest values.length w)
    let define := values.map fun (r, w) => Stmt.write r (.const w)
    return (body (define ++ [.write acc (.read r)] ++ ops ++ [.write ret (.read acc), .ret true]),
      value)

end Codegen.Sample
