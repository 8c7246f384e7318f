/-
  What a match remembers.

  While a pattern is matched against a tree, its parts capture the words,
  registers, operators and labels they meet.  `Match` collects the captures,
  the trees left open by wildcards, and the register being written.  A `Test`
  restricts what a part accepts; it sees the captures made so far.
-/
import Codegen.Fault

namespace Codegen

/-- The place where a part of a pattern keeps its capture.  Parts that carry a
    test have a place of their own, by number; all label parts of a pattern
    share one place, and so do all call parts and all return parts. -/
inductive Part where
  | own (n : Nat)
  | label
  | call
  | ret
  deriving DecidableEq, Repr

/-- A captured value. -/
inductive Capture where
  | word (w : Word)
  | register (r : Register)
  | binaryOp (op : BinaryOp)
  | unaryOp (op : UnaryOp)
  | label (l : Label)
  | call (target : Label) (arguments : Int)
  | ret (hasValue : Bool)
  deriving DecidableEq, Repr

/-- The kinds of captured values. -/
inductive CaptureKind where
  | word | register | binaryOp | unaryOp | label | call | ret
  deriving DecidableEq, Repr

namespace Capture

/-- The kind of a captured value. -/
def kind : Capture → CaptureKind
  | word _ => .word
  | register _ => .register
  | binaryOp _ => .binaryOp
  | unaryOp _ => .unaryOp
  | label _ => .label
  | call .. => .call
  | ret _ => .ret

/-- The name of the value's kind, as messages give it. -/
def kindName : Capture → String
  | word _ => "int64"
  | register r => Fault.registerKind r
  | binaryOp _ => "ir.BinaryOperator"
  | unaryOp _ => "ir.UnaryOperator"
  | label _ => "ir.Label"
  | call .. => "*ir.Call"
  | ret _ => "*ir.Return"

/-- The value as a tree would show it. -/
def text : Capture → String
  | word w => Word.text w
  | register r => r.text
  | binaryOp op => op.text
  | unaryOp op => op.text
  | label l => l
  | call target n => (Value.call target n).text
  | ret hasValue => (Stmt.ret hasValue).text

end Capture

/-- The name of a kind that was asked for.  Registers come in two kinds and
    have no common name. -/
def CaptureKind.name : CaptureKind → String
  | word => "int64"
  | register => "<nil>"
  | binaryOp => "ir.BinaryOperator"
  | unaryOp => "ir.UnaryOperator"
  | label => "ir.Label"
  | call => "*ir.Call"
  | ret => "*ir.Return"

/-- The outcome of matching a pattern against a tree. -/
structure Match where
  /-- The trees that wildcards left open, in visiting order. -/
  leaves : List Value := []
  /-- The captures, the latest first. -/
  captures : List (Part × Capture) := []
  /-- The register written by the enclosing write. -/
  written : Option Register := none
  deriving DecidableEq, Repr

namespace Match

/-- The value a part captured. -/
def get? (m : Match) (p : Part) : Option Capture := m.captures.lookup p

/-- The match with one more capture. -/
def capture (m : Match) (p : Part) (c : Capture) : Match :=
  { m with captures := (p, c) :: m.captures }

/-- The match with one more open tree. -/
def leave (m : Match) (v : Value) : Match := { m with leaves := m.leaves ++ [v] }

end Match

/-- A test of a value met by a part, given the captures so far. -/
abbrev Test (α : Type) := Match → α → Bool

namespace Test

variable {α : Type} [DecidableEq α]

/-- Accepts every value. -/
def any {α : Type} : Test α := fun _ _ => true

/-- Accepts one value. -/
def is (want : α) : Test α := fun _ v => decide (v = want)

/-- Accepts the listed values. -/
def anyOf (want : List α) : Test α := fun _ v => want.contains v

/-- Accepts words that sign-extend from 32 bits. -/
def fits32 : Test Word := fun _ w => w.fits32

/-- Accepts the register that another part captured earlier. -/
def sameAs (p : Part) : Test Register := fun m r => m.get? p == some (.register r)

/-- Accepts the register written by the enclosing write. -/
def written : Test Register := fun m r => m.written == some r

end Test

end Codegen
