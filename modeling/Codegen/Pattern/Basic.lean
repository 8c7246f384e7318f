/-
  Patterns: the shapes of trees that one rule can implement.

  A pattern consumes a node, with tests on the values in it, or leaves a value
  open with a wildcard.

  * `Pattern.apply` matches a pattern against an operation;
  * `Match.value` gives back what a part captured, at the kind asked for.
-/
import Codegen.Pattern.Capture

namespace Codegen

/-- The shape of a tree.  The number of a part names the place of its capture. -/
inductive Pattern where
  /-- Any value; it is left open. -/
  | wild
  /-- A constant; captures the word. -/
  | const (part : Nat) (test : Test Word)
  /-- A register read; captures the register. -/
  | read (part : Nat) (test : Test Register)
  /-- A register write; captures the register before the value is matched. -/
  | write (part : Nat) (test : Test Register) (value : Pattern)
  /-- A load. -/
  | load (address : Pattern)
  /-- A store. -/
  | store (address value : Pattern)
  /-- A binary operation; captures the operator before the operands are matched. -/
  | binary (part : Nat) (test : Test BinaryOp) (left right : Pattern)
  /-- A unary operation; captures the operator before the operand is matched. -/
  | unary (part : Nat) (test : Test UnaryOp) (operand : Pattern)
  /-- The address of a label; captures the label. -/
  | address
  /-- A call; captures its target and argument count. -/
  | call
  /-- A return; captures whether it has a value. -/
  | ret

namespace Pattern

/-- The place where the root of a pattern keeps its capture. -/
def part? : Pattern → Option Part
  | const k _ | read k _ | write k _ _ | binary k _ _ _ | unary k _ _ => some (.own k)
  | address => some .label
  | call => some .call
  | ret => some .ret
  | wild | load _ | store _ _ => none

/-- The pattern in one line. -/
def text : Pattern → String
  | wild => "*"
  | const .. => "$const"
  | read .. => "$reg"
  | write _ _ v => "$reg := " ++ v.text
  | load a => "[" ++ a.text ++ "]"
  | store a v => "[" ++ a.text ++ "] := " ++ v.text
  | binary _ _ l r => "(" ++ l.text ++ " op " ++ r.text ++ ")"
  | unary _ _ v => "(op " ++ v.text ++ ")"
  | address => "$label"
  | call => "call"
  | ret => "ret"

/-- Matches the pattern against an operation, adding to the match `m`. -/
def matchFrom : Pattern → Stmt → Match → Option Match
  | wild, .value v, m => some (m.leave v)
  | const k test, .value (.const w), m =>
    if test m w then some (m.capture (.own k) (.word w)) else none
  | read k test, .value (.read r), m =>
    if test m r then some (m.capture (.own k) (.register r)) else none
  | write k test p, .write r v, m =>
    if test m r then
      p.matchFrom (.value v) { m.capture (.own k) (.register r) with written := some r }
    else none
  | load p, .value (.load a), m => p.matchFrom (.value a) m
  | store p q, .store a v, m => (p.matchFrom (.value a) m).bind (q.matchFrom (.value v))
  | binary k test p q, .value (.binary op l r), m =>
    if test m op then
      (p.matchFrom (.value l) (m.capture (.own k) (.binaryOp op))).bind (q.matchFrom (.value r))
    else none
  | unary k test p, .value (.unary op v), m =>
    if test m op then p.matchFrom (.value v) (m.capture (.own k) (.unaryOp op)) else none
  | address, .value (.address l), m => some (m.capture .label (.label l))
  | call, .value (.call target n), m => some (m.capture .call (.call target n))
  | ret, .ret hasValue, m => some (m.capture .ret (.ret hasValue))
  | _, _, _ => none

/-- Matches the pattern against an operation. -/
def apply (p : Pattern) (s : Stmt) : Option Match := p.matchFrom s {}

end Pattern

namespace Match

variable {α : Type}

/-- What a part of the pattern captured, read by `pick`, which refuses captures
    of another kind than the one asked for. -/
def find (m : Match) (p : Pattern) (kind : CaptureKind) (pick : Capture → Option α) :
    Except Fault α :=
  match p.part?.bind m.get? with
  | none => .error (.nothingCaptured p.text)
  | some c =>
    match pick c with
    | some a => .ok a
    | none => .error (.otherCaptured p.text c.kindName kind.name)

/-- What a part captured, at the kind asked for. -/
def value (m : Match) (p : Pattern) (kind : CaptureKind) : Except Fault Capture :=
  m.find p kind fun c => if c.kind = kind then some c else none

/-- What a part captured, at the kind asked for; a part that is missing captures
    nothing. -/
def valueOf (m : Match) (p : Option Pattern) (kind : CaptureKind) : Except Fault Capture :=
  match p with
  | some p => m.value p kind
  | none => .error (.nothingCaptured "<nil>")

/-- The word that a part captured. -/
def word (m : Match) (p : Pattern) : Except Fault Word :=
  m.find p .word fun | .word w => some w | _ => none

/-- The register that a part captured. -/
def register (m : Match) (p : Pattern) : Except Fault Register :=
  m.find p .register fun | .register r => some r | _ => none

/-- The binary operator that a part captured. -/
def binaryOp (m : Match) (p : Pattern) : Except Fault BinaryOp :=
  m.find p .binaryOp fun | .binaryOp op => some op | _ => none

/-- The unary operator that a part captured. -/
def unaryOp (m : Match) (p : Pattern) : Except Fault UnaryOp :=
  m.find p .unaryOp fun | .unaryOp op => some op | _ => none

/-- The label that a part captured. -/
def label (m : Match) (p : Pattern) : Except Fault Label :=
  m.find p .label fun | .label l => some l | _ => none

/-- The target and argument count of the call that a part captured. -/
def call (m : Match) (p : Pattern) : Except Fault (Label × Int) :=
  m.find p .call fun | .call target n => some (target, n) | _ => none

/-- Whether the return that a part captured has a value. -/
def ret (m : Match) (p : Pattern) : Except Fault Bool :=
  m.find p .ret fun | .ret hasValue => some hasValue | _ => none

end Match

end Codegen
