/-
  Expression trees.

  A `Value` computes a word.  A `Stmt` is an operation of a block: a write of
  a register, a store, a return, or a value that is computed for its effect.
-/
import Codegen.Word
import Codegen.Register
import Codegen.Label
import Codegen.Operator

namespace Codegen

/-- A tree that computes a word. -/
inductive Value where
  /-- A constant. -/
  | const (w : Word)
  /-- The contents of a register. -/
  | read (r : Register)
  /-- The word at an address. -/
  | load (address : Value)
  /-- Two values combined. -/
  | binary (op : BinaryOp) (left right : Value)
  /-- One value changed. -/
  | unary (op : UnaryOp) (operand : Value)
  /-- The address of a label. -/
  | address (l : Label)
  /-- A call.  The arguments are in the argument registers already; the callee
      reads the first `arguments` of them.  The value is the return register. -/
  | call (target : Label) (arguments : Int)
  deriving Repr

/-- Are two trees equal?  Trees at one place in memory are, and they are not
    looked into, so that a tree with shared subtrees is compared in little time. -/
def Value.decEq (a b : Value) : Decidable (a = b) :=
  withPtrEqDecEq a b fun _ =>
    match a, b with
    | const v, b =>
      match b with
      | const w => decidable_of_iff (v = w) (by simp)
      | read _ | load _ | binary .. | unary .. | address _ | call .. => isFalse nofun
    | read r, b =>
      match b with
      | read s => decidable_of_iff (r = s) (by simp)
      | const _ | load _ | binary .. | unary .. | address _ | call .. => isFalse nofun
    | load x, b =>
      match b with
      | load y => @decidable_of_iff _ (x = y) (by simp) (decEq x y)
      | const _ | read _ | binary .. | unary .. | address _ | call .. => isFalse nofun
    | binary op l r, b =>
      match b with
      | binary op' l' r' =>
        if hop : op = op' then
          match decEq l l' with
          | isTrue hl => @decidable_of_iff _ (r = r') (by simp [hop, hl]) (decEq r r')
          | isFalse hl => isFalse (by simp [hl])
        else isFalse (by simp [hop])
      | const _ | read _ | load _ | unary .. | address _ | call .. => isFalse nofun
    | unary op x, b =>
      match b with
      | unary op' y =>
        if hop : op = op' then @decidable_of_iff _ (x = y) (by simp [hop]) (decEq x y)
        else isFalse (by simp [hop])
      | const _ | read _ | load _ | binary .. | address _ | call .. => isFalse nofun
    | address l, b =>
      match b with
      | address l' => decidable_of_iff (l = l') (by simp)
      | const _ | read _ | load _ | binary .. | unary .. | call .. => isFalse nofun
    | call f n, b =>
      match b with
      | call f' n' => decidable_of_iff (f = f' ∧ n = n') (by simp)
      | const _ | read _ | load _ | binary .. | unary .. | address _ => isFalse nofun

instance : DecidableEq Value := Value.decEq

/-- An operation of a block. -/
inductive Stmt where
  /-- Compute a value for its effect. -/
  | value (v : Value)
  /-- Write a register. -/
  | write (r : Register) (v : Value)
  /-- Store a word at an address. -/
  | store (address value : Value)
  /-- Leave the function; `hasValue` says that the return register carries a
      result. -/
  | ret (hasValue : Bool)
  deriving DecidableEq, Repr

namespace Value

/-- The tree in one line, fully parenthesised. -/
def text : Value → String
  | const w => Word.text w
  | read r => r.text
  | load a => "[" ++ a.text ++ "]"
  | binary op l r => "(" ++ l.text ++ " " ++ op.text ++ " " ++ r.text ++ ")"
  | unary op v => "(" ++ op.text ++ v.text ++ ")"
  | address l => "&" ++ l
  | call target n => "call " ++ target ++ "/" ++ toString n

/-- The kind of the root, as messages name it. -/
def kind : Value → String
  | const _ => "*ir.Constant"
  | read _ => "*ir.RegisterRead"
  | load _ => "*ir.MemoryRead"
  | binary .. => "*ir.BinaryOp"
  | unary .. => "*ir.UnaryOp"
  | address _ => "*ir.GlobalAddress"
  | call .. => "*ir.Call"

end Value

namespace Stmt

/-- The operation in one line. -/
def text : Stmt → String
  | value v => v.text
  | write r v => r.text ++ " := " ++ v.text
  | store a v => "[" ++ a.text ++ "] := " ++ v.text
  | ret true => "return value"
  | ret false => "return"

/-- The kind of the root, as messages name it. -/
def kind : Stmt → String
  | value v => v.kind
  | write .. => "*ir.RegisterWrite"
  | store .. => "*ir.MemoryWrite"
  | ret _ => "*ir.Return"

/-- Does the operation compute a value? -/
def isValue : Stmt → Bool
  | value _ => true
  | _ => false

/-- A list of operations, one per line. -/
def textOfList (ops : List Stmt) : String := "\n".intercalate (ops.map text)

end Stmt

end Codegen
