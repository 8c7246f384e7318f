/-
  The meaning of bodies.

  A reference interpreter of control-flow graphs.  It runs blocks from the root
  and operations in order, evaluates trees from left to right, and takes a branch
  if its condition is not zero.  A register may be undefined: at the start every
  virtual register is, and after a call every caller-saved one but that with the
  result.  Reading one has no meaning, and neither has an access of a hidden
  word: the code may keep there what it likes.
-/
import Codegen.Flow.Basic
import Codegen.Machine.State
import Codegen.Rule.Amd64

namespace Codegen

/-- What a body is run in. -/
structure World where
  /-- The callees. -/
  hooks : Bindings Label Hook
  /-- The addresses of labels. -/
  globals : List (Label × Word)
  /-- The words that a body must not access. -/
  hidden : List Word

/-- The registers and the memory. -/
structure State where
  registers : Register → Option Word
  memory : Word → Word

namespace State

/-- The state with a register written. -/
def write (s : State) (r : Register) (w : Word) : State :=
  { s with registers := fun x => if x = r then some w else s.registers x }

/-- The state with a word stored. -/
def store (s : State) (a w : Word) : State :=
  { s with memory := fun x => if x = a then w else s.memory x }

/-- The state after a call that returned a word. -/
def afterCall (s : State) (w : Word) : State :=
  { s with registers := fun x =>
      if x = Amd64.convention.result then some w
      else if x ∈ Amd64.convention.callerSaved.map Register.physical then none
      else s.registers x }

end State

/-- The word that a binary operator makes of two words. -/
def BinaryOp.apply? : BinaryOp → Word → Word → Option Word
  | add, l, r => some (l + r)
  | sub, l, r => some (l - r)
  | mul, l, r => some (l * r)
  | and, l, r => some (l &&& r)
  | or, l, r => some (l ||| r)
  | xor, l, r => some (l ^^^ r)
  | eq, l, r => some (Word.ofBool (decide (l = r)))
  | ne, l, r => some (Word.ofBool (decide (l ≠ r)))
  | lt, l, r => some (Word.ofBool (decide (l < r)))
  | gt, l, r => some (Word.ofBool (decide (r < l)))
  | le, l, r => some (Word.ofBool (decide (l ≤ r)))
  | ge, l, r => some (Word.ofBool (decide (r ≤ l)))
  | unknown _, _, _ => none

/-- The word that a unary operator makes of a word. -/
def UnaryOp.apply? : UnaryOp → Word → Option Word
  | not, w => some (~~~w)
  | neg, w => some (-w)
  | unknown _, _ => none

namespace World

/-- The address of a label.  The absent label adds nothing to an address. -/
def address? (w : World) (l : Label) : Option Word :=
  if l = Label.none then some 0 else w.globals.lookup l

/-- The result of a call that reads the first `n` argument registers. -/
def call? (w : World) (s : State) (target : Label) (n : Int) : Option Word := do
  let hook ← w.hooks.get? target
  let values ← ((Amd64.convention.arguments.take n.toNat).map Register.physical).mapM s.registers
  (hook values).toOption

/-- The value of a tree, and the state afterwards. -/
def eval (w : World) : Value → State → Option (Word × State)
  | .const c, s => some (c, s)
  | .read r, s => (s.registers r).map (·, s)
  | .load a, s => do
    let (x, s) ← w.eval a s
    if x ∈ w.hidden then none else return (s.memory x, s)
  | .binary op l r, s => do
    let (x, s) ← w.eval l s
    let (y, s) ← w.eval r s
    return (← op.apply? x y, s)
  | .unary op v, s => do
    let (x, s) ← w.eval v s
    return (← op.apply? x, s)
  | .address l, s => (w.address? l).map (·, s)
  | .call target n, s => (w.call? s target n).map fun v => (v, s.afterCall v)

/-- What operations lead to. -/
inductive Outcome where
  /-- Control goes on. -/
  | goes (s : State)
  /-- The function returns, with or without a value. -/
  | returns (hasValue : Bool) (s : State)

/-- The outcome of what follows, unless the function has returned. -/
def Outcome.andThen (o : Outcome) (k : State → Option Outcome) : Option Outcome :=
  match o with
  | goes s => k s
  | returns hasValue s => some (returns hasValue s)

/-- What an operation leads to. -/
def exec (w : World) : Stmt → State → Option Outcome
  | .value v, s => (w.eval v s).map fun (_, s) => .goes s
  | .write r v, s => (w.eval v s).map fun (x, s) => .goes (s.write r x)
  | .store a v, s => do
    let (x, s) ← w.eval a s
    let (y, s) ← w.eval v s
    if x ∈ w.hidden then none else return .goes (s.store x y)
  | .ret hasValue, s => some (.returns hasValue s)

/-- Runs operations in order, up to the first return. -/
def execAll (w : World) : List Stmt → State → Option Outcome
  | [], s => some (.goes s)
  | op :: ops, s => (w.exec op s).bind (·.andThen (w.execAll ops))

/-- Runs a graph from a block, for at most `fuel` blocks: whether it returned a
    value, and the state then. -/
def run (w : World) (g : Flow) : (fuel : Nat) → Option (Fin g.size) → State → Option (Bool × State)
  | 0, _, _ => none
  | _ + 1, none, _ => none
  | fuel + 1, some i, s =>
    match g.block i with
    | .straight body next => do
      match ← w.execAll body s with
      | .goes s => w.run g fuel next s
      | .returns hasValue s => return (hasValue, s)
    | .branch cond t f => do
      let (x, s) ← w.eval cond s
      w.run g fuel (if x ≠ 0 then t else f) s

end World

end Codegen
