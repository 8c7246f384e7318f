/-
  Running streams.

  `Machine.execute` carries out one instruction and `Machine.run` as many as a
  limit allows, up to the first return.  A run that ends early says why; the
  state reached by then is kept.
-/
import Codegen.Machine.State

namespace Codegen

/-- Why an execution stops early: the stream is at fault, or what was asked of
    the machine. -/
inductive Stop where
  | trouble (t : Trouble)
  | fault (f : Fault)
  deriving DecidableEq, Repr

/-- A computation on a machine that may stop early. -/
abbrev Exec (α : Type) := EStateM Stop Machine α

namespace Exec

/-- Gives up because of the stream. -/
def fail {α : Type} (t : Trouble) : Exec α := throw (.trouble t)

/-- A result that may be a trouble. -/
def ofTrouble {α : Type} : Except Trouble α → Exec α
  | .ok a => pure a
  | .error t => fail t

/-- A result that may be a fault. -/
def ofFault {α : Type} : Except Fault α → Exec α
  | .ok a => pure a
  | .error f => throw (.fault f)

/-! ## Operands -/

/-- The contents of a register. -/
def read (r : Register) : Exec Word := do ofTrouble ((← get).read r)

/-- Writes a register. -/
def write (r : Register) (w : Word) : Exec Unit := modify (·.write r w)

/-- The address of a label. -/
def global (l : Label) : Exec Word := modifyGet (·.globalAddress l)

/-- The part of an address that comes from its label. -/
def anchor (l : Label) : Exec Word := if l = Label.none then pure 0 else global l

/-- The part of an address that comes from its register. -/
def base : Option Register → Exec Word
  | none => pure 0
  | some r => read r

/-- The address that a memory operand denotes. -/
def address (m : Mem) : Exec Word := do
  let start ← anchor m.label
  let offset ← base m.base
  return m.displacement + start + offset

/-- The word that an operand denotes. -/
def load : Operand → Exec Word
  | .imm w => return w
  | .reg r => read r
  | .mem m => do
    let a ← address m
    return (← get).word a

/-- Stores a word in the place that an operand denotes. -/
def store (w : Word) : Operand → Exec Unit
  | .imm v => fail (.notWritable (.imm v))
  | .reg r => write r w
  | .mem m => do
    let a ← address m
    modify (·.store a w)

/-! ## Instructions -/

/-- The arithmetic of an opcode. -/
def arithmetic? : String → Option (Word → Word → Word)
  | "add" => some (· + ·)
  | "sub" => some (· - ·)
  | "imul" => some (· * ·)
  | "and" => some (· &&& ·)
  | "or" => some (· ||| ·)
  | "xor" => some (· ^^^ ·)
  | _ => none

/-- The change that an opcode makes to a register. -/
def change? : String → Option (Word → Word)
  | "not" => some (~~~ ·)
  | "neg" => some (- ·)
  | _ => none

/-- Does a condition hold of two compared words? -/
def condition? : String → Option (Word → Word → Bool)
  | "e" => some fun l r => decide (l = r)
  | "ne" => some fun l r => decide (l ≠ r)
  | "l" => some fun l r => decide (l < r)
  | "g" => some fun l r => decide (r < l)
  | "le" => some fun l r => decide (l ≤ r)
  | "ge" => some fun l r => decide (r ≤ l)
  | _ => none

/-- Does a condition hold of the words compared last? -/
def holds (cond : String) : Exec Bool := do
  match condition? cond with
  | none => throw (.fault (.unknownCondition cond))
  | some test =>
    let (l, r) := (← get).compared
    return test l r

/-- Continues at a label. -/
def jump (l : Label) : Exec Unit := do
  match (← get).labels.get? l with
  | none => fail (.undefinedLabel l)
  | some position => modify ({ · with position })

/-- Combines two operands into the first; a comparison only remembers them. -/
def combine (op : String) (dst src : Operand) : Exec Unit := do
  let left ← load dst
  let right ← load src
  if op = "cmp" then modify ({ · with compared := (left, right) })
  else
    match arithmetic? op with
    | none => fail (.badOpcode op)
    | some f => store (f left right) dst

/-- Calls a function: its clobbers become unreadable, its value comes back in
    the result register. -/
def call (target : Label) (arguments clobbers : List Register) : Exec Unit := do
  match (← get).hooks.get? target with
  | none => fail (.noCallee target)
  | some hook =>
    let values ← arguments.mapM read
    modify (·.poison clobbers)
    let w ← ofFault (hook values)
    write Machine.resultRegister w

/-- Carries out one instruction. -/
def execute : Instr → Exec Unit
  | .mov dst src => do store (← load src) dst
  | .binary op dst src => combine op dst src
  | .clear r => write r 0
  | .unary op r => do
    let w ← read r
    match change? op with
    | none => fail (.badOpcode op)
    | some f => write r (f w)
  | .setcc cond r => do
    let w ← read r
    let b ← holds cond
    write r ((w &&& ~~~255) ||| Word.ofBool b)
  | .lea dst src => do write dst (← address src)
  | .jmp l => jump l
  | .jcc cond l => do if ← holds cond then jump l
  | .call target arguments clobbers => call target arguments clobbers
  | .ret _ => modify ({ · with returned := true })

/-- Carries out the instruction at a position, which a trouble then names. -/
def executeAt (position : Nat) (i : Instr) : Exec Unit := fun m =>
  match execute i m with
  | .error (.trouble t) m => .error (.trouble (.failedAt position i t)) m
  | outcome => outcome

/-! ## Runs -/

/-- The first instruction of a list of items that starts at a position, and its
    position. -/
def firstInstr (position : Nat) : Stream → Option (Instr × Nat)
  | [] => none
  | .instr i :: _ => some (i, position)
  | _ :: items => firstInstr (position + 1) items

/-- Runs until a return, for at most `remaining` instructions.  The `limit` is
    what a message says. -/
def runFor (limit : Int) (remaining : Nat) : Exec Unit := do
  let m ← get
  if m.returned then return
  match firstInstr m.position (m.items.drop m.position) with
  | none =>
    set { m with position := m.items.length }
    fail .fellOff
  | some (i, position) =>
    set { m with position := position + 1 }
    match remaining with
    | 0 => fail (.noReturn limit)
    | remaining + 1 =>
      modify fun m => { m with steps := m.steps + 1 }
      executeAt position i
      runFor limit remaining

/-- Notes the position of an item's label, which must be a new one. -/
def define : Item × Nat → Exec Unit
  | (.label l, position) => do
    let m ← get
    match m.labels.get? l with
    | some _ => fail (.duplicateLabel l)
    | none => set { m with labels := m.labels.set l position }
  | _ => return

/-- Defines the labels of the stream and runs until a return.  The number of
    instructions executed, those of earlier runs included, must not exceed the
    limit. -/
def run (limit : Int) : Exec Unit := do
  let m ← get
  m.items.zipIdx.forM define
  runFor limit (limit - m.steps).toNat

end Exec

namespace Machine

/-- The outcome of a run: why it stopped, if it did not return, and the machine
    afterwards. -/
def run (m : Machine) (limit : Int) : Option Stop × Machine :=
  match Exec.run limit m with
  | .ok _ m => (none, m)
  | .error stop m => (some stop, m)

end Machine

end Codegen
