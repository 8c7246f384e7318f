/-
  The state of a machine that runs streams.

  Registers and memory hold words.  Memory that was never written reads as
  zero, and so does a physical register; a virtual register must be written
  before it is read.  A call leaves the registers it clobbers unreadable until
  they are written again.

  * `Machine.read` is what a register holds, or why it cannot be read;
  * `Machine.write` makes a register readable again;
  * `Machine.globalAddress` gives labels their addresses, in order of first use.
-/
import Codegen.Bindings
import Codegen.Instr.Stream

namespace Codegen

/-- A callee: from the values of the argument registers to the value returned. -/
abbrev Hook := List Word → Except Fault Word

/-- Why a run ends without a return. -/
inductive Trouble where
  /-- A register was read that a call had clobbered. -/
  | clobbered (r : Register)
  /-- A virtual register was read before it was written. -/
  | undefinedRegister (r : Register)
  /-- Nothing is known about a callee. -/
  | noCallee (l : Label)
  /-- The machine has no such operation. -/
  | badOpcode (op : String)
  /-- A jump to a label that the stream does not define. -/
  | undefinedLabel (l : Label)
  /-- A destination that is no place. -/
  | notWritable (o : Operand)
  /-- A label was defined already. -/
  | duplicateLabel (l : Label)
  /-- Control went past the last item. -/
  | fellOff
  /-- The limit was reached before a return. -/
  | noReturn (limit : Int)
  /-- An instruction failed. -/
  | failedAt (position : Nat) (i : Instr) (cause : Trouble)
  deriving DecidableEq, Repr

/-- The wording of a trouble. -/
def Trouble.message : Trouble → String
  | clobbered r => "read of " ++ r.text ++ " clobbered by a call"
  | undefinedRegister r => "read of undefined register " ++ r.text
  | noCallee l => "no callee registered for " ++ l
  | badOpcode op => "unsupported opcode " ++ op
  | undefinedLabel l => "jump to undefined label " ++ l
  | notWritable o => "cannot store to " ++ o.text
  | duplicateLabel l => "label " ++ l ++ " defined twice"
  | fellOff => "execution fell off the end of the stream"
  | noReturn limit => "no ret after " ++ toString limit ++ " steps"
  | failedAt position i cause => "at " ++ toString position ++ ": " ++ i.text ++ ": " ++ cause.message

/-- A machine with the stream it runs. -/
structure Machine where
  items : Stream
  /-- The callees. -/
  hooks : Bindings Label Hook
  /-- The positions of the labels defined so far. -/
  labels : Bindings Label Nat
  /-- The labels used as addresses so far, in order of first use. -/
  globals : List (Label × Word)
  registers : Bindings Register Word
  /-- The registers clobbered by calls. -/
  poisoned : List Register
  memory : Bindings Word Word
  /-- The two words compared last. -/
  compared : Word × Word
  /-- The position of the next item. -/
  position : Nat
  /-- The number of instructions executed. -/
  steps : Nat
  /-- Was a return reached? -/
  returned : Bool

namespace Machine

/-- The first value of the stack and the frame pointer. -/
def stackBase : Word := 1048576

/-- The address of the first label used as an address. -/
def globalBase : Word := 4294967296

/-- The distance between the addresses of labels. -/
def globalStride : Word := 4096

/-- The register that carries results. -/
def resultRegister : Register := .physical .rax

/-- A machine about to run a stream from its first item. -/
def start (items : Stream) (hooks : Bindings Label Hook) : Machine where
  items := items
  hooks := hooks
  labels := []
  globals := []
  registers := [(.physical .rsp, stackBase), (.physical .rbp, stackBase)]
  poisoned := []
  memory := []
  compared := (0, 0)
  position := 0
  steps := 0
  returned := false

/-! ## Registers -/

/-- What a register holds, or why it cannot be read. -/
def read (m : Machine) (r : Register) : Except Trouble Word :=
  if r ∈ m.poisoned then .error (.clobbered r)
  else
    match m.registers.get? r, r with
    | some w, _ => .ok w
    | none, .physical _ => .ok 0
    | none, .virtual _ => .error (.undefinedRegister r)

/-- The machine with a register written. -/
def write (m : Machine) (r : Register) (w : Word) : Machine :=
  { m with registers := m.registers.set r w, poisoned := m.poisoned.filter (· ≠ r) }

/-- The machine with registers made unreadable. -/
def poison (m : Machine) (rs : List Register) : Machine :=
  { m with poisoned := rs ++ m.poisoned.filter fun r => !rs.contains r }

/-- The word in the result register, readable or not. -/
def result (m : Machine) : Word := (m.registers.get? resultRegister).getD 0

/-! ## Memory -/

/-- The word at an address. -/
def word (m : Machine) (address : Word) : Word := (m.memory.get? address).getD 0

/-- The machine with a word stored. -/
def store (m : Machine) (address w : Word) : Machine :=
  { m with memory := m.memory.set address w }

/-- The address of a label, which it is given at its first use. -/
def globalAddress (m : Machine) (l : Label) : Word × Machine :=
  match m.globals.lookup l with
  | some address => (address, m)
  | none =>
    let address := globalBase + Int64.ofNat m.globals.length * globalStride
    (address, { m with globals := m.globals ++ [(l, address)] })

end Machine

end Codegen
