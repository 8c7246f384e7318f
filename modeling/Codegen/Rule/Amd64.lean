/-
  The catalogue of the 64-bit machine.

  Constants, register reads, loads, addresses, calls and returns; writes and
  stores with the addressing modes of the machine; two-operand arithmetic,
  which needs a copy of its left operand; comparisons as values and as branch
  conditions.  Immediates and displacements must fit 32 bits, but for a move
  into a register.
-/
import Codegen.Rule.Basic

namespace Codegen.Amd64

/-- The registers with a fixed role in calls. -/
def convention : Convention where
  arguments := [.rdi, .rsi, .rdx, .rcx, .r8, .r9]
  callerSaved := [.rax, .rcx, .rdx, .rsi, .rdi, .r8, .r9, .r10, .r11]
  calleeSaved := [.rbx, .r12, .r13, .r14, .r15]
  result := .rax
  stackPointer := .rsp
  framePointer := .rbp

/-- The instruction of an arithmetic operator. -/
def arithmetic : BinaryOp → Except Fault String
  | .add => .ok "add"
  | .sub => .ok "sub"
  | .mul => .ok "imul"
  | .and => .ok "and"
  | .or => .ok "or"
  | .xor => .ok "xor"
  | op => .error (.noArithmetic op)

/-- The condition code of a comparison. -/
def condition : BinaryOp → Except Fault String
  | .eq => .ok "e"
  | .ne => .ok "ne"
  | .lt => .ok "l"
  | .gt => .ok "g"
  | .le => .ok "le"
  | .ge => .ok "ge"
  | op => .error (.noCondition op)

/-- The displacement of an address: the captured constant, negated after a
    captured minus. -/
def displacement (m : Match) (op imm : Pattern) : Except Fault Word := do
  let d ← m.word imm
  let o ← m.binaryOp op
  return if o = .sub then -d else d

/-! ## The parts of the patterns

The number of a part is its role in the rule. -/

/-- The register being written. -/
def dst (value : Pattern) : Pattern := .write 0 Test.any value

/-- A constant of 32 bits. -/
def imm32 : Pattern := .const 1 Test.fits32

/-- Any constant. -/
def imm : Pattern := .const 1 Test.any

/-- A constant of 32 bits to be stored. -/
def stored : Pattern := .const 2 Test.fits32

/-- The base register of an address. -/
def base : Pattern := .read 3 Test.any

/-- Any other register. -/
def source : Pattern := .read 4 Test.any

/-- The address of a label plus a constant. -/
def labelOffset : Pattern := .binary 5 (Test.is .add) .address imm32

/-- A register plus or minus a constant. -/
def registerOffset : Pattern := .binary 5 (Test.anyOf [.add, .sub]) base imm32

/-- An operation that may update a register by a constant in place. -/
def update (left : Pattern) : Pattern :=
  .binary 5 (Test.anyOf [.add, .sub, .and, .or, .xor]) left imm32

/-- Arithmetic on two values. -/
def arith : Pattern := .binary 5 (Test.anyOf [.add, .sub, .mul, .and, .or, .xor]) .wild .wild

/-- A comparison of two values. -/
def comparison : Pattern := .binary 5 (Test.anyOf BinaryOp.comparisons) .wild .wild

/-- Any unary operation. -/
def anyUnary : Pattern := .unary 5 Test.any .wild

/-! ## Values -/

/-- A tree rule whose code gives a new register. -/
def valueRule (name : String) (p : Pattern)
    (code : Emission → Register → Except Fault (List Instr)) : Rule where
  name := name
  pattern := p
  generate e := do
    let out ← Fresh.register
    let is ← Fresh.ofExcept (code e out)
    return (is, some out)

/-- A tree rule whose code gives no value. -/
def stmtRule (name : String) (p : Pattern) (code : Emission → Except Fault (List Instr)) : Rule where
  name := name
  pattern := p
  generate e := do
    let is ← Fresh.ofExcept (code e)
    return (is, none)

/-- A constant goes into a new register. -/
def const : Rule :=
  valueRule "$const" imm fun e out => do
    return [.mov (.reg out) (.imm (← e.found.word imm))]

/-- A register is its own value. -/
def read : Rule where
  name := "$reg"
  pattern := source
  generate e := do
    let r ← Fresh.ofExcept (e.found.register source)
    return ([], some r)

/-- A load at a label plus a constant. -/
def loadLabel : Rule :=
  valueRule "[$label + d]" (.load labelOffset) fun e out => do
    return [.mov (.reg out) (.mem ⟨← e.found.label .address, none, ← e.found.word imm32⟩)]

/-- A load at a register plus or minus a constant. -/
def loadOffset : Rule :=
  valueRule "[$reg ± d]" (.load registerOffset) fun e out => do
    let b ← e.found.register base
    let d ← displacement e.found registerOffset imm32
    return [.mov (.reg out) (.mem ⟨Label.none, some b, d⟩)]

/-- A load at a computed address. -/
def loadAny : Rule :=
  valueRule "[*]" (.load .wild) fun e out => do
    return [.mov (.reg out) (.mem (.ofRegister (← e.input 0)))]

/-- The address of a label. -/
def address : Rule :=
  valueRule "$label" .address fun e out => do
    return [.lea out ⟨← e.found.label .address, none, 0⟩]

/-- A call, whose result is copied into a new register.  The number of
    arguments is checked before the register is drawn. -/
def call : Rule where
  name := "call $label"
  pattern := .call
  generate e := do
    let (target, n) ← Fresh.ofExcept (e.found.call .call)
    if n > convention.arguments.length then
      throw (.tooManyArguments target n convention.arguments.length)
    if n < 0 then throw .negativeArguments
    let arguments := (convention.arguments.take n.toNat).map Register.physical
    let out ← Fresh.register
    return ([.call target arguments (convention.callerSaved.map Register.physical),
      .move out convention.result], some out)

/-- A unary operation works on a copy.  Every operator but the negation is the
    complement. -/
def unary : Rule where
  name := "<op> *"
  pattern := anyUnary
  generate e := do
    let op ← Fresh.ofExcept (e.found.unaryOp anyUnary)
    let out ← Fresh.register
    let v ← Fresh.ofExcept (e.input 0)
    return ([.move out v, .unary (if op = .neg then "neg" else "not") out], some out)

/-- Arithmetic with a constant works on a copy of the left operand. -/
def arithConst : Rule :=
  valueRule "<op> *, $const" (update .wild) fun e out => do
    let op ← arithmetic (← e.found.binaryOp (update .wild))
    return [.move out (← e.input 0), .binary op (.reg out) (.imm (← e.found.word imm32))]

/-- Arithmetic works on a copy of the left operand. -/
def arithAny : Rule :=
  valueRule "<op> *, *" arith fun e out => do
    let op ← arithmetic (← e.found.binaryOp arith)
    return [.move out (← e.input 0), .binary op (.reg out) (.reg (← e.input 1))]

/-- A comparison sets the low byte of a cleared register. -/
def compare : Rule :=
  valueRule "set<cc> *, *" comparison fun e out => do
    let cc ← condition (← e.found.binaryOp comparison)
    return [.clear out, .binary "cmp" (.reg (← e.input 0)) (.reg (← e.input 1)), .setcc cc out]

/-! ## Statements -/

/-- A return; with a value it reads the return register. -/
def ret : Rule :=
  stmtRule "ret" .ret fun e => do
    return [.ret (if ← e.found.ret .ret then [(convention.result : Register)] else [])]

/-- A register is set to a constant. -/
def writeConst : Rule :=
  stmtRule "mov $reg, $const" (dst imm) fun e => do
    return [.mov (.reg (← e.found.register (dst imm))) (.imm (← e.found.word imm))]

/-- A register is updated by a constant in place. -/
def writeUpdate : Rule :=
  let op := update (.read 4 Test.written)
  stmtRule "<op> $reg, $const" (dst op) fun e => do
    return [.binary (← arithmetic (← e.found.binaryOp op)) (.reg (← e.found.register (dst op)))
      (.imm (← e.found.word imm32))]

/-- A register is loaded from a label plus a constant. -/
def writeLoadLabel : Rule :=
  let p := dst (.load labelOffset)
  stmtRule "mov $reg, [$label + d]" p fun e => do
    return [.mov (.reg (← e.found.register p))
      (.mem ⟨← e.found.label .address, none, ← e.found.word imm32⟩)]

/-- A register is loaded from a register plus or minus a constant. -/
def writeLoadOffset : Rule :=
  let p := dst (.load registerOffset)
  stmtRule "mov $reg, [$reg ± d]" p fun e => do
    let b ← e.found.register base
    let d ← displacement e.found registerOffset imm32
    return [.mov (.reg (← e.found.register p)) (.mem ⟨Label.none, some b, d⟩)]

/-- A register is loaded from a computed address. -/
def writeLoad : Rule :=
  let p := dst (.load .wild)
  stmtRule "mov $reg, [*]" p fun e => do
    return [.mov (.reg (← e.found.register p)) (.mem (.ofRegister (← e.input 0)))]

/-- A register is set to a computed value. -/
def writeAny : Rule :=
  stmtRule "mov $reg, *" (dst .wild) fun e => do
    return [.move (← e.found.register (dst .wild)) (← e.input 0)]

/-- A computed value is stored at a label plus a constant. -/
def storeLabel : Rule :=
  stmtRule "mov [$label + d], *" (.store labelOffset .wild) fun e => do
    return [.mov (.mem ⟨← e.found.label .address, none, ← e.found.word imm32⟩)
      (.reg (← e.input 0))]

/-- A constant is stored at a register plus or minus a constant. -/
def storeOffsetConst : Rule :=
  stmtRule "mov [$reg ± d], $const" (.store registerOffset stored) fun e => do
    let b ← e.found.register base
    let d ← displacement e.found registerOffset imm32
    return [.mov (.mem ⟨Label.none, some b, d⟩) (.imm (← e.found.word stored))]

/-- A register is stored at a register plus or minus a constant. -/
def storeOffsetReg : Rule :=
  stmtRule "mov [$reg ± d], $reg" (.store registerOffset source) fun e => do
    let b ← e.found.register base
    let d ← displacement e.found registerOffset imm32
    return [.mov (.mem ⟨Label.none, some b, d⟩) (.reg (← e.found.register source))]

/-- A constant is stored at a computed address. -/
def storeConst : Rule :=
  stmtRule "mov [*], $const" (.store .wild stored) fun e => do
    return [.mov (.mem (.ofRegister (← e.input 0))) (.imm (← e.found.word stored))]

/-- A computed value is stored at a computed address. -/
def storeAny : Rule :=
  stmtRule "mov [*], *" (.store .wild .wild) fun e => do
    return [.mov (.mem (.ofRegister (← e.input 0))) (.reg (← e.input 1))]

/-! ## Transfers -/

/-- A jump to the continuation, if there is one. -/
def jump : JumpRule where
  name := "jmp $label"
  generate next := return if next = Label.none then [] else [.jmp next]

/-- A branch on a comparison. -/
def branchCompare : Rule :=
  stmtRule "j<cc> *, *" comparison fun e => do
    let cc ← condition (← e.found.binaryOp comparison)
    return [.binary "cmp" (.reg (← e.input 0)) (.reg (← e.input 1)), .jcc cc e.onTrue,
      .jmp e.onFalse]

/-- A branch on a value: it is compared with zero. -/
def branchAny : Rule :=
  stmtRule "jnz *" .wild fun e => do
    return [.binary "cmp" (.reg (← e.input 0)) (.imm 0), .jcc "ne" e.onTrue, .jmp e.onFalse]

/-- The catalogue of the machine. -/
def catalogue : Catalogue where
  name := "amd64"
  convention := some convention
  trees := [const, read, loadLabel, loadOffset, loadAny, address, call, ret,
    writeConst, writeUpdate, writeLoadLabel, writeLoadOffset, writeLoad, writeAny,
    storeLabel, storeOffsetConst, storeOffsetReg, storeConst, storeAny,
    arithConst, arithAny, unary, compare]
  jumps := [jump]
  branches := [branchCompare, branchAny]

end Codegen.Amd64
