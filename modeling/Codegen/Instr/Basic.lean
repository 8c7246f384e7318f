/-
  Machine instructions over virtual or physical registers.

  An instruction describes itself: the registers it reads (`uses`) and writes
  (`defines`), whether control may go on with the next item (`fallsThrough`),
  the label it may jump to (`target?`), and whether it is a register-to-register
  move (`copy?`).  Opcodes and condition codes are their mnemonics.
-/
import Codegen.Instr.Operand

namespace Codegen

/-- A machine instruction. -/
inductive Instr where
  /-- Copy `src` into `dst`. -/
  | mov (dst src : Operand)
  /-- `dst := dst op src`; `cmp` only sets the flags. -/
  | binary (op : String) (dst src : Operand)
  /-- Set a register to zero. -/
  | clear (r : Register)
  /-- Change a register in place. -/
  | unary (op : String) (r : Register)
  /-- Write 1 to the low byte of `r` if the condition holds, else 0.  The upper
      bytes are kept, so `r` is read too. -/
  | setcc (cond : String) (r : Register)
  /-- Load the address of `src`. -/
  | lea (dst : Register) (src : Mem)
  /-- Jump. -/
  | jmp (target : Label)
  /-- Jump if the condition holds. -/
  | jcc (cond : String) (target : Label)
  /-- Call a function that reads `arguments` and may overwrite `clobbers`. -/
  | call (target : Label) (arguments clobbers : List Register)
  /-- Return; `results` carry the returned value. -/
  | ret (results : List Register)
  deriving DecidableEq, Repr

namespace Instr

/-- A register-to-register move. -/
def move (dst src : Register) : Instr := mov (.reg dst) (.reg src)

/-- The registers read, in operand order and with repetition. -/
def uses : Instr → List Register
  | mov dst src => src.registers ++ dst.addressUses
  | binary _ dst src => dst.registers ++ src.registers
  | clear _ => []
  | unary _ r => [r]
  | setcc _ r => [r]
  | lea _ src => src.registers
  | jmp _ => []
  | jcc _ _ => []
  | call _ arguments _ => arguments
  | ret results => results

/-- The registers written. -/
def defines : Instr → List Register
  | mov dst _ => dst.defined
  | binary op dst _ => if op = "cmp" then [] else dst.defined
  | clear r => [r]
  | unary _ r => [r]
  | setcc _ r => [r]
  | lea dst _ => [dst]
  | jmp _ => []
  | jcc _ _ => []
  | call _ _ clobbers => clobbers
  | ret _ => []

/-- May control go on with the next item? -/
def fallsThrough : Instr → Bool
  | jmp _ | ret _ => false
  | _ => true

/-- The label that control may be transferred to. -/
def target? : Instr → Option Label
  | jmp l => some l
  | jcc _ l => some l
  | _ => none

/-- Destination and source of a register-to-register move. -/
def copy? : Instr → Option (Register × Register)
  | mov (.reg dst) (.reg src) => some (dst, src)
  | _ => none

/-- The instruction with its registers renamed.  The lists of calls and
    returns name physical registers and stay as they are. -/
def mapRegisters (f : Register → Register) : Instr → Instr
  | mov dst src => mov (dst.mapRegisters f) (src.mapRegisters f)
  | binary op dst src => binary op (dst.mapRegisters f) (src.mapRegisters f)
  | clear r => clear (f r)
  | unary op r => unary op (f r)
  | setcc cond r => setcc cond (f r)
  | lea dst src => lea (f dst) (src.mapRegisters f)
  | jmp l => jmp l
  | jcc cond l => jcc cond l
  | call l arguments clobbers => call l arguments clobbers
  | ret results => ret results

/-- The instruction in assembler form. -/
def text : Instr → String
  | mov dst src => "mov " ++ dst.text ++ ", " ++ src.text
  | binary op dst src => op ++ " " ++ dst.text ++ ", " ++ src.text
  | clear r => "xor " ++ r.text ++ ", " ++ r.text
  | unary op r => op ++ " " ++ r.text
  | setcc cond r => "set" ++ cond ++ " " ++ r.text
  | lea dst src => "lea " ++ dst.text ++ ", " ++ src.text
  | jmp l => "jmp " ++ l
  | jcc cond l => "j" ++ cond ++ " " ++ l
  | call l _ _ => "call " ++ l
  | ret _ => "ret"

/-- All registers mentioned, uses first, with repetition. -/
def mentions (i : Instr) : List Register := i.uses ++ i.defines

/-- The distinct registers mentioned, in order of first mention, uses first. -/
def registers (i : Instr) : List Register := i.mentions.eraseDups

end Instr

end Codegen
