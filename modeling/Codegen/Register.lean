/-
  Registers.

  A register is one of the sixteen physical registers of the machine or a
  virtual register from an unbounded supply.  Every physical register but the
  stack pointer and the frame pointer may be handed out by the allocator.

  * `Register.text` is the name a stream shows: `rax`, `%v3`;
  * `Physical.ofName?` reads a physical name in any case, with white space
    around it, with or without the leading `r` of the eight old registers.
-/
import Codegen.Text.Blank

namespace Codegen

/-- The 64-bit general purpose registers. -/
inductive Physical where
  | rax | rbx | rcx | rdx | rsi | rdi | rbp | rsp
  | r8 | r9 | r10 | r11 | r12 | r13 | r14 | r15
  deriving DecidableEq, Repr

namespace Physical

/-- All physical registers. -/
def all : List Physical :=
  [rax, rbx, rcx, rdx, rsi, rdi, rbp, rsp, r8, r9, r10, r11, r12, r13, r14, r15]

/-- The assembler name. -/
def name : Physical → String
  | rax => "rax" | rbx => "rbx" | rcx => "rcx" | rdx => "rdx"
  | rsi => "rsi" | rdi => "rdi" | rbp => "rbp" | rsp => "rsp"
  | r8 => "r8" | r9 => "r9" | r10 => "r10" | r11 => "r11"
  | r12 => "r12" | r13 => "r13" | r14 => "r14" | r15 => "r15"

/-- The name of the register in the manuals, which gives the eight old
    registers no width: `AX`, `R10`. -/
def shortName : Physical → String
  | rax => "AX" | rbx => "BX" | rcx => "CX" | rdx => "DX"
  | rsi => "SI" | rdi => "DI" | rbp => "BP" | rsp => "SP"
  | r8 => "R8" | r9 => "R9" | r10 => "R10" | r11 => "R11"
  | r12 => "R12" | r13 => "R13" | r14 => "R14" | r15 => "R15"

/-- May the register hold virtual registers?  The stack and the frame pointer
    may not. -/
def allocatable : Physical → Bool
  | rsp | rbp => false
  | _ => true

/-- The register of a name: the assembler name or the short name, in any case
    and with white space around it. -/
def ofName? (s : String) : Option Physical :=
  let key := Text.lower (Text.trim s)
  all.find? fun p => p.name == key || Text.lower p.shortName == key

end Physical

/-- A storage cell that an instruction reads or writes. -/
inductive Register where
  /-- A virtual register, by its number in the supply. -/
  | virtual (id : Nat)
  /-- A physical register. -/
  | physical (p : Physical)
  deriving DecidableEq, Repr

namespace Register

/-- The name of the register in a stream. -/
def text : Register → String
  | virtual id => "%v" ++ toString id
  | physical p => p.name

/-- Is it a register of the machine? -/
def isPhysical : Register → Bool
  | virtual _ => false
  | physical _ => true

/-- The physical register itself, if it is one. -/
def physical? : Register → Option Physical
  | virtual _ => none
  | physical p => some p

instance : Coe Physical Register := ⟨physical⟩

end Register

end Codegen
