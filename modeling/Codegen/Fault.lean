/-
  What stops the library.

  A `Fault` is the cause for which an operation gives up on its input.  Most
  faults are refusals with a message of their own; a few (`isCrash`) are the
  ones that nothing checked for.  `Fault.message` is the wording of each.
-/
import Codegen.Instr.Basic
import Codegen.Text.Quoted

namespace Codegen

/-- The cause for which an operation gave up. -/
inductive Fault where
  /-- No rule of the catalogue tiles the operation. -/
  | uncovered (catalogue : String) (s : Stmt)
  /-- No branch rule of the catalogue tiles the condition. -/
  | noBranchRule (catalogue : String) (cond : Value)
  /-- The catalogue has no jump rule. -/
  | noJumpRule (catalogue : String)
  /-- The rule of a leaf gave no register to the rule above it. -/
  | noLeafValue (leaf parent : String)
  /-- A rule was registered without code. -/
  | noGenerator (rule catalogue : String)
  /-- A rule was registered without a pattern. -/
  | noPattern (rule catalogue : String)
  /-- A part of a pattern was asked for a value it did not capture. -/
  | nothingCaptured (pattern : String)
  /-- A part of a pattern was asked for a value of another kind. -/
  | otherCaptured (pattern got wanted : String)
  /-- A call passes more arguments than there are argument registers. -/
  | tooManyArguments (target : Label) (given : Int) (limit : Nat)
  /-- A call passes a negative number of arguments. -/
  | negativeArguments
  /-- A list was read outside its bounds. -/
  | outOfRange (index : Int) (length : Nat)
  /-- An operator without an arithmetic instruction. -/
  | noArithmetic (op : BinaryOp)
  /-- An operator without a condition code. -/
  | noCondition (op : BinaryOp)
  /-- A block is missing where one was to be visited. -/
  | missingBlock
  /-- A branch has an arm without a block. -/
  | missingArm
  /-- A jump to a label that the stream does not define. -/
  | unknownTarget (l : Label) (i : Instr)
  /-- An item that is neither a label nor an instruction. -/
  | strayItem (r : Register)
  /-- An instruction touches more spilled registers than there is scratch. -/
  | scratchShortage (i : Instr) (needed given : Nat)
  /-- A virtual register of a finished stream has no physical register. -/
  | unassigned (r : Register) (i : Instr)
  /-- A register that may not be handed out. -/
  | notAllocatable (p : Physical)
  /-- A target with too few scratch registers. -/
  | fewScratch (least : Nat)
  /-- A backend whose target has too few scratch registers. -/
  | backendScratch
  /-- A function without a frame. -/
  | noFrame
  /-- Frame code that needs a virtual register. -/
  | frameRegister (i : Instr) (r : Register)
  /-- A program compiled by a negative number of workers. -/
  | badParallelism
  /-- A sum of no values. -/
  | noValues
  /-- A condition code the machine does not know. -/
  | unknownCondition (cond : String)
  /-- A callee failed. -/
  | calleeFailed (problem : String)
  /-- No physical register was given. -/
  | noPhysical
  deriving DecidableEq, Repr

namespace Fault

/-- Faults that no check precedes. -/
def isCrash : Fault → Bool
  | negativeArguments | outOfRange .. | missingArm => true
  | _ => false

/-- The name of a register's kind. -/
def registerKind : Register → String
  | .virtual _ => "ir.VirtualRegister"
  | .physical _ => "ir.HardwareRegister"

/-- The wording of a fault. -/
def message : Fault → String
  | uncovered catalogue s =>
    catalogue ++ " has no rule covering " ++ s.kind ++ " " ++ s.text
  | noBranchRule catalogue cond =>
    catalogue ++ " has no branch rule for condition " ++ cond.text
  | noJumpRule catalogue => catalogue ++ " has no jump rule"
  | noLeafValue leaf parent =>
    "rule " ++ Text.quote leaf ++ " produced no value for a leaf of rule " ++ Text.quote parent
  | noGenerator rule catalogue =>
    "rule " ++ Text.quote rule ++ " of " ++ catalogue ++ " has no generator"
  | noPattern rule catalogue =>
    "rule " ++ Text.quote rule ++ " of " ++ catalogue ++ " has no pattern"
  | nothingCaptured pattern => "pattern " ++ pattern ++ " captured nothing"
  | otherCaptured pattern got wanted =>
    "pattern " ++ pattern ++ " captured " ++ got ++ ", not " ++ wanted
  | tooManyArguments target given limit =>
    "call of " ++ target ++ " passes " ++ toString given ++ " register arguments, at most " ++
      toString limit ++ " supported"
  | negativeArguments => "runtime error: makeslice: len out of range"
  | outOfRange index length =>
    if index < 0 then "runtime error: index out of range [" ++ toString index ++ "]"
    else "runtime error: index out of range [" ++ toString index ++ "] with length " ++
      toString length
  | noArithmetic op => "no arithmetic instruction for operator " ++ op.text
  | noCondition op => "no condition code for operator " ++ op.text
  | missingBlock => "unknown block variant <nil>"
  | missingArm => "interface conversion: interface is nil, not ir.Block"
  | unknownTarget l i => "jump to unknown label " ++ l ++ " in " ++ Text.quote i.text
  | strayItem r => "unknown stream item " ++ registerKind r
  | scratchShortage i needed given =>
    Text.quote i.text ++ " touches " ++ toString needed ++ " spilled registers, only " ++
      toString given ++ " scratch registers"
  | unassigned r i => "register " ++ r.text ++ " of " ++ Text.quote i.text ++ " has no assignment"
  | notAllocatable p => "register " ++ p.shortName ++ " cannot be allocated"
  | fewScratch least => "need at least " ++ toString least ++ " scratch registers"
  | backendScratch => "Need at least 2 scratch registers"
  | noFrame => "no frame"
  | frameRegister i r => "frame setup " ++ Text.quote i.text ++ " needs register " ++ r.text
  | badParallelism => "parallelism must be positive"
  | noValues => "need at least one value"
  | unknownCondition cond => "unknown condition code " ++ cond
  | calleeFailed problem => problem
  | noPhysical => "nil physical register"

end Fault

end Codegen
