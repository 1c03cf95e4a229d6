import ThreeAddress.Opcode
import ThreeAddress.Operand

/-!
# Instructions

An instruction is an opcode with a list of operand places. The type admits every list, also one that
the opcode cannot use; which lists it can use is the subject of `ThreeAddress.Instr.Shape`.
-/

namespace ThreeAddress
set_option autoImplicit false

structure Instr where
  op : Opcode
  args : List (Option Operand)
deriving DecidableEq

abbrev Code := List Instr

namespace Instr

/-- An instruction with all its operands there. -/
def make (op : Opcode) (args : List Operand) : Instr := ⟨op, args.map some⟩

/-- The operand at place `i`; a place that is not there and one that is empty are the same here. -/
def operand? (x : Instr) (i : Nat) : Option Operand := x.args[i]?.join

/-- Place `i`, which has to be there. -/
def place (x : Instr) (i : Nat) : Except Fault (Option Operand) :=
  match x.args[i]? with
  | some a => .ok a
  | none => .error .outOfRange

/-- Puts `a` into place `i`, which has to be there. -/
def setPlace (x : Instr) (i : Nat) (a : Option Operand) : Except Fault Instr :=
  if i < x.args.length then .ok { x with args := x.args.set i a } else .error .outOfRange

/-- The width of the value an instruction is about: of the function for a call, none for what only
steers control, else of the first operand. -/
def width? (x : Instr) : Option Width :=
  match x.op with
  | .br | .brz | .bnz | .label => none
  | .call =>
    match x.operand? 1 with
    | some (.callee _ ret) => some ret
    | _ => none
  | _ =>
    match x.operand? 0 with
    | some (.reg r) => some r.width
    | some (.num _ w) => some w
    | some (.data ..) => some .ptr
    | _ => none

/-- The register that receives the result. -/
def dst? (x : Instr) : Option Reg :=
  if x.op.isDefinition then (x.operand? 0).bind Operand.reg? else none

/-- The label that a branch goes to or that a label instruction defines. -/
def target? (x : Instr) : Option Label :=
  if x.op.isBranch || x.op == .label then (x.operand? 0).bind Operand.label? else none

/-- The place that a conditional branch tests, which may be empty. -/
def cond? (x : Instr) : Option (Option Operand) :=
  match x.op with
  | .brz | .bnz => x.args[1]?
  | _ => none

def layout (op : Opcode) (operands : List Bytes) : Bytes :=
  if operands.isEmpty then op.mnemonic
  else op.mnemonic ++ " " ++ List.intercalate (Bytes.ofString ", ") operands

/-- An empty place reads `<nil>`. -/
def text (locate : Locator) (x : Instr) : Bytes :=
  layout x.op (x.args.map (Operand.placeText locate))

/-- As `text`, but a fault if a place is empty. -/
def strictText (locate : Locator) (x : Instr) : Except Fault Bytes :=
  (layout x.op ·) <$> x.args.mapM (Operand.textAt locate)

/-- The registers at the operand places, with repetitions. -/
def regs (x : Instr) : List Reg := x.args.filterMap Operand.regAt?

end Instr

end ThreeAddress
