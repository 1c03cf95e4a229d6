/-!
# Opcodes

An opcode is one byte: 29 of the 256 codes have a meaning, the others are carried as they are.
-/

namespace ThreeAddress
set_option autoImplicit false

inductive BinOp where
  | add | sub | mul | div | mod | and | or | xor | shl | shr
  | eq | neq | lt | lte | gt | gte | nor
deriving DecidableEq

def BinOp.mnemonic : BinOp → String
  | add => "add" | sub => "sub" | mul => "mul" | div => "div" | mod => "mod"
  | and => "and" | or => "or" | xor => "xor" | shl => "shl" | shr => "shr"
  | eq => "eq" | neq => "neq" | lt => "lt" | lte => "lte" | gt => "gt" | gte => "gte"
  | nor => "nor"

inductive UnOp where
  | not | neg
deriving DecidableEq

def UnOp.mnemonic : UnOp → String
  | not => "not"
  | neg => "neg"

inductive Opcode where
  | nop
  | mov
  | read
  | write
  | bin (op : BinOp)
  | un (op : UnOp)
  | br
  | brz
  | bnz
  | label
  | ret
  | call
  /-- A code without a meaning; the first of them is 29. -/
  | other (k : Fin 227)
deriving DecidableEq

namespace Opcode

def mnemonic : Opcode → String
  | nop => "nop"
  | mov => "mov"
  | read => "read"
  | write => "write"
  | bin op => op.mnemonic
  | un op => op.mnemonic
  | br => "br"
  | brz => "brz"
  | bnz => "bnz"
  | label => "label"
  | ret => "ret"
  | call => "call"
  | other k => "op" ++ toString (k.val + 29)

/-- The opcodes that have a meaning, in the order of their codes. -/
def meaningful : List Opcode :=
  [nop, mov, read, write, bin .add, bin .sub, bin .mul, bin .div, bin .mod, bin .and, bin .or,
    bin .xor, bin .shl, bin .shr, bin .eq, bin .neq, bin .lt, bin .lte, bin .gt, bin .gte, un .not,
    un .neg, bin .nor, br, brz, bnz, label, ret, call]

def ofCode (c : UInt8) : Opcode :=
  if h : c.toNat < 29 then meaningful.get ⟨c.toNat, h⟩
  else other ⟨c.toNat - 29, by have := c.toNat_lt; omega⟩

def ofMnemonic? (s : String) : Option Opcode :=
  ((List.range 256).map (fun c => ofCode c.toUInt8)).find? (fun op => op.mnemonic == s)

def isBinary : Opcode → Bool
  | bin _ => true
  | _ => false

def isUnary : Opcode → Bool
  | un _ => true
  | _ => false

def isBranch : Opcode → Bool
  | br | brz | bnz => true
  | _ => false

/-- Control does not run on to the next instruction. -/
def isTerminator : Opcode → Bool
  | br | ret => true
  | _ => false

/-- The first operand receives a result. -/
def isDefinition : Opcode → Bool
  | mov | read | call | bin _ | un _ => true
  | _ => false

theorem isTerminator_iff {op : Opcode} : op.isTerminator = true ↔ op = br ∨ op = ret := by
  cases op <;> simp [isTerminator]

theorem isBranch_iff {op : Opcode} : op.isBranch = true ↔ op = br ∨ op = brz ∨ op = bnz := by
  cases op <;> simp [isBranch]

end Opcode

end ThreeAddress
