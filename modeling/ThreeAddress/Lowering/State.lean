import ThreeAddress.Instr.Shape
import ThreeAddress.Program
import ThreeAddress.Tree.Description

/-!
# The state of lowering

The functions of a program are lowered one after the other in a session, which holds the program
and the counter that makes label names differ. A frame adds what belongs to one function: the next
temporary and the registers of its variables.

A step that fails keeps the state it has reached, so that a function that fails leaves its labels
and strings behind.
-/

namespace ThreeAddress
set_option autoImplicit false

structure Session extends Program where
  nextSuffix : Nat
deriving DecidableEq

namespace Session

/-- A session that goes on with what a program has. -/
def ofProgram (p : Program) : Session := ⟨p, 0⟩

def empty : Session := ofProgram .empty

end Session

structure Frame where
  session : Session
  nextTemp : Nat
  /-- The registers of the variables met so far, by the variables' numbers. -/
  vars : List (Int × Reg)
deriving DecidableEq

abbrev LowerM := EStateM Error Frame

namespace LowerM

def fail {α : Type} (c : Cause) : LowerM α := throw (Error.of c)

def within {α : Type} (c : Context) (act : LowerM α) : LowerM α := fun s =>
  match act s with
  | .ok a s => .ok a s
  | .error e s => .error (e.within c) s

/-- A new label, named after `base` with a number that no other label of the session has. -/
def newLabel (base : String) : LowerM Label := fun s =>
  let name := Bytes.ofString (base ++ "." ++ toString s.session.nextSuffix)
  let (l, labels) := s.session.labels.fresh name
  .ok l { s with session := { s.session with labels, nextSuffix := s.session.nextSuffix + 1 } }

def newTemp (w : Width) : LowerM Reg := fun s =>
  .ok ⟨s.nextTemp, w, true, []⟩ { s with nextTemp := s.nextTemp + 1 }

/-- The register of a variable. Its width and name are those of the variable's first appearance. -/
def regOf (v : Var) : LowerM Reg := fun s =>
  match s.vars.lookup v.id with
  | some r => .ok r s
  | none =>
    let r : Reg := ⟨s.vars.length, v.width, false, v.name⟩
    .ok r { s with vars := s.vars ++ [(v.id, r)] }

def calleeOf (f : FuncRef) : LowerM Operand := fun s =>
  let (l, labels) := s.session.labels.intern f.name
  .ok (.callee l f.ret) { s with session := { s.session with labels } }

def dataOf (b : Bytes) : LowerM Operand := fun s =>
  let (i, data) := s.session.data.intern b
  .ok (.data 0 i) { s with session := { s.session with data } }

/-- The destination, or a new temporary if none is given. -/
def orTemp (dst : Option Reg) (w : Width) : LowerM Reg :=
  match dst with
  | some r => return r
  | none => newTemp w

/-- One instruction, which has to be well-formed. -/
def emit (op : Opcode) (args : List Operand) : LowerM Code :=
  match (Instr.make op args).check with
  | .ok () => return [Instr.make op args]
  | .error e => throw e

def give (dst : Option Reg) (v : Operand) : LowerM Code :=
  match dst with
  | some r => emit .mov [.reg r, v]
  | none => return []

end LowerM

/-- The two points of lowering at which marks are made, for expressions and for statements. -/
def NodeKind.site : NodeKind → UInt64
  | block | exprStmt | store | branch | whileLoop | forLoop | breakLoop | continueLoop | ret => 2
  | _ => 1

namespace Instr

def mark (k : NodeKind) : Instr := make .nop [.origin ⟨.node k, k.site⟩]

def defineLabel (l : Label) : Instr := make .label [.label l]

def jump (l : Label) : Instr := make .br [.label l]

end Instr

end ThreeAddress
