import ThreeAddress.Bitmap
import ThreeAddress.Instr.Shape

/-!
# Functions and programs

A function has a header and code. Labels are found in the code itself: by a table of their
positions, which wants every label well-formed and defined once, or by a search for one of them.
`Func.validate` accepts the code that later stages may rely on. The functions of a program share one
label arena and one string pool.
-/

namespace ThreeAddress
set_option autoImplicit false

structure Param where
  width : Width
  name : Bytes
deriving DecidableEq

/-- The parameters are the named registers from 0 on. -/
structure Func where
  name : Bytes
  ret : Width
  params : List Param
  code : Code
deriving DecidableEq

/-- Where labels are defined, in the order of the code. -/
abbrev Positions := List (Label × Nat)

namespace Code

/-- Extends the table `seen` by the labels of the rest of the code, of which the first instruction
is number `i`. -/
def positionsFrom (seen : Positions) (i : Nat) : Code → Except Error Positions
  | [] => .ok seen
  | x :: rest =>
    if x.op = .label then
      match x.target? with
      | none => .error ((Error.of .malformedOperand).within (.labelAt i))
      | some l =>
        match seen.lookup l with
        | some j => .error (Error.of (.labelTwiceAt l j i))
        | none => positionsFrom (seen ++ [(l, i)]) (i + 1) rest
    else positionsFrom seen (i + 1) rest

def positions (code : Code) : Except Error Positions := positionsFrom [] 0 code

/-- The first place that defines `l`. -/
def find? (code : Code) (l : Label) : Option Nat :=
  code.findIdx? fun x => x.op == .label && x.target? == some l

/-- Every instruction is well-formed and no label is defined twice; gives the labels that are
defined. -/
def definedFrom (seen : Bitmap) (i : Nat) : Code → ExceptT Error (Except Fault) Bitmap
  | [] => return seen
  | x :: rest => do
    match x.flaw? with
    | some c => throw (((Error.of .malformedOperand).within c).within (.instr i))
    | none =>
      if x.op = .label then
        let l := x.target?.getD ⟨0⟩
        if ← seen.contains l.handle then throw (Error.of (.labelTwice l))
        definedFrom (← seen.insert l.handle) (i + 1) rest
      else definedFrom seen (i + 1) rest

/-- Every branch goes to a label of `defined`. -/
def resolvedFrom (defined : Bitmap) (i : Nat) : Code → ExceptT Error (Except Fault) Unit
  | [] => return ()
  | x :: rest => do
    if x.op.isBranch then
      let l := x.target?.getD ⟨0⟩
      if !(← defined.contains l.handle) then
        throw ((Error.of .unresolvedLabel).within (.instrText i x))
    resolvedFrom defined (i + 1) rest

/-- The register occurrences, definitions and uses alike. -/
def regKeys (code : Code) : List RegKey := code.flatMap fun x => x.regs.map Reg.key

/-- How often a register occurs. -/
def occurrences (code : Code) (k : RegKey) : Nat := code.regKeys.count k

end Code

namespace Func

def positions (f : Func) : Except Error Positions := Code.positions f.code

def find (f : Func) (l : Label) : Except Error Nat :=
  match Code.find? f.code l with
  | some i => .ok i
  | none => .error ((Error.of .unresolvedLabel).within (.labelIn l f.name))

/-- Accepts well-formed instructions, labels defined once, and branches to defined labels. -/
def validate (f : Func) : ExceptT Error (Except Fault) Unit := do
  let defined ← Code.definedFrom (.ofCapacity f.code.length) 0 f.code
  Code.resolvedFrom defined 0 f.code

end Func

structure Program where
  labels : Labels
  data : Pool
  funcs : List Func
deriving DecidableEq

namespace Program

def empty : Program := ⟨.empty, .empty, []⟩

def find? (p : Program) (name : Bytes) : Option Nat := p.funcs.findIdx? (·.name == name)

end Program

end ThreeAddress
