import ThreeAddress.Arena

/-!
# Operands

An operand place of an instruction holds an operand or nothing at all, so code speaks of
`Option Operand`. Registers are told apart by `RegKey`: named and temporary ones have index spaces
of their own, and neither width nor name belongs to the identity.

Marks say where they come from: the value that they were made for, of which only the kind is shown,
and the point of the running program that made them. Which function and line a point belongs to is
not for this library to know, so texts are made with a `Locator`.
-/

namespace ThreeAddress
set_option autoImplicit false

structure RegKey where
  temp : Bool
  index : Int
deriving DecidableEq, Inhabited

/-- A variable or parameter, or a temporary that lowering made. -/
structure Reg where
  index : Int
  width : Width
  temp : Bool
  name : Bytes
deriving DecidableEq, Inhabited

namespace Reg

def key (r : Reg) : RegKey := ⟨r.temp, r.index⟩

def text (r : Reg) : Bytes :=
  if r.temp then "t" ++ toString r.index
  else if r.name ≠ [] then r.name
  else "v" ++ toString r.index

end Reg

inductive NodeKind where
  | num | str | var | funcRef | unary | binary | chain | logic | cond | call | assign | load
  | block | exprStmt | store | branch | whileLoop | forLoop | breakLoop | continueLoop | ret
deriving DecidableEq

def NodeKind.text : NodeKind → String
  | num => "*ast.Num"
  | str => "*ast.Str"
  | var => "*ast.Var"
  | funcRef => "*ast.FuncRef"
  | unary => "*ast.Unary"
  | binary => "*ast.Binary"
  | chain => "*ast.Chain"
  | logic => "*ast.Logic"
  | cond => "*ast.Cond"
  | call => "*ast.Call"
  | assign => "*ast.Assign"
  | load => "*ast.Load"
  | block => "*ast.Block"
  | exprStmt => "*ast.ExprStmt"
  | store => "*ast.Store"
  | branch => "*ast.If"
  | whileLoop => "*ast.While"
  | forLoop => "*ast.For"
  | breakLoop => "*ast.Break"
  | continueLoop => "*ast.Continue"
  | ret => "*ast.Return"

/-- A node of the tree, or a value of any other kind. -/
inductive Payload where
  | node (kind : NodeKind)
  | value (kind : Bytes)
deriving DecidableEq

def Payload.kindText : Payload → Bytes
  | node k => k.text
  | value kind => kind

structure Place where
  func : Bytes
  line : Int

abbrev Locator := UInt64 → Place

/-- What a mark was made for, and the point of the program that made it; 0 is none. -/
structure Origin where
  payload : Payload
  pc : UInt64
deriving DecidableEq

def Origin.text (locate : Locator) (o : Origin) : Bytes :=
  if o.pc = 0 then "#" ++ o.payload.kindText
  else
    let place := locate o.pc
    "#" ++ o.payload.kindText ++ "@" ++ place.func ++ ":" ++ toString place.line

inductive Operand where
  | num (value : Int) (width : Width)
  | reg (r : Reg)
  /-- An entry of a data segment; segment 0 is the string pool. -/
  | data (segment : UInt8) (index : Int)
  | label (l : Label)
  /-- A function that may be called, with the width of its result. -/
  | callee (l : Label) (ret : Width)
  | origin (o : Origin)
  /-- Stands for the result of a call that nobody wants. -/
  | nothing
deriving DecidableEq

namespace Operand

def segmentText (s : UInt8) : String :=
  if s == 0 then "str" else "section" ++ toString s.toNat

def text (locate : Locator) : Operand → Bytes
  | num v _ => toString v
  | reg r => r.text
  | data s i => segmentText s ++ "[" ++ toString i ++ "]"
  | label l => l.text
  | callee l _ => "@" ++ l.text
  | origin o => o.text locate
  | nothing => "_"

/-- The kind of an operand as errors name it. -/
def kindText : Operand → String
  | num .. => "ir.Num"
  | reg .. => "ir.Reg"
  | data .. => "ir.Data"
  | label .. => "ir.Label"
  | callee .. => "ir.FuncLabel"
  | origin .. => "ir.Debug"
  | nothing => "ir.None"

/-- Operands that an instruction may read: numbers, registers and data. -/
def isValue : Operand → Bool
  | num .. | reg .. | data .. => true
  | _ => false

def reg? : Operand → Option Reg
  | reg r => some r
  | _ => none

def label? : Operand → Option Label
  | label l => some l
  | _ => none

/-- The register that an operand place holds. -/
def regAt? (x : Option Operand) : Option Reg := x.bind reg?

def keyAt? (x : Option Operand) : Option RegKey := (regAt? x).map Reg.key

/-- The number 0, of any width. -/
def isZero : Option Operand → Bool
  | some (num v _) => v == 0
  | _ => false

/-- Both places hold registers, and these are the same. -/
def sameReg (x y : Option Operand) : Bool :=
  match keyAt? x, keyAt? y with
  | some a, some b => a == b
  | _, _ => false

def placeText (locate : Locator) : Option Operand → Bytes
  | some x => x.text locate
  | none => "<nil>"

def placeKindText : Option Operand → String
  | some x => x.kindText
  | none => "<nil>"

def textAt (locate : Locator) : Option Operand → Except Fault Bytes
  | some x => .ok (x.text locate)
  | none => .error .missingOperand

theorem sameReg_eq_true_iff {x y : Option Operand} :
    sameReg x y = true ↔ ∃ k, keyAt? x = some k ∧ keyAt? y = some k := by
  unfold sameReg
  cases keyAt? x <;> cases keyAt? y <;> simp
  exact eq_comm

end Operand

end ThreeAddress
