import ThreeAddress.Opcode
import ThreeAddress.Operand

/-!
# Syntax trees

Trees as a front end hands them over: variables and callees are resolved, but the tree may have
holes, operators and nodes that have no meaning here. Operators are kept as they were written.
-/

namespace ThreeAddress
set_option autoImplicit false

/-- A variable or parameter; the number identifies it within its function. -/
structure Var where
  id : Int
  name : Bytes
  width : Width
deriving DecidableEq

structure FuncRef where
  name : Bytes
  ret : Width
  params : List Width
deriving DecidableEq

inductive Expr where
  | hole
  | num (value : Int) (width : Width)
  | str (value : Bytes)
  | var (v : Var)
  | funcRef (f : FuncRef)
  | unary (op : Bytes) (x : Expr) (width : Width)
  | binary (op : Bytes) (x y : Expr) (width : Width)
  /-- A run of additions and subtractions, from left to right. -/
  | chain (first : Expr) (rest : List (Bytes × Expr)) (width : Width)
  | logic (op : Bytes) (list : List Expr) (width : Width)
  | cond (c a b : Expr) (width : Width)
  | call (f : Option FuncRef) (args : List Expr)
  | assign (v : Option Var) (x : Expr)
  | load (addr : Expr) (width : Width)
  /-- An expression of a kind that lowering does not know. -/
  | foreign (kind : Bytes) (width : Width)
deriving Inhabited

/-- The name and type of a function, of which any parameter may be missing. -/
structure Header where
  name : Bytes
  ret : Width
  params : List (Option Var)
deriving DecidableEq

/-- What may be found in place of a statement. -/
inductive Stray where
  | integer (n : Int)
  | text (s : Bytes)
  | truth (b : Bool)
  | expr (e : Expr)
  /-- A function inside a function, with or without a body. -/
  | func (h : Header) (hasBody : Bool)

inductive Stmt where
  /-- No statement; does nothing. -/
  | hole
  | block (list : List Stmt)
  | expr (x : Expr)
  | store (addr x : Expr)
  | branch (c : Expr) (a b : Stmt)
  | whileLoop (c : Expr) (body : Stmt)
  /-- A hole for the condition is always true. -/
  | forLoop (start : Stmt) (c : Expr) (post body : Stmt)
  | breakLoop
  | continueLoop
  /-- A hole for the expression returns nothing. -/
  | ret (x : Expr)
  | stray (s : Stray)
deriving Inhabited

structure Decl where
  header : Header
  body : Option (List Stmt)

/-- The functions of a tree, of which any may be missing. -/
abbrev File := List (Option Decl)

def File.ofDecls (decls : List Decl) : File := decls.map some

namespace Header

def widths : List (Option Var) → Except Fault (List Width)
  | [] => .ok []
  | none :: _ => .error .missingNode
  | some v :: rest => do return v.width :: (← widths rest)

def ref (h : Header) : Except Fault FuncRef := do return ⟨h.name, h.ret, ← widths h.params⟩

end Header

namespace Expr

def isHole : Expr → Bool
  | hole => true
  | _ => false

/-- The width of the value; void if there is none. -/
def width : Expr → Width
  | hole => .void
  | str _ | funcRef _ => .ptr
  | var v => v.width
  | num _ w | unary _ _ w | binary _ _ _ w | chain _ _ w | logic _ _ w | cond _ _ _ w | load _ w
  | foreign _ w => w
  | call f _ => (f.map FuncRef.ret).getD .void
  | assign v _ => (v.map Var.width).getD .void

end Expr

def Stmt.isHole : Stmt → Bool
  | hole => true
  | _ => false

def UnOp.symbols : List (Bytes × UnOp) := [("!", not), ("-", neg)]

def UnOp.ofSymbol? (op : Bytes) : Option UnOp := symbols.lookup op

def BinOp.symbols : List (Bytes × BinOp) :=
  [("+", add), ("-", sub), ("*", mul), ("/", div), ("%", mod), ("&", and), ("|", or), ("^", xor),
    ("<<", shl), (">>", shr), ("==", eq), ("!=", neq), ("<", lt), ("<=", lte), (">", gt),
    (">=", gte), ("~|", nor)]

def BinOp.ofSymbol? (op : Bytes) : Option BinOp := symbols.lookup op

def BinOp.chainSymbols : List (Bytes × BinOp) := [("+", add), ("-", sub)]

def BinOp.ofChainSymbol? (op : Bytes) : Option BinOp := chainSymbols.lookup op

inductive LogicOp where
  | all
  | any
deriving DecidableEq

def LogicOp.symbols : List (Bytes × LogicOp) := [("&&", all), ("||", any)]

def LogicOp.ofSymbol? (op : Bytes) : Option LogicOp := symbols.lookup op

end ThreeAddress
