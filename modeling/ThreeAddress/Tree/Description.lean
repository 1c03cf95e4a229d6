import ThreeAddress.Tree

/-!
# Descriptions of nodes

How errors show a node: its kind and its fields, where nodes inside of it are not shown further.
-/

namespace ThreeAddress
set_option autoImplicit false

namespace Description

def record (kind : Bytes) (fields : List (String × Bytes)) : Bytes :=
  kind ++ " &\x7b" ++
    List.intercalate (Bytes.ofString " ") (fields.map fun (n, v) => n ++ ":" ++ v) ++ "\x7d"

def list (items : List Bytes) : Bytes :=
  "[" ++ List.intercalate (Bytes.ofString " ") items ++ "]"

/-- A node inside another one. -/
def inner : Bytes := "0xPTR"

def absent : Bytes := "<nil>"

def present (there : Bool) : Bytes := if there then inner else absent

def expr (e : Expr) : Bytes := present !e.isHole

end Description

open Description in
def Expr.kindText : Expr → Bytes
  | hole => absent
  | num .. => NodeKind.num.text
  | str .. => NodeKind.str.text
  | var .. => NodeKind.var.text
  | funcRef .. => NodeKind.funcRef.text
  | unary .. => NodeKind.unary.text
  | binary .. => NodeKind.binary.text
  | chain .. => NodeKind.chain.text
  | logic .. => NodeKind.logic.text
  | cond .. => NodeKind.cond.text
  | call .. => NodeKind.call.text
  | assign .. => NodeKind.assign.text
  | load .. => NodeKind.load.text
  | foreign kind _ => kind

open Description in
def Expr.fields : Expr → List (String × Bytes)
  | hole => []
  | num v w => [("Value", toString v), ("Type", w.text)]
  | str s => [("Value", s)]
  | var v => [("ID", toString v.id), ("Name", v.name), ("Type", v.width.text)]
  | funcRef f =>
    [("Name", f.name), ("Ret", f.ret.text), ("Params", list (f.params.map fun w => w.text))]
  | unary op x w => [("Op", op), ("X", expr x), ("Type", w.text)]
  | binary op x y w => [("Op", op), ("X", expr x), ("Y", expr y), ("Type", w.text)]
  | chain first rest w =>
    [("First", expr first),
      ("Rest", list (rest.map fun (op, x) => "\x7bOp:" ++ op ++ " X:" ++ expr x ++ "\x7d")),
      ("Type", w.text)]
  | logic op es w => [("Op", op), ("List", list (es.map expr)), ("Type", w.text)]
  | cond c a b w => [("Cond", expr c), ("Then", expr a), ("Else", expr b), ("Type", w.text)]
  | call f args => [("Func", present f.isSome), ("Args", list (args.map expr))]
  | assign v x => [("Var", present v.isSome), ("X", expr x)]
  | load addr w => [("Addr", expr addr), ("Type", w.text)]
  | foreign _ w => [("Type", w.text)]

def Expr.describe (e : Expr) : Bytes := Description.record e.kindText e.fields

open Description in
def Stray.describe : Stray → Bytes
  | integer n => "int " ++ toString n
  | text s => "string " ++ s
  | truth b => "bool " ++ toString b
  | expr e => e.describe
  | func h hasBody =>
    record "*ast.Func" [("Name", h.name), ("Ret", h.ret.text),
      ("Params", list (h.params.map fun p => present p.isSome)), ("Body", present hasBody)]

end ThreeAddress
