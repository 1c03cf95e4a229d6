import ThreeAddress.Program
import ThreeAddress.Text

/-!
# Listings

The text of operands, instructions, code, functions and programs. Labels are shown by the names that
an arena gives them; the empty arena shows all of them by number.
-/

namespace ThreeAddress
set_option autoImplicit false

namespace Listing

variable (locate : Locator)

def operand (ls : Labels) : Option Operand → Bytes
  | some (.label l) => ls.name l
  | some (.callee l _) => "@" ++ ls.name l
  | x => Operand.placeText locate x

/-- A label instruction is the name and a colon, anything else is indented by `indent`. -/
def instr (ls : Labels) (indent : Bytes) (x : Instr) : Bytes :=
  match x.op, x.args with
  | .label, [l] => operand locate ls l ++ ":"
  | op, args => indent ++ Instr.layout op (args.map (operand locate ls))

def code (ls : Labels) (indent : Bytes) (c : Code) : Bytes :=
  c.flatMap fun x => instr locate ls indent x ++ "\n"

def param (p : Param) : Bytes := p.width.text ++ " " ++ p.name

def params (ps : List Param) : Bytes := List.intercalate (Bytes.ofString ", ") (ps.map param)

def result (w : Width) : Bytes := if w.isVoid then "" else " " ++ w.text

def func (ls : Labels) (f : Func) : Bytes :=
  "func " ++ f.name ++ "(" ++ params f.params ++ ")" ++ result f.ret ++ " \x7b\n" ++
    code locate ls "\t" f.code ++ "\x7d\n"

def datum (i : Nat) (s : Bytes) : Bytes :=
  "data " ++ (Operand.data 0 i).text locate ++ " " ++ Text.quote s ++ "\n"

/-- The strings, one to a line, and the functions, with blank lines between. -/
def program (p : Program) : Bytes :=
  let data := (p.data.strings.mapIdx (datum locate)).flatten
  let gap : Bytes := if p.data.strings.isEmpty || p.funcs.isEmpty then "" else "\n"
  data ++ gap ++ List.intercalate (Bytes.ofString "\n") (p.funcs.map (func locate p.labels))

end Listing

inductive Listable where
  | program (p : Program)
  | func (f : Func)
  | code (c : Code)
  | instr (x : Instr)
  | operand (x : Option Operand)
  /-- A value of a kind that has no listing. -/
  | other (kind : Bytes)

namespace Listable

/-- The text of `x` after the text `before`. A program names labels by its own arena. -/
def list (locate : Locator) (ls : Labels) (before : Bytes) (x : Listable) : Except Error Bytes :=
  match x with
  | .program p => .ok (before ++ Listing.program locate p)
  | .func f => .ok (before ++ Listing.func locate ls f)
  | .code c => .ok (before ++ Listing.code locate ls [] c)
  | .instr i => .ok (before ++ Listing.instr locate ls [] i)
  | .operand (some a) => .ok (before ++ Listing.operand locate ls (some a))
  | .operand none => .error (Error.of (.unlistable "<nil>"))
  | .other kind => .error (Error.of (.unlistable kind))

def text (locate : Locator) (ls : Labels) (x : Listable) : Bytes :=
  match x.list locate ls [] with
  | .ok s => s
  | .error e => "!" ++ e.message locate

end Listable

end ThreeAddress
