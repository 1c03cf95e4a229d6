import ThreeAddress.Instr

/-!
# Errors

An error is a cause and the contexts in which it arose, outermost first. The wording of both stands
here and nowhere else. A report lists the functions of a program that failed, each with its error.
-/

namespace ThreeAddress
set_option autoImplicit false

inductive Cause where
  | malformedOperand
  | unresolvedLabel
  | unsupportedNode
  | notInLoop
  | missingExpr
  | missingCond
  | paramTwice (name : Bytes)
  | argCount (callee : Bytes) (got want : Nat)
  | labelTwice (l : Label)
  | labelTwiceAt (l : Label) (first second : Nat)
  | unlistable (kind : Bytes)
  | other (text : Bytes)
deriving DecidableEq

namespace Cause

def message : Cause → Bytes
  | malformedOperand => "malformed operand"
  | unresolvedLabel => "unresolved label"
  | unsupportedNode => "unsupported node"
  | notInLoop => "not in a loop"
  | missingExpr => "nil expression"
  | missingCond => "nil condition"
  | paramTwice name => "param redefined: " ++ name
  | argCount callee got want =>
    "call " ++ callee ++ ": " ++ toString got ++ " args, want " ++ toString want
  | labelTwice l => "label " ++ l.text ++ " defined twice"
  | labelTwiceAt l first second =>
    "label " ++ l.text ++ " defined twice: at " ++ toString first ++ " and " ++ toString second
  | unlistable kind => "unsupported type: " ++ kind
  | other text => if text.isEmpty then "(no message)" else text

end Cause

/-- Where, or in doing what, an error arose. -/
inductive Context where
  | note (text : Bytes)
  | operandCount (op : Opcode) (got : Nat)
  | operandCountWanted (op : Opcode) (got want : Nat)
  | operand (op : Opcode) (i : Nat) (x : Option Operand)
  | unknownOpcode (op : Opcode)
  | instr (i : Nat)
  | instrText (i : Nat) (x : Instr)
  | instrTarget (i : Nat) (l : Label)
  | labelAt (i : Nat)
  | labelIn (l : Label) (func : Bytes)
  | node (description : Bytes)
  | body
  | stmt (i : Nat)
  | storeAddr
  | storeValue
  | ifCond
  | thenPart
  | elsePart
  | whileCond
  | whileBody
  | forInit
  | forCond
  | forBody
  | forPost
  | breakLoop
  | continueLoop
  | returned
  | operator (op : Bytes)
  | leftOf (op : Bytes)
  | rightOf (op : Bytes)
  | chain
  | chainTerm (i : Nat)
  | logicOperand (op : Bytes) (i : Nat)
  | cond
  | arg (callee : Bytes) (i : Nat)
  | assign (name : Bytes)
  | loadAddr
  | verify
  | pass (name : Bytes)
deriving DecidableEq

namespace Context

def text (locate : Locator) : Context → Bytes
  | note text => text
  | operandCount op got => op.mnemonic ++ ": " ++ toString got ++ " operands"
  | operandCountWanted op got want =>
    op.mnemonic ++ ": " ++ toString got ++ " operands, want " ++ toString want
  | operand op i x =>
    op.mnemonic ++ ": operand " ++ toString i ++ ": " ++ Operand.placeText locate x ++
      " (" ++ Operand.placeKindText x ++ ")"
  | unknownOpcode op => "unknown opcode: " ++ op.mnemonic
  | instr i => "instr " ++ toString i
  | instrText i x => "instr " ++ toString i ++ ": " ++ x.text locate
  | instrTarget i l => "instr " ++ toString i ++ ": " ++ l.text
  | labelAt i => "label at " ++ toString i
  | labelIn l func => l.text ++ " in " ++ func
  | node description => description
  | body => "body"
  | stmt i => "stmt " ++ toString i
  | storeAddr => "store addr"
  | storeValue => "store value"
  | ifCond => "if cond"
  | thenPart => "then"
  | elsePart => "else"
  | whileCond => "while cond"
  | whileBody => "while body"
  | forInit => "for init"
  | forCond => "for cond"
  | forBody => "for body"
  | forPost => "for post"
  | breakLoop => "break"
  | continueLoop => "continue"
  | returned => "return"
  | operator op => op
  | leftOf op => op ++ " x"
  | rightOf op => op ++ " y"
  | chain => "chain"
  | chainTerm i => "chain term " ++ toString i
  | logicOperand op i => op ++ " operand " ++ toString i
  | cond => "cond"
  | arg callee i => "call " ++ callee ++ ": arg " ++ toString i
  | assign name => "assign " ++ name
  | loadAddr => "load addr"
  | verify => "verify"
  | pass name => "pass " ++ name

end Context

structure Error where
  context : List Context
  cause : Cause
deriving DecidableEq

namespace Error

def of (c : Cause) : Error := ⟨[], c⟩

/-- The same error seen from further out. -/
def within (e : Error) (c : Context) : Error := { e with context := c :: e.context }

/-- Contexts and cause, outermost first; a context without text is left out. -/
def message (locate : Locator) (e : Error) : Bytes :=
  List.intercalate (Bytes.ofString ": ")
    ((e.context.map (Context.text locate)).filter (fun s => !s.isEmpty) ++ [e.cause.message])

@[simp] theorem cause_within (e : Error) (c : Context) : (e.within c).cause = e.cause := rfl

end Error

structure FuncError where
  func : Bytes
  error : Error
deriving DecidableEq

def FuncError.message (locate : Locator) (e : FuncError) : Bytes :=
  "func " ++ e.func ++ ": " ++ e.error.message locate

/-- The functions that failed, in the order of the program. -/
abbrev Report := List FuncError

/-- The error of a stage: the functions that failed in it, or an error of another kind. -/
inductive Failure where
  | funcs (r : Report)
  | other (e : Error)
deriving DecidableEq

namespace Report

def message (locate : Locator) (r : Report) : Bytes :=
  List.intercalate (Bytes.ofString "; ") (r.map (FuncError.message locate))

/-- Some function failed of this cause. -/
def arises (r : Report) (c : Cause) : Bool := r.any (fun e => e.error.cause == c)

def err (r : Report) : Option Failure := if r.isEmpty then none else some (.funcs r)

end Report

def Failure.message (locate : Locator) : Failure → Bytes
  | funcs r => r.message locate
  | other e => e.message locate

end ThreeAddress
