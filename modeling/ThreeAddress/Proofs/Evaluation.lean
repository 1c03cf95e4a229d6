import ThreeAddress.Proofs.Machine
import ThreeAddress.Tree

/-!
# What trees mean

Expressions have a value and change a store; statements also say where control goes. Evaluation goes
from left to right. There are two readings of an operand that is a variable: strictly its value is
taken when the operand's turn comes, in place only when the operator is applied, after the operands
to the right of it.

Loops are run for at most `n` turns. What a function does is the limit over `n`: it halts if some
number of turns is enough, and it shows the events of every bounded run. The readings agree on trees
in which no operand that is a variable is assigned by the operand after it
(`Decl.behaviour_inPlace`).
-/

namespace ThreeAddress
set_option autoImplicit false

/-- The meaning of operators, calls, strings and function names. -/
structure Language extends Primitives where
  str : Bytes → Int
  callee : Bytes → Int

namespace Language
variable (L : Language)

def unary (op : Bytes) (a : Int) : Int := (UnOp.ofSymbol? op).elim 0 fun o => L.un o a

def binary (op : Bytes) (a b : Int) : Int := (BinOp.ofSymbol? op).elim 0 fun o => L.bin o a b

def term (op : Bytes) (a b : Int) : Int := (BinOp.ofChainSymbol? op).elim 0 fun o => L.bin o a b

end Language

/-- The values of the variables, by their numbers, and the world. -/
structure Store where
  vars : Int → Int
  world : World

namespace Store

def assign (σ : Store) (id a : Int) : Store := ⟨Function.update σ.vars id a, σ.world⟩

def withWorld (σ : Store) (w : World) : Store := ⟨σ.vars, w⟩

end Store

inductive Reading where
  | strict
  | inPlace
deriving DecidableEq

/-- The value that an operator gets for its operand `e`, which was `a` in its turn, when it is
applied in `σ`. -/
def Expr.held (m : Reading) (e : Expr) (a : Int) (σ : Store) : Int :=
  match m, e with
  | .inPlace, .var v => σ.vars v.id
  | _, _ => a

/-- A condition of value `a` holds; one that is missing always does. -/
def Expr.passes (e : Expr) (a : Int) : Bool := e.isHole || a != 0

namespace LogicOp

/-- Further operands are not looked at. -/
def stops : LogicOp → Int → Bool
  | all, a => a == 0
  | any, a => a != 0

def verdict : LogicOp → Bool → Int
  | all, stopped => if stopped then 0 else 1
  | any, stopped => if stopped then 1 else 0

end LogicOp

section Evaluation
variable (L : Language) (m : Reading)

mutual

def Expr.eval : Expr → Store → Int × Store
  | .hole, σ => (0, σ)
  | .num a _, σ => (a, σ)
  | .str b, σ => (L.str b, σ)
  | .var v, σ => (σ.vars v.id, σ)
  | .funcRef f, σ => (L.callee f.name, σ)
  | .unary op x _, σ =>
    let r := x.eval σ
    (L.unary op r.1, r.2)
  | .binary op x y _, σ =>
    let r := x.eval σ
    let q := y.eval r.2
    (L.binary op (x.held m r.1 q.2) q.1, q.2)
  | .chain first rest _, σ =>
    let r := first.eval σ
    Expr.evalTerms (first.held m r.1) rest r.2
  | .logic op list _, σ =>
    match LogicOp.ofSymbol? op with
    | some o =>
      let r := Expr.evalUntil o list σ
      (o.verdict r.1, r.2)
    | none => (0, σ)
  | .cond c a b _, σ =>
    let r := c.eval σ
    if c.passes r.1 then a.eval r.2 else b.eval r.2
  | .call f args, σ =>
    let r := Expr.evalArgs args σ
    match f with
    | some f =>
      let q := L.call (L.callee f.name) r.1 r.2.world
      (q.1, r.2.withWorld q.2)
    | none => (0, r.2)
  | .assign v x, σ =>
    let r := x.eval σ
    match v with
    | some v => (r.1, r.2.assign v.id r.1)
    | none => r
  | .load addr _, σ =>
    let r := addr.eval σ
    (r.2.world.memory r.1, r.2)
  | .foreign .., σ => (0, σ)

/-- The terms of a chain, added to what has the value `acc` when it is read. -/
def Expr.evalTerms (acc : Store → Int) : List (Bytes × Expr) → Store → Int × Store
  | [], σ => (acc σ, σ)
  | (op, x) :: rest, σ =>
    let r := x.eval σ
    let sum := L.term op (acc r.2) r.1
    Expr.evalTerms (fun _ => sum) rest r.2

/-- The operands of a logic operation up to the one that stops it; tells whether there is one. -/
def Expr.evalUntil (o : LogicOp) : List Expr → Store → Bool × Store
  | [], σ => (false, σ)
  | x :: rest, σ =>
    let r := x.eval σ
    if o.stops r.1 then (true, r.2) else Expr.evalUntil o rest r.2

def Expr.evalArgs : List Expr → Store → List Int × Store
  | [], σ => ([], σ)
  | x :: rest, σ =>
    let r := x.eval σ
    let q := Expr.evalArgs rest r.2
    (r.1 :: q.1, q.2)

end

end Evaluation

inductive Flow where
  | normal
  | broke
  | continued
  | returned (v : Option Int)
  /-- A loop has had all the turns it may take. -/
  | exhausted
deriving DecidableEq

namespace Flow

def andThen (r : Flow × Store) (next : Store → Flow × Store) : Flow × Store :=
  match r.1 with
  | normal => next r.2
  | f => (f, r.2)

/-- What the end of a turn makes of the loop: nothing if there is another turn. -/
def again? : Flow → Option Flow
  | normal => none
  | f => some f

/-- One turn of a loop. It gives where control goes after the loop, or nothing if there is another
turn. -/
def turn (guard : Store → Bool × Store) (body post : Store → Flow × Store) (σ : Store) :
    Option Flow × Store :=
  let g := guard σ
  if g.1 then
    let r := body g.2
    match r.1 with
    | normal | continued =>
      let q := post r.2
      (q.1.again?, q.2)
    | broke => (some normal, r.2)
    | f => (some f, r.2)
  else (some normal, g.2)

def iterate (turn : Store → Option Flow × Store) : Nat → Store → Flow × Store
  | 0, σ => (exhausted, σ)
  | n + 1, σ =>
    let r := turn σ
    match r.1 with
    | none => iterate turn n r.2
    | some f => (f, r.2)

/-- How a function ends whose body ends like this. -/
def halt? : Flow → Option Halt
  | normal => some (.returned none)
  | returned v => some (.returned v)
  | _ => none

end Flow

section Execution
variable (L : Language) (m : Reading)

theorem Expr.held_eval (m' : Reading) (e : Expr) (σ : Store) :
    e.held m' (e.eval L m σ).1 (e.eval L m σ).2 = (e.eval L m σ).1 := by
  cases m' with
  | strict => cases e <;> rfl
  | inPlace => cases e <;> rfl

def Expr.guard (c : Expr) (σ : Store) : Bool × Store :=
  let r := c.eval L m σ
  (c.passes r.1, r.2)

theorem Expr.eval_cond (c a b : Expr) (w : Width) (σ : Store) : (Expr.cond c a b w).eval L m σ =
    if (c.guard L m σ).1 then a.eval L m (c.guard L m σ).2 else b.eval L m (c.guard L m σ).2 := by
  rw [Expr.eval]
  rfl

theorem Expr.eval_logic {op : Bytes} {o : LogicOp} (ho : LogicOp.ofSymbol? op = some o)
    (list : List Expr) (w : Width) (σ : Store) : (Expr.logic op list w).eval L m σ =
      (o.verdict (Expr.evalUntil L m o list σ).1, (Expr.evalUntil L m o list σ).2) := by
  rw [Expr.eval, ho]

mutual

/-- Runs a statement, every loop in it for at most `n` turns at a time. -/
def Stmt.exec (n : Nat) : Stmt → Store → Flow × Store
  | .hole, σ => (.normal, σ)
  | .block list, σ => Stmt.execList n list σ
  | .expr x, σ => (.normal, (x.eval L m σ).2)
  | .store addr x, σ =>
    let r := addr.eval L m σ
    let q := x.eval L m r.2
    (.normal, q.2.withWorld (q.2.world.write (addr.held m r.1 q.2) q.1))
  | .branch c a b, σ =>
    let r := c.guard L m σ
    if r.1 then a.exec n r.2 else b.exec n r.2
  | .whileLoop c body, σ =>
    Flow.iterate (Flow.turn (c.guard L m) (body.exec n) fun σ => (.normal, σ)) n σ
  | .forLoop start c post body, σ =>
    Flow.andThen (start.exec n σ)
      (Flow.iterate (Flow.turn (c.guard L m) (body.exec n) (post.exec n)) n)
  | .breakLoop, σ => (.broke, σ)
  | .continueLoop, σ => (.continued, σ)
  | .ret x, σ =>
    let r := x.eval L m σ
    (.returned (if x.isHole then none else some r.1), r.2)
  | .stray _, σ => (.normal, σ)

def Stmt.execList (n : Nat) : List Stmt → Store → Flow × Store
  | [], σ => (.normal, σ)
  | x :: rest, σ => Flow.andThen (x.exec n σ) (Stmt.execList n rest)

end

def Decl.stmt (d : Decl) : Stmt := d.body.elim .hole .block

def Decl.behaviour (d : Decl) (σ : Store) : Behaviour where
  halts h w := ∃ n, (d.stmt.exec L m n σ).1.halt? = some h ∧ (d.stmt.exec L m n σ).2.world = w
  observed t := ∃ n, t <+: (d.stmt.exec L m n σ).2.world.trace

end Execution

end ThreeAddress
