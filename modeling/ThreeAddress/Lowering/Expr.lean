import ThreeAddress.Lowering.State

/-!
# Lowering of expressions

`Expr.lower e dst` is code that leaves the value of `e` in `dst`, or only has its effects if there
is no destination. Operands that are atoms (numbers, strings, variables and function references) are
used as they are; any other operand gets a temporary, which is taken before its code is made.
-/

namespace ThreeAddress
set_option autoImplicit false

open LowerM

/-- The operand that an atom is; none for other expressions. -/
def Expr.atom? : Expr → Option (LowerM Operand)
  | num v w => some (pure (.num v w))
  | var v => some (Operand.reg <$> regOf v)
  | str s => some (dataOf s)
  | funcRef f => some (calleeOf f)
  | _ => none

/-- An operand of an operation; `into` makes the code that leaves its value in a register. -/
def Expr.lowerOperand (e : Expr) (into : Reg → LowerM Code) : LowerM (Code × Operand) :=
  if e.isHole then fail .missingExpr
  else match e.atom? with
    | some act => do return ([], ← act)
    | none => do
      let t ← newTemp e.width
      return (← into t, .reg t)

/-- A condition, which always gets a temporary. -/
def Expr.lowerTest (e : Expr) (into : Reg → LowerM Code) : LowerM (Code × Reg) :=
  if e.isHole then fail .missingCond
  else do
    let t ← newTemp e.width
    return (← into t, t)

def LowerM.atom (k : NodeKind) (act : LowerM Operand) (dst : Option Reg) : LowerM Code := do
  let v ← act
  return .mark k :: (← give dst v)

def LowerM.unsupported {α : Type} (description : Bytes) : LowerM α :=
  within (.node description) (fail .unsupportedNode)

mutual

def Expr.lower : Expr → Option Reg → LowerM Code
  | .hole, _ => fail .missingExpr
  | .num v w, dst => atom .num (pure (.num v w)) dst
  | .str s, dst => atom .str (dataOf s) dst
  | .var v, dst => atom .var (Operand.reg <$> regOf v) dst
  | .funcRef f, dst => atom .funcRef (calleeOf f) dst
  | .unary op x w, dst =>
    match UnOp.ofSymbol? op with
    | none => unsupported (Expr.unary op x w).describe
    | some o => do
      let (cx, vx) ← within (.operator op) (x.lowerOperand fun t => x.lower (some t))
      let d ← orTemp dst w
      return .mark .unary :: cx ++ (← emit (.un o) [.reg d, vx])
  | .binary op x y w, dst =>
    match BinOp.ofSymbol? op with
    | none => unsupported (Expr.binary op x y w).describe
    | some o => do
      let (cx, vx) ← within (.leftOf op) (x.lowerOperand fun t => x.lower (some t))
      let (cy, vy) ← within (.rightOf op) (y.lowerOperand fun t => y.lower (some t))
      let d ← orTemp dst w
      return .mark .binary :: cx ++ cy ++ (← emit (.bin o) [.reg d, vx, vy])
  | .chain first [] _, dst => do
    return .mark .chain :: (← first.lower dst)
  | .chain first (t :: ts) w, dst => do
    let (cx, acc) ← within .chain (first.lowerOperand fun t => first.lower (some t))
    return .mark .chain :: cx ++
      (← Expr.lowerTerms (.chain first (t :: ts) w) w dst 0 acc (t :: ts))
  | .logic op es w, dst => do
    let d ← orTemp dst w
    match LogicOp.ofSymbol? op with
    | none => unsupported (Expr.logic op es w).describe
    | some .all =>
      let fin ← newLabel "and.end"
      let no ← emit .mov [.reg d, .num 0 w]
      let tests ← Expr.lowerTests op .brz fin 0 es
      let yes ← emit .mov [.reg d, .num 1 w]
      return .mark .logic :: no ++ tests ++ yes ++ [.defineLabel fin]
    | some .any =>
      let found ← newLabel "or.true"
      let fin ← newLabel "or.end"
      let yes ← emit .mov [.reg d, .num 1 w]
      let tests ← Expr.lowerTests op .bnz found 0 es
      let no ← emit .mov [.reg d, .num 0 w]
      return .mark .logic :: yes ++ tests ++ no ++ [.jump fin, .defineLabel found, .defineLabel fin]
  | .cond c a b _, dst => do
    let (cc, t) ← within .cond (c.lowerTest fun t => c.lower (some t))
    let other ← newLabel "cond.else"
    let fin ← newLabel "cond.end"
    let skip ← emit .brz [.label other, .reg t]
    let ca ← within .thenPart (a.lower dst)
    let cb ← within .elsePart (b.lower dst)
    return .mark .cond :: cc ++ skip ++ ca ++ [.jump fin, .defineLabel other] ++ cb ++
      [.defineLabel fin]
  | .call none args, _ => unsupported (Expr.call none args).describe
  | .call (some f) args, dst =>
    if args.length ≠ f.params.length then fail (.argCount f.name args.length f.params.length)
    else do
      let callee ← calleeOf f
      let (ca, ts) ← Expr.lowerArgs f.name 0 args f.params
      let d : Operand := match dst with
        | some r => .reg r
        | none => .nothing
      return .mark .call :: ca ++ (← emit .call (d :: callee :: ts.map .reg))
  | .assign none x, _ => unsupported (Expr.assign none x).describe
  | .assign (some v) x, dst => do
    let r ← regOf v
    let c ← match x.atom? with
      | some act => do emit .mov [.reg r, ← act]
      | none => do
        let t ← newTemp v.width
        let cx ← within (.assign v.name) (x.lower (some t))
        pure (cx ++ (← emit .mov [.reg r, .reg t]))
    return .mark .assign :: c ++ (← give dst (.reg r))
  | .load addr w, dst => do
    let (ca, va) ← within .loadAddr (addr.lowerOperand fun t => addr.lower (some t))
    let d ← orTemp dst w
    return .mark .load :: ca ++ (← emit .read [.reg d, va])
  | .foreign kind w, _ => unsupported (Expr.foreign kind w).describe

/-- The terms of the chain `whole` from term `i` on, added to `acc`. The last sum is the value of
the chain, the others get temporaries. -/
def Expr.lowerTerms (whole : Expr) (w : Width) (dst : Option Reg) (i : Nat) (acc : Operand) :
    List (Bytes × Expr) → LowerM Code
  | [] => return []
  | (op, x) :: rest =>
    match BinOp.ofChainSymbol? op with
    | none => unsupported whole.describe
    | some o => do
      let (cx, vx) ← within (.chainTerm i) (x.lowerOperand fun t => x.lower (some t))
      let d ← if rest.isEmpty then orTemp dst w else newTemp w
      let sum ← emit (.bin o) [.reg d, acc, vx]
      return cx ++ sum ++ (← Expr.lowerTerms whole w dst (i + 1) (.reg d) rest)

/-- Branches to `target` on each of the operands, from operand `i` on. -/
def Expr.lowerTests (op : Bytes) (branch : Opcode) (target : Label) (i : Nat) :
    List Expr → LowerM Code
  | [] => return []
  | x :: rest => do
    let (cx, vx) ← within (.logicOperand op i) (x.lowerOperand fun t => x.lower (some t))
    let test ← emit branch [.label target, vx]
    return cx ++ test ++ (← Expr.lowerTests op branch target (i + 1) rest)

/-- The arguments of a call from argument `i` on, each in a temporary of the width its parameter
has. -/
def Expr.lowerArgs (callee : Bytes) (i : Nat) : List Expr → List Width → LowerM (Code × List Reg)
  | x :: rest, w :: ws => do
    let t ← newTemp w
    let cx ← within (.arg callee i) (x.lower (some t))
    let (cs, ts) ← Expr.lowerArgs callee (i + 1) rest ws
    return (cx ++ cs, t :: ts)
  | _, _ => return ([], [])

end

end ThreeAddress
