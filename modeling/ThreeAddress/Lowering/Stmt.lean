import ThreeAddress.Lowering.Expr

/-!
# Lowering of statements

Every statement but a hole starts with a mark. A loop tells the statements inside of it where to go
on a break and on a continue.
-/

namespace ThreeAddress
set_option autoImplicit false

open LowerM

/-- Where a break and a continue of the innermost loop go. -/
structure Loop where
  onBreak : Label
  onContinue : Label
deriving DecidableEq

/-- A jump out of the innermost loop or to its next turn, which needs a loop. -/
def LowerM.leave (c : Context) (k : NodeKind) (target : Option Label) : LowerM Code :=
  match target with
  | some l => return [.mark k, .jump l]
  | none => within c (fail .notInLoop)

mutual

def Stmt.lower : Stmt → Option Loop → LowerM Code
  | .hole, _ => return []
  | .block list, loop => do
    return .mark .block :: (← Stmt.lowerList loop 0 list)
  | .expr x, _ => do
    return .mark .exprStmt :: (← x.lower none)
  | .store addr x, _ => do
    let (ca, va) ← within .storeAddr (addr.lowerOperand fun t => addr.lower (some t))
    let (cx, vx) ← within .storeValue (x.lowerOperand fun t => x.lower (some t))
    return .mark .store :: ca ++ cx ++ (← emit .write [va, vx])
  | .branch c a b, loop => do
    let (cc, t) ← within .ifCond (c.lowerTest fun t => c.lower (some t))
    let fin ← newLabel "if.end"
    if b.isHole then
      let skip ← emit .brz [.label fin, .reg t]
      let ca ← within .thenPart (a.lower loop)
      return .mark .branch :: cc ++ skip ++ ca ++ [.defineLabel fin]
    else
      let other ← newLabel "if.else"
      let skip ← emit .brz [.label other, .reg t]
      let ca ← within .thenPart (a.lower loop)
      let cb ← within .elsePart (b.lower loop)
      return .mark .branch :: cc ++ skip ++ ca ++ [.jump fin, .defineLabel other] ++ cb ++
        [.defineLabel fin]
  | .whileLoop c body, _ => do
    let top ← newLabel "while.top"
    let fin ← newLabel "while.end"
    let (cc, t) ← within .whileCond (c.lowerTest fun t => c.lower (some t))
    let skip ← emit .brz [.label fin, .reg t]
    let cb ← within .whileBody (body.lower (some ⟨fin, top⟩))
    return .mark .whileLoop :: .defineLabel top :: cc ++ skip ++ cb ++ [.jump top, .defineLabel fin]
  | .forLoop start c post body, loop => do
    let cs ← within .forInit (start.lower loop)
    let top ← newLabel "for.top"
    let next ← newLabel "for.cont"
    let fin ← newLabel "for.end"
    let cc ← if c.isHole then pure [] else do
      let (cc, t) ← within .forCond (c.lowerTest fun t => c.lower (some t))
      pure (cc ++ (← emit .brz [.label fin, .reg t]))
    let cb ← within .forBody (body.lower (some ⟨fin, next⟩))
    let cp ← within .forPost (post.lower loop)
    return .mark .forLoop :: cs ++ .defineLabel top :: cc ++ cb ++ .defineLabel next :: cp ++
      [.jump top, .defineLabel fin]
  | .breakLoop, loop => leave .breakLoop .breakLoop (loop.map Loop.onBreak)
  | .continueLoop, loop => leave .continueLoop .continueLoop (loop.map Loop.onContinue)
  | .ret x, _ =>
    if x.isHole then do return .mark .ret :: (← emit .ret [])
    else do
      let (cx, vx) ← within .returned (x.lowerOperand fun t => x.lower (some t))
      return .mark .ret :: cx ++ (← emit .ret [vx])
  | .stray s, _ => unsupported s.describe

def Stmt.lowerList (loop : Option Loop) (i : Nat) : List Stmt → LowerM Code
  | [] => return []
  | s :: rest => do
    let c ← within (.stmt i) (s.lower loop)
    return c ++ (← Stmt.lowerList loop (i + 1) rest)

end

end ThreeAddress
