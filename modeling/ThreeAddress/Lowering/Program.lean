import ThreeAddress.Lowering.Stmt

/-!
# Lowering of functions and programs

A function is lowered to code that ends in a terminator and is validated before it is handed out.
The functions of a program are lowered on their own: one that fails is left out and reported, and
the others do not notice, except that label names, label numbers and string indices go on from where
it stopped.
-/

namespace ThreeAddress
set_option autoImplicit false

open LowerM

/-- The parameters get the first registers. No variable may be a parameter twice, and one that is
missing is a fault, unless a failure comes first. -/
def LowerM.declare : List (Option Var) → LowerM (Except Fault (List Param))
  | [] => return .ok []
  | none :: _ => return .error .missingNode
  | some v :: rest => do
    if ((← get).vars.lookup v.id).isSome then fail (.paramTwice v.name)
    let _ ← regOf v
    return (← declare rest).map (⟨v.width, v.name⟩ :: ·)

/-- The last instruction that is no mark lets no control through. -/
def Code.isTerminated (code : Code) : Bool :=
  match (code.filter (·.op ≠ .nop)).getLast? with
  | some x => x.op.isTerminator
  | none => false

/-- Appends a return unless control cannot reach the end. -/
def Code.terminate (code : Code) : Code :=
  if code.isTerminated then code else code ++ [.make .ret []]

theorem Code.isTerminated_terminate (code : Code) : code.terminate.isTerminated = true := by
  unfold terminate
  split
  · assumption
  · simp [isTerminated, Instr.make, Opcode.isTerminator]

namespace Decl

/-- A function before validation. -/
def lower (d : Decl) : LowerM (Except Fault Func) := do
  match ← declare d.header.params with
  | .error f => return .error f
  | .ok params =>
    let code ← match d.body with
      | some list => within .body ((Stmt.block list).lower none)
      | none => pure []
    return .ok ⟨d.header.name, d.header.ret, params, code.terminate⟩

end Decl

namespace Session

/-- Lowers a function; the session goes on whether it fails or not. -/
def lowerFunc (s : Session) (d : Decl) : Except Fault (Except Error Func × Session) :=
  match d.lower ⟨s, 0, []⟩ with
  | .error e frame => .ok (.error e, frame.session)
  | .ok r frame => do
    let f ← r
    match ← f.validate.run with
    | .ok () => return (.ok f, frame.session)
    | .error e => return (.error (e.within .verify), frame.session)

def lowerNext (s : Session) : Option Decl → Except Fault (Except Error Func × Session)
  | none => .error .missingNode
  | some d => s.lowerFunc d

/-- Lowers functions in order. Those that succeed join the program, the others the list `errs`. -/
def lowerFuncs (s : Session) (errs : Report) : File → Except Fault (Session × Report)
  | [] => .ok (s, errs)
  | none :: _ => .error .missingNode
  | some d :: rest => do
    let (r, s) ← s.lowerFunc d
    match r with
    | .ok f => ({ s with funcs := s.funcs ++ [f] } : Session).lowerFuncs errs rest
    | .error e => s.lowerFuncs (errs ++ [⟨d.header.name, e⟩]) rest

end Session

def Program.lower (file : File) : Except Fault (Program × Option Failure) := do
  let (s, errs) ← Session.empty.lowerFuncs [] file
  return (s.toProgram, errs.err)

end ThreeAddress
