import Mathlib.Logic.Relation
import ThreeAddress.Proofs.Readings

/-!
# Well-formed trees

What a tree has to be like for lowering to accept it, said of the statements and expressions that
stand in it and not of the way lowering goes through them (`Decl.WellFormed`). A statement counts
with whether it stands in the body of a loop, and an expression with whether its value is discarded.

For proofs that follow the tree, the same is said from the top down: a statement or expression is
sound if its own node is and all of its parts are (`StmtAt.sound_iff`, `ExprAt.sound_iff`).
-/

namespace ThreeAddress
set_option autoImplicit false

namespace Expr

def isRef : Expr → Bool
  | funcRef _ => true
  | _ => false

/-- There is an expression, and of a kind that has a meaning. -/
def isKnown : Expr → Bool
  | hole | foreign .. => false
  | _ => true

def hasOperators : Expr → Bool
  | unary op .. => (UnOp.ofSymbol? op).isSome
  | binary op .. => (BinOp.ofSymbol? op).isSome
  | chain _ rest _ => rest.all fun t => (BinOp.ofChainSymbol? t.1).isSome
  | logic op .. => (LogicOp.ofSymbol? op).isSome
  | _ => true

/-- A call says what it calls and has an argument for every parameter; an assignment says what it
assigns. -/
def isComplete : Expr → Bool
  | call f args => f.any fun f => args.length = f.params.length
  | assign v _ => v.isSome
  | _ => true

end Expr

/-- An expression where it stands, and whether its value is discarded there. -/
structure ExprAt where
  expr : Expr
  discarded : Bool

/-- The expressions right inside of an expression. Those that give their value for it are discarded
with it. -/
def ExprAt.parts (e : ExprAt) : List ExprAt :=
  match e.expr with
  | .chain first [] _ => [⟨first, e.discarded⟩]
  | .cond c a b _ => [⟨c, false⟩, ⟨a, e.discarded⟩, ⟨b, e.discarded⟩]
  | x => x.children.map (⟨·, false⟩)

/-- A statement where it stands, and whether that is in the body of a loop. -/
structure StmtAt where
  stmt : Stmt
  inLoop : Bool

namespace StmtAt

/-- The statements right inside of a statement. What a loop does before and between its turns is no
part of its body. -/
def parts (x : StmtAt) : List StmtAt :=
  match x.stmt with
  | .block list => list.map (⟨·, x.inLoop⟩)
  | .branch _ a b => [⟨a, x.inLoop⟩, ⟨b, x.inLoop⟩]
  | .whileLoop _ body => [⟨body, true⟩]
  | .forLoop start _ post body => [⟨start, x.inLoop⟩, ⟨post, x.inLoop⟩, ⟨body, true⟩]
  | _ => []

/-- The expressions right inside of a statement. A loop may do without a condition and a return
without a value. -/
def exprs (x : StmtAt) : List ExprAt :=
  match x.stmt with
  | .expr e => [⟨e, true⟩]
  | .store addr e => [⟨addr, false⟩, ⟨e, false⟩]
  | .branch c _ _ | .whileLoop c _ => [⟨c, false⟩]
  | .forLoop _ c _ _ => if c.isHole then [] else [⟨c, false⟩]
  | .ret e => if e.isHole then [] else [⟨e, false⟩]
  | _ => []

end StmtAt

def Stmt.isStray : Stmt → Bool
  | stray _ => true
  | _ => false

def Stmt.leavesTurn : Stmt → Bool
  | breakLoop | continueLoop => true
  | _ => false

namespace Decl

inductive HasStmt (d : Decl) : StmtAt → Prop where
  | body {list : List Stmt} {x : Stmt} : d.body = some list → x ∈ list → d.HasStmt ⟨x, false⟩
  | part {x y : StmtAt} : d.HasStmt x → y ∈ x.parts → d.HasStmt y

inductive HasExpr (d : Decl) : ExprAt → Prop where
  | stmt {x : StmtAt} {e : ExprAt} : d.HasStmt x → e ∈ x.exprs → d.HasExpr e
  | part {e y : ExprAt} : d.HasExpr e → y ∈ e.parts → d.HasExpr y

/-- The numbers of the parameters. -/
def paramIds (d : Decl) : List Int := d.header.params.filterMap (Option.map Var.id)

structure WellFormed (d : Decl) : Prop where
  params : d.paramIds.Nodup
  stmts : ∀ x, d.HasStmt x → x.stmt.isStray = false
  exprs : ∀ e, d.HasExpr e → e.expr.isKnown = true
  operators : ∀ e, d.HasExpr e → e.expr.hasOperators = true
  complete : ∀ e, d.HasExpr e → e.expr.isComplete = true
  loops : ∀ x, d.HasStmt x → x.stmt.leavesTurn = true → x.inLoop = true
  refs : ∀ e, d.HasExpr e → e.expr.isRef = true → e.discarded = true

end Decl

/-- What holds of everything inside holds of the whole and of everything inside of its parts. -/
theorem forall_inside_iff {α : Type} {parts : α → List α} {P : α → Prop} {a : α} :
    (∀ z, Relation.ReflTransGen (fun x y => y ∈ parts x) a z → P z) ↔
      P a ∧ ∀ y ∈ parts a, ∀ z, Relation.ReflTransGen (fun x y => y ∈ parts x) y z → P z := by
  constructor
  · intro h
    exact ⟨h a .refl, fun y hy z hz => h z (.head hy hz)⟩
  · rintro ⟨ha, hparts⟩ z hz
    rcases Relation.ReflTransGen.cases_head hz with rfl | ⟨y, hy, hyz⟩
    · exact ha
    · exact hparts y hy z hyz

namespace ExprAt

/-- What has to hold of the node itself. -/
structure Fits (e : ExprAt) : Prop where
  known : e.expr.isKnown = true
  operators : e.expr.hasOperators = true
  complete : e.expr.isComplete = true
  ref : e.expr.isRef = true → e.discarded = true

/-- Some or no steps from an expression to one right inside of it. -/
def Contains : ExprAt → ExprAt → Prop := Relation.ReflTransGen fun e y => y ∈ e.parts

def Sound (e : ExprAt) : Prop := ∀ y, e.Contains y → y.Fits

theorem sound_iff {e : ExprAt} : e.Sound ↔ e.Fits ∧ ∀ y ∈ e.parts, y.Sound := forall_inside_iff

theorem fits_iff {e : ExprAt} : e.Fits ↔ e.expr.isKnown = true ∧ e.expr.hasOperators = true ∧
    e.expr.isComplete = true ∧ (e.expr.isRef = true → e.discarded = true) :=
  ⟨fun ⟨hk, ho, hc, hr⟩ => ⟨hk, ho, hc, hr⟩, fun ⟨hk, ho, hc, hr⟩ => ⟨hk, ho, hc, hr⟩⟩

section
variable {discarded : Bool} {op : Bytes} {x y c a b first : Expr} {w : Width}

attribute [local simp] parts Expr.children Expr.isKnown Expr.hasOperators Expr.isComplete Expr.isRef

theorem sound_unary :
    Sound ⟨.unary op x w, discarded⟩ ↔ (UnOp.ofSymbol? op).isSome = true ∧ Sound ⟨x, false⟩ := by
  rw [sound_iff, fits_iff]
  simp

theorem sound_binary : Sound ⟨.binary op x y w, discarded⟩ ↔
    (BinOp.ofSymbol? op).isSome = true ∧ Sound ⟨x, false⟩ ∧ Sound ⟨y, false⟩ := by
  rw [sound_iff, fits_iff]
  simp

theorem sound_chain_nil : Sound ⟨.chain first [] w, discarded⟩ ↔ Sound ⟨first, discarded⟩ := by
  rw [sound_iff, fits_iff]
  simp

theorem sound_chain_cons {t : Bytes × Expr} {ts : List (Bytes × Expr)} :
    Sound ⟨.chain first (t :: ts) w, discarded⟩ ↔ Sound ⟨first, false⟩ ∧
      ∀ u ∈ t :: ts, (BinOp.ofChainSymbol? u.1).isSome = true ∧ Sound ⟨u.2, false⟩ := by
  have hparts : (∀ y ∈ parts ⟨.chain first (t :: ts) w, discarded⟩, y.Sound) ↔
      Sound ⟨first, false⟩ ∧ ∀ u ∈ t :: ts, Sound ⟨u.2, false⟩ := by
    rw [← List.forall_mem_map (f := fun u : Bytes × Expr => (⟨u.2, false⟩ : ExprAt)),
      ← List.forall_mem_cons]
    simp
  have hfits : Fits ⟨.chain first (t :: ts) w, discarded⟩ ↔
      ∀ u ∈ t :: ts, (BinOp.ofChainSymbol? u.1).isSome = true := by
    rw [fits_iff, ← List.all_eq_true]
    simp
  rw [sound_iff, hfits, hparts, forall₂_and, and_left_comm]

theorem sound_logic {list : List Expr} : Sound ⟨.logic op list w, discarded⟩ ↔
    (LogicOp.ofSymbol? op).isSome = true ∧ ∀ x ∈ list, Sound ⟨x, false⟩ := by
  rw [sound_iff, fits_iff]
  simp

theorem sound_cond : Sound ⟨.cond c a b w, discarded⟩ ↔
    Sound ⟨c, false⟩ ∧ Sound ⟨a, discarded⟩ ∧ Sound ⟨b, discarded⟩ := by
  rw [sound_iff, fits_iff]
  simp

theorem sound_call {f : FuncRef} {args : List Expr} : Sound ⟨.call (some f) args, discarded⟩ ↔
    args.length = f.params.length ∧ ∀ x ∈ args, Sound ⟨x, false⟩ := by
  rw [sound_iff, fits_iff]
  simp

theorem sound_assign {v : Var} : Sound ⟨.assign (some v) x, discarded⟩ ↔ Sound ⟨x, false⟩ := by
  rw [sound_iff, fits_iff]
  simp

theorem sound_load : Sound ⟨.load x w, discarded⟩ ↔ Sound ⟨x, false⟩ := by
  rw [sound_iff, fits_iff]
  simp

end

theorem Sound.isRef {x : Expr} (h : Sound ⟨x, false⟩) : x.isRef = false := by
  rw [Bool.eq_false_iff]
  intro hx
  cases (h _ .refl).ref hx

end ExprAt

namespace StmtAt

structure Fits (x : StmtAt) : Prop where
  stray : x.stmt.isStray = false
  loop : x.stmt.leavesTurn = true → x.inLoop = true
  exprs : ∀ e ∈ x.exprs, e.Sound

def Contains : StmtAt → StmtAt → Prop := Relation.ReflTransGen fun x y => y ∈ x.parts

def Sound (x : StmtAt) : Prop := ∀ y, x.Contains y → y.Fits

theorem sound_iff {x : StmtAt} : x.Sound ↔ x.Fits ∧ ∀ y ∈ x.parts, y.Sound := forall_inside_iff

theorem fits_iff {x : StmtAt} : x.Fits ↔
    x.stmt.isStray = false ∧ (x.stmt.leavesTurn = true → x.inLoop = true) ∧
      ∀ e ∈ x.exprs, e.Sound :=
  ⟨fun ⟨hs, hl, he⟩ => ⟨hs, hl, he⟩, fun ⟨hs, hl, he⟩ => ⟨hs, hl, he⟩⟩

section
variable {inLoop : Bool} {c e addr : Expr} {a b start post body : Stmt}

attribute [local simp] parts exprs Stmt.isStray Stmt.leavesTurn

theorem sound_hole : Sound ⟨.hole, inLoop⟩ := by
  rw [sound_iff, fits_iff]
  simp

theorem sound_block {list : List Stmt} :
    Sound ⟨.block list, inLoop⟩ ↔ ∀ x ∈ list, Sound ⟨x, inLoop⟩ := by
  rw [sound_iff, fits_iff]
  simp

theorem sound_expr : Sound ⟨.expr e, inLoop⟩ ↔ ExprAt.Sound ⟨e, true⟩ := by
  rw [sound_iff, fits_iff]
  simp

theorem sound_store :
    Sound ⟨.store addr e, inLoop⟩ ↔ ExprAt.Sound ⟨addr, false⟩ ∧ ExprAt.Sound ⟨e, false⟩ := by
  rw [sound_iff, fits_iff]
  simp

theorem sound_branch : Sound ⟨.branch c a b, inLoop⟩ ↔
    ExprAt.Sound ⟨c, false⟩ ∧ Sound ⟨a, inLoop⟩ ∧ Sound ⟨b, inLoop⟩ := by
  rw [sound_iff, fits_iff]
  simp

theorem sound_whileLoop :
    Sound ⟨.whileLoop c body, inLoop⟩ ↔ ExprAt.Sound ⟨c, false⟩ ∧ Sound ⟨body, true⟩ := by
  rw [sound_iff, fits_iff]
  simp

theorem sound_forLoop :
    Sound ⟨.forLoop start c post body, inLoop⟩ ↔ (c.isHole = false → ExprAt.Sound ⟨c, false⟩) ∧
      Sound ⟨start, inLoop⟩ ∧ Sound ⟨post, inLoop⟩ ∧ Sound ⟨body, true⟩ := by
  rw [sound_iff, fits_iff]
  cases hc : c.isHole <;> simp [hc]

theorem sound_leave {x : Stmt} (hx : x = .breakLoop ∨ x = .continueLoop) :
    Sound ⟨x, inLoop⟩ ↔ inLoop = true := by
  rw [sound_iff, fits_iff]
  rcases hx with rfl | rfl <;> simp

theorem sound_ret : Sound ⟨.ret e, inLoop⟩ ↔ (e.isHole = false → ExprAt.Sound ⟨e, false⟩) := by
  rw [sound_iff, fits_iff]
  cases he : e.isHole <;> simp [he]

end

end StmtAt

namespace Decl
variable {d : Decl}

theorem HasStmt.of_contains {x y : StmtAt} (h : d.HasStmt x) (hy : x.Contains y) : d.HasStmt y := by
  induction hy with
  | refl => exact h
  | tail _ hpart ih => exact .part ih hpart

theorem HasExpr.of_contains {e y : ExprAt} (h : d.HasExpr e) (hy : e.Contains y) : d.HasExpr y := by
  induction hy with
  | refl => exact h
  | tail _ hpart ih => exact .part ih hpart

theorem HasStmt.sound {x : StmtAt} (hx : d.HasStmt x)
    (h : ∀ list, d.body = some list → ∀ y ∈ list, StmtAt.Sound ⟨y, false⟩) : x.Sound := by
  induction hx with
  | body hlist hy => exact h _ hlist _ hy
  | part _ hpart ih => exact (StmtAt.sound_iff.mp ih).2 _ hpart

theorem HasExpr.sound {e : ExprAt} (he : d.HasExpr e)
    (h : ∀ list, d.body = some list → ∀ y ∈ list, StmtAt.Sound ⟨y, false⟩) : e.Sound := by
  induction he with
  | stmt hx hpart => exact (StmtAt.sound_iff.mp (hx.sound h)).1.exprs _ hpart
  | part _ hpart ih => exact (ExprAt.sound_iff.mp ih).2 _ hpart

theorem wellFormed_iff : d.WellFormed ↔ d.paramIds.Nodup ∧
    ∀ list, d.body = some list → ∀ x ∈ list, StmtAt.Sound ⟨x, false⟩ := by
  constructor
  · intro h
    refine ⟨h.params, fun list hlist x hx y hy => ?_⟩
    have hstmt : d.HasStmt y := (HasStmt.body hlist hx).of_contains hy
    refine ⟨h.stmts y hstmt, h.loops y hstmt, fun e he z hz => ?_⟩
    have hexpr : d.HasExpr z := (HasExpr.stmt hstmt he).of_contains hz
    exact ⟨h.exprs z hexpr, h.operators z hexpr, h.complete z hexpr, h.refs z hexpr⟩
  · rintro ⟨hparams, hsound⟩
    exact {
      params := hparams
      stmts := fun x hx => (hx.sound hsound x .refl).stray
      exprs := fun e he => (he.sound hsound e .refl).known
      operators := fun e he => (he.sound hsound e .refl).operators
      complete := fun e he => (he.sound hsound e .refl).complete
      loops := fun x hx => (hx.sound hsound x .refl).loop
      refs := fun e he => (he.sound hsound e .refl).ref }

end Decl

end ThreeAddress
