import ThreeAddress.Proofs.Evaluation

/-!
# Trees whose operands hold still

Reading variables in place differs from reading them strictly only where an operand that is a
variable is assigned by the operand after it. `isSteady` says that this happens nowhere in a tree,
and on such trees the two readings are the same (`Decl.behaviour_inPlace`).

Expressions contain lists of expressions, so proofs about them go by `Expr.induction`, over the
children of a node.
-/

namespace ThreeAddress
set_option autoImplicit false

namespace Expr

/-- The expressions that a node is made of, in the order of their evaluation. -/
def children : Expr → List Expr
  | unary _ x _ => [x]
  | binary _ x y _ => [x, y]
  | chain first rest _ => first :: rest.map Prod.snd
  | logic _ list _ => list
  | cond c a b _ => [c, a, b]
  | call _ args => args
  | assign _ x => [x]
  | load addr _ => [addr]
  | hole | num .. | str _ | var _ | funcRef _ | foreign .. => []

theorem sizeOf_lt_of_mem_children {e x : Expr} (h : x ∈ e.children) : sizeOf x < sizeOf e := by
  cases e with
  | hole | num | str | var | funcRef | foreign => cases h
  | logic op list w =>
    have hx : sizeOf x < sizeOf list := List.sizeOf_lt_of_mem h
    simp only [logic.sizeOf_spec]
    omega
  | call f args =>
    have hx : sizeOf x < sizeOf args := List.sizeOf_lt_of_mem h
    simp only [call.sizeOf_spec]
    omega
  | chain first rest w =>
    simp only [chain.sizeOf_spec]
    rcases List.mem_cons.mp h with rfl | hx
    · omega
    · obtain ⟨⟨op, y⟩, hy, rfl⟩ := List.mem_map.mp hx
      have hlt := List.sizeOf_lt_of_mem hy
      simp only [Prod.mk.sizeOf_spec] at hlt
      simp only
      omega
  | unary op y w =>
    cases List.mem_singleton.mp h
    simp only [unary.sizeOf_spec]
    omega
  | binary op y z w =>
    simp only [children, List.mem_cons, List.not_mem_nil, or_false] at h
    simp only [binary.sizeOf_spec]
    rcases h with rfl | rfl <;> omega
  | cond c a b w =>
    simp only [children, List.mem_cons, List.not_mem_nil, or_false] at h
    simp only [cond.sizeOf_spec]
    rcases h with rfl | rfl | rfl <;> omega
  | assign v y =>
    cases List.mem_singleton.mp h
    simp only [assign.sizeOf_spec]
    omega
  | load y w =>
    cases List.mem_singleton.mp h
    simp only [load.sizeOf_spec]
    omega

theorem induction {P : Expr → Prop} (h : ∀ e, (∀ x ∈ e.children, P x) → P e) (e : Expr) : P e :=
  h e fun x _ => induction h x
termination_by sizeOf e
decreasing_by exact sizeOf_lt_of_mem_children ‹_›

mutual

def subexprs : Expr → List Expr
  | unary op x w => unary op x w :: x.subexprs
  | binary op x y w => binary op x y w :: (x.subexprs ++ y.subexprs)
  | chain first rest w => chain first rest w :: (first.subexprs ++ subexprsTerms rest)
  | logic op list w => logic op list w :: subexprsList list
  | cond c a b w => cond c a b w :: (c.subexprs ++ a.subexprs ++ b.subexprs)
  | call f args => call f args :: subexprsList args
  | assign v x => assign v x :: x.subexprs
  | load addr w => load addr w :: addr.subexprs
  | e => [e]

def subexprsTerms : List (Bytes × Expr) → List Expr
  | [] => []
  | (_, x) :: rest => x.subexprs ++ subexprsTerms rest

def subexprsList : List Expr → List Expr
  | [] => []
  | x :: rest => x.subexprs ++ subexprsList rest

end

theorem mem_subexprsList {list : List Expr} {y : Expr} :
    y ∈ subexprsList list ↔ ∃ x ∈ list, y ∈ x.subexprs := by
  induction list with
  | nil => simp [subexprsList]
  | cons x rest ih => simp [subexprsList, ih]

theorem mem_subexprsTerms {rest : List (Bytes × Expr)} {y : Expr} :
    y ∈ subexprsTerms rest ↔ ∃ x ∈ rest.map Prod.snd, y ∈ x.subexprs := by
  induction rest with
  | nil => simp [subexprsTerms]
  | cons t rest ih =>
    obtain ⟨op, x⟩ := t
    rw [subexprsTerms, List.mem_append, ih]
    simp

theorem mem_subexprs_iff {e y : Expr} :
    y ∈ e.subexprs ↔ y = e ∨ ∃ x ∈ e.children, y ∈ x.subexprs := by
  cases e <;> simp [subexprs, children, mem_subexprsList, mem_subexprsTerms]

/-- The variable that a node assigns. -/
def assigned? : Expr → Option Int
  | assign (some v) _ => some v.id
  | _ => none

/-- The variables that are assigned somewhere in an expression. -/
def assigned (e : Expr) : List Int := e.subexprs.filterMap assigned?

theorem assigned_subset {e x : Expr} (h : x ∈ e.children) : x.assigned ⊆ e.assigned := by
  intro id hid
  obtain ⟨y, hy, hyid⟩ := List.mem_filterMap.mp hid
  exact List.mem_filterMap.mpr ⟨y, mem_subexprs_iff.mpr (.inr ⟨x, h, hy⟩), hyid⟩

theorem mem_assigned_assign (v : Var) (x : Expr) : v.id ∈ (assign (some v) x).assigned :=
  List.mem_filterMap.mpr ⟨_, mem_subexprs_iff.mpr (.inl rfl), rfl⟩

/-- The operand `x` is no variable that the operand `y` assigns. -/
def isStillIn (x y : Expr) : Bool :=
  match x with
  | var v => !y.assigned.contains v.id
  | _ => true

/-- No operand of the node is assigned before it is used. -/
def isStill : Expr → Bool
  | binary _ x y _ => x.isStillIn y
  | chain first ((_, x) :: _) _ => first.isStillIn x
  | _ => true

def isSteady (e : Expr) : Bool := e.subexprs.all isStill

theorem isStill_of_isSteady {e : Expr} (h : e.isSteady = true) : e.isStill = true :=
  List.all_eq_true.mp h e (mem_subexprs_iff.mpr (.inl rfl))

theorem isSteady_of_mem_children {e x : Expr} (h : e.isSteady = true) (hx : x ∈ e.children) :
    x.isSteady = true :=
  List.all_eq_true.mpr fun y hy => List.all_eq_true.mp h y (mem_subexprs_iff.mpr (.inr ⟨x, hx, hy⟩))

section
variable {L : Language} {m : Reading} {id : Int}

theorem vars_evalTerms {rest : List (Bytes × Expr)}
    (h : ∀ x ∈ rest.map Prod.snd, ∀ σ : Store, (x.eval L m σ).2.vars id = σ.vars id)
    (acc : Store → Int) (σ : Store) :
    (evalTerms L m acc rest σ).2.vars id = σ.vars id := by
  induction rest generalizing acc σ with
  | nil => rfl
  | cons t rest ih =>
    obtain ⟨op, x⟩ := t
    obtain ⟨hx, hrest⟩ := List.forall_mem_cons.mp h
    rw [evalTerms, ih hrest, hx]

theorem vars_evalUntil {o : LogicOp} {list : List Expr}
    (h : ∀ x ∈ list, ∀ σ : Store, (x.eval L m σ).2.vars id = σ.vars id) (σ : Store) :
    (evalUntil L m o list σ).2.vars id = σ.vars id := by
  induction list generalizing σ with
  | nil => rfl
  | cons x rest ih =>
    obtain ⟨hx, hrest⟩ := List.forall_mem_cons.mp h
    rw [evalUntil]
    split
    · exact hx σ
    · rw [ih hrest, hx]

theorem vars_evalArgs {list : List Expr}
    (h : ∀ x ∈ list, ∀ σ : Store, (x.eval L m σ).2.vars id = σ.vars id) (σ : Store) :
    (evalArgs L m list σ).2.vars id = σ.vars id := by
  induction list generalizing σ with
  | nil => rfl
  | cons x rest ih =>
    obtain ⟨hx, hrest⟩ := List.forall_mem_cons.mp h
    rw [evalArgs, ih hrest, hx]

theorem vars_eval (e : Expr) (h : id ∉ e.assigned) (σ : Store) :
    (e.eval L m σ).2.vars id = σ.vars id := by
  induction e using Expr.induction generalizing σ with
  | h e ih =>
    have hchild : ∀ x ∈ e.children, ∀ σ : Store, (x.eval L m σ).2.vars id = σ.vars id :=
      fun x hx σ => ih x hx (fun hid => h (assigned_subset hx hid)) σ
    cases e with
    | hole | num | str | var | funcRef | foreign => rfl
    | unary op x w => exact hchild x List.mem_cons_self σ
    | binary op x y w =>
      have hx := hchild x List.mem_cons_self σ
      have hy := hchild y (List.mem_cons_of_mem x List.mem_cons_self) (x.eval L m σ).2
      rw [eval]
      exact hy.trans hx
    | chain first rest w =>
      rw [eval, vars_evalTerms fun x hx => hchild x (List.mem_cons_of_mem first hx)]
      exact hchild first List.mem_cons_self σ
    | logic op list w =>
      rw [eval]
      cases LogicOp.ofSymbol? op with
      | none => rfl
      | some o => exact vars_evalUntil hchild σ
    | cond c a b w =>
      have hc := hchild c List.mem_cons_self σ
      rw [eval]
      split
      · rw [hchild a (List.mem_cons_of_mem c List.mem_cons_self), hc]
      · rw [hchild b (List.mem_cons_of_mem c (List.mem_cons_of_mem a List.mem_cons_self)), hc]
    | call f args =>
      cases f with
      | none => exact vars_evalArgs hchild σ
      | some f => exact vars_evalArgs hchild σ
    | assign v x =>
      have hx := hchild x List.mem_cons_self σ
      cases v with
      | none => exact hx
      | some v =>
        have hne : id ≠ v.id := fun hid => h (hid ▸ mem_assigned_assign v x)
        exact (Function.update_of_ne hne _ _).trans hx
    | load addr w => exact hchild addr List.mem_cons_self σ

theorem held_of_isStillIn {x y : Expr} (h : x.isStillIn y = true) (σ : Store) (m : Reading) :
    x.held .inPlace (x.eval L m σ).1 (y.eval L m (x.eval L m σ).2).2 = (x.eval L m σ).1 := by
  cases x with
  | var v =>
    have hv : v.id ∉ y.assigned := by simpa [isStillIn] using h
    exact vars_eval y hv σ
  | _ => rfl

theorem held_strict (x : Expr) (a : Int) (σ : Store) : x.held .strict a σ = a := by
  cases x <;> rfl

theorem evalTerms_inPlace {rest : List (Bytes × Expr)}
    (h : ∀ x ∈ rest.map Prod.snd, ∀ σ : Store, x.eval L .inPlace σ = x.eval L .strict σ)
    (acc : Store → Int) (σ : Store) :
    evalTerms L .inPlace acc rest σ = evalTerms L .strict acc rest σ := by
  induction rest generalizing acc σ with
  | nil => rfl
  | cons t rest ih =>
    obtain ⟨op, x⟩ := t
    obtain ⟨hx, hrest⟩ := List.forall_mem_cons.mp h
    rw [evalTerms, evalTerms, hx, ih hrest]

theorem evalUntil_inPlace {o : LogicOp} {list : List Expr}
    (h : ∀ x ∈ list, ∀ σ : Store, x.eval L .inPlace σ = x.eval L .strict σ) (σ : Store) :
    evalUntil L .inPlace o list σ = evalUntil L .strict o list σ := by
  induction list generalizing σ with
  | nil => rfl
  | cons x rest ih =>
    obtain ⟨hx, hrest⟩ := List.forall_mem_cons.mp h
    rw [evalUntil, evalUntil, hx, ih hrest]

theorem evalArgs_inPlace {list : List Expr}
    (h : ∀ x ∈ list, ∀ σ : Store, x.eval L .inPlace σ = x.eval L .strict σ) (σ : Store) :
    evalArgs L .inPlace list σ = evalArgs L .strict list σ := by
  induction list generalizing σ with
  | nil => rfl
  | cons x rest ih =>
    obtain ⟨hx, hrest⟩ := List.forall_mem_cons.mp h
    rw [evalArgs, evalArgs, hx, ih hrest]

theorem eval_inPlace (e : Expr) (h : e.isSteady = true) (σ : Store) :
    e.eval L .inPlace σ = e.eval L .strict σ := by
  induction e using Expr.induction generalizing σ with
  | h e ih =>
    have hchild : ∀ x ∈ e.children, ∀ σ : Store, x.eval L .inPlace σ = x.eval L .strict σ :=
      fun x hx σ => ih x hx (isSteady_of_mem_children h hx) σ
    have hstill := isStill_of_isSteady h
    cases e with
    | hole | num | str | var | funcRef | foreign => rfl
    | unary op x w => rw [eval, eval, hchild x List.mem_cons_self]
    | binary op x y w =>
      have hx := hchild x List.mem_cons_self σ
      have hy := hchild y (List.mem_cons_of_mem x List.mem_cons_self) (x.eval L .strict σ).2
      rw [eval, eval, hx, hy, held_strict, held_of_isStillIn hstill]
    | chain first rest w =>
      have hfirst := hchild first List.mem_cons_self σ
      have hrest : ∀ x ∈ rest.map Prod.snd, ∀ σ : Store, x.eval L .inPlace σ = x.eval L .strict σ :=
        fun x hx => hchild x (List.mem_cons_of_mem first hx)
      rw [eval, eval, hfirst, evalTerms_inPlace hrest]
      cases rest with
      | nil => rw [evalTerms, evalTerms, held_eval, held_eval]
      | cons t rest =>
        obtain ⟨op, x⟩ := t
        rw [evalTerms, evalTerms, held_strict, held_of_isStillIn hstill]
    | logic op list w =>
      rw [eval, eval]
      cases LogicOp.ofSymbol? op with
      | none => rfl
      | some o =>
        have huntil : evalUntil L .inPlace o list σ = evalUntil L .strict o list σ :=
          evalUntil_inPlace hchild σ
        simp only [huntil]
    | cond c a b w =>
      rw [eval, eval, hchild c List.mem_cons_self,
        hchild a (List.mem_cons_of_mem c List.mem_cons_self),
        hchild b (List.mem_cons_of_mem c (List.mem_cons_of_mem a List.mem_cons_self))]
    | call f args =>
      have hargs : evalArgs L .inPlace args σ = evalArgs L .strict args σ :=
        evalArgs_inPlace hchild σ
      cases f with
      | none => rw [eval, eval, hargs]
      | some f => rw [eval, eval, hargs]
    | assign v x =>
      cases v with
      | none => rw [eval, eval, hchild x List.mem_cons_self]
      | some v => rw [eval, eval, hchild x List.mem_cons_self]
    | load addr w => rw [eval, eval, hchild addr List.mem_cons_self]

end

end Expr

mutual

/-- No operand that is a variable is assigned before it is used. -/
def Stmt.isSteady : Stmt → Bool
  | .hole | .breakLoop | .continueLoop | .stray _ => true
  | .block list => Stmt.isSteadyList list
  | .expr x | .ret x => x.isSteady
  | .store addr x => addr.isSteady && x.isSteady && addr.isStillIn x
  | .branch c a b => c.isSteady && a.isSteady && b.isSteady
  | .whileLoop c body => c.isSteady && body.isSteady
  | .forLoop start c post body => start.isSteady && c.isSteady && post.isSteady && body.isSteady

def Stmt.isSteadyList : List Stmt → Bool
  | [] => true
  | x :: rest => x.isSteady && Stmt.isSteadyList rest

end

section
variable {L : Language}

theorem Expr.guard_inPlace {c : Expr} (h : c.isSteady = true) :
    c.guard L .inPlace = c.guard L .strict := by
  funext σ
  rw [guard, guard, eval_inPlace c h]

mutual

theorem Stmt.exec_inPlace (n : Nat) :
    ∀ (x : Stmt), x.isSteady = true → x.exec L .inPlace n = x.exec L .strict n
  | .hole, _ | .breakLoop, _ | .continueLoop, _ | .stray _, _ => rfl
  | .block list, h => by
    funext σ
    rw [Stmt.exec, Stmt.exec, Stmt.execList_inPlace n list h]
  | .expr x, h => by
    funext σ
    rw [Stmt.exec, Stmt.exec, x.eval_inPlace h]
  | .ret x, h => by
    funext σ
    rw [Stmt.exec, Stmt.exec, x.eval_inPlace h]
  | .store addr x, h => by
    simp only [Stmt.isSteady, Bool.and_eq_true] at h
    obtain ⟨⟨haddr, hx⟩, hstill⟩ := h
    funext σ
    rw [Stmt.exec, Stmt.exec, addr.eval_inPlace haddr, x.eval_inPlace hx, Expr.held_strict,
      Expr.held_of_isStillIn hstill]
  | .branch c a b, h => by
    simp only [Stmt.isSteady, Bool.and_eq_true] at h
    obtain ⟨⟨hc, ha⟩, hb⟩ := h
    funext σ
    rw [Stmt.exec, Stmt.exec, Expr.guard_inPlace hc, a.exec_inPlace n ha, b.exec_inPlace n hb]
  | .whileLoop c body, h => by
    simp only [Stmt.isSteady, Bool.and_eq_true] at h
    obtain ⟨hc, hbody⟩ := h
    funext σ
    rw [Stmt.exec, Stmt.exec, Expr.guard_inPlace hc, body.exec_inPlace n hbody]
  | .forLoop start c post body, h => by
    simp only [Stmt.isSteady, Bool.and_eq_true] at h
    obtain ⟨⟨⟨hstart, hc⟩, hpost⟩, hbody⟩ := h
    funext σ
    rw [Stmt.exec, Stmt.exec, Expr.guard_inPlace hc, start.exec_inPlace n hstart,
      post.exec_inPlace n hpost, body.exec_inPlace n hbody]

theorem Stmt.execList_inPlace (n : Nat) : ∀ (list : List Stmt), Stmt.isSteadyList list = true →
    Stmt.execList L .inPlace n list = Stmt.execList L .strict n list
  | [], _ => rfl
  | x :: rest, h => by
    simp only [Stmt.isSteadyList, Bool.and_eq_true] at h
    obtain ⟨hx, hrest⟩ := h
    funext σ
    rw [Stmt.execList, Stmt.execList, x.exec_inPlace n hx, Stmt.execList_inPlace n rest hrest]

end

def Decl.isSteady (d : Decl) : Bool := d.stmt.isSteady

theorem Decl.behaviour_inPlace {d : Decl} (h : d.isSteady = true) (σ : Store) :
    d.behaviour L .inPlace σ = d.behaviour L .strict σ := by
  have hexec := fun n => d.stmt.exec_inPlace (L := L) n h
  simp only [Decl.behaviour, hexec]

end

end ThreeAddress
