import ThreeAddress.Proofs.Parallel

/-!
# Lowering in two sessions side by side

Lowering looks at the session only to make labels and to find or make entries for names and strings.
So where two sessions are coupled, a tree is lowered in both to the same code or fails in both with
the same error, up to the labels and strings that stand for each other (`Expr.parallel`,
`Stmt.parallel`, `Session.lowerFunc_parallel`). A session is coupled with itself by whatever the
three actions keep; so this is kept by functions, lowered or not (`Session.lowerFunc_keeps`). It is
coupled with one that has other functions, so that these do not matter
(`Session.lowerFunc_withFuncs`).
-/

namespace ThreeAddress
set_option autoImplicit false

open LowerM

def OperandLinked (R : Links) (x y : Code × Operand) : Prop := x.1.Linked R y.1 ∧ x.2.Linked R y.2

def TestLinked (R : Links) (x y : Code × Reg) : Prop := x.1.Linked R y.1 ∧ x.2 = y.2

def ArgsLinked (R : Links) (x y : Code × List Reg) : Prop := x.1.Linked R y.1 ∧ x.2 = y.2

namespace Expr
variable {J : Links → Session → Session → Prop} {R : Links}

/-- Whatever two coupled sessions it is lowered in, the expression does the same. -/
def Parallel (J : Links → Session → Session → Prop) (x : Expr) : Prop :=
  ∀ R dst, LowerM.Parallel J R Code.Linked (x.lower dst) (x.lower dst)

theorem parallel_atom? (hJ : Session.Coupling J) {x : Expr} {act : LowerM Operand}
    (h : x.atom? = some act) :
    LowerM.Parallel J R Operand.Linked act act := by
  cases x with
  | num n w =>
    cases h
    exact parallel_pure (.num n w)
  | var v =>
    cases h
    apply (parallel_regOf v).map
    rintro R' _ r _ rfl
    exact .reg r
  | str b =>
    cases h
    exact parallel_dataOf hJ b
  | funcRef f =>
    cases h
    exact parallel_calleeOf hJ f
  | _ => cases h

theorem parallel_atom (hJ : Session.Coupling J) {x : Expr} {act : LowerM Operand}
    (h : x.atom? = some act) (k : NodeKind) (dst : Option Reg) :
    LowerM.Parallel J R Code.Linked (LowerM.atom k act dst) (LowerM.atom k act dst) := by
  apply (parallel_atom? hJ h).bind
  intro R₁ _ v v' hv
  apply (parallel_give dst hv).map
  intro R₂ _ c c' hc
  exact hc.mark k

theorem parallel_lowerOperand (hJ : Session.Coupling J) {x : Expr} (hx : x.Parallel J) :
    LowerM.Parallel J R OperandLinked (x.lowerOperand fun t => x.lower (some t))
      (x.lowerOperand fun t => x.lower (some t)) := by
  unfold lowerOperand
  split
  · exact parallel_fail _
  · cases hact : x.atom? with
    | some act =>
      apply (parallel_atom? hJ hact).map
      intro R₁ _ v v' hv
      exact ⟨Code.linked_nil, hv⟩
    | none =>
      apply (parallel_newTemp _).bind
      rintro R₁ _ t _ rfl
      apply (hx R₁ (some t)).map
      intro R₂ _ c c' hc
      exact ⟨hc, .reg t⟩

theorem parallel_lowerTest {x : Expr} (hx : x.Parallel J) :
    LowerM.Parallel J R TestLinked (x.lowerTest fun t => x.lower (some t))
      (x.lowerTest fun t => x.lower (some t)) := by
  unfold lowerTest
  split
  · exact parallel_fail _
  · apply (parallel_newTemp _).bind
    rintro R₁ _ t _ rfl
    apply (hx R₁ (some t)).map
    intro R₂ _ c c' hc
    exact ⟨hc, rfl⟩

section
variable (hJ : Session.Coupling J) {x y : Expr}
include hJ

theorem parallel_unary (op : Bytes) (w : Width) (hx : x.Parallel J) :
    (unary op x w).Parallel J := by
  intro R dst
  rw [lower]
  cases UnOp.ofSymbol? op with
  | none => exact parallel_unsupported _
  | some o =>
    apply ((parallel_lowerOperand hJ hx).within _).bind
    rintro R₁ _ ⟨cx, vx⟩ ⟨cx', vx'⟩ ⟨hcx, hvx⟩
    apply (parallel_orTemp dst w).bind
    rintro R₂ h₂ d _ rfl
    apply (parallel_emit (.un o) (.cons (.reg d) (.cons (hvx.mono h₂) .nil))).map
    intro R₃ h₃ c c' hc
    exact ((hcx.mono (h₂.trans h₃)).mark _).append hc

theorem parallel_binary (op : Bytes) (w : Width) (hx : x.Parallel J) (hy : y.Parallel J) :
    (binary op x y w).Parallel J := by
  intro R dst
  rw [lower]
  cases BinOp.ofSymbol? op with
  | none => exact parallel_unsupported _
  | some o =>
    apply ((parallel_lowerOperand hJ hx).within _).bind
    rintro R₁ _ ⟨cx, vx⟩ ⟨cx', vx'⟩ ⟨hcx, hvx⟩
    apply ((parallel_lowerOperand hJ hy).within _).bind
    rintro R₂ h₂ ⟨cy, vy⟩ ⟨cy', vy'⟩ ⟨hcy, hvy⟩
    apply (parallel_orTemp dst w).bind
    rintro R₃ h₃ d _ rfl
    apply (parallel_emit (.bin o)
      (.cons (.reg d) (.cons (hvx.mono (h₂.trans h₃)) (.cons (hvy.mono h₃) .nil)))).map
    intro R₄ h₄ c c' hc
    exact (((hcx.mono (h₂.trans (h₃.trans h₄))).mark _).append (hcy.mono (h₃.trans h₄))).append hc

theorem parallel_logic (op : Bytes) {es : List Expr} (w : Width)
    (hes : ∀ R branch l m, R.label l m → ∀ i,
      LowerM.Parallel J R Code.Linked (lowerTests op branch l i es) (lowerTests op branch m i es)) :
    (logic op es w).Parallel J := by
  intro R dst
  rw [lower]
  apply (parallel_orTemp dst w).bind
  rintro R₁ _ d _ rfl
  have hput (R : Links) (n : Int) : LowerM.Parallel J R Code.Linked (emit .mov [.reg d, .num n w])
      (emit .mov [.reg d, .num n w]) := parallel_emit .mov (.cons (.reg d) (.cons (.num n w) .nil))
  cases LogicOp.ofSymbol? op with
  | none => exact parallel_unsupported _
  | some o =>
    cases o with
    | all =>
      apply (parallel_newLabel hJ _).bind
      intro R₂ _ fin fin' hfin
      apply (hput R₂ 0).bind
      intro R₃ h₃ no no' hno
      apply (hes R₃ .brz fin fin' (h₃.label hfin) 0).bind
      intro R₄ h₄ tests tests' htests
      apply (hput R₄ 1).map
      intro R₅ h₅ yes yes' hyes
      have hlast : Code.Linked R₅ [.defineLabel fin] [.defineLabel fin'] :=
        Code.linked_nil.defineLabel ((h₃.trans (h₄.trans h₅)).label hfin)
      exact ((((hno.mono (h₄.trans h₅)).mark _).append (htests.mono h₅)).append hyes).append hlast
    | any =>
      apply (parallel_newLabel hJ _).bind
      intro R₂ _ found found' hfound
      apply (parallel_newLabel hJ _).bind
      intro R₃ h₃ fin fin' hfin
      apply (hput R₃ 1).bind
      intro R₄ h₄ yes yes' hyes
      apply (hes R₄ .bnz found found' ((h₃.trans h₄).label hfound) 0).bind
      intro R₅ h₅ tests tests' htests
      apply (hput R₅ 0).map
      intro R₆ h₆ no no' hno
      have h₄₆ := h₄.trans (h₅.trans h₆)
      have hlast : Code.Linked R₆ [.jump fin, .defineLabel found, .defineLabel fin]
          [.jump fin', .defineLabel found', .defineLabel fin'] :=
        ((Code.linked_nil.defineLabel (h₄₆.label hfin)).defineLabel
          ((h₃.trans h₄₆).label hfound)).jump (h₄₆.label hfin)
      exact ((((hyes.mono (h₅.trans h₆)).mark _).append (htests.mono h₆)).append hno).append hlast

theorem parallel_cond {c a b : Expr} (w : Width) (hc : c.Parallel J) (ha : a.Parallel J)
    (hb : b.Parallel J) :
    (cond c a b w).Parallel J := by
  intro R dst
  rw [lower]
  apply ((parallel_lowerTest hc).within _).bind
  rintro R₁ _ ⟨cc, t⟩ ⟨cc', _⟩ ⟨hcc, rfl⟩
  apply (parallel_newLabel hJ _).bind
  intro R₂ h₂ other other' hother
  apply (parallel_newLabel hJ _).bind
  intro R₃ h₃ fin fin' hfin
  apply (parallel_emit .brz (.cons (.label (h₃.label hother)) (.cons (.reg t) .nil))).bind
  intro R₄ h₄ skip skip' hskip
  apply ((ha R₄ dst).within _).bind
  intro R₅ h₅ ca ca' hca
  apply ((hb R₅ dst).within _).map
  intro R₆ h₆ cb cb' hcb
  have h₄₆ := h₄.trans (h₅.trans h₆)
  have hmiddle : Code.Linked R₆ [.jump fin, .defineLabel other] [.jump fin', .defineLabel other'] :=
    (Code.linked_nil.defineLabel ((h₃.trans h₄₆).label hother)).jump (h₄₆.label hfin)
  have hlast : Code.Linked R₆ [.defineLabel fin] [.defineLabel fin'] :=
    Code.linked_nil.defineLabel (h₄₆.label hfin)
  exact ((((((hcc.mono (h₂.trans (h₃.trans h₄₆))).mark _).append (hskip.mono (h₅.trans h₆))).append
        (hca.mono h₆)).append hmiddle).append hcb).append hlast

theorem parallel_call (f : FuncRef) {args : List Expr} (hargs : ∀ R, LowerM.Parallel J R ArgsLinked
      (lowerArgs f.name 0 args f.params) (lowerArgs f.name 0 args f.params)) :
    (call (some f) args).Parallel J := by
  intro R dst
  unfold lower
  split
  · exact parallel_fail _
  · apply (parallel_calleeOf hJ f).bind
    intro R₁ _ callee callee' hcallee
    apply (hargs R₁).bind
    rintro R₂ h₂ ⟨ca, ts⟩ ⟨ca', _⟩ ⟨hca, rfl⟩
    have hts : List.Forall₂ (Operand.Linked R₂) (ts.map .reg) (ts.map .reg) := by
      rw [List.forall₂_map_left_iff, List.forall₂_map_right_iff]
      exact List.forall₂_same.mpr fun t _ => .reg t
    have hemit {d : Operand} (hd : d.Linked R₂ d) : LowerM.Parallel J R₂ Code.Linked
        (emit .call (d :: callee :: ts.map .reg)) (emit .call (d :: callee' :: ts.map .reg)) :=
      parallel_emit .call (.cons hd (.cons (hcallee.mono h₂) hts))
    cases dst with
    | some r =>
      apply (hemit (.reg r)).map
      intro R₃ h₃ c c' hc
      exact ((hca.mono h₃).mark _).append hc
    | none =>
      apply (hemit .nothing).map
      intro R₃ h₃ c c' hc
      exact ((hca.mono h₃).mark _).append hc

theorem parallel_assign (v : Var) (hx : x.Parallel J) : (assign (some v) x).Parallel J := by
  intro R dst
  rw [lower]
  apply (parallel_regOf v).bind
  rintro R₁ _ r _ rfl
  have hjoin (R : Links) (c c' : Code) (hc : c.Linked R c') : LowerM.Parallel J R Code.Linked
      (do return .mark .assign :: c ++ (← give dst (.reg r)))
      (do return .mark .assign :: c' ++ (← give dst (.reg r))) := by
    apply (parallel_give dst (.reg r)).map
    intro R' hle g g' hg
    exact ((hc.mono hle).mark _).append hg
  cases hact : x.atom? with
  | some act =>
    apply (parallel_atom? hJ hact).bind
    intro R₂ _ vx vx' hvx
    apply (parallel_emit .mov (.cons (.reg r) (.cons hvx .nil))).bind
    intro R₃ _ c c' hc
    exact hjoin R₃ c c' hc
  | none =>
    apply (parallel_newTemp _).bind
    rintro R₂ _ t _ rfl
    apply ((hx R₂ (some t)).within _).bind
    intro R₃ _ cx cx' hcx
    apply (parallel_emit .mov (.cons (.reg r) (.cons (.reg t) .nil))).bind
    intro R₄ h₄ c c' hc
    exact hjoin R₄ _ _ ((hcx.mono h₄).append hc)

theorem parallel_load (w : Width) (hx : x.Parallel J) : (load x w).Parallel J := by
  intro R dst
  rw [lower]
  apply ((parallel_lowerOperand hJ hx).within _).bind
  rintro R₁ _ ⟨ca, va⟩ ⟨ca', va'⟩ ⟨hca, hva⟩
  apply (parallel_orTemp dst w).bind
  rintro R₂ h₂ d _ rfl
  apply (parallel_emit .read (.cons (.reg d) (.cons (hva.mono h₂) .nil))).map
  intro R₃ h₃ c c' hc
  exact ((hca.mono (h₂.trans h₃)).mark _).append hc

theorem parallel_terms_cons (whole : Expr) (w : Width) (dst : Option Reg) (i : Nat) (op : Bytes)
    {rest : List (Bytes × Expr)} {acc acc' : Operand} (hx : x.Parallel J) (hacc : acc.Linked R acc')
    (hrest : ∀ R a b, Operand.Linked R a b → LowerM.Parallel J R Code.Linked
      (lowerTerms whole w dst (i + 1) a rest) (lowerTerms whole w dst (i + 1) b rest)) :
    LowerM.Parallel J R Code.Linked (lowerTerms whole w dst i acc ((op, x) :: rest))
      (lowerTerms whole w dst i acc' ((op, x) :: rest)) := by
  rw [lowerTerms, lowerTerms]
  cases BinOp.ofChainSymbol? op with
  | none => exact parallel_unsupported _
  | some o =>
    apply ((parallel_lowerOperand hJ hx).within _).bind
    rintro R₁ h₁ ⟨cx, vx⟩ ⟨cx', vx'⟩ ⟨hcx, hvx⟩
    have hjoin (R₂ : Links) (h₂ : R₁ ≤ R₂) (d : Reg) : LowerM.Parallel J R₂ Code.Linked
        (do
          let sum ← emit (.bin o) [.reg d, acc, vx]
          return cx ++ sum ++ (← lowerTerms whole w dst (i + 1) (.reg d) rest))
        (do
          let sum ← emit (.bin o) [.reg d, acc', vx']
          return cx' ++ sum ++ (← lowerTerms whole w dst (i + 1) (.reg d) rest)) := by
      apply (parallel_emit (.bin o)
        (.cons (.reg d) (.cons (hacc.mono (h₁.trans h₂)) (.cons (hvx.mono h₂) .nil)))).bind
      intro R₃ h₃ sum sum' hsum
      apply (hrest R₃ _ _ (.reg d)).map
      intro R₄ h₄ c c' hc
      exact ((hcx.mono (h₂.trans (h₃.trans h₄))).append (hsum.mono h₄)).append hc
    cases rest with
    | nil =>
      apply (parallel_orTemp dst w).bind
      rintro R₂ h₂ d _ rfl
      exact hjoin R₂ h₂ d
    | cons y ys =>
      apply (parallel_newTemp w).bind
      rintro R₂ h₂ d _ rfl
      exact hjoin R₂ h₂ d

theorem parallel_tests_cons (op : Bytes) (branch : Opcode) {l m : Label} (hlm : R.label l m)
    (i : Nat) {rest : List Expr} (hx : x.Parallel J) (hrest : ∀ R, R.label l m → LowerM.Parallel J R
      Code.Linked (lowerTests op branch l (i + 1) rest) (lowerTests op branch m (i + 1) rest)) :
    LowerM.Parallel J R Code.Linked (lowerTests op branch l i (x :: rest))
      (lowerTests op branch m i (x :: rest)) := by
  rw [lowerTests, lowerTests]
  apply ((parallel_lowerOperand hJ hx).within _).bind
  rintro R₁ h₁ ⟨cx, vx⟩ ⟨cx', vx'⟩ ⟨hcx, hvx⟩
  apply (parallel_emit branch (.cons (.label (h₁.label hlm)) (.cons hvx .nil))).bind
  intro R₂ h₂ test test' htest
  apply (hrest R₂ ((h₁.trans h₂).label hlm)).map
  intro R₃ h₃ c c' hc
  exact ((hcx.mono (h₂.trans h₃)).append (htest.mono h₃)).append hc

end

theorem parallel_args_cons (callee : Bytes) (i : Nat) {x : Expr} {rest : List Expr} (w : Width)
    {ws : List Width} (hx : x.Parallel J) (hrest : ∀ R, LowerM.Parallel J R ArgsLinked
      (lowerArgs callee (i + 1) rest ws) (lowerArgs callee (i + 1) rest ws)) :
    LowerM.Parallel J R ArgsLinked (lowerArgs callee i (x :: rest) (w :: ws))
      (lowerArgs callee i (x :: rest) (w :: ws)) := by
  rw [lowerArgs]
  apply (parallel_newTemp w).bind
  rintro R₁ _ t _ rfl
  apply ((hx R₁ (some t)).within _).bind
  intro R₂ _ cx cx' hcx
  apply (hrest R₂).map
  rintro R₃ h₃ ⟨cs, ts⟩ ⟨cs', _⟩ ⟨hcs, rfl⟩
  exact ⟨(hcx.mono h₃).append hcs, rfl⟩

mutual

theorem parallel (hJ : Session.Coupling J) : ∀ x : Expr, x.Parallel J
  | .hole => fun _ _ => parallel_fail _
  | .num n w => fun _ dst => parallel_atom (x := .num n w) hJ rfl _ dst
  | .str b => fun _ dst => parallel_atom (x := .str b) hJ rfl _ dst
  | .var v => fun _ dst => parallel_atom (x := .var v) hJ rfl _ dst
  | .funcRef f => fun _ dst => parallel_atom (x := .funcRef f) hJ rfl _ dst
  | .unary op x w => parallel_unary hJ op w (parallel hJ x)
  | .binary op x y w => parallel_binary hJ op w (parallel hJ x) (parallel hJ y)
  | .chain first [] w => fun R dst => by
    rw [lower]
    apply (parallel hJ first R dst).map
    intro R₁ _ c c' hc
    exact hc.mark _
  | .chain first (t :: ts) w => fun R dst => by
    rw [lower]
    apply ((parallel_lowerOperand hJ (parallel hJ first)).within _).bind
    rintro R₁ _ ⟨cx, acc⟩ ⟨cx', acc'⟩ ⟨hcx, hacc⟩
    apply (parallel_terms hJ (t :: ts) _ w dst 0 R₁ acc acc' hacc).map
    intro R₂ h₂ c c' hc
    exact ((hcx.mono h₂).mark _).append hc
  | .logic op es w =>
    parallel_logic hJ op w fun R branch l m hlm i => parallel_tests hJ es op branch l m i R hlm
  | .cond c a b w => parallel_cond hJ w (parallel hJ c) (parallel hJ a) (parallel hJ b)
  | .call none _ => fun _ _ => parallel_unsupported _
  | .call (some f) args => parallel_call hJ f fun R => parallel_args hJ args f.name 0 f.params R
  | .assign none _ => fun _ _ => parallel_unsupported _
  | .assign (some v) x => parallel_assign hJ v (parallel hJ x)
  | .load addr w => parallel_load hJ w (parallel hJ addr)
  | .foreign .. => fun _ _ => parallel_unsupported _

theorem parallel_terms (hJ : Session.Coupling J) :
    ∀ (list : List (Bytes × Expr)) (whole : Expr) (w : Width)
      (dst : Option Reg) (i : Nat) (R : Links) (acc acc' : Operand), acc.Linked R acc' →
      LowerM.Parallel J R Code.Linked (lowerTerms whole w dst i acc list)
        (lowerTerms whole w dst i acc' list)
  | [], _, _, _, _, _, _, _, _ => by
    rw [lowerTerms, lowerTerms]
    exact parallel_pure Code.linked_nil
  | (op, x) :: rest, whole, w, dst, i, R, acc, acc', hacc =>
    parallel_terms_cons hJ whole w dst i op (parallel hJ x) hacc fun R' a b hab =>
      parallel_terms hJ rest whole w dst (i + 1) R' a b hab

theorem parallel_tests (hJ : Session.Coupling J) :
    ∀ (list : List Expr) (op : Bytes) (branch : Opcode) (l m : Label)
      (i : Nat) (R : Links), R.label l m →
      LowerM.Parallel J R Code.Linked (lowerTests op branch l i list)
        (lowerTests op branch m i list)
  | [], _, _, _, _, _, _, _ => by
    rw [lowerTests, lowerTests]
    exact parallel_pure Code.linked_nil
  | x :: rest, op, branch, l, m, i, R, hlm =>
    parallel_tests_cons hJ op branch hlm i (parallel hJ x) fun R' hlm' =>
      parallel_tests hJ rest op branch l m (i + 1) R' hlm'

theorem parallel_args (hJ : Session.Coupling J) :
    ∀ (list : List Expr) (callee : Bytes) (i : Nat) (ws : List Width)
      (R : Links),
        LowerM.Parallel J R ArgsLinked (lowerArgs callee i list ws) (lowerArgs callee i list ws)
  | x :: rest, callee, i, w :: ws, _ =>
    parallel_args_cons callee i w (parallel hJ x) fun R' =>
      parallel_args hJ rest callee (i + 1) ws R'
  | [], _, _, _, _ => parallel_pure ⟨Code.linked_nil, rfl⟩
  | _ :: _, _, _, [], _ => parallel_pure ⟨Code.linked_nil, rfl⟩

end

end Expr

inductive Loop.Linked (R : Links) : Option Loop → Option Loop → Prop where
  | none : Linked R none none
  | some {l m : Loop} : R.label l.onBreak m.onBreak → R.label l.onContinue m.onContinue →
      Linked R (some l) (some m)

theorem Loop.Linked.mono {R R' : Links} {l m : Option Loop} (h : Linked R l m) (hle : R ≤ R') :
    Linked R' l m := by
  cases h with
  | none => exact .none
  | some hb hc => exact .some (hle.label hb) (hle.label hc)

namespace Stmt
variable {J : Links → Session → Session → Prop} {R : Links}

def Parallel (J : Links → Session → Session → Prop) (x : Stmt) : Prop :=
  ∀ R l m, Loop.Linked R l m → LowerM.Parallel J R Code.Linked (x.lower l) (x.lower m)

theorem parallel_leave (c : Context) (k : NodeKind) {l m : Option Label}
    (h : Option.Rel R.label l m) :
    LowerM.Parallel J R Code.Linked (leave c k l) (leave c k m) := by
  cases h with
  | some hlm => exact parallel_pure ((Code.linked_nil.jump hlm).mark k)
  | none => exact (parallel_fail _).within c

section
variable (hJ : Session.Coupling J) {c e addr : Expr} {a b start post body : Stmt}
include hJ

theorem parallel_store : (store addr e).Parallel J := by
  intro R l m _
  rw [lower, lower]
  apply ((Expr.parallel_lowerOperand hJ (addr.parallel hJ)).within _).bind
  rintro R₁ _ ⟨ca, va⟩ ⟨ca', va'⟩ ⟨hca, hva⟩
  apply ((Expr.parallel_lowerOperand hJ (e.parallel hJ)).within _).bind
  rintro R₂ h₂ ⟨cx, vx⟩ ⟨cx', vx'⟩ ⟨hcx, hvx⟩
  apply (parallel_emit .write (.cons (hva.mono h₂) (.cons hvx .nil))).map
  intro R₃ h₃ w w' hw
  exact (((hca.mono (h₂.trans h₃)).mark _).append (hcx.mono h₃)).append hw

theorem parallel_branch (ha : a.Parallel J) (hb : b.Parallel J) : (branch c a b).Parallel J := by
  intro R l m hloop
  rw [lower, lower]
  apply ((Expr.parallel_lowerTest (c.parallel hJ)).within _).bind
  rintro R₁ h₁ ⟨cc, t⟩ ⟨cc', _⟩ ⟨hcc, rfl⟩
  apply (parallel_newLabel hJ _).bind
  intro R₂ h₂ fin fin' hfin
  cases b.isHole with
  | true =>
    apply (parallel_emit .brz (.cons (.label hfin) (.cons (.reg t) .nil))).bind
    intro R₃ h₃ skip skip' hskip
    apply ((ha R₃ l m (hloop.mono (h₁.trans (h₂.trans h₃)))).within _).map
    intro R₄ h₄ ca ca' hca
    have hlast : Code.Linked R₄ [.defineLabel fin] [.defineLabel fin'] :=
      Code.linked_nil.defineLabel ((h₃.trans h₄).label hfin)
    exact ((((hcc.mono (h₂.trans (h₃.trans h₄))).mark _).append (hskip.mono h₄)).append hca).append
      hlast
  | false =>
    apply (parallel_newLabel hJ _).bind
    intro R₃ h₃ other other' hother
    apply (parallel_emit .brz (.cons (.label hother) (.cons (.reg t) .nil))).bind
    intro R₄ h₄ skip skip' hskip
    have hloop₄ := hloop.mono (h₁.trans (h₂.trans (h₃.trans h₄)))
    apply ((ha R₄ l m hloop₄).within _).bind
    intro R₅ h₅ ca ca' hca
    apply ((hb R₅ l m (hloop₄.mono h₅)).within _).map
    intro R₆ h₆ cb cb' hcb
    have h₄₆ := h₄.trans (h₅.trans h₆)
    have hmiddle :
        Code.Linked R₆ [.jump fin, .defineLabel other] [.jump fin', .defineLabel other'] :=
      (Code.linked_nil.defineLabel (h₄₆.label hother)).jump ((h₃.trans h₄₆).label hfin)
    have hlast : Code.Linked R₆ [.defineLabel fin] [.defineLabel fin'] :=
      Code.linked_nil.defineLabel ((h₃.trans h₄₆).label hfin)
    exact ((((((hcc.mono (h₂.trans (h₃.trans h₄₆))).mark _).append
          (hskip.mono (h₅.trans h₆))).append (hca.mono h₆)).append hmiddle).append hcb).append hlast

theorem parallel_whileLoop (hbody : body.Parallel J) : (whileLoop c body).Parallel J := by
  intro R l m _
  rw [lower, lower]
  apply (parallel_newLabel hJ _).bind
  intro R₁ _ top top' htop
  apply (parallel_newLabel hJ _).bind
  intro R₂ h₂ fin fin' hfin
  apply ((Expr.parallel_lowerTest (c.parallel hJ)).within _).bind
  rintro R₃ h₃ ⟨cc, t⟩ ⟨cc', _⟩ ⟨hcc, rfl⟩
  apply (parallel_emit .brz (.cons (.label (h₃.label hfin)) (.cons (.reg t) .nil))).bind
  intro R₄ h₄ skip skip' hskip
  have hloop : Loop.Linked R₄ (some ⟨fin, top⟩) (some ⟨fin', top'⟩) :=
    .some ((h₃.trans h₄).label hfin) ((h₂.trans (h₃.trans h₄)).label htop)
  apply ((hbody R₄ _ _ hloop).within _).map
  intro R₅ h₅ cb cb' hcb
  have h₃₅ := h₃.trans (h₄.trans h₅)
  have hlast : Code.Linked R₅ [.jump top, .defineLabel fin] [.jump top', .defineLabel fin'] :=
    (Code.linked_nil.defineLabel (h₃₅.label hfin)).jump ((h₂.trans h₃₅).label htop)
  exact (((((hcc.mono (h₄.trans h₅)).defineLabel ((h₂.trans h₃₅).label htop)).mark _).append
      (hskip.mono h₅)).append hcb).append hlast

theorem parallel_forLoop (hstart : start.Parallel J) (hpost : post.Parallel J)
    (hbody : body.Parallel J) :
    (forLoop start c post body).Parallel J := by
  intro R l m hloop
  rw [lower, lower]
  apply ((hstart R l m hloop).within _).bind
  intro R₁ h₁ cs cs' hcs
  apply (parallel_newLabel hJ _).bind
  intro R₂ h₂ top top' htop
  apply (parallel_newLabel hJ _).bind
  intro R₃ h₃ next next' hnext
  apply (parallel_newLabel hJ _).bind
  intro R₄ h₄ fin fin' hfin
  have hjoin (R₅ : Links) (h₅ : R₄ ≤ R₅) (cc cc' : Code) (hcc : cc.Linked R₅ cc') :
      LowerM.Parallel J R₅ Code.Linked (do
        let cb ← within .forBody (body.lower (some ⟨fin, next⟩))
        let cp ← within .forPost (post.lower l)
        return .mark .forLoop :: cs ++ .defineLabel top :: cc ++ cb ++ .defineLabel next :: cp ++
          [.jump top, .defineLabel fin])
      (do
        let cb ← within .forBody (body.lower (some ⟨fin', next'⟩))
        let cp ← within .forPost (post.lower m)
        return .mark .forLoop :: cs' ++ .defineLabel top' :: cc' ++ cb ++
          .defineLabel next' :: cp ++ [.jump top', .defineLabel fin']) := by
    have hbodyLoop : Loop.Linked R₅ (some ⟨fin, next⟩) (some ⟨fin', next'⟩) :=
      .some (h₅.label hfin) ((h₄.trans h₅).label hnext)
    apply ((hbody R₅ _ _ hbodyLoop).within _).bind
    intro R₆ h₆ cb cb' hcb
    have h₄₆ := h₄.trans (h₅.trans h₆)
    apply ((hpost R₆ l m (hloop.mono (h₁.trans (h₂.trans (h₃.trans h₄₆))))).within _).map
    intro R₇ h₇ cp cp' hcp
    have h₄₇ := h₄₆.trans h₇
    have htop₇ := (h₃.trans h₄₇).label htop
    have hlast : Code.Linked R₇ [.jump top, .defineLabel fin] [.jump top', .defineLabel fin'] :=
      (Code.linked_nil.defineLabel ((h₅.trans (h₆.trans h₇)).label hfin)).jump htop₇
    exact ((((hcs.mono (h₂.trans (h₃.trans h₄₇))).mark _).append
        ((hcc.mono (h₆.trans h₇)).defineLabel htop₇)).append
      (hcb.mono h₇)).append (hcp.defineLabel (h₄₇.label hnext)) |>.append hlast
  cases c.isHole with
  | true => exact hjoin R₄ le_rfl [] [] Code.linked_nil
  | false =>
    apply ((Expr.parallel_lowerTest (c.parallel hJ)).within _).bind
    rintro R₅ h₅ ⟨cc, t⟩ ⟨cc', _⟩ ⟨hcc, rfl⟩
    apply (parallel_emit .brz (.cons (.label (h₅.label hfin)) (.cons (.reg t) .nil))).bind
    intro R₆ h₆ skip skip' hskip
    exact hjoin R₆ (h₅.trans h₆) _ _ ((hcc.mono h₆).append hskip)

theorem parallel_ret : (ret e).Parallel J := by
  intro R l m _
  unfold lower
  split
  · apply (parallel_emit .ret .nil).map
    intro R₁ _ c c' hc
    exact hc.mark _
  · apply ((Expr.parallel_lowerOperand hJ (e.parallel hJ)).within _).bind
    rintro R₁ _ ⟨cx, vx⟩ ⟨cx', vx'⟩ ⟨hcx, hvx⟩
    apply (parallel_emit .ret (.cons hvx .nil)).map
    intro R₂ h₂ c c' hc
    exact ((hcx.mono h₂).mark _).append hc

end

mutual

theorem parallel (hJ : Session.Coupling J) : ∀ x : Stmt, x.Parallel J
  | .hole => fun _ _ _ _ => parallel_pure Code.linked_nil
  | .block list => fun R l m hloop => by
    rw [lower, lower]
    apply (parallel_list hJ list 0 R l m hloop).map
    intro R₁ _ c c' hc
    exact hc.mark _
  | .expr x => fun R _ _ _ => by
    rw [lower, lower]
    apply (x.parallel hJ R none).map
    intro R₁ _ c c' hc
    exact hc.mark _
  | .store _ _ => parallel_store hJ
  | .branch _ a b => parallel_branch hJ (parallel hJ a) (parallel hJ b)
  | .whileLoop _ body => parallel_whileLoop hJ (parallel hJ body)
  | .forLoop start _ post body =>
    parallel_forLoop hJ (parallel hJ start) (parallel hJ post) (parallel hJ body)
  | .breakLoop => fun R l m hloop => by
    rw [lower, lower]
    apply parallel_leave
    cases hloop with
    | none => exact .none
    | some hbreak _ => exact .some hbreak
  | .continueLoop => fun R l m hloop => by
    rw [lower, lower]
    apply parallel_leave
    cases hloop with
    | none => exact .none
    | some _ hcontinue => exact .some hcontinue
  | .ret _ => parallel_ret hJ
  | .stray _ => fun _ _ _ _ => parallel_unsupported _

theorem parallel_list (hJ : Session.Coupling J) :
    ∀ (list : List Stmt) (i : Nat) (R : Links) (l m : Option Loop),
      Loop.Linked R l m → LowerM.Parallel J R Code.Linked (lowerList l i list) (lowerList m i list)
  | [], _, _, _, _, _ => by
    rw [lowerList, lowerList]
    exact parallel_pure Code.linked_nil
  | x :: rest, i, R, l, m, hloop => by
    rw [lowerList, lowerList]
    apply ((parallel hJ x R l m hloop).within _).bind
    intro R₁ h₁ c c' hc
    apply (parallel_list hJ rest (i + 1) R₁ l m (hloop.mono h₁)).map
    intro R₂ h₂ cs cs' hcs
    exact (hc.mono h₂).append hcs

end

end Stmt

structure Func.Linked (R : Links) (f g : Func) : Prop where
  name : f.name = g.name
  ret : f.ret = g.ret
  params : f.params = g.params
  code : f.code.Linked R g.code

section
variable {J : Links → Session → Session → Prop} {R : Links}

theorem Code.isTerminated_eq_ops (code : Code) : code.isTerminated =
    (((code.map Instr.op).filter (· ≠ .nop)).getLast?.any Opcode.isTerminator) := by
  have hops : (code.map Instr.op).filter (· ≠ .nop) = (code.filter (·.op ≠ .nop)).map Instr.op :=
    List.filter_map
  rw [hops, List.getLast?_map]
  unfold isTerminated
  cases (code.filter (·.op ≠ .nop)).getLast? with
  | none => rfl
  | some x => rfl

theorem Code.Linked.terminate {c d : Code} (h : c.Linked R d) :
    c.terminate.Linked R d.terminate := by
  have hops : c.map Instr.op = d.map Instr.op := by
    rw [← List.forall₂_eq_eq_eq, List.forall₂_map_left_iff, List.forall₂_map_right_iff]
    exact h.imp fun _ _ hxy => hxy.op
  unfold Code.terminate
  rw [isTerminated_eq_ops, isTerminated_eq_ops, hops]
  split
  · exact h
  · exact h.append (.cons (Instr.linked_make .ret .nil) .nil)

theorem LowerM.parallel_declare (params : List (Option Var)) (R : Links) :
    LowerM.Parallel J R (fun _ => Eq) (declare params) (declare params) := by
  induction params generalizing R with
  | nil => exact parallel_pure rfl
  | cons p params ih =>
    cases p with
    | none => exact parallel_pure rfl
    | some v =>
      rw [declare]
      have hget : LowerM.Parallel J R (fun _ s t => s.vars = t.vars) (get : LowerM Frame) get :=
        fun _ _ hst => .ok le_rfl hst hst.vars
      apply hget.bind
      intro R₁ _ s t hvars
      have hjoin (R : Links) : LowerM.Parallel J R (fun _ => Eq)
          (do
            let _ ← regOf v
            return (← declare params).map ((⟨v.width, v.name⟩ : Param) :: ·))
          (do
            let _ ← regOf v
            return (← declare params).map ((⟨v.width, v.name⟩ : Param) :: ·)) := by
        apply (parallel_regOf v).bind
        intro R₂ _ _ _ _
        apply (ih R₂).map
        rintro R₃ _ r _ rfl
        rfl
      rw [hvars]
      cases (t.vars.lookup v.id).isSome with
      | true =>
        apply (parallel_fail (V := fun _ (_ _ : PUnit) => True) _).bind
        intro R₂ _ _ _ _
        exact hjoin R₂
      | false => exact hjoin R₁

/-- What lowering a function gives: faults are the same. -/
inductive Decl.Linked (R : Links) : Except Fault Func → Except Fault Func → Prop where
  | fault (e : Fault) : Linked R (.error e) (.error e)
  | func {f g : Func} : f.Linked R g → Linked R (.ok f) (.ok g)

theorem Decl.parallel (hJ : Session.Coupling J) (d : Decl) (R : Links) :
    LowerM.Parallel J R Decl.Linked d.lower d.lower := by
  rw [Decl.lower_eq]
  apply (parallel_declare _ R).bind
  rintro R₁ _ r _ rfl
  cases r with
  | error e => exact parallel_pure (.fault e)
  | ok ps =>
    apply ((d.stmt.parallel hJ R₁ none none .none).within .body).map
    intro R₂ _ c c' hc
    exact .func ⟨rfl, rfl, rfl, hc.terminate⟩

inductive Outcome.Linked (R : Links) : Except Error Func → Except Error Func → Prop where
  | error {e e' : Error} : e.Linked R e' → Linked R (.error e) (.error e')
  | func {f g : Func} : f.Linked R g → Linked R (.ok f) (.ok g)

theorem Func.Linked.eq {f g : Func} (h : f.Linked .same g) : f = g := by
  obtain ⟨name, ret, params, code⟩ := f
  obtain ⟨rfl, rfl, rfl, hcode⟩ := h
  exact congrArg (Func.mk _ _ _) (Code.Linked.eq hcode)

theorem Outcome.Linked.eq {r r' : Except Error Func} (h : Linked .same r r') : r = r' := by
  cases h with
  | error he => rw [he.eq]
  | func hfg => rw [hfg.eq]

namespace Session
variable {s t : Session} {d : Decl}

theorem lowerFunc_eq_fault {e : Fault} {fin : Frame} (h : d.lower ⟨s, 0, []⟩ = .ok (.error e) fin) :
    s.lowerFunc d = .error e := by
  unfold lowerFunc
  rw [h]
  rfl

theorem lowerFunc_parallel (hJ : Coupling J) (h : J R s t) (d : Decl) :
    (∃ e, s.lowerFunc d = .error e ∧ t.lowerFunc d = .error e) ∨
      ∃ R' r r' s' t', R ≤ R' ∧ J R' s' t' ∧ s.lowerFunc d = .ok (r, s') ∧
        t.lowerFunc d = .ok (r', t') ∧
        Outcome.Linked R' r r' := by
  have hboth := d.parallel hJ R ⟨s, 0, []⟩ ⟨t, 0, []⟩ ⟨h, rfl, rfl⟩
  generalize hs : d.lower ⟨s, 0, []⟩ = r at hboth
  generalize ht : d.lower ⟨t, 0, []⟩ = r' at hboth
  cases hboth with
  | error hle hst herror =>
    exact .inr ⟨_, _, _, _, _, hle, hst, lowerFunc_eq_error_iff.mpr ⟨_, hs, rfl⟩,
      lowerFunc_eq_error_iff.mpr ⟨_, ht, rfl⟩, .error herror⟩
  | ok hle hst hlinked =>
    cases hlinked with
    | fault e => exact .inl ⟨e, lowerFunc_eq_fault hs, lowerFunc_eq_fault ht⟩
    | func hfg =>
      exact .inr
        ⟨_, _, _, _, _, hle, hst.session, lowerFunc_of_lower hs, lowerFunc_of_lower ht, .func hfg⟩

/-- A property of sessions that the three actions keep. -/
structure Closed (I : Session → Prop) : Prop where
  addLabel : ∀ {s}, I s → ∀ base, I (s.addLabel base)
  addName : ∀ {s}, I s → ∀ name, I (s.addName name)
  addString : ∀ {s}, I s → ∀ b, I (s.addString b)

theorem Closed.coupling {I : Session → Prop} (hI : Closed I) :
    Coupling fun R s t => s = t ∧ I s ∧ (∀ l, R.label l l) ∧ ∀ i, R.string i i where
  addLabel := by
    rintro R s _ ⟨rfl, hs, hlabel, hstring⟩ base
    exact ⟨R, le_rfl, hlabel _, rfl, hI.addLabel hs base, hlabel, hstring⟩
  addName := by
    rintro R s _ ⟨rfl, hs, hlabel, hstring⟩ name
    exact ⟨R, le_rfl, hlabel _, rfl, hI.addName hs name, hlabel, hstring⟩
  addString := by
    rintro R s _ ⟨rfl, hs, hlabel, hstring⟩ b
    exact ⟨R, le_rfl, hstring _, rfl, hI.addString hs b, hlabel, hstring⟩

theorem lowerFunc_keeps {I : Session → Prop} (hI : Closed I) {s' : Session} {r : Except Error Func}
    (h : s.lowerFunc d = .ok (r, s')) (hs : I s) : I s' := by
  rcases lowerFunc_parallel hI.coupling (R := ⟨Eq, Eq⟩) ⟨rfl, hs, fun _ => rfl, fun _ => rfl⟩ d with
    ⟨e, he, _⟩ | ⟨_, _, _, _, _, _, ⟨_, hs', _, _⟩, hlower, _, _⟩
  · rw [h] at he
    cases he
  · rw [h] at hlower
    cases hlower
    exact hs'

def withFuncs (s : Session) (fs : List Func) : Session := { s with funcs := fs }

theorem coupling_withFuncs (fs : List Func) :
    Coupling fun R s t => R = .same ∧ t = s.withFuncs fs where
  addLabel := by
    rintro R s _ ⟨rfl, rfl⟩ base
    exact ⟨_, le_rfl, rfl, rfl, rfl⟩
  addName := by
    rintro R s _ ⟨rfl, rfl⟩ name
    exact ⟨_, le_rfl, rfl, rfl, rfl⟩
  addString := by
    rintro R s _ ⟨rfl, rfl⟩ b
    exact ⟨_, le_rfl, rfl, rfl, rfl⟩

/-- Functions are lowered without a look at those that there are. -/
theorem lowerFunc_withFuncs {s' : Session} {r : Except Error Func} (h : s.lowerFunc d = .ok (r, s'))
    (fs : List Func) :
    (s.withFuncs fs).lowerFunc d = .ok (r, s'.withFuncs fs) := by
  rcases lowerFunc_parallel (coupling_withFuncs fs) (R := .same) ⟨rfl, rfl⟩ d with
    ⟨e, he, _⟩ | ⟨_, _, _, _, _, _, ⟨rfl, rfl⟩, hlower, hother, hlinked⟩
  · rw [h] at he
    cases he
  · rw [h] at hlower
    cases hlower
    rw [hother, hlinked.eq]

end Session

end

end ThreeAddress
