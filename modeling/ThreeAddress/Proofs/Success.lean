import ThreeAddress.Proofs.WellFormedTree
import ThreeAddress.Proofs.Yields

/-!
# Where lowering succeeds

An expression is lowered exactly if it is sound where it stands (`Expr.lowerable`), and so is a
statement (`Stmt.lowerable`). There is one lemma for each form of a tree, put together as the form
is lowered. All instructions that come out are well-formed, since each is checked or needs no check.
-/

namespace ThreeAddress
set_option autoImplicit false

open LowerM

/-- The expression can be an operand, though perhaps not one that has a value. -/
def Expr.Stands (x : Expr) : Prop := x.isRef = true ∨ ExprAt.Sound ⟨x, false⟩

theorem Expr.stands_and_iff {x : Expr} : x.Stands ∧ x.isRef = false ↔ ExprAt.Sound ⟨x, false⟩ := by
  constructor
  · rintro ⟨hx | hx, href⟩
    · rw [href] at hx
      cases hx
    · exact hx
  · intro hx
    exact ⟨.inr hx, hx.isRef⟩

def Expr.Lowerable (x : Expr) : Prop :=
  ∀ dst, Yields (x.lower dst) (ExprAt.Sound ⟨x, dst.isNone⟩) Code.Checked

theorem yields_atom? {x : Expr} {act : LowerM Operand} (h : x.atom? = some act) :
    Yields act True fun v => v.isValue = !x.isRef := by
  cases x with
  | num n w =>
    cases h
    exact yields_pure rfl
  | var v =>
    cases h
    exact (yields_regOf v).map fun _ _ => rfl
  | str b =>
    cases h
    exact yields_dataOf b
  | funcRef f =>
    cases h
    refine ⟨(yields_calleeOf f).exists_ok, fun hok => ?_⟩
    obtain ⟨_, l, rfl⟩ := (yields_calleeOf f).of_ok hok
    exact ⟨trivial, rfl⟩
  | _ => cases h

theorem sound_atom {x : Expr} {act : LowerM Operand} (h : x.atom? = some act) (discarded : Bool) :
    ExprAt.Sound ⟨x, discarded⟩ ↔ (x.isRef = true → discarded = true) := by
  rw [ExprAt.sound_iff, ExprAt.fits_iff]
  cases x with
  | num | var | str | funcRef =>
    simp [ExprAt.parts, Expr.children, Expr.isKnown, Expr.hasOperators, Expr.isComplete, Expr.isRef]
  | _ => cases h

theorem lowerable_atom {x : Expr} {act : LowerM Operand} (h : x.atom? = some act) (k : NodeKind)
    (dst : Option Reg) :
    Yields (LowerM.atom k act dst) (ExprAt.Sound ⟨x, dst.isNone⟩) Code.Checked := by
  refine Yields.congr (Q := x.isRef = true → dst.isNone = true) ?_ (sound_atom h _).symm
  apply (yields_atom? h).andThen
  intro v hv
  refine ((yields_give dst v).map ?_).congr ?_
  · intro c hc
    exact Code.checked_mark.mpr hc
  · rw [hv]
    cases x.isRef <;> simp

theorem yields_lowerOperand {x : Expr} (ih : x.Lowerable) :
    Yields (x.lowerOperand fun t => x.lower (some t)) x.Stands fun r =>
      r.1.Checked ∧ r.2.isValue = !x.isRef := by
  unfold Expr.lowerOperand
  cases hhole : x.isHole with
  | true =>
    rw [Expr.eq_hole_of_isHole hhole]
    apply yields_fail
    rintro (href | hsound)
    · cases href
    · cases (hsound _ .refl).known
  | false =>
    cases hact : x.atom? with
    | some act =>
      have hstands : x.Stands := by
        cases href : x.isRef with
        | true => exact .inl href
        | false => exact .inr ((sound_atom hact false).mpr (by rw [href]; exact nofun))
      refine ((yields_atom? hact).map ?_).congr (iff_of_true trivial hstands)
      exact fun v hv => ⟨Code.checked_nil, hv⟩
    | none =>
      have href : x.isRef = false := by
        cases x with
        | funcRef => cases hact
        | _ => rfl
      refine Yields.congr (Q := ExprAt.Sound ⟨x, false⟩) ?_ (by simp [Expr.Stands, href])
      apply (yields_newTemp x.width).andThen
      intro t _
      apply (ih (some t)).map
      intro c hc
      exact ⟨hc, by rw [href]; rfl⟩

theorem yields_lowerTest {x : Expr} (ih : x.Lowerable) :
    Yields (x.lowerTest fun t => x.lower (some t)) (ExprAt.Sound ⟨x, false⟩) fun r =>
      r.1.Checked := by
  unfold Expr.lowerTest
  cases hhole : x.isHole with
  | true =>
    rw [Expr.eq_hole_of_isHole hhole]
    apply yields_fail
    intro hsound
    cases (hsound _ .refl).known
  | false =>
    apply (yields_newTemp x.width).andThen
    intro t _
    exact (ih (some t)).map fun c hc => hc

theorem yields_lowerTerms {list : List (Bytes × Expr)} (ih : ∀ t ∈ list, t.2.Lowerable)
    (whole : Expr) (w : Width) (dst : Option Reg) (i : Nat) (acc : Operand) :
    Yields (Expr.lowerTerms whole w dst i acc list) ((list ≠ [] → acc.isValue = true) ∧
      ∀ t ∈ list, (BinOp.ofChainSymbol? t.1).isSome = true ∧
        ExprAt.Sound ⟨t.2, false⟩) Code.Checked := by
  induction list generalizing i acc with
  | nil =>
    rw [Expr.lowerTerms]
    exact (yields_pure Code.checked_nil).congr (by simp)
  | cons t rest ihrest =>
    obtain ⟨op, x⟩ := t
    obtain ⟨hx, hrest⟩ := List.forall_mem_cons.mp ih
    rw [Expr.lowerTerms]
    cases ho : BinOp.ofChainSymbol? op with
    | none => exact yields_unsupported (by simp [ho])
    | some o =>
      refine Yields.congr (Q := x.Stands ∧ (acc.isValue = true ∧ x.isRef = false) ∧
        ∀ t ∈ rest, (BinOp.ofChainSymbol? t.1).isSome = true ∧ ExprAt.Sound ⟨t.2, false⟩) ?_ ?_
      · apply ((yields_lowerOperand hx).within _).bind
        rintro ⟨cx, vx⟩ ⟨hcx, hvx⟩
        have hsum (d : Reg) : (Instr.make (.bin o) [.reg d, acc, vx]).WellFormed ↔
            acc.isValue = true ∧ x.isRef = false := by
          rw [Instr.wellFormed_bin, hvx]
          simp
        have hjoin (d : Reg) : Yields (do
            let sum ← emit (.bin o) [.reg d, acc, vx]
            return cx ++ sum ++ (← Expr.lowerTerms whole w dst (i + 1) (.reg d) rest))
              ((acc.isValue = true ∧ x.isRef = false) ∧
              ∀ t ∈ rest, (BinOp.ofChainSymbol? t.1).isSome = true ∧
              ExprAt.Sound ⟨t.2, false⟩) Code.Checked := by
          apply (yields_emit (hsum d)).bind
          intro sum hsum
          refine ((ihrest hrest (i + 1) (.reg d)).map ?_).congr (and_iff_right fun _ => rfl)
          intro c hc
          exact Code.checked_append.mpr ⟨Code.checked_append.mpr ⟨hcx, hsum⟩, hc⟩
        cases rest.isEmpty with
        | true => exact (yields_orTemp dst w).andThen fun d _ => hjoin d
        | false => exact (yields_newTemp w).andThen fun d _ => hjoin d
      · rw [List.forall_mem_cons, ← Expr.stands_and_iff (x := x), ho]
        simp
        grind

theorem yields_lowerTests {list : List Expr} (ih : ∀ x ∈ list, x.Lowerable) (op : Bytes)
    {branch : Opcode} (hbranch : branch.shape? = some ⟨[.target, .value], .none⟩)
    (target : Label) (i : Nat) :
    Yields (Expr.lowerTests op branch target i list)
      (∀ x ∈ list, ExprAt.Sound ⟨x, false⟩) Code.Checked := by
  induction list generalizing i with
  | nil =>
    rw [Expr.lowerTests]
    exact (yields_pure Code.checked_nil).congr (by simp)
  | cons x rest ihrest =>
    obtain ⟨hx, hrest⟩ := List.forall_mem_cons.mp ih
    rw [Expr.lowerTests]
    refine Yields.congr
      (Q := x.Stands ∧ x.isRef = false ∧ ∀ y ∈ rest, ExprAt.Sound ⟨y, false⟩) ?_ ?_
    · apply ((yields_lowerOperand hx).within _).bind
      rintro ⟨cx, vx⟩ ⟨hcx, hvx⟩
      have htest : (Instr.make branch [.label target, vx]).WellFormed ↔ x.isRef = false := by
        rw [Instr.wellFormed_branch hbranch, hvx]
        simp
      apply (yields_emit htest).bind
      intro test htest
      apply (ihrest hrest (i + 1)).map
      intro c hc
      exact Code.checked_append.mpr ⟨Code.checked_append.mpr ⟨hcx, htest⟩, hc⟩
    · rw [← and_assoc, Expr.stands_and_iff, List.forall_mem_cons]

theorem yields_lowerArgs {list : List Expr} (ih : ∀ x ∈ list, x.Lowerable) (callee : Bytes)
    (i : Nat) {ws : List Width} (hlen : list.length = ws.length) :
    Yields (Expr.lowerArgs callee i list ws) (∀ x ∈ list, ExprAt.Sound ⟨x, false⟩) fun r =>
      r.1.Checked := by
  induction list generalizing i ws with
  | nil =>
    rw [Expr.lowerArgs]
    · exact Yields.congr (yields_pure Code.checked_nil) (by simp)
    · exact nofun
  | cons x rest ihrest =>
    obtain ⟨hx, hrest⟩ := List.forall_mem_cons.mp ih
    cases ws with
    | nil => cases hlen
    | cons w ws =>
      rw [Expr.lowerArgs]
      apply (yields_newTemp w).andThen
      intro t _
      rw [List.forall_mem_cons]
      apply ((hx (some t)).within _).bind
      intro cx hcx
      apply (ihrest hrest (i + 1) (Nat.succ.inj hlen)).map
      intro r hr
      exact Code.checked_append.mpr ⟨hcx, hr⟩

namespace Expr
variable {op : Bytes} {x y c a b addr first : Expr} {w : Width}

theorem lowerable_unary (hx : x.Lowerable) : (unary op x w).Lowerable := by
  intro dst
  rw [Expr.lower, ExprAt.sound_unary]
  cases ho : UnOp.ofSymbol? op with
  | none => exact yields_unsupported (by simp)
  | some o =>
    refine Yields.congr (Q := x.Stands ∧ x.isRef = false) ?_ (stands_and_iff.trans (by simp))
    apply ((yields_lowerOperand hx).within _).bind
    rintro ⟨cx, vx⟩ ⟨hcx, hvx⟩
    apply (yields_orTemp dst w).andThen
    intro d _
    have hun : (Instr.make (.un o) [.reg d, vx]).WellFormed ↔ x.isRef = false := by
      rw [Instr.wellFormed_into rfl, hvx]
      simp
    apply (yields_emit hun).map
    intro c hc
    exact Code.checked_mark.mpr (Code.checked_append.mpr ⟨hcx, hc⟩)

theorem lowerable_binary (hx : x.Lowerable) (hy : y.Lowerable) : (binary op x y w).Lowerable := by
  intro dst
  rw [Expr.lower, ExprAt.sound_binary, ← stands_and_iff, ← stands_and_iff]
  cases ho : BinOp.ofSymbol? op with
  | none => exact yields_unsupported (by simp)
  | some o =>
    refine Yields.congr (Q := x.Stands ∧ y.Stands ∧ x.isRef = false ∧ y.isRef = false) ?_ (by
      rw [and_iff_right Option.isSome_some, ← and_assoc]
      exact and_and_and_comm)
    apply ((yields_lowerOperand hx).within _).bind
    rintro ⟨cx, vx⟩ ⟨hcx, hvx⟩
    apply ((yields_lowerOperand hy).within _).bind
    rintro ⟨cy, vy⟩ ⟨hcy, hvy⟩
    apply (yields_orTemp dst w).andThen
    intro d _
    have hbin : (Instr.make (.bin o) [.reg d, vx, vy]).WellFormed ↔
        x.isRef = false ∧ y.isRef = false := by
      rw [Instr.wellFormed_bin, hvx, hvy]
      simp
    apply (yields_emit hbin).map
    intro c hc
    exact Code.checked_mark.mpr (Code.checked_append.mpr ⟨Code.checked_append.mpr ⟨hcx, hcy⟩, hc⟩)

theorem lowerable_chain {rest : List (Bytes × Expr)} (hfirst : first.Lowerable)
    (hrest : ∀ t ∈ rest, t.2.Lowerable) :
    (chain first rest w).Lowerable := by
  intro dst
  cases rest with
  | nil =>
    rw [Expr.lower, ExprAt.sound_chain_nil]
    apply (hfirst dst).map
    intro c hc
    exact Code.checked_mark.mpr hc
  | cons t ts =>
    rw [Expr.lower, ExprAt.sound_chain_cons, ← stands_and_iff, and_assoc]
    apply ((yields_lowerOperand hfirst).within _).bind
    rintro ⟨cx, acc⟩ ⟨hcx, hacc⟩
    refine ((yields_lowerTerms hrest _ w dst 0 acc).map ?_).congr ?_
    · intro c hc
      exact Code.checked_mark.mpr (Code.checked_append.mpr ⟨hcx, hc⟩)
    · rw [hacc]
      simp

theorem lowerable_logic {list : List Expr} (hlist : ∀ x ∈ list, x.Lowerable) :
    (logic op list w).Lowerable := by
  intro dst
  rw [Expr.lower, ExprAt.sound_logic]
  apply (yields_orTemp dst w).andThen
  intro d _
  have hmov (n : Int) : (Instr.make .mov [.reg d, .num n w]).WellFormed ↔ True :=
    (Instr.wellFormed_into rfl d _).trans (iff_of_true rfl trivial)
  cases ho : LogicOp.ofSymbol? op with
  | none => exact yields_unsupported (by simp)
  | some o =>
    refine Yields.congr (Q := (∀ x ∈ list, ExprAt.Sound ⟨x, false⟩) ∧ True) ?_ (by simp)
    cases o with
    | all =>
      apply (yields_newLabel _).andThen
      intro fin _
      apply (yields_emit (hmov 0)).andThen
      intro no hno
      apply (yields_lowerTests hlist op rfl fin 0).bind
      intro tests htests
      apply (yields_emit (hmov 1)).map
      intro yes hyes
      simpa using ⟨hno, htests, hyes⟩
    | any =>
      apply (yields_newLabel _).andThen
      intro found _
      apply (yields_newLabel _).andThen
      intro fin _
      apply (yields_emit (hmov 1)).andThen
      intro yes hyes
      apply (yields_lowerTests hlist op rfl found 0).bind
      intro tests htests
      apply (yields_emit (hmov 0)).map
      intro no hno
      simpa using ⟨hyes, htests, hno⟩

theorem lowerable_cond (hc : c.Lowerable) (ha : a.Lowerable) (hb : b.Lowerable) :
    (cond c a b w).Lowerable := by
  intro dst
  rw [Expr.lower, ExprAt.sound_cond]
  apply ((yields_lowerTest hc).within _).bind
  rintro ⟨cc, t⟩ hcc
  apply (yields_newLabel _).andThen
  intro other _
  apply (yields_newLabel _).andThen
  intro fin _
  apply (yields_emit_test other t).andThen
  intro skip hskip
  apply ((ha dst).within _).bind
  intro ca hca
  apply ((hb dst).within _).map
  intro cb hcb
  simpa using ⟨hcc, hskip, hca, hcb⟩

theorem lowerable_call {f : FuncRef} {args : List Expr} (hargs : ∀ x ∈ args, x.Lowerable) :
    (call (some f) args).Lowerable := by
  intro dst
  unfold Expr.lower
  rw [ExprAt.sound_call]
  by_cases hlen : args.length = f.params.length
  · rw [if_neg (not_not_intro hlen)]
    refine Yields.congr (Q := (∀ x ∈ args, ExprAt.Sound ⟨x, false⟩) ∧ True) ?_ (by simp [hlen])
    apply (yields_calleeOf f).andThen
    rintro _ ⟨l, rfl⟩
    apply (yields_lowerArgs hargs f.name 0 hlen).bind
    rintro ⟨ca, ts⟩ hca
    have hcall :
        (Instr.make .call (resultOf dst :: .callee l f.ret :: ts.map .reg)).WellFormed ↔ True :=
      iff_of_true (Instr.wellFormed_call dst l f.ret ts) trivial
    apply (yields_emit hcall).map
    intro c hc
    exact Code.checked_mark.mpr (Code.checked_append.mpr ⟨hca, hc⟩)
  · rw [if_pos hlen]
    exact yields_fail fun h => hlen h.1

theorem lowerable_assign {v : Var} (hx : x.Lowerable) : (assign (some v) x).Lowerable := by
  intro dst
  rw [Expr.lower, ExprAt.sound_assign]
  apply (yields_regOf v).andThen
  intro r _
  have hgive : Yields (give dst (.reg r)) True Code.Checked :=
    (yields_give dst (.reg r)).congr (iff_of_true (.inr rfl) trivial)
  cases hact : x.atom? with
  | some act =>
    apply (yields_atom? hact).andThen
    intro vx hvx
    have hmov : (Instr.make .mov [.reg r, vx]).WellFormed ↔ ExprAt.Sound ⟨x, false⟩ := by
      rw [Instr.wellFormed_into rfl, hvx, sound_atom hact]
      simp
    refine ((yields_emit hmov).bind ?_).congr (iff_of_eq (and_true _))
    intro c hc
    apply hgive.map
    intro cg hcg
    exact Code.checked_mark.mpr (Code.checked_append.mpr ⟨hc, hcg⟩)
  | none =>
    apply (yields_newTemp v.width).andThen
    intro t _
    have hmov : (Instr.make .mov [.reg r, .reg t]).WellFormed ↔ True :=
      (Instr.wellFormed_into rfl r _).trans (iff_of_true rfl trivial)
    refine (((hx (some t)).within _).bind ?_).congr (iff_of_eq (and_true _))
    intro cx hcx
    apply (yields_emit hmov).andThen
    intro c hc
    rw [pure_bind]
    apply hgive.map
    intro cg hcg
    exact Code.checked_mark.mpr (Code.checked_append.mpr ⟨Code.checked_append.mpr ⟨hcx, hc⟩, hcg⟩)

theorem lowerable_load (haddr : addr.Lowerable) : (load addr w).Lowerable := by
  intro dst
  rw [Expr.lower, ExprAt.sound_load, ← stands_and_iff]
  apply ((yields_lowerOperand haddr).within _).bind
  rintro ⟨ca, va⟩ ⟨hca, hva⟩
  apply (yields_orTemp dst w).andThen
  intro d _
  have hread : (Instr.make .read [.reg d, va]).WellFormed ↔ addr.isRef = false := by
    rw [Instr.wellFormed_into rfl, hva]
    simp
  apply (yields_emit hread).map
  intro c hc
  exact Code.checked_mark.mpr (Code.checked_append.mpr ⟨hca, hc⟩)

/-- Lowering accepts an expression exactly if it is sound where it stands. -/
theorem lowerable (e : Expr) : e.Lowerable := by
  induction e using Expr.induction with
  | h e ih =>
  cases e with
  | hole => exact fun dst => yields_fail fun h => by cases (h _ .refl).known
  | foreign => exact fun dst => yields_unsupported fun h => by cases (h _ .refl).known
  | num => exact lowerable_atom rfl _
  | str => exact lowerable_atom rfl _
  | var => exact lowerable_atom rfl _
  | funcRef => exact lowerable_atom rfl _
  | unary op x w => exact lowerable_unary (ih x (by simp [children]))
  | binary op x y w =>
    exact lowerable_binary (ih x (by simp [children])) (ih y (by simp [children]))
  | chain first rest w =>
    apply lowerable_chain (ih first List.mem_cons_self)
    intro t ht
    exact ih t.2 (List.mem_cons_of_mem _ (List.mem_map_of_mem ht))
  | logic op list w => exact lowerable_logic ih
  | cond c a b w =>
    exact lowerable_cond (ih c (by simp [children])) (ih a (by simp [children]))
      (ih b (by simp [children]))
  | call f args =>
    cases f with
    | none => exact fun dst => yields_unsupported fun h => by cases (h _ .refl).complete
    | some f => exact lowerable_call ih
  | assign v x =>
    cases v with
    | none => exact fun dst => yields_unsupported fun h => by cases (h _ .refl).complete
    | some v => exact lowerable_assign (ih x (by simp [children]))
  | load addr w => exact lowerable_load (ih addr (by simp [children]))

end Expr

def Stmt.Lowerable (x : Stmt) : Prop :=
  ∀ loop, Yields (x.lower loop) (StmtAt.Sound ⟨x, loop.isSome⟩) Code.Checked

namespace Stmt
variable {e c addr : Expr} {a b start post body : Stmt}

theorem lowerable_expr : (expr e).Lowerable := by
  intro loop
  rw [Stmt.lower, StmtAt.sound_expr]
  apply (e.lowerable none).map
  intro cx hcx
  exact Code.checked_mark.mpr hcx

theorem lowerable_store : (store addr e).Lowerable := by
  intro loop
  rw [Stmt.lower, StmtAt.sound_store, ← Expr.stands_and_iff, ← Expr.stands_and_iff,
    and_and_and_comm, and_assoc]
  apply ((yields_lowerOperand addr.lowerable).within _).bind
  rintro ⟨ca, va⟩ ⟨hca, hva⟩
  apply ((yields_lowerOperand e.lowerable).within _).bind
  rintro ⟨cx, vx⟩ ⟨hcx, hvx⟩
  have hwrite : (Instr.make .write [va, vx]).WellFormed ↔ addr.isRef = false ∧ e.isRef = false := by
    rw [Instr.wellFormed_write, hva, hvx]
    simp
  apply (yields_emit hwrite).map
  intro cw hcw
  exact Code.checked_mark.mpr (Code.checked_append.mpr ⟨Code.checked_append.mpr ⟨hca, hcx⟩, hcw⟩)

theorem lowerable_branch (ha : a.Lowerable) (hb : b.Lowerable) : (branch c a b).Lowerable := by
  intro loop
  rw [Stmt.lower, StmtAt.sound_branch]
  apply ((yields_lowerTest c.lowerable).within _).bind
  rintro ⟨cc, t⟩ hcc
  apply (yields_newLabel _).andThen
  intro fin _
  cases hhole : b.isHole with
  | true =>
    rw [eq_hole_of_isHole hhole, iff_true_intro StmtAt.sound_hole, and_true]
    apply (yields_emit_test fin t).andThen
    intro skip hskip
    apply ((ha loop).within _).map
    intro ca hca
    simpa using ⟨hcc, hskip, hca⟩
  | false =>
    apply (yields_newLabel _).andThen
    intro other _
    apply (yields_emit_test other t).andThen
    intro skip hskip
    apply ((ha loop).within _).bind
    intro ca hca
    apply ((hb loop).within _).map
    intro cb hcb
    simpa using ⟨hcc, hskip, hca, hcb⟩

theorem lowerable_whileLoop (hbody : body.Lowerable) : (whileLoop c body).Lowerable := by
  intro loop
  rw [Stmt.lower, StmtAt.sound_whileLoop]
  apply (yields_newLabel _).andThen
  intro top _
  apply (yields_newLabel _).andThen
  intro fin _
  apply ((yields_lowerTest c.lowerable).within _).bind
  rintro ⟨cc, t⟩ hcc
  apply (yields_emit_test fin t).andThen
  intro skip hskip
  apply ((hbody (some ⟨fin, top⟩)).within _).map
  intro cb hcb
  simpa using ⟨hcc, hskip, hcb⟩

theorem lowerable_forLoop (hstart : start.Lowerable) (hpost : post.Lowerable)
    (hbody : body.Lowerable) :
    (forLoop start c post body).Lowerable := by
  intro loop
  rw [Stmt.lower, StmtAt.sound_forLoop, and_left_comm, and_comm (a := StmtAt.Sound ⟨post, _⟩)]
  apply ((hstart loop).within _).bind
  intro cs hcs
  apply (yields_newLabel _).andThen
  intro top _
  apply (yields_newLabel _).andThen
  intro next _
  apply (yields_newLabel _).andThen
  intro fin _
  -- What comes after the condition is the same whether there is one or not.
  have hjoin (cc : Code) (hcc : cc.Checked) : Yields (do
      let cb ← within .forBody (body.lower (some ⟨fin, next⟩))
      let cp ← within .forPost (post.lower loop)
      return .mark .forLoop :: cs ++ .defineLabel top :: cc ++ cb ++ .defineLabel next :: cp ++
        [.jump top, .defineLabel fin])
      (StmtAt.Sound ⟨body, true⟩ ∧ StmtAt.Sound ⟨post, loop.isSome⟩) Code.Checked := by
    apply ((hbody (some ⟨fin, next⟩)).within _).bind
    intro cb hcb
    apply ((hpost loop).within _).map
    intro cp hcp
    simpa using ⟨hcs, hcc, hcb, hcp⟩
  cases hhole : c.isHole with
  | true =>
    rw [iff_true_intro (fun h => Bool.noConfusion h : true = false → ExprAt.Sound ⟨c, false⟩)]
    exact (yields_pure Code.checked_nil).bind hjoin
  | false =>
    rw [imp_iff_right rfl]
    apply ((yields_lowerTest c.lowerable).within _).bind
    rintro ⟨cc, t⟩ hcc
    apply (yields_emit_test fin t).andThen
    intro skip hskip
    exact hjoin _ (Code.checked_append.mpr ⟨hcc, hskip⟩)

theorem lowerable_ret : (ret e).Lowerable := by
  intro loop
  rw [StmtAt.sound_ret]
  unfold Stmt.lower
  cases hhole : e.isHole with
  | true =>
    have hret : (Instr.make .ret []).WellFormed ↔ True := iff_of_true rfl trivial
    refine ((yields_emit hret).map ?_).congr (by simp)
    intro cr hcr
    exact Code.checked_mark.mpr hcr
  | false =>
    refine Yields.congr (Q := e.Stands ∧ e.isRef = false) ?_ (Expr.stands_and_iff.trans (by simp))
    apply ((yields_lowerOperand e.lowerable).within _).bind
    rintro ⟨cx, vx⟩ ⟨hcx, hvx⟩
    have hret : (Instr.make .ret [vx]).WellFormed ↔ e.isRef = false := by
      rw [Instr.wellFormed_ret, hvx]
      simp
    apply (yields_emit hret).map
    intro cr hcr
    exact Code.checked_mark.mpr (Code.checked_append.mpr ⟨hcx, hcr⟩)

theorem yields_leave {x : Stmt} (hx : x = .breakLoop ∨ x = .continueLoop) (ctx : Context)
    (k : NodeKind) (loop : Option Loop) (target : Loop → Label) :
    Yields (leave ctx k (loop.map target)) (StmtAt.Sound ⟨x, loop.isSome⟩) Code.Checked := by
  rw [StmtAt.sound_leave hx]
  cases loop with
  | none => exact (yields_fail Bool.false_ne_true).within ctx
  | some l => exact (yields_pure (by simp)).congr (iff_of_true trivial rfl)

mutual

theorem lowerable : ∀ x : Stmt, x.Lowerable
  | .hole, _ => (yields_pure Code.checked_nil).congr (iff_of_true trivial StmtAt.sound_hole)
  | .block list, loop => by
    rw [Stmt.lower, StmtAt.sound_block]
    apply (lowerable_list list loop 0).map
    intro c hc
    exact Code.checked_mark.mpr hc
  | .expr _, loop => lowerable_expr loop
  | .store _ _, loop => lowerable_store loop
  | .branch _ a b, loop => lowerable_branch a.lowerable b.lowerable loop
  | .whileLoop _ body, loop => lowerable_whileLoop body.lowerable loop
  | .forLoop start _ post body, loop =>
    lowerable_forLoop start.lowerable post.lowerable body.lowerable loop
  | .breakLoop, loop => yields_leave (.inl rfl) _ _ loop _
  | .continueLoop, loop => yields_leave (.inr rfl) _ _ loop _
  | .ret _, loop => lowerable_ret loop
  | .stray _, _ => yields_unsupported fun h => by cases (h _ .refl).stray

theorem lowerable_list : ∀ (list : List Stmt) (loop : Option Loop) (i : Nat),
    Yields (lowerList loop i list) (∀ x ∈ list, StmtAt.Sound ⟨x, loop.isSome⟩) Code.Checked
  | [], _, _ => by
    rw [lowerList]
    exact (yields_pure Code.checked_nil).congr (by simp)
  | x :: rest, loop, i => by
    rw [lowerList, List.forall_mem_cons]
    apply ((x.lowerable loop).within _).bind
    intro c hc
    apply (lowerable_list rest loop (i + 1)).map
    intro cs hcs
    exact Code.checked_append.mpr ⟨hc, hcs⟩

end

end Stmt

end ThreeAddress
