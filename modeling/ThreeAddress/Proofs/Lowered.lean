import ThreeAddress.Proofs.Frames

/-!
# What lowering makes of a tree

`Lowers p s c s'` says, one rule for each form of a tree, which code `c` a part `p` of an expression
becomes when the frame is `s`, and which frame `s'` this leaves; `LowersBody` says the same of
statements. Every lowering that succeeds is described by these rules (`Expr.lowers`, `Stmt.lowers`),
so that facts about lowered code are inductions over them and never look at the order in which
lowering may fail.

Frames only grow: variables, strings and functions keep what they were given, and temporaries are
never handed out twice.
-/

namespace ThreeAddress
set_option autoImplicit false

open LowerM

/-- The move of `v` to the destination, if there is one. -/
def given (dst : Option Reg) (v : Operand) : Code :=
  match dst with
  | some r => [.make .mov [.reg r, v]]
  | none => []

/-- The place where a call leaves its result. -/
def resultOf (dst : Option Reg) : Operand :=
  match dst with
  | some r => .reg r
  | none => .nothing

/-- The parts of an expression that are lowered by rules of their own. -/
inductive Part where
  /-- An expression whose value is wanted in `dst`. -/
  | value (e : Expr) (dst : Option Reg)
  /-- An expression whose value gets the new temporary `t`, of width `w`. -/
  | fresh (e : Expr) (w : Width) (t : Reg)
  /-- An operand of an operation, which reads it as `v`. -/
  | operand (e : Expr) (v : Operand)
  /-- The terms of a chain that are added to `acc`. -/
  | terms (w : Width) (dst : Option Reg) (acc : Operand) (list : List (Bytes × Expr))
  /-- The operands of a logic operation that are tested one after the other. -/
  | tests (branch : Opcode) (target : Label) (list : List Expr)
  /-- A condition without which control goes to `target`. -/
  | guard (e : Expr) (target : Label)
  /-- The arguments of a call, left in `ts`. -/
  | args (list : List Expr) (ws : List Width) (ts : List Reg)

inductive Lowers : Part → Frame → Code → Frame → Prop where
  | atom {e : Expr} {act : LowerM Operand} {k : NodeKind} {dst : Option Reg} {v : Operand}
      {s s' : Frame} : e.atom? = some act → act s = .ok v s' →
      Lowers (.value e dst) s (.mark k :: given dst v) s'
  | unary {op : Bytes} {o : UnOp} {x : Expr} {w : Width} {dst : Option Reg} {vx : Operand} {d : Reg}
      {cx : Code} {s s₁ s' : Frame} : UnOp.ofSymbol? op = some o → Lowers (.operand x vx) s cx s₁ →
      orTemp dst w s₁ = .ok d s' → Lowers (.value (.unary op x w) dst) s
      (.mark .unary :: (cx ++ [.make (.un o) [.reg d, vx]])) s'
  | binary {op : Bytes} {o : BinOp} {x y : Expr} {w : Width} {dst : Option Reg} {vx vy : Operand}
      {d : Reg} {cx cy : Code} {s s₁ s₂ s' : Frame} : BinOp.ofSymbol? op = some o →
      Lowers (.operand x vx) s cx s₁ → Lowers (.operand y vy) s₁ cy s₂ →
      orTemp dst w s₂ = .ok d s' → Lowers (.value (.binary op x y w) dst) s
      (.mark .binary :: (cx ++ (cy ++ [.make (.bin o) [.reg d, vx, vy]]))) s'
  | chainOne {first : Expr} {w : Width} {dst : Option Reg} {c : Code} {s s' : Frame} : Lowers
      (.value first dst) s c s' → Lowers (.value (.chain first [] w) dst) s (.mark .chain :: c) s'
  | chain {first : Expr} {rest : List (Bytes × Expr)} {w : Width} {dst : Option Reg} {acc : Operand}
      {cx ct : Code} {s s₁ s' : Frame} :
      rest ≠ [] → Lowers (.operand first acc) s cx s₁ → Lowers (.terms w dst acc rest) s₁ ct s' →
      Lowers (.value (.chain first rest w) dst) s (.mark .chain :: (cx ++ ct)) s'
  | all {op : Bytes} {es : List Expr} {w : Width} {dst : Option Reg} {d : Reg} {fin : Label}
      {ct : Code} {s s₁ s₂ s' : Frame} : LogicOp.ofSymbol? op = some .all → orTemp dst w s =
      .ok d s₁ → newLabel "and.end" s₁ = .ok fin s₂ → Lowers (.tests .brz fin es) s₂ ct s' →
      Lowers (.value (.logic op es w) dst) s (.mark .logic :: .make .mov [.reg d, .num 0 w] ::
      (ct ++ [.make .mov [.reg d, .num 1 w], .defineLabel fin])) s'
  | any {op : Bytes} {es : List Expr} {w : Width} {dst : Option Reg} {d : Reg} {found fin : Label}
      {ct : Code} {s s₁ s₂ s₃ s' : Frame} : LogicOp.ofSymbol? op = some .any →
      orTemp dst w s = .ok d s₁ → newLabel "or.true" s₁ = .ok found s₂ →
      newLabel "or.end" s₂ = .ok fin s₃ → Lowers (.tests .bnz found es) s₃ ct s' →
      Lowers (.value (.logic op es w) dst) s (.mark .logic :: .make .mov [.reg d, .num 1 w] ::
      (ct ++ [.make .mov [.reg d, .num 0 w], .jump fin, .defineLabel found, .defineLabel fin])) s'
  | cond {c a b : Expr} {w : Width} {dst : Option Reg} {other fin : Label} {cc ca cb : Code}
      {s s₁ s₂ s₃ s₄ s' : Frame} : Lowers (.guard c other) s cc s₁ → newLabel "cond.else" s₁ =
      .ok other s₂ → newLabel "cond.end" s₂ = .ok fin s₃ → Lowers (.value a dst) s₃ ca s₄ →
      Lowers (.value b dst) s₄ cb s' → Lowers (.value (.cond c a b w) dst) s (.mark
      .cond :: (cc ++ (ca ++ .jump fin :: .defineLabel other :: (cb ++ [.defineLabel fin])))) s'
  | call {f : FuncRef} {args : List Expr} {dst : Option Reg} {callee : Operand} {ts : List Reg}
      {ca : Code} {s s₁ s' : Frame} : calleeOf f s = .ok callee s₁ →
      Lowers (.args args f.params ts) s₁ ca s' → Lowers (.value (.call (some f) args) dst) s
      (.mark .call :: (ca ++ [.make .call (resultOf dst :: callee :: ts.map .reg)])) s'
  | assignAtom {v : Var} {x : Expr} {act : LowerM Operand} {dst : Option Reg} {r : Reg}
      {vx : Operand} {s s₁ s' : Frame} : x.atom? = some act → regOf v s = .ok r s₁ →
      act s₁ = .ok vx s' → Lowers (.value (.assign (some v) x) dst) s
      (.mark .assign :: .make .mov [.reg r, vx] :: given dst (.reg r)) s'
  | assign {v : Var} {x : Expr} {dst : Option Reg} {r t : Reg} {cx : Code} {s s₁ s' : Frame} :
      x.atom? = none → regOf v s = .ok r s₁ → Lowers (.fresh x v.width t) s₁ cx s' →
      Lowers (.value (.assign (some v) x) dst) s
        (.mark .assign :: (cx ++ .make .mov [.reg r, .reg t] :: given dst (.reg r))) s'
  | load {addr : Expr} {w : Width} {dst : Option Reg} {va : Operand} {d : Reg} {ca : Code}
      {s s₁ s' : Frame} : Lowers (.operand addr va) s ca s₁ → orTemp dst w s₁ = .ok d s' →
      Lowers (.value (.load addr w) dst) s (.mark .load :: (ca ++ [.make .read [.reg d, va]])) s'
  | fresh {e : Expr} {w : Width} {t : Reg} {c : Code} {s s₁ s' : Frame} :
      newTemp w s = .ok t s₁ → Lowers (.value e (some t)) s₁ c s' → Lowers (.fresh e w t) s c s'
  | operandAtom {e : Expr} {act : LowerM Operand} {v : Operand} {s s' : Frame} :
      e.atom? = some act → act s = .ok v s' → Lowers (.operand e v) s [] s'
  | operand {e : Expr} {t : Reg} {c : Code} {s s' : Frame} :
      e.atom? = none → Lowers (.fresh e e.width t) s c s' → Lowers (.operand e (.reg t)) s c s'
  | termsLast {op : Bytes} {o : BinOp} {x : Expr} {w : Width} {dst : Option Reg} {acc vx : Operand}
      {d : Reg} {cx : Code} {s s₁ s' : Frame} : BinOp.ofChainSymbol? op = some o →
      Lowers (.operand x vx) s cx s₁ → orTemp dst w s₁ = .ok d s' →
      Lowers (.terms w dst acc [(op, x)]) s (cx ++ [.make (.bin o) [.reg d, acc, vx]]) s'
  | termsMore {op : Bytes} {o : BinOp} {x : Expr} {rest : List (Bytes × Expr)} {w : Width}
      {dst : Option Reg} {acc vx : Operand} {t : Reg} {cx ct : Code} {s s₁ s₂ s' : Frame} :
      BinOp.ofChainSymbol? op = some o → rest ≠ [] → Lowers (.operand x vx) s cx s₁ →
      newTemp w s₁ = .ok t s₂ → Lowers (.terms w dst (.reg t) rest) s₂ ct s' → Lowers
      (.terms w dst acc ((op, x) :: rest)) s (cx ++ .make (.bin o) [.reg t, acc, vx] :: ct) s'
  | testsNil {branch : Opcode} {target : Label} {s : Frame} : Lowers
      (.tests branch target []) s [] s
  | testsCons {branch : Opcode} {target : Label} {x : Expr} {rest : List Expr} {vx : Operand}
      {cx ct : Code} {s s₁ s' : Frame} : Lowers (.operand x vx) s cx s₁ →
      Lowers (.tests branch target rest) s₁ ct s' →
      Lowers (.tests branch target (x :: rest)) s (cx ++ .make branch [.label target, vx] :: ct) s'
  | guardHole {target : Label} {s : Frame} : Lowers (.guard .hole target) s [] s
  | guard {e : Expr} {target : Label} {t : Reg} {c : Code} {s s' : Frame} :
      e.isHole = false → Lowers (.fresh e e.width t) s c s' →
      Lowers (.guard e target) s (c ++ [.make .brz [.label target, .reg t]]) s'
  | argsNil {s : Frame} : Lowers (.args [] [] []) s [] s
  | argsCons {x : Expr} {rest : List Expr} {w : Width} {ws : List Width} {t : Reg} {ts : List Reg}
      {cx cs : Code} {s s₁ s' : Frame} : Lowers (.fresh x w t) s cx s₁ → Lowers
      (.args rest ws ts) s₁ cs s' → Lowers (.args (x :: rest) (w :: ws) (t :: ts)) s (cx ++ cs) s'

namespace LowerM
variable {β : Type} {s s' : Frame}

theorem emit_eq_ok {op : Opcode} {args : List Operand} {c : Code} (h : emit op args s = .ok c s') :
    c = [.make op args] ∧ s' = s := by
  unfold emit at h
  cases hcheck : (Instr.make op args).check with
  | ok =>
    rw [hcheck] at h
    obtain ⟨hc, hs⟩ := pure_eq_ok_iff.mp h
    exact ⟨hc.symm, hs.symm⟩
  | error e =>
    rw [hcheck] at h
    cases h

theorem give_eq_ok {dst : Option Reg} {v : Operand} {c : Code} (h : give dst v s = .ok c s') :
    c = given dst v ∧ s' = s := by
  cases dst with
  | some r => exact emit_eq_ok h
  | none =>
    obtain ⟨hc, hs⟩ := pure_eq_ok_iff.mp h
    exact ⟨hc.symm, hs.symm⟩

theorem emit_bind_eq_ok {op : Opcode} {args : List Operand} {f : Code → LowerM β} {b : β}
    (h : (emit op args >>= f) s = .ok b s') : f [.make op args] s = .ok b s' := by
  obtain ⟨c, s₁, he, hf⟩ := bind_eq_ok_iff.mp h
  obtain ⟨rfl, rfl⟩ := emit_eq_ok he
  exact hf

theorem give_bind_eq_ok {dst : Option Reg} {v : Operand} {f : Code → LowerM β} {b : β}
    (h : (give dst v >>= f) s = .ok b s') : f (given dst v) s = .ok b s' := by
  obtain ⟨c, s₁, hg, hf⟩ := bind_eq_ok_iff.mp h
  obtain ⟨rfl, rfl⟩ := give_eq_ok hg
  exact hf

end LowerM

section Success
variable {s s' : Frame} {c : Code}

theorem lowers_operand {x : Expr} {v : Operand}
    (ih : ∀ {dst s c s'}, x.lower dst s = .ok c s' → Lowers (.value x dst) s c s')
    (h : x.lowerOperand (fun t => x.lower (some t)) s = .ok (c, v) s') :
    Lowers (.operand x v) s c s' := by
  unfold Expr.lowerOperand at h
  split at h
  · exact absurd h fail_ne_ok
  cases hact : x.atom? with
  | some act =>
    rw [hact] at h
    obtain ⟨a, s₁, ha, hpure⟩ := bind_eq_ok_iff.mp h
    obtain ⟨⟨⟩, rfl⟩ := pure_eq_ok_iff.mp hpure
    exact .operandAtom hact ha
  | none =>
    rw [hact] at h
    obtain ⟨t, s₁, ht, h⟩ := bind_eq_ok_iff.mp h
    obtain ⟨cx, s₂, hx, hpure⟩ := bind_eq_ok_iff.mp h
    obtain ⟨⟨⟩, rfl⟩ := pure_eq_ok_iff.mp hpure
    exact .operand hact (.fresh ht (ih hx))

theorem lowers_guard {x : Expr} {t : Reg} (target : Label)
    (ih : ∀ {dst s c s'}, x.lower dst s = .ok c s' → Lowers (.value x dst) s c s')
    (h : x.lowerTest (fun t => x.lower (some t)) s = .ok (c, t) s') :
    Lowers (.guard x target) s (c ++ [.make .brz [.label target, .reg t]]) s' := by
  unfold Expr.lowerTest at h
  split at h
  · exact absurd h fail_ne_ok
  rename_i hhole
  obtain ⟨t', s₁, ht, h⟩ := bind_eq_ok_iff.mp h
  obtain ⟨cx, s₂, hx, hpure⟩ := bind_eq_ok_iff.mp h
  obtain ⟨⟨⟩, rfl⟩ := pure_eq_ok_iff.mp hpure
  exact .guard (Bool.eq_false_iff.mpr hhole) (.fresh ht (ih hx))

theorem lowers_atom {x : Expr} {act : LowerM Operand} {k : NodeKind} {dst : Option Reg}
    (hact : x.atom? = some act) (h : LowerM.atom k act dst s = .ok c s') :
    Lowers (.value x dst) s c s' := by
  obtain ⟨v, s₁, hv, h⟩ := bind_eq_ok_iff.mp h
  replace h := give_bind_eq_ok h
  obtain ⟨⟨⟩, rfl⟩ := pure_eq_ok_iff.mp h
  exact .atom hact hv

end Success

mutual

theorem Expr.lowers : ∀ (e : Expr) {dst : Option Reg} {s s' : Frame} {c : Code},
    e.lower dst s = .ok c s' → Lowers (.value e dst) s c s'
  | .hole, _, _, _, _, h => absurd h fail_ne_ok
  | .num .., _, _, _, _, h => lowers_atom rfl h
  | .str _, _, _, _, _, h => lowers_atom rfl h
  | .var _, _, _, _, _, h => lowers_atom rfl h
  | .funcRef _, _, _, _, _, h => lowers_atom rfl h
  | .unary op x w, dst, s, s', c, h => by
    rw [Expr.lower] at h
    cases ho : UnOp.ofSymbol? op with
    | none => rw [ho] at h; exact absurd h unsupported_ne_ok
    | some o =>
      rw [ho] at h
      obtain ⟨⟨cx, vx⟩, s₁, hx, h⟩ := bind_eq_ok_iff.mp h
      obtain ⟨d, s₂, hd, h⟩ := bind_eq_ok_iff.mp h
      replace h := emit_bind_eq_ok h
      obtain ⟨⟨⟩, rfl⟩ := pure_eq_ok_iff.mp h
      exact .unary ho (lowers_operand x.lowers (within_eq_ok_iff.mp hx)) hd
  | .binary op x y w, dst, s, s', c, h => by
    rw [Expr.lower] at h
    cases ho : BinOp.ofSymbol? op with
    | none => rw [ho] at h; exact absurd h unsupported_ne_ok
    | some o =>
      rw [ho] at h
      obtain ⟨⟨cx, vx⟩, s₁, hx, h⟩ := bind_eq_ok_iff.mp h
      obtain ⟨⟨cy, vy⟩, s₂, hy, h⟩ := bind_eq_ok_iff.mp h
      obtain ⟨d, s₃, hd, h⟩ := bind_eq_ok_iff.mp h
      replace h := emit_bind_eq_ok h
      obtain ⟨⟨⟩, rfl⟩ := pure_eq_ok_iff.mp h
      rw [List.append_assoc]
      exact .binary ho (lowers_operand x.lowers (within_eq_ok_iff.mp hx))
        (lowers_operand y.lowers (within_eq_ok_iff.mp hy)) hd
  | .chain first [] w, dst, s, s', c, h => by
    rw [Expr.lower] at h
    obtain ⟨cf, s₁, hf, hpure⟩ := bind_eq_ok_iff.mp h
    obtain ⟨⟨⟩, rfl⟩ := pure_eq_ok_iff.mp hpure
    exact .chainOne (first.lowers hf)
  | .chain first (t :: ts) w, dst, s, s', c, h => by
    rw [Expr.lower] at h
    obtain ⟨⟨cx, acc⟩, s₁, hx, h⟩ := bind_eq_ok_iff.mp h
    obtain ⟨ct, s₂, ht, hpure⟩ := bind_eq_ok_iff.mp h
    obtain ⟨⟨⟩, rfl⟩ := pure_eq_ok_iff.mp hpure
    exact .chain (List.cons_ne_nil t ts) (lowers_operand first.lowers (within_eq_ok_iff.mp hx))
      (Expr.lowers_terms (t :: ts) (List.cons_ne_nil t ts) ht)
  | .logic op es w, dst, s, s', c, h => by
    rw [Expr.lower] at h
    obtain ⟨d, s₁, hd, h⟩ := bind_eq_ok_iff.mp h
    cases ho : LogicOp.ofSymbol? op with
    | none => rw [ho] at h; exact absurd h unsupported_ne_ok
    | some o =>
      rw [ho] at h
      cases o with
      | all =>
        obtain ⟨fin, s₂, hfin, h⟩ := bind_eq_ok_iff.mp h
        replace h := emit_bind_eq_ok h
        obtain ⟨ct, s₄, ht, h⟩ := bind_eq_ok_iff.mp h
        replace h := emit_bind_eq_ok h
        obtain ⟨⟨⟩, rfl⟩ := pure_eq_ok_iff.mp h
        rw [List.append_assoc]
        exact .all ho hd hfin (Expr.lowers_tests es ht)
      | any =>
        obtain ⟨found, s₂, hfound, h⟩ := bind_eq_ok_iff.mp h
        obtain ⟨fin, s₃, hfin, h⟩ := bind_eq_ok_iff.mp h
        replace h := emit_bind_eq_ok h
        obtain ⟨ct, s₅, ht, h⟩ := bind_eq_ok_iff.mp h
        replace h := emit_bind_eq_ok h
        obtain ⟨⟨⟩, rfl⟩ := pure_eq_ok_iff.mp h
        rw [List.append_assoc]
        exact .any ho hd hfound hfin (Expr.lowers_tests es ht)
  | .cond t a b w, dst, s, s', c, h => by
    rw [Expr.lower] at h
    obtain ⟨⟨cc, r⟩, s₁, hc, h⟩ := bind_eq_ok_iff.mp h
    obtain ⟨other, s₂, hother, h⟩ := bind_eq_ok_iff.mp h
    obtain ⟨fin, s₃, hfin, h⟩ := bind_eq_ok_iff.mp h
    replace h := emit_bind_eq_ok h
    obtain ⟨ca, s₅, ha, h⟩ := bind_eq_ok_iff.mp h
    obtain ⟨cb, s₆, hb, hpure⟩ := bind_eq_ok_iff.mp h
    obtain ⟨⟨⟩, rfl⟩ := pure_eq_ok_iff.mp hpure
    have hcond := Lowers.cond (w := w) (lowers_guard other t.lowers (within_eq_ok_iff.mp hc)) hother
      hfin (a.lowers (within_eq_ok_iff.mp ha)) (b.lowers (within_eq_ok_iff.mp hb))
    simpa only [List.cons_append, List.append_assoc, List.nil_append] using hcond
  | .call none _, _, _, _, _, h => absurd h unsupported_ne_ok
  | .call (some f) args, dst, s, s', c, h => by
    unfold Expr.lower at h
    split at h
    · exact absurd h fail_ne_ok
    rename_i hlen
    obtain ⟨callee, s₁, hcallee, h⟩ := bind_eq_ok_iff.mp h
    obtain ⟨⟨ca, ts⟩, s₂, ha, h⟩ := bind_eq_ok_iff.mp h
    replace h := emit_bind_eq_ok h
    obtain ⟨⟨⟩, rfl⟩ := pure_eq_ok_iff.mp h
    have hargs := Expr.lowers_args args f.params (Decidable.not_not.mp hlen) ha
    cases dst with
    | some r => exact .call hcallee hargs
    | none => exact .call hcallee hargs
  | .assign none _, _, _, _, _, h => absurd h unsupported_ne_ok
  | .assign (some v) x, dst, s, s', c, h => by
    rw [Expr.lower] at h
    obtain ⟨r, s₁, hr, h⟩ := bind_eq_ok_iff.mp h
    cases hact : x.atom? with
    | some act =>
      rw [hact] at h
      obtain ⟨vx, s₂, hvx, h⟩ := bind_eq_ok_iff.mp h
      replace h := emit_bind_eq_ok h
      replace h := give_bind_eq_ok h
      obtain ⟨⟨⟩, rfl⟩ := pure_eq_ok_iff.mp h
      exact .assignAtom hact hr hvx
    | none =>
      rw [hact] at h
      obtain ⟨t, s₂, ht, h⟩ := bind_eq_ok_iff.mp h
      obtain ⟨cx, s₃, hx, h⟩ := bind_eq_ok_iff.mp h
      replace h := emit_bind_eq_ok h
      rw [pure_bind] at h
      replace h := give_bind_eq_ok h
      obtain ⟨⟨⟩, rfl⟩ := pure_eq_ok_iff.mp h
      simp only [List.cons_append, List.append_assoc, List.nil_append]
      exact .assign hact hr (.fresh ht (x.lowers (within_eq_ok_iff.mp hx)))
  | .load addr w, dst, s, s', c, h => by
    rw [Expr.lower] at h
    obtain ⟨⟨ca, va⟩, s₁, ha, h⟩ := bind_eq_ok_iff.mp h
    obtain ⟨d, s₂, hd, h⟩ := bind_eq_ok_iff.mp h
    replace h := emit_bind_eq_ok h
    obtain ⟨⟨⟩, rfl⟩ := pure_eq_ok_iff.mp h
    exact .load (lowers_operand addr.lowers (within_eq_ok_iff.mp ha)) hd
  | .foreign .., _, _, _, _, h => absurd h unsupported_ne_ok

theorem Expr.lowers_terms :
    ∀ (list : List (Bytes × Expr)) {whole : Expr} {w : Width} {dst : Option Reg} {i : Nat}
      {acc : Operand} {s s' : Frame} {c : Code}, list ≠ [] →
      Expr.lowerTerms whole w dst i acc list s = .ok c s' → Lowers (.terms w dst acc list) s c s'
  | [], _, _, _, _, _, _, _, _, hne, _ => absurd rfl hne
  | (op, x) :: rest, whole, w, dst, i, acc, s, s', c, _, h => by
    rw [Expr.lowerTerms] at h
    cases ho : BinOp.ofChainSymbol? op with
    | none => rw [ho] at h; exact absurd h unsupported_ne_ok
    | some o =>
      rw [ho] at h
      obtain ⟨⟨cx, vx⟩, s₁, hx, h⟩ := bind_eq_ok_iff.mp h
      have hx' := lowers_operand x.lowers (within_eq_ok_iff.mp hx)
      cases rest with
      | nil =>
        obtain ⟨d, s₂, hd, h⟩ := bind_eq_ok_iff.mp h
        replace h := emit_bind_eq_ok h
        rw [Expr.lowerTerms, pure_bind] at h
        obtain ⟨⟨⟩, rfl⟩ := pure_eq_ok_iff.mp h
        rw [List.append_nil]
        exact .termsLast ho hx' hd
      | cons y ys =>
        obtain ⟨t, s₂, ht, h⟩ := bind_eq_ok_iff.mp h
        replace h := emit_bind_eq_ok h
        obtain ⟨ct, s₃, hct, hpure⟩ := bind_eq_ok_iff.mp h
        obtain ⟨⟨⟩, rfl⟩ := pure_eq_ok_iff.mp hpure
        rw [List.append_assoc]
        exact .termsMore ho (List.cons_ne_nil y ys) hx' ht
          (Expr.lowers_terms (y :: ys) (List.cons_ne_nil y ys) hct)

theorem Expr.lowers_tests :
    ∀ (list : List Expr) {op : Bytes} {branch : Opcode} {target : Label} {i : Nat}
      {s s' : Frame} {c : Code}, Expr.lowerTests op branch target i list s = .ok c s' →
      Lowers (.tests branch target list) s c s'
  | [], _, _, _, _, _, _, _, h => by
    rw [Expr.lowerTests] at h
    obtain ⟨rfl, rfl⟩ := pure_eq_ok_iff.mp h
    exact .testsNil
  | x :: rest, op, branch, target, i, s, s', c, h => by
    rw [Expr.lowerTests] at h
    obtain ⟨⟨cx, vx⟩, s₁, hx, h⟩ := bind_eq_ok_iff.mp h
    replace h := emit_bind_eq_ok h
    obtain ⟨ct, s₃, ht, hpure⟩ := bind_eq_ok_iff.mp h
    obtain ⟨⟨⟩, rfl⟩ := pure_eq_ok_iff.mp hpure
    rw [List.append_assoc]
    exact .testsCons (lowers_operand x.lowers (within_eq_ok_iff.mp hx)) (Expr.lowers_tests rest ht)

theorem Expr.lowers_args :
    ∀ (list : List Expr) (ws : List Width) {callee : Bytes} {i : Nat} {s s' : Frame}
      {c : Code} {ts : List Reg}, list.length = ws.length →
      Expr.lowerArgs callee i list ws s = .ok (c, ts) s' → Lowers (.args list ws ts) s c s'
  | [], [], _, _, _, _, _, _, _, h => by
    rw [Expr.lowerArgs] at h
    · obtain ⟨⟨⟩, rfl⟩ := pure_eq_ok_iff.mp h
      exact .argsNil
    · intro _ _ _ _ hcons
      cases hcons
  | x :: rest, w :: ws, callee, i, s, s', c, ts, hlen, h => by
    rw [Expr.lowerArgs] at h
    obtain ⟨t, s₁, ht, h⟩ := bind_eq_ok_iff.mp h
    obtain ⟨cx, s₂, hx, h⟩ := bind_eq_ok_iff.mp h
    obtain ⟨⟨cs, ts⟩, s₃, hs, hpure⟩ := bind_eq_ok_iff.mp h
    obtain ⟨⟨⟩, rfl⟩ := pure_eq_ok_iff.mp hpure
    exact .argsCons (.fresh ht (x.lowers (within_eq_ok_iff.mp hx)))
      (Expr.lowers_args rest ws (Nat.succ.inj hlen) hs)

end

theorem Lowers.grows {p : Part} {s s' : Frame} {c : Code} (h : Lowers p s c s') : s.Grows s' := by
  induction h with
  | atom he hv => exact (reads_of_atom? he hv).2.1
  | unary _ _ hd ihx => exact ihx.trans (orTemp_grows hd)
  | binary _ _ _ hd ihx ihy => exact (ihx.trans ihy).trans (orTemp_grows hd)
  | chainOne _ ih => exact ih
  | chain _ _ _ ihx iht => exact ihx.trans iht
  | all _ hd hfin _ iht => exact ((orTemp_grows hd).trans (newLabel_grows hfin)).trans iht
  | any _ hd hfound hfin _ iht =>
    exact (((orTemp_grows hd).trans (newLabel_grows hfound)).trans (newLabel_grows hfin)).trans iht
  | cond _ hother hfin _ _ ihc iha ihb =>
    exact (((ihc.trans (newLabel_grows hother)).trans (newLabel_grows hfin)).trans iha).trans ihb
  | call hcallee _ iha =>
    obtain ⟨_, _, _, hs, _⟩ := calleeOf_eq_ok hcallee
    exact hs.trans iha
  | assignAtom he hr hv => exact (regOf_eq_ok hr).2.1.trans (reads_of_atom? he hv).2.1
  | assign _ hr _ ihx => exact (regOf_eq_ok hr).2.1.trans ihx
  | load _ hd iha => exact iha.trans (orTemp_grows hd)
  | fresh ht _ ih => exact (newTemp_grows ht).trans ih
  | operandAtom he hv => exact (reads_of_atom? he hv).2.1
  | operand _ _ ih => exact ih
  | termsLast _ _ hd ihx => exact ihx.trans (orTemp_grows hd)
  | termsMore _ _ _ ht _ ihx iht => exact (ihx.trans (newTemp_grows ht)).trans iht
  | testsNil => exact .refl _
  | testsCons _ _ ihx iht => exact ihx.trans iht
  | guardHole => exact .refl _
  | guard _ _ ih => exact ih
  | argsNil => exact .refl _
  | argsCons _ _ ihx ihs => exact ihx.trans ihs

/-- A statement, or the statements of a block. -/
inductive Body where
  | one (x : Stmt)
  | list (xs : List Stmt)

/-- What statements become inside of `loop`. -/
inductive LowersBody : Option Loop → Body → Frame → Code → Frame → Prop where
  | hole {loop : Option Loop} {s : Frame} : LowersBody loop (.one .hole) s [] s
  | block {loop : Option Loop} {xs : List Stmt} {c : Code} {s s' : Frame} : LowersBody loop
      (.list xs) s c s' → LowersBody loop (.one (.block xs)) s (.mark .block :: c) s'
  | expr {loop : Option Loop} {x : Expr} {c : Code} {s s' : Frame} :
      Lowers (.value x none) s c s' → LowersBody loop (.one (.expr x)) s (.mark .exprStmt :: c) s'
  | store {loop : Option Loop} {addr x : Expr} {va vx : Operand} {ca cx : Code} {s s₁ s' : Frame} :
      Lowers (.operand addr va) s ca s₁ → Lowers (.operand x vx) s₁ cx s' → LowersBody loop
      (.one (.store addr x)) s (.mark .store :: (ca ++ (cx ++ [.make .write [va, vx]]))) s'
  | branch {loop : Option Loop} {c : Expr} {a : Stmt} {fin : Label} {cc ca : Code}
      {s s₁ s₂ s' : Frame} : Lowers (.guard c fin) s cc s₁ → newLabel "if.end" s₁ = .ok fin s₂ →
      LowersBody loop (.one a) s₂ ca s' → LowersBody loop (.one (.branch c a .hole)) s
      (.mark .branch :: (cc ++ (ca ++ [.defineLabel fin]))) s'
  | branchElse {loop : Option Loop} {c : Expr} {a b : Stmt} {fin other : Label} {cc ca cb : Code}
      {s s₁ s₂ s₃ s₄ s' : Frame} : b.isHole = false → Lowers (.guard c other) s cc s₁ → newLabel
      "if.end" s₁ = .ok fin s₂ → newLabel "if.else" s₂ = .ok other s₃ → LowersBody loop (.one a) s₃
      ca s₄ → LowersBody loop (.one b) s₄ cb s' → LowersBody loop (.one (.branch c a b)) s (.mark
      .branch :: (cc ++ (ca ++ .jump fin :: .defineLabel other :: (cb ++ [.defineLabel fin])))) s'
  | whileLoop {loop : Option Loop} {c : Expr} {body : Stmt} {top fin : Label} {cc cb : Code}
      {s s₁ s₂ s₃ s' : Frame} : newLabel "while.top" s = .ok top s₁ →
      newLabel "while.end" s₁ = .ok fin s₂ → Lowers (.guard c fin) s₂ cc s₃ → LowersBody
      (some ⟨fin, top⟩) (.one body) s₃ cb s' → LowersBody loop (.one (.whileLoop c body)) s
      (.mark .whileLoop :: .defineLabel top :: (cc ++ (cb ++ [.jump top, .defineLabel fin]))) s'
  | forLoop {loop : Option Loop} {start : Stmt} {c : Expr} {post body : Stmt} {top next fin : Label}
      {ci cc cb cp : Code} {s s₁ s₂ s₃ s₄ s₅ s₆ s' : Frame} : LowersBody loop (.one start) s ci s₁ →
      newLabel "for.top" s₁ = .ok top s₂ → newLabel "for.cont" s₂ = .ok next s₃ →
      newLabel "for.end" s₃ = .ok fin s₄ → Lowers (.guard c fin) s₄ cc s₅ →
      LowersBody (some ⟨fin, next⟩) (.one body) s₅ cb s₆ → LowersBody loop (.one post) s₆ cp s' →
      LowersBody loop (.one (.forLoop start c post body)) s
      (.mark .forLoop :: (ci ++ .defineLabel top :: (cc ++ (cb ++ .defineLabel next ::
          (cp ++ [.jump top, .defineLabel fin]))))) s'
  | breakLoop {loop : Loop} {s : Frame} :
      LowersBody (some loop) (.one .breakLoop) s [.mark .breakLoop, .jump loop.onBreak] s
  | continueLoop {loop : Loop} {s : Frame} :
      LowersBody (some loop) (.one .continueLoop) s [.mark .continueLoop, .jump loop.onContinue] s
  | retNone {loop : Option Loop} {s : Frame} :
      LowersBody loop (.one (.ret .hole)) s [.mark .ret, .make .ret []] s
  | ret {loop : Option Loop} {x : Expr} {vx : Operand} {cx : Code} {s s' : Frame} :
      x.isHole = false → Lowers (.operand x vx) s cx s' →
      LowersBody loop (.one (.ret x)) s (.mark .ret :: (cx ++ [.make .ret [vx]])) s'
  | nil {loop : Option Loop} {s : Frame} : LowersBody loop (.list []) s [] s
  | cons {loop : Option Loop} {x : Stmt} {xs : List Stmt} {c cs : Code} {s s₁ s' : Frame} :
      LowersBody loop (.one x) s c s₁ → LowersBody loop (.list xs) s₁ cs s' →
      LowersBody loop (.list (x :: xs)) s (c ++ cs) s'

theorem Expr.eq_hole_of_isHole {e : Expr} (h : e.isHole = true) : e = .hole := by
  cases e with
  | hole => rfl
  | _ => cases h

theorem Stmt.eq_hole_of_isHole {x : Stmt} (h : x.isHole = true) : x = .hole := by
  cases x with
  | hole => rfl
  | _ => cases h

mutual

theorem Stmt.lowers : ∀ (x : Stmt) {loop : Option Loop} {s s' : Frame} {c : Code},
    x.lower loop s = .ok c s' → LowersBody loop (.one x) s c s'
  | .hole, _, _, _, _, h => by
    obtain ⟨⟨⟩, rfl⟩ := pure_eq_ok_iff.mp h
    exact .hole
  | .block list, loop, s, s', c, h => by
    rw [Stmt.lower] at h
    obtain ⟨cl, s₁, hl, hpure⟩ := bind_eq_ok_iff.mp h
    obtain ⟨⟨⟩, rfl⟩ := pure_eq_ok_iff.mp hpure
    exact .block (Stmt.lowers_list list hl)
  | .expr x, loop, s, s', c, h => by
    rw [Stmt.lower] at h
    obtain ⟨cx, s₁, hx, hpure⟩ := bind_eq_ok_iff.mp h
    obtain ⟨⟨⟩, rfl⟩ := pure_eq_ok_iff.mp hpure
    exact .expr (x.lowers hx)
  | .store addr x, loop, s, s', c, h => by
    rw [Stmt.lower] at h
    obtain ⟨⟨ca, va⟩, s₁, ha, h⟩ := bind_eq_ok_iff.mp h
    obtain ⟨⟨cx, vx⟩, s₂, hx, h⟩ := bind_eq_ok_iff.mp h
    replace h := emit_bind_eq_ok h
    obtain ⟨⟨⟩, rfl⟩ := pure_eq_ok_iff.mp h
    rw [List.append_assoc]
    exact .store (lowers_operand addr.lowers (within_eq_ok_iff.mp ha))
      (lowers_operand x.lowers (within_eq_ok_iff.mp hx))
  | .branch t a b, loop, s, s', c, h => by
    rw [Stmt.lower] at h
    obtain ⟨⟨cc, r⟩, s₁, hc, h⟩ := bind_eq_ok_iff.mp h
    obtain ⟨fin, s₂, hfin, h⟩ := bind_eq_ok_iff.mp h
    cases hb : b.isHole with
    | true =>
      rw [hb] at h
      replace h := emit_bind_eq_ok h
      obtain ⟨ca, s₃, ha, hpure⟩ := bind_eq_ok_iff.mp h
      obtain ⟨⟨⟩, rfl⟩ := pure_eq_ok_iff.mp hpure
      have hbranch := LowersBody.branch (lowers_guard fin t.lowers (within_eq_ok_iff.mp hc)) hfin
        (a.lowers (within_eq_ok_iff.mp ha))
      rw [Stmt.eq_hole_of_isHole hb]
      simpa only [List.cons_append, List.append_assoc, List.nil_append] using hbranch
    | false =>
      rw [hb] at h
      obtain ⟨other, s₃, hother, h⟩ := bind_eq_ok_iff.mp h
      replace h := emit_bind_eq_ok h
      obtain ⟨ca, s₄, ha, h⟩ := bind_eq_ok_iff.mp h
      obtain ⟨cb, s₅, hcb, hpure⟩ := bind_eq_ok_iff.mp h
      obtain ⟨⟨⟩, rfl⟩ := pure_eq_ok_iff.mp hpure
      have hbranch :=
        LowersBody.branchElse hb (lowers_guard other t.lowers (within_eq_ok_iff.mp hc)) hfin hother
        (a.lowers (within_eq_ok_iff.mp ha)) (b.lowers (within_eq_ok_iff.mp hcb))
      simpa only [List.cons_append, List.append_assoc, List.nil_append] using hbranch
  | .whileLoop t body, loop, s, s', c, h => by
    rw [Stmt.lower] at h
    obtain ⟨top, s₁, htop, h⟩ := bind_eq_ok_iff.mp h
    obtain ⟨fin, s₂, hfin, h⟩ := bind_eq_ok_iff.mp h
    obtain ⟨⟨cc, r⟩, s₃, hc, h⟩ := bind_eq_ok_iff.mp h
    replace h := emit_bind_eq_ok h
    obtain ⟨cb, s₄, hb, hpure⟩ := bind_eq_ok_iff.mp h
    obtain ⟨⟨⟩, rfl⟩ := pure_eq_ok_iff.mp hpure
    have hwhile : LowersBody loop _ _ _ _ := .whileLoop htop hfin
      (lowers_guard fin t.lowers (within_eq_ok_iff.mp hc)) (body.lowers (within_eq_ok_iff.mp hb))
    simpa only [List.cons_append, List.append_assoc, List.nil_append] using hwhile
  | .forLoop start t post body, loop, s, s', c, h => by
    rw [Stmt.lower] at h
    obtain ⟨ci, s₁, hi, h⟩ := bind_eq_ok_iff.mp h
    obtain ⟨top, s₂, htop, h⟩ := bind_eq_ok_iff.mp h
    obtain ⟨next, s₃, hnext, h⟩ := bind_eq_ok_iff.mp h
    obtain ⟨fin, s₄, hfin, h⟩ := bind_eq_ok_iff.mp h
    obtain ⟨cg, s₅, hg, h⟩ : ∃ cg s₅, Lowers (.guard t fin) s₄ cg s₅ ∧
        (do
          let cb ← within .forBody (body.lower (some ⟨fin, next⟩))
          let cp ← within .forPost (post.lower loop)
          return Instr.mark .forLoop :: ci ++ .defineLabel top :: cg ++ cb ++
            .defineLabel next :: cp ++ [.jump top, .defineLabel fin] : LowerM Code) s₅ =
          .ok c s' := by
      cases ht : t.isHole with
      | true =>
        rw [ht] at h
        rw [Expr.eq_hole_of_isHole ht]
        exact ⟨[], s₄, .guardHole, h⟩
      | false =>
        rw [ht] at h
        obtain ⟨⟨cc, r⟩, s₅, hc, h⟩ := bind_eq_ok_iff.mp h
        replace h := emit_bind_eq_ok h
        exact ⟨_, s₅, lowers_guard fin t.lowers (within_eq_ok_iff.mp hc), h⟩
    obtain ⟨cb, s₆, hb, h⟩ := bind_eq_ok_iff.mp h
    obtain ⟨cp, s₇, hp, hpure⟩ := bind_eq_ok_iff.mp h
    obtain ⟨⟨⟩, rfl⟩ := pure_eq_ok_iff.mp hpure
    have hfor := LowersBody.forLoop (start.lowers (within_eq_ok_iff.mp hi)) htop hnext hfin hg
      (body.lowers (within_eq_ok_iff.mp hb)) (post.lowers (within_eq_ok_iff.mp hp))
    simpa only [List.cons_append, List.append_assoc, List.nil_append] using hfor
  | .breakLoop, none, _, _, _, h => nomatch h
  | .breakLoop, some loop, s, s', c, h => by
    obtain ⟨⟨⟩, rfl⟩ := pure_eq_ok_iff.mp h
    exact .breakLoop
  | .continueLoop, none, _, _, _, h => nomatch h
  | .continueLoop, some loop, s, s', c, h => by
    obtain ⟨⟨⟩, rfl⟩ := pure_eq_ok_iff.mp h
    exact .continueLoop
  | .ret x, loop, s, s', c, h => by
    rw [Stmt.lower] at h
    cases hx : x.isHole with
    | true =>
      rw [hx] at h
      replace h := emit_bind_eq_ok h
      obtain ⟨⟨⟩, rfl⟩ := pure_eq_ok_iff.mp h
      rw [Expr.eq_hole_of_isHole hx]
      exact .retNone
    | false =>
      rw [hx] at h
      obtain ⟨⟨cx, vx⟩, s₁, hcx, h⟩ := bind_eq_ok_iff.mp h
      replace h := emit_bind_eq_ok h
      obtain ⟨⟨⟩, rfl⟩ := pure_eq_ok_iff.mp h
      exact .ret hx (lowers_operand x.lowers (within_eq_ok_iff.mp hcx))
  | .stray _, _, _, _, _, h => absurd h unsupported_ne_ok

theorem Stmt.lowers_list :
    ∀ (list : List Stmt) {loop : Option Loop} {i : Nat} {s s' : Frame} {c : Code},
      Stmt.lowerList loop i list s = .ok c s' → LowersBody loop (.list list) s c s'
  | [], _, _, _, _, _, h => by
    rw [Stmt.lowerList] at h
    obtain ⟨⟨⟩, rfl⟩ := pure_eq_ok_iff.mp h
    exact .nil
  | x :: rest, loop, i, s, s', c, h => by
    rw [Stmt.lowerList] at h
    obtain ⟨cx, s₁, hx, h⟩ := bind_eq_ok_iff.mp h
    obtain ⟨cs, s₂, hs, hpure⟩ := bind_eq_ok_iff.mp h
    obtain ⟨⟨⟩, rfl⟩ := pure_eq_ok_iff.mp hpure
    exact .cons (x.lowers (within_eq_ok_iff.mp hx)) (Stmt.lowers_list rest hs)

end

theorem LowersBody.grows {loop : Option Loop} {b : Body} {s s' : Frame} {c : Code}
    (h : LowersBody loop b s c s') :
    s.Grows s' := by
  induction h with
  | hole | breakLoop | continueLoop | retNone | nil => exact .refl _
  | block _ ih => exact ih
  | expr hx => exact hx.grows
  | store ha hx => exact ha.grows.trans hx.grows
  | branch hc hfin _ iha => exact (hc.grows.trans (newLabel_grows hfin)).trans iha
  | branchElse _ hc hfin hother _ _ iha ihb =>
    exact (((hc.grows.trans (newLabel_grows hfin)).trans (newLabel_grows hother)).trans iha).trans
      ihb
  | whileLoop htop hfin hc _ ihb =>
    exact (((newLabel_grows htop).trans (newLabel_grows hfin)).trans hc.grows).trans ihb
  | forLoop _ htop hnext hfin hc _ _ ihi ihb ihp =>
    have hlabels := ((newLabel_grows htop).trans (newLabel_grows hnext)).trans (newLabel_grows hfin)
    exact (((ihi.trans hlabels).trans hc.grows).trans ihb).trans ihp
  | ret _ hx => exact hx.grows
  | cons _ _ ihx ihs => exact ihx.trans ihs

end ThreeAddress
