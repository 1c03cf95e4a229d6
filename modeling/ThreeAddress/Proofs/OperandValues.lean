import ThreeAddress.Proofs.LoweredBehaviour

/-!
# The values that operators and calls get

A call copies each argument to a temporary of its own in its turn. An operator uses what is an atom
directly, so that a variable on its left is read only when the right operand has been evaluated.
Here the code of calls, operators, stores and the terms of a chain is followed up to the instruction
that does the work, to see what its operands hold there (`Expr.operand_values`): operators get what
a call would get, unless their left operand is a variable that the right one assigns. That case
makes a difference (`Expr.operand_values_differ`).
-/

namespace ThreeAddress
set_option autoImplicit false

open LowerM

/-- The operands that an instruction works on: not its destination, nor the function that it
calls. -/
def Instr.inputs (x : Instr) : List (Option Operand) :=
  match x.op with
  | .call => x.args.drop 2
  | .write => x.args
  | _ => x.args.drop 1

/-- The code `c`, made by a lowering that ended with the frame `s`, has an instruction `op` in front
of `rest`. Wherever `c` stands in a finished function, and whatever registers it starts with, as
long as the variables have the values of `σ`, control comes to that instruction with the values `vs`
in its operands and the variables and the world as in `σ'`. -/
def Code.Delivers (c : Code) (L : Language) (s : Frame) (op : Opcode) (rest : Code) (σ : Store)
    (vs : List Int) (σ' : Store) : Prop :=
  ∃ before x, c = before ++ x :: rest ∧ x.op = op ∧
    ∀ {fin : Frame} {M : Machine} {code k : Code} {ρ : Regs}, s.Grows fin → Setting L M code fin →
    (c ++ k) <:+ code → ρ.Holds fin σ → ∃ ρ', M.Reaches code ⟨c ++ k, ρ, σ.world⟩
    ⟨x :: (rest ++ k), ρ', σ'.world⟩ ∧ ρ'.Holds fin σ' ∧ x.inputs.map (M.value ρ') = vs

namespace Expr
variable (L : Language)

/-- What `a` and then `b` leave behind. -/
def storeAfter (a b : Expr) (σ : Store) : Store := (b.eval L .inPlace (a.eval L .inPlace σ).2).2

/-- The values of `a` and of `b`, each at the time it is evaluated. -/
def valuesInTurn (a b : Expr) (σ : Store) : List Int :=
  [(a.eval L .inPlace σ).1, (b.eval L .inPlace (a.eval L .inPlace σ).2).1]

/-- The values of `a` and of `b` once both have been evaluated: a variable has the one it has
then. -/
def valuesAtOnce (a b : Expr) (σ : Store) : List Int :=
  [a.held .inPlace (a.eval L .inPlace σ).1 (storeAfter L a b σ),
    (b.eval L .inPlace (a.eval L .inPlace σ).2).1]

/-- The left operand of the term that comes after the terms `rest` of a chain. -/
def upTo (first : Expr) (w : Width) : List (Bytes × Expr) → Expr
  | [] => first
  | t :: rest => .chain first (t :: rest) w

/-- A sum, as it stands after more terms. -/
def sumUpTo (sum : Store → Int) (σ : Store) : List (Bytes × Expr) → Store → Int
  | [] => sum
  | t :: rest => fun _ => (evalTerms L .inPlace sum (t :: rest) σ).1

variable {L} {a b : Expr} {σ : Store}

theorem valuesAtOnce_eq (h : a.isStillIn b = true) :
    valuesAtOnce L a b σ = valuesInTurn L a b σ := by
  rw [valuesAtOnce, valuesInTurn, storeAfter, held_of_isStillIn h]

theorem sumUpTo_cons (sum : Store → Int) (op : Bytes) (x : Expr) (rest : List (Bytes × Expr)) :
    sumUpTo L sum σ ((op, x) :: rest) =
      sumUpTo L (fun _ => L.term op (sum (x.eval L .inPlace σ).2) (x.eval L .inPlace σ).1)
        (x.eval L .inPlace σ).2 rest := by
  cases rest with
  | nil => rw [sumUpTo, sumUpTo, evalTerms, evalTerms]
  | cons t rest => rw [sumUpTo, sumUpTo, evalTerms]

theorem held_upTo (first : Expr) (w : Width) (rest : List (Bytes × Expr)) (σ σ' : Store) :
    (upTo first w rest).held .inPlace ((upTo first w rest).eval L .inPlace σ).1 σ' =
      sumUpTo L (first.held .inPlace (first.eval L .inPlace σ).1)
        (first.eval L .inPlace σ).2 rest σ' := by
  cases rest with
  | nil => rfl
  | cons t rest => rw [upTo, held_of_atom? rfl, eval, sumUpTo]

theorem eval_upTo (first : Expr) (w : Width) (rest : List (Bytes × Expr)) (σ : Store) :
    ((upTo first w rest).eval L .inPlace σ).2 =
      (evalTerms L .inPlace (first.held .inPlace (first.eval L .inPlace σ).1) rest
          (first.eval L .inPlace σ).2).2 := by
  cases rest with
  | nil => rw [upTo, evalTerms]
  | cons t rest => rw [upTo, eval]

end Expr

section Terms
variable {whole : Expr} {w : Width} {dst : Option Reg} {i : Nat} {acc : Operand} {s s' : Frame}
  {c : Code} {op : Bytes} {x : Expr}

theorem Expr.lowerTerms_cons {rest : List (Bytes × Expr)}
    (h : Expr.lowerTerms whole w dst i acc ((op, x) :: rest) s = .ok c s') :
    ∃ o cx vx s₁ d s₂ ct, BinOp.ofChainSymbol? op = some o ∧ Lowers (.operand x vx) s cx s₁ ∧
      (if rest.isEmpty then orTemp dst w else newTemp w) s₁ = .ok d s₂ ∧
      Expr.lowerTerms whole w dst (i + 1) (.reg d) rest s₂ = .ok ct s' ∧
      c = cx ++ .make (.bin o) [.reg d, acc, vx] :: ct := by
  rw [Expr.lowerTerms] at h
  cases ho : BinOp.ofChainSymbol? op with
  | none =>
    rw [ho] at h
    exact absurd h unsupported_ne_ok
  | some o =>
    rw [ho] at h
    obtain ⟨⟨cx, vx⟩, s₁, hx, h⟩ := bind_eq_ok_iff.mp h
    have hsum : ((if rest.isEmpty then orTemp dst w else newTemp w) >>= fun d =>
        emit (.bin o) [.reg d, acc, vx] >>= fun sum => Expr.lowerTerms whole w dst (i + 1)
        (.reg d) rest >>= fun ct => pure (cx ++ sum ++ ct)) s₁ = .ok c s' := by
      cases rest <;> exact h
    obtain ⟨d, s₂, hd, h⟩ := bind_eq_ok_iff.mp hsum
    replace h := emit_bind_eq_ok h
    obtain ⟨ct, s₃, hct, hpure⟩ := bind_eq_ok_iff.mp h
    obtain ⟨⟨⟩, rfl⟩ := pure_eq_ok_iff.mp hpure
    refine ⟨o, cx, vx, s₁, d, s₂, ct, rfl,
      lowers_operand x.lowers (within_eq_ok_iff.mp hx), hd, hct, ?_⟩
    rw [List.append_assoc]
    rfl

theorem Expr.lowerTerms_grows {list : List (Bytes × Expr)}
    (h : Expr.lowerTerms whole w dst i acc list s = .ok c s') : s.Grows s' := by
  cases list with
  | nil =>
    rw [Expr.lowerTerms] at h
    obtain ⟨_, rfl⟩ := pure_eq_ok_iff.mp h
    exact .refl s
  | cons t rest => exact (Expr.lowers_terms (t :: rest) (List.cons_ne_nil t rest) h).grows

theorem last_grows {last : Bool} {d : Reg}
    (h : (if last then orTemp dst w else newTemp w) s = .ok d s') : s.Grows s' := by
  cases last with
  | true => exact orTemp_grows h
  | false => exact newTemp_grows h

theorem Expr.exists_term {pre post : List (Bytes × Expr)}
    (h : Expr.lowerTerms whole w dst i acc (pre ++ (op, x) :: post) s = .ok c s') :
    ∃ o d s₂ before y rest, BinOp.ofChainSymbol? op = some o ∧
      Expr.lowerTerms whole w dst (i + pre.length + 1) (.reg d) post s₂ = .ok rest s' ∧
      c = before ++ y :: rest ∧ y.op = .bin o ∧
      ∀ {L : Language} {M : Machine} {code k : Code} {fin : Frame} {ρ : Regs} {σ : Store}
        {sum : Store → Int},
        s'.Grows fin → Setting L M code fin → (c ++ k) <:+ code → ρ.Holds fin σ →
        acc.StandsFor M fin s.nextTemp sum ρ →
        Arrives M code fin ⟨c ++ k, ρ, σ.world⟩ (y :: (rest ++ k)) s.nextTemp none
          (x.eval L .inPlace (Expr.evalTerms L .inPlace sum pre σ).2).2 fun ρ' =>
            y.inputs.map (M.value ρ') =
            [Expr.sumUpTo L sum σ pre (x.eval L .inPlace (Expr.evalTerms L .inPlace sum pre σ).2).2,
              (x.eval L .inPlace (Expr.evalTerms L .inPlace sum pre σ).2).1] := by
  induction pre generalizing i acc s c with
  | nil =>
    obtain ⟨o, cx, vx, s₁, d, s₂, ct, ho, hx, hd, hct, rfl⟩ := Expr.lowerTerms_cons h
    refine ⟨o, d, s₂, cx, .make (.bin o) [.reg d, acc, vx], ct, ho, hct, rfl, rfl, ?_⟩
    intro L M code k fin ρ σ sum hs S hk hρ hsum
    have hs₁ : s₁.Grows fin := ((last_grows hd).trans (Expr.lowerTerms_grows hct)).trans hs
    rw [List.append_assoc] at hk ⊢
    rw [Expr.evalTerms, Expr.sumUpTo]
    obtain ⟨ρ₁, hreach, hρ₁, hkept, ha, hb⟩ := arrives_beside (hx.simulates S hs₁) hk hρ hsum
    exact ⟨ρ₁, hreach, hρ₁, hkept, congrArg₂ (fun u v => [u, v]) ha hb⟩
  | cons t pre ih =>
    obtain ⟨op', x'⟩ := t
    rw [List.cons_append] at h
    obtain ⟨o', cx, vx, s₁, t, s₂, ct, ho', hx', ht, hct, rfl⟩ := Expr.lowerTerms_cons h
    obtain ⟨o, d, s₃, before, y, rest, ho, hrest, rfl, hy, hrun⟩ := ih hct
    refine ⟨o, d, s₃, cx ++ .make (.bin o') [.reg t, acc, vx] :: before, y, rest, ho,
      ?_, ?_, hy, ?_⟩
    · have hplace : i + (((op', x') :: pre).length) + 1 = i + 1 + pre.length + 1 := by
        rw [List.length_cons]
        omega
      rw [hplace]
      exact hrest
    · rw [List.append_assoc]
      rfl
    intro L M code k fin ρ σ sum hs S hk hρ hsum
    have hmore : (pre ++ (op, x) :: post).isEmpty = false := by simp
    rw [hmore] at ht
    have hs₂ : s₂.Grows fin := (Expr.lowerTerms_grows hct).trans hs
    have hle : s.nextTemp ≤ s₂.nextTemp := (hx'.grows.trans (newTemp_grows ht)).temps
    rw [List.append_assoc] at hk ⊢
    have hks := (List.suffix_cons _ _).trans ((List.suffix_append cx _).trans hk)
    rw [Expr.evalTerms, Expr.sumUpTo_cons]
    refine .bind (arrives_term S ho' hx'.grows ht
      (hx'.simulates S ((newTemp_grows ht).trans hs₂)) hk hρ hsum) (Nat.le_refl _) ?_
    intro ρ₁ hρ₁ _ hsum₁
    exact (hrun hs S hks hρ₁ hsum₁).mono hle

end Terms

section Forms
variable {L : Language} {a b : Expr} {s s' : Frame} {c : Code} {σ : Store} {dst : Option Reg}

theorem delivers_call {f : FuncRef} (h : (Expr.call (some f) [a, b]).lower dst s = .ok c s') :
    c.Delivers L s' .call [] σ (Expr.valuesInTurn L a b σ) (Expr.storeAfter L a b σ) := by
  cases Expr.lowers _ h with
  | atom hact _ => cases hact
  | @call _ _ _ callee ts ca _ _ _ _ hargs =>
    refine ⟨.mark .call :: ca, _, rfl, rfl, ?_⟩
    intro fin M code k ρ hs S hk hρ
    simp only [List.cons_append, List.append_assoc, List.nil_append] at hk ⊢
    obtain ⟨ρ₁, hreach, hρ₁, _, hts⟩ := hargs.simulates S hs ((List.suffix_cons _ _).trans hk) hρ
    simp only [Expr.evalArgs] at hreach hρ₁ hts
    refine ⟨ρ₁, (Machine.Reaches.mark _ _ ρ _).trans hreach, hρ₁, ?_⟩
    rw [Expr.valuesInTurn, ← hts]
    simp only [Instr.inputs, Instr.make, List.map_cons, List.drop_succ_cons,
      List.drop_zero, List.map_map]
    rfl

theorem delivers_operands {x : Instr} {va vb : Operand} {ca cb : Code} {s₁ s₂ : Frame}
    {n : NodeKind} (ha : Lowers (.operand a va) s ca s₁) (hb : Lowers (.operand b vb) s₁ cb s₂)
    (hs₂ : s₂.Grows s') (hx : x.inputs = [some va, some vb]) :
    Code.Delivers (.mark n :: (ca ++ (cb ++ [x]))) L s' x.op [] σ (Expr.valuesAtOnce L a b σ)
      (Expr.storeAfter L a b σ) := by
  refine ⟨.mark n :: (ca ++ cb), x, by simp, rfl, ?_⟩
  intro fin M code k ρ hs S hk hρ
  simp only [List.cons_append, List.append_assoc, List.nil_append] at hk ⊢
  have hs₂ := hs₂.trans hs
  obtain ⟨ρ₁, hreach, hρ₁, _, hva, hvb⟩ := arrives_operands ha.grows
    (ha.simulates S (hb.grows.trans hs₂)) (hb.simulates S hs₂) ((List.suffix_cons _ _).trans hk) hρ
  refine ⟨ρ₁, (Machine.Reaches.mark _ _ ρ _).trans hreach, hρ₁, ?_⟩
  rw [hx]
  exact congrArg₂ (fun u v => [u, v]) hva hvb

theorem delivers_binary {op : Bytes} {w : Width}
    (h : (Expr.binary op a b w).lower dst s = .ok c s') :
    ∃ o, BinOp.ofSymbol? op = some o ∧
      c.Delivers L s' (.bin o) [] σ (Expr.valuesAtOnce L a b σ) (Expr.storeAfter L a b σ) := by
  cases Expr.lowers _ h with
  | atom hact _ => cases hact
  | binary ho ha hb hd => exact ⟨_, ho, delivers_operands ha hb (orTemp_grows hd) rfl⟩

theorem delivers_store {loop : Option Loop} (h : (Stmt.store a b).lower loop s = .ok c s') :
    c.Delivers L s' .write [] σ (Expr.valuesAtOnce L a b σ) (Expr.storeAfter L a b σ) := by
  cases Stmt.lowers _ h with
  | store ha hb => exact delivers_operands ha hb (.refl s') rfl

theorem delivers_term {first : Expr} {pre post : List (Bytes × Expr)} {op : Bytes} {w : Width}
    (h : (Expr.chain first (pre ++ (op, b) :: post) w).lower dst s = .ok c s') :
    ∃ o d s₁ rest, BinOp.ofChainSymbol? op = some o ∧
      Expr.lowerTerms (.chain first (pre ++ (op, b) :: post) w) w dst (pre.length + 1)
        (.reg d) post s₁ = .ok rest s' ∧
      c.Delivers L s' (.bin o) rest σ (Expr.valuesAtOnce L (first.upTo w pre) b σ)
        (Expr.storeAfter L (first.upTo w pre) b σ) := by
  obtain ⟨t, ts, hts⟩ : ∃ t ts, pre ++ (op, b) :: post = t :: ts :=
    List.exists_cons_of_ne_nil (by simp)
  rw [hts, Expr.lower, ← hts] at h
  obtain ⟨⟨cx, acc⟩, s₁, hx, h⟩ := bind_eq_ok_iff.mp h
  obtain ⟨ct, s₂, ht, hpure⟩ := bind_eq_ok_iff.mp h
  obtain ⟨⟨⟩, rfl⟩ := pure_eq_ok_iff.mp hpure
  have hfirst := lowers_operand first.lowers (within_eq_ok_iff.mp hx)
  obtain ⟨o, d, s₃, before, y, rest, ho, hrest, rfl, hy, hrun⟩ := Expr.exists_term ht
  rw [Nat.zero_add] at hrest
  refine ⟨o, d, s₃, rest, ho, hrest, .mark .chain :: (cx ++ before), y, by simp, hy, ?_⟩
  intro fin M code k ρ hs S hk hρ
  simp only [List.cons_append, List.append_assoc] at hk hrun ⊢
  have hkx := (List.suffix_cons _ _).trans hk
  obtain ⟨ρ₁, hreach, hρ₁, _, hacc⟩ :=
    hfirst.simulates S ((Expr.lowerTerms_grows ht).trans hs) hkx hρ
  obtain ⟨ρ₂, hreach', hρ₂, _, hvalues⟩ := hrun hs S ((List.suffix_append cx _).trans hkx) hρ₁ hacc
  rw [Expr.valuesAtOnce, Expr.held_upTo, Expr.storeAfter, Expr.eval_upTo]
  exact ⟨ρ₂, (Machine.Reaches.mark _ _ ρ _).trans (hreach.trans hreach'), hρ₂, hvalues⟩

end Forms

/-- What a call with the arguments `a` and `b` passes, and what a binary operator, a store and a
term of a chain with these operands work on, when they are lowered in the same frame and run in the
same state. The call passes the value that `a` has in its turn, before `b` is evaluated, and then
that of `b`. The others work on these values too, as long as `a` is no variable that `b` assigns; if
`a` is a variable then they read it after `b`. The left operand of a term is the chain up to it. -/
theorem Expr.operand_values (L : Language) (a b : Expr) (s : Frame) (σ : Store) :
    (∀ f dst c s', (Expr.call (some f) [a, b]).lower dst s = .ok c s' →
      c.Delivers L s' .call [] σ (valuesInTurn L a b σ) (storeAfter L a b σ)) ∧
    (∀ op w dst c s', (Expr.binary op a b w).lower dst s = .ok c s' →
      ∃ o, BinOp.ofSymbol? op = some o ∧
        c.Delivers L s' (.bin o) [] σ (valuesAtOnce L a b σ) (storeAfter L a b σ)) ∧
    (∀ loop c s', (Stmt.store a b).lower loop s = .ok c s' →
      c.Delivers L s' .write [] σ (valuesAtOnce L a b σ) (storeAfter L a b σ)) ∧
    (∀ first pre op post w dst c s', a = first.upTo w pre →
      (Expr.chain first (pre ++ (op, b) :: post) w).lower dst s = .ok c s' →
      ∃ o d s₁ rest, BinOp.ofChainSymbol? op = some o ∧
        lowerTerms (.chain first (pre ++ (op, b) :: post) w) w dst (pre.length + 1)
          (.reg d) post s₁ = .ok rest s' ∧
        c.Delivers L s' (.bin o) rest σ (valuesAtOnce L a b σ) (storeAfter L a b σ)) ∧
    (a.isStillIn b = true → valuesAtOnce L a b σ = valuesInTurn L a b σ) ∧
    ∀ v, a = .var v →
      valuesAtOnce L a b σ = [(storeAfter L a b σ).vars v.id, (b.eval L .inPlace σ).1] := by
  refine ⟨?_, ?_, ?_, ?_, valuesAtOnce_eq, ?_⟩
  · intro f dst c s' h
    exact delivers_call h
  · intro op w dst c s' h
    exact delivers_binary h
  · intro loop c s' h
    exact delivers_store h
  · intro first pre op post w dst c s' ha h
    subst ha
    exact delivers_term h
  · intro v ha
    subst ha
    rfl

/-- The call `f(x, x = 5)`. -/
def Sample.passing : Expr :=
  let x := local32 0 "x"
  .call (some ⟨"f", .i32, [.i32, .i32]⟩) [.var x, .assign (some x) (lit 5)]

/-- The sum `x + (x = 5)`. -/
def Sample.adding : Expr :=
  let x := local32 0 "x"
  bin "+" (.var x) (.assign (some x) (lit 5))

theorem Expr.operand_values_assigned : ∃ c d s₁ s₂,
    Sample.passing.lower none ⟨.empty, 0, []⟩ = .ok c s₁ ∧
      Sample.adding.lower none ⟨.empty, 0, []⟩ = .ok d s₂ ∧
    c.Delivers .sample s₁ .call [] ⟨fun _ => 7, ⟨fun _ => 0, []⟩⟩ [7, 5]
      ⟨Function.update (fun _ => 7) 0 5, ⟨fun _ => 0, []⟩⟩ ∧
    ∃ o, BinOp.ofSymbol? "+" = some o ∧
      d.Delivers .sample s₂ (.bin o) [] ⟨fun _ => 7, ⟨fun _ => 0, []⟩⟩ [5, 5]
        ⟨Function.update (fun _ => 7) 0 5, ⟨fun _ => 0, []⟩⟩ := by
  obtain ⟨c, s₁, hc⟩ : ∃ c s₁, Sample.passing.lower none ⟨.empty, 0, []⟩ = .ok c s₁ := ⟨_, _, rfl⟩
  obtain ⟨d, s₂, hd⟩ : ∃ d s₂, Sample.adding.lower none ⟨.empty, 0, []⟩ = .ok d s₂ := ⟨_, _, rfl⟩
  obtain ⟨hcall, hbinary, _⟩ := Expr.operand_values .sample _ _ _ ⟨fun _ => 7, ⟨fun _ => 0, []⟩⟩
  exact ⟨c, d, s₁, s₂, hc, hd, hcall _ _ _ _ hc, hbinary _ _ _ _ _ hd⟩

/-- Operators do not always work on what a call would pass. With `x` at 0, a call with the arguments
`x` and `x = 5` passes 0 and 5, while `x + (x = 5)` adds 5 and 5. -/
theorem Expr.operand_values_differ :
    ¬ ∀ (L : Language) (a b : Expr) (s s₁ s₂ : Frame) (σ σ' : Store) (f : FuncRef)
      (op : Bytes) (o : BinOp) (w : Width) (dst : Option Reg) (c d : Code) (vs : List Int),
      (Expr.call (some f) [a, b]).lower dst s = .ok c s₁ →
      (Expr.binary op a b w).lower dst s = .ok d s₂ →
      BinOp.ofSymbol? op = some o → c.Delivers L s₁ .call [] σ vs σ' →
      d.Delivers L s₂ (.bin o) [] σ vs σ' := by
  intro hagree
  let x : Reg := ⟨0, .i32, false, "x"⟩
  let t : Reg := ⟨0, .i32, true, ""⟩
  let u : Reg := ⟨1, .i32, true, ""⟩
  obtain ⟨c, s₁, hcall⟩ : ∃ c s₁, Sample.passing.lower none ⟨.empty, 0, []⟩ = .ok c s₁ :=
    ⟨_, _, rfl⟩
  have hadd : Sample.adding.lower none ⟨.empty, 0, []⟩ = .ok
      [.mark .binary, .mark .assign, .make .mov [.reg x, .num 5 .i32], .make .mov [.reg t, .reg x],
      .make (.bin .add) [.reg u, .reg x, .reg t]] ⟨.empty, 2, [(0, x)]⟩ := rfl
  obtain ⟨_, _, _, _, hrun⟩ := hagree .sample _ _ _ _ _
    ⟨fun _ => 0, ⟨fun _ => 0, []⟩⟩ _ _ _ .add _ _ _ _ [0, 5] hcall hadd rfl (delivers_call hcall)
  have hnumbered := (Expr.lowers _ hadd).grows.numbered fun i p hp => by cases hp
  obtain ⟨ρ, ⟨n, hn⟩, _, hvalues⟩ := hrun (k := []) (ρ := fun _ => 0) (.refl _)
    ⟨linked_machine .sample _, hnumbered, by decide⟩ List.suffix_rfl fun _ _ _ => rfl
  rcases n with _ | _ | _ | _ | _ | _ | n
  · cases hn
  · cases hn
  · cases hn
  · cases hn
  · cases hn
    cases hvalues
  · cases hn
  · change Machine.run _ _ n (.halted .ranOff _) = _ at hn
    rw [Machine.run_halted] at hn
    cases hn

end ThreeAddress
