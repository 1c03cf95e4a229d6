import ThreeAddress.Proofs.Evaluation
import ThreeAddress.Proofs.Landing
import ThreeAddress.Proofs.Lowered

/-!
# The code of expressions

Running the code of an expression does to the world what evaluating the expression does, keeps the
registers of the variables in step with the store, leaves the value in the destination and touches
no temporary that was handed out before (`Lowers.simulates`). Evaluation reads variables in place,
as the code does.

All of it is about one finished function: `code` is its whole code, `fin` the frame at the end of
its lowering, and a piece of the code is run where it stands, followed by some `k`.
-/

namespace ThreeAddress
set_option autoImplicit false

open LowerM

/-- The machine gives operators, and the strings and functions that the session knows, their meaning
in the language. -/
structure Linked (L : Language) (M : Machine) (s : Session) : Prop where
  primitives : M.toPrimitives = L.toPrimitives
  data : ∀ (b : Bytes) (i : Nat), s.data.index? b = some i → M.data 0 i = L.str b
  callee : ∀ (name : Bytes) (l : Label), s.labels.interned? name = some l →
    M.callee l = L.callee name

namespace Machine
variable {M : Machine} {code : Code}

theorem Reaches.mark (n : NodeKind) (k : Code) (ρ : Regs) (w : World) :
    M.Reaches code ⟨.mark n :: k, ρ, w⟩ ⟨k, ρ, w⟩ := .next rfl k

theorem Reaches.defineLabel (l : Label) (k : Code) (ρ : Regs) (w : World) :
    M.Reaches code ⟨.defineLabel l :: k, ρ, w⟩ ⟨k, ρ, w⟩ := .next rfl k

theorem Reaches.goto {x : Instr} {ρ ρ' : Regs} {w w' : World} {l : Label} {k' : Code}
    (h : M.effect x ρ w = .jump l ρ' w') (hnodup : code.labels.Nodup)
    (hl : (.defineLabel l :: k') <:+ code) (k : Code) :
    M.Reaches code ⟨x :: k, ρ, w⟩ ⟨k', ρ', w'⟩ := by
  have hseek := Code.seek_of_suffix hnodup hl rfl
  exact (Reaches.jump h k).trans (by rw [hseek]; exact .defineLabel l k' ρ' w')

end Machine

namespace Regs
variable {fin : Frame} {ρ ρ₁ ρ₂ : Regs} {σ : Store}

/-- The variables' registers hold what the store says. -/
def Holds (fin : Frame) (ρ : Regs) (σ : Store) : Prop :=
  ∀ (id : Int) (r : Reg), fin.vars.lookup id = some r → ρ r.key = σ.vars id

theorem Holds.update_temp (h : ρ.Holds fin σ) (hfin : fin.Numbered) {d : Reg}
    (hd : d.temp = true) (a : Int) :
    Holds fin (Function.update ρ d.key a) σ := by
  intro id r hr
  have hne : r.key ≠ d.key := by
    intro hkey
    have htemp : r.temp = d.temp := congrArg RegKey.temp hkey
    rw [hfin.named hr, hd] at htemp
    cases htemp
  rw [Function.update_of_ne hne]
  exact h id r hr

theorem Holds.assign (h : ρ.Holds fin σ) (hfin : fin.Numbered) {id : Int} {r : Reg}
    (hr : fin.vars.lookup id = some r) (a : Int) :
    Holds fin (Function.update ρ r.key a) (σ.assign id a) := by
  intro id' r' hr'
  by_cases hid : id' = id
  · subst hid
    rw [hr] at hr'
    cases hr'
    simp [Store.assign]
  · have hne : r'.key ≠ r.key := fun hkey => hid (hfin.inj hr' hr hkey)
    rw [Function.update_of_ne hne]
    simpa [Store.assign, Function.update_of_ne hid] using h id' r' hr'

/-- No temporary below `lo` has changed, except for the destination. -/
def Kept (lo : Nat) (dst : Option Reg) (ρ ρ' : Regs) : Prop :=
  ∀ i : Int, i < lo → (∀ r ∈ dst, r.key ≠ ⟨true, i⟩) → ρ' ⟨true, i⟩ = ρ ⟨true, i⟩

theorem Kept.refl (lo : Nat) (dst : Option Reg) (ρ : Regs) : Kept lo dst ρ ρ := fun _ _ _ => rfl

theorem Kept.trans {lo : Nat} {dst : Option Reg} (h : Kept lo dst ρ ρ₁) (h' : Kept lo dst ρ₁ ρ₂) :
    Kept lo dst ρ ρ₂ :=
  fun i hi hdst => (h' i hi hdst).trans (h i hi hdst)

theorem Kept.weaken {lo hi : Nat} (h : Kept hi none ρ ρ₁) (hle : lo ≤ hi) (dst : Option Reg) :
    Kept lo dst ρ ρ₁ :=
  fun i hi _ => h i (by omega) fun _ hr => by cases hr

theorem Kept.temp_eq {lo i : Nat} {t : Reg} (h : Kept lo none ρ ρ₁) (ht : t.key = ⟨true, i⟩)
    (hi : i < lo) :
    ρ₁ t.key = ρ t.key := by
  rw [ht]
  exact h i (Int.ofNat_lt.mpr hi) fun _ hr => by cases hr

theorem Kept.update_named {d : Reg} (hd : d.temp = false) (lo : Nat) (dst : Option Reg)
    (ρ : Regs) (a : Int) :
    Kept lo dst ρ (Function.update ρ d.key a) := by
  intro i _ _
  refine Function.update_of_ne (fun hkey => ?_) a ρ
  have htemp : true = d.temp := congrArg RegKey.temp hkey
  rw [hd] at htemp
  cases htemp

theorem Kept.update_of_le {lo i : Nat} (hi : lo ≤ i) (dst : Option Reg) (ρ : Regs) (a : Int) :
    Kept lo dst ρ (Function.update ρ ⟨true, i⟩ a) := by
  intro j hj _
  refine Function.update_of_ne (fun hkey => ?_) a ρ
  have hindex : j = i := congrArg RegKey.index hkey
  omega

theorem Kept.update_orTemp {s s' : Frame} {dst : Option Reg} {w : Width} {d : Reg}
    (h : orTemp dst w s = .ok d s') {lo : Nat} (hlo : lo ≤ s.nextTemp) (ρ : Regs) (a : Int) :
    Kept lo dst ρ (Function.update ρ d.key a) := by
  rcases orTemp_eq_ok h with ⟨rfl, _⟩ | ⟨rfl, ht⟩
  · intro i _ hdst
    exact Function.update_of_ne (hdst d rfl).symm a ρ
  · obtain ⟨rfl, _⟩ := newTemp_eq_ok ht
    exact .update_of_le hlo none ρ a

end Regs

/-- A finished function, with the language it was written in and the machine it runs on. -/
structure Setting (L : Language) (M : Machine) (code : Code) (fin : Frame) : Prop where
  linked : Linked L M fin.session
  numbered : fin.Numbered
  nodup : code.labels.Nodup

/-- The run from `a` gets to `k`, in step with the store `σ'`, where `P` holds of the registers. -/
def Arrives (M : Machine) (code : Code) (fin : Frame) (a : Config) (k : Code) (lo : Nat)
    (dst : Option Reg) (σ' : Store) (P : Regs → Prop) : Prop :=
  ∃ ρ', M.Reaches code a ⟨k, ρ', σ'.world⟩ ∧ ρ'.Holds fin σ' ∧ Regs.Kept lo dst a.regs ρ' ∧ P ρ'

/-- As long as no temporary below `lo` changes, the operand `v` has the value `a` of the store at
that time. -/
def Operand.StandsFor (M : Machine) (fin : Frame) (lo : Nat) (v : Operand) (a : Store → Int)
    (ρ : Regs) : Prop :=
  ∀ (ρ' : Regs) (σ' : Store), ρ'.Holds fin σ' → Regs.Kept lo none ρ ρ' → M.value ρ' (some v) = a σ'

/-- The destination is a temporary below `lo`. -/
def Below (lo : Nat) (dst : Option Reg) : Prop := ∀ r ∈ dst, r.temp = true ∧ r.index < lo

/-- The opcode that branches where a logic operation stops. -/
def LogicOp.branch : LogicOp → Opcode
  | all => .brz
  | any => .bnz

/-- What it means that the code of a part, run from `a` where the store is `σ`, does its work and
goes on with `k`. -/
def Part.Correct (L : Language) (M : Machine) (code : Code) (fin s s' : Frame) (a : Config)
    (k : Code) (σ : Store) :
    Part → Prop
  | .value e dst =>
    Below s.nextTemp dst → Arrives M code fin a k s.nextTemp dst (e.eval L .inPlace σ).2 fun ρ =>
      ∀ d ∈ dst, ρ d.key = (e.eval L .inPlace σ).1
  | .fresh e _ t => Arrives M code fin a k s.nextTemp none (e.eval L .inPlace σ).2
      fun ρ => ρ t.key = (e.eval L .inPlace σ).1
  | .operand e v => Arrives M code fin a k s.nextTemp none (e.eval L .inPlace σ).2
      (v.StandsFor M fin s'.nextTemp (e.held .inPlace (e.eval L .inPlace σ).1))
  | .terms _ dst acc list =>
    ∀ sum : Store → Int, acc.StandsFor M fin s.nextTemp sum a.regs → Below s.nextTemp dst →
      Arrives M code fin a k s.nextTemp dst (Expr.evalTerms L .inPlace sum list σ).2 fun ρ =>
      ∀ d ∈ dst, ρ d.key = (Expr.evalTerms L .inPlace sum list σ).1
  | .tests branch target list =>
    ∀ o : LogicOp, branch = o.branch →
      Arrives M code fin a (if (Expr.evalUntil L .inPlace o list σ).1 then code.seek target else k)
      s.nextTemp none (Expr.evalUntil L .inPlace o list σ).2 fun _ => True
  | .guard e target =>
      Arrives M code fin a (if (e.guard L .inPlace σ).1 then k else code.seek target) s.nextTemp
        none (e.guard L .inPlace σ).2 fun _ => True
  | .args list _ ts => Arrives M code fin a k s.nextTemp none (Expr.evalArgs L .inPlace list σ).2
      fun ρ => ts.map (fun t => ρ t.key) = (Expr.evalArgs L .inPlace list σ).1

section Arriving
variable {L : Language} {M : Machine} {code : Code} {fin : Frame} {a : Config} {k k' : Code}
  {lo hi : Nat} {dst : Option Reg} {σ σ' : Store} {P Q : Regs → Prop} {ρ : Regs}

theorem Arrives.of_reaches {b : Config} (h : M.Reaches code a b) (hregs : b.regs = a.regs)
    (hb : Arrives M code fin b k lo dst σ P) : Arrives M code fin a k lo dst σ P := by
  obtain ⟨ρ', hreach, hρ', hkept, hP⟩ := hb
  exact ⟨ρ', h.trans hreach, hρ', hregs ▸ hkept, hP⟩

theorem Arrives.mark {n : NodeKind} {w : World} (h : Arrives M code fin ⟨k, ρ, w⟩ k' lo dst σ P) :
    Arrives M code fin ⟨.mark n :: k, ρ, w⟩ k' lo dst σ P := .of_reaches (.mark n k ρ w) rfl h

theorem Arrives.mono (h : Arrives M code fin a k hi dst σ P) (hle : lo ≤ hi) :
    Arrives M code fin a k lo dst σ P := by
  obtain ⟨ρ', hreach, hρ', hkept, hP⟩ := h
  exact ⟨ρ', hreach, hρ', fun i hi hdst => hkept i (by omega) hdst, hP⟩

/-- What comes first may use temporaries of its own; what comes after may also use the
destination. -/
theorem Arrives.bind (h : Arrives M code fin a k hi none σ P) (hle : lo ≤ hi)
    (h' : ∀ ρ', ρ'.Holds fin σ → Regs.Kept hi none a.regs ρ' → P ρ' → Arrives M code fin
      ⟨k, ρ', σ.world⟩ k' lo dst σ' Q) : Arrives M code fin a k' lo dst σ' Q := by
  obtain ⟨ρ₁, hreach, hρ₁, hkept, hP⟩ := h
  obtain ⟨ρ₂, hreach', hρ₂, hkept', hQ⟩ := h' ρ₁ hρ₁ hkept hP
  exact ⟨ρ₂, hreach.trans hreach', hρ₂, (hkept.weaken hle dst).trans hkept', hQ⟩

theorem Arrives.andThen (h : Arrives M code fin a k lo dst σ P)
    (h' : ∀ ρ', ρ'.Holds fin σ → P ρ' → Arrives M code fin ⟨k, ρ', σ.world⟩ k' lo dst σ' Q) :
    Arrives M code fin a k' lo dst σ' Q := by
  obtain ⟨ρ₁, hreach, hρ₁, hkept, hP⟩ := h
  obtain ⟨ρ₂, hreach', hρ₂, hkept', hQ⟩ := h' ρ₁ hρ₁ hP
  exact ⟨ρ₂, hreach.trans hreach', hρ₂, hkept.trans hkept', hQ⟩

theorem Below.mono (h : Below lo dst) (hle : lo ≤ hi) : Below hi dst := by
  intro r hr
  obtain ⟨htemp, hindex⟩ := h r hr
  exact ⟨htemp, by omega⟩

theorem eq_of_orTemp {s s' : Frame} {w : Width} {d r : Reg} (h : orTemp dst w s = .ok d s')
    (hr : r ∈ dst) : r = d := by
  rcases orTemp_eq_ok h with ⟨rfl, _⟩ | ⟨rfl, _⟩
  · cases hr
    rfl
  · cases hr

theorem Below.orTemp {s s' : Frame} {w : Width} {d : Reg} (h : Below lo dst) (hlo : lo ≤ s.nextTemp)
    (hd : orTemp dst w s = .ok d s') : d.temp = true ∧ d.index < s'.nextTemp := by
  rcases orTemp_eq_ok hd with ⟨rfl, rfl⟩ | ⟨rfl, ht⟩
  · obtain ⟨htemp, hindex⟩ := h d rfl
    exact ⟨htemp, by omega⟩
  · obtain ⟨rfl, rfl⟩ := newTemp_eq_ok ht
    exact ⟨rfl, Int.ofNat_lt.mpr (Nat.lt_succ_self _)⟩

theorem Arrives.put (hfin : fin.Numbered) {s s' : Frame} {w : Width} {d : Reg} {x : Instr} {v : Int}
    (hd : LowerM.orTemp dst w s = .ok d s') (hdst : Below lo dst) (hlo : lo ≤ s.nextTemp)
    (hρ : ρ.Holds fin σ) (hx : M.effect x ρ σ.world = .next (Function.update ρ d.key v) σ.world) :
    Arrives M code fin ⟨x :: k, ρ, σ.world⟩ k lo dst σ fun ρ' => ∀ r ∈ dst, ρ' r.key = v := by
  refine ⟨_, .next hx k, hρ.update_temp hfin (hdst.orTemp hlo hd).1 v,
    .update_orTemp hd hlo ρ v, ?_⟩
  intro r hr
  rw [eq_of_orTemp hd hr]
  exact Function.update_self _ _ _

theorem Arrives.given (hfin : fin.Numbered) (hdst : Below lo dst) {v : Operand} {b : Int}
    (hρ : ρ.Holds fin σ) (hv : M.value ρ (some v) = b) :
    Arrives M code fin ⟨ThreeAddress.given dst v ++ k, ρ, σ.world⟩ k lo dst σ fun ρ' =>
      ∀ r ∈ dst, ρ' r.key = b := by
  subst hv
  cases dst with
  | none => exact ⟨ρ, .refl _, hρ, .refl lo none ρ, fun r hr => by cases hr⟩
  | some d =>
    obtain ⟨htemp, _⟩ := hdst d rfl
    refine ⟨_, .next rfl k, hρ.update_temp hfin htemp _, ?_, fun r hr => ?_⟩
    · intro i _ hne
      exact Function.update_of_ne (hne d rfl).symm _ _
    · cases hr
      exact Function.update_self _ _ _

theorem Reads.value_eq {e : Expr} {v : Operand} (h : Reads fin e v)
    (hlinked : Linked L M fin.session) (hρ : ρ.Holds fin σ) (m : Reading) :
    M.value ρ (some v) = (e.eval L m σ).1 ∧ (e.eval L m σ).2 = σ := by
  cases h with
  | num n w => exact ⟨rfl, rfl⟩
  | var hr => exact ⟨hρ _ _ hr, rfl⟩
  | str hi => exact ⟨hlinked.data _ _ hi, rfl⟩
  | funcRef hl => exact ⟨hlinked.callee _ _ hl, rfl⟩

theorem Expr.held_of_atom? {e : Expr} (he : e.atom? = none) (m : Reading) (a : Int) (σ : Store) :
    e.held m a σ = a := by
  cases m with
  | strict => cases e <;> rfl
  | inPlace =>
    cases e with
    | var v => cases he
    | _ => rfl

end Arriving

section Simulation
variable {L : Language} {M : Machine} {code : Code} {fin : Frame}

theorem Lowers.fresh_key {e : Expr} {w : Width} {t : Reg} {s s' : Frame} {c : Code}
    (h : Lowers (.fresh e w t) s c s') :
    t.key = ⟨true, s.nextTemp⟩ ∧ s.nextTemp < s'.nextTemp := by
  cases h with
  | fresh ht hx =>
    obtain ⟨rfl, rfl⟩ := newTemp_eq_ok ht
    exact ⟨rfl, hx.grows.temps⟩

theorem Operand.StandsFor.now {lo : Nat} {v : Operand} {a : Store → Int} {ρ : Regs} {σ : Store}
    (h : v.StandsFor M fin lo a ρ) (hρ : ρ.Holds fin σ) : M.value ρ (some v) = a σ :=
  h ρ σ hρ (.refl lo none ρ)

theorem Linked.effect_unary {s : Session} (h : Linked L M s) {op : Bytes} {o : UnOp}
    (ho : UnOp.ofSymbol? op = some o) (d : Reg) (v : Operand) (ρ : Regs) (w : World) :
    M.effect (.make (.un o) [.reg d, v]) ρ w =
      .next (Function.update ρ d.key (L.unary op (M.value ρ (some v)))) w := by
  rw [Language.unary, ho, Option.elim, ← h.primitives]
  rfl

theorem Linked.effect_bin {s : Session} (h : Linked L M s) (o : BinOp) (d : Reg) (v v' : Operand)
    (ρ : Regs) (w : World) : M.effect (.make (.bin o) [.reg d, v, v']) ρ w =
      .next (Function.update ρ d.key (L.bin o (M.value ρ (some v)) (M.value ρ (some v')))) w := by
  rw [← h.primitives]
  rfl

theorem Linked.effect_call {s : Session} (h : Linked L M s) (v : Operand) (l : Label) (w : Width)
    (ts : List Reg) (ρ : Regs) (u : World) :
    M.effect (.make .call (v :: .callee l w :: ts.map .reg)) ρ u =
      .next (ρ.put (some v) (L.call (M.callee l) (ts.map fun t => ρ t.key) u).1)
        (L.call (M.callee l) (ts.map fun t => ρ t.key) u).2 := by
  have hargs : ((Instr.make .call (v :: .callee l w :: ts.map .reg)).args.drop 2).map (M.value ρ) =
      ts.map fun t => ρ t.key := by
    simp only [Instr.make, List.map_cons, List.drop_succ_cons, List.drop_zero, List.map_map]
    rfl
  rw [← h.primitives, ← hargs]
  rfl

theorem Machine.effect_branch (M : Machine) (o : LogicOp) (l : Label) (v : Operand)
    (ρ : Regs) (w : World) :
    M.effect (.make o.branch [.label l, v]) ρ w =
      if o.stops (M.value ρ (some v)) then .jump l ρ w else .next ρ w := by
  cases o with
  | all =>
    simp only [LogicOp.stops, beq_iff_eq]
    rfl
  | any =>
    simp only [LogicOp.stops, bne_iff_ne]
    rfl

theorem Reads.standsFor {e : Expr} {v : Operand} (h : Reads fin e v)
    (hlinked : Linked L M fin.session) (lo : Nat) (ρ : Regs) (σ : Store) :
    v.StandsFor M fin lo (e.held .inPlace (e.eval L .inPlace σ).1) ρ := by
  intro ρ' σ' hρ' _
  rw [(h.value_eq hlinked hρ' .inPlace).1]
  cases h <;> rfl

/-- The code of the part does its work wherever it stands. -/
def Part.Simulated (L : Language) (M : Machine) (code : Code) (fin : Frame) (p : Part) (s : Frame)
    (c : Code) (s' : Frame) : Prop :=
  ∀ ⦃k : Code⦄ ⦃ρ : Regs⦄ ⦃σ : Store⦄, (c ++ k) <:+ code → ρ.Holds fin σ →
    p.Correct L M code fin s s' ⟨c ++ k, ρ, σ.world⟩ k σ

section Rules
variable {op : Bytes} {x y : Expr} {w : Width} {dst : Option Reg} {d r t : Reg} {v vx vy : Operand}
  {cx cy ct : Code} {s s₁ s₂ s₃ s' : Frame}

theorem arrives_beside (hx : Part.Simulated L M code fin (.operand x vx) s cx s₁) {k : Code}
    {ρ : Regs} {σ : Store} {a : Store → Int} (hk : (cx ++ k) <:+ code) (hρ : ρ.Holds fin σ)
    (hv : v.StandsFor M fin s.nextTemp a ρ) :
    Arrives M code fin ⟨cx ++ k, ρ, σ.world⟩ k s.nextTemp none (x.eval L .inPlace σ).2 fun ρ' =>
      M.value ρ' (some v) = a (x.eval L .inPlace σ).2 ∧
        M.value ρ' (some vx) = (x.eval L .inPlace σ).1 := by
  obtain ⟨ρ₁, hreach, hρ₁, hkept, hvx⟩ := hx hk hρ
  exact ⟨ρ₁, hreach, hρ₁, hkept, hv ρ₁ _ hρ₁ hkept, by rw [hvx.now hρ₁, Expr.held_eval]⟩

theorem arrives_operands (hgrows : s.Grows s₁)
    (hx : Part.Simulated L M code fin (.operand x vx) s cx s₁)
    (hy : Part.Simulated L M code fin (.operand y vy) s₁ cy s₂) {k : Code} {ρ : Regs} {σ : Store}
    (hk : (cx ++ (cy ++ k)) <:+ code) (hρ : ρ.Holds fin σ) :
    Arrives M code fin ⟨cx ++ (cy ++ k), ρ, σ.world⟩ k s.nextTemp none
      (y.eval L .inPlace (x.eval L .inPlace σ).2).2
      fun ρ' => M.value ρ' (some vx) =
          x.held .inPlace (x.eval L .inPlace σ).1 (y.eval L .inPlace (x.eval L .inPlace σ).2).2 ∧
        M.value ρ' (some vy) = (y.eval L .inPlace (x.eval L .inPlace σ).2).1 := by
  refine .bind (hx hk hρ) (Nat.le_refl _) ?_
  intro ρ₁ hρ₁ _ hvx
  exact (arrives_beside hy ((List.suffix_append cx _).trans hk) hρ₁ hvx).mono hgrows.temps

theorem simulated_unary (S : Setting L M code fin) {o : UnOp} (ho : UnOp.ofSymbol? op = some o)
    (hgrows : s.Grows s₁) (hd : orTemp dst w s₁ = .ok d s')
    (hx : Part.Simulated L M code fin (.operand x vx) s cx s₁) :
    Part.Simulated L M code fin (.value (.unary op x w) dst) s
      (.mark .unary :: (cx ++ [.make (.un o) [.reg d, vx]])) s' := by
  intro k ρ σ hk hρ hdst
  simp only [List.cons_append, List.append_assoc, List.nil_append] at hk ⊢
  refine .mark (.bind (hx ((List.suffix_cons _ _).trans hk) hρ) (Nat.le_refl _) ?_)
  intro ρ₁ hρ₁ _ hvx
  have ha : M.value ρ₁ (some vx) = (x.eval L .inPlace σ).1 := by rw [hvx.now hρ₁, Expr.held_eval]
  rw [Expr.eval]
  refine .put S.numbered hd hdst hgrows.temps hρ₁ ?_
  rw [S.linked.effect_unary ho, ha]

theorem simulated_binary (S : Setting L M code fin) {o : BinOp} (ho : BinOp.ofSymbol? op = some o)
    (hgrows : s.Grows s₁) (hgrows' : s₁.Grows s₂) (hd : orTemp dst w s₂ = .ok d s')
    (hx : Part.Simulated L M code fin (.operand x vx) s cx s₁)
    (hy : Part.Simulated L M code fin (.operand y vy) s₁ cy s₂) :
    Part.Simulated L M code fin (.value (.binary op x y w) dst) s
      (.mark .binary :: (cx ++ (cy ++ [.make (.bin o) [.reg d, vx, vy]]))) s' := by
  intro k ρ σ hk hρ hdst
  simp only [List.cons_append, List.append_assoc, List.nil_append] at hk ⊢
  refine .mark
    (.bind (arrives_operands hgrows hx hy ((List.suffix_cons _ _).trans hk) hρ) (Nat.le_refl _) ?_)
  intro ρ₁ hρ₁ _ hvalues
  obtain ⟨ha, hb⟩ := hvalues
  rw [Expr.eval]
  refine .put S.numbered hd hdst (hgrows.trans hgrows').temps hρ₁ ?_
  rw [S.linked.effect_bin, ha, hb, Language.binary, ho, Option.elim]

theorem simulated_chainOne (hx : Part.Simulated L M code fin (.value x dst) s cx s') :
    Part.Simulated L M code fin (.value (.chain x [] w) dst) s (.mark .chain :: cx) s' := by
  intro k ρ σ hk hρ hdst
  rw [Expr.eval, Expr.evalTerms, Expr.held_eval]
  exact .mark (hx ((List.suffix_cons _ _).trans hk) hρ hdst)

theorem simulated_chain {rest : List (Bytes × Expr)} (hgrows : s.Grows s₁)
    (hx : Part.Simulated L M code fin (.operand x v) s cx s₁)
    (ht : Part.Simulated L M code fin (.terms w dst v rest) s₁ ct s') :
    Part.Simulated L M code fin (.value (.chain x rest w) dst) s
      (.mark .chain :: (cx ++ ct)) s' := by
  intro k ρ σ hk hρ hdst
  simp only [List.cons_append, List.append_assoc] at hk ⊢
  have hkx := (List.suffix_cons _ _).trans hk
  refine .mark (.bind (hx hkx hρ) (Nat.le_refl _) ?_)
  intro ρ₁ hρ₁ _ hv
  rw [Expr.eval]
  exact (ht ((List.suffix_append cx _).trans hkx) hρ₁ _ hv (hdst.mono hgrows.temps)).mono
    hgrows.temps

theorem simulated_load (S : Setting L M code fin) (hgrows : s.Grows s₁)
    (hd : orTemp dst w s₁ = .ok d s') (hx : Part.Simulated L M code fin (.operand x vx) s cx s₁) :
    Part.Simulated L M code fin (.value (.load x w) dst) s
      (.mark .load :: (cx ++ [.make .read [.reg d, vx]])) s' := by
  intro k ρ σ hk hρ hdst
  simp only [List.cons_append, List.append_assoc, List.nil_append] at hk ⊢
  refine .mark (.bind (hx ((List.suffix_cons _ _).trans hk) hρ) (Nat.le_refl _) ?_)
  intro ρ₁ hρ₁ _ hvx
  have ha : M.value ρ₁ (some vx) = (x.eval L .inPlace σ).1 := by rw [hvx.now hρ₁, Expr.held_eval]
  rw [Expr.eval]
  refine .put S.numbered hd hdst hgrows.temps hρ₁ ?_
  rw [← ha]
  rfl

/-- The result that a logic operation starts with stays in `d` while its operands are tested. -/
theorem arrives_tests (S : Setting L M code fin) {o : LogicOp} {target : Label} {es : List Expr}
    {k : Code} {ρ : Regs} {σ : Store} (n : Int) (hd : orTemp dst w s = .ok d s₁)
    (hdst : Below s.nextTemp dst) (hs₂ : s₂.nextTemp = s₁.nextTemp)
    (ht : Part.Simulated L M code fin (.tests o.branch target es) s₂ ct s')
    (hk : (ct ++ k) <:+ code) (hρ : ρ.Holds fin σ) :
    Arrives M code fin ⟨.make .mov [.reg d, .num n w] :: (ct ++ k), ρ, σ.world⟩
      (if (Expr.evalUntil L .inPlace o es σ).1 then code.seek target else k) s.nextTemp dst
      (Expr.evalUntil L .inPlace o es σ).2 fun ρ' => ρ' d.key = n := by
  obtain ⟨htemp, hindex⟩ := hdst.orTemp (Nat.le_refl _) hd
  have hρ₁ := hρ.update_temp S.numbered htemp n
  obtain ⟨ρ₂, hreach, hρ₂, hkept, _⟩ := ht hk hρ₁ o rfl
  have hle : s.nextTemp ≤ s₂.nextTemp := by
    rw [hs₂]
    exact (orTemp_grows hd).temps
  refine ⟨ρ₂, (Machine.Reaches.next rfl _).trans hreach, hρ₂, ?_, ?_⟩
  · have hfirst : Regs.Kept s.nextTemp dst ρ _ := .update_orTemp hd (Nat.le_refl _) ρ n
    exact hfirst.trans (hkept.weaken hle dst)
  · have hkey : d.key = ⟨true, d.index⟩ := by rw [Reg.key, htemp]
    have hkeep := hkept d.index (by rw [hs₂]; exact hindex) fun r hr => by cases hr
    rw [← hkey] at hkeep
    exact hkeep.trans (Function.update_self _ _ _)

theorem simulated_all (S : Setting L M code fin) {target : Label} {es : List Expr}
    (ho : LogicOp.ofSymbol? op = some .all) (hd : orTemp dst w s = .ok d s₁)
    (hs₂ : s₂.nextTemp = s₁.nextTemp)
    (ht : Part.Simulated L M code fin (.tests .brz target es) s₂ ct s') :
    Part.Simulated L M code fin (.value (.logic op es w) dst) s
      (.mark .logic :: .make .mov [.reg d, .num 0 w] ::
        (ct ++ [.make .mov [.reg d, .num 1 w], .defineLabel target])) s' := by
  intro k ρ σ hk hρ hdst
  simp only [List.cons_append, List.append_assoc, List.nil_append] at hk ⊢
  have hkt := (List.suffix_cons _ _).trans ((List.suffix_cons _ _).trans hk)
  have htarget := (List.suffix_cons _ _).trans ((List.suffix_append ct _).trans hkt)
  refine .mark (.andThen (arrives_tests S (o := .all) 0 hd hdst hs₂ ht hkt hρ) ?_)
  intro ρ₁ hρ₁ hzero
  rw [Expr.eval_logic L .inPlace ho]
  generalize Expr.evalUntil L .inPlace .all es σ = q at hρ₁ ⊢
  obtain ⟨_ | _, σ₁⟩ := q
  · refine .andThen (.put S.numbered hd hdst (Nat.le_refl _) hρ₁ rfl) ?_
    intro ρ₂ hρ₂ hone
    exact ⟨ρ₂, .defineLabel target k ρ₂ _, hρ₂, .refl _ _ _, hone⟩
  · rw [if_pos rfl, Code.seek_of_suffix S.nodup htarget rfl]
    refine ⟨ρ₁, .defineLabel target k ρ₁ _, hρ₁, .refl _ _ _, fun r hr => ?_⟩
    rw [eq_of_orTemp hd hr, hzero]
    rfl

theorem simulated_any (S : Setting L M code fin) {found fin' : Label} {es : List Expr}
    (ho : LogicOp.ofSymbol? op = some .any) (hd : orTemp dst w s = .ok d s₁)
    (hs₂ : s₂.nextTemp = s₁.nextTemp)
    (ht : Part.Simulated L M code fin (.tests .bnz found es) s₂ ct s') :
    Part.Simulated L M code fin (.value (.logic op es w) dst) s
      (.mark .logic :: .make .mov [.reg d, .num 1 w] ::
        (ct ++ [.make .mov [.reg d, .num 0 w], .jump fin', .defineLabel found, .defineLabel fin']))
          s' := by
  intro k ρ σ hk hρ hdst
  simp only [List.cons_append, List.append_assoc, List.nil_append] at hk ⊢
  have hkt := (List.suffix_cons _ _).trans ((List.suffix_cons _ _).trans hk)
  have hjump := (List.suffix_cons _ _).trans ((List.suffix_append ct _).trans hkt)
  have hfound := (List.suffix_cons _ _).trans hjump
  have hend := (List.suffix_cons _ _).trans hfound
  refine .mark (.andThen (arrives_tests S (o := .any) 1 hd hdst hs₂ ht hkt hρ) ?_)
  intro ρ₁ hρ₁ hone
  rw [Expr.eval_logic L .inPlace ho]
  generalize Expr.evalUntil L .inPlace .any es σ = q at hρ₁ ⊢
  obtain ⟨_ | _, σ₁⟩ := q
  · refine .andThen (.put S.numbered hd hdst (Nat.le_refl _) hρ₁ rfl) ?_
    intro ρ₂ hρ₂ hzero
    exact ⟨ρ₂, .goto rfl S.nodup hend _, hρ₂, .refl _ _ _, hzero⟩
  · rw [if_pos rfl, Code.seek_of_suffix S.nodup hfound rfl]
    refine ⟨ρ₁, (Machine.Reaches.defineLabel found _ ρ₁ _).trans (.defineLabel fin' k ρ₁ _), hρ₁,
      .refl _ _ _, fun r hr => ?_⟩
    rw [eq_of_orTemp hd hr, hone]
    rfl

theorem simulated_cond (S : Setting L M code fin) {c a b : Expr} {other done : Label}
    {cc ca cb : Code} {s₄ : Frame} (hs₁ : s.nextTemp ≤ s₁.nextTemp)
    (hs₂ : s₁.nextTemp ≤ s₂.nextTemp) (hc : Part.Simulated L M code fin (.guard c other) s cc s₃)
    (ha : Part.Simulated L M code fin (.value a dst) s₁ ca s₂)
    (hb : Part.Simulated L M code fin (.value b dst) s₂ cb s₄) :
    Part.Simulated L M code fin (.value (.cond c a b w) dst) s
      (.mark .cond ::
          (cc ++ (ca ++ .jump done :: .defineLabel other :: (cb ++ [.defineLabel done])))) s₄ := by
  intro k ρ σ hk hρ hdst
  simp only [List.cons_append, List.append_assoc, List.nil_append] at hk ⊢
  have hkc := (List.suffix_cons _ _).trans hk
  have hka := (List.suffix_append cc _).trans hkc
  have hother := (List.suffix_cons _ _).trans ((List.suffix_append ca _).trans hka)
  have hkb := (List.suffix_cons _ _).trans hother
  have hdone := (List.suffix_append cb _).trans hkb
  refine .mark (.bind (hc hkc hρ) (Nat.le_refl _) ?_)
  intro ρ₁ hρ₁ _ _
  rw [Expr.eval_cond]
  generalize c.guard L .inPlace σ = q at hρ₁ ⊢
  obtain ⟨_ | _, σ₁⟩ := q
  · rw [if_neg Bool.false_ne_true, Code.seek_of_suffix S.nodup hother rfl]
    refine .of_reaches (.defineLabel other _ ρ₁ _) rfl ?_
    have hle := Nat.le_trans hs₁ hs₂
    refine .andThen ((hb hkb hρ₁ (hdst.mono hle)).mono hle) ?_
    intro ρ₂ hρ₂ hv
    exact ⟨ρ₂, .defineLabel done k ρ₂ _, hρ₂, .refl _ _ _, hv⟩
  · refine .andThen ((ha hka hρ₁ (hdst.mono hs₁)).mono hs₁) ?_
    intro ρ₂ hρ₂ hv
    exact ⟨ρ₂, .goto rfl S.nodup hdone _, hρ₂, .refl _ _ _, hv⟩

theorem simulated_call (S : Setting L M code fin) {f : FuncRef} {es : List Expr} {l : Label}
    {ts : List Reg} (hl : fin.session.labels.interned? f.name = some l)
    (hs : s.nextTemp ≤ s₁.nextTemp)
    (ha : Part.Simulated L M code fin (.args es f.params ts) s₁ cx s') :
    Part.Simulated L M code fin (.value (.call (some f) es) dst) s
      (.mark .call :: (cx ++ [.make .call (resultOf dst :: .callee l f.ret :: ts.map .reg)]))
        s' := by
  intro k ρ σ hk hρ hdst
  simp only [List.cons_append, List.append_assoc, List.nil_append] at hk ⊢
  refine .mark (.bind (ha ((List.suffix_cons _ _).trans hk) hρ) hs ?_)
  intro ρ₁ hρ₁ _ hts
  have heffect :=
    S.linked.effect_call (resultOf dst) l f.ret ts ρ₁ (Expr.evalArgs L .inPlace es σ).2.world
  rw [hts, S.linked.callee _ _ hl] at heffect
  rw [Expr.eval]
  refine ⟨_, .next heffect k, ?_⟩
  cases dst with
  | none => exact ⟨hρ₁, .refl _ _ _, fun r hr => by cases hr⟩
  | some d =>
    refine ⟨hρ₁.update_temp S.numbered (hdst d rfl).1 _, fun i _ hne => ?_, fun r hr => ?_⟩
    · exact Function.update_of_ne (hne d rfl).symm _ _
    · cases hr
      exact Function.update_self _ _ _

theorem arrives_assigned (S : Setting L M code fin) {u : Var} {k : Code} {ρ : Regs} {σ : Store}
    {lo : Nat} {b : Int} (hr : fin.vars.lookup u.id = some r) (hdst : Below lo dst)
    (hρ : ρ.Holds fin σ) (hv : M.value ρ (some v) = b) :
    Arrives M code fin ⟨.make .mov [.reg r, v] :: (given dst (.reg r) ++ k), ρ, σ.world⟩ k lo dst
      (σ.assign u.id b)
      fun ρ' => ∀ d ∈ dst, ρ' d.key = b := by
  have hmov :
      M.effect (.make .mov [.reg r, v]) ρ σ.world = .next (Function.update ρ r.key b) σ.world := by
    rw [← hv]
    rfl
  have hassign : Arrives M code fin ⟨.make .mov [.reg r, v] :: (given dst (.reg r) ++ k), ρ,
      σ.world⟩ (given dst (.reg r) ++ k) lo dst (σ.assign u.id b) fun ρ' => ρ' r.key = b :=
    ⟨_, .next hmov _, hρ.assign S.numbered hr b, .update_named (S.numbered.named hr) lo dst ρ b,
      Function.update_self _ _ _⟩
  exact hassign.andThen fun ρ₁ hρ₁ hb => .given S.numbered hdst hρ₁ hb

theorem simulated_assignAtom (S : Setting L M code fin) {u : Var}
    (hr : fin.vars.lookup u.id = some r) (hv : Reads fin x v) :
    Part.Simulated L M code fin (.value (.assign (some u) x) dst) s
      (.mark .assign :: .make .mov [.reg r, v] :: given dst (.reg r)) s' := by
  intro k ρ σ hk hρ hdst
  obtain ⟨hvalue, hstore⟩ := hv.value_eq S.linked hρ .inPlace
  rw [Expr.eval, hstore]
  exact .mark (arrives_assigned S hr hdst hρ hvalue)

theorem simulated_assign (S : Setting L M code fin) {u : Var} (hr : fin.vars.lookup u.id = some r)
    (hs : s.nextTemp ≤ s₁.nextTemp) (hx : Part.Simulated L M code fin (.fresh x w t) s₁ cx s') :
    Part.Simulated L M code fin (.value (.assign (some u) x) dst) s
      (.mark .assign :: (cx ++ .make .mov [.reg r, .reg t] :: given dst (.reg r))) s' := by
  intro k ρ σ hk hρ hdst
  simp only [List.cons_append, List.append_assoc] at hk ⊢
  refine .mark (.bind (hx ((List.suffix_cons _ _).trans hk) hρ) hs ?_)
  intro ρ₁ hρ₁ _ hvalue
  rw [Expr.eval]
  exact arrives_assigned S hr hdst hρ₁ hvalue

theorem simulated_fresh (ht : newTemp w s = .ok t s₁)
    (hx : Part.Simulated L M code fin (.value x (some t)) s₁ cx s') :
    Part.Simulated L M code fin (.fresh x w t) s cx s' := by
  intro k ρ σ hk hρ
  obtain ⟨rfl, rfl⟩ := newTemp_eq_ok ht
  have hbelow : Below (s.nextTemp + 1) (some (⟨s.nextTemp, w, true, ""⟩ : Reg)) := by
    intro r hr
    cases hr
    exact ⟨rfl, Int.ofNat_lt.mpr (Nat.lt_succ_self _)⟩
  obtain ⟨ρ', hreach, hρ', hkept, hv⟩ := hx hk hρ hbelow
  refine ⟨ρ', hreach, hρ',
    fun i hi _ => hkept i (by simp only; omega) fun r hr hkey => ?_, hv _ rfl⟩
  cases hr
  have hindex : (s.nextTemp : Int) = i := congrArg RegKey.index hkey
  omega

theorem simulated_termsLast (S : Setting L M code fin) {o : BinOp}
    (ho : BinOp.ofChainSymbol? op = some o) (hgrows : s.Grows s₁) (hd : orTemp dst w s₁ = .ok d s')
    (hx : Part.Simulated L M code fin (.operand x vx) s cx s₁) :
    Part.Simulated L M code fin (.terms w dst v [(op, x)]) s
      (cx ++ [.make (.bin o) [.reg d, v, vx]]) s' := by
  intro k ρ σ hk hρ sum hsum hdst
  simp only [List.append_assoc, List.cons_append, List.nil_append] at hk ⊢
  refine .bind (arrives_beside hx hk hρ hsum) (Nat.le_refl _) ?_
  intro ρ₁ hρ₁ _ hvalues
  obtain ⟨ha, hb⟩ := hvalues
  rw [Expr.evalTerms, Expr.evalTerms]
  refine .put S.numbered hd hdst hgrows.temps hρ₁ ?_
  rw [S.linked.effect_bin, ha, hb, Language.term, ho, Option.elim]

/-- A partial sum goes to a temporary that what comes after does not touch. -/
theorem arrives_term (S : Setting L M code fin) {o : BinOp} (ho : BinOp.ofChainSymbol? op = some o)
    (hgrows : s.Grows s₁) (ht : newTemp w s₁ = .ok t s₂)
    (hx : Part.Simulated L M code fin (.operand x vx) s cx s₁) {k : Code} {ρ : Regs} {σ : Store}
    {sum : Store → Int} (hk : (cx ++ .make (.bin o) [.reg t, v, vx] :: k) <:+ code)
    (hρ : ρ.Holds fin σ) (hsum : v.StandsFor M fin s.nextTemp sum ρ) :
    Arrives M code fin ⟨cx ++ .make (.bin o) [.reg t, v, vx] :: k, ρ, σ.world⟩ k s.nextTemp none
      (x.eval L .inPlace σ).2
      (Operand.StandsFor M fin s₂.nextTemp (.reg t)
        fun _ => L.term op (sum (x.eval L .inPlace σ).2) (x.eval L .inPlace σ).1) := by
  refine .bind (arrives_beside hx hk hρ hsum) (Nat.le_refl _) ?_
  intro ρ₁ hρ₁ _ hvalues
  obtain ⟨ha, hb⟩ := hvalues
  obtain ⟨rfl, rfl⟩ := newTemp_eq_ok ht
  have heffect :=
    S.linked.effect_bin o ⟨s₁.nextTemp, w, true, ""⟩ v vx ρ₁ (x.eval L .inPlace σ).2.world
  rw [ha, hb] at heffect
  rw [Language.term, ho, Option.elim]
  refine ⟨_, .next heffect k, hρ₁.update_temp S.numbered rfl _,
    .update_of_le hgrows.temps none ρ₁ _, ?_⟩
  intro ρ₂ σ₂ _ hkept
  exact (hkept.temp_eq rfl (Nat.lt_succ_self s₁.nextTemp)).trans (Function.update_self _ _ _)

theorem simulated_termsMore (S : Setting L M code fin) {o : BinOp} {rest : List (Bytes × Expr)}
    (ho : BinOp.ofChainSymbol? op = some o) (hgrows : s.Grows s₁) (ht : newTemp w s₁ = .ok t s₂)
    (hx : Part.Simulated L M code fin (.operand x vx) s cx s₁)
    (hrest : Part.Simulated L M code fin (.terms w dst (.reg t) rest) s₂ ct s') :
    Part.Simulated L M code fin (.terms w dst v ((op, x) :: rest)) s
      (cx ++ .make (.bin o) [.reg t, v, vx] :: ct) s' := by
  intro k ρ σ hk hρ sum hsum hdst
  simp only [List.append_assoc, List.cons_append] at hk ⊢
  have hks := (List.suffix_cons _ _).trans ((List.suffix_append cx _).trans hk)
  have hle : s.nextTemp ≤ s₂.nextTemp := (hgrows.trans (newTemp_grows ht)).temps
  refine .bind (arrives_term S ho hgrows ht hx hk hρ hsum) (Nat.le_refl _) ?_
  intro ρ₁ hρ₁ _ hsum₁
  rw [Expr.evalTerms]
  exact (hrest hks hρ₁ _ hsum₁ (hdst.mono hle)).mono hle

theorem simulated_testsCons {branch : Opcode} {target : Label} {rest : List Expr}
    (hgrows : s.Grows s₁) (hx : Part.Simulated L M code fin (.operand x vx) s cx s₁)
    (hrest : Part.Simulated L M code fin (.tests branch target rest) s₁ ct s') :
    Part.Simulated L M code fin (.tests branch target (x :: rest)) s
      (cx ++ .make branch [.label target, vx] :: ct) s' := by
  intro k ρ σ hk hρ o ho
  subst ho
  simp only [List.append_assoc, List.cons_append] at hk ⊢
  have hks := (List.suffix_cons _ _).trans ((List.suffix_append cx _).trans hk)
  refine .bind (hx hk hρ) (Nat.le_refl _) ?_
  intro ρ₁ hρ₁ _ hvx
  have ha : M.value ρ₁ (some vx) = (x.eval L .inPlace σ).1 := by rw [hvx.now hρ₁, Expr.held_eval]
  have hbranch := M.effect_branch o target vx ρ₁ (x.eval L .inPlace σ).2.world
  rw [ha] at hbranch
  rw [Expr.evalUntil]
  by_cases hstop : o.stops (x.eval L .inPlace σ).1 = true
  · simp only [hstop, if_true] at hbranch ⊢
    exact ⟨ρ₁, .jump hbranch _, hρ₁, .refl _ _ _, trivial⟩
  · simp only [hstop] at hbranch ⊢
    exact .of_reaches (.next hbranch _) rfl ((hrest hks hρ₁ o rfl).mono hgrows.temps)

theorem simulated_guard {target : Label} (hx : x.isHole = false)
    (hfresh : Part.Simulated L M code fin (.fresh x w t) s cx s') :
    Part.Simulated L M code fin (.guard x target) s
      (cx ++ [.make .brz [.label target, .reg t]]) s' := by
  intro k ρ σ hk hρ
  simp only [List.append_assoc, List.cons_append, List.nil_append] at hk ⊢
  refine .bind (hfresh hk hρ) (Nat.le_refl _) ?_
  intro ρ₁ hρ₁ _ hv
  have hbranch := M.effect_branch .all target (.reg t) ρ₁ (x.eval L .inPlace σ).2.world
  rw [LogicOp.branch, show M.value ρ₁ (some (.reg t)) = (x.eval L .inPlace σ).1 from hv] at hbranch
  have hpass : x.passes (x.eval L .inPlace σ).1 = !LogicOp.all.stops (x.eval L .inPlace σ).1 := by
    rw [Expr.passes, hx]
    rfl
  rw [Expr.guard, hpass]
  cases hstop : LogicOp.all.stops (x.eval L .inPlace σ).1 with
  | true =>
    rw [hstop, if_pos rfl] at hbranch
    exact ⟨ρ₁, .jump hbranch k, hρ₁, .refl _ _ _, trivial⟩
  | false =>
    rw [hstop, if_neg Bool.false_ne_true] at hbranch
    exact ⟨ρ₁, .next hbranch k, hρ₁, .refl _ _ _, trivial⟩

theorem simulated_argsCons {rest : List Expr} {ws : List Width} {ts : List Reg}
    (hgrows : s.Grows s₁) (ht : t.key = ⟨true, s.nextTemp⟩) (hlt : s.nextTemp < s₁.nextTemp)
    (hx : Part.Simulated L M code fin (.fresh x w t) s cx s₁)
    (hrest : Part.Simulated L M code fin (.args rest ws ts) s₁ ct s') :
    Part.Simulated L M code fin (.args (x :: rest) (w :: ws) (t :: ts)) s (cx ++ ct) s' := by
  intro k ρ σ hk hρ
  rw [List.append_assoc] at hk ⊢
  refine .bind (hx hk hρ) (Nat.le_refl _) ?_
  intro ρ₁ hρ₁ _ hv
  obtain ⟨ρ₂, hreach, hρ₂, hkept, hts⟩ := hrest ((List.suffix_append cx _).trans hk) hρ₁
  refine ⟨ρ₂, hreach, hρ₂, hkept.weaken hgrows.temps none, ?_⟩
  have ht₂ : ρ₂ t.key = (x.eval L .inPlace σ).1 := (hkept.temp_eq ht hlt).trans hv
  simp only [List.map_cons, Expr.evalArgs, ht₂, hts]

end Rules

/-- The code of every part of an expression does its work. -/
theorem Lowers.simulates (S : Setting L M code fin) {p : Part} {s s' : Frame} {c : Code}
    (h : Lowers p s c s') (hs : s'.Grows fin) : Part.Simulated L M code fin p s c s' := by
  induction h with
  | atom he hv =>
    intro k ρ σ hk hρ hdst
    obtain ⟨hreads, _⟩ := reads_of_atom? he hv
    obtain ⟨hvalue, hstore⟩ := (hreads.grows hs).value_eq S.linked hρ .inPlace
    rw [hstore]
    exact .mark (.given S.numbered hdst hρ hvalue)
  | unary ho hx hd ihx => exact simulated_unary S ho hx.grows hd (ihx ((orTemp_grows hd).trans hs))
  | binary ho hx hy hd ihx ihy =>
    have hs₂ := (orTemp_grows hd).trans hs
    exact simulated_binary S ho hx.grows hy.grows hd (ihx (hy.grows.trans hs₂)) (ihy hs₂)
  | chainOne _ ih => exact simulated_chainOne (ih hs)
  | chain _ hx ht ihx iht => exact simulated_chain hx.grows (ihx (ht.grows.trans hs)) (iht hs)
  | all ho hd hfin _ iht => exact simulated_all S ho hd (nextTemp_newLabel hfin) (iht hs)
  | any ho hd hfound hfin _ iht =>
    exact simulated_any S ho hd ((nextTemp_newLabel hfin).trans (nextTemp_newLabel hfound)) (iht hs)
  | cond hc hother hfin ha hb ihc iha ihb =>
    have hlabels := (newLabel_grows hother).trans (newLabel_grows hfin)
    have hs₄ := hb.grows.trans hs
    have hs₃ := ha.grows.trans hs₄
    exact simulated_cond S (hc.grows.trans hlabels).temps ha.grows.temps (ihc (hlabels.trans hs₃))
      (iha hs₄) (ihb hs)
  | call hcallee ha iha =>
    obtain ⟨l, rfl, hl, hgrows, _⟩ := calleeOf_eq_ok hcallee
    exact simulated_call S ((ha.grows.trans hs).session.interned? hl) hgrows.temps (iha hs)
  | assignAtom he hr hv =>
    obtain ⟨hlookup, _, _⟩ := regOf_eq_ok hr
    obtain ⟨hreads, hgrows, _⟩ := reads_of_atom? he hv
    exact simulated_assignAtom S ((hgrows.trans hs).vars.lookup_eq_some hlookup) (hreads.grows hs)
  | assign _ hr hx ihx =>
    obtain ⟨hlookup, hgrows, _⟩ := regOf_eq_ok hr
    exact simulated_assign S ((hx.grows.trans hs).vars.lookup_eq_some hlookup) hgrows.temps (ihx hs)
  | load ha hd iha => exact simulated_load S ha.grows hd (iha ((orTemp_grows hd).trans hs))
  | fresh ht _ ih => exact simulated_fresh ht (ih hs)
  | operandAtom he hv =>
    intro k ρ σ hk hρ
    obtain ⟨hreads, _⟩ := reads_of_atom? he hv
    obtain ⟨_, hstore⟩ := (hreads.grows hs).value_eq S.linked hρ .inPlace
    refine ⟨ρ, ?_, ?_, .refl _ _ _, (hreads.grows hs).standsFor S.linked _ ρ σ⟩
    · rw [hstore]
      exact .refl _
    · rw [hstore]
      exact hρ
  | operand he hx ih =>
    intro k ρ σ hk hρ
    obtain ⟨hkey, hlt⟩ := hx.fresh_key
    obtain ⟨ρ', hreach, hρ', hkept, hv⟩ := ih hs hk hρ
    refine ⟨ρ', hreach, hρ', hkept, fun ρ'' σ'' _ hkept' => ?_⟩
    rw [Expr.held_of_atom? he]
    exact (hkept'.temp_eq hkey hlt).trans hv
  | termsLast ho hx hd ihx =>
    exact simulated_termsLast S ho hx.grows hd (ihx ((orTemp_grows hd).trans hs))
  | termsMore ho _ hx ht hrest ihx ihrest =>
    exact simulated_termsMore S ho hx.grows ht
      (ihx ((newTemp_grows ht).trans (hrest.grows.trans hs))) (ihrest hs)
  | testsNil => exact fun _ _ _ _ hρ _ _ => ⟨_, .refl _, hρ, .refl _ _ _, trivial⟩
  | testsCons hx ht ihx iht => exact simulated_testsCons hx.grows (ihx (ht.grows.trans hs)) (iht hs)
  | guardHole => exact fun _ _ _ _ hρ => ⟨_, .refl _, hρ, .refl _ _ _, trivial⟩
  | guard he _ ih => exact simulated_guard he (ih hs)
  | argsNil => exact fun _ _ _ _ hρ => ⟨_, .refl _, hρ, .refl _ _ _, rfl⟩
  | argsCons hx ha ihx iha =>
    exact simulated_argsCons hx.grows hx.fresh_key.1 hx.fresh_key.2
      (ihx (ha.grows.trans hs)) (iha hs)

end Simulation

end ThreeAddress
