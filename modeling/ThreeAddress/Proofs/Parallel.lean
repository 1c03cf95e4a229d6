import Mathlib.Data.List.Forall2
import Mathlib.Order.Basic
import ThreeAddress.Proofs.LoweredValid

/-!
# Actions in two sessions side by side

`LowerM.Parallel J R V x y` says of two actions of lowering that in sessions that are related by `J`
both succeed, with values that `V` relates, or both fail, and that the sessions are related again.
The labels and strings that stand for each other are collected in `Links`, which only grow; errors
differ at most in those that they show. There is one rule for each way to put actions together, and
one lemma for each action of lowering. The relation `J` is left open: `Session.Coupling` lists what
is asked of it.
-/

namespace ThreeAddress
set_option autoImplicit false

open LowerM

/-- The labels and strings of two sessions that stand for each other. -/
structure Links where
  label : Label → Label → Prop
  string : Int → Int → Prop

namespace Links

structure Le (R R' : Links) : Prop where
  label : ∀ {l m}, R.label l m → R'.label l m
  string : ∀ {i j}, R.string i j → R'.string i j

/-- Each label and string stands for itself. -/
def same : Links := ⟨Eq, Eq⟩

instance : Preorder Links where
  le := Le
  le_refl _ := ⟨id, id⟩
  le_trans _ _ _ h h' := ⟨h'.label ∘ h.label, h'.string ∘ h.string⟩

end Links

inductive Operand.Linked (R : Links) : Operand → Operand → Prop where
  | num (v : Int) (w : Width) : Linked R (.num v w) (.num v w)
  | reg (r : Reg) : Linked R (.reg r) (.reg r)
  | data (segment : UInt8) {i j : Int} : R.string i j → Linked R (.data segment i) (.data segment j)
  | label {l m : Label} : R.label l m → Linked R (.label l) (.label m)
  | callee {l m : Label} (w : Width) : R.label l m → Linked R (.callee l w) (.callee m w)
  | origin (o : Origin) : Linked R (.origin o) (.origin o)
  | nothing : Linked R .nothing .nothing

structure Instr.Linked (R : Links) (x y : Instr) : Prop where
  op : x.op = y.op
  args : List.Forall₂ (Option.Rel (Operand.Linked R)) x.args y.args

/-- The same code, up to labels and strings that stand for each other. -/
def Code.Linked (R : Links) : Code → Code → Prop := List.Forall₂ (Instr.Linked R)

/-- The same context, up to the operand that it shows. -/
inductive Context.Linked (R : Links) : Context → Context → Prop where
  | refl (c : Context) : Linked R c c
  | operand (op : Opcode) (i : Nat) {a b : Operand} :
      a.Linked R b → Linked R (.operand op i (some a)) (.operand op i (some b))

structure Error.Linked (R : Links) (e e' : Error) : Prop where
  context : List.Forall₂ (Context.Linked R) e.context e'.context
  cause : e.cause = e'.cause

section
variable {R R' : Links}

theorem Error.Linked.within {e e' : Error} (h : e.Linked R e') {c c' : Context}
    (hc : c.Linked R c') :
    (e.within c).Linked R (e'.within c') := ⟨.cons hc h.context, h.cause⟩

theorem Error.linked_of (c : Cause) : (Error.of c).Linked R (.of c) := ⟨.nil, rfl⟩

theorem Operand.Linked.mono {a b : Operand} (h : Linked R a b) (hle : R ≤ R') : Linked R' a b := by
  cases h with
  | num v w => exact .num v w
  | reg r => exact .reg r
  | data segment hij => exact .data segment (hle.string hij)
  | label hlm => exact .label (hle.label hlm)
  | callee w hlm => exact .callee w (hle.label hlm)
  | origin o => exact .origin o
  | nothing => exact .nothing

theorem Operand.Linked.isValue {a b : Operand} (h : Linked R a b) : a.isValue = b.isValue := by
  cases h <;> rfl

theorem Slot.takes_linked {a b : Operand} (h : a.Linked R b) (s : Slot) :
    s.takes (some a) = s.takes (some b) := by
  cases s with
  | value => exact h.isValue
  | origin | register | target | callee | result => cases h <;> rfl

theorem Instr.Linked.mono {x y : Instr} (h : Linked R x y) (hle : R ≤ R') : Linked R' x y where
  op := h.op
  args := by
    apply h.args.imp
    intro a b hab
    cases hab with
    | some hab => exact .some (hab.mono hle)
    | none => exact .none

theorem Instr.linked_make (op : Opcode) {as bs : List Operand}
    (h : List.Forall₂ (Operand.Linked R) as bs) :
    Linked R (make op as) (make op bs) where
  op := rfl
  args := by
    simp only [make, List.forall₂_map_left_iff, List.forall₂_map_right_iff]
    exact h.imp fun _ _ hab => .some hab

theorem Instr.misplaced?_linked {s : Shape} {as bs : List Operand}
    (h : List.Forall₂ (Operand.Linked R) as bs) (i : Nat) :
    misplaced? s i (as.map some) = none ∧ misplaced? s i (bs.map some) = none ∨
      ∃ j a b, misplaced? s i (as.map some) = some (j, some a) ∧
        misplaced? s i (bs.map some) = some (j, some b) ∧
        a.Linked R b := by
  induction h generalizing i with
  | nil => exact .inl ⟨rfl, rfl⟩
  | @cons a b as bs hab _ ih =>
    rw [List.map_cons, List.map_cons, misplaced?, misplaced?, Slot.takes_linked hab]
    cases (s.slot i).takes (some b) with
    | true => exact ih (i + 1)
    | false => exact .inr ⟨i, a, b, rfl, rfl, hab⟩

theorem Instr.flaw?_linked (op : Opcode) {as bs : List Operand}
    (h : List.Forall₂ (Operand.Linked R) as bs) :
    Option.Rel (Context.Linked R) (make op as).flaw? (make op bs).flaw? := by
  have hlength : (make op as).args.length = (make op bs).args.length := by simp [make, h.length_eq]
  have hop (cs : List Operand) : (make op cs).op = op := rfl
  cases hshape : op.shape? with
  | none =>
    simp only [flaw?, hop, hshape]
    exact .some (.refl _)
  | some s =>
    have hcount : countContext (make op as) s = countContext (make op bs) s := by
      simp only [countContext, hop, hlength]
    simp only [flaw?, hop, hshape, hlength, hcount]
    split
    · rcases misplaced?_linked (s := s) h 0 with ⟨ha, hb⟩ | ⟨j, a, b, ha, hb, hab⟩
      · simp only [make, ha, hb, Option.map_none]
        exact .none
      · simp only [make, ha, hb, Option.map_some]
        exact .some (.operand op j hab)
    · exact .some (.refl _)

namespace Code
variable {c c' d d' : Code} {l m : Label}

theorem Linked.mono (h : c.Linked R d) (hle : R ≤ R') : c.Linked R' d :=
  h.imp fun _ _ hxy => hxy.mono hle

theorem linked_nil : Linked R [] [] := .nil

theorem Linked.append (h : c.Linked R d) (h' : c'.Linked R d') : Linked R (c ++ c') (d ++ d') :=
  List.rel_append h h'

theorem Linked.mark (h : c.Linked R d) (k : NodeKind) : Linked R (.mark k :: c) (.mark k :: d) :=
  .cons (Instr.linked_make _ (.cons (.origin _) .nil)) h

theorem Linked.defineLabel (h : c.Linked R d) (hlm : R.label l m) :
    Linked R (.defineLabel l :: c) (.defineLabel m :: d) :=
  .cons (Instr.linked_make _ (.cons (.label hlm) .nil)) h

theorem Linked.jump (h : c.Linked R d) (hlm : R.label l m) :
    Linked R (.jump l :: c) (.jump m :: d) :=
  .cons (Instr.linked_make _ (.cons (.label hlm) .nil)) h

end Code

end

section
variable {a b : Operand} {x y : Instr}

theorem Operand.Linked.eq (h : a.Linked .same b) : a = b := by
  cases h with
  | data segment hij => exact congrArg (Operand.data segment) hij
  | label hlm => exact congrArg Operand.label hlm
  | callee w hlm => exact congrArg (Operand.callee · w) hlm
  | num | reg | origin | nothing => rfl

theorem Instr.Linked.eq (h : x.Linked .same y) : x = y := by
  obtain ⟨op, args⟩ := x
  obtain ⟨rfl, hargs⟩ := h
  have hsame : args = y.args := by
    rw [← List.forall₂_eq_eq_eq]
    apply hargs.imp
    intro a b hab
    cases hab with
    | none => rfl
    | some hab => rw [hab.eq]
  rw [hsame]

theorem Code.Linked.eq {c d : Code} (h : c.Linked .same d) : c = d := by
  rw [← List.forall₂_eq_eq_eq]
  exact h.imp fun _ _ hxy => hxy.eq

theorem Error.Linked.eq {e e' : Error} (h : e.Linked .same e') : e = e' := by
  obtain ⟨context, cause⟩ := e
  obtain ⟨hcontext, rfl⟩ := h
  have hsame : context = e'.context := by
    rw [← List.forall₂_eq_eq_eq]
    apply hcontext.imp
    intro c c' hc
    cases hc with
    | refl => rfl
    | operand op i hab => rw [hab.eq]
  rw [hsame]

end

namespace Session

def addLabel (s : Session) (base : String) : Session :=
  { s with
    labels := (s.labels.fresh (Bytes.ofString (base ++ "." ++ toString s.nextSuffix))).2
    nextSuffix := s.nextSuffix + 1 }

def addName (s : Session) (name : Bytes) : Session := { s with labels := (s.labels.intern name).2 }

def addString (s : Session) (b : Bytes) : Session := { s with data := (s.data.intern b).2 }

/-- What is asked of a relation between sessions: it can be kept whatever both do next. -/
structure Coupling (J : Links → Session → Session → Prop) : Prop where
  addLabel : ∀ {R s t}, J R s t → ∀ base, ∃ R', R ≤ R' ∧ R'.label ⟨s.labels.size⟩ ⟨t.labels.size⟩ ∧
    J R' (s.addLabel base) (t.addLabel base)
  addName : ∀ {R s t}, J R s t → ∀ name, ∃ R', R ≤ R' ∧ R'.label (s.labels.intern name).1
    (t.labels.intern name).1 ∧ J R' (s.addName name) (t.addName name)
  addString : ∀ {R s t}, J R s t → ∀ b, ∃ R', R ≤ R' ∧
    R'.string (s.data.intern b).1 (t.data.intern b).1 ∧ J R' (s.addString b) (t.addString b)

end Session

structure Frame.Coupled (J : Links → Session → Session → Prop) (R : Links)
    (s t : Frame) : Prop where
  session : J R s.session t.session
  temps : s.nextTemp = t.nextTemp
  vars : s.vars = t.vars

namespace LowerM
variable {J : Links → Session → Session → Prop} {R : Links} {α β γ δ : Type}

/-- Both have succeeded with values that `V` relates, or both have failed with linked errors. -/
inductive Alike (J : Links → Session → Session → Prop) (R : Links) (V : Links → α → β → Prop) :
    EStateM.Result Error Frame α → EStateM.Result Error Frame β → Prop where
  | ok {R' : Links} {a : α} {b : β} {s t : Frame} : R ≤ R' → s.Coupled J R' t → V R' a b →
      Alike J R V (.ok a s) (.ok b t)
  | error {R' : Links} {e e' : Error} {s t : Frame} : R ≤ R' → J R' s.session t.session →
      e.Linked R' e' → Alike J R V (.error e s) (.error e' t)

def Parallel (J : Links → Session → Session → Prop) (R : Links) (V : Links → α → β → Prop)
    (x : LowerM α) (y : LowerM β) : Prop :=
  ∀ s t : Frame, s.Coupled J R t → Alike J R V (x s) (y t)

section
variable {V : Links → α → β → Prop} {W : Links → γ → δ → Prop} {x : LowerM α} {y : LowerM β}

theorem Alike.of_le {R₀ : Links} {r : EStateM.Result Error Frame α}
    {r' : EStateM.Result Error Frame β} (h : Alike J R V r r') (hle : R₀ ≤ R) :
    Alike J R₀ V r r' := by
  cases h with
  | ok h hst hv => exact .ok (hle.trans h) hst hv
  | error h hst herror => exact .error (hle.trans h) hst herror

theorem Parallel.bind {f : α → LowerM γ} {g : β → LowerM δ} (h : Parallel J R V x y)
    (hf : ∀ R', R ≤ R' → ∀ a b, V R' a b → Parallel J R' W (f a) (g b)) :
    Parallel J R W (x >>= f) (y >>= g) := by
  intro s t hst
  change Alike J R W (EStateM.bind x f s) (EStateM.bind y g t)
  unfold EStateM.bind
  have hxy := h s t hst
  generalize x s = r at hxy
  generalize y t = r' at hxy
  cases hxy with
  | ok hle hst' hv => exact (hf _ hle _ _ hv _ _ hst').of_le hle
  | error hle hst' herror => exact .error hle hst' herror

theorem parallel_pure {a : α} {b : β} (h : V R a b) : Parallel J R V (pure a) (pure b) :=
  fun _ _ hst => .ok le_rfl hst h

theorem Parallel.map {f : α → γ} {g : β → δ} (h : Parallel J R V x y)
    (hf : ∀ R', R ≤ R' → ∀ a b, V R' a b → W R' (f a) (g b)) :
    Parallel J R W (x >>= fun a => pure (f a)) (y >>= fun b => pure (g b)) :=
  h.bind fun R' hle a b hv => parallel_pure (hf R' hle a b hv)

theorem Parallel.within (h : Parallel J R V x y) (c : Context) :
    Parallel J R V (within c x) (within c y) := by
  intro s t hst
  have hxy := h s t hst
  unfold LowerM.within
  generalize x s = r at hxy
  generalize y t = r' at hxy
  cases hxy with
  | ok hle hst' hv => exact .ok hle hst' hv
  | error hle hst' herror => exact .error hle hst' (herror.within (.refl c))

theorem parallel_fail (c : Cause) : Parallel J R V (fail c) (fail c) :=
  fun _ _ hst => .error le_rfl hst.session (Error.linked_of c)

theorem parallel_unsupported (text : Bytes) :
    Parallel J R V (unsupported text) (unsupported text) :=
  (parallel_fail .unsupportedNode).within _

end

theorem parallel_newTemp (w : Width) : Parallel J R (fun _ => Eq) (newTemp w) (newTemp w) := by
  intro s t hst
  have hreg : (⟨s.nextTemp, w, true, []⟩ : Reg) = ⟨t.nextTemp, w, true, []⟩ := by rw [hst.temps]
  exact .ok le_rfl ⟨hst.session, congrArg (· + 1) hst.temps, hst.vars⟩ hreg

theorem parallel_orTemp (dst : Option Reg) (w : Width) :
    Parallel J R (fun _ => Eq) (orTemp dst w) (orTemp dst w) := by
  cases dst with
  | some r => exact parallel_pure rfl
  | none => exact parallel_newTemp w

theorem parallel_regOf (v : Var) : Parallel J R (fun _ => Eq) (regOf v) (regOf v) := by
  intro s t hst
  unfold regOf
  rw [hst.vars]
  cases t.vars.lookup v.id with
  | some r => exact .ok le_rfl hst rfl
  | none => exact .ok le_rfl ⟨hst.session, hst.temps, rfl⟩ rfl

theorem parallel_newLabel (hJ : Session.Coupling J) (base : String) :
    Parallel J R Links.label (newLabel base) (newLabel base) := by
  intro s t hst
  obtain ⟨R', hle, hlm, hst'⟩ := hJ.addLabel hst.session base
  exact .ok hle ⟨hst', hst.temps, hst.vars⟩ hlm

theorem parallel_calleeOf (hJ : Session.Coupling J) (f : FuncRef) :
    Parallel J R Operand.Linked (calleeOf f) (calleeOf f) := by
  intro s t hst
  obtain ⟨R', hle, hlm, hst'⟩ := hJ.addName hst.session f.name
  exact .ok hle ⟨hst', hst.temps, hst.vars⟩ (.callee f.ret hlm)

theorem parallel_dataOf (hJ : Session.Coupling J) (b : Bytes) :
    Parallel J R Operand.Linked (dataOf b) (dataOf b) := by
  intro s t hst
  obtain ⟨R', hle, hij, hst'⟩ := hJ.addString hst.session b
  exact .ok hle ⟨hst', hst.temps, hst.vars⟩ (.data 0 hij)

theorem parallel_emit (op : Opcode) {as bs : List Operand}
    (h : List.Forall₂ (Operand.Linked R) as bs) :
    Parallel J R Code.Linked (emit op as) (emit op bs) := by
  intro s t hst
  have hflaw := Instr.flaw?_linked op h
  unfold emit Instr.check
  generalize (Instr.make op as).flaw? = a at hflaw
  generalize (Instr.make op bs).flaw? = b at hflaw
  cases hflaw with
  | none => exact .ok le_rfl hst (.cons (Instr.linked_make op h) .nil)
  | some hc => exact .error le_rfl hst.session ((Error.linked_of _).within hc)

theorem parallel_give (dst : Option Reg) {a b : Operand} (h : a.Linked R b) :
    Parallel J R Code.Linked (give dst a) (give dst b) := by
  cases dst with
  | some r => exact parallel_emit .mov (.cons (.reg r) (.cons h .nil))
  | none => exact parallel_pure Code.linked_nil

end LowerM

end ThreeAddress
