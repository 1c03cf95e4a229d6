import Mathlib.Data.List.Forall2
import ThreeAddress.Proofs.LoweredValid

/-!
# Where operands come from

The calls of lowered code are those of the tree, in the order in which the tree makes them, and each
names the function that the tree calls there. The strings that lowered code refers to are in the
pool, and are literals of the tree (`Decl.sourced`).
-/

namespace ThreeAddress
set_option autoImplicit false

open LowerM

namespace Expr

mutual

/-- The nodes of an expression in the order of their evaluation, so that operands come before their
operator. -/
def nodes : Expr → List Expr
  | unary op x w => x.nodes ++ [unary op x w]
  | binary op x y w => x.nodes ++ y.nodes ++ [binary op x y w]
  | chain first rest w => first.nodes ++ nodesTerms rest ++ [chain first rest w]
  | logic op list w => nodesList list ++ [logic op list w]
  | cond c a b w => c.nodes ++ a.nodes ++ b.nodes ++ [cond c a b w]
  | call f args => nodesList args ++ [call f args]
  | assign v x => x.nodes ++ [assign v x]
  | load addr w => addr.nodes ++ [load addr w]
  | e => [e]

def nodesTerms : List (Bytes × Expr) → List Expr
  | [] => []
  | (_, x) :: rest => x.nodes ++ nodesTerms rest

def nodesList : List Expr → List Expr
  | [] => []
  | x :: rest => x.nodes ++ nodesList rest

end

def called? : Expr → Option FuncRef
  | call f _ => f
  | _ => none

theorem called?_assign (v : Option Var) (x : Expr) : (assign v x).called? = none := rfl

theorem nodes_of_atom? {e : Expr} {act : LowerM Operand} (h : e.atom? = some act) :
    e.nodes = [e] ∧ e.called? = none := by
  cases e with
  | num | var | str | funcRef => exact ⟨by simp [nodes], rfl⟩
  | _ => cases h

end Expr

namespace Stmt

mutual

def nodes : Stmt → List Expr
  | block list => nodesList list
  | expr x => x.nodes
  | store addr x => addr.nodes ++ x.nodes
  | branch c a b => c.nodes ++ a.nodes ++ b.nodes
  | whileLoop c body => c.nodes ++ body.nodes
  | forLoop start c post body => start.nodes ++ c.nodes ++ body.nodes ++ post.nodes
  | ret x => x.nodes
  | hole | breakLoop | continueLoop | stray _ => []

def nodesList : List Stmt → List Expr
  | [] => []
  | x :: rest => x.nodes ++ nodesList rest

end

end Stmt

namespace Decl

def nodes (d : Decl) : List Expr := d.stmt.nodes

def calls (d : Decl) : List FuncRef := d.nodes.filterMap Expr.called?

end Decl

/-- The operand calls the function that the tree refers to. -/
def Session.Refers (S : Session) (callee : Label × Width) (r : FuncRef) : Prop :=
  S.labels.get? callee.1 = some ⟨r.name, false⟩ ∧ callee.2 = r.ret

/-- The operand, if it is one of the data, is a string of the pool for which `K` holds. -/
def Operand.Sourced (S : Session) (K : Bytes → Prop) : Operand → Prop
  | data segment i =>
    segment = 0 ∧ ∃ (n : Nat) (b : Bytes), i = n ∧ S.data.strings[n]? = some b ∧ K b
  | _ => True

def Operand.callee? : Operand → Option (Label × Width)
  | callee l w => some (l, w)
  | _ => none

/-- The function that a call is about. -/
def Instr.callee? (x : Instr) : Option (Label × Width) :=
  if x.op = .call then (x.operand? 1).bind Operand.callee? else none

/-- The calls of the code are calls of `refs`, in this order, and the data are sourced. -/
structure Code.Sourced (S : Session) (K : Bytes → Prop) (refs : List FuncRef)
    (code : Code) : Prop where
  callees : List.Forall₂ S.Refers (code.filterMap Instr.callee?) refs
  data : ∀ x ∈ code, ∀ a, some a ∈ x.args → a.Sourced S K

section
variable {S : Session} {K : Bytes → Prop}

theorem Operand.sourced_reg (r : Reg) : (reg r).Sourced S K := trivial

namespace Code
variable {refs refs' : List FuncRef} {c d : Code}

theorem sourced_nil : Sourced S K [] [] := ⟨.nil, List.forall_mem_nil _⟩

theorem Sourced.of_eq (hc : c.Sourced S K refs) (heq : refs = refs') : c.Sourced S K refs' :=
  heq ▸ hc

theorem Sourced.append (hc : c.Sourced S K refs) (hd : d.Sourced S K refs') :
    Sourced S K (refs ++ refs') (c ++ d) where
  callees := by
    rw [List.filterMap_append]
    exact List.rel_append hc.callees hd.callees
  data := List.forall_mem_append.mpr ⟨hc.data, hd.data⟩

theorem Sourced.cons {op : Opcode} (hop : op ≠ .call) {args : List Operand}
    (hargs : ∀ a ∈ args, a.Sourced S K) (hc : c.Sourced S K refs) :
    Sourced S K refs (.make op args :: c) where
  callees := by
    have hnone : Instr.callee? (.make op args) = none := if_neg hop
    rw [List.filterMap_cons_none hnone]
    exact hc.callees
  data := by
    refine List.forall_mem_cons.mpr ⟨fun a ha => ?_, hc.data⟩
    obtain ⟨a', ha', heq⟩ := List.mem_map.mp ha
    cases heq
    exact hargs a ha'

theorem Sourced.mark (hc : c.Sourced S K refs) (k : NodeKind) : Sourced S K refs (.mark k :: c) :=
  hc.cons (by decide) (List.forall_mem_singleton.mpr trivial)

theorem Sourced.defineLabel (hc : c.Sourced S K refs) (l : Label) :
    Sourced S K refs (.defineLabel l :: c) :=
  hc.cons (by decide) (List.forall_mem_singleton.mpr trivial)

theorem Sourced.jump (hc : c.Sourced S K refs) (l : Label) : Sourced S K refs (.jump l :: c) :=
  hc.cons (by decide) (List.forall_mem_singleton.mpr trivial)

theorem sourced_into {op : Opcode} (hop : op ≠ .call) (d : Reg) {v : Operand} (hv : v.Sourced S K) :
    Sourced S K [] [.make op [.reg d, v]] :=
  sourced_nil.cons hop (List.forall_mem_cons.mpr ⟨trivial, List.forall_mem_singleton.mpr hv⟩)

theorem sourced_bin (o : BinOp) (d : Reg) {u v : Operand} (hu : u.Sourced S K)
    (hv : v.Sourced S K) :
    Sourced S K [] [.make (.bin o) [.reg d, u, v]] :=
  sourced_nil.cons Opcode.noConfusion (List.forall_mem_cons.mpr
    ⟨trivial, List.forall_mem_cons.mpr ⟨hu, List.forall_mem_singleton.mpr hv⟩⟩)

theorem sourced_branch {op : Opcode} (hop : op ≠ .call) (l : Label) {v : Operand}
    (hv : v.Sourced S K) :
    Sourced S K [] [.make op [.label l, v]] :=
  sourced_nil.cons hop (List.forall_mem_cons.mpr ⟨trivial, List.forall_mem_singleton.mpr hv⟩)

theorem sourced_write {u v : Operand} (hu : u.Sourced S K) (hv : v.Sourced S K) :
    Sourced S K [] [.make .write [u, v]] :=
  sourced_nil.cons Opcode.noConfusion
    (List.forall_mem_cons.mpr ⟨hu, List.forall_mem_singleton.mpr hv⟩)

theorem sourced_ret {v : Operand} (hv : v.Sourced S K) : Sourced S K [] [.make .ret [v]] :=
  sourced_nil.cons Opcode.noConfusion (List.forall_mem_singleton.mpr hv)

theorem sourced_stop : Sourced S K [] [.make .ret []] :=
  sourced_nil.cons Opcode.noConfusion (List.forall_mem_nil _)

theorem sourced_given (dst : Option Reg) {v : Operand} (hv : v.Sourced S K) :
    Sourced S K [] (given dst v) := by
  cases dst with
  | some r => exact sourced_into Opcode.noConfusion r hv
  | none => exact sourced_nil

theorem sourced_call {f : FuncRef} {l : Label} (hl : S.labels.interned? f.name = some l)
    (dst : Option Reg) (ts : List Reg) :
    Sourced S K [f] [.make .call (resultOf dst :: .callee l f.ret :: ts.map .reg)] where
  callees := .cons ⟨Labels.get?_of_interned? hl, rfl⟩ .nil
  data := by
    refine List.forall_mem_singleton.mpr fun a ha => ?_
    obtain ⟨a', ha', heq⟩ := List.mem_map.mp ha
    cases heq
    rcases List.mem_cons.mp ha' with rfl | ha'
    · cases dst <;> trivial
    · rcases List.mem_cons.mp ha' with rfl | ha'
      · trivial
      · obtain ⟨t, _, rfl⟩ := List.mem_map.mp ha'
        trivial

end Code

namespace Part

def nodes : Part → List Expr
  | value e _ | fresh e _ _ | operand e _ | guard e _ => e.nodes
  | terms _ _ _ list => Expr.nodesTerms list
  | tests _ _ list | args list _ _ => Expr.nodesList list

def calls (p : Part) : List FuncRef := p.nodes.filterMap Expr.called?

/-- What a part needs to be sourced, beside its own strings. -/
def Needs (S : Session) (K : Bytes → Prop) : Part → Prop
  | terms _ _ acc _ => acc.Sourced S K
  | tests branch _ _ => branch ≠ .call
  | _ => True

def Offers (S : Session) (K : Bytes → Prop) : Part → Prop
  | operand _ v => v.Sourced S K
  | _ => True

end Part

def Body.nodes : Body → List Expr
  | one x => x.nodes
  | list xs => Stmt.nodesList xs

theorem Reads.sourced {s : Frame} {e : Expr} {v : Operand} (h : Reads s e v)
    (hS : s.session.Grows S) (hK : ∀ b, .str b = e → K b) : v.Sourced S K := by
  cases h with
  | num | var | funcRef => trivial
  | str hi => exact ⟨rfl, _, _, rfl, Pool.getElem?_of_index? (hS.index? hi), hK _ rfl⟩

theorem Lowers.sourced {p : Part} {s s' : Frame} {c : Code} (h : Lowers p s c s')
    (hS : s'.session.Grows S) (hK : ∀ b, .str b ∈ p.nodes → K b) (hp : p.Needs S K) :
    c.Sourced S K p.calls ∧ p.Offers S K := by
  induction h with
  | @atom e _ k dst _ _ _ he hv =>
    obtain ⟨hnodes, hcalled⟩ := Expr.nodes_of_atom? he
    have hvalue :=
      (reads_of_atom? he hv).1.sourced hS fun b hb => hK b (by simp [Part.nodes, hnodes, hb])
    exact ⟨((Code.sourced_given dst hvalue).mark k).of_eq
      (by simp [Part.calls, Part.nodes, hnodes, hcalled]), trivial⟩
  | unary _ _ hd ihx =>
    simp [Part.nodes, Expr.nodes] at hK
    obtain ⟨hx, hvx⟩ := ihx ((orTemp_grows hd).session.trans hS) hK trivial
    refine ⟨?_, trivial⟩
    exact ((hx.append (Code.sourced_into Opcode.noConfusion _ hvx)).mark _).of_eq
      (by simp [Part.calls, Part.nodes, Expr.nodes, Expr.called?])
  | binary _ _ hy hd ihx ihy =>
    simp [Part.nodes, Expr.nodes, or_imp, forall_and] at hK
    have hS₂ := (orTemp_grows hd).session.trans hS
    obtain ⟨hx, hvx⟩ := ihx (hy.grows.session.trans hS₂) hK.1 trivial
    obtain ⟨hy, hvy⟩ := ihy hS₂ hK.2 trivial
    refine ⟨?_, trivial⟩
    exact ((hx.append (hy.append (Code.sourced_bin _ _ hvx hvy))).mark _).of_eq
      (by simp [Part.calls, Part.nodes, Expr.nodes, Expr.called?])
  | chainOne _ ih =>
    simp [Part.nodes, Expr.nodes, Expr.nodesTerms] at hK
    obtain ⟨hx, _⟩ := ih hS hK trivial
    refine ⟨?_, trivial⟩
    exact (hx.mark _).of_eq
      (by simp [Part.calls, Part.nodes, Expr.nodes, Expr.nodesTerms, Expr.called?])
  | chain _ _ ht ihx iht =>
    simp [Part.nodes, Expr.nodes, or_imp, forall_and] at hK
    obtain ⟨hx, hacc⟩ := ihx (ht.grows.session.trans hS) hK.1 trivial
    obtain ⟨ht, _⟩ := iht hS hK.2 hacc
    refine ⟨?_, trivial⟩
    exact ((hx.append ht).mark _).of_eq (by simp [Part.calls, Part.nodes, Expr.nodes, Expr.called?])
  | all _ _ _ _ iht =>
    simp [Part.nodes, Expr.nodes] at hK
    obtain ⟨ht, _⟩ := iht hS hK Opcode.noConfusion
    refine ⟨?_, trivial⟩
    have hput (d : Reg) (n : Int) (w : Width) :
        Code.Sourced S K [] [.make .mov [.reg d, .num n w]] :=
      Code.sourced_into Opcode.noConfusion d trivial
    have hlast (l : Label) : Code.Sourced S K [] [.defineLabel l] := Code.sourced_nil.defineLabel l
    exact (((hput _ _ _).append (ht.append ((hput _ _ _).append (hlast _)))).mark _).of_eq
      (by simp [Part.calls, Part.nodes, Expr.nodes, Expr.called?])
  | any _ _ _ _ _ iht =>
    simp [Part.nodes, Expr.nodes] at hK
    obtain ⟨ht, _⟩ := iht hS hK Opcode.noConfusion
    refine ⟨?_, trivial⟩
    have hput (d : Reg) (n : Int) (w : Width) :
        Code.Sourced S K [] [.make .mov [.reg d, .num n w]] :=
      Code.sourced_into Opcode.noConfusion d trivial
    have hlast (l m : Label) : Code.Sourced S K [] [.jump l, .defineLabel m, .defineLabel l] :=
      ((Code.sourced_nil.defineLabel l).defineLabel m).jump l
    exact (((hput _ _ _).append (ht.append ((hput _ _ _).append (hlast _ _)))).mark _).of_eq
      (by simp [Part.calls, Part.nodes, Expr.nodes, Expr.called?])
  | cond _ hother hfin ha hb ihc iha ihb =>
    simp [Part.nodes, Expr.nodes, or_imp, forall_and] at hK
    have hS₄ := hb.grows.session.trans hS
    have hS₃ := ha.grows.session.trans hS₄
    obtain ⟨hc, _⟩ :=
      ihc (((newLabel_grows hother).trans (newLabel_grows hfin)).session.trans hS₃) hK.1 trivial
    obtain ⟨ha, _⟩ := iha hS₄ hK.2.1 trivial
    obtain ⟨hb, _⟩ := ihb hS hK.2.2 trivial
    refine ⟨?_, trivial⟩
    exact ((hc.append (ha.append (((hb.append (Code.sourced_nil.defineLabel _)).defineLabel _).jump
          _))).mark _).of_eq (by simp [Part.calls, Part.nodes, Expr.nodes, Expr.called?])
  | call hcallee ha iha =>
    simp [Part.nodes, Expr.nodes] at hK
    obtain ⟨l, rfl, hl, _, _⟩ := calleeOf_eq_ok hcallee
    have hinterned := (ha.grows.session.trans hS).interned? hl
    obtain ⟨ha, _⟩ := iha hS hK trivial
    refine ⟨?_, trivial⟩
    exact ((ha.append (Code.sourced_call hinterned _ _)).mark _).of_eq
      (by simp [Part.calls, Part.nodes, Expr.nodes, Expr.called?])
  | assignAtom he hr hv =>
    obtain ⟨hnodes, hcalled⟩ := Expr.nodes_of_atom? he
    simp [Part.nodes, Expr.nodes, hnodes] at hK
    have hvalue := (reads_of_atom? he hv).1.sourced hS hK
    refine ⟨?_, trivial⟩
    exact (((Code.sourced_into Opcode.noConfusion _ hvalue).append
        (Code.sourced_given _ (Operand.sourced_reg _))).mark _).of_eq
      (by simp [Part.calls, Part.nodes, Expr.nodes, Expr.called?_assign, hnodes, hcalled])
  | assign _ _ _ ihx =>
    simp [Part.nodes, Expr.nodes] at hK
    obtain ⟨hx, _⟩ := ihx hS hK trivial
    have hmove (r t : Reg) : Code.Sourced S K [] [.make .mov [.reg r, .reg t]] :=
      Code.sourced_into Opcode.noConfusion r trivial
    refine ⟨?_, trivial⟩
    exact ((hx.append ((hmove _ _).append (Code.sourced_given _ (Operand.sourced_reg _)))).mark
      _).of_eq (by simp [Part.calls, Part.nodes, Expr.nodes, Expr.called?_assign])
  | load _ hd iha =>
    simp [Part.nodes, Expr.nodes] at hK
    obtain ⟨ha, hva⟩ := iha ((orTemp_grows hd).session.trans hS) hK trivial
    refine ⟨?_, trivial⟩
    exact ((ha.append (Code.sourced_into Opcode.noConfusion _ hva)).mark _).of_eq
      (by simp [Part.calls, Part.nodes, Expr.nodes, Expr.called?])
  | fresh _ _ ih =>
    obtain ⟨hx, _⟩ := ih hS hK trivial
    exact ⟨hx, trivial⟩
  | operandAtom he hv =>
    obtain ⟨hnodes, hcalled⟩ := Expr.nodes_of_atom? he
    simp [Part.nodes, hnodes] at hK
    exact ⟨Code.sourced_nil.of_eq (by simp [Part.calls, Part.nodes, hnodes, hcalled]),
      (reads_of_atom? he hv).1.sourced hS hK⟩
  | operand _ _ ih =>
    obtain ⟨hx, _⟩ := ih hS hK trivial
    exact ⟨hx, trivial⟩
  | termsLast _ _ hd ihx =>
    simp [Part.nodes, Expr.nodesTerms] at hK
    obtain ⟨hx, hvx⟩ := ihx ((orTemp_grows hd).session.trans hS) hK trivial
    refine ⟨?_, trivial⟩
    exact (hx.append (Code.sourced_bin _ _ hp hvx)).of_eq
      (by simp [Part.calls, Part.nodes, Expr.nodesTerms])
  | termsMore _ _ _ ht hrest ihx ihrest =>
    simp [Part.nodes, Expr.nodesTerms, or_imp, forall_and] at hK
    obtain ⟨hx, hvx⟩ := ihx (((newTemp_grows ht).trans hrest.grows).session.trans hS) hK.1 trivial
    obtain ⟨hrest, _⟩ := ihrest hS hK.2 trivial
    refine ⟨?_, trivial⟩
    exact (hx.append ((Code.sourced_bin _ _ hp hvx).append hrest)).of_eq
      (by simp [Part.calls, Part.nodes, Expr.nodesTerms])
  | testsNil => exact ⟨Code.sourced_nil, trivial⟩
  | testsCons _ ht ihx iht =>
    simp [Part.nodes, Expr.nodesList, or_imp, forall_and] at hK
    obtain ⟨hx, hvx⟩ := ihx (ht.grows.session.trans hS) hK.1 trivial
    obtain ⟨ht, _⟩ := iht hS hK.2 hp
    refine ⟨?_, trivial⟩
    exact (hx.append ((Code.sourced_branch hp _ hvx).append ht)).of_eq
      (by simp [Part.calls, Part.nodes, Expr.nodesList])
  | guardHole =>
    exact ⟨Code.sourced_nil.of_eq (by simp [Part.calls, Part.nodes, Expr.nodes, Expr.called?]),
      trivial⟩
  | guard _ _ ih =>
    obtain ⟨hx, _⟩ := ih hS hK trivial
    refine ⟨?_, trivial⟩
    exact (hx.append (Code.sourced_branch Opcode.noConfusion _ (Operand.sourced_reg _))).of_eq
      (by simp [Part.calls, Part.nodes])
  | argsNil => exact ⟨Code.sourced_nil, trivial⟩
  | argsCons _ hrest ihx ihrest =>
    simp [Part.nodes, Expr.nodesList, or_imp, forall_and] at hK
    obtain ⟨hx, _⟩ := ihx (hrest.grows.session.trans hS) hK.1 trivial
    obtain ⟨hrest, _⟩ := ihrest hS hK.2 trivial
    refine ⟨?_, trivial⟩
    exact (hx.append hrest).of_eq (by simp [Part.calls, Part.nodes, Expr.nodesList])

theorem LowersBody.sourced {loop : Option Loop} {b : Body} {s s' : Frame} {c : Code}
    (h : LowersBody loop b s c s') (hS : s'.session.Grows S)
    (hK : ∀ text, .str text ∈ b.nodes → K text) :
    c.Sourced S K (b.nodes.filterMap Expr.called?) := by
  induction h with
  | hole | nil => exact Code.sourced_nil.of_eq (by simp [Body.nodes, Stmt.nodes, Stmt.nodesList])
  | block _ ih =>
    simp only [Body.nodes, Stmt.nodes] at hK
    exact ((ih hS hK).mark _).of_eq (by simp [Body.nodes, Stmt.nodes])
  | expr hx =>
    simp only [Body.nodes, Stmt.nodes] at hK
    exact ((hx.sourced hS hK trivial).1.mark _).of_eq
      (by simp [Body.nodes, Stmt.nodes, Part.calls, Part.nodes])
  | store ha hx =>
    simp [Body.nodes, Stmt.nodes, or_imp, forall_and] at hK
    obtain ⟨ha, hva⟩ := ha.sourced (hx.grows.session.trans hS) hK.1 trivial
    obtain ⟨hx, hvx⟩ := hx.sourced hS hK.2 trivial
    exact ((ha.append (hx.append (Code.sourced_write hva hvx))).mark _).of_eq
      (by simp [Body.nodes, Stmt.nodes, Part.calls, Part.nodes])
  | branch hc hfin ha iha =>
    simp [Body.nodes, Stmt.nodes, or_imp, forall_and] at hK
    have hc := (hc.sourced (((newLabel_grows hfin).trans ha.grows).session.trans hS) hK.1 trivial).1
    exact ((hc.append ((iha hS hK.2).append (Code.sourced_nil.defineLabel _))).mark _).of_eq
      (by simp [Body.nodes, Stmt.nodes, Part.calls, Part.nodes])
  | branchElse _ hc hfin hother ha hb iha ihb =>
    simp [Body.nodes, Stmt.nodes, or_imp, forall_and] at hK
    have hS₄ := hb.grows.session.trans hS
    have hS₁ :=
      (((newLabel_grows hfin).trans (newLabel_grows hother)).trans ha.grows).session.trans hS₄
    have hc := (hc.sourced hS₁ hK.1 trivial).1
    exact ((hc.append ((iha hS₄ hK.2.1).append ((((ihb hS hK.2.2).append
      (Code.sourced_nil.defineLabel _)).defineLabel _).jump _))).mark _).of_eq
      (by simp [Body.nodes, Stmt.nodes, Part.calls, Part.nodes])
  | whileLoop _ _ hc hb ihb =>
    simp [Body.nodes, Stmt.nodes, or_imp, forall_and] at hK
    have hc := (hc.sourced (hb.grows.session.trans hS) hK.1 trivial).1
    exact (((hc.append ((ihb hS hK.2).append ((Code.sourced_nil.defineLabel _).jump _))).defineLabel
        _).mark _).of_eq (by simp [Body.nodes, Stmt.nodes, Part.calls, Part.nodes])
  | forLoop _ htop hnext hfin hc hb hp ihstart ihb ihp =>
    simp [Body.nodes, Stmt.nodes, or_imp, forall_and] at hK
    obtain ⟨hKstart, hKc, hKb, hKp⟩ := hK
    have hS₆ := hp.grows.session.trans hS
    have hS₅ := hb.grows.session.trans hS₆
    have hlabels := ((newLabel_grows htop).trans (newLabel_grows hnext)).trans (newLabel_grows hfin)
    have hS₁ := (hlabels.trans hc.grows).session.trans hS₅
    have hc := (hc.sourced hS₅ hKc trivial).1
    exact (((ihstart hS₁ hKstart).append ((hc.append ((ihb hS₆ hKb).append (((ihp hS hKp).append
      ((Code.sourced_nil.defineLabel _).jump _)).defineLabel _))).defineLabel _)).mark _).of_eq
      (by simp [Body.nodes, Stmt.nodes, Part.calls, Part.nodes])
  | breakLoop | continueLoop =>
    exact ((Code.sourced_nil.jump _).mark _).of_eq (by simp [Body.nodes, Stmt.nodes])
  | retNone =>
    exact (Code.sourced_stop.mark _).of_eq
      (by simp [Body.nodes, Stmt.nodes, Expr.nodes, Expr.called?])
  | ret _ hx =>
    simp only [Body.nodes, Stmt.nodes] at hK
    obtain ⟨hx, hvx⟩ := hx.sourced hS hK trivial
    exact ((hx.append (Code.sourced_ret hvx)).mark _).of_eq
      (by simp [Body.nodes, Stmt.nodes, Part.calls, Part.nodes])
  | cons hx hs ihx ihs =>
    simp [Body.nodes, Stmt.nodesList, or_imp, forall_and] at hK
    exact ((ihx (hs.grows.session.trans hS) hK.1).append (ihs hS hK.2)).of_eq
      (by simp [Body.nodes, Stmt.nodesList])

theorem Decl.sourced {d : Decl} {s s' : Frame} {f : Func} (h : d.lower s = .ok (.ok f) s')
    (hS : s'.session.Grows S) :
    f.code.Sourced S (fun b => .str b ∈ d.nodes) d.calls := by
  obtain ⟨ps, s₁, c, _, hc, rfl⟩ := lower_eq_ok_iff.mp h
  have hbody := (d.stmt.lowers hc).sourced hS fun _ hb => hb
  change Code.Sourced S _ _ c.terminate
  unfold Code.terminate
  split
  · exact hbody
  · exact (hbody.append Code.sourced_stop).of_eq (List.append_nil _)

end

end ThreeAddress
