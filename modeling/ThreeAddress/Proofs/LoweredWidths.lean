import ThreeAddress.Proofs.Origins
import ThreeAddress.Proofs.Widths

/-!
# Widths of lowered code

A tree is well-typed if its variables have one width each, and expressions have the width that is
wanted where they stand. Lowered code of such a tree is typed, and stays so in the pipeline
(`Session.lowerFunc_hasWidths`).

The widths of temporaries are not known before lowering has made them. `Frame.Settles` says what
holds of all widths that have the temporaries made between two frames right; statements of this kind
go together as their frames do.
-/

namespace ThreeAddress
set_option autoImplicit false

open LowerM

namespace Expr

def var? : Expr → Option Var
  | var v => some v
  | assign v _ => v
  | _ => none

/-- What widths have to agree at a node, where `V` gives those of variables. -/
def FitsAt (V : Int → Width) : Expr → Prop
  | var v => v.width = V v.id
  | chain first _ w => first.width = w
  | cond _ a b w => a.width = w ∧ b.width = w
  | call (some f) args => ∀ p ∈ args.zip f.params, p.1.width = p.2
  | assign (some v) x => v.width = V v.id ∧ x.width = v.width
  | _ => True

end Expr

/-- The variables of a function wherever they stand, parameters first. -/
def Decl.vars (d : Decl) : List Var := d.header.params.filterMap id ++ d.nodes.filterMap Expr.var?

structure Decl.WellTyped (d : Decl) : Prop where
  vars : ∀ v ∈ d.vars, ∀ v' ∈ d.vars, v.id = v'.id → v.width = v'.width
  assigns : ∀ v x, .assign (some v) x ∈ d.nodes → x.width = v.width
  conds : ∀ c a b w, .cond c a b w ∈ d.nodes → a.width = w ∧ b.width = w
  chains : ∀ first rest w, .chain first rest w ∈ d.nodes → first.width = w
  calls : ∀ f args, .call (some f) args ∈ d.nodes → ∀ p ∈ args.zip f.params, p.1.width = p.2

theorem Decl.WellTyped.exists_fits {d : Decl} (h : d.WellTyped) :
    ∃ V : Int → Width, (∀ v, some v ∈ d.header.params → v.width = V v.id) ∧
      ∀ e ∈ d.nodes, e.FitsAt V := by
  let V : Int → Width := fun i => (d.vars.find? fun v => v.id = i).elim .void Var.width
  have hV : ∀ v ∈ d.vars, v.width = V v.id := by
    intro v hv
    cases hfind : d.vars.find? (fun u => u.id = v.id) with
    | none => exact absurd (decide_eq_true rfl) (List.find?_eq_none.mp hfind v hv)
    | some u =>
      have hid : u.id = v.id := by simpa using List.find?_some hfind
      have hwidth := h.vars u (List.mem_of_find?_eq_some hfind) v hv hid
      simp only [V, hfind, Option.elim_some]
      exact hwidth.symm
  have hnode {e : Expr} {v : Var} (he : e ∈ d.nodes) (hv : e.var? = some v) : v.width = V v.id :=
    hV v (List.mem_append_right _ (List.mem_filterMap.mpr ⟨e, he, hv⟩))
  refine ⟨V, fun v hv => hV v (List.mem_append_left _ (List.mem_filterMap.mpr ⟨_, hv, rfl⟩)),
    fun e he => ?_⟩
  cases e with
  | var v => exact hnode he rfl
  | chain first rest w => exact h.chains first rest w he
  | cond c a b w => exact h.conds c a b w he
  | call f args =>
    cases f with
    | none => trivial
    | some f => exact h.calls f args he
  | assign v x =>
    cases v with
    | none => trivial
    | some v => exact ⟨hnode he rfl, h.assigns v x he⟩
  | _ => trivial

/-- The register has the width `w`, and so has its key. -/
def Reg.Has (Γ : RegKey → Width) (w : Width) (r : Reg) : Prop := r.width = w ∧ r.width = Γ r.key

namespace Frame
variable {V : Int → Width} {s s₁ s' : Frame} {P Q : (RegKey → Width) → Prop}

def VarsTyped (V : Int → Width) (s : Frame) : Prop :=
  ∀ id r, s.vars.lookup id = some r → r.width = V id

/-- The registers of variables have the widths that `Γ` gives them. -/
def Fits (s : Frame) (Γ : RegKey → Width) : Prop :=
  ∀ id r, s.vars.lookup id = some r → r.width = Γ r.key

theorem Fits.of_grows {Γ : RegKey → Width} (h : s'.Fits Γ) (hs : s.Grows s') : s.Fits Γ :=
  fun id r hr => h id r (hs.vars.lookup_eq_some hr)

/-- Between `s` and `s'` temporaries get widths, and `P` holds of all `Γ` that have them right. -/
structure Settles (V : Int → Width) (s s' : Frame) (P : (RegKey → Width) → Prop) : Prop where
  grows : s.Grows s'
  vars : s'.VarsTyped V
  widths : ∃ τ : Nat → Width, ∀ Γ,
    (∀ i : Nat, s.nextTemp ≤ i → i < s'.nextTemp → Γ ⟨true, i⟩ = τ i) → s'.Fits Γ → P Γ

namespace Settles

theorem imp (h : s.Settles V s' P) (hPQ : ∀ Γ, P Γ → Q Γ) : s.Settles V s' Q where
  grows := h.grows
  vars := h.vars
  widths := by
    obtain ⟨τ, hτ⟩ := h.widths
    exact ⟨τ, fun Γ htemps hfits => hPQ Γ (hτ Γ htemps hfits)⟩

theorem andThen (h : s.Settles V s₁ P) (h' : s₁.Settles V s' Q) :
    s.Settles V s' fun Γ => P Γ ∧ Q Γ where
  grows := h.grows.trans h'.grows
  vars := h'.vars
  widths := by
    obtain ⟨τ, hτ⟩ := h.widths
    obtain ⟨τ', hτ'⟩ := h'.widths
    have hle := h.grows.temps
    have hle' := h'.grows.temps
    refine ⟨fun i => if i < s₁.nextTemp then τ i else τ' i, fun Γ htemps hfits => ?_⟩
    refine ⟨hτ Γ ?_ (hfits.of_grows h'.grows), hτ' Γ ?_ hfits⟩
    · intro i hi hlt
      exact (htemps i hi (Nat.lt_of_lt_of_le hlt hle')).trans (if_pos hlt)
    · intro i hi hlt
      exact (htemps i (Nat.le_trans hle hi) hlt).trans (if_neg (Nat.not_lt.mpr hi))

end Settles

theorem settles_of_grows (hs : s.Grows s') (hvars : s'.VarsTyped V) (h : ∀ Γ, s'.Fits Γ → P Γ) :
    s.Settles V s' P :=
  ⟨hs, hvars, fun _ => .void, fun Γ _ hfits => h Γ hfits⟩

theorem settles_newTemp (hs : s.VarsTyped V) {w : Width} {t : Reg} (h : newTemp w s = .ok t s') :
    s.Settles V s' (Reg.Has · w t) := by
  have hgrows := newTemp_grows h
  obtain ⟨rfl, rfl⟩ := newTemp_eq_ok h
  refine ⟨hgrows, hs, fun _ => w, fun Γ htemps _ => ⟨rfl, ?_⟩⟩
  exact (htemps s.nextTemp (Nat.le_refl _) (Nat.lt_succ_self _)).symm

theorem settles_orTemp (hs : s.VarsTyped V) {dst : Option Reg} {w : Width} {d : Reg}
    (h : orTemp dst w s = .ok d s') :
    s.Settles V s' fun Γ => (∀ r ∈ dst, r.Has Γ w) → d.Has Γ w := by
  rcases orTemp_eq_ok h with ⟨rfl, rfl⟩ | ⟨rfl, ht⟩
  · exact settles_of_grows (.refl _) hs fun Γ _ hdst => hdst d rfl
  · exact (settles_newTemp hs ht).imp fun Γ ht _ => ht

theorem settles_newLabel (hs : s.VarsTyped V) {base : String} {l : Label}
    (h : newLabel base s = .ok l s') :
    s.Settles V s' fun _ => True := by
  have hgrows := newLabel_grows h
  cases h
  exact settles_of_grows hgrows hs fun _ _ => trivial

theorem settles_calleeOf (hs : s.VarsTyped V) {f : FuncRef} {v : Operand}
    (h : calleeOf f s = .ok v s') :
    s.Settles V s' fun _ => True := by
  obtain ⟨_, _, _, hgrows, _⟩ := calleeOf_eq_ok h
  cases h
  exact settles_of_grows hgrows hs fun _ _ => trivial

theorem VarsTyped.regOf (hs : s.VarsTyped V) {v : Var} (hv : v.width = V v.id) {r : Reg}
    (h : LowerM.regOf v s = .ok r s') :
    s'.VarsTyped V := by
  unfold LowerM.regOf at h
  cases hlookup : s.vars.lookup v.id with
  | some r' =>
    rw [hlookup] at h
    cases h
    exact hs
  | none =>
    rw [hlookup] at h
    cases h
    intro id r hr
    rw [List.lookup_append, Option.or_eq_some_iff] at hr
    rcases hr with hr | ⟨_, hr⟩
    · exact hs id r hr
    · rw [List.lookup_cons] at hr
      cases hid : id == v.id with
      | true =>
        rw [hid] at hr
        cases hr
        rw [eq_of_beq hid]
        exact hv
      | false =>
        rw [hid] at hr
        cases hr

theorem settles_regOf (hs : s.VarsTyped V) {v : Var} (hv : v.width = V v.id) {r : Reg}
    (h : regOf v s = .ok r s') :
    s.Settles V s' (Reg.Has · v.width r) := by
  obtain ⟨hlookup, hgrows, _⟩ := regOf_eq_ok h
  have hs' := hs.regOf hv h
  exact settles_of_grows hgrows hs' fun Γ hfits =>
    ⟨(hs' v.id r hlookup).trans hv.symm, hfits v.id r hlookup⟩

theorem settles_atom (hs : s.VarsTyped V) {e : Expr} {act : LowerM Operand} {v : Operand}
    (he : e.atom? = some act) (hfit : e.FitsAt V) (h : act s = .ok v s') :
    s.Settles V s' fun Γ => v.width = e.width ∧ v.Known Γ := by
  cases e with
  | num n w =>
    cases he
    cases h
    exact settles_of_grows (.refl _) hs fun Γ _ => ⟨rfl, fun r hr => Operand.noConfusion hr⟩
  | var x =>
    cases he
    obtain ⟨r, hr, rfl⟩ := map_eq_ok_iff.mp h
    exact (settles_regOf hs hfit hr).imp fun Γ hr => ⟨hr.1, Operand.known_reg.mpr hr.2⟩
  | str b =>
    cases he
    obtain ⟨i, rfl, _, hgrows, _⟩ := dataOf_eq_ok h
    cases h
    exact settles_of_grows hgrows hs fun Γ _ => ⟨rfl, fun r hr => Operand.noConfusion hr⟩
  | funcRef f =>
    cases he
    obtain ⟨l, rfl, _, hgrows, _⟩ := calleeOf_eq_ok h
    cases h
    exact settles_of_grows hgrows hs fun Γ _ => ⟨rfl, fun r hr => Operand.noConfusion hr⟩
  | _ => cases he

end Frame

section
variable {Γ : RegKey → Width}

theorem Instr.typed_make {op : Opcode} {args : List Operand} (hmov : op ≠ .mov) (hcall : op ≠ .call)
    (h : ∀ a ∈ args, a.Known Γ) : (Instr.make op args).Typed Γ := by
  refine typed_of_known hmov hcall fun a ha => ?_
  obtain ⟨a', ha', heq⟩ := List.mem_map.mp ha
  cases heq
  exact h a ha'

theorem Operand.known_label (l : Label) : (label l).Known Γ := fun _ hr => Operand.noConfusion hr

namespace Code
variable {c d : Code}

theorem Typed.append (hc : c.Typed Γ) (hd : d.Typed Γ) : Typed Γ (c ++ d) :=
  List.forall_mem_append.mpr ⟨hc, hd⟩

theorem Typed.cons {op : Opcode} {args : List Operand} (hc : c.Typed Γ) (hmov : op ≠ .mov)
    (hcall : op ≠ .call) (h : ∀ a ∈ args, a.Known Γ) : Typed Γ (.make op args :: c) :=
  List.forall_mem_cons.mpr ⟨Instr.typed_make hmov hcall h, hc⟩

theorem typed_nil : Typed Γ [] := List.forall_mem_nil _

theorem Typed.mark (hc : c.Typed Γ) (k : NodeKind) : Typed Γ (.mark k :: c) :=
  hc.cons Opcode.noConfusion Opcode.noConfusion
    (List.forall_mem_singleton.mpr fun _ hr => Operand.noConfusion hr)

theorem Typed.defineLabel (hc : c.Typed Γ) (l : Label) : Typed Γ (.defineLabel l :: c) :=
  hc.cons Opcode.noConfusion Opcode.noConfusion
    (List.forall_mem_singleton.mpr (Operand.known_label l))

theorem Typed.jump (hc : c.Typed Γ) (l : Label) : Typed Γ (.jump l :: c) :=
  hc.cons Opcode.noConfusion Opcode.noConfusion
    (List.forall_mem_singleton.mpr (Operand.known_label l))

theorem Typed.mov {w : Width} {r : Reg} {v : Operand} (hc : c.Typed Γ) (hr : r.Has Γ w)
    (hv : v.width = w) (hknown : v.Known Γ) : Typed Γ (.make .mov [.reg r, v] :: c) := by
  refine List.forall_mem_cons.mpr ⟨⟨fun a ha => ?_, fun d u hx => ?_, fun d l w rest hx => ?_⟩, hc⟩
  · simp only [Instr.make, List.map_cons, List.map_nil, List.mem_cons, Option.some.injEq,
        List.not_mem_nil, or_false] at ha
    rcases ha with rfl | rfl
    · exact Operand.known_reg.mpr hr.2
    · exact hknown
  · cases hx
    exact hr.1.trans hv.symm
  · cases hx

theorem typed_given {w : Width} {dst : Option Reg} {v : Operand} (hdst : ∀ d ∈ dst, d.Has Γ w)
    (hv : v.width = w) (hknown : v.Known Γ) : Typed Γ (given dst v) := by
  cases dst with
  | none => exact typed_nil
  | some r => exact typed_nil.mov (hdst r rfl) hv hknown

theorem typed_into {op : Opcode} {w : Width} {r : Reg} {v : Operand} (hmov : op ≠ .mov)
    (hcall : op ≠ .call) (hr : r.Has Γ w) (hv : v.Known Γ) : Typed Γ [.make op [.reg r, v]] :=
  typed_nil.cons hmov hcall
    (List.forall_mem_cons.mpr ⟨Operand.known_reg.mpr hr.2, List.forall_mem_singleton.mpr hv⟩)

theorem typed_bin (o : BinOp) {w : Width} {r : Reg} {u v : Operand} (hr : r.Has Γ w)
    (hu : u.Known Γ) (hv : v.Known Γ) :
    Typed Γ [.make (.bin o) [.reg r, u, v]] :=
  typed_nil.cons Opcode.noConfusion Opcode.noConfusion (List.forall_mem_cons.mpr
    ⟨Operand.known_reg.mpr hr.2, List.forall_mem_cons.mpr ⟨hu, List.forall_mem_singleton.mpr hv⟩⟩)

theorem typed_branch {op : Opcode} (hop : op = .brz ∨ op = .bnz) (l : Label) {v : Operand}
    (hv : v.Known Γ) :
    Typed Γ [.make op [.label l, v]] := List.forall_mem_singleton.mpr (.test hop l hv)

theorem typed_write {u v : Operand} (hu : u.Known Γ) (hv : v.Known Γ) :
    Typed Γ [.make .write [u, v]] :=
  typed_nil.cons Opcode.noConfusion Opcode.noConfusion
    (List.forall_mem_cons.mpr ⟨hu, List.forall_mem_singleton.mpr hv⟩)

theorem typed_ret {args : List Operand} (h : ∀ a ∈ args, a.Known Γ) : Typed Γ [.make .ret args] :=
  typed_nil.cons Opcode.noConfusion Opcode.noConfusion h

theorem typed_call {dst : Option Reg} {l : Label} {w : Width} {ts : List Reg}
    (hdst : ∀ d ∈ dst, d.Has Γ w) (hts : ∀ t ∈ ts, t.width = Γ t.key) :
    Typed Γ [.make .call (resultOf dst :: .callee l w :: ts.map .reg)] := by
  refine List.forall_mem_singleton.mpr ⟨fun a ha => ?_, fun d u hx => ?_, fun d l' w' rest hx => ?_⟩
  · obtain ⟨a', ha', heq⟩ := List.mem_map.mp ha
    cases heq
    rcases List.mem_cons.mp ha' with rfl | ha'
    · cases dst with
      | none => exact fun r hr => Operand.noConfusion hr
      | some r => exact Operand.known_reg.mpr (hdst r rfl).2
    · rcases List.mem_cons.mp ha' with rfl | ha'
      · exact fun r hr => Operand.noConfusion hr
      · obtain ⟨t, ht, rfl⟩ := List.mem_map.mp ha'
        exact Operand.known_reg.mpr (hts t ht)
  · cases hx
  · cases dst with
    | none => cases hx
    | some r =>
      cases hx
      exact (hdst d rfl).1

end Code

end

namespace Part

/-- What a part relies on: a destination of the right width, and operands of known width. -/
def Expects (Γ : RegKey → Width) : Part → Prop
  | value e dst => ∀ d ∈ dst, d.Has Γ e.width
  | fresh e w _ => e.width = w
  | terms w dst acc _ => (∀ d ∈ dst, d.Has Γ w) ∧ acc.Known Γ
  | tests branch _ _ => branch = .brz ∨ branch = .bnz
  | args list ws _ => ∀ p ∈ list.zip ws, p.1.width = p.2
  | operand .. | guard .. => True

/-- What a part leaves to others. -/
def Leaves (Γ : RegKey → Width) : Part → Prop
  | fresh _ w t => t.Has Γ w
  | operand _ v => v.Known Γ
  | args _ _ ts => ∀ t ∈ ts, t.width = Γ t.key
  | value .. | terms .. | tests .. | guard .. => True

end Part

/-- The code of a part is typed, and what it leaves has the right widths. -/
theorem Lowers.settles {V : Int → Width} {p : Part} {s s' : Frame} {c : Code} (h : Lowers p s c s')
    (hp : ∀ e ∈ p.nodes, e.FitsAt V) (hs : s.VarsTyped V) :
    s.Settles V s' fun Γ => p.Expects Γ → c.Typed Γ ∧ p.Leaves Γ := by
  induction h with
  | @atom e _ k _ _ _ _ he hv =>
    have hfit : e.FitsAt V := hp e (by simp [Part.nodes, (Expr.nodes_of_atom? he).1])
    refine (Frame.settles_atom hs he hfit hv).imp fun Γ hv hdst => ⟨?_, trivial⟩
    exact (Code.typed_given hdst hv.1 hv.2).mark k
  | unary _ _ hd ihx =>
    simp only [Part.nodes, Expr.nodes, List.forall_mem_append] at hp
    have hx := ihx hp.1 hs
    refine (hx.andThen (Frame.settles_orTemp hx.vars hd)).imp fun Γ hall hdst => ⟨?_, trivial⟩
    obtain ⟨hx, hd⟩ := hall
    obtain ⟨hx, hvx⟩ := hx trivial
    exact (hx.append (Code.typed_into Opcode.noConfusion Opcode.noConfusion (hd hdst) hvx)).mark _
  | binary _ _ _ hd ihx ihy =>
    simp only [Part.nodes, Expr.nodes, List.forall_mem_append] at hp
    have hx := ihx hp.1.1 hs
    have hy := ihy hp.1.2 hx.vars
    refine ((hx.andThen hy).andThen (Frame.settles_orTemp hy.vars hd)).imp fun Γ hall hdst =>
      ⟨?_, trivial⟩
    obtain ⟨⟨hx, hy⟩, hd⟩ := hall
    obtain ⟨hx, hvx⟩ := hx trivial
    obtain ⟨hy, hvy⟩ := hy trivial
    exact (hx.append (hy.append (Code.typed_bin _ (hd hdst) hvx hvy))).mark _
  | @chainOne first w dst _ _ _ _ ih =>
    simp only [Part.nodes, Expr.nodes, List.forall_mem_append, List.forall_mem_singleton] at hp
    have hwidth : first.width = w := hp.2
    refine (ih hp.1.1 hs).imp fun Γ hx hdst => ⟨(hx ?_).1.mark _, trivial⟩
    change ∀ d ∈ dst, d.Has Γ first.width
    rw [hwidth]
    exact hdst
  | chain _ _ _ ihx iht =>
    simp only [Part.nodes, Expr.nodes, List.forall_mem_append] at hp
    have hx := ihx hp.1.1 hs
    refine (hx.andThen (iht hp.1.2 hx.vars)).imp fun Γ hall hdst => ⟨?_, trivial⟩
    obtain ⟨hx, ht⟩ := hall
    obtain ⟨hx, hacc⟩ := hx trivial
    exact (hx.append (ht ⟨hdst, hacc⟩).1).mark _
  | @all _ _ _ _ _ fin _ _ _ _ _ _ hd hfin _ iht =>
    simp only [Part.nodes, Expr.nodes, List.forall_mem_append] at hp
    have hd := Frame.settles_orTemp hs hd
    have hfin := Frame.settles_newLabel hd.vars hfin
    refine ((hd.andThen hfin).andThen (iht hp.1 hfin.vars)).imp fun Γ hall hdst => ⟨?_, trivial⟩
    obtain ⟨⟨hd, _⟩, ht⟩ := hall
    have hnum (n : Int) (w : Width) : (Operand.num n w).Known Γ :=
      fun _ hr => Operand.noConfusion hr
    have hlast := (Code.typed_nil.defineLabel fin).mov (hd hdst) rfl (hnum 1 _)
    exact (((ht (.inl rfl)).1.append hlast).mov (hd hdst) rfl (hnum 0 _)).mark _
  | @any _ _ _ _ _ found fin _ _ _ _ _ _ _ hd hfound hfin _ iht =>
    simp only [Part.nodes, Expr.nodes, List.forall_mem_append] at hp
    have hd := Frame.settles_orTemp hs hd
    have hfound := Frame.settles_newLabel hd.vars hfound
    have hfin := Frame.settles_newLabel hfound.vars hfin
    refine (((hd.andThen hfound).andThen hfin).andThen (iht hp.1 hfin.vars)).imp fun Γ hall hdst =>
      ⟨?_, trivial⟩
    obtain ⟨⟨⟨hd, _⟩, _⟩, ht⟩ := hall
    have hnum (n : Int) (w : Width) : (Operand.num n w).Known Γ :=
      fun _ hr => Operand.noConfusion hr
    have hlast :=
      (((Code.typed_nil.defineLabel fin).defineLabel found).jump fin).mov (hd hdst) rfl (hnum 0 _)
    exact (((ht (.inr rfl)).1.append hlast).mov (hd hdst) rfl (hnum 1 _)).mark _
  | @cond _ a b w dst _ _ _ _ _ _ _ _ _ _ _ _ hother hfin _ _ ihc iha ihb =>
    simp only [Part.nodes, Expr.nodes, List.forall_mem_append, List.forall_mem_singleton] at hp
    obtain ⟨ha_width, hb_width⟩ : a.width = w ∧ b.width = w := hp.2
    have hc := ihc hp.1.1.1 hs
    have hother := Frame.settles_newLabel hc.vars hother
    have hfin := Frame.settles_newLabel hother.vars hfin
    have ha := iha hp.1.1.2 hfin.vars
    have hb := ihb hp.1.2 ha.vars
    refine ((((hc.andThen hother).andThen hfin).andThen ha).andThen hb).imp fun Γ hall hdst =>
      ⟨?_, trivial⟩
    obtain ⟨⟨⟨⟨hc, _⟩, _⟩, ha⟩, hb⟩ := hall
    have ha := (ha (show ∀ d ∈ dst, d.Has Γ a.width from ha_width ▸ hdst)).1
    have hb := (hb (show ∀ d ∈ dst, d.Has Γ b.width from hb_width ▸ hdst)).1
    exact ((hc trivial).1.append
      (ha.append (((hb.append (Code.typed_nil.defineLabel _)).defineLabel _).jump _))).mark _
  | call hcallee _ iha =>
    simp only [Part.nodes, Expr.nodes, List.forall_mem_append, List.forall_mem_singleton] at hp
    obtain ⟨l, rfl, _, _, _⟩ := calleeOf_eq_ok hcallee
    have hcallee := Frame.settles_calleeOf hs hcallee
    refine (hcallee.andThen (iha hp.1 hcallee.vars)).imp fun Γ hall hdst => ⟨?_, trivial⟩
    obtain ⟨ha, hts⟩ := hall.2 hp.2
    exact (ha.append (Code.typed_call hdst hts)).mark _
  | @assignAtom v x _ dst r _ _ _ _ he hr hv =>
    simp only [Part.nodes, Expr.nodes, List.forall_mem_append, List.forall_mem_singleton,
      (Expr.nodes_of_atom? he).1] at hp
    obtain ⟨hvar, hwidth⟩ : v.width = V v.id ∧ x.width = v.width := hp.2
    have hr := Frame.settles_regOf hs hvar hr
    refine (hr.andThen (Frame.settles_atom hr.vars he hp.1 hv)).imp fun Γ hall hdst => ⟨?_, trivial⟩
    obtain ⟨hr, hv, hknown⟩ := hall
    have hgiven : Code.Typed Γ (given dst (.reg r)) :=
      Code.typed_given hdst hr.1 (Operand.known_reg.mpr hr.2)
    exact (hgiven.mov hr (hv.trans hwidth) hknown).mark _
  | @assign v x dst r t _ _ _ _ _ hr _ ihx =>
    simp only [Part.nodes, Expr.nodes, List.forall_mem_append, List.forall_mem_singleton] at hp
    obtain ⟨hvar, hwidth⟩ : v.width = V v.id ∧ x.width = v.width := hp.2
    have hr := Frame.settles_regOf hs hvar hr
    refine (hr.andThen (ihx hp.1 hr.vars)).imp fun Γ hall hdst => ⟨?_, trivial⟩
    obtain ⟨hr, hx⟩ := hall
    obtain ⟨hx, ht⟩ := hx hwidth
    have hgiven : Code.Typed Γ (given dst (.reg r)) :=
      Code.typed_given hdst hr.1 (Operand.known_reg.mpr hr.2)
    exact (hx.append (hgiven.mov (v := .reg t) hr ht.1 (Operand.known_reg.mpr ht.2))).mark _
  | load _ hd iha =>
    simp only [Part.nodes, Expr.nodes, List.forall_mem_append] at hp
    have ha := iha hp.1 hs
    refine (ha.andThen (Frame.settles_orTemp ha.vars hd)).imp fun Γ hall hdst => ⟨?_, trivial⟩
    obtain ⟨ha, hd⟩ := hall
    obtain ⟨ha, hva⟩ := ha trivial
    exact (ha.append (Code.typed_into Opcode.noConfusion Opcode.noConfusion (hd hdst) hva)).mark _
  | @fresh e w t _ _ _ _ ht _ ih =>
    have ht := Frame.settles_newTemp hs ht
    refine (ht.andThen (ih hp ht.vars)).imp fun Γ hall hwidth => ?_
    obtain ⟨ht, hx⟩ := hall
    refine ⟨(hx fun d hd => ?_).1, ht⟩
    cases hd
    exact hwidth ▸ ht
  | @operandAtom e _ _ _ _ he hv =>
    have hfit : e.FitsAt V := hp e (by simp [Part.nodes, (Expr.nodes_of_atom? he).1])
    exact (Frame.settles_atom hs he hfit hv).imp fun Γ hv _ => ⟨Code.typed_nil, hv.2⟩
  | operand _ _ ih =>
    refine (ih hp hs).imp fun Γ hx _ => ?_
    obtain ⟨hx, ht⟩ := hx rfl
    exact ⟨hx, Operand.known_reg.mpr ht.2⟩
  | termsLast _ _ hd ihx =>
    simp only [Part.nodes, Expr.nodesTerms, List.append_nil] at hp
    have hx := ihx hp hs
    refine (hx.andThen (Frame.settles_orTemp hx.vars hd)).imp fun Γ hall hneeds => ⟨?_, trivial⟩
    obtain ⟨hx, hd⟩ := hall
    obtain ⟨hx, hvx⟩ := hx trivial
    obtain ⟨hdst, hacc⟩ := hneeds
    exact hx.append (Code.typed_bin _ (hd hdst) hacc hvx)
  | termsMore _ _ _ ht _ ihx ihrest =>
    simp only [Part.nodes, Expr.nodesTerms, List.forall_mem_append] at hp
    have hx := ihx hp.1 hs
    have ht := Frame.settles_newTemp hx.vars ht
    refine ((hx.andThen ht).andThen (ihrest hp.2 ht.vars)).imp fun Γ hall hneeds => ⟨?_, trivial⟩
    obtain ⟨⟨hx, ht⟩, hrest⟩ := hall
    obtain ⟨hx, hvx⟩ := hx trivial
    obtain ⟨hdst, hacc⟩ := hneeds
    exact hx.append
      ((Code.typed_bin _ ht hacc hvx).append (hrest ⟨hdst, Operand.known_reg.mpr ht.2⟩).1)
  | testsNil => exact Frame.settles_of_grows (.refl _) hs fun Γ _ _ => ⟨Code.typed_nil, trivial⟩
  | testsCons _ _ ihx iht =>
    simp only [Part.nodes, Expr.nodesList, List.forall_mem_append] at hp
    have hx := ihx hp.1 hs
    refine (hx.andThen (iht hp.2 hx.vars)).imp fun Γ hall hop => ⟨?_, trivial⟩
    obtain ⟨hx, ht⟩ := hall
    obtain ⟨hx, hvx⟩ := hx trivial
    exact hx.append ((Code.typed_branch hop _ hvx).append (ht hop).1)
  | guardHole => exact Frame.settles_of_grows (.refl _) hs fun Γ _ _ => ⟨Code.typed_nil, trivial⟩
  | guard _ _ ih =>
    refine (ih hp hs).imp fun Γ hx _ => ⟨?_, trivial⟩
    obtain ⟨hx, ht⟩ := hx rfl
    exact hx.append (Code.typed_branch (.inl rfl) _ (Operand.known_reg.mpr ht.2))
  | argsNil =>
    exact Frame.settles_of_grows (.refl _) hs fun Γ _ _ => ⟨Code.typed_nil, List.forall_mem_nil _⟩
  | argsCons _ _ ihx ihrest =>
    simp only [Part.nodes, Expr.nodesList, List.forall_mem_append] at hp
    have hx := ihx hp.1 hs
    refine (hx.andThen (ihrest hp.2 hx.vars)).imp fun Γ hall hwidths => ?_
    obtain ⟨hx, hrest⟩ := hall
    obtain ⟨hwidth, hwidths⟩ := List.forall_mem_cons.mp hwidths
    obtain ⟨hx, ht⟩ := hx hwidth
    obtain ⟨hrest, hts⟩ := hrest hwidths
    exact ⟨hx.append hrest, List.forall_mem_cons.mpr ⟨ht.2, hts⟩⟩

theorem LowersBody.settles {V : Int → Width} {loop : Option Loop} {b : Body} {s s' : Frame}
    {c : Code} (h : LowersBody loop b s c s') (hb : ∀ e ∈ b.nodes, e.FitsAt V)
    (hs : s.VarsTyped V) :
    s.Settles V s' (Code.Typed · c) := by
  induction h with
  | hole | nil => exact Frame.settles_of_grows (.refl _) hs fun Γ _ => Code.typed_nil
  | block _ ih =>
    simp only [Body.nodes, Stmt.nodes] at hb
    exact (ih hb hs).imp fun Γ hxs => hxs.mark _
  | expr hx =>
    simp only [Body.nodes, Stmt.nodes] at hb
    refine (hx.settles hb hs).imp fun Γ hx => (hx fun d hd => ?_).1.mark _
    cases hd
  | store ha hx =>
    simp only [Body.nodes, Stmt.nodes, List.forall_mem_append] at hb
    have ha := ha.settles hb.1 hs
    refine (ha.andThen (hx.settles hb.2 ha.vars)).imp fun Γ hall => ?_
    obtain ⟨ha, hva⟩ := hall.1 trivial
    obtain ⟨hx, hvx⟩ := hall.2 trivial
    exact (ha.append (hx.append (Code.typed_write hva hvx))).mark _
  | branch hc hfin _ iha =>
    simp only [Body.nodes, Stmt.nodes, List.forall_mem_append] at hb
    have hc := hc.settles hb.1.1 hs
    have hfin := Frame.settles_newLabel hc.vars hfin
    refine ((hc.andThen hfin).andThen (iha hb.1.2 hfin.vars)).imp fun Γ hall => ?_
    obtain ⟨⟨hc, _⟩, ha⟩ := hall
    exact ((hc trivial).1.append (ha.append (Code.typed_nil.defineLabel _))).mark _
  | branchElse _ hc hfin hother _ _ iha ihb =>
    simp only [Body.nodes, Stmt.nodes, List.forall_mem_append] at hb
    have hc := hc.settles hb.1.1 hs
    have hfin := Frame.settles_newLabel hc.vars hfin
    have hother := Frame.settles_newLabel hfin.vars hother
    have ha := iha hb.1.2 hother.vars
    refine ((((hc.andThen hfin).andThen hother).andThen ha).andThen (ihb hb.2 ha.vars)).imp
      fun Γ hall => ?_
    obtain ⟨⟨⟨⟨hc, _⟩, _⟩, ha⟩, hb⟩ := hall
    exact ((hc trivial).1.append
      (ha.append (((hb.append (Code.typed_nil.defineLabel _)).defineLabel _).jump _))).mark _
  | whileLoop htop hfin hc _ ihb =>
    simp only [Body.nodes, Stmt.nodes, List.forall_mem_append] at hb
    have htop := Frame.settles_newLabel hs htop
    have hfin := Frame.settles_newLabel htop.vars hfin
    have hc := hc.settles hb.1 hfin.vars
    refine (((htop.andThen hfin).andThen hc).andThen (ihb hb.2 hc.vars)).imp fun Γ hall => ?_
    obtain ⟨⟨_, hc⟩, hb⟩ := hall
    exact (((hc trivial).1.append (hb.append ((Code.typed_nil.defineLabel _).jump _))).defineLabel
      _).mark _
  | forLoop _ htop hnext hfin hc _ _ ihstart ihb ihp =>
    simp only [Body.nodes, Stmt.nodes, List.forall_mem_append] at hb
    obtain ⟨⟨⟨hstart, hcond⟩, hbody⟩, hpost⟩ := hb
    have hstart := ihstart hstart hs
    have htop := Frame.settles_newLabel hstart.vars htop
    have hnext := Frame.settles_newLabel htop.vars hnext
    have hfin := Frame.settles_newLabel hnext.vars hfin
    have hc := hc.settles hcond hfin.vars
    have hb := ihb hbody hc.vars
    have hlabels := (hstart.andThen htop).andThen (hnext.andThen hfin)
    refine (((hlabels.andThen hc).andThen hb).andThen (ihp hpost hb.vars)).imp fun Γ hall => ?_
    obtain ⟨⟨⟨⟨⟨hstart, _⟩, _⟩, hc⟩, hb⟩, hp⟩ := hall
    exact (hstart.append (((hc trivial).1.append (hb.append ((hp.append
      ((Code.typed_nil.defineLabel _).jump _)).defineLabel _))).defineLabel _)).mark _
  | breakLoop | continueLoop =>
    exact Frame.settles_of_grows (.refl _) hs fun Γ _ => (Code.typed_nil.jump _).mark _
  | retNone =>
    exact Frame.settles_of_grows (.refl _) hs fun Γ _ =>
      (Code.typed_ret (List.forall_mem_nil _)).mark _
  | ret _ hx =>
    simp only [Body.nodes, Stmt.nodes] at hb
    refine (hx.settles hb hs).imp fun Γ hx => ?_
    obtain ⟨hx, hvx⟩ := hx trivial
    exact (hx.append (Code.typed_ret (List.forall_mem_singleton.mpr hvx))).mark _
  | cons _ _ ihx ihs =>
    simp only [Body.nodes, Stmt.nodesList, List.forall_mem_append] at hb
    have hx := ihx hb.1 hs
    exact (hx.andThen (ihs hb.2 hx.vars)).imp fun Γ hall => hall.1.append hall.2

namespace Frame
variable {V : Int → Width} {s s' : Frame}

theorem VarsTyped.declare {params : List (Option Var)} {ps : List Param} (hs : s.VarsTyped V)
    (hparams : ∀ v, some v ∈ params → v.width = V v.id)
    (h : LowerM.declare params s = .ok (.ok ps) s') : s'.VarsTyped V := by
  induction params generalizing s ps with
  | nil =>
    obtain ⟨_, rfl⟩ := pure_eq_ok_iff.mp h
    exact hs
  | cons p params ih =>
    cases p with
    | none => cases (pure_eq_ok_iff.mp h).1
    | some v =>
      obtain ⟨_, r, s₁, qs, hr, hrest, rfl⟩ := declare_cons_eq_ok_iff.mp h
      have hv := hparams v List.mem_cons_self
      exact ih (hs.regOf hv hr) (fun u hu => hparams u (List.mem_cons_of_mem _ hu)) hrest

/-- Widths of all registers: those of variables are in the frame, and those of temporaries can be
chosen. -/
theorem Settles.exists_widths {P : (RegKey → Width) → Prop} (h : s.Settles V s' P)
    (hs' : s'.Numbered) : ∃ Γ, P Γ := by
  obtain ⟨τ, hτ⟩ := h.widths
  refine ⟨fun k => if k.temp then τ k.index.toNat else (s'.vars[k.index.toNat]?).elim .void fun p =>
    p.2.width, hτ _ ?_ ?_⟩
  · intro i _ _
    rfl
  · intro id r hr
    obtain ⟨l₁, l₂, hl, _⟩ := List.lookup_eq_some_iff.mp hr
    have hget : s'.vars[l₁.length]? = some (id, r) := by simp [hl]
    rw [hs' _ _ hget]
    simp [hget]

end Frame

theorem Code.Typed.terminate {Γ : RegKey → Width} {c : Code} (h : c.Typed Γ) :
    c.terminate.Typed Γ := by
  unfold Code.terminate
  split
  · exact h
  · exact h.append (typed_ret (List.forall_mem_nil _))

theorem Decl.hasWidths {s : Session} {d : Decl} {f : Func} {fin : Frame}
    (h : d.lower ⟨s, 0, []⟩ = .ok (.ok f) fin) (hd : d.WellTyped) : f.code.HasWidths := by
  have hfin := numbered_of_lower h
  obtain ⟨ps, s₁, c, hdeclare, hbody, rfl⟩ := lower_eq_ok h
  obtain ⟨V, hparams, hnodes⟩ := hd.exists_fits
  have hstart : Frame.VarsTyped V ⟨s, 0, []⟩ := fun id r hr => by cases hr
  obtain ⟨Γ, hΓ⟩ := (hbody.settles hnodes (hstart.declare hparams hdeclare)).exists_widths hfin
  exact ⟨Γ, hΓ.terminate⟩

/-- A well-typed function that is lowered has code in which each register has one width, moves keep
widths and results of calls have the width of their callee; and it has such code when it has gone
through the pipeline. -/
theorem Session.lowerFunc_hasWidths {s s' : Session} {d : Decl} {f : Func}
    (h : s.lowerFunc d = .ok (.ok f, s')) (hd : d.WellTyped) : f.code.HasWidths ∧
      ∃ c, Pipeline.standard.runFunc f = .ok ({ f with code := c }, .ok ()) ∧ Code.HasWidths c := by
  obtain ⟨hf, fin, hlower, _⟩ := lowerFunc_eq_ok h
  have hwidths := Decl.hasWidths hlower hd
  obtain ⟨c, hrun, _, hchanges⟩ := Pipeline.runFunc_changes (Func.verified_iff.mp hf)
  exact ⟨hwidths, c, hrun, hchanges.hasWidths hwidths⟩

/-- Asks for a limit and keeps below it. -/
def Decl.clamp : Decl :=
  let n := Sample.local32 0 "n"
  let m := Sample.local32 1 "m"
  let limit : FuncRef := ⟨"limit", .i32, [.ptr, .i32]⟩
  Sample.decl "clamp" .i32 [n] [
    Sample.set m (.call (some limit)
      [.str (Bytes.ofString "top"), .chain (.var n) [("+", .var n), ("-", Sample.lit 1)] .i32]),
    .ret (.cond (Sample.cmp "<" (.var n) (.var m)) (.var n) (.var m) .i32)]

theorem Session.lowerFunc_hasWidths_clamp :
    Decl.clamp.WellTyped ∧ ∃ f s', Session.empty.lowerFunc .clamp = .ok (.ok f, s') ∧
      f.code.HasWidths ∧ ∃ c, Pipeline.standard.runFunc f = .ok ({ f with code := c }, .ok ()) ∧
        Code.HasWidths c := by
  have hd : Decl.clamp.WellTyped := by
    refine ⟨by decide +kernel, fun v x h => ?_, fun c a b w h => ?_, fun first rest w h => ?_,
      fun f args h => ?_⟩ <;> simp [Decl.clamp, Decl.nodes, Decl.stmt, Sample.decl, Sample.set,
      Sample.cmp, Sample.lit, Sample.local32, Stmt.nodes,
      Stmt.nodesList, Expr.nodes, Expr.nodesList, Expr.nodesTerms] at h
    · obtain ⟨rfl, rfl⟩ := h
      rfl
    · obtain ⟨rfl, rfl, rfl, rfl⟩ := h
      exact ⟨rfl, rfl⟩
    · obtain ⟨rfl, rfl, rfl⟩ := h
      rfl
    · obtain ⟨rfl, rfl⟩ := h
      exact List.forall_mem_cons.mpr ⟨rfl, List.forall_mem_singleton.mpr rfl⟩
  obtain ⟨f, s', h⟩ : ∃ f s', Session.empty.lowerFunc .clamp = .ok (.ok f, s') :=
    exists_lowerFunc_of_isSome (by decide +kernel)
  exact ⟨hd, f, s', h, lowerFunc_hasWidths h hd⟩

end ThreeAddress
