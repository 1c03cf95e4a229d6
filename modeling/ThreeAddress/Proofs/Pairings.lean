import Mathlib.Data.List.Forall2
import ThreeAddress.Proofs.Lowered
import ThreeAddress.Proofs.Renaming

/-!
# Frames that differ in temporaries

Lowerings that go side by side and take their temporaries in different orders make the same code, up
to the numbers of temporaries. A `Pairing` of their frames says which temporaries stand for each
other so far, one to one. It grows with each temporary that both have taken.

Things are the same under a pairing if all renamings that join what is paired make them equal
(`Pairing.Same`). Code is the same if its instructions are; marks do not count (`Pairing.SameCode`).
-/

namespace ThreeAddress
set_option autoImplicit false

open LowerM

/-- Two renamings that take linked temporaries to one, and are alike in everything else. -/
structure Renaming.Joins (links : Int → Int → Prop) (ρ ρ' : Renaming) : Prop where
  names : ρ.onlyNames = ρ'.onlyNames
  temp : ∀ {i j}, links i j → ρ.temp i = ρ'.temp j

/-- The frames differ only in temporaries, and some of these are linked, one to one. -/
structure Pairing (s t : Frame) where
  links : Int → Int → Prop
  session : t.session = s.session
  vars : t.vars = s.vars
  numbered : s.Numbered
  bound : ∀ {i j}, links i j → i < s.nextTemp ∧ j < t.nextTemp
  left_unique : ∀ {i i' j}, links i j → links i' j → i = i'
  right_unique : ∀ {i j j'}, links i j → links i j' → j = j'

namespace Pairing
variable {s s' s'' t t' t'' : Frame}

def Same {α : Type} (P : Pairing s t) (rename : Renaming → α → α) (x y : α) : Prop :=
  ∀ ρ ρ', Renaming.Joins P.links ρ ρ' → rename ρ x = rename ρ' y

def SameCode (P : Pairing s t) (c d : Code) : Prop :=
  P.Same Code.rename c.dropNops.code d.dropNops.code

/-- All links are kept, and what is linked besides is new; on the right side, temporaries from `m`
on count as new. -/
structure Extends (P : Pairing s t) (m : Nat) (P' : Pairing s' t') : Prop where
  temps_left : s.nextTemp ≤ s'.nextTemp
  temps_right : t.nextTemp ≤ t'.nextTemp
  keeps : ∀ {i j}, P.links i j → P'.links i j
  fresh : ∀ {i j}, P'.links i j → P.links i j ∨ s.nextTemp ≤ i ∧ m ≤ j

def Grows (P : Pairing s t) (P' : Pairing s' t') : Prop := P.Extends t.nextTemp P'

section
variable {P : Pairing s t} {P' : Pairing s' t'} {P'' : Pairing s'' t''}

theorem Grows.refl (P : Pairing s t) : P.Grows P := ⟨Nat.le_refl _, Nat.le_refl _, id, .inl⟩

theorem Extends.of_le {k m : Nat} (h : P.Extends m P') (hk : k ≤ m) : P.Extends k P' where
  temps_left := h.temps_left
  temps_right := h.temps_right
  keeps := h.keeps
  fresh hij := by
    rcases h.fresh hij with hij | ⟨hi, hj⟩
    · exact .inl hij
    · exact .inr ⟨hi, by omega⟩

theorem Extends.trans {m : Nat} (h : P.Extends m P') (h' : P'.Extends m P'') : P.Extends m P'' where
  temps_left := Nat.le_trans h.temps_left h'.temps_left
  temps_right := Nat.le_trans h.temps_right h'.temps_right
  keeps hij := h'.keeps (h.keeps hij)
  fresh hij := by
    have hs := h.temps_left
    rcases h'.fresh hij with hij | ⟨hi, hj⟩
    · exact h.fresh hij
    · exact .inr ⟨by omega, hj⟩

theorem Grows.trans (h : P.Grows P') (h' : P'.Grows P'') : P.Grows P'' :=
  Extends.trans h (Extends.of_le h' h.temps_right)

theorem Extends.same {α : Type} {rename : Renaming → α → α} {m : Nat} {x y : α} (h : P.Extends m P')
    (hxy : P.Same rename x y) :
    P'.Same rename x y :=
  fun ρ ρ' hjoins => hxy ρ ρ' ⟨hjoins.names, fun hij => hjoins.temp (h.keeps hij)⟩

theorem Extends.sameCode {m : Nat} {c d : Code} (h : P.Extends m P') (hc : P.SameCode c d) :
    P'.SameCode c d := h.same hc

theorem Extends.sameDst {m : Nat} {dst dst' : Option Reg} (h : P.Extends m P')
    (hdst : Option.Rel (P.Same Reg.rename) dst dst') :
    Option.Rel (P'.Same Reg.rename) dst dst' := by
  cases hdst with
  | some hd => exact .some (h.same hd)
  | none => exact .none

end

section
variable {P : Pairing s t}

theorem same_reg {r r' : Reg} (h : P.Same Reg.rename r r') :
    P.Same Operand.rename (.reg r) (.reg r') :=
  fun ρ ρ' hjoins => congrArg Operand.reg (h ρ ρ' hjoins)

theorem same_named {a : Operand} (ha : ∀ r, a = .reg r → r.temp = false) :
    P.Same Operand.rename a a := by
  intro ρ ρ' hjoins
  have hlabel := congrArg Renaming.label hjoins.names
  have hname := congrArg Renaming.name hjoins.names
  change ρ.label = ρ'.label at hlabel
  change ρ.name = ρ'.name at hname
  cases a with
  | reg r => simp [Operand.rename, Reg.rename, ha r rfl, hname]
  | label l => simp [Operand.rename, hlabel]
  | callee l w => simp [Operand.rename, hlabel]
  | num | data | origin | nothing => rfl

theorem same_label (l : Label) : P.Same Operand.rename (.label l) (.label l) := same_named nofun

theorem same_result {dst dst' : Option Reg} (hdst : Option.Rel (P.Same Reg.rename) dst dst') :
    P.Same Operand.rename (resultOf dst) (resultOf dst') := by
  cases hdst with
  | some hd => exact same_reg hd
  | none => exact fun _ _ _ => rfl

theorem same_args {as bs : List Operand} (h : List.Forall₂ (P.Same Operand.rename) as bs)
    (op : Opcode) :
    P.Same Instr.rename (.make op as) (.make op bs) := by
  intro ρ ρ' hjoins
  have hmap : as.map (some ∘ Operand.rename ρ) = bs.map (some ∘ Operand.rename ρ') := by
    induction h with
    | nil => rfl
    | cons hab _ ih =>
      rw [List.map_cons, List.map_cons, ih, Function.comp_apply, hab ρ ρ' hjoins,
        Function.comp_apply]
  simpa [Instr.rename, Instr.make, Function.comp_def] using hmap

namespace SameCode
variable {c c' d d' : Code}

theorem nil : P.SameCode [] [] := fun _ _ _ => rfl

theorem append (hc : P.SameCode c c') (hd : P.SameCode d d') : P.SameCode (c ++ d) (c' ++ d') := by
  intro ρ ρ' hjoins
  have hdrop (c d : Code) : (Code.dropNops (c ++ d)).code = c.dropNops.code ++ d.dropNops.code :=
    List.filter_append ..
  rw [hdrop, hdrop, Code.rename, List.map_append, Code.rename, List.map_append]
  exact congrArg₂ (· ++ ·) (hc ρ ρ' hjoins) (hd ρ ρ' hjoins)

theorem mark (hc : P.SameCode c c') (k k' : NodeKind) :
    P.SameCode (.mark k :: c) (.mark k' :: c') := hc

theorem make (hc : P.SameCode c c') (op : Opcode) (hop : op ≠ .nop) {as bs : List Operand}
    (h : List.Forall₂ (P.Same Operand.rename) as bs) :
    P.SameCode (.make op as :: c) (.make op bs :: c') := by
  intro ρ ρ' hjoins
  have hdrop (as : List Operand) (c : Code) :
      (Code.dropNops (.make op as :: c)).code = .make op as :: c.dropNops.code :=
    List.filter_cons_of_pos (p := fun x : Instr => x.op ≠ .nop) (decide_eq_true hop)
  rw [hdrop, hdrop, Code.rename_cons, Code.rename_cons]
  exact congrArg₂ List.cons (same_args h op ρ ρ' hjoins) (hc ρ ρ' hjoins)

theorem defineLabel (hc : P.SameCode c c') (l : Label) :
    P.SameCode (.defineLabel l :: c) (.defineLabel l :: c') :=
  hc.make _ Opcode.noConfusion (.cons (same_label l) .nil)

theorem jump (hc : P.SameCode c c') (l : Label) : P.SameCode (.jump l :: c) (.jump l :: c') :=
  hc.make _ Opcode.noConfusion (.cons (same_label l) .nil)

theorem into (hc : P.SameCode c c') (op : Opcode) (hop : op ≠ .nop) {r r' : Reg} {v v' : Operand}
    (hr : P.Same Reg.rename r r') (hv : P.Same Operand.rename v v') :
    P.SameCode (.make op [.reg r, v] :: c) (.make op [.reg r', v'] :: c') :=
  hc.make op hop (.cons (same_reg hr) (.cons hv .nil))

theorem put (hc : P.SameCode c c') {r r' : Reg} (hr : P.Same Reg.rename r r')
    (n : Int) (w : Width) :
    P.SameCode (.make .mov [.reg r, .num n w] :: c) (.make .mov [.reg r', .num n w] :: c') :=
  hc.into .mov Opcode.noConfusion hr fun _ _ _ => rfl

theorem bin (hc : P.SameCode c c') (o : BinOp) {r r' : Reg} {u u' v v' : Operand}
    (hr : P.Same Reg.rename r r') (hu : P.Same Operand.rename u u')
    (hv : P.Same Operand.rename v v') :
    P.SameCode (.make (.bin o) [.reg r, u, v] :: c) (.make (.bin o) [.reg r', u', v'] :: c') :=
  hc.make (.bin o) Opcode.noConfusion (.cons (same_reg hr) (.cons hu (.cons hv .nil)))

theorem branch {op : Opcode} (hc : P.SameCode c c') (hop : op ≠ .nop) (l : Label) {v v' : Operand}
    (hv : P.Same Operand.rename v v') :
    P.SameCode (.make op [.label l, v] :: c) (.make op [.label l, v'] :: c') :=
  hc.make op hop (.cons (same_label l) (.cons hv .nil))

theorem given {dst dst' : Option Reg} {v v' : Operand}
    (hdst : Option.Rel (P.Same Reg.rename) dst dst') (hv : P.Same Operand.rename v v') :
    P.SameCode (given dst v) (given dst' v') := by
  cases hdst with
  | some hd => exact nil.into .mov Opcode.noConfusion hd hv
  | none => exact nil

theorem call {dst dst' : Option Reg} {rs rs' : List Reg}
    (hdst : Option.Rel (P.Same Reg.rename) dst dst') (l : Label) (w : Width)
    (hrs : List.Forall₂ (P.Same Reg.rename) rs rs') :
    P.SameCode [.make .call (resultOf dst :: .callee l w :: rs.map .reg)]
        [.make .call (resultOf dst' :: .callee l w :: rs'.map .reg)] := by
  have hregs : List.Forall₂ (P.Same Operand.rename) (rs.map .reg) (rs'.map .reg) := by
    rw [List.forall₂_map_left_iff, List.forall₂_map_right_iff]
    exact hrs.imp fun _ _ => same_reg
  exact nil.make .call Opcode.noConfusion
    (.cons (same_result hdst) (.cons (same_named nofun) hregs))

end SameCode

end

end Pairing

/-- The action has nothing to do with temporaries. -/
def LowerM.IgnoresTemps {α : Type} (act : LowerM α) : Prop := ∀ s a s', act s = .ok a s' →
  s.Grows s' ∧ s'.nextTemp = s.nextTemp ∧
    ∀ k, act { s with nextTemp := k } = .ok a { s' with nextTemp := k }

theorem ignoresTemps_newLabel (base : String) : (newLabel base).IgnoresTemps := by
  intro s l s' h
  have hgrows := newLabel_grows h
  cases h
  exact ⟨hgrows, rfl, fun _ => rfl⟩

theorem ignoresTemps_calleeOf (f : FuncRef) : (calleeOf f).IgnoresTemps := by
  intro s v s' h
  obtain ⟨_, _, _, hgrows, htemps⟩ := calleeOf_eq_ok h
  cases h
  exact ⟨hgrows, htemps, fun _ => rfl⟩

theorem ignoresTemps_regOf (v : Var) : (regOf v).IgnoresTemps := by
  intro s r s' h
  obtain ⟨_, hgrows, htemps⟩ := regOf_eq_ok h
  refine ⟨hgrows, htemps, fun k => ?_⟩
  unfold regOf at h ⊢
  cases hv : s.vars.lookup v.id with
  | some r' =>
    rw [hv] at h
    cases h
    rfl
  | none =>
    rw [hv] at h
    cases h
    rfl

theorem ignoresTemps_of_atom? {e : Expr} {act : LowerM Operand} (he : e.atom? = some act) :
    act.IgnoresTemps := by
  intro s v s' h
  obtain ⟨_, hgrows, htemps⟩ := reads_of_atom? he h
  refine ⟨hgrows, htemps, fun k => ?_⟩
  cases e with
  | num n w =>
    cases he
    cases h
    rfl
  | var x =>
    cases he
    obtain ⟨r, hr, rfl⟩ := map_eq_ok_iff.mp h
    exact map_eq_ok_iff.mpr ⟨r, ((ignoresTemps_regOf x) s r s' hr).2.2 k, rfl⟩
  | str b =>
    cases he
    cases h
    rfl
  | funcRef f =>
    cases he
    cases h
    rfl
  | _ => cases he

namespace Pairing
variable {s s' t t' : Frame}

theorem exists_act {α : Type} (P : Pairing s t) {act : LowerM α} (hact : act.IgnoresTemps)
    {a a' : α} (h : act s = .ok a s') (h' : act t = .ok a' t') :
    a' = a ∧ ∃ P' : Pairing s' t', P.Grows P' := by
  obtain ⟨hgrows, htemps, hsame⟩ := hact s a s' h
  obtain ⟨_, htemps', _⟩ := hact t a' t' h'
  have hframe : t = { s with nextTemp := t.nextTemp } := by rw [← P.session, ← P.vars]
  rw [hframe, hsame] at h'
  cases h'
  exact ⟨rfl, ⟨P.links, rfl, rfl, hgrows.numbered P.numbered, fun hij => htemps ▸ P.bound hij,
      P.left_unique, P.right_unique⟩, Nat.le_of_eq htemps.symm, Nat.le_refl _, id, .inl⟩

/-- The right side may take temporaries that are not linked. -/
def ahead (P : Pairing s t) (n : Nat) : Pairing s { t with nextTemp := t.nextTemp + n } where
  links := P.links
  session := P.session
  vars := P.vars
  numbered := P.numbered
  bound hij := ⟨(P.bound hij).1, by have := (P.bound hij).2; simp only; omega⟩
  left_unique := P.left_unique
  right_unique := P.right_unique

/-- The next temporary of the left side is linked to one that the right side has taken before. -/
def link (P : Pairing s t) {j : Nat} (hj : j < t.nextTemp) (hfree : ∀ i, ¬ P.links i j) :
    Pairing { s with nextTemp := s.nextTemp + 1 } t where
  links i k := P.links i k ∨ i = s.nextTemp ∧ k = j
  session := P.session
  vars := P.vars
  numbered := P.numbered
  bound := by
    intro i k hik
    rcases hik with hik | ⟨rfl, rfl⟩
    · have hbound := P.bound hik
      simp only
      omega
    · simp only
      omega
  left_unique := by
    intro i i' k hik hik'
    rcases hik with hik | ⟨rfl, rfl⟩ <;> rcases hik' with hik' | ⟨rfl, hk⟩
    · exact P.left_unique hik hik'
    · exact absurd (hk ▸ hik) (hfree i)
    · exact absurd hik' (hfree i')
    · rfl
  right_unique := by
    intro i k k' hik hik'
    rcases hik with hik | ⟨hi, rfl⟩ <;> rcases hik' with hik' | ⟨hi', rfl⟩
    · exact P.right_unique hik hik'
    · have hbound := P.bound hik
      omega
    · have hbound := P.bound hik'
      omega
    · rfl

theorem extends_link (P : Pairing s t) {j : Nat} (hj : j < t.nextTemp)
    (hfree : ∀ i, ¬ P.links i j) :
    P.Extends j (P.link hj hfree) where
  temps_left := Nat.le_succ _
  temps_right := Nat.le_refl _
  keeps := .inl
  fresh := by
    intro i k hik
    rcases hik with hik | ⟨rfl, rfl⟩
    · exact .inl hik
    · exact .inr ⟨Int.le_refl _, Int.le_refl _⟩

theorem grows_ahead (P : Pairing s t) (n : Nat) : P.Grows (P.ahead n) :=
  ⟨Nat.le_refl _, Nat.le_add_right _ _, id, .inl⟩

theorem same_temp {P : Pairing s t} {i j : Int} (hij : P.links i j) (w : Width) :
    P.Same Reg.rename ⟨i, w, true, ""⟩ ⟨j, w, true, ""⟩ := by
  intro ρ ρ' hjoins
  simp [Reg.rename, hjoins.temp hij]

theorem same_link (P : Pairing s t) {j : Nat} (hj : j < t.nextTemp)
    (hfree : ∀ i, ¬ P.links i j) (w : Width) :
    (P.link hj hfree).Same Reg.rename ⟨s.nextTemp, w, true, ""⟩ ⟨j, w, true, ""⟩ := by
  have hlink : (P.link hj hfree).links s.nextTemp j := .inr ⟨rfl, rfl⟩
  exact same_temp hlink w

theorem exists_newTemp (P : Pairing s t) {w : Width} {r r' : Reg} (h : newTemp w s = .ok r s')
    (h' : newTemp w t = .ok r' t') :
    ∃ P' : Pairing s' t', P.Grows P' ∧ P'.Same Reg.rename r r' := by
  obtain ⟨rfl, rfl⟩ := newTemp_eq_ok h
  obtain ⟨rfl, rfl⟩ := newTemp_eq_ok h'
  have hfree : ∀ i, ¬ (P.ahead 1).links i t.nextTemp := by
    intro i hi
    have hbound := (P.bound hi).2
    omega
  have hlinked := (P.ahead 1).extends_link (Nat.lt_succ_self _) hfree
  exact ⟨_, Extends.trans (P.grows_ahead 1) hlinked,
    (P.ahead 1).same_link (Nat.lt_succ_self _) hfree w⟩

theorem exists_orTemp (P : Pairing s t) {dst dst' : Option Reg}
    (hdst : Option.Rel (P.Same Reg.rename) dst dst') {w : Width} {d d' : Reg}
    (h : orTemp dst w s = .ok d s') (h' : orTemp dst' w t = .ok d' t') :
    ∃ P' : Pairing s' t', P.Grows P' ∧ P'.Same Reg.rename d d' := by
  cases hdst with
  | some hd =>
    cases h
    cases h'
    exact ⟨P, .refl P, hd⟩
  | none => exact P.exists_newTemp h h'

theorem exists_newLabel (P : Pairing s t) {base : String} {l l' : Label}
    (h : newLabel base s = .ok l s') (h' : newLabel base t = .ok l' t') :
    l' = l ∧ ∃ P' : Pairing s' t', P.Grows P' :=
  P.exists_act (ignoresTemps_newLabel base) h h'

theorem exists_regOf (P : Pairing s t) {v : Var} {r r' : Reg} (h : regOf v s = .ok r s')
    (h' : regOf v t = .ok r' t') :
    r' = r ∧ ∃ P' : Pairing s' t', P.Grows P' ∧ P'.Same Reg.rename r r := by
  obtain ⟨rfl, P', hgrows⟩ := P.exists_act (ignoresTemps_regOf v) h h'
  have hnamed := P'.numbered.named (regOf_eq_ok h).1
  refine ⟨rfl, P', hgrows, fun ρ ρ' hjoins => ?_⟩
  have hsame := P'.same_named (a := .reg r') (fun r hr => Operand.reg.inj hr ▸ hnamed) ρ ρ' hjoins
  exact Operand.reg.inj hsame

theorem exists_atom (P : Pairing s t) {e : Expr} {act : LowerM Operand} (he : e.atom? = some act)
    {v v' : Operand} (h : act s = .ok v s') (h' : act t = .ok v' t') :
    v' = v ∧ ∃ P' : Pairing s' t', P.Grows P' ∧ P'.Same Operand.rename v v := by
  obtain ⟨rfl, P', hgrows⟩ := P.exists_act (ignoresTemps_of_atom? he) h h'
  refine ⟨rfl, P', hgrows, P'.same_named fun r hr => ?_⟩
  obtain ⟨hreads, _⟩ := reads_of_atom? he h
  subst hr
  cases hreads with
  | var hr => exact P'.numbered.named hr

end Pairing

end ThreeAddress
