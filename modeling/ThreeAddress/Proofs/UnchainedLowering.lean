import ThreeAddress.Proofs.Unchaining

/-!
# Lowering without chains

A tree is lowered to the same code with chains and without, up to marks and the numbers of
temporaries (`Lowers.mirrors`, `LowersBody.mirrors`). The numbers do differ. A chain takes the
temporary of a sum after those that the operands of the sum need, and an operation that is itself an
operand has got its temporary before. So when the operations around the first operand are lowered,
their temporaries are all there and wait to be linked, and this is done one by one as the chain gets
to its terms.
-/

namespace ThreeAddress
set_option autoImplicit false

open LowerM

namespace Part

/-- Whatever code the part has without chains, it is the same as `c`. The terms of a chain are
compared with operations around an operand `E` that stands for what comes before them; the `n`
temporaries that these operations have taken by then are not linked. A guard is lowered before the
label that it goes to is made, so that the labels are compared afterwards. -/
def Mirrored (s : Frame) (c : Code) (s' : Frame) : Part → Prop
  | value e dst => ∀ {t : Frame} (P : Pairing s t) {dst' : Option Reg} {c' : Code} {t' : Frame},
      Option.Rel (P.Same Reg.rename) dst dst' → Lowers (.value e.unchained dst') t c' t' →
      ∃ P' : Pairing s' t', P.Grows P' ∧ P'.SameCode c c'
  | fresh e w r => ∀ {t : Frame} (P : Pairing s t) {r' : Reg} {c' : Code} {t' : Frame},
      Lowers (.fresh e.unchained w r') t c' t' →
      ∃ P' : Pairing s' t', P.Grows P' ∧ P'.Same Reg.rename r r' ∧ P'.SameCode c c'
  | operand e v => ∀ {t : Frame} (P : Pairing s t) {v' : Operand} {c' : Code} {t' : Frame},
      Lowers (.operand e.unchained v') t c' t' →
      ∃ P' : Pairing s' t', P.Grows P' ∧ P'.Same Operand.rename v v' ∧ P'.SameCode c c'
  | terms w dst acc list =>
    ∀ {E : Expr} {dst' : Option Reg} {t : Frame} {c' : Code} {t' : Frame},
      Lowers (.value (.leftNested w E (Expr.unchainedTerms list)) dst') t c' t' →
      ∃ n v cE t₁, Lowers (.operand E v) { t with nextTemp := t.nextTemp + n } cE t₁ ∧
      ∀ P : Pairing s t₁, P.Same Operand.rename acc v → Option.Rel (P.Same Reg.rename) dst dst' →
      (∀ {i j}, P.links i j → j < t.nextTemp ∨ t.nextTemp + n ≤ j) → ∃ P' : Pairing s' t',
      P.Extends t.nextTemp P' ∧ ∃ d, c'.dropNops.code = (cE ++ d).dropNops.code ∧ P'.SameCode c d
  | tests branch target list =>
    ∀ {t : Frame} (P : Pairing s t) {c' : Code} {t' : Frame}, branch ≠ .nop →
      Lowers (.tests branch target (Expr.unchainedList list)) t c' t' →
      ∃ P' : Pairing s' t', P.Grows P' ∧ P'.SameCode c c'
  | guard e target => ∀ {t : Frame} (P : Pairing s t) {target' : Label} {c' : Code} {t' : Frame},
      Lowers (.guard e.unchained target') t c' t' →
      ∃ P' : Pairing s' t', P.Grows P' ∧ (target' = target → P'.SameCode c c')
  | args list ws rs => ∀ {t : Frame} (P : Pairing s t) {rs' : List Reg} {c' : Code} {t' : Frame},
      Lowers (.args (Expr.unchainedList list) ws rs') t c' t' →
      ∃ P' : Pairing s' t', P.Grows P' ∧ List.Forall₂ (P'.Same Reg.rename) rs rs' ∧ P'.SameCode c c'

end Part

theorem Lowers.value_of_atom? {e : Expr} {act : LowerM Operand} {dst : Option Reg} {s s' : Frame}
    {c : Code} (he : e.atom? = some act) (h : Lowers (.value e dst) s c s') :
    ∃ v k, act s = .ok v s' ∧ c = .mark k :: given dst v := by
  cases h with
  | atom he' hv =>
    cases he.symm.trans he'
    exact ⟨_, _, hv, rfl⟩
  | _ => cases he

section
variable {s s₁ s₂ s' : Frame}

theorem mirrored_termsLast {op : Bytes} {o : BinOp} {x : Expr} {w : Width} {dst : Option Reg}
    {acc vx : Operand} {d : Reg} {cx : Code} (ho : BinOp.ofChainSymbol? op = some o)
    (hd : orTemp dst w s₁ = .ok d s') (hx : (Part.operand x vx).Mirrored s cx s₁) :
    (Part.terms w dst acc [(op, x)]).Mirrored s (cx ++ [.make (.bin o) [.reg d, acc, vx]]) s' := by
  intro E dst' t c' t' h
  rw [Expr.unchainedTerms, Expr.unchainedTerms, Expr.leftNested_cons] at h
  change Lowers (.value (.binary op E x.unchained w) dst') t c' t' at h
  cases h with
  | atom he => cases he
  | binary ho' hE hx' hd' =>
    cases (BinOp.ofSymbol?_of_chain ho).symm.trans ho'
    refine ⟨0, _, _, _, hE, fun P hacc hdst _ => ?_⟩
    obtain ⟨P₁, h₁, hvx, hcx⟩ := hx P hx'
    obtain ⟨P₂, h₂, hd⟩ := P₁.exists_orTemp (h₁.sameDst hdst) hd hd'
    have hsum := Pairing.SameCode.nil.bin o hd (h₂.same (h₁.same hacc)) (h₂.same hvx)
    exact ⟨P₂, (h₁.trans h₂).of_le hE.grows.temps, _, rfl, (h₂.sameCode hcx).append hsum⟩

theorem mirrored_termsMore {op : Bytes} {o : BinOp} {x : Expr} {rest : List (Bytes × Expr)}
    {w : Width} {dst : Option Reg} {acc vx : Operand} {r : Reg} {cx ct : Code}
    (ho : BinOp.ofChainSymbol? op = some o) (hr : newTemp w s₁ = .ok r s₂)
    (hx : (Part.operand x vx).Mirrored s cx s₁)
    (hrest : (Part.terms w dst (.reg r) rest).Mirrored s₂ ct s') :
    (Part.terms w dst acc ((op, x) :: rest)).Mirrored s
      (cx ++ .make (.bin o) [.reg r, acc, vx] :: ct) s' := by
  intro E dst' t c' t' h
  rw [Expr.unchainedTerms, Expr.leftNested_cons] at h
  obtain ⟨n, v, cE', t₁, hE', hafter⟩ := hrest h
  cases hE' with
  | operandAtom he => cases he
  | operand _ hfresh =>
  cases hfresh with
  | fresh hr' hsum =>
  obtain ⟨rfl, rfl⟩ := newTemp_eq_ok hr'
  obtain ⟨rfl, rfl⟩ := newTemp_eq_ok hr
  cases hsum with
  | atom he => cases he
  | binary ho' hE hx' hd' =>
  cases (BinOp.ofSymbol?_of_chain ho).symm.trans ho'
  cases hd'
  refine ⟨n + 1, _, _, _, hE, fun P hacc hdst hfree => ?_⟩
  obtain ⟨P₁, h₁, hvx, hcx⟩ := hx P hx'
  have hle := hE.grows.temps
  have hle' := hx'.grows.temps
  simp only at hle
  have hfree₁ : ∀ i, ¬ P₁.links i (t.nextTemp + n : Nat) := by
    intro i hi
    rcases h₁.fresh hi with hi | ⟨_, hj⟩
    · have := hfree hi
      omega
    · omega
  have hlt : t.nextTemp + n < t₁.nextTemp := by omega
  have h₂ := P₁.extends_link hlt hfree₁
  have hsum := P₁.same_link hlt hfree₁ w
  obtain ⟨P₃, h₃, d, hc', hd⟩ :=
    hafter (P₁.link hlt hfree₁) (Pairing.same_reg hsum) (h₂.sameDst (h₁.sameDst hdst)) (by
    intro i j hij
    rcases hij with hij | ⟨_, rfl⟩
    · rcases h₁.fresh hij with hij | ⟨_, hj⟩
      · have := hfree hij
        omega
      · exact .inr (by omega)
    · exact .inr (by omega))
  refine ⟨P₃, ((h₁.of_le (by omega)).trans (h₂.of_le (by omega))).trans h₃, _, ?_,
    (h₃.sameCode (h₂.sameCode hcx)).append
    (hd.bin o (h₃.same hsum) (h₃.same (h₂.same (h₁.same hacc))) (h₃.same (h₂.same hvx)))⟩
  rw [hc', List.cons_append, List.append_assoc, List.append_assoc]
  rfl

theorem mirrored_chain {first : Expr} {u : Bytes × Expr} {rest : List (Bytes × Expr)} {w : Width}
    {dst : Option Reg} {acc : Operand} {cx ct : Code}
    (hfirst : (Part.operand first acc).Mirrored s cx s₁)
    (hterms : (Part.terms w dst acc (u :: rest)).Mirrored s₁ ct s') :
    (Part.value (.chain first (u :: rest) w) dst).Mirrored s (.mark .chain :: (cx ++ ct)) s' := by
  intro t P dst' c' t' hdst h
  rw [Expr.unchained] at h
  obtain ⟨n, v, cE, t₁, hE, hafter⟩ := hterms h
  obtain ⟨P₁, h₁, hacc, hcx⟩ := hfirst (P.ahead n) hE
  have hfree : ∀ {i j}, P₁.links i j → j < t.nextTemp ∨ t.nextTemp + n ≤ j := by
    intro i j hij
    rcases h₁.fresh hij with hij | ⟨_, hj⟩
    · exact .inl (P.bound hij).2
    · exact .inr hj
  have h₀₁ : P.Grows P₁ := (P.grows_ahead n).trans h₁
  obtain ⟨P₂, h₂, d, hc', hd⟩ := hafter P₁ hacc (h₀₁.sameDst hdst) hfree
  refine ⟨P₂, Pairing.Extends.trans h₀₁ h₂, ?_⟩
  have hsame : P₂.SameCode (cx ++ ct) (cE ++ d) := (h₂.sameCode hcx).append hd
  unfold Pairing.SameCode at hsame ⊢
  rw [hc']
  exact hsame

end

/-- Without chains a part is lowered to the same code, up to temporaries. -/
theorem Lowers.mirrors {p : Part} {s s' : Frame} {c : Code} (h : Lowers p s c s') :
    p.Mirrored s c s' := by
  induction h with
  | @atom e _ k _ _ _ _ he hv =>
    intro t P dst' c' t' hdst h'
    rw [Expr.unchained_of_atom? he] at h'
    obtain ⟨v', k', hv', rfl⟩ := h'.value_of_atom? he
    obtain ⟨rfl, P₁, h₁, hsame⟩ := P.exists_atom he hv hv'
    exact ⟨P₁, h₁, (Pairing.SameCode.given (h₁.sameDst hdst) hsame).mark k k'⟩
  | @unary _ o _ _ _ _ _ _ _ _ _ ho _ hd ihx =>
    intro t P dst' c' t' hdst h'
    rw [Expr.unchained] at h'
    cases h' with
    | atom he => cases he
    | unary ho' hx' hd' =>
      cases ho.symm.trans ho'
      obtain ⟨P₁, h₁, hvx, hcx⟩ := ihx P hx'
      obtain ⟨P₂, h₂, hd⟩ := P₁.exists_orTemp (h₁.sameDst hdst) hd hd'
      have hlast := Pairing.SameCode.nil.into (.un o) Opcode.noConfusion hd (h₂.same hvx)
      exact ⟨P₂, h₁.trans h₂, ((h₂.sameCode hcx).append hlast).mark _ _⟩
  | @binary _ o _ _ _ _ _ _ _ _ _ _ _ _ _ ho _ _ hd ihx ihy =>
    intro t P dst' c' t' hdst h'
    rw [Expr.unchained] at h'
    cases h' with
    | atom he => cases he
    | binary ho' hx' hy' hd' =>
      cases ho.symm.trans ho'
      obtain ⟨P₁, h₁, hvx, hcx⟩ := ihx P hx'
      obtain ⟨P₂, h₂, hvy, hcy⟩ := ihy P₁ hy'
      obtain ⟨P₃, h₃, hd⟩ := P₂.exists_orTemp ((h₁.trans h₂).sameDst hdst) hd hd'
      have h₂₃ := h₂.trans h₃
      have hlast := Pairing.SameCode.nil.bin o hd (h₂₃.same hvx) (h₃.same hvy)
      exact ⟨P₃, h₁.trans h₂₃,
        ((h₂₃.sameCode hcx).append ((h₃.sameCode hcy).append hlast)).mark _ _⟩
  | chainOne _ ih =>
    intro t P dst' c' t' hdst h'
    rw [Expr.unchained] at h'
    cases h' with
    | atom he => cases he
    | chain hne => exact absurd rfl hne
    | chainOne hx' =>
      obtain ⟨P₁, h₁, hc⟩ := ih P hdst hx'
      exact ⟨P₁, h₁, hc.mark _ _⟩
  | chain hne _ _ ihx iht =>
    obtain ⟨u, rest, rfl⟩ := List.exists_cons_of_ne_nil hne
    exact mirrored_chain ihx iht
  | all ho hd hfin _ iht =>
    intro t P dst' c' t' hdst h'
    rw [Expr.unchained] at h'
    cases h' with
    | atom he => cases he
    | any ho' => cases ho.symm.trans ho'
    | all ho' hd' hfin' ht' =>
      obtain ⟨P₁, h₁, hd⟩ := P.exists_orTemp hdst hd hd'
      obtain ⟨rfl, P₂, h₂⟩ := P₁.exists_newLabel hfin hfin'
      obtain ⟨P₃, h₃, ht⟩ := iht P₂ Opcode.noConfusion ht'
      have h₂₃ := h₂.trans h₃
      have hd := h₂₃.same hd
      exact ⟨P₃, h₁.trans h₂₃,
        ((ht.append (.put (.defineLabel .nil _) hd _ _)).put hd _ _).mark _ _⟩
  | any ho hd hfound hfin _ iht =>
    intro t P dst' c' t' hdst h'
    rw [Expr.unchained] at h'
    cases h' with
    | atom he => cases he
    | all ho' => cases ho.symm.trans ho'
    | any ho' hd' hfound' hfin' ht' =>
      obtain ⟨P₁, h₁, hd⟩ := P.exists_orTemp hdst hd hd'
      obtain ⟨rfl, P₂, h₂⟩ := P₁.exists_newLabel hfound hfound'
      obtain ⟨rfl, P₃, h₃⟩ := P₂.exists_newLabel hfin hfin'
      obtain ⟨P₄, h₄, ht⟩ := iht P₃ Opcode.noConfusion ht'
      have h₂₄ := h₂.trans (h₃.trans h₄)
      have hd := h₂₄.same hd
      exact ⟨P₄, h₁.trans h₂₄, ((ht.append
            (.put (.jump (.defineLabel (.defineLabel .nil _) _) _) hd _ _)).put hd _ _).mark _ _⟩
  | cond _ hother hfin _ _ ihc iha ihb =>
    intro t P dst' c' t' hdst h'
    rw [Expr.unchained] at h'
    cases h' with
    | atom he => cases he
    | cond hc' hother' hfin' ha' hb' =>
      obtain ⟨P₁, h₁, hc⟩ := ihc P hc'
      obtain ⟨rfl, P₂, h₂⟩ := P₁.exists_newLabel hother hother'
      obtain ⟨rfl, P₃, h₃⟩ := P₂.exists_newLabel hfin hfin'
      have h₁₃ := h₁.trans (h₂.trans h₃)
      obtain ⟨P₄, h₄, ha⟩ := iha P₃ (h₁₃.sameDst hdst) ha'
      obtain ⟨P₅, h₅, hb⟩ := ihb P₄ ((h₁₃.trans h₄).sameDst hdst) hb'
      have h₂₅ := h₂.trans (h₃.trans (h₄.trans h₅))
      exact ⟨P₅, h₁.trans h₂₅, ((h₂₅.sameCode (hc rfl)).append ((h₅.sameCode ha).append
        (((hb.append (.defineLabel .nil _)).defineLabel _).jump _))).mark _ _⟩
  | call hcallee _ iha =>
    intro t P dst' c' t' hdst h'
    rw [Expr.unchained] at h'
    cases h' with
    | atom he => cases he
    | call hcallee' ha' =>
      obtain ⟨l, rfl, _⟩ := calleeOf_eq_ok hcallee
      obtain ⟨rfl, P₁, h₁⟩ := P.exists_act (ignoresTemps_calleeOf _) hcallee hcallee'
      obtain ⟨P₂, h₂, hrs, ha⟩ := iha P₁ ha'
      exact ⟨P₂, h₁.trans h₂, (ha.append (.call ((h₁.trans h₂).sameDst hdst) l _ hrs)).mark _ _⟩
  | assignAtom he hr hv =>
    intro t P dst' c' t' hdst h'
    rw [Expr.unchained] at h'
    cases h' with
    | atom he' => cases he'
    | assign hnone =>
      rw [Expr.atom?_unchained, he] at hnone
      cases hnone
    | assignAtom he' hr' hv' =>
      rw [Expr.atom?_unchained] at he'
      cases he.symm.trans he'
      obtain ⟨rfl, P₁, h₁, hr⟩ := P.exists_regOf hr hr'
      obtain ⟨rfl, P₂, h₂, hv⟩ := P₁.exists_atom he hv hv'
      have hr := h₂.same hr
      have hlast := Pairing.SameCode.given ((h₁.trans h₂).sameDst hdst) (Pairing.same_reg hr)
      exact ⟨P₂, h₁.trans h₂, (hlast.into .mov Opcode.noConfusion hr hv).mark _ _⟩
  | assign hnone hr _ ihx =>
    intro t P dst' c' t' hdst h'
    rw [Expr.unchained] at h'
    cases h' with
    | atom he' => cases he'
    | assignAtom he' =>
      rw [Expr.atom?_unchained, hnone] at he'
      cases he'
    | assign _ hr' hx' =>
      obtain ⟨rfl, P₁, h₁, hr⟩ := P.exists_regOf hr hr'
      obtain ⟨P₂, h₂, ht, hx⟩ := ihx P₁ hx'
      have hr := h₂.same hr
      have hlast := Pairing.SameCode.given ((h₁.trans h₂).sameDst hdst) (Pairing.same_reg hr)
      exact ⟨P₂, h₁.trans h₂,
        (hx.append (hlast.into .mov Opcode.noConfusion hr (Pairing.same_reg ht))).mark _ _⟩
  | load _ hd iha =>
    intro t P dst' c' t' hdst h'
    rw [Expr.unchained] at h'
    cases h' with
    | atom he => cases he
    | load ha' hd' =>
      obtain ⟨P₁, h₁, hva, hca⟩ := iha P ha'
      obtain ⟨P₂, h₂, hd⟩ := P₁.exists_orTemp (h₁.sameDst hdst) hd hd'
      have hlast := Pairing.SameCode.nil.into .read Opcode.noConfusion hd (h₂.same hva)
      exact ⟨P₂, h₁.trans h₂, ((h₂.sameCode hca).append hlast).mark _ _⟩
  | fresh hr _ ih =>
    intro t P r' c' t' h'
    cases h' with
    | fresh hr' h' =>
      obtain ⟨P₁, h₁, hr⟩ := P.exists_newTemp hr hr'
      obtain ⟨P₂, h₂, hc⟩ := ih P₁ (.some hr) h'
      exact ⟨P₂, h₁.trans h₂, h₂.same hr, hc⟩
  | @operandAtom e _ _ _ _ he hv =>
    intro t P v' c' t' h'
    cases h' with
    | operand hnone =>
      rw [Expr.atom?_unchained, he] at hnone
      cases hnone
    | operandAtom he' hv' =>
      rw [Expr.atom?_unchained] at he'
      cases he.symm.trans he'
      obtain ⟨rfl, P₁, h₁, hsame⟩ := P.exists_atom he hv hv'
      exact ⟨P₁, h₁, hsame, .nil⟩
  | @operand e _ _ _ _ hnone _ ih =>
    intro t P v' c' t' h'
    cases h' with
    | operandAtom he' =>
      rw [Expr.atom?_unchained, hnone] at he'
      cases he'
    | operand _ h' =>
      rw [Expr.width_unchained] at h'
      obtain ⟨P₁, h₁, hr, hc⟩ := ih P h'
      exact ⟨P₁, h₁, Pairing.same_reg hr, hc⟩
  | termsLast ho _ hd ihx => exact mirrored_termsLast ho hd ihx
  | termsMore ho _ _ hr _ ihx ihrest => exact mirrored_termsMore ho hr ihx ihrest
  | testsNil =>
    intro t P c' t' _ h'
    rw [Expr.unchainedList] at h'
    cases h' with
    | testsNil => exact ⟨P, .refl P, .nil⟩
  | testsCons _ _ ihx iht =>
    intro t P c' t' hop h'
    rw [Expr.unchainedList] at h'
    cases h' with
    | testsCons hx' ht' =>
      obtain ⟨P₁, h₁, hvx, hcx⟩ := ihx P hx'
      obtain ⟨P₂, h₂, ht⟩ := iht P₁ hop ht'
      exact ⟨P₂, h₁.trans h₂, (h₂.sameCode hcx).append (ht.branch hop _ (h₂.same hvx))⟩
  | guardHole =>
    intro t P target' c' t' h'
    rw [Expr.unchained_hole] at h'
    cases h' with
    | guardHole => exact ⟨P, .refl P, fun _ => .nil⟩
    | guard hhole => cases hhole
  | @guard e _ _ _ _ _ hhole _ ih =>
    intro t P target' c' t' h'
    rw [← Expr.isHole_unchained] at hhole
    generalize hu : e.unchained = e' at h' hhole
    cases h' with
    | guardHole => cases hhole
    | guard _ h' =>
      rw [← hu, Expr.width_unchained] at h'
      obtain ⟨P₁, h₁, hr, hc⟩ := ih P h'
      refine ⟨P₁, h₁, fun htarget => ?_⟩
      rw [htarget]
      exact hc.append (.branch .nil Opcode.noConfusion _ (Pairing.same_reg hr))
  | argsNil =>
    intro t P rs' c' t' h'
    rw [Expr.unchainedList] at h'
    cases h' with
    | argsNil => exact ⟨P, .refl P, .nil, .nil⟩
  | argsCons _ _ ihx ihrest =>
    intro t P rs' c' t' h'
    rw [Expr.unchainedList] at h'
    cases h' with
    | argsCons hx' hrest' =>
      obtain ⟨P₁, h₁, hr, hcx⟩ := ihx P hx'
      obtain ⟨P₂, h₂, hrs, hcs⟩ := ihrest P₁ hrest'
      exact ⟨P₂, h₁.trans h₂, .cons (h₂.same hr) hrs, (h₂.sameCode hcx).append hcs⟩

def Body.unchained : Body → Body
  | one x => one x.unchained
  | list xs => list (Stmt.unchainedList xs)

theorem LowersBody.mirrors {loop : Option Loop} {b : Body} {s s' : Frame} {c : Code}
    (h : LowersBody loop b s c s') :
    ∀ {t : Frame} (P : Pairing s t) {c' : Code} {t' : Frame}, LowersBody loop b.unchained t c' t' →
      ∃ P' : Pairing s' t', P.Grows P' ∧ P'.SameCode c c' := by
  induction h with
  | hole =>
    intro t P c' t' h'
    simp only [Body.unchained, Stmt.unchained] at h'
    cases h' with
    | hole => exact ⟨P, .refl P, .nil⟩
  | block _ ih =>
    intro t P c' t' h'
    simp only [Body.unchained, Stmt.unchained] at h'
    cases h' with
    | block hxs' =>
      obtain ⟨P₁, h₁, hc⟩ := ih P hxs'
      exact ⟨P₁, h₁, hc.mark _ _⟩
  | expr hx =>
    intro t P c' t' h'
    simp only [Body.unchained, Stmt.unchained] at h'
    cases h' with
    | expr hx' =>
      obtain ⟨P₁, h₁, hc⟩ := hx.mirrors P .none hx'
      exact ⟨P₁, h₁, hc.mark _ _⟩
  | store ha hx =>
    intro t P c' t' h'
    simp only [Body.unchained, Stmt.unchained] at h'
    cases h' with
    | store ha' hx' =>
      obtain ⟨P₁, h₁, hva, hca⟩ := ha.mirrors P ha'
      obtain ⟨P₂, h₂, hvx, hcx⟩ := hx.mirrors P₁ hx'
      have hlast :=
        Pairing.SameCode.nil.make .write Opcode.noConfusion (.cons (h₂.same hva) (.cons hvx .nil))
      exact ⟨P₂, h₁.trans h₂, ((h₂.sameCode hca).append (hcx.append hlast)).mark _ _⟩
  | branch hc hfin _ iha =>
    intro t P c' t' h'
    simp only [Body.unchained, Stmt.unchained] at h'
    cases h' with
    | branchElse hhole => cases hhole
    | branch hc' hfin' ha' =>
      obtain ⟨P₁, h₁, hcc⟩ := hc.mirrors P hc'
      obtain ⟨rfl, P₂, h₂⟩ := P₁.exists_newLabel hfin hfin'
      obtain ⟨P₃, h₃, hca⟩ := iha P₂ ha'
      have h₂₃ := h₂.trans h₃
      exact ⟨P₃, h₁.trans h₂₃,
        ((h₂₃.sameCode (hcc rfl)).append (hca.append (.defineLabel .nil _))).mark _ _⟩
  | @branchElse _ _ _ b _ _ _ _ _ _ _ _ _ _ _ hhole hc hfin hother _ _ iha ihb =>
    intro t P c' t' h'
    simp only [Body.unchained, Stmt.unchained] at h' ihb
    rw [← Stmt.isHole_unchained] at hhole
    generalize b.unchained = b' at h' hhole ihb
    cases h' with
    | branch => cases hhole
    | branchElse _ hc' hfin' hother' ha' hb' =>
      obtain ⟨P₁, h₁, hcc⟩ := hc.mirrors P hc'
      obtain ⟨rfl, P₂, h₂⟩ := P₁.exists_newLabel hfin hfin'
      obtain ⟨rfl, P₃, h₃⟩ := P₂.exists_newLabel hother hother'
      obtain ⟨P₄, h₄, hca⟩ := iha P₃ ha'
      obtain ⟨P₅, h₅, hcb⟩ := ihb P₄ hb'
      have h₂₅ := h₂.trans (h₃.trans (h₄.trans h₅))
      exact ⟨P₅, h₁.trans h₂₅, ((h₂₅.sameCode (hcc rfl)).append ((h₅.sameCode hca).append
        (((hcb.append (.defineLabel .nil _)).defineLabel _).jump _))).mark _ _⟩
  | whileLoop htop hfin hc _ ihb =>
    intro t P c' t' h'
    simp only [Body.unchained, Stmt.unchained] at h'
    cases h' with
    | whileLoop htop' hfin' hc' hb' =>
      obtain ⟨rfl, P₁, h₁⟩ := P.exists_newLabel htop htop'
      obtain ⟨rfl, P₂, h₂⟩ := P₁.exists_newLabel hfin hfin'
      obtain ⟨P₃, h₃, hcc⟩ := hc.mirrors P₂ hc'
      obtain ⟨P₄, h₄, hcb⟩ := ihb P₃ hb'
      exact ⟨P₄, h₁.trans (h₂.trans (h₃.trans h₄)), (((h₄.sameCode (hcc rfl)).append
        (hcb.append (.jump (.defineLabel .nil _) _))).defineLabel _).mark _ _⟩
  | forLoop _ htop hnext hfin hc _ _ ihi ihb ihp =>
    intro t P c' t' h'
    simp only [Body.unchained, Stmt.unchained] at h'
    cases h' with
    | forLoop hi' htop' hnext' hfin' hc' hb' hp' =>
      obtain ⟨P₁, h₁, hci⟩ := ihi P hi'
      obtain ⟨rfl, P₂, h₂⟩ := P₁.exists_newLabel htop htop'
      obtain ⟨rfl, P₃, h₃⟩ := P₂.exists_newLabel hnext hnext'
      obtain ⟨rfl, P₄, h₄⟩ := P₃.exists_newLabel hfin hfin'
      obtain ⟨P₅, h₅, hcc⟩ := hc.mirrors P₄ hc'
      obtain ⟨P₆, h₆, hcb⟩ := ihb P₅ hb'
      obtain ⟨P₇, h₇, hcp⟩ := ihp P₆ hp'
      have h₆₇ := h₆.trans h₇
      have h₂₇ := h₂.trans (h₃.trans (h₄.trans (h₅.trans h₆₇)))
      exact ⟨P₇, h₁.trans h₂₇,
        ((h₂₇.sameCode hci).append (((h₆₇.sameCode (hcc rfl)).append ((h₇.sameCode hcb).append
            ((hcp.append (.jump (.defineLabel .nil _) _)).defineLabel _))).defineLabel _)).mark _ _⟩
  | breakLoop =>
    intro t P c' t' h'
    simp only [Body.unchained, Stmt.unchained] at h'
    cases h' with
    | breakLoop => exact ⟨P, .refl P, .mark (.jump .nil _) _ _⟩
  | continueLoop =>
    intro t P c' t' h'
    simp only [Body.unchained, Stmt.unchained] at h'
    cases h' with
    | continueLoop => exact ⟨P, .refl P, .mark (.jump .nil _) _ _⟩
  | retNone =>
    intro t P c' t' h'
    simp only [Body.unchained, Stmt.unchained, Expr.unchained_hole] at h'
    cases h' with
    | ret hhole => cases hhole
    | retNone => exact ⟨P, .refl P, .mark (.make .nil .ret Opcode.noConfusion .nil) _ _⟩
  | @ret _ x _ _ _ _ hhole hx =>
    intro t P c' t' h'
    simp only [Body.unchained, Stmt.unchained] at h'
    rw [← Expr.isHole_unchained] at hhole
    generalize hu : x.unchained = x' at h' hhole
    cases h' with
    | retNone => cases hhole
    | ret _ hx' =>
      obtain ⟨P₁, h₁, hvx, hcx⟩ := hx.mirrors P (hu ▸ hx')
      exact ⟨P₁, h₁, (hcx.append (.make .nil .ret Opcode.noConfusion (.cons hvx .nil))).mark _ _⟩
  | nil =>
    intro t P c' t' h'
    simp only [Body.unchained, Stmt.unchainedList] at h'
    cases h' with
    | nil => exact ⟨P, .refl P, .nil⟩
  | cons _ _ ihx ihs =>
    intro t P c' t' h'
    simp only [Body.unchained, Stmt.unchainedList] at h'
    cases h' with
    | cons hx' hs' =>
      obtain ⟨P₁, h₁, hc⟩ := ihx P hx'
      obtain ⟨P₂, h₂, hcs⟩ := ihs P₁ hs'
      exact ⟨P₂, h₁.trans h₂, (h₂.sameCode hc).append hcs⟩

end ThreeAddress
