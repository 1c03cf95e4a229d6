import ThreeAddress.Proofs.LoweredValid
import ThreeAddress.Proofs.Paths
import ThreeAddress.Proofs.ReadOnce

/-!
# Temporaries of lowered code are set before they are read

A part of a tree sets the temporaries that it leaves to be read, on every way through its code. So,
wherever the code of a part stands, a temporary is set before it is read if this is so where control
leaves the part; and what comes after the part may count on the temporaries that the part sets
(`Lowers.carries`, `LowersBody.carries`). Loops come back to code that was passed before, but only
after at least one instruction, so that counting instructions carries the induction over them
(`Code.SetWithin.turn`).
-/

namespace ThreeAddress
set_option autoImplicit false

open LowerM

section
variable {code rest c d : Code} {k : RegKey} {n : Nat} {l : Label} {r : Reg} {v : Operand}
  {vs : List Operand}

theorem Operand.mem_keysOf_reg : k ∈ keysOf [.reg r] ↔ r.key = k := List.mem_singleton.trans eq_comm

theorem Instr.goal?_make {op : Opcode} (hop : op.isBranch = false) : (make op vs).goal? = none :=
  goal?_eq_none hop

namespace Code.SetWithin

theorem mono {m : Nat} (h : code.SetWithin k n rest) (hle : m ≤ n) : code.SetWithin k m rest := by
  induction hle with
  | refl => exact h
  | step _ ih => exact ih h.of_succ

theorem mark {node : NodeKind} (h : code.SetWithin k n rest) :
    code.SetWithin k n (.mark node :: rest) :=
  .cons List.not_mem_nil (fun _ _ => h) nofun

theorem defineLabel (h : code.SetWithin k n rest) : code.SetWithin k n (.defineLabel l :: rest) :=
  .cons List.not_mem_nil (fun _ _ => h) nofun

theorem jump (h : code.SetWithin k n (code.seek l)) : code.SetWithin k n (.jump l :: rest) := by
  refine .cons List.not_mem_nil (fun _ hlive => nomatch hlive) fun m hm => ?_
  cases hm
  exact h

theorem make {op : Opcode} (hdef : op.isDefinition = false) (hop : op.isBranch = false)
    (hvs : k ∉ Operand.keysOf vs) (h : op.isTerminator = false → code.SetWithin k n rest) :
    code.SetWithin k n (.make op vs :: rest) := by
  refine .cons ?_ (fun _ => h) fun m hm => ?_
  · rwa [Instr.reads_make, if_neg (Bool.eq_false_iff.mp hdef)]
  · rw [Instr.goal?_make hop] at hm
    cases hm

theorem test {op : Opcode} (hop : op.isBranch = true) (hv : k ∉ Operand.keysOf [v])
    (hl : code.SetWithin k n (code.seek l)) (h : code.SetWithin k n rest) :
    code.SetWithin k n (.make op [.label l, v] :: rest) := by
  refine .cons ?_ (fun _ _ => h) fun m hm => ?_
  · have hdef : ¬ op.isDefinition = true :=
      Bool.eq_false_iff.mp (Opcode.isDefinition_of_isBranch hop)
    rwa [Instr.reads_make, if_neg hdef, Operand.keysOf_cons]
  · obtain ⟨_, _, hargs⟩ := Instr.goal?_eq_some_iff.mp hm
    cases hargs
    exact hl

theorem into {op : Opcode} (hop : op.isDefinition = true) (hvs : k ∉ Operand.keysOf vs)
    (h : r.key ≠ k → code.SetWithin k n rest) :
    code.SetWithin k n (.make op (.reg r :: vs) :: rest) := by
  refine .cons ?_ (fun hset _ => h fun hr => hset ((Instr.sets_into hop).mpr hr)) fun m hm => ?_
  · rwa [Instr.reads_make, if_pos hop]
  · rw [Instr.make, Instr.goal?_definition hop] at hm
    cases hm

theorem seek (hnodup : code.labels.Nodup) (hl : (.defineLabel l :: rest) <:+ code)
    (h : code.SetWithin k n rest) :
    code.SetWithin k n (code.seek l) := by
  rw [seek_of_suffix hnodup hl rfl]
  exact h.defineLabel

/-- One turn of a loop may count on the turns after it, which come to fewer instructions. -/
theorem turn (hnodup : code.labels.Nodup) (hl : (.defineLabel l :: rest) <:+ code)
    (h : ∀ m < n, code.SetWithin k m (code.seek l) → code.SetWithin k m rest) :
    code.SetWithin k n (.defineLabel l :: rest) := by
  induction n with
  | zero => trivial
  | succ n ih =>
    have hagain := ih fun m hm => h m (Nat.lt_succ_of_lt hm)
    rw [← seek_of_suffix hnodup hl rfl] at hagain
    exact ⟨List.not_mem_nil, fun _ => ⟨fun _ => h n (Nat.lt_succ_self n) hagain, nofun⟩⟩

end Code.SetWithin

/-- Wherever `c` stands, the register is set before it is read if this is so from the exits on and,
unless `set` holds, from the code after `c` on. -/
def Code.Carries (code : Code) (k : RegKey) (set : Prop) (exits : List Label) (c : Code) : Prop :=
  ∀ ⦃rest : Code⦄ ⦃n : Nat⦄, (c ++ rest) <:+ code → (¬ set → code.SetWithin k n rest) →
    (∀ l ∈ exits, code.SetWithin k n (code.seek l)) → code.SetWithin k n (c ++ rest)

namespace Code
variable {set set' : Prop} {exits : List Label}

theorem carries_nil : code.Carries k False exits [] := fun _ _ _ h _ => h id

namespace Carries

theorem imp (h : code.Carries k set exits c) (hset : set' → set) : code.Carries k set' exits c :=
  fun _ _ hc hrest hexits => h hc (fun hnot => hrest fun hs => hnot (hset hs)) hexits

theorem widen (h : code.Carries k set [] c) : code.Carries k set exits c :=
  fun _ _ hc hrest _ => h hc hrest nofun

theorem mark {node : NodeKind} (h : code.Carries k set exits c) :
    code.Carries k set exits (.mark node :: c) :=
  fun _ _ hc hrest hexits => (h ((List.suffix_cons _ _).trans hc) hrest hexits).mark

theorem append (h : code.Carries k set exits c) (h' : ¬ set → code.Carries k set' exits d) :
    code.Carries k (set ∨ set') exits (c ++ d) := by
  intro rest n hc hrest hexits
  rw [List.append_assoc] at hc ⊢
  refine h hc (fun hset => ?_) hexits
  exact h' hset ((List.suffix_append c _).trans hc)
    (fun hset' => hrest (not_or.mpr ⟨hset, hset'⟩)) hexits

theorem choose (hnodup : code.labels.Nodup) {cc ca cb : Code} {other fin : Label}
    (hcc : code.Carries k False [other] cc) (hca : code.Carries k set exits ca)
    (hcb : code.Carries k set exits cb) : code.Carries k set exits
      (cc ++ (ca ++ .jump fin :: .defineLabel other :: (cb ++ [.defineLabel fin]))) := by
  intro rest n hc hrest hexits
  simp only [List.cons_append, List.append_assoc, List.nil_append] at hc ⊢
  have hcaAt := (List.suffix_append cc _).trans hc
  have hotherAt := (List.suffix_cons _ _).trans ((List.suffix_append ca _).trans hcaAt)
  have hcbAt := (List.suffix_cons _ _).trans hotherAt
  have hfinAt := (List.suffix_append cb _).trans hcbAt
  have hcb' := hcb hcbAt (fun hset => (hrest hset).defineLabel) hexits
  have hca' := hca hcaAt (fun hset => .jump (.seek hnodup hfinAt (hrest hset))) hexits
  exact hcc hc (fun _ => hca') (List.forall_mem_singleton.mpr (.seek hnodup hotherAt hcb'))

end Carries

theorem carries_make {op : Opcode} (hdef : op.isDefinition = false) (hop : op.isBranch = false)
    (hvs : k ∉ Operand.keysOf vs) : code.Carries k False exits [.make op vs] :=
  fun _ _ _ hrest _ => .make hdef hop hvs fun _ => hrest id

theorem carries_into {op : Opcode} (hop : op.isDefinition = true) (hvs : k ∉ Operand.keysOf vs) :
    code.Carries k (r.key = k) exits [.make op (.reg r :: vs)] :=
  fun _ _ _ hrest _ => .into hop hvs hrest

theorem carries_given {dst : Option Reg} (hv : k ∉ Operand.keysOf [v]) :
    code.Carries k (dst.map Reg.key = some k) exits (given dst v) := by
  cases dst with
  | none => exact carries_nil.imp fun h => nomatch h
  | some r => exact (carries_into rfl hv).imp Option.some.inj

theorem carries_call {dst : Option Reg} {w : Width} (hvs : k ∉ Operand.keysOf vs) :
    code.Carries k (dst.map Reg.key = some k) exits
      [.make .call (resultOf dst :: .callee l w :: vs)] := by
  cases dst with
  | none => exact fun _ _ _ hrest _ => .cons hvs (fun _ _ => hrest nofun) nofun
  | some r =>
    exact fun _ _ _ hrest _ => .into rfl hvs fun hne => hrest fun hr => hne (Option.some.inj hr)

theorem carries_test {op : Opcode} (hop : op.isBranch = true) (hv : k ∉ Operand.keysOf [v])
    (hl : l ∈ exits) :
    code.Carries k False exits [.make op [.label l, v]] :=
  fun _ _ _ hrest hexits => .test hop hv (hexits l hl) (hrest id)

end Code

theorem orTemp_key {dst : Option Reg} {w : Width} {s s' : Frame} (h : orTemp dst w s = .ok r s')
    (hk : dst.map Reg.key = some k) : r.key = k := by
  rcases orTemp_eq_ok h with ⟨rfl, _⟩ | ⟨rfl, _⟩
  · exact Option.some.inj hk
  · cases hk

theorem not_mem_keysOf_named (hr : r.temp = false) (hk : k.temp = true) :
    k ∉ Operand.keysOf [.reg r] := by
  intro hmem
  rw [← Operand.mem_keysOf_reg.mp hmem] at hk
  exact Bool.false_ne_true (hr.symm.trans hk)

theorem Reads.not_mem_keysOf {s : Frame} {e : Expr} (h : Reads s e v) (hs : s.Numbered)
    (hk : k.temp = true) :
    k ∉ Operand.keysOf [v] := by
  cases h with
  | var hr => exact not_mem_keysOf_named (hs.named hr) hk
  | num | str | funcRef => exact List.not_mem_nil

end

@[simp] def Part.Sets (k : RegKey) : Part → Prop
  | .value _ dst => dst.map Reg.key = some k
  | .terms _ dst _ _ => dst.map Reg.key = some k
  | .fresh _ _ t => t.key = k
  | .operand _ v => k ∈ Operand.keysOf [v]
  | .args _ _ ts => k ∈ Operand.keysOf (ts.map .reg)
  | .tests .. | .guard .. => False

section
variable {p : Part} {loop : Option Loop} {b : Body} {s s' : Frame} {c code : Code} {k : RegKey}

theorem Lowers.carries (h : Lowers p s c s') (hp : p.Branches) (hnodup : code.labels.Nodup)
    (hk : k.temp = true) (hs : s.Numbered) (hgiven : k ∉ Operand.keysOf p.given) :
    code.Carries k (p.Sets k) p.exits c := by
  induction h with
  | atom he hv =>
    obtain ⟨hreads, hgrows, _⟩ := reads_of_atom? he hv
    exact (Code.carries_given (hreads.not_mem_keysOf (hgrows.numbered hs) hk)).mark
  | unary _ _ hd ihx | load _ hd ihx =>
    have hx := ihx trivial hs List.not_mem_nil
    exact ((hx.append fun hvx => Code.carries_into rfl hvx).imp fun hdst =>
      .inr (orTemp_key hd hdst)).mark
  | binary _ hx hy hd ihx ihy =>
    have hx' := ihx trivial hs List.not_mem_nil
    have hy' := ihy trivial (hx.grows.numbered hs) List.not_mem_nil
    refine ((hx'.append fun hvx => hy'.append fun hvy => Code.carries_into rfl ?_).imp
      fun hdst => .inr (.inr (orTemp_key hd hdst))).mark
    rw [Operand.keysOf_cons]
    exact List.not_mem_append hvx hvy
  | chainOne _ ih => exact (ih trivial hs List.not_mem_nil).mark
  | chain _ hx _ ihx iht =>
    have hx' := ihx trivial hs List.not_mem_nil
    exact ((hx'.append fun hacc => iht trivial (hx.grows.numbered hs) hacc).imp .inr).mark
  | @all op es w dst d fin ct s s₁ s₂ s' _ hd hfin _ iht =>
    have hs₂ := ((orTemp_grows hd).trans (newLabel_grows hfin)).numbered hs
    intro rest n hc hrest _
    simp only [List.cons_append, List.append_assoc, List.nil_append] at hc ⊢
    have hct := (List.suffix_cons _ _).trans ((List.suffix_cons _ _).trans hc)
    have hfinAt := (List.suffix_cons _ _).trans ((List.suffix_append ct _).trans hct)
    refine .mark (.into rfl List.not_mem_nil fun hne => ?_)
    -- the result is set first of all, so any other register is left to what comes after
    have hrest' := hrest fun hdst => hne (orTemp_key hd hdst)
    refine iht rfl hs₂ List.not_mem_nil hct
      (fun _ => .into rfl List.not_mem_nil fun _ => hrest'.defineLabel) ?_
    exact List.forall_mem_singleton.mpr (.seek hnodup hfinAt hrest')
  | @any op es w dst d found fin ct s s₁ s₂ s₃ s' _ hd hfound hfin _ iht =>
    have hs₃ :=
      (((orTemp_grows hd).trans (newLabel_grows hfound)).trans (newLabel_grows hfin)).numbered hs
    intro rest n hc hrest _
    simp only [List.cons_append, List.append_assoc, List.nil_append] at hc ⊢
    have hct := (List.suffix_cons _ _).trans ((List.suffix_cons _ _).trans hc)
    have hfoundAt := (List.suffix_cons _ _).trans
      ((List.suffix_cons _ _).trans ((List.suffix_append ct _).trans hct))
    have hfinAt := (List.suffix_cons _ _).trans hfoundAt
    refine .mark (.into rfl List.not_mem_nil fun hne => ?_)
    have hrest' := hrest fun hdst => hne (orTemp_key hd hdst)
    refine iht rfl hs₃ List.not_mem_nil hct (fun _ => .into rfl List.not_mem_nil fun _ => ?_) ?_
    · exact .jump (.seek hnodup hfinAt hrest')
    · exact List.forall_mem_singleton.mpr (.seek hnodup hfoundAt hrest'.defineLabel)
  | cond hc hother hfin ha _ ihc iha ihb =>
    have hs₃ := (hc.grows.trans ((newLabel_grows hother).trans (newLabel_grows hfin))).numbered hs
    have hc' := ihc trivial hs List.not_mem_nil
    have ha' := iha trivial hs₃ List.not_mem_nil
    have hb' := ihb trivial (ha.grows.numbered hs₃) List.not_mem_nil
    exact (hc'.choose hnodup ha' hb').mark
  | call hcallee _ iha =>
    obtain ⟨l, rfl, _, hgrows, _⟩ := calleeOf_eq_ok hcallee
    have ha := iha trivial (hgrows.numbered hs) List.not_mem_nil
    exact ((ha.append fun hts => Code.carries_call hts).imp .inr).mark
  | assignAtom he hr hv =>
    obtain ⟨hlookup, hgrows₁, _⟩ := regOf_eq_ok hr
    obtain ⟨hreads, hgrows, _⟩ := reads_of_atom? he hv
    have hs₁ := hgrows₁.numbered hs
    have hvx := hreads.not_mem_keysOf (hgrows.numbered hs₁) hk
    have hr' := not_mem_keysOf_named (hs₁.named hlookup) hk
    exact (((Code.carries_into rfl hvx).append fun _ => Code.carries_given hr').imp .inr).mark
  | assign _ hr _ ihx =>
    obtain ⟨hlookup, hgrows, _⟩ := regOf_eq_ok hr
    have hs₁ := hgrows.numbered hs
    have hx := ihx trivial hs₁ List.not_mem_nil
    have hr' := not_mem_keysOf_named (hs₁.named hlookup) hk
    refine ((hx.append fun ht => (Code.carries_into rfl (mt Operand.mem_keysOf_reg.mp ht)).append
      fun _ => Code.carries_given hr').imp fun hdst => .inr (.inr hdst)).mark
  | fresh ht _ ih =>
    exact (ih trivial ((newTemp_grows ht).numbered hs) List.not_mem_nil).imp (congrArg some)
  | operandAtom he hv =>
    obtain ⟨hreads, hgrows, _⟩ := reads_of_atom? he hv
    exact Code.carries_nil.imp (hreads.not_mem_keysOf (hgrows.numbered hs) hk)
  | operand _ _ ih => exact (ih trivial hs List.not_mem_nil).imp Operand.mem_keysOf_reg.mp
  | termsLast _ _ hd ihx =>
    have hx := ihx trivial hs List.not_mem_nil
    refine (hx.append fun hvx => Code.carries_into rfl ?_).imp fun hdst => .inr (orTemp_key hd hdst)
    rw [Operand.keysOf_cons]
    exact List.not_mem_append hgiven hvx
  | termsMore _ _ hx ht _ ihx iht =>
    have hx' := ihx trivial hs List.not_mem_nil
    have hs₂ := (hx.grows.trans (newTemp_grows ht)).numbered hs
    refine (hx'.append fun hvx => (Code.carries_into rfl ?_).append fun hne =>
      iht trivial hs₂ (mt Operand.mem_keysOf_reg.mp hne)).imp fun hdst => .inr (.inr hdst)
    rw [Operand.keysOf_cons]
    exact List.not_mem_append hgiven hvx
  | testsNil | guardHole => exact Code.carries_nil
  | argsNil => exact Code.carries_nil.imp List.not_mem_nil
  | testsCons hx _ ihx iht =>
    have hx' := ihx trivial hs List.not_mem_nil
    have ht := iht hp (hx.grows.numbered hs) List.not_mem_nil
    exact (hx'.widen.append fun hvx => (Code.carries_test hp hvx List.mem_cons_self).append fun _ =>
      ht).imp False.elim
  | guard _ _ ih =>
    have hx := ih trivial hs List.not_mem_nil
    exact (hx.widen.append fun ht =>
      Code.carries_test rfl (mt Operand.mem_keysOf_reg.mp ht) List.mem_cons_self).imp False.elim
  | argsCons hx _ ihx ihs =>
    have hx' := ihx trivial hs List.not_mem_nil
    have hrest := ihs trivial (hx.grows.numbered hs) List.not_mem_nil
    refine (hx'.append fun _ => hrest).imp fun hmem => ?_
    rw [Part.Sets, List.map_cons, Operand.keysOf_cons, List.mem_append,
      Operand.mem_keysOf_reg] at hmem
    exact hmem

theorem LowersBody.carries (h : LowersBody loop b s c s') (hnodup : code.labels.Nodup)
    (hk : k.temp = true) (hs : s.Numbered) : code.Carries k False (Loop.exits loop) c := by
  have hpart {p : Part} {s s' : Frame} {c : Code} (h : Lowers p s c s') (hs : s.Numbered)
      (hp : p.Branches) (hgiven : k ∉ Operand.keysOf p.given) := h.carries hp hnodup hk hs hgiven
  induction h with
  | hole | nil => exact Code.carries_nil
  | block _ ih => exact (ih hs).mark
  | expr hx => exact ((hpart hx hs trivial List.not_mem_nil).widen.imp False.elim).mark
  | store ha hx =>
    have ha' := hpart ha hs trivial List.not_mem_nil
    have hx' := hpart hx (ha.grows.numbered hs) trivial List.not_mem_nil
    refine ((ha'.widen.append fun hva => hx'.widen.append fun hvx =>
        Code.carries_make rfl rfl ?_).imp False.elim).mark
    rw [Operand.keysOf_cons]
    exact List.not_mem_append hva hvx
  | @branch loop c a fin cc ca s s₁ s₂ s' hcc hfin _ iha =>
    have hs₂ := (hcc.grows.trans (newLabel_grows hfin)).numbered hs
    intro rest n hc hrest hexits
    simp only [List.cons_append, List.append_assoc, List.nil_append] at hc ⊢
    have hccAt := (List.suffix_cons _ _).trans hc
    have hcaAt := (List.suffix_append cc _).trans hccAt
    have hfinAt := (List.suffix_append ca _).trans hcaAt
    have hca := iha hs₂ hcaAt (fun _ => (hrest id).defineLabel) hexits
    refine .mark (hpart hcc hs trivial List.not_mem_nil hccAt (fun _ => hca) ?_)
    exact List.forall_mem_singleton.mpr (.seek hnodup hfinAt (hrest id))
  | branchElse _ hc hfin hother ha _ iha ihb =>
    have hs₃ := (hc.grows.trans ((newLabel_grows hfin).trans (newLabel_grows hother))).numbered hs
    have hc' := hpart hc hs trivial List.not_mem_nil
    exact (hc'.choose hnodup (iha hs₃) (ihb (ha.grows.numbered hs₃))).mark
  | @whileLoop loop c body top fin cc cb s s₁ s₂ s₃ s' htop hfin hcc _ ihb =>
    have hs₂ := ((newLabel_grows htop).trans (newLabel_grows hfin)).numbered hs
    intro rest n hc hrest hexits
    simp only [List.cons_append, List.append_assoc, List.nil_append] at hc ⊢
    have htopAt := (List.suffix_cons _ _).trans hc
    have hccAt := (List.suffix_cons _ _).trans htopAt
    have hcbAt := (List.suffix_append cc _).trans hccAt
    have hfinAt := (List.suffix_cons _ _).trans ((List.suffix_append cb _).trans hcbAt)
    refine .mark (.turn hnodup htopAt fun m hm hagain => ?_)
    -- a failed test and a break go behind the loop, a continue and the end of the body to the next
    -- turn
    have hend : code.SetWithin k m (code.seek fin) :=
      .seek hnodup hfinAt ((hrest id).mono (Nat.le_of_lt hm))
    have hcb := ihb (hcc.grows.numbered hs₂) hcbAt (fun _ => .jump hagain)
      (List.forall_mem_cons.mpr ⟨hend, List.forall_mem_singleton.mpr hagain⟩)
    exact hpart hcc hs₂ trivial List.not_mem_nil hccAt (fun _ => hcb)
      (List.forall_mem_singleton.mpr hend)
  | @forLoop loop start c post body top next fin ci cc cb cp s s₁ s₂ s₃ s₄ s₅ s₆ s' hstart htop
      hnext hfin hcc hb _ ihs ihb ihp =>
    have hs₁ := hstart.grows.numbered hs
    have hs₄ := ((newLabel_grows htop).trans
      ((newLabel_grows hnext).trans (newLabel_grows hfin))).numbered hs₁
    have hs₅ := hcc.grows.numbered hs₄
    intro rest n hc hrest hexits
    simp only [List.cons_append, List.append_assoc, List.nil_append] at hc ⊢
    have hciAt := (List.suffix_cons _ _).trans hc
    have htopAt := (List.suffix_append ci _).trans hciAt
    have hccAt := (List.suffix_cons _ _).trans htopAt
    have hcbAt := (List.suffix_append cc _).trans hccAt
    have hnextAt := (List.suffix_append cb _).trans hcbAt
    have hcpAt := (List.suffix_cons _ _).trans hnextAt
    have hfinAt := (List.suffix_cons _ _).trans ((List.suffix_append cp _).trans hcpAt)
    -- here a continue goes to what is done between two turns, which stands outside of the loop for
    -- its own exits
    refine .mark (ihs hs hciAt (fun _ => .turn hnodup htopAt fun m hm hagain => ?_) hexits)
    have hend : code.SetWithin k m (code.seek fin) :=
      .seek hnodup hfinAt ((hrest id).mono (Nat.le_of_lt hm))
    have hcp := ihp (hb.grows.numbered hs₅) hcpAt (fun _ => .jump hagain) fun l hl =>
      (hexits l hl).mono (Nat.le_of_lt hm)
    have hcb := ihb hs₅ hcbAt (fun _ => hcp.defineLabel)
      (List.forall_mem_cons.mpr ⟨hend, List.forall_mem_singleton.mpr (.seek hnodup hnextAt hcp)⟩)
    exact hpart hcc hs₄ trivial List.not_mem_nil hccAt (fun _ => hcb)
      (List.forall_mem_singleton.mpr hend)
  | breakLoop => exact .mark fun _ _ _ _ hexits => .jump (hexits _ List.mem_cons_self)
  | continueLoop =>
    exact .mark fun _ _ _ _ hexits => .jump (hexits _ (List.mem_cons_of_mem _ List.mem_cons_self))
  | retNone => exact (Code.carries_make rfl rfl List.not_mem_nil).mark
  | ret _ hx =>
    have hx' := hpart hx hs trivial List.not_mem_nil
    exact ((hx'.widen.append fun hvx => Code.carries_make rfl rfl hvx).imp False.elim).mark
  | cons hx _ ih ihs => exact ((ih hs).append fun _ => ihs (hx.grows.numbered hs)).imp False.elim

/-- In lowered code every temporary is set before it is read, however control goes. -/
theorem LowersBody.setFirst (h : LowersBody none b s c s') (hnodup : c.terminate.labels.Nodup)
    (hk : k.temp = true) (hs : s.Numbered) : c.terminate.SetFirst k c.terminate := by
  intro n
  have hcarries := h.carries hnodup hk hs
  have hcode : ∃ rest, c ++ rest = c.terminate ∧ c.terminate.SetWithin k n rest := by
    unfold Code.terminate
    split
    · exact ⟨[], List.append_nil c, Code.setWithin_nil⟩
    · exact ⟨[.make .ret []], rfl, .make rfl rfl List.not_mem_nil fun _ => Code.setWithin_nil⟩
  obtain ⟨rest, heq, hrest⟩ := hcode
  have hfirst := hcarries (heq ▸ List.suffix_rfl) (fun _ => hrest) nofun
  rwa [heq] at hfirst

end

end ThreeAddress
