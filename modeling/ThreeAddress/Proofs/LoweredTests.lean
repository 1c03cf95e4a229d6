import ThreeAddress.Proofs.LoweredTemps
import ThreeAddress.Proofs.PassBehaviour
import ThreeAddress.Proofs.TestFolding

/-!
# Tests of lowered code

A comparison may disappear in the branch after it only if nothing else has to do with its result.
Lowering sees to that: the result of a comparison that a branch tests at once is a temporary which
is set there, tested there and found nowhere else (`Session.lowerFunc_tests`), so that folding has
nothing to keep.

A temporary is read once at most, but it may be set more than once, on several ways to the place
where it is read. This place is then a label, and no branch comes right after a definition. So each
part of a tree sets only temporaries that it was handed itself, apart from its destination, and
those that it tests at once it sets once (`Code.Owns`).
-/

namespace ThreeAddress
set_option autoImplicit false

open LowerM

/-- The instruction branches on the register. -/
def Instr.TestsKey (y : Instr) (k : RegKey) : Prop := Operand.keyAt? y.cond?.join = some k

instance (x : Instr) (k : RegKey) : Decidable (x.Sets k) := inferInstanceAs (Decidable (_ = _))

namespace Instr
variable {op : Opcode} {vs : List Operand} {k : RegKey}

theorem not_sets_make (hv : Operand.keyAt? vs.head? ≠ some k) : ¬ (make op vs).Sets k := by
  have hfirst : (make op vs).operand? 0 = vs.head? := by cases vs <;> rfl
  intro h
  rw [sets_iff, hfirst] at h
  exact hv h.2

theorem not_testsKey (hop : op ≠ .brz ∧ op ≠ .bnz) : ¬ (make op vs).TestsKey k := by
  have hcond : (make op vs).cond? = none := by
    unfold cond? make
    cases op with
    | brz => exact absurd rfl hop.1
    | bnz => exact absurd rfl hop.2
    | _ => rfl
  intro h
  rw [TestsKey, hcond] at h
  cases h

theorem exists_of_testsKey {l : Label} {v : Operand} (h : (make op [.label l, v]).TestsKey k) :
    ∃ r, v = .reg r ∧ r.key = k := by
  have hv : Operand.keyAt? (some v) = some k := by
    unfold TestsKey cond? make at h
    cases op with
    | brz | bnz => exact h
    | _ => cases h
  obtain ⟨r, hr, hrk⟩ := Operand.keyAt?_eq_some_iff.mp hv
  exact ⟨r, Option.some.inj hr, hrk⟩

/-- No temporary is set or tested. -/
def Passive (x : Instr) : Prop := ∀ i, ¬ x.Sets ⟨true, i⟩ ∧ ¬ x.TestsKey ⟨true, i⟩

theorem passive_make (hdef : op.isDefinition = false) (hop : op ≠ .brz ∧ op ≠ .bnz) :
    (make op vs).Passive :=
  fun _ => ⟨not_sets hdef, not_testsKey hop⟩

theorem passive_mark (n : NodeKind) : (mark n).Passive :=
  passive_make rfl ⟨Opcode.noConfusion, Opcode.noConfusion⟩

theorem passive_defineLabel (l : Label) : (defineLabel l).Passive :=
  passive_make rfl ⟨Opcode.noConfusion, Opcode.noConfusion⟩

theorem passive_jump (l : Label) : (jump l).Passive :=
  passive_make rfl ⟨Opcode.noConfusion, Opcode.noConfusion⟩

theorem passive_write (vs : List Operand) : (make .write vs).Passive :=
  passive_make rfl ⟨Opcode.noConfusion, Opcode.noConfusion⟩

theorem passive_ret (vs : List Operand) : (make .ret vs).Passive :=
  passive_make rfl ⟨Opcode.noConfusion, Opcode.noConfusion⟩

theorem passive_named {r : Reg} (hr : r.temp = false) : (make .mov (.reg r :: vs)).Passive := by
  refine fun i => ⟨fun hset => ?_, not_testsKey ⟨Opcode.noConfusion, Opcode.noConfusion⟩⟩
  have htemp := congrArg RegKey.temp ((sets_into rfl).mp hset)
  exact Bool.false_ne_true (hr.symm.trans htemp)

end Instr

/-- Two instructions that follow each other in `a ++ b` do so in one of them, or stand at the
seam. -/
theorem pair_infix_append {α : Type} {x y : α} {a b : List α} (h : [x, y] <:+: a ++ b) :
    [x, y] <:+: a ∨ [x, y] <:+: b ∨ [x] <:+ a ∧ [y] <+: b := by
  induction a with
  | nil => exact .inr (.inl h)
  | cons z a ih =>
    rcases List.infix_cons_iff.mp h with hfirst | hlater
    · obtain ⟨rfl, hy⟩ := List.cons_prefix_cons.mp hfirst
      cases a with
      | nil => exact .inr (.inr ⟨List.suffix_rfl, hy⟩)
      | cons w a =>
        obtain ⟨rfl, _⟩ := List.cons_prefix_cons.mp hy
        exact .inl ⟨[], a, rfl⟩
    · rcases ih hlater with ha | hb | ⟨ha, hb⟩
      · exact .inl (ha.trans (List.suffix_cons z a).isInfix)
      · exact .inr (.inl hb)
      · exact .inr (.inr ⟨ha.trans (List.suffix_cons z a), hb⟩)

theorem append_subset_append {α : Type} {a b a' b' : List α} (ha : a ⊆ a') (hb : b ⊆ b') :
    a ++ b ⊆ a' ++ b' :=
  List.append_subset.mpr
    ⟨List.subset_append_of_subset_left b' ha, List.subset_append_of_subset_right a' hb⟩

namespace Code
variable {c d : Code} {i : Int} {l : Label}

/-- How often the temporary `i` is set. -/
def setsTemp (i : Int) (code : Code) : Nat := code.countP fun x => x.Sets ⟨true, i⟩

theorem setsTemp_append (i : Int) (c d : Code) :
    setsTemp i (c ++ d) = setsTemp i c + setsTemp i d := List.countP_append

theorem setsTemp_singleton_le (i : Int) (x : Instr) : setsTemp i [x] ≤ 1 := List.countP_le_length

theorem setsTemp_pos_iff : 0 < setsTemp i c ↔ ∃ x ∈ c, x.Sets ⟨true, i⟩ := by
  rw [setsTemp, List.countP_pos_iff]
  simp only [decide_eq_true_eq]

/-- Once the marks are dropped, the temporary `i` is set and tested by the next instruction. -/
def TestedAtOnce (i : Int) (code : Code) : Prop :=
  ∃ x y, [x, y] <:+: code.dropNops.code ∧ x.Sets ⟨true, i⟩ ∧ y.TestsKey ⟨true, i⟩

theorem mem_of_mem_dropNops {x : Instr} (h : x ∈ c.dropNops.code) : x ∈ c :=
  (dropNops_sublist c).subset h

theorem not_testedAtOnce_singleton (x : Instr) : ¬ TestedAtOnce i [x] := by
  intro h
  obtain ⟨y, z, hyz, _⟩ := h
  have hle : 2 ≤ 1 := (hyz.sublist.trans (dropNops_sublist [x])).length_le
  omega

theorem TestedAtOnce.append (h : TestedAtOnce i (c ++ d)) : TestedAtOnce i c ∨ TestedAtOnce i d ∨
    ∃ x y, [x] <:+ c.dropNops.code ∧ y ∈ d ∧ x.Sets ⟨true, i⟩ ∧ y.TestsKey ⟨true, i⟩ := by
  obtain ⟨x, y, hxy, hset, htest⟩ := h
  rw [dropNops_append] at hxy
  rcases pair_infix_append hxy with hc | hd | ⟨hx, hy⟩
  · exact .inl ⟨x, y, hc, hset, htest⟩
  · exact .inr (.inl ⟨x, y, hd, hset, htest⟩)
  · have hmem := mem_of_mem_dropNops (hy.subset List.mem_cons_self)
    exact .inr (.inr ⟨x, y, hx, hmem, hset, htest⟩)

theorem TestedAtOnce.exists_test (h : TestedAtOnce i c) : ∃ y ∈ c, y.TestsKey ⟨true, i⟩ := by
  obtain ⟨x, y, hxy, _, htest⟩ := h
  exact ⟨y, mem_of_mem_dropNops (hxy.subset (List.mem_cons_of_mem x List.mem_cons_self)), htest⟩

def EndsInLabel (code : Code) : Prop := ∃ l, [.defineLabel l] <:+ code

theorem EndsInLabel.prepend (h : EndsInLabel d) (c : Code) : EndsInLabel (c ++ d) := by
  obtain ⟨l, hl⟩ := h
  exact ⟨l, hl.trans (List.suffix_append c d)⟩

theorem EndsInLabel.not_sets (h : EndsInLabel c) {x : Instr} (hx : [x] <:+ c.dropNops.code)
    {k : RegKey} : ¬ x.Sets k := by
  obtain ⟨l, a, rfl⟩ := h
  rw [dropNops_append] at hx
  obtain ⟨b, hb⟩ := hx
  cases List.append_inj_right' hb rfl
  exact Instr.not_sets rfl

/-- The code ends in a label, or it sets the temporary `i` once at most: a test right after it finds
one definition. -/
def TestReady (i : Int) (code : Code) : Prop := EndsInLabel code ∨ setsTemp i code ≤ 1

theorem TestReady.prepend (h : TestReady i d) (hc : setsTemp i c = 0) : TestReady i (c ++ d) := by
  rcases h with hlabel | hle
  · exact .inl (hlabel.prepend c)
  · refine .inr ?_
    rw [setsTemp_append]
    omega

/-- Temporaries in code that was lowered with `lo` of them handed out before and `hi` after: the
destination apart, it sets those that were handed out meanwhile, tests no others, and sets once what
it tests at once. -/
structure Owns (lo hi : Nat) (dst : Option Reg) (code : Code) : Prop where
  le : lo ≤ hi
  sets : ∀ i, 0 < code.setsTemp i → (lo ≤ i ∧ i < hi) ∨ i ∈ dst.map Reg.index
  tests : ∀ i, ∀ y ∈ code, y.TestsKey ⟨true, i⟩ → lo ≤ i ∧ i < hi
  once : ∀ i, code.TestedAtOnce i → code.setsTemp i ≤ 1
  ready : ∀ r ∈ dst, code.TestReady r.index

namespace Owns
variable {lo mid hi : Nat} {dst : Option Reg} {x : Instr} {op : Opcode} {v : Operand}
  {vs : List Operand} {r : Reg}

theorem nil (lo : Nat) : Owns lo lo none [] where
  le := Nat.le_refl lo
  sets _ hset := absurd hset (Nat.lt_irrefl 0)
  tests _ _ hy := absurd hy List.not_mem_nil
  once _ _ := Nat.zero_le 1
  ready _ hr := by cases hr

theorem setsTemp_eq_zero (h : Owns lo hi dst c) (hout : i < lo ∨ hi ≤ i)
    (hdst : ∀ r ∈ dst, r.index ≠ i) :
    setsTemp i c = 0 := by
  refine Nat.eq_zero_of_not_pos fun hset => ?_
  rcases h.sets i hset with hin | hmem
  · omega
  · obtain ⟨r, hr, hri⟩ := Option.mem_map.mp hmem
    exact hdst r hr hri

theorem widen (h : Owns lo hi none c) (hdst : ∀ r ∈ dst, r.index < lo) : Owns lo hi dst c where
  le := h.le
  sets i hset := .inl ((h.sets i hset).resolve_right nofun)
  tests := h.tests
  once := h.once
  ready r hr := by
    have hzero := h.setsTemp_eq_zero (.inl (hdst r hr)) nofun
    exact .inr (by omega)

theorem join (h : Owns lo mid dst c) (h' : Owns mid hi dst d) (hdst : ∀ r ∈ dst, r.index < lo)
    (hready : ∀ r ∈ dst, TestReady r.index (c ++ d)) : Owns lo hi dst (c ++ d) where
  le := Nat.le_trans h.le h'.le
  sets i hset := by
    have hle := h.le
    have hle' := h'.le
    rw [setsTemp_append] at hset
    rcases Nat.eq_zero_or_pos (setsTemp i c) with hzero | hpos
    · rcases h'.sets i (by omega) with hin | hmem
      · exact .inl (by omega)
      · exact .inr hmem
    · rcases h.sets i hpos with hin | hmem
      · exact .inl (by omega)
      · exact .inr hmem
  tests i y hy htest := by
    have hle := h.le
    have hle' := h'.le
    rcases List.mem_append.mp hy with hy | hy
    · have hin := h.tests i y hy htest
      omega
    · have hin := h'.tests i y hy htest
      omega
  once i hone := by
    have hle := h.le
    have hapart (hlo : lo ≤ i) : ∀ r ∈ dst, r.index ≠ i := by
      intro r hr
      have hlt := hdst r hr
      omega
    rw [setsTemp_append]
    rcases hone.append with hc | hd | ⟨x, y, hx, hy, hset, htest⟩
    · obtain ⟨y, hy, htest⟩ := hc.exists_test
      have hin := h.tests i y hy htest
      rw [h'.setsTemp_eq_zero (.inl hin.2) (hapart hin.1)]
      exact h.once i hc
    · obtain ⟨y, hy, htest⟩ := hd.exists_test
      have hin := h'.tests i y hy htest
      rw [h.setsTemp_eq_zero (.inr hin.1) (hapart (by omega)), Nat.zero_add]
      exact h'.once i hd
    -- at the seam a temporary would be set before it was handed out
    · have hin := h'.tests i y hy htest
      have hzero := h.setsTemp_eq_zero (.inr hin.1) (hapart (by omega))
      have hpos :=
        setsTemp_pos_iff.mpr ⟨x, mem_of_mem_dropNops (hx.subset List.mem_cons_self), hset⟩
      omega
  ready := hready

theorem append (h : Owns lo mid none c) (h' : Owns mid hi dst d) (hdst : ∀ r ∈ dst, r.index < lo) :
    Owns lo hi dst (c ++ d) :=
  (h.widen hdst).join h' hdst fun r hr =>
    (h'.ready r hr).prepend (h.setsTemp_eq_zero (.inl (hdst r hr)) nofun)

/-- Where several ways meet, all of them may have set the destination. -/
theorem meet (h : Owns lo mid dst c) (h' : Owns mid hi dst d) (hdst : ∀ r ∈ dst, r.index < lo)
    (hd : EndsInLabel d) :
    Owns lo hi dst (c ++ d) :=
  h.join h' hdst fun _ _ => .inl (hd.prepend c)

theorem cons (hx : x.Passive) (h : Owns lo hi dst c) : Owns lo hi dst (x :: c) := by
  have hsets (i : Int) : setsTemp i (x :: c) = setsTemp i c :=
    List.countP_cons_of_neg (by simpa using (hx i).1)
  refine ⟨h.le, fun i hset => h.sets i (hsets i ▸ hset), fun i y hy htest => ?_, fun i hone => ?_,
    fun r hr => ?_⟩
  · rcases List.mem_cons.mp hy with rfl | hy
    · exact absurd htest (hx i).2
    · exact h.tests i y hy htest
  · rw [hsets]
    rcases hone.append (c := [x]) with hc | hd | ⟨y, _, hy, _, hset, _⟩
    · exact absurd hc (not_testedAtOnce_singleton x)
    · exact h.once i hd
    · have hmem := mem_of_mem_dropNops (hy.subset List.mem_cons_self)
      rw [List.mem_singleton.mp hmem] at hset
      exact absurd hset (hx i).1
  · rcases h.ready r hr with hlabel | hle
    · exact .inl (hlabel.prepend [x])
    · exact .inr (hsets r.index ▸ hle)

theorem passive (hx : x.Passive) (lo : Nat) : Owns lo lo none [x] := (nil lo).cons hx

theorem into (hop : op.isDefinition = true) (lo : Nat) :
    Owns lo lo (some r) [.make op (.reg r :: vs)] where
  le := Nat.le_refl lo
  sets i hset := by
    obtain ⟨x, hx, hset⟩ := setsTemp_pos_iff.mp hset
    rw [List.mem_singleton.mp hx] at hset
    exact .inr (congrArg (fun k => some (RegKey.index k)) ((Instr.sets_into hop).mp hset))
  tests i y hy htest := by
    rw [List.mem_singleton.mp hy] at htest
    refine absurd htest (Instr.not_testsKey ⟨?_, ?_⟩)
    · rintro rfl
      cases hop
    · rintro rfl
      cases hop
  once _ _ := setsTemp_singleton_le _ _
  ready _ _ := .inr (setsTemp_singleton_le _ _)

theorem given (lo : Nat) : Owns lo lo dst (given dst v) := by
  cases dst with
  | none => exact nil lo
  | some r => exact into rfl lo

theorem call (lo : Nat) : Owns lo lo dst [.make .call (resultOf dst :: vs)] := by
  cases dst with
  | none =>
    refine passive (fun i => ⟨Instr.not_sets_make (fun h => by cases h), Instr.not_testsKey ?_⟩) lo
    exact ⟨Opcode.noConfusion, Opcode.noConfusion⟩
  | some r => exact into rfl lo

theorem orTemp {w : Width} {s s' : Frame} (hr : orTemp dst w s = .ok r s')
    (h : Owns s'.nextTemp hi (some r) c) :
    Owns s.nextTemp hi dst c := by
  rcases orTemp_eq_ok hr with ⟨rfl, rfl⟩ | ⟨rfl, ht⟩
  · exact h
  · obtain ⟨rfl, rfl⟩ := newTemp_eq_ok ht
    have hle := h.le
    simp only at hle
    refine ⟨by omega, fun i hset => ?_, fun i y hy htest => ?_, h.once, nofun⟩
    · rcases h.sets i hset with hin | hmem
      · simp only at hin
        exact .inl (by omega)
      · have hi : (s.nextTemp : Int) = i := Option.some.inj hmem
        exact .inl (by omega)
    · have hin := h.tests i y hy htest
      simp only at hin
      omega

theorem cons_into (hop : op.isDefinition = true) (h : Owns lo hi (some r) c)
    (hr : ∀ d ∈ some r, d.index < lo) (hc : EndsInLabel c) :
    Owns lo hi (some r) (.make op (.reg r :: vs) :: c) := (into hop lo).meet h hr hc

theorem cons_newTemp {w : Width} {s s' : Frame} (hop : op.isDefinition = true)
    (hr : newTemp w s = .ok r s') (h : Owns s'.nextTemp hi dst c)
    (hdst : ∀ d ∈ dst, d.index < s.nextTemp) :
    Owns s.nextTemp hi dst (.make op (.reg r :: vs) :: c) :=
  (show Owns s.nextTemp s'.nextTemp none _ from .orTemp hr (into hop _)).append h hdst

theorem test (h : Owns lo hi none c)
    (hv : ∀ r, v = .reg r → r.temp = true → (lo ≤ r.index ∧ r.index < hi) ∧ TestReady r.index c) :
    Owns lo hi none (c ++ [.make op [.label l, v]]) := by
  have hsets (i : Int) : setsTemp i [.make op [.label l, v]] = 0 := by
    refine Nat.eq_zero_of_not_pos fun hset => ?_
    obtain ⟨x, hx, hset⟩ := setsTemp_pos_iff.mp hset
    rw [List.mem_singleton.mp hx] at hset
    exact Instr.not_sets_make (fun h => by cases h) hset
  have htested {i : Int} {y : Instr} (hy : y ∈ [Instr.make op [.label l, v]])
      (htest : y.TestsKey ⟨true, i⟩) : (lo ≤ i ∧ i < hi) ∧ TestReady i c := by
    rw [List.mem_singleton.mp hy] at htest
    obtain ⟨r, hvr, hrk⟩ := Instr.exists_of_testsKey htest
    have hr := hv r hvr (congrArg RegKey.temp hrk)
    rwa [show r.index = i from congrArg RegKey.index hrk] at hr
  refine ⟨h.le, fun i hset => h.sets i ?_, fun i y hy htest => ?_, fun i hone => ?_, nofun⟩
  · rwa [setsTemp_append, hsets] at hset
  · rcases List.mem_append.mp hy with hy | hy
    · exact h.tests i y hy htest
    · exact (htested hy htest).1
  · rw [setsTemp_append, hsets]
    rcases hone.append with hc | hd | ⟨x, y, hx, hy, hset, htest⟩
    · exact h.once i hc
    · exact absurd hd (not_testedAtOnce_singleton _)
    · rcases (htested hy htest).2 with hlabel | hle
      · exact absurd hset (hlabel.not_sets hx)
      · exact hle

end Owns

end Code

@[simp] def Part.left? : Part → Option Reg
  | .fresh _ _ t => some t
  | .operand _ v => v.reg?
  | _ => none

section
variable {p : Part} {loop : Option Loop} {b : Body} {s s' : Frame} {c : Code}

theorem newTemp_index {w : Width} {t : Reg} (h : newTemp w s = .ok t s') :
    t.index = s.nextTemp ∧ s'.nextTemp = s.nextTemp + 1 := by
  obtain ⟨rfl, rfl⟩ := newTemp_eq_ok h
  exact ⟨rfl, rfl⟩

theorem orTemp_lt {dst : Option Reg} {w : Width} {d : Reg} (h : orTemp dst w s = .ok d s')
    (hdst : ∀ r ∈ dst, r.index < s.nextTemp) : d.index < s'.nextTemp := by
  rcases orTemp_eq_ok h with ⟨rfl, rfl⟩ | ⟨_, ht⟩
  · exact hdst d rfl
  · have ht' := newTemp_index ht
    omega

theorem Frame.Grows.below (h : s.Grows s') {dst : Option Reg}
    (hdst : ∀ r ∈ dst, r.index < s.nextTemp) :
    ∀ r ∈ dst, r.index < s'.nextTemp := by
  intro r hr
  have hlt := hdst r hr
  have hle := h.temps
  omega

/-- A part owns the temporaries that were handed out for it, and sets once what it leaves in one of
them unless it ends in a label. -/
theorem Lowers.owns (h : Lowers p s c s') (hs : s.Numbered)
    (hdst : ∀ r ∈ p.dst?, r.index < s.nextTemp) :
    c.Owns s.nextTemp s'.nextTemp p.dst? ∧ ∀ r ∈ p.left?, r.temp = true →
      (s.nextTemp ≤ r.index ∧ r.index < s'.nextTemp) ∧ c.TestReady r.index := by
  induction h with
  | atom he hv =>
    rw [(reads_of_atom? he hv).2.2]
    exact ⟨(Code.Owns.given _).cons (Instr.passive_mark _), nofun⟩
  | unary _ _ hd ihx | load _ hd ihx =>
    exact ⟨.cons (Instr.passive_mark _) ((ihx hs nofun).1.append (.orTemp hd (.into rfl _)) hdst),
      nofun⟩
  | binary _ hx _ hd ihx ihy =>
    have hx' := (ihx hs nofun).1
    have hy' := (ihy (hx.grows.numbered hs) nofun).1
    refine ⟨.cons (Instr.passive_mark _)
      (hx'.append (hy'.append (.orTemp hd (.into rfl _)) ?_) hdst), nofun⟩
    exact hx.grows.below hdst
  | chainOne _ ih => exact ⟨(ih hs hdst).1.cons (Instr.passive_mark _), nofun⟩
  | chain _ hx _ ihx iht =>
    have hx' := (ihx hs nofun).1
    have ht := (iht (hx.grows.numbered hs) (hx.grows.below hdst)).1
    exact ⟨(hx'.append ht hdst).cons (Instr.passive_mark _), nofun⟩
  | @all op es w dst d fin ct s s₁ s₂ s' _ hd hfin htests iht =>
    have hlt : ∀ r ∈ some d, r.index < s₁.nextTemp := fun r hr => by
      cases hr; exact orTemp_lt hd hdst
    have hlt' := ((newLabel_grows hfin).trans htests.grows).below hlt
    have ht := (iht (((orTemp_grows hd).trans (newLabel_grows hfin)).numbered hs) nofun).1
    rw [nextTemp_newLabel hfin] at ht
    have hend := (Code.Owns.passive (Instr.passive_defineLabel fin) _).widen hlt'
    -- the destination is set at both ends, and whatever is tested in between is not the destination
    refine ⟨.cons (Instr.passive_mark _) (.orTemp hd (.cons_into rfl (ht.append ?_ hlt) hlt ?_)),
      nofun⟩
    · exact .cons_into rfl hend hlt' ⟨fin, List.suffix_rfl⟩
    · exact ⟨fin, ct ++ [_], List.append_assoc ct _ _⟩
  | @any op es w dst d found fin ct s s₁ s₂ s₃ s' _ hd hfound hfin htests iht =>
    have hlabels := (newLabel_grows hfound).trans (newLabel_grows hfin)
    have hlt : ∀ r ∈ some d, r.index < s₁.nextTemp := fun r hr => by
      cases hr; exact orTemp_lt hd hdst
    have hlt' := (hlabels.trans htests.grows).below hlt
    have ht := (iht (((orTemp_grows hd).trans hlabels).numbered hs) nofun).1
    rw [nextTemp_newLabel hfin, nextTemp_newLabel hfound] at ht
    have hend := (((Code.Owns.passive (Instr.passive_defineLabel fin) _).cons
        (Instr.passive_defineLabel found)).cons (Instr.passive_jump fin)).widen hlt'
    refine ⟨.cons (Instr.passive_mark _) (.orTemp hd (.cons_into rfl (ht.append ?_ hlt) hlt ?_)),
      nofun⟩
    · exact .cons_into rfl hend hlt' ⟨fin, [_, _], rfl⟩
    · exact ⟨fin, ct ++ [_, _, _], List.append_assoc ct _ _⟩
  | @cond c a b w dst other fin cc ca cb s s₁ s₂ s₃ s₄ s' hc hother hfin ha hb ihc iha ihb =>
    have hlabels := (newLabel_grows hother).trans (newLabel_grows hfin)
    have hgrows := hc.grows.trans hlabels
    have hlt₃ := hgrows.below hdst
    have hlt₄ := ha.grows.below hlt₃
    have hc' := (ihc hs nofun).1
    have ha' := (iha (hgrows.numbered hs) hlt₃).1
    have hb' := (ihb ((hgrows.trans ha.grows).numbered hs) hlt₄).1
    have hlabel := (Code.Owns.passive (Instr.passive_defineLabel fin) _).widen (hb.grows.below hlt₄)
    have helse := ((hb'.meet hlabel hlt₄ ⟨fin, List.suffix_rfl⟩).cons
      (Instr.passive_defineLabel other)).cons (Instr.passive_jump fin)
    have hboth := ha'.meet helse hlt₃ ⟨fin, _ :: _ :: cb, rfl⟩
    rw [nextTemp_newLabel hfin, nextTemp_newLabel hother] at hboth
    exact ⟨(hc'.append hboth hdst).cons (Instr.passive_mark _), nofun⟩
  | call hcallee _ iha =>
    obtain ⟨_, _, _, hgrows, htemps⟩ := calleeOf_eq_ok hcallee
    have ha := (iha (hgrows.numbered hs) nofun).1
    rw [htemps] at ha
    exact ⟨(ha.append (.call _) hdst).cons (Instr.passive_mark _), nofun⟩
  | assignAtom he hr hv =>
    obtain ⟨hlookup, hgrows, htemps⟩ := regOf_eq_ok hr
    have hnamed := (hgrows.numbered hs).named hlookup
    rw [(reads_of_atom? he hv).2.2, htemps]
    exact ⟨.cons (Instr.passive_mark _) (.cons (Instr.passive_named hnamed) (.given _)), nofun⟩
  | assign _ hr _ ihx =>
    obtain ⟨hlookup, hgrows, htemps⟩ := regOf_eq_ok hr
    have hnamed := (hgrows.numbered hs).named hlookup
    have hx := (ihx (hgrows.numbered hs) nofun).1
    rw [htemps] at hx
    exact ⟨.cons (Instr.passive_mark _)
      (hx.append (.cons (Instr.passive_named hnamed) (.given _)) hdst), nofun⟩
  | @fresh e w t c s s₁ s' ht _ ih =>
    obtain ⟨hindex, hnext⟩ := newTemp_index ht
    have hx := (ih ((newTemp_grows ht).numbered hs) fun r hr => by cases hr; omega).1
    have hle := hx.le
    refine ⟨Code.Owns.orTemp ht hx, fun r hr _ => ?_⟩
    cases hr
    exact ⟨by omega, hx.ready t rfl⟩
  | operandAtom he hv =>
    obtain ⟨hreads, hgrows, htemps⟩ := reads_of_atom? he hv
    rw [htemps]
    refine ⟨.nil _, fun r hr htemp => ?_⟩
    have hnot : r.key ∉ Operand.keysOf [_] := hreads.not_mem_keysOf (hgrows.numbered hs) htemp
    cases hreads with
    | var =>
      cases hr
      exact absurd (Operand.mem_keysOf_reg.mpr rfl) hnot
    | num | str | funcRef => cases hr
  | operand _ _ ih => exact ih hs nofun
  | termsLast _ _ hd ihx =>
    exact ⟨(ihx hs nofun).1.append (.orTemp hd (.into rfl _)) hdst, nofun⟩
  | termsMore _ _ hx ht _ ihx iht =>
    have hgrows := hx.grows.trans (newTemp_grows ht)
    have ht' := (iht (hgrows.numbered hs) (hgrows.below hdst)).1
    exact ⟨(ihx hs nofun).1.append (.cons_newTemp rfl ht ht' (hx.grows.below hdst)) hdst, nofun⟩
  | testsNil | guardHole | argsNil => exact ⟨.nil _, nofun⟩
  | testsCons hx _ ihx iht =>
    obtain ⟨hx', hleft⟩ := ihx hs nofun
    refine ⟨?_, nofun⟩
    rw [List.append_cons]
    refine .append (hx'.test fun r hr => hleft r ?_) (iht (hx.grows.numbered hs) nofun).1 nofun
    rw [hr]
    rfl
  | guard _ _ ih =>
    obtain ⟨hx, hleft⟩ := ih hs nofun
    exact ⟨hx.test fun r hr => hleft r (by cases hr; rfl), nofun⟩
  | argsCons hx _ ihx ihs =>
    exact ⟨(ihx hs nofun).1.append (ihs (hx.grows.numbered hs) nofun).1 nofun, nofun⟩

theorem LowersBody.owns (h : LowersBody loop b s c s') (hs : s.Numbered) :
    c.Owns s.nextTemp s'.nextTemp none := by
  induction h with
  | hole | nil => exact .nil _
  | block _ ih => exact (ih hs).cons (Instr.passive_mark _)
  | expr hx => exact (hx.owns hs nofun).1.cons (Instr.passive_mark _)
  | store ha hx =>
    have ha' := (ha.owns hs nofun).1
    have hx' := (hx.owns (ha.grows.numbered hs) nofun).1
    exact .cons (Instr.passive_mark _)
      (ha'.append (hx'.append (.passive (Instr.passive_write _) _) nofun) nofun)
  | branch hc hfin _ iha =>
    have hc' := (hc.owns hs nofun).1
    have ha := iha ((hc.grows.trans (newLabel_grows hfin)).numbered hs)
    rw [nextTemp_newLabel hfin] at ha
    exact .cons (Instr.passive_mark _)
      (hc'.append (ha.append (.passive (Instr.passive_defineLabel _) _) nofun) nofun)
  | branchElse _ hc hfin hother ha _ iha ihb =>
    have hs₃ := (hc.grows.trans ((newLabel_grows hfin).trans (newLabel_grows hother))).numbered hs
    have hc' := (hc.owns hs nofun).1
    have ha' := iha hs₃
    have hb := ihb (ha.grows.numbered hs₃)
    rw [nextTemp_newLabel hother, nextTemp_newLabel hfin] at ha'
    refine .cons (Instr.passive_mark _) (hc'.append (ha'.append ?_ nofun) nofun)
    exact .cons (Instr.passive_jump _) (.cons (Instr.passive_defineLabel _)
      (hb.append (.passive (Instr.passive_defineLabel _) _) nofun))
  | whileLoop htop hfin hc _ ihb =>
    have hs₂ := ((newLabel_grows htop).trans (newLabel_grows hfin)).numbered hs
    have hc' := (hc.owns hs₂ nofun).1
    have hb := ihb (hc.grows.numbered hs₂)
    rw [nextTemp_newLabel hfin, nextTemp_newLabel htop] at hc'
    refine .cons (Instr.passive_mark _)
      (.cons (Instr.passive_defineLabel _) (hc'.append (hb.append ?_ nofun) nofun))
    exact .cons (Instr.passive_jump _) (.passive (Instr.passive_defineLabel _) _)
  | forLoop hstart htop hnext hfin hc hb _ ihstart ihb ihp =>
    have hlabels := (newLabel_grows htop).trans ((newLabel_grows hnext).trans (newLabel_grows hfin))
    have hs₄ := (hstart.grows.trans hlabels).numbered hs
    have hs₅ := hc.grows.numbered hs₄
    have hc' := (hc.owns hs₄ nofun).1
    rw [nextTemp_newLabel hfin, nextTemp_newLabel hnext, nextTemp_newLabel htop] at hc'
    refine .cons (Instr.passive_mark _) ((ihstart hs).append (.cons (Instr.passive_defineLabel _)
        (hc'.append ((ihb hs₅).append (.cons (Instr.passive_defineLabel _)
          ((ihp (hb.grows.numbered hs₅)).append ?_ nofun)) nofun) nofun)) nofun)
    exact .cons (Instr.passive_jump _) (.passive (Instr.passive_defineLabel _) _)
  | breakLoop | continueLoop =>
    exact .cons (Instr.passive_mark _) (.passive (Instr.passive_jump _) _)
  | retNone => exact .cons (Instr.passive_mark _) (.passive (Instr.passive_ret _) _)
  | ret _ hx =>
    exact .cons (Instr.passive_mark _)
      ((hx.owns hs nofun).1.append (.passive (Instr.passive_ret _) _) nofun)
  | cons hx _ ih ihs => exact (ih hs).append (ihs (hx.grows.numbered hs)) nofun

theorem LowersBody.owns_terminate (h : LowersBody loop b s c s') (hs : s.Numbered) :
    c.terminate.Owns s.nextTemp s'.nextTemp none := by
  unfold Code.terminate
  split
  · exact h.owns hs
  · exact (h.owns hs).append (.passive (Instr.passive_ret []) _) nofun

theorem Decl.setsTemp_of_lower {s : Session} {d : Decl} {f : Func} {fin : Frame}
    (h : d.lower ⟨s, 0, []⟩ = .ok (.ok f) fin) {i : Int} (hi : f.code.TestedAtOnce i) :
    f.code.setsTemp i ≤ 1 := by
  obtain ⟨ps, s₁, c, hdeclare, hbody, rfl⟩ := Decl.lower_eq_ok h
  have hstart : Frame.Numbered ⟨s, 0, []⟩ := fun i p hp => by cases hp
  exact (hbody.owns_terminate ((declare_eq_ok hdeclare).1.numbered hstart)).once i hi

end

theorem Instr.count_keys (x : Instr) (k : RegKey) :
    x.keys.count k = x.reads.count k + if x.Sets k then 1 else 0 := by
  cases hop : x.op.isDefinition with
  | false =>
    rw [if_neg (not_sets hop), reads, hop]
    rfl
  | true =>
    obtain ⟨op, args⟩ := x
    cases args with
    | nil =>
      rw [if_neg (fun h => by cases (sets_iff.mp h).2), reads, hop]
      rfl
    | cons a rest =>
      have hsets : Sets ⟨op, a :: rest⟩ k ↔
          Operand.keyAt? a = some k := sets_iff.trans (and_iff_right hop)
      rw [reads_cons hop, keys, List.filterMap_cons, if_congr hsets rfl rfl]
      cases Operand.keyAt? a with
      | none => rfl
      | some j => simp [List.count_cons]

namespace Code
variable {code : Code} {k : RegKey} {uses : RegKey → Nat} {x y : Instr} {f : Fold}

theorem occurrences_eq (code : Code) (k : RegKey) :
    code.occurrences k = code.reads.count k + code.countP fun x => x.Sets k := by
  induction code with
  | nil => rfl
  | cons x rest ih =>
    rw [occurrences_cons, ih, Instr.count_keys, reads_cons, List.count_append, List.countP_cons]
    simp only [decide_eq_true_eq]
    omega

theorem occurrences_eq_two {before after : Code} (hcode : code = before ++ x :: y :: after)
    (hx : x.Sets k) (hy : k ∈ y.reads) (hreads : code.reads.count k ≤ 1)
    (hsets : (code.countP fun x => x.Sets k) ≤ 1) :
    code.occurrences k = 2 ∧ k ∉ regKeys (before ++ after) := by
  have htotal := occurrences_eq code k
  have hsplit :
      code.occurrences k = occurrences (before ++ after) k + (x.keys.count k + y.keys.count k) := by
    rw [hcode]
    simp only [occurrences, regKeys_append, regKeys_cons, List.count_append]
    omega
  have hxpos : 0 < x.keys.count k := by
    rw [Instr.count_keys, if_pos hx]
    omega
  have hypos := List.count_pos_iff.mpr (y.reads_sublist_keys.subset hy)
  refine ⟨by omega, fun hmem => ?_⟩
  have hpos : 0 < occurrences (before ++ after) k := List.count_pos_iff.mpr hmem
  omega

theorem foldInto_eq_none (hx : x.op ≠ .brz ∧ x.op ≠ .bnz) (z : Instr) :
    z.foldInto uses x = .ok none := by
  have hnone : Opcode.folded? z.op x.op = none := by
    cases hop : Opcode.folded? z.op x.op with
    | none => rfl
    | some op => exact ((Opcode.folded?_eq_some hop).1.elim hx.1 hx.2).elim
  rw [Instr.foldInto, hnone]
  rfl

/-- Folding does not look across the start of an instruction that is no conditional branch. -/
theorem foldTestsWith_append_cons (hx : x.op ≠ .brz ∧ x.op ≠ .bnz) (c rest : Code) :
    foldTestsWith uses (c ++ x :: rest) = do
      let p ← foldTestsWith uses c
      let q ← foldTestsWith uses (x :: rest)
      return ⟨p.code ++ q.code, p.changed || q.changed⟩ := by
  fun_induction foldTestsWith uses c with
  | case1 y z more ihFolded ihNext =>
    rw [List.cons_append, List.cons_append, foldTestsWith]
    cases y.foldInto uses z with
    | error e => rfl
    | ok f? =>
      cases f? with
      | none =>
        change (foldTestsWith uses (z :: more ++ x :: rest) >>= _) =
          ((foldTestsWith uses (z :: more) >>= _) >>= _)
        rw [ihNext]
        simp only [bind_assoc, pure_bind]
        rfl
      | some f =>
        change (foldTestsWith uses (more ++ x :: rest) >>= _) =
          ((foldTestsWith uses more >>= _) >>= _)
        rw [ihFolded]
        simp only [bind_assoc, pure_bind, Bool.true_or, List.append_assoc]
  | case2 y =>
    rw [List.singleton_append, foldTestsWith, foldInto_eq_none hx]
    rfl
  | case3 => simp

theorem Rule.regKeys_subset {folding : Prop} {gone : Code → RegKey → Prop}
    {apart : Reg → Operand → Prop} {a b : Code} (h : Rule folding gone apart a b) :
    regKeys b ⊆ regKeys a := by
  intro k hk
  rw [regKeys_eq] at hk ⊢
  cases h with
  | keep | nop | unread | forward | foldDrop | foldKeep | source => grind [Instr.keys]

theorem Rewrites.regKeys_subset {folding : Prop} {gone : Code → RegKey → Prop}
    {apart : Reg → Operand → Prop} {new : Code} (h : Rewrites (Rule folding gone apart) code new) :
    regKeys new ⊆ regKeys code := by
  induction h with
  | nil => exact List.Subset.refl _
  | piece hrule _ ih =>
    rw [regKeys_append, regKeys_append]
    exact append_subset_append (Rule.regKeys_subset hrule) ih

theorem exists_foldTestsWith (uses : RegKey → Nat) (hwf : ∀ x ∈ code, x.WellFormed) :
    ∃ r, foldTestsWith uses code = .ok r ∧ regKeys r.code ⊆ regKeys code := by
  have hrule (x y : Instr) (f : Fold) (_ : [x, y] <:+: code) (hfolds : Instr.Folds uses x y f) :
      Rule True (fun _ _ => True) (fun _ _ => True) [x, y]
      (if f.keep then [x, f.branch] else [f.branch]) :=
    hfolds.rule (fun _ _ _ => trivial) fun _ _ _ _ _ => trivial
  obtain ⟨r, hr, hrewrites⟩ := foldTestsWith_rewrites hwf hrule
  exact ⟨r, hr, hrewrites.regKeys_subset⟩

theorem exists_foldTestsWith_pair {before after : Code}
    (hwf : ∀ z ∈ before ++ x :: y :: after, z.WellFormed) (hx : x.op ≠ .brz ∧ x.op ≠ .bnz)
    (hfold : x.foldInto uses y = .ok (some f)) (hkeep : f.keep = false) :
    ∃ r, foldTestsWith uses (before ++ x :: y :: after) = .ok r ∧
      regKeys r.code ⊆ regKeys before ++ (f.branch.keys ++ regKeys after) := by
  obtain ⟨p, hp, hbefore⟩ := exists_foldTestsWith uses fun z hz => hwf z (List.mem_append_left _ hz)
  obtain ⟨q, hq, hafter⟩ := exists_foldTestsWith uses fun z hz =>
    hwf z (List.mem_append_right before (List.mem_cons_of_mem x (List.mem_cons_of_mem y hz)))
  refine ⟨⟨p.code ++ f.branch :: q.code, p.changed || true⟩, ?_, ?_⟩
  · rw [foldTestsWith_append_cons hx, hp, foldTestsWith, hfold]
    change ((foldTestsWith uses after >>= _) >>= _) = _
    rw [hq, hkeep]
    rfl
  · rw [regKeys_append, regKeys_cons]
    exact append_subset_append hbefore (append_subset_append (List.Subset.refl _) hafter)

end Code

namespace Instr.Folds
variable {uses : RegKey → Nat} {x y : Instr} {f : Fold}

theorem op_ne (h : Folds uses x y f) : x.op ≠ .brz ∧ x.op ≠ .bnz := by
  obtain ⟨_, hm, _, _⟩ := h
  rcases hm with ⟨rfl, _⟩ | ⟨rfl | rfl, _⟩ <;> exact ⟨Opcode.noConfusion, Opcode.noConfusion⟩

theorem keys_branch_subset (h : Folds uses x y f) : f.branch.keys ⊆ x.reads := by
  obtain ⟨_, hm, _, _⟩ := h
  rw [reads_cons (Opcode.isDefinition_of_folds hm)]
  intro k hk
  obtain ⟨p, hp, hpk⟩ := List.mem_filterMap.mp hk
  rcases List.mem_cons.mp hp with rfl | hp
  · cases hpk
  · rw [List.mem_singleton.mp hp] at hpk
    exact List.mem_filterMap.mpr ⟨_, List.mem_cons_self, hpk⟩

theorem keep_eq_false (h : Folds uses x y f) {d : Reg} (hd : x.dst? = some d)
    (huses : uses d.key < 3) :
    f.keep = false := by
  obtain @⟨op, b, b', d', c, a, more, l, _, _, _, _⟩ := h
  obtain ⟨_, _, _, heq⟩ := dst?_eq_some_iff.mp hd
  cases heq
  exact decide_eq_false fun hkeep => Nat.not_lt.mpr hkeep.2 huses

theorem exists_dst (h : Folds uses x y f) : ∃ d, x.dst? = some d := by
  obtain ⟨_, hm, _, _⟩ := h
  exact ⟨_, dst?_eq_some_iff.mpr ⟨_, _, Opcode.isDefinition_of_folds hm, rfl⟩⟩

end Instr.Folds

/-- In lowered code without its marks, whatever is folded into the branch after it sets a temporary.
This stands in these two instructions and nowhere else, and is not read by the first of them, so
that the first is always dropped and the temporary is gone from the folded code. -/
theorem Session.lowerFunc_tests {s s' : Session} {d : Decl} {f : Func}
    (h : s.lowerFunc d = .ok (.ok f, s')) {before after : Code} {x y : Instr} {fold : Fold}
    (hcode : f.code.dropNops.code = before ++ x :: y :: after)
    (hfold : x.foldInto f.code.dropNops.code.occurrences y = .ok (some fold)) :
    ∃ t : Reg, t.temp = true ∧ x.dst? = some t ∧ y.Tests t ∧
      f.code.dropNops.code.occurrences t.key = 2 ∧
      t.key ∉ x.reads ∧ t.key ∉ Code.regKeys (before ++ after) ∧ fold.keep = false ∧
      ∃ r, f.code.dropNops.code.foldTests = .ok r ∧ t.key ∉ r.code.regKeys := by
  obtain ⟨hf, fin, hlower, _⟩ := lowerFunc_eq_ok h
  have hwf := (f.code.dropNops_trims.valid (Func.verified_iff.mp hf)).wellFormed
  have hread := (readOnce_of_lower hlower).of_sublist f.code.dropNops_sublist
  have hxy : [x, y] <:+: f.code.dropNops.code := ⟨before, after, by rw [hcode]; simp⟩
  have hx : x ∈ f.code.dropNops.code := hxy.subset List.mem_cons_self
  have hy : y ∈ f.code.dropNops.code := hxy.subset (List.mem_cons_of_mem x List.mem_cons_self)
  obtain ⟨f?, hf?, hfolds⟩ := (hwf x hx).foldInto_spec f.code.dropNops.code.occurrences (hwf y hy)
  replace hfolds := hfolds fold (Except.ok.inj (hf?.symm.trans hfold))
  obtain ⟨t, ht⟩ := hfolds.exists_dst
  have htemp := hread.temp_of_folds hx hfolds ht
  have hkey : t.key = ⟨true, t.index⟩ := by rw [Reg.key, htemp]
  have hsets : x.Sets t.key := congrArg (Option.map Reg.key) ht
  have htests : y.Tests t := hfolds.tests ht
  have hone : f.code.dropNops.code.countP (fun z => z.Sets t.key) ≤ 1 := by
    rw [hkey] at hsets ⊢
    refine Nat.le_trans (f.code.dropNops_sublist.countP_le)
      (Decl.setsTemp_of_lower hlower ⟨x, y, hxy, hsets, ?_⟩)
    rw [← hkey]
    exact htests
  have hreads : t.key ∈ y.reads := by
    rw [(hfolds.reads_eq ht).2]
    exact List.mem_cons_self
  obtain ⟨htwo, hothers⟩ :=
    Code.occurrences_eq_two hcode hsets hreads (hread.count_reads_le htemp) hone
  have hsource := hread.not_mem_reads hxy hfolds ht
  have hkeep := hfolds.keep_eq_false ht (by omega)
  rw [hcode] at hwf
  obtain ⟨r, hr, hkeys⟩ := Code.exists_foldTestsWith_pair hwf hfolds.op_ne hfold hkeep
  rw [← hcode] at hr
  refine ⟨t, htemp, ht, htests, htwo, hsource, hothers, hkeep, r, hr, fun hmem => ?_⟩
  rw [Code.regKeys_append, List.mem_append, not_or] at hothers
  rcases List.mem_append.mp (hkeys hmem) with hbefore | hrest
  · exact hothers.1 hbefore
  · rcases List.mem_append.mp hrest with hbranch | hafter
    · exact hsource (hfolds.keys_branch_subset hbranch)
    · exact hothers.2 hafter

/-- A branch on the negation of a conjunction, which begins with a comparison. -/
def Decl.guarded : Decl :=
  let x := Sample.local32 0 "x"
  let both : Expr := .logic "&&" [Sample.cmp "!=" (.var x) (Sample.lit 0), .var x] .bool
  Sample.decl "guarded" .i32 [x] [
    .branch (.unary "!" both .bool) (.ret (Sample.lit 1)) .hole,
    .ret (Sample.lit 0)]

theorem Session.lowerFunc_tests_guarded : ∃ f s' before x y after fold,
    Session.empty.lowerFunc .guarded = .ok (.ok f, s') ∧
      f.code.dropNops.code = before ++ x :: y :: after ∧
      x.foldInto f.code.dropNops.code.occurrences y = .ok (some fold) ∧ x.op = .bin .neq ∧
      ∃ t : Reg, t.temp = true ∧ x.dst? = some t ∧ y.Tests t ∧
        f.code.dropNops.code.occurrences t.key = 2 ∧
        t.key ∉ x.reads ∧ t.key ∉ Code.regKeys (before ++ after) ∧ fold.keep = false ∧
        ∃ r, f.code.dropNops.code.foldTests = .ok r ∧ t.key ∉ r.code.regKeys := by
  obtain ⟨f, s', before, x, y, after, fold, hlower, hcode, hfold, hop⟩ :
      ∃ f s' before x y after fold, Session.empty.lowerFunc .guarded = .ok (.ok f, s') ∧
      f.code.dropNops.code = before ++ x :: y :: after ∧
      x.foldInto f.code.dropNops.code.occurrences y = .ok (some fold) ∧ x.op = .bin .neq :=
    ⟨_, _, [_], _, _, _, _, rfl, rfl, rfl, rfl⟩
  exact ⟨f, s', before, x, y, after, fold, hlower, hcode, hfold, hop,
    lowerFunc_tests hlower hcode hfold⟩

end ThreeAddress
