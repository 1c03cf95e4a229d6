import ThreeAddress.Proofs.Equivariance
import ThreeAddress.Proofs.Isolation
import ThreeAddress.Proofs.UnchainedLowering

/-!
# Programs without chains

The pipeline renumbers temporaries in the order of the code, so that code which is the same under a
pairing ends as the same code (`Pairing.runFunc_eq`). A file is therefore compiled to the same
program whether its sums are chains or nested operations (`compile_unchained`).
-/

namespace ThreeAddress
set_option autoImplicit false

open LowerM

namespace Label

/-- Numbers that count up from zero leave room for those below zero. -/
def spread (l : Label) : Label := ⟨if 0 ≤ l.handle then 2 * l.handle else -2 * l.handle - 1⟩

theorem spread_nonneg (l : Label) : 0 ≤ l.spread.handle := by
  unfold spread
  simp only
  split <;> omega

theorem spread_injective : Function.Injective spread := by
  intro l m h
  have hhandle := congrArg handle h
  unfold spread at hhandle
  simp only at hhandle
  apply congrArg mk
  split at hhandle <;> split at hhandle <;> omega

end Label

def Renaming.ofTemps (temp : Int → Int) (h : Function.Injective temp) : Renaming :=
  ⟨Label.spread, temp, fun _ old => old, Label.spread_injective, Label.spread_nonneg, h⟩

open Classical in
/-- Linked temporaries can be brought together, and the others kept apart. -/
theorem Pairing.exists_joins {s t : Frame} (P : Pairing s t) :
    ∃ f g hf hg, Renaming.Joins P.links (.ofTemps f hf) (.ofTemps g hg) := by
  let f : Int → Int := fun i => if h : ∃ j, P.links i j then 2 * h.choose else 2 * i + 1
  have hlinked {i j : Int} (hij : P.links i j) : f i = 2 * j := by
    have hex : ∃ j, P.links i j := ⟨j, hij⟩
    simp only [f, dif_pos hex, P.right_unique hex.choose_spec hij]
  have hfree {i : Int} (hi : ¬ ∃ j, P.links i j) : f i = 2 * i + 1 := dif_neg hi
  refine ⟨f, (2 * ·), fun i i' h => ?_, fun j j' h => by simp only at h; omega, rfl, hlinked⟩
  by_cases hi : ∃ j, P.links i j <;> by_cases hi' : ∃ j, P.links i' j
  · obtain ⟨j, hij⟩ := hi
    obtain ⟨j', hij'⟩ := hi'
    rw [hlinked hij, hlinked hij'] at h
    have hj : j = j' := by omega
    exact P.left_unique hij (hj ▸ hij')
  · obtain ⟨j, hij⟩ := hi
    rw [hlinked hij, hfree hi'] at h
    omega
  · obtain ⟨j', hij'⟩ := hi'
    rw [hfree hi, hlinked hij'] at h
    omega
  · rw [hfree hi, hfree hi'] at h
    omega

section
variable {ρ : Renaming} (hname : ∀ i, Function.Injective (ρ.name i))
include hname

theorem Reg.rename_injective : Function.Injective (Reg.rename ρ) := by
  intro r r' h
  obtain ⟨i, w, temp, n⟩ := r
  obtain ⟨i', w', temp', n'⟩ := r'
  cases temp <;> cases temp' <;> simp [rename] at h
  · obtain ⟨rfl, rfl, hn⟩ := h
    rw [hname i hn]
  · obtain ⟨hi, rfl, rfl⟩ := h
    rw [ρ.temp_injective hi]

theorem Operand.rename_injective : Function.Injective (Operand.rename ρ) := by
  intro a b h
  cases a <;> cases b <;> simp [rename] at h
  case reg.reg r r' => rw [Reg.rename_injective hname h]
  case label.label l m => rw [ρ.label_injective h]
  case callee.callee l w m w' => rw [ρ.label_injective h.1, h.2]
  all_goals simp [h]

theorem Code.rename_injective : Function.Injective (Code.rename ρ) := by
  refine List.map_injective_iff.mpr fun x y h => ?_
  obtain ⟨op, args⟩ := x
  obtain ⟨op', args'⟩ := y
  obtain ⟨hop, hargs⟩ := Instr.mk.inj h
  exact congrArg₂ Instr.mk hop
    (List.map_injective_iff.mpr (Option.map_injective (Operand.rename_injective hname)) hargs)

end

theorem Code.exists_finished {code : Code} {r t : Simplified} (hr : code.foldTests = .ok r)
    (ht : r.code.testSources = .ok t) (hv : Valid t.code) (ρ : Renaming) :
    ∃ r' t', (Code.rename ρ code).foldTests = .ok r' ∧ r'.code.testSources = .ok t' ∧
        rounded^[3] t'.code = Code.rename ρ.onlyNames (rounded^[3] t.code) := by
  refine ⟨r.rename ρ, t.rename ρ, ?_, ?_, iterate_rounded_rename ρ hv 2⟩
  · rw [foldTests_rename, hr]
    rfl
  · have hsame := testSources_rename ρ r.code
    rw [ht] at hsame
    exact hsame

namespace Pairing
variable {s t : Frame} {P : Pairing s t}

theorem runFunc_eq {f f' : Func} (hf : Code.Valid f.code) (hf' : Code.Valid f'.code)
    (h : P.SameCode f.code f'.code) :
    ∃ c, Pipeline.standard.runFunc f = .ok ({ f with code := c }, .ok ()) ∧
      Pipeline.standard.runFunc f' = .ok ({ f' with code := c }, .ok ()) := by
  obtain ⟨τ, τ', hτ, hτ', hjoins⟩ := P.exists_joins
  obtain ⟨r, u, hr, hu, hvalid, hrun⟩ := Pipeline.runFunc_eq_iterate hf
  obtain ⟨r', u', hr', hu', hvalid', hrun'⟩ := Pipeline.runFunc_eq_iterate hf'
  obtain ⟨q, v, hq, hv, hfinished⟩ := Code.exists_finished hr hu hvalid (.ofTemps τ hτ)
  obtain ⟨q', v', hq', hv', hfinished'⟩ := Code.exists_finished hr' hu' hvalid' (.ofTemps τ' hτ')
  rw [h _ _ hjoins] at hq
  cases hq.symm.trans hq'
  cases hv.symm.trans hv'
  have hsame : Code.rounded^[3] u'.code = Code.rounded^[3] u.code := by
    apply Code.rename_injective (ρ := (Renaming.ofTemps τ hτ).onlyNames) fun _ =>
      Function.injective_id
    rw [← hfinished, hfinished']
    rfl
  exact ⟨_, hrun, hsame ▸ hrun'⟩

theorem SameCode.isTerminated_eq {c c' : Code} (h : P.SameCode c c') :
    c.isTerminated = c'.isTerminated := by
  have hterm (c : Code) :
      c.isTerminated = (c.dropNops.code.getLast?.map Instr.op).any Opcode.isTerminator := by
    unfold Code.isTerminated
    change _ = ((c.filter (·.op ≠ .nop)).getLast?.map Instr.op).any Opcode.isTerminator
    cases (c.filter (·.op ≠ .nop)).getLast? <;> rfl
  have hop (ρ : Renaming) (c : Code) :
      (Code.rename ρ c).getLast?.map Instr.op = c.getLast?.map Instr.op := by
    rw [Code.rename, List.getLast?_map, Option.map_map]
    rfl
  obtain ⟨τ, τ', hτ, hτ', hjoins⟩ := P.exists_joins
  rw [hterm, hterm, ← hop (.ofTemps τ hτ), h _ _ hjoins, hop]

theorem SameCode.terminate {c c' : Code} (h : P.SameCode c c') :
    P.SameCode c.terminate c'.terminate := by
  unfold Code.terminate
  rw [h.isTerminated_eq]
  split
  · exact h
  · exact h.append (.make .nil .ret Opcode.noConfusion .nil)

end Pairing

def Pairing.start {s : Frame} (hs : s.Numbered) : Pairing s s where
  links _ _ := False
  session := rfl
  vars := rfl
  numbered := hs
  bound := False.elim
  left_unique := False.elim
  right_unique := False.elim

/-- Without chains a function is lowered in the same session to what the pipeline takes to the same
function. -/
theorem Session.exists_lowerFunc_unchained {s s' : Session} {d : Decl} {f : Func}
    (h : s.lowerFunc d = .ok (.ok f, s')) :
    ∃ f', s.lowerFunc d.unchained = .ok (.ok f', s') ∧
      ∃ g, Pipeline.standard.runFunc f = .ok (g, .ok ()) ∧
        Pipeline.standard.runFunc f' = .ok (g, .ok ()) := by
  obtain ⟨_, fin, hlower, hs'⟩ := lowerFunc_eq_ok h
  obtain ⟨ps, s₁, c, hdeclare, hc, hf⟩ := Decl.lower_eq_ok_iff.mp hlower
  have hsound : StmtAt.Sound ⟨d.stmt.unchained, false⟩ :=
    StmtAt.sound_unchained _ ((Stmt.lowerable d.stmt none).of_ok hc).1
  obtain ⟨c', fin', hc'⟩ := (Stmt.lowerable d.stmt.unchained none).exists_ok hsound s₁
  have hlower' : d.unchained.lower ⟨s, 0, []⟩ =
      .ok (.ok ⟨d.header.name, d.header.ret, ps, c'.terminate⟩) fin' := by
    refine Decl.lower_eq_ok_iff.mpr ⟨ps, s₁, c', hdeclare, ?_, rfl⟩
    rw [Decl.stmt_unchained]
    exact hc'
  have hnumbered : s₁.Numbered := (declare_eq_ok hdeclare).1.numbered (fun i p hp => by cases hp)
  obtain ⟨P, _, hsame⟩ :=
    (d.stmt.lowers hc).mirrors (Pairing.start hnumbered) (d.stmt.unchained.lowers hc')
  subst hf
  obtain ⟨code, hrun, hrun'⟩ :=
    Pairing.runFunc_eq (Decl.valid_of_lower hlower) (Decl.valid_of_lower hlower') hsame.terminate
  refine ⟨_, ?_, _, hrun, hrun'⟩
  rw [lowerFunc_of_lower hlower', P.session, hs']

theorem Session.Calls.exists_unchained {s s' : Session} {calls : List Call} (h : s.Calls calls s')
    (hok : ∀ k ∈ calls, k.failure? = none) : ∃ calls' fates, s.Calls calls' s' ∧
      calls'.map (fun k => some k.decl) = File.unchained (calls.map fun k => some k.decl) ∧
      List.Forall₂ (Call.Meets .standard) calls fates ∧
      List.Forall₂ (Call.Meets .standard) calls' fates ∧
      ∀ fate ∈ fates, ∃ g, fate = .compiled g := by
  induction h with
  | nil s => exact ⟨[], [], .nil s, rfl, .nil, .nil, List.forall_mem_nil _⟩
  | @cons _ _ _ d r calls hcall _ ih =>
    obtain ⟨hfirst, hrest⟩ := List.forall_mem_cons.mp hok
    cases r with
    | error e => cases hfirst
    | ok f =>
      obtain ⟨f', hcall', g, hrun, hrun'⟩ := exists_lowerFunc_unchained hcall
      obtain ⟨calls', fates, hcalls', hdecls, hmeets, hmeets', hcompiled⟩ := ih hrest
      refine ⟨_, .compiled g :: fates, .cons hcall' hcalls', ?_, .cons (.compiled rfl hrun) hmeets,
        .cons (.compiled rfl hrun') hmeets', List.forall_mem_cons.mpr ⟨⟨g, rfl⟩, hcompiled⟩⟩
      rw [List.map_cons, hdecls]
      rfl

/-- A file all of whose functions are lowered is so without chains, and is compiled to the same
program. -/
theorem compile_unchained {file : File} {p : Program} (h : Program.lower file = .ok (p, none)) :
    (∃ p', Program.lower file.unchained = .ok (p', none)) ∧
      ∃ q, compile file = .ok (some q, none) ∧ compile file.unchained = .ok (some q, none) := by
  obtain ⟨calls, s, hcalls, rfl, _, herr⟩ := Program.lower_eq_ok_iff.mp h
  have hok : ∀ k ∈ calls, k.failure? = none :=
    List.filterMap_eq_nil_iff.mp (Report.err_eq_none_iff.mp herr.symm)
  obtain ⟨calls', fates, hcalls', hdecls, hmeets, hmeets', hcompiled⟩ := hcalls.exists_unchained hok
  have hempty := (Fate.report_eq_nil_iff fates).mpr hcompiled
  have hcompile := compileWith_eq_ok_iff.mpr ⟨calls, s, fates, hcalls, rfl, hmeets, rfl⟩
  have hcompile' := compileWith_eq_ok_iff.mpr ⟨calls', s, fates, hcalls', hdecls.symm, hmeets', rfl⟩
  rw [hempty] at hcompile hcompile'
  refine ⟨⟨_, Program.lower_eq_ok_iff.mpr ⟨calls', s, hcalls', hdecls.symm, rfl, ?_⟩⟩, _,
    hcompile, hcompile'⟩
  rw [filterMap_failure?_eq hmeets', (List.append_eq_nil_iff.mp hempty).1]
  rfl

/-- Sums inside of sums, and a call between them. -/
def Decl.sums : Decl :=
  let n := Sample.local32 0 "n"
  let half : FuncRef := ⟨"half", .i32, [.i32]⟩
  Sample.decl "sums" .i32 [n] [
    .ret (.chain (Sample.bin "*" (.var n) (.var n)) [
      ("-",
        .chain (.var n) [("+", Sample.bin "*" (.var n) (Sample.lit 2)), ("-", Sample.lit 1)] .i32),
      ("+", .call (some half) [.chain (.var n) [("+", Sample.lit 1)] .i32]),
      ("-", .chain (.var n) [] .i32)] .i32)]

/-- Lowered code shows how the sums were written, and compiled code does not. -/
theorem compile_unchained_sums :
    (Program.lower [some .sums]).toOption.map (·.1.funcs) ≠
      (Program.lower (File.unchained [some .sums])).toOption.map (·.1.funcs) ∧
      ∃ p, Program.lower [some .sums] = .ok (p, none) ∧
        (∃ p', Program.lower (File.unchained [some .sums]) = .ok (p', none)) ∧
        ∃ q, compile [some .sums] = .ok (some q, none) ∧
          compile (File.unchained [some .sums]) = .ok (some q, none) := by
  refine ⟨by decide +kernel, ?_⟩
  have hempty : ((Program.lower [some .sums]).toOption.any fun r => r.2.isNone) = true := by
    decide +kernel
  cases h : Program.lower [some .sums] with
  | error e =>
    rw [h] at hempty
    cases hempty
  | ok r =>
    obtain ⟨p, err⟩ := r
    rw [h] at hempty
    cases Option.isNone_iff_eq_none.mp hempty
    exact ⟨p, rfl, compile_unchained h⟩

end ThreeAddress
