import ThreeAddress.Proofs.Filtering
import ThreeAddress.Proofs.Independence

/-!
# Failures stay where they are

Compilation tries every function of a tree at both stages, whatever happened to the others. Each
function meets one `Fate`, which depends on the function as it was lowered and on the passes, and on
nothing else. The program has the functions that got through both stages, and the report the others,
once each (`compileWith_isolates`). This is so as long as nothing is missing that has to be read: a
gap in the tree ends the compilation of all functions (`compileWith_not_total`).

The passes of this library fail on no function that was lowered, so that all failures are failures
of lowering (`verified_of_passes`).
-/

namespace ThreeAddress
set_option autoImplicit false

open LowerM

/-- What becomes of a function in a compilation. -/
inductive Fate where
  /-- It could not be lowered. -/
  | rejected (e : FuncError)
  /-- It was lowered, and a pass failed on it. -/
  | dropped (e : FuncError)
  | compiled (g : Func)

namespace Fate

def func? : Fate → Option Func
  | compiled g => some g
  | _ => none

def rejection? : Fate → Option FuncError
  | rejected e => some e
  | _ => none

def drop? : Fate → Option FuncError
  | dropped e => some e
  | _ => none

end Fate

/-- The fate of a function that was lowered, or was tried to. Each error goes under the name of the
function that it was found in, which is the function as the passes have left it. -/
inductive Call.Meets (pl : Pipeline (Except Fault)) (k : Call) : Fate → Prop where
  | rejected {e : Error} : k.result = .error e → Meets pl k (.rejected ⟨k.decl.header.name, e⟩)
  | dropped {f g : Func} {e : Error} : k.result = .ok f → pl.runFunc f = .ok (g, .error e) →
    Meets pl k (.dropped ⟨g.name, e⟩)
  | compiled {f g : Func} : k.result = .ok f → pl.runFunc f = .ok (g, .ok ()) →
      Meets pl k (.compiled g)

/-- A parameter is missing, and no parameter before it comes twice. -/
def Decl.HasGap (d : Decl) : Prop :=
  ∃ (before : List Var) (after : List (Option Var)),
    d.header.params = before.map some ++ none :: after ∧ (before.map Var.id).Nodup

theorem Decl.not_hasGap {d : Decl} (h : none ∉ d.header.params) : ¬ d.HasGap := by
  rintro ⟨before, after, hparams, _⟩
  exact h (hparams ▸ List.mem_append_right _ List.mem_cons_self)

/-- The functions are there, and so is all that is read of them. -/
def File.Whole (file : File) : Prop := ∀ x ∈ file, ∃ d, x = some d ∧ ¬ d.HasGap

namespace Pass

/-- The pass does not fault. It may fail, and what it leaves is related to what it was given. -/
def Answers (Q : Func → Func → Prop) (p : Pass (Except Fault)) : Prop :=
  ∀ f, ∃ g r, p.run f = .ok (g, r) ∧ Q f g

variable {Q : Func → Func → Prop} (hrefl : ∀ f, Q f f) (htrans : ∀ {f g h}, Q f g → Q g h → Q f h)
include hrefl htrans

theorem runAll_answers {ps : List (Pass (Except Fault))} (hps : ∀ p ∈ ps, p.Answers Q) (f : Func) :
    ∃ g r, runAll ps f = .ok (g, r) ∧ Q f g := by
  induction ps generalizing f with
  | nil => exact ⟨f, .ok false, rfl, hrefl f⟩
  | cons p ps ih =>
    obtain ⟨hp, hps⟩ := List.forall_mem_cons.mp hps
    obtain ⟨g, r, hrun, hfg⟩ := hp f
    have hnamed : p.runNamed f = .ok (g, r.mapError (·.within (.pass p.name))) := by
      rw [runNamed, hrun]
      rfl
    rw [runAll, hnamed]
    cases r with
    | error e => exact ⟨g, _, rfl, hfg⟩
    | ok changed =>
      obtain ⟨h, r, hrest, hgh⟩ := ih hps g
      refine ⟨h, r.map (changed || ·), ?_, htrans hfg hgh⟩
      change (runAll ps g >>= _) = _
      rw [hrest]
      rfl

end Pass

namespace Pipeline
variable {pl : Pipeline (Except Fault)} {Q : Func → Func → Prop}

def Answers (Q : Func → Func → Prop) (pl : Pipeline (Except Fault)) : Prop :=
  ∀ p ∈ pl.setup ++ pl.iter, p.Answers Q

section
variable (hrefl : ∀ f, Q f f) (htrans : ∀ {f g h}, Q f g → Q g h → Q f h)
include hrefl htrans

theorem rounds_answers (hiter : ∀ p ∈ pl.iter, p.Answers Q) (n : Nat) (f : Func) :
    ∃ g r, pl.rounds n f = .ok (g, r) ∧ Q f g := by
  induction n generalizing f with
  | zero => exact ⟨f, .ok (), rfl, hrefl f⟩
  | succ n ih =>
    obtain ⟨g, r, hround, hfg⟩ := Pass.runAll_answers hrefl htrans hiter f
    change pl.round f = _ at hround
    rw [rounds, hround]
    cases r with
    | error e => exact ⟨g, _, rfl, hfg⟩
    | ok changed =>
      cases changed with
      | false => exact ⟨g, _, rfl, hfg⟩
      | true =>
        obtain ⟨h, r, hrest, hgh⟩ := ih g
        exact ⟨h, r, hrest, htrans hfg hgh⟩

theorem runFunc_answers (hpl : pl.Answers Q) (f : Func) :
    ∃ g r, pl.runFunc f = .ok (g, r) ∧ Q f g := by
  obtain ⟨hsetup, hiter⟩ := List.forall_mem_append.mp hpl
  obtain ⟨g, r, hrun, hfg⟩ := Pass.runAll_answers hrefl htrans hsetup f
  rw [runFunc, hrun]
  cases r with
  | error e => exact ⟨g, _, rfl, hfg⟩
  | ok changed =>
    obtain ⟨h, r, hrest, hgh⟩ := rounds_answers hrefl htrans hiter pl.roundLimit g
    exact ⟨h, r, hrest, htrans hfg hgh⟩

end

theorem runFuncs_eq_ok_iff {calls : List Call} {gs : List Func} {report : Report} :
    pl.runFuncs (calls.filterMap Call.func?) = .ok (gs, report) ↔
      ∃ fates, List.Forall₂ (Call.Meets pl) calls fates ∧
      gs = fates.filterMap Fate.func? ∧ report = fates.filterMap Fate.drop? := by
  induction calls generalizing gs report with
  | nil =>
    constructor
    · intro h
      cases h
      exact ⟨[], .nil, rfl, rfl⟩
    · intro h
      obtain ⟨fates, hfates, rfl, rfl⟩ := h
      cases hfates
      rfl
  | cons k calls ih =>
    obtain ⟨s, d, result, s'⟩ := k
    cases result with
    | error e =>
      change pl.runFuncs (calls.filterMap Call.func?) = _ ↔ _
      rw [ih]
      constructor
      · intro h
        obtain ⟨fates, hfates, rfl, rfl⟩ := h
        exact ⟨_, .cons (.rejected rfl) hfates, rfl, rfl⟩
      · intro h
        obtain ⟨fates, hfates, rfl, rfl⟩ := h
        cases hfates with
        | cons hfate hfates =>
          cases hfate with
          | rejected => exact ⟨_, hfates, rfl, rfl⟩
          | dropped hf | compiled hf => cases hf
    | ok f =>
      change (pl.runFunc f >>= fun _ => _) = _ ↔ _
      rw [Fault.bind_eq_ok_iff]
      constructor
      · intro h
        obtain ⟨⟨g, r⟩, hrun, h⟩ := h
        obtain ⟨⟨hs, rest⟩, hrest, h⟩ := Fault.bind_eq_ok_iff.mp h
        obtain ⟨fates, hfates, rfl, rfl⟩ := ih.mp hrest
        cases r with
        | ok _ =>
          cases h
          exact ⟨_, .cons (.compiled rfl hrun) hfates, rfl, rfl⟩
        | error e =>
          cases h
          exact ⟨_, .cons (.dropped rfl hrun) hfates, rfl, rfl⟩
      · intro h
        obtain ⟨fates, hfates, rfl, rfl⟩ := h
        cases hfates with
        | cons hfate hfates =>
          have hrest := ih.mpr ⟨_, hfates, rfl, rfl⟩
          cases hfate with
          | rejected he => cases he
          | dropped hf hrun | compiled hf hrun =>
            cases hf
            exact ⟨_, hrun, Fault.bind_eq_ok_iff.mpr ⟨_, hrest, rfl⟩⟩

end Pipeline

section
variable {pl : Pipeline (Except Fault)} {calls : List Call} {fates : List Fate}

theorem Call.Meets.failure?_eq {k : Call} {fate : Fate} (h : k.Meets pl fate) :
    k.failure? = fate.rejection? := by
  unfold failure?
  cases h with
  | rejected hresult | dropped hresult | compiled hresult =>
    rw [hresult]
    rfl

theorem filterMap_failure?_eq (h : List.Forall₂ (Call.Meets pl) calls fates) :
    calls.filterMap Call.failure? = fates.filterMap Fate.rejection? := by
  induction h with
  | nil => rfl
  | cons hfate _ ih => rw [List.filterMap_cons, List.filterMap_cons, hfate.failure?_eq, ih]

theorem Call.exists_meets (hpl : pl.Answers fun _ _ => True) (k : Call) :
    ∃ fate, k.Meets pl fate := by
  cases hresult : k.result with
  | error e => exact ⟨_, .rejected hresult⟩
  | ok f =>
    obtain ⟨g, r, hrun, _⟩ := Pipeline.runFunc_answers (fun _ => trivial) (fun _ _ => trivial) hpl f
    cases r with
    | ok _ => exact ⟨_, .compiled hresult hrun⟩
    | error e => exact ⟨_, .dropped hresult hrun⟩

theorem exists_fates (hpl : pl.Answers fun _ _ => True) (calls : List Call) :
    ∃ fates, List.Forall₂ (Call.Meets pl) calls fates := by
  induction calls with
  | nil => exact ⟨[], .nil⟩
  | cons k calls ih =>
    obtain ⟨fate, hfate⟩ := k.exists_meets hpl
    obtain ⟨fates, hfates⟩ := ih
    exact ⟨fate :: fates, .cons hfate hfates⟩

/-- The report makes up for what the program lacks. -/
theorem Fate.length_eq (fates : List Fate) : (fates.filterMap func?).length +
    (fates.filterMap rejection? ++ fates.filterMap drop?).length = fates.length := by
  induction fates with
  | nil => rfl
  | cons fate fates ih =>
    rw [List.length_append] at ih ⊢
    cases fate with
    | rejected | dropped | compiled =>
      simp only [List.filterMap_cons, func?, rejection?, drop?, List.length_cons]
      omega

theorem Fate.report_eq_nil_iff (fates : List Fate) :
    fates.filterMap rejection? ++ fates.filterMap drop? = [] ↔
      ∀ fate ∈ fates, ∃ g, fate = .compiled g := by
  rw [List.append_eq_nil_iff, List.filterMap_eq_nil_iff, List.filterMap_eq_nil_iff, ← forall₂_and]
  refine forall₂_congr fun fate _ => ?_
  cases fate with
  | rejected | dropped | compiled => simp [rejection?, drop?]

end

theorem Report.err_eq_none_iff {r : Report} : r.err = none ↔ r = [] := by
  cases r with
  | nil => simp [Report.err]
  | cons e r => simp [Report.err]

/-- A compilation that gives a result is the compilation of each function. -/
theorem compileWith_eq_ok_iff {pl : Pipeline (Except Fault)} {file : File}
    {out : Option Program × Option Failure} :
    compileWith pl file = .ok out ↔ ∃ calls s fates, Session.empty.Calls calls s ∧
      file = calls.map (fun k => some k.decl) ∧ List.Forall₂ (Call.Meets pl) calls fates ∧
      out = (some ⟨s.labels, s.data, fates.filterMap Fate.func?⟩,
        Report.err (fates.filterMap Fate.rejection? ++ fates.filterMap Fate.drop?)) := by
  rw [compileWith_eq, Fault.bind_eq_ok_iff]
  constructor
  · intro h
    obtain ⟨⟨s, errs⟩, hlower, h⟩ := h
    obtain ⟨⟨gs, drops⟩, hrun, h⟩ := Fault.bind_eq_ok_iff.mp h
    obtain ⟨calls, t, hcalls, hfile, rfl, rfl⟩ := Session.lowerFuncs_eq_ok_iff.mp hlower
    obtain ⟨fates, hfates, rfl, rfl⟩ := Pipeline.runFuncs_eq_ok_iff.mp hrun
    cases h
    refine ⟨calls, t, fates, hcalls, hfile, hfates, ?_⟩
    rw [← filterMap_failure?_eq hfates]
    rfl
  · intro h
    obtain ⟨calls, t, fates, hcalls, hfile, hfates, rfl⟩ := h
    refine ⟨_, Session.lowerFuncs_eq_ok_iff.mpr ⟨calls, t, hcalls, hfile, rfl, rfl⟩, ?_⟩
    refine Fault.bind_eq_ok_iff.mpr
      ⟨_, Pipeline.runFuncs_eq_ok_iff.mpr ⟨fates, hfates, rfl, rfl⟩, ?_⟩
    rw [← filterMap_failure?_eq hfates]
    rfl

namespace LowerM

theorem declare_cons_fault_iff {params : List (Option Var)} {v : Var} {r : Reg} {s s₁ : Frame}
    (hv : s.vars.lookup v.id = none) (hreg : regOf v s = .ok r s₁) :
    (∃ e s', declare (some v :: params) s = .ok (.error e) s') ↔
      ∃ e s', declare params s₁ = .ok (.error e) s' := by
  rw [declare]
  constructor
  · rintro ⟨e, s', h⟩
    obtain ⟨_, _, hget, h⟩ := bind_eq_ok_iff.mp h
    cases hget
    rw [hv] at h
    obtain ⟨_, _, hreg', h⟩ := bind_eq_ok_iff.mp h
    rw [hreg] at hreg'
    cases hreg'
    obtain ⟨out, s₂, hrest, h⟩ := bind_eq_ok_iff.mp h
    cases out with
    | ok ps => cases (pure_eq_ok_iff.mp h).1
    | error f => exact ⟨f, s₂, hrest⟩
  · rintro ⟨e, s', h⟩
    refine ⟨e, s', bind_eq_ok_iff.mpr ⟨s, s, rfl, ?_⟩⟩
    rw [hv]
    exact bind_eq_ok_iff.mpr ⟨r, s₁, hreg, bind_eq_ok_iff.mpr ⟨_, _, h, rfl⟩⟩

theorem lookup_concat_eq_none_iff {vars : List (Int × Reg)} {id id' : Int} {r : Reg} :
    (vars ++ [(id, r)]).lookup id' = none ↔ vars.lookup id' = none ∧ id' ≠ id := by
  rw [List.lookup_append, Option.or_eq_none_iff, List.lookup_cons, List.lookup_nil]
  by_cases h : id' = id
  · simp [h]
  · simp [h, beq_false_of_ne h]

/-- Parameters lead to a fault where one is missing and none before it has failed. -/
theorem declare_fault_iff {params : List (Option Var)} {s : Frame} :
    (∃ e s', declare params s = .ok (.error e) s') ↔
      ∃ (before : List Var) (after : List (Option Var)),
      params = before.map some ++ none :: after ∧ (before.map Var.id).Nodup ∧
      ∀ v ∈ before, s.vars.lookup v.id = none := by
  induction params generalizing s with
  | nil =>
    refine iff_of_false ?_ ?_
    · rintro ⟨e, s', h⟩
      cases (pure_eq_ok_iff.mp h).1
    · rintro ⟨before, after, h, _⟩
      simp at h
  | cons p params ih =>
    cases p with
    | none =>
      exact iff_of_true ⟨.missingNode, s, rfl⟩ ⟨[], params, rfl, .nil, List.forall_mem_nil _⟩
    | some v =>
      cases hv : s.vars.lookup v.id with
      | some r =>
        refine iff_of_false ?_ ?_
        · rintro ⟨e, s', h⟩
          rw [declare] at h
          obtain ⟨_, _, hget, h⟩ := bind_eq_ok_iff.mp h
          cases hget
          rw [hv] at h
          obtain ⟨_, _, hfail, _⟩ := bind_eq_ok_iff.mp h
          exact fail_ne_ok hfail
        · rintro ⟨before, after, h, _, hnew⟩
          cases before with
          | nil => simp at h
          | cons u before =>
            cases (List.cons.inj h).1
            rw [hnew v List.mem_cons_self] at hv
            cases hv
      | none =>
        obtain ⟨r, s₁, hreg⟩ : ∃ r s₁, regOf v s = .ok r s₁ := by
          rw [regOf, hv]
          exact ⟨_, _, rfl⟩
        rw [declare_cons_fault_iff hv hreg, ih, vars_of_regOf hv hreg]
        constructor
        · rintro ⟨before, after, rfl, hnodup, hnew⟩
          have hnew' : ∀ u ∈ before, s.vars.lookup u.id = none ∧ u.id ≠ v.id :=
            fun u hu => lookup_concat_eq_none_iff.mp (hnew u hu)
          refine ⟨v :: before, after, rfl, ?_,
            List.forall_mem_cons.mpr ⟨hv, fun u hu => (hnew' u hu).1⟩⟩
          refine List.nodup_cons.mpr ⟨fun hmem => ?_, hnodup⟩
          obtain ⟨u, hu, heq⟩ := List.mem_map.mp hmem
          exact (hnew' u hu).2 heq
        · rintro ⟨before, after, h, hnodup, hnew⟩
          cases before with
          | nil => simp at h
          | cons u before =>
            obtain ⟨hu, hparams⟩ := List.cons.inj h
            cases hu
            obtain ⟨hne, hnodup⟩ := List.nodup_cons.mp hnodup
            refine ⟨before, after, hparams, hnodup,
              fun u hu => lookup_concat_eq_none_iff.mpr ⟨?_, fun heq => hne ?_⟩⟩
            · exact hnew u (List.mem_cons_of_mem _ hu)
            · exact heq ▸ List.mem_map_of_mem hu

end LowerM

namespace Session

theorem exists_lowerFunc_result_iff {s : Session} {d : Decl} :
    (∃ r s', s.lowerFunc d = .ok (r, s')) ↔ ¬ d.HasGap := by
  have hgap : d.HasGap ↔ ∃ e s', declare d.header.params ⟨s, 0, []⟩ = .ok (.error e) s' := by
    rw [declare_fault_iff]
    simp [Decl.HasGap]
  rw [hgap]
  constructor
  · rintro ⟨r, s', h⟩ ⟨e, fin, hfault⟩
    have hlower : d.lower ⟨s, 0, []⟩ = .ok (.error e) fin := by
      rw [Decl.lower_eq]
      exact bind_eq_ok_iff.mpr ⟨_, _, hfault, rfl⟩
    rw [lowerFunc_eq_fault hlower] at h
    cases h
  · intro hfault
    cases hlower : d.lower ⟨s, 0, []⟩ with
    | error e fin => exact ⟨_, _, lowerFunc_eq_error_iff.mpr ⟨fin, hlower, rfl⟩⟩
    | ok r fin =>
      cases r with
      | ok f => exact ⟨_, _, lowerFunc_of_lower hlower⟩
      | error e =>
        rw [Decl.lower_eq] at hlower
        obtain ⟨r, s₁, hdeclare, hbody⟩ := bind_eq_ok_iff.mp hlower
        cases r with
        | error f => exact absurd ⟨f, s₁, hdeclare⟩ hfault
        | ok ps =>
          obtain ⟨_, _, _, hreturn⟩ := bind_eq_ok_iff.mp hbody
          cases (pure_eq_ok_iff.mp hreturn).1

theorem exists_lowerFunc_alone_iff {t t' : Session} {d : Decl} {r : Except Error Func}
    (h : t.lowerFunc d = .ok (r, t')) :
    (∃ f, r = .ok f) ↔ ∃ f s, Session.empty.lowerFunc d = .ok (.ok f, s) := by
  rcases lowerFunc_alone t d with ⟨e, _, he⟩ | ⟨r₀, r', s', t₁, _, _, hs, ht, _, hlinked⟩
  · rw [h] at he
    cases he
  · rw [h] at ht
    cases ht
    rw [hs]
    cases hlinked with
    | error => simp
    | func => simp

theorem name_of_lowerFunc {s s' : Session} {d : Decl} {f : Func}
    (h : s.lowerFunc d = .ok (.ok f, s')) :
    f.name = d.header.name := by
  obtain ⟨_, fin, hlower, _⟩ := lowerFunc_eq_ok h
  obtain ⟨_, _, _, _, _, rfl⟩ := Decl.lower_eq_ok hlower
  rfl

end Session

/-- The name a function is found under, in the program or in the report. -/
def Fate.name : Fate → Bytes
  | rejected e => e.func
  | dropped e => e.func
  | compiled g => g.name

theorem Call.Meets.name_eq {pl : Pipeline (Except Fault)} {k : Call} {fate : Fate}
    (h : k.Meets pl fate) (hcall : k.before.lowerFunc k.decl = .ok (k.result, k.after))
    (hpl : pl.Answers fun f g => g.name = f.name) :
    fate.name = k.decl.header.name := by
  have hkeeps {f g : Func} {r : Except Error Unit} (hf : k.result = .ok f)
      (hrun : pl.runFunc f = .ok (g, r)) : g.name = k.decl.header.name := by
    rw [hf] at hcall
    obtain ⟨g', r', hrun', hname⟩ := Pipeline.runFunc_answers (Q := fun f g => g.name = f.name)
      (fun _ => rfl) (fun hfg hgh => hgh.trans hfg) hpl f
    rw [hrun] at hrun'
    cases hrun'
    exact hname.trans (Session.name_of_lowerFunc hcall)
  cases h with
  | rejected => rfl
  | dropped hf hrun | compiled hf hrun => exact hkeeps hf hrun

theorem Session.Calls.names_eq {pl : Pipeline (Except Fault)} {s s' : Session} {calls : List Call}
    {fates : List Fate} (h : s.Calls calls s') (hfates : List.Forall₂ (Call.Meets pl) calls fates)
    (hpl : pl.Answers fun f g => g.name = f.name) :
    fates.map Fate.name = calls.map fun k => k.decl.header.name := by
  induction h generalizing fates with
  | nil =>
    cases hfates
    rfl
  | cons hcall _ ih =>
    cases hfates with
    | cons hfate hfates => rw [List.map_cons, List.map_cons, hfate.name_eq hcall hpl, ih hfates]

/-- Compilation with passes that do not fault gives a result for the trees without gaps, and for no
others. The result is made up of the fates of the functions: the program has those that are lowered,
which they are if they are lowered alone, and that the pipeline then gets through, with the code
that it leaves for each of them; the failure has all others, those that are not lowered first, and
there is none if there are no others. The functions are found under their names, as long as passes
do not rename them. -/
theorem compileWith_isolates (pl : Pipeline (Except Fault)) (file : File) :
    (pl.Answers (fun _ _ => True) → ((∃ out, compileWith pl file = .ok out) ↔ file.Whole)) ∧
    ∀ out, compileWith pl file = .ok out → ∃ p errs calls s fates, out = (some p, Report.err errs) ∧
      Session.empty.Calls calls s ∧ file = calls.map (fun k => some k.decl) ∧
      (∀ k ∈ calls, (∃ f, k.result = .ok f) ↔
        ∃ f s, Session.empty.lowerFunc k.decl = .ok (.ok f, s)) ∧
      List.Forall₂ (Call.Meets pl) calls fates ∧
      p = ⟨s.labels, s.data, fates.filterMap Fate.func?⟩ ∧
      errs = fates.filterMap Fate.rejection? ++ fates.filterMap Fate.drop? ∧
      (Report.err errs = none ↔ ∀ fate ∈ fates, ∃ g, fate = .compiled g) ∧
      p.funcs.length + errs.length = file.length ∧
      (pl.Answers (fun f g => g.name = f.name) →
        fates.map Fate.name = calls.map fun k => k.decl.header.name) := by
  constructor
  · intro hpl
    have hlower : file.Whole ↔ ∃ q err, Program.lower file = .ok (q, err) := by
      rw [Program.exists_lower_iff]
      refine forall₂_congr fun x _ => ?_
      rw [Program.exists_lower_singleton_iff]
      exact exists_congr fun d => and_congr_right fun _ => Session.exists_lowerFunc_result_iff.symm
    rw [hlower]
    constructor
    · rintro ⟨out, h⟩
      obtain ⟨calls, s, _, hcalls, hfile, _, _⟩ := compileWith_eq_ok_iff.mp h
      exact ⟨_, _, Program.lower_eq_ok_iff.mpr ⟨calls, s, hcalls, hfile, rfl, rfl⟩⟩
    · rintro ⟨q, err, h⟩
      obtain ⟨calls, s, hcalls, hfile, _, _⟩ := Program.lower_eq_ok_iff.mp h
      obtain ⟨fates, hfates⟩ := exists_fates hpl calls
      exact ⟨_, compileWith_eq_ok_iff.mpr ⟨calls, s, fates, hcalls, hfile, hfates, rfl⟩⟩
  · intro out h
    obtain ⟨calls, s, fates, hcalls, rfl, hfates, rfl⟩ := compileWith_eq_ok_iff.mp h
    refine ⟨_, _, calls, s, fates, rfl, hcalls, rfl,
      fun k hk => Session.exists_lowerFunc_alone_iff (hcalls.of_mem hk).1, hfates, rfl, rfl, ?_, ?_,
      hcalls.names_eq hfates⟩
    · rw [Report.err_eq_none_iff, Fate.report_eq_nil_iff]
    · rw [Fate.length_eq, List.length_map, hfates.length_eq]

/-- Fails on functions of one name, and does nothing. -/
def Pass.refusing (name : Bytes) : Pass (Except Fault) :=
  ⟨"refusing",
    fun f => return (f, if f.name = name then .error (.of (.other "refused")) else .ok false)⟩

def Pipeline.refusing (name : Bytes) : Pipeline (Except Fault) :=
  ⟨[.nops], [.refusing name, .renumberTemps], 2⟩

/-- One function that is not lowered, one that a pass fails on, and one that is compiled. -/
theorem compileWith_isolates_mixed : ∃ p errs,
    compileWith (.refusing "greet") [some .lost, some .greet, some .countdown] =
      .ok (some p, Report.err errs) ∧
      p.funcs.length + errs.length = 3 ∧
      ∃ fates : List Fate, fates.map Fate.name = ["lost", "greet", "countdown"] ∧
        p.funcs = fates.filterMap Fate.func? ∧
        errs = fates.filterMap Fate.rejection? ++ fates.filterMap Fate.drop? := by
  have hnames : (Pipeline.refusing "greet").Answers fun f g => g.name = f.name := by
    intro p hp
    simp only [Pipeline.refusing, List.mem_append, List.mem_cons, List.not_mem_nil, or_false] at hp
    rcases hp with rfl | rfl | rfl
    · exact fun f => ⟨_, _, rfl, rfl⟩
    · exact fun f => ⟨_, _, rfl, rfl⟩
    · exact fun f => ⟨_, _, rfl, rfl⟩
  have hanswers : (Pipeline.refusing "greet").Answers fun _ _ => True := by
    intro p hp f
    obtain ⟨g, r, hrun, _⟩ := hnames p hp f
    exact ⟨g, r, hrun, trivial⟩
  have hwhole : File.Whole [some .lost, some .greet, some .countdown] := by
    have hparams : ∀ d ∈ [Decl.lost, .greet, .countdown], none ∉ d.header.params := by
      simp [Decl.lost, Decl.greet, Decl.countdown, Sample.decl]
    intro x hx
    obtain ⟨d, hd, rfl⟩ :=
      List.mem_map.mp (show x ∈ [Decl.lost, .greet, .countdown].map some from hx)
    exact ⟨d, rfl, Decl.not_hasGap (hparams d hd)⟩
  obtain ⟨hreturns, hmade⟩ :=
    compileWith_isolates (.refusing "greet") [some .lost, some .greet, some .countdown]
  obtain ⟨out, h⟩ := (hreturns hanswers).mpr hwhole
  obtain ⟨p, errs, calls, s, fates, rfl, _, hfile, _, _, rfl, herrs, _, hlength, hsame⟩ :=
    hmade out h
  refine ⟨_, errs, h, hlength, fates, ?_, rfl, herrs⟩
  have hdecls : calls.map (fun k => k.decl.header.name) =
      ([some .lost, some .greet, some .countdown] : File).map
        (fun x => x.elim [] fun d => d.header.name) := by
    rw [hfile, List.map_map]
    rfl
  rw [hsame hnames, hdecls]
  rfl

/-- Its parameter is missing. -/
def Decl.gapped : Decl := ⟨⟨"gapped", .void, [none]⟩, some []⟩

/-- Not every tree is compiled, also by passes that do nothing: where a parameter is missing, the
other functions are lost. -/
theorem compileWith_not_total :
    ¬ ∀ (pl : Pipeline (Except Fault)) (file : File), pl.Answers (fun _ _ => True) →
      ∃ p err, compileWith pl file = .ok (some p, err) := by
  intro htotal
  obtain ⟨p, err, h⟩ := htotal ⟨[], [], 100⟩ [some .gapped, some .greet] (List.forall_mem_nil _)
  cases h

namespace Pipeline

theorem runFuncs_verified {fs : List Func} (hfs : ∀ f ∈ fs, f.Verified) :
    ∃ gs, standard.runFuncs fs = .ok (gs, []) := by
  induction fs with
  | nil => exact ⟨[], rfl⟩
  | cons f fs ih =>
    obtain ⟨hf, hfs⟩ := List.forall_mem_cons.mp hfs
    obtain ⟨g, hg, _⟩ := runFunc_verified hf
    obtain ⟨gs, hgs⟩ := ih hfs
    refine ⟨g :: gs, ?_⟩
    rw [runFuncs, hg]
    change (standard.runFuncs fs >>= _) = _
    rw [hgs]
    rfl

end Pipeline

theorem Session.Calls.verified {s s' : Session} {calls : List Call} (h : s.Calls calls s') :
    ∀ f ∈ calls.filterMap Call.func?, f.Verified := by
  intro f hf
  obtain ⟨⟨before, d, result, after⟩, hk, hresult⟩ := List.mem_filterMap.mp hf
  obtain ⟨hlower, _, _⟩ := h.of_mem hk
  cases result with
  | error e => cases hresult
  | ok g =>
    cases hresult
    exact (lowerFunc_eq_ok hlower).1

theorem compile_report (file : File) :
    (compile file).map Prod.snd = (Program.lower file).map Prod.snd := by
  rw [compile, compileWith_eq, Program.lower_eq]
  cases hfuncs : Session.empty.lowerFuncs [] file with
  | error f => rfl
  | ok low =>
    obtain ⟨s, errs⟩ := low
    obtain ⟨calls, t, hcalls, _, rfl, rfl⟩ := Session.lowerFuncs_eq_ok_iff.mp hfuncs
    obtain ⟨gs, hgs⟩ := Pipeline.runFuncs_verified hcalls.verified
    change ((Pipeline.standard.runFuncs (calls.filterMap Call.func?) >>= _).map Prod.snd :
      Except Fault _) = _
    rw [hgs]
    change Except.ok (Report.err (_ ++ [])) = _
    rw [List.append_nil]
    rfl

/-- Verified functions stay verified through any sequence of passes, none of which fails or faults
on them; so compilation reports nothing beyond what lowering reports. -/
theorem verified_of_passes :
    (∀ ps : List (Pass (Except Fault)), (∀ p ∈ ps, p ∈ Pass.all) →
      ∀ f : Func, f.Verified → Pass.Chain ps f) ∧
    ∀ file : File, (compile file).map Prod.snd = (Program.lower file).map Prod.snd :=
  ⟨fun _ hps _ hf => Pass.chain_of_verified hps hf, compile_report⟩

theorem verified_of_passes_countdown :
    Func.countdown.Verified ∧ Pass.Chain (Pass.all ++ Pass.all.reverse) Func.countdown := by
  have hverified : Func.countdown.Verified := rfl
  exact ⟨hverified, verified_of_passes.1 _ (by simp) _ hverified⟩

end ThreeAddress
