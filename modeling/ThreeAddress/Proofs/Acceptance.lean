import ThreeAddress.Proofs.LoweredValid

/-!
# The trees that are accepted

Whether a function is lowered depends on nothing but its tree: the session never matters, and
validation never objects. With all its parameters there, a function is handed out exactly if its
tree is well-formed (`Session.lowerFunc_accepts`).
-/

namespace ThreeAddress
set_option autoImplicit false

open LowerM

theorem lookup_concat_eq_none_iff {i j : Int} {r : Reg} {vars : List (Int × Reg)} :
    (vars ++ [(j, r)]).lookup i = none ↔ i ≠ j ∧ vars.lookup i = none := by
  rw [List.lookup_append, Option.or_eq_none_iff, List.lookup_cons]
  cases hij : i == j with
  | true => simp [eq_of_beq hij]
  | false => simp [ne_of_beq_false hij]

theorem exists_declare_cons_iff {v : Var} {params : List (Option Var)} {s : Frame} :
    (∃ ps s', declare (some v :: params) s = .ok (.ok ps) s') ↔
      s.vars.lookup v.id = none ∧ ∃ r s₁, regOf v s = .ok r s₁ ∧
        ∃ ps s', declare params s₁ = .ok (.ok ps) s' := by
  constructor
  · rintro ⟨ps, s', h⟩
    obtain ⟨hv, r, s₁, qs, hr, hrest, _⟩ := declare_cons_eq_ok_iff.mp h
    exact ⟨hv, r, s₁, hr, qs, s', hrest⟩
  · rintro ⟨hv, r, s₁, hr, qs, s', hrest⟩
    exact ⟨_, s', declare_cons_eq_ok_iff.mpr ⟨hv, r, s₁, qs, hr, hrest, rfl⟩⟩

theorem exists_declare_iff {params : List (Option Var)} (hparams : none ∉ params) {s : Frame} :
    (∃ ps s', declare params s = .ok (.ok ps) s') ↔ (params.filterMap (Option.map Var.id)).Nodup ∧
      ∀ i ∈ params.filterMap (Option.map Var.id), s.vars.lookup i = none := by
  induction params generalizing s with
  | nil => simpa using ⟨[], s, rfl⟩
  | cons p params ih =>
    cases p with
    | none => exact absurd List.mem_cons_self hparams
    | some v =>
      have hrest : none ∉ params := fun h => hparams (List.mem_cons_of_mem _ h)
      have hids : (some v :: params).filterMap (Option.map Var.id) =
          v.id :: params.filterMap (Option.map Var.id) := rfl
      rw [exists_declare_cons_iff, hids, List.nodup_cons, List.forall_mem_cons]
      -- the parameters after this one find it among the variables already
      constructor
      · rintro ⟨hv, r, s₁, hr, hdeclare⟩
        obtain ⟨hnodup, hfree⟩ := (ih hrest).mp hdeclare
        have hboth : ∀ i ∈ params.filterMap (Option.map Var.id), i ≠ v.id ∧
            s.vars.lookup i = none := by
          intro i hi
          have hnone := hfree i hi
          rw [vars_of_regOf hv hr, lookup_concat_eq_none_iff] at hnone
          exact hnone
        exact ⟨⟨fun hi => (hboth _ hi).1 rfl, hnodup⟩, hv, fun i hi => (hboth i hi).2⟩
      · rintro ⟨⟨hnot, hnodup⟩, hv, hfree⟩
        obtain ⟨r, s₁, hr⟩ := (yields_regOf v).exists_ok trivial s
        refine ⟨hv, r, s₁, hr, (ih hrest).mpr ⟨hnodup, fun i hi => ?_⟩⟩
        rw [vars_of_regOf hv hr, lookup_concat_eq_none_iff]
        exact ⟨fun heq => hnot (heq ▸ hi), hfree i hi⟩

namespace Decl
variable {d : Decl}

theorem sound_stmt_iff : StmtAt.Sound ⟨d.stmt, false⟩ ↔
    ∀ list, d.body = some list → ∀ x ∈ list, StmtAt.Sound ⟨x, false⟩ := by
  unfold stmt
  cases d.body with
  | none => simpa using StmtAt.sound_hole
  | some list => simpa using StmtAt.sound_block

theorem exists_lower_iff {s : Frame} : (∃ f s', d.lower s = .ok (.ok f) s') ↔
    (∃ ps s₁, declare d.header.params s = .ok (.ok ps) s₁) ∧ StmtAt.Sound ⟨d.stmt, false⟩ := by
  constructor
  · rintro ⟨f, s', h⟩
    obtain ⟨ps, s₁, c, hps, hc, _⟩ := lower_eq_ok_iff.mp h
    exact ⟨⟨ps, s₁, hps⟩, ((Stmt.lowerable d.stmt none).of_ok hc).1⟩
  · rintro ⟨⟨ps, s₁, hps⟩, hsound⟩
    obtain ⟨c, s', hc⟩ := (Stmt.lowerable d.stmt none).exists_ok hsound s₁
    exact ⟨_, s', lower_eq_ok_iff.mpr ⟨ps, s₁, c, hps, hc, rfl⟩⟩

end Decl

theorem Session.exists_lowerFunc_iff {s : Session} {d : Decl} :
    (∃ f s', s.lowerFunc d = .ok (.ok f, s')) ↔ ∃ f fin, d.lower ⟨s, 0, []⟩ = .ok (.ok f) fin := by
  constructor
  · rintro ⟨f, s', h⟩
    obtain ⟨_, fin, hlower, _⟩ := lowerFunc_eq_ok h
    exact ⟨f, fin, hlower⟩
  · rintro ⟨f, fin, h⟩
    exact ⟨f, fin.session, lowerFunc_of_lower h⟩

/-- In whatever session, a function all of whose parameters are there is lowered exactly if its tree
is well-formed. -/
theorem Session.lowerFunc_accepts (s : Session) (d : Decl) (hparams : none ∉ d.header.params) :
    (∃ f s', s.lowerFunc d = .ok (.ok f, s')) ↔ d.WellFormed := by
  rw [exists_lowerFunc_iff, Decl.exists_lower_iff, exists_declare_iff hparams, Decl.wellFormed_iff,
    Decl.sound_stmt_iff]
  have hfree : ∀ i ∈ d.header.params.filterMap (Option.map Var.id),
      ([] : List (Int × Reg)).lookup i = none :=
    fun _ _ => rfl
  exact and_congr_left' (and_iff_left hfree)

/-- Chooses one of two functions, and then does what it is told to with it. -/
def Decl.choosing (use : Expr → Stmt) : Decl :=
  let n := Sample.local32 3 "n"
  Sample.decl "choosing" .i32 [n] [
    use
      (.cond (.var n) (.chain (.funcRef ⟨"f", .i32, []⟩) [] .i32) (.funcRef ⟨"g", .i32, []⟩) .i32)]

/-- A function may be chosen where the choice is discarded, and not where it is returned. -/
theorem Session.lowerFunc_accepts_choosing :
    none ∉ (Decl.choosing .expr).header.params ∧ (Decl.choosing .expr).WellFormed ∧
      ¬ (Decl.choosing .ret).WellFormed := by
  have hparams : none ∉ (Decl.choosing .expr).header.params := by decide
  have hok : ∃ f s', Session.empty.lowerFunc (.choosing .expr) = .ok (.ok f, s') := ⟨_, _, rfl⟩
  refine ⟨hparams, (lowerFunc_accepts .empty _ hparams).mp hok, fun hwf => ?_⟩
  obtain ⟨f, s', hret⟩ := (lowerFunc_accepts .empty (.choosing .ret) hparams).mpr hwf
  obtain ⟨e, s'', herror⟩ :
      ∃ e s'', Session.empty.lowerFunc (.choosing .ret) = .ok (.error e, s'') := ⟨_, _, rfl⟩
  rw [herror] at hret
  cases hret

end ThreeAddress
