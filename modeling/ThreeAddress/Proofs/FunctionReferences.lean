import ThreeAddress.Proofs.Acceptance
import ThreeAddress.Proofs.Isolation

/-!
# References to functions

A reference to a function may be called. It is no value: wherever else one is wanted, be it as an
operand, an argument, a condition or what is assigned, stored, chosen or returned, the instruction
that would take it is refused and with it the whole function (`Session.lowerFunc_refuses_refs`).
Where a value is discarded no instruction takes it, so a reference that stands there goes unnoticed
(`Session.lowerFunc_accepts_discarded`).
-/

namespace ThreeAddress
set_option autoImplicit false

namespace Decl
variable {d : Decl}

/-- The expressions of a function, those in an expression that stands in place of a statement
included. -/
inductive Mentions (d : Decl) : ExprAt → Prop where
  | expr {e : ExprAt} : d.HasExpr e → d.Mentions e
  | stray {x : Expr} {inLoop : Bool} : d.HasStmt ⟨.stray (.expr x), inLoop⟩ → d.Mentions ⟨x, false⟩
  | part {e y : ExprAt} : d.Mentions e → y ∈ e.parts → d.Mentions y

/-- In a function whose statements are statements all expressions belong to one of them. -/
theorem Mentions.hasExpr {e : ExprAt} (h : d.Mentions e)
    (hstmts : ∀ x, d.HasStmt x → x.stmt.isStray = false) :
    d.HasExpr e := by
  induction h with
  | expr he => exact he
  | stray hx => cases hstmts _ hx
  | part _ hpart ih => exact .part ih hpart

theorem Mentions.discarded_of_lower {e : ExprAt} {s s' : Frame} {g : Func} (he : d.Mentions e)
    (href : e.expr.isRef = true) (h : d.lower s = .ok (.ok g) s') : e.discarded = true := by
  have hsound := sound_stmt_iff.mp (exists_lower_iff.mp ⟨g, s', h⟩).2
  have hexpr := he.hasExpr fun x hx => (hx.sound hsound x .refl).stray
  exact (hexpr.sound hsound e .refl).ref href

end Decl

/-- Whatever the session, a function is not lowered if it mentions a function where a value is
wanted; and if all its parameters are there, it is reported as an error. -/
theorem Session.lowerFunc_refuses_refs (s : Session) (d : Decl) (f : FuncRef)
    (hused : d.Mentions ⟨.funcRef f, false⟩) :
    (∀ g s', s.lowerFunc d ≠ .ok (.ok g, s')) ∧
      (none ∉ d.header.params → ∃ e s', s.lowerFunc d = .ok (.error e, s')) := by
  have hnever : ∀ g s', s.lowerFunc d ≠ .ok (.ok g, s') := by
    intro g s' h
    obtain ⟨_, fin, hlower, _⟩ := lowerFunc_eq_ok h
    cases hused.discarded_of_lower rfl hlower
  refine ⟨hnever, fun hparams => ?_⟩
  obtain ⟨r, s', h⟩ := exists_lowerFunc_result_iff.mpr (Decl.not_hasGap hparams)
  cases r with
  | ok g => exact absurd h (hnever g s')
  | error e => exact ⟨e, s', h⟩

def Decl.naming (use : Expr → Stmt) : Decl :=
  Sample.decl "naming" .void [] [use (.funcRef ⟨"g", .i32, []⟩)]

theorem Session.lowerFunc_refuses_refs_returned :
    (Decl.naming .ret).Mentions ⟨.funcRef ⟨"g", .i32, []⟩, false⟩ ∧
      ∃ e s', Session.empty.lowerFunc (.naming .ret) = .ok (.error e, s') := by
  have hused : (Decl.naming .ret).Mentions ⟨.funcRef ⟨"g", .i32, []⟩, false⟩ :=
    .expr (.stmt (.body rfl List.mem_cons_self) List.mem_cons_self)
  exact ⟨hused, (lowerFunc_refuses_refs .empty _ _ hused).2 (List.not_mem_nil)⟩

/-- A function that is mentioned in a statement of its own, and not called, is not refused. -/
theorem Session.lowerFunc_accepts_discarded :
    (Decl.naming .expr).Mentions ⟨.funcRef ⟨"g", .i32, []⟩, true⟩ ∧
      ∃ g s', Session.empty.lowerFunc (.naming .expr) = .ok (.ok g, s') :=
  ⟨.expr (.stmt (.body rfl List.mem_cons_self) List.mem_cons_self), _, _, rfl⟩

end ThreeAddress
