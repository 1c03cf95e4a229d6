import ThreeAddress.Proofs.Threading

/-!
# Unreachable code

What stands between a jump or return and the next label is never run, so dropping it keeps the
behaviour; it holds no label, so the code stays valid. `Code.Flows` says that there is nothing of
the kind, and holds once it is dropped.
-/

namespace ThreeAddress
set_option autoImplicit false

namespace Code

/-- Every instruction can be reached from the one before it or by its label. If `dead` holds then
control does not come from the instruction before. -/
def Flows : Bool → Code → Prop
  | _, [] => True
  | dead, x :: rest => (dead = true → x.op = .label) ∧ Flows x.op.isTerminator rest

section
variable {dead : Bool} {x : Instr} {code rest : Code}

theorem Flows.cons_of_live (h : Flows x.op.isTerminator rest) : Flows false (x :: rest) :=
  ⟨Bool.noConfusion, h⟩

theorem Flows.live (h : Flows dead code) : Flows false code := by
  cases code with
  | nil => trivial
  | cons x rest => exact .cons_of_live h.2

theorem reachableFrom_keep (h : dead = true → x.op = .label) :
    reachableFrom dead (x :: rest) = x :: reachableFrom x.op.isTerminator rest := by
  rw [reachableFrom, if_neg]
  intro hdrop
  obtain ⟨hdead, hlabel⟩ := Bool.and_eq_true_iff.mp hdrop
  exact of_decide_eq_true hlabel (h hdead)

theorem reachableFrom_drop (h : x.op ≠ .label) :
    reachableFrom true (x :: rest) = reachableFrom true rest := by
  rw [reachableFrom, if_pos]
  exact decide_eq_true h

theorem reachable_cases (dead : Bool) (x : Instr) :
    (dead = true → x.op = .label) ∨ dead = true ∧ x.op ≠ .label := by
  cases dead with
  | false => exact .inl Bool.noConfusion
  | true =>
    by_cases hx : x.op = .label
    · exact .inl fun _ => hx
    · exact .inr ⟨rfl, hx⟩

theorem flows_reachableFrom (dead : Bool) (code : Code) : Flows dead (reachableFrom dead code) := by
  induction code generalizing dead with
  | nil => trivial
  | cons x rest ih =>
    rcases reachable_cases dead x with h | ⟨rfl, h⟩
    · rw [reachableFrom_keep h]
      exact ⟨h, ih _⟩
    · rw [reachableFrom_drop h]
      exact ih true

theorem Flows.reachableFrom_eq (h : Flows dead code) : reachableFrom dead code = code := by
  induction code generalizing dead with
  | nil => rfl
  | cons x rest ih => rw [reachableFrom_keep h.1, ih h.2]

theorem reachableFrom_sublist (dead : Bool) (code : Code) :
    (reachableFrom dead code).Sublist code := by
  induction code generalizing dead with
  | nil => exact .slnil
  | cons x rest ih =>
    rcases reachable_cases dead x with h | ⟨rfl, h⟩
    · rw [reachableFrom_keep h]
      exact (ih _).cons_cons x
    · rw [reachableFrom_drop h]
      exact (ih true).cons x

theorem labels_reachableFrom (dead : Bool) (code : Code) :
    labels (reachableFrom dead code) = labels code := by
  induction code generalizing dead with
  | nil => rfl
  | cons x rest ih =>
    rcases reachable_cases dead x with h | ⟨rfl, h⟩
    · rw [reachableFrom_keep h, labels_cons, labels_cons, ih]
    · rw [reachableFrom_drop h, labels_cons, Instr.label?_eq_none h, ih]
      rfl

theorem seek_reachableFrom (l : Label) (dead : Bool) (code : Code) :
    (reachableFrom dead code).seek l = reachableFrom false (code.seek l) := by
  induction code generalizing dead with
  | nil => rfl
  | cons x rest ih =>
    rw [seek_cons]
    by_cases hx : x.label? = some l
    · have hlabel := Instr.op_eq_of_label? hx
      rw [if_pos hx, reachableFrom_keep fun _ => hlabel, reachableFrom_keep fun _ => hlabel,
        seek_cons, if_pos hx]
    · rw [if_neg hx]
      rcases reachable_cases dead x with h | ⟨rfl, h⟩
      · rw [reachableFrom_keep h, seek_cons, if_neg hx, ih]
      · rw [reachableFrom_drop h, ih]

end

theorem pruneUnreachable_valid {code : Code} (h : Valid code) :
    Valid code.pruneUnreachable.code where
  wellFormed x hx := h.wellFormed x ((reachableFrom_sublist false code).subset hx)
  nodup := (labels_reachableFrom false code).symm ▸ h.nodup
  nonneg := (labels_reachableFrom false code).symm ▸ h.nonneg
  resolved l hl := by
    obtain ⟨x, hx, hgoal⟩ := List.mem_filterMap.mp hl
    rw [pruneUnreachable, Simplified.ofShorter, labels_reachableFrom]
    exact h.resolved l
      (List.mem_filterMap.mpr ⟨x, (reachableFrom_sublist false code).subset hx, hgoal⟩)

theorem pruneUnreachable_of_flows {code : Code} (h : Flows false code) :
    code.pruneUnreachable = ⟨code, false⟩ := by
  rw [pruneUnreachable, h.reachableFrom_eq, Simplified.ofShorter]
  simp

theorem flows_pruneUnreachable (code : Code) : Flows false code.pruneUnreachable.code :=
  flows_reachableFrom false code

theorem pruneUnreachable_changed {code : Code} :
    code.pruneUnreachable.changed = false ↔ code.pruneUnreachable.code = code := by
  rw [pruneUnreachable, Simplified.ofShorter, decide_eq_false_iff_not, not_not]
  exact ⟨(reachableFrom_sublist false code).eq_of_length, congrArg List.length⟩

end Code

/-- What is left of the new code is what control can reach of the old code. -/
def PrunedConfig (x y : Config) : Prop :=
  y.rest = Code.reachableFrom false x.rest ∧ x.regs = y.regs ∧ x.world = y.world

theorem idleLockstep_pruneUnreachable (M : Machine) (code : Code) :
    IdleLockstep M M code code.pruneUnreachable.code PrunedConfig := by
  refine ⟨fun h => h.2.2, ?_⟩
  rintro ⟨p, ρ, w⟩ ⟨_, _, _⟩ ⟨hrest, hregs, hworld⟩
  simp only at hrest hregs hworld
  subst hrest hregs hworld
  refine ⟨1, 1, Nat.one_pos, Nat.one_pos, ?_, ?_⟩
  · cases p with
    | nil => exact .halted .ranOff w
    | cons x rest =>
      rw [Code.reachableFrom_keep Bool.noConfusion, M.run_one, M.run_one]
      cases he : M.effect x ρ w with
      | halt u v => exact .halted _ v
      | jump l σ v => exact .running ⟨Code.seek_reachableFrom l false code, rfl, rfl⟩
      | next σ v =>
        have hlive : x.op.isTerminator = false := by
          rw [Bool.eq_false_iff]
          intro hop
          rcases Opcode.isTerminator_iff.mp hop with hop | hop
          · rw [Machine.effect, hop] at he
            cases he
          · rw [Machine.effect, hop] at he
            cases he
        rw [hlive]
        exact .running ⟨rfl, rfl, rfl⟩
  · rw [Machine.idles_one, Machine.idles_one]
    cases p with
    | nil => rfl
    | cons x rest =>
      rw [Code.reachableFrom_keep Bool.noConfusion]
      rfl

theorem behaviour_pruneUnreachable (M : Machine) (code : Code) (ρ : Regs) (w : World) :
    M.behaviour code ρ w = M.behaviour code.pruneUnreachable.code ρ w :=
  behaviour_eq_of_lockstep (idleLockstep_pruneUnreachable M code).lockstep ⟨rfl, rfl, rfl⟩

theorem circles_pruneUnreachable (M : Machine) (code : Code) (ρ : Regs) (w : World) :
    M.Circles code ρ w ↔ M.Circles code.pruneUnreachable.code ρ w :=
  (idleLockstep_pruneUnreachable M code).circles_iff ⟨rfl, rfl, rfl⟩

end ThreeAddress
