import ThreeAddress.Proofs.Machine

/-!
# Rewriting code piece by piece

`Code.Rewrites rule old new` says that `new` arises from `old` by replacing one piece after the
other, each as `rule` allows. If every rule has the same effect on both sides, up to a relation
between registers, then old and new code have the same behaviour (`behaviour_eq_of_rewrites`).
-/

namespace ThreeAddress
set_option autoImplicit false

namespace Code

inductive Rewrites (rule : Code → Code → Prop) : Code → Code → Prop where
  | nil : Rewrites rule [] []
  | piece {a b old new : Code} :
    rule a b → Rewrites rule old new → Rewrites rule (a ++ old) (b ++ new)

namespace Rewrites
variable {rule finer : Code → Code → Prop} {old new : Code}

theorem single {a b : Code} (h : rule a b) : Rewrites rule a b := by
  simpa using piece h nil

theorem append {old' new' : Code} (h : Rewrites rule old new) (h' : Rewrites rule old' new') :
    Rewrites rule (old ++ old') (new ++ new') := by
  induction h with
  | nil => exact h'
  | piece hab _ ih =>
    rw [List.append_assoc, List.append_assoc]
    exact .piece hab ih

/-- What is known of the code around a piece may be used to say more about the piece. -/
theorem refine_rule (h : Rewrites rule old new)
    (hrule : ∀ {p a q p' b q'}, old = p ++ (a ++ q) → new = p' ++ (b ++ q') →
      Rewrites rule p p' → Rewrites rule q q' → rule a b → finer a b) : Rewrites finer old new := by
  -- The part that was already looked at is carried along as `p` and `p'`.
  suffices key : ∀ {c c' p p'}, Rewrites rule c c' → Rewrites rule p p' → old = p ++ c →
    new = p' ++ c' → Rewrites finer c c' from key h .nil rfl rfl
  intro c c' p p' hc
  induction hc generalizing p p' with
  | nil => exact fun _ _ _ => .nil
  | @piece a b q q' hab hq ih =>
    intro hp hold hnew
    refine .piece (hrule hold hnew hp hq hab) (ih (hp.append (single hab)) ?_ ?_)
    · rw [hold, List.append_assoc]
    · rw [hnew, List.append_assoc]

theorem imp (h : Rewrites rule old new) (hrule : ∀ {a b}, rule a b → finer a b) :
    Rewrites finer old new := h.refine_rule fun _ _ _ _ hab => hrule hab

theorem of_map {code : Code} {g : Instr → Instr} (h : ∀ x ∈ code, rule [x] [g x]) :
    Rewrites rule code (code.map g) := by
  induction code with
  | nil => exact .nil
  | cons x rest ih =>
    obtain ⟨hx, hrest⟩ := List.forall_mem_cons.mp h
    exact .piece hx (ih hrest)

theorem of_filter {code : Code} {p : Instr → Bool} (hkeep : ∀ x ∈ code, p x = true → rule [x] [x])
    (hdrop : ∀ x ∈ code, p x = false → rule [x] []) : Rewrites rule code (code.filter p) := by
  induction code with
  | nil => exact .nil
  | cons x rest ih =>
    obtain ⟨hx, hkeep⟩ := List.forall_mem_cons.mp hkeep
    obtain ⟨hx', hdrop⟩ := List.forall_mem_cons.mp hdrop
    cases hp : p x with
    | true =>
      rw [List.filter_cons_of_pos hp]
      exact .piece (hx hp) (ih hkeep hdrop)
    | false =>
      rw [List.filter_cons_of_neg (by rw [hp]; exact Bool.false_ne_true)]
      exact .piece (hx' hp) (ih hkeep hdrop)

end Rewrites

/-- A label stands alone in its piece and stays, or there is none on either side. -/
def SameLabels (a b : Code) : Prop :=
  (∃ x : Instr, x.op = .label ∧ a = [x] ∧ b = [x]) ∨
    (∀ x ∈ a, x.op ≠ .label) ∧ ∀ x ∈ b, x.op ≠ .label

theorem seek_append {a code : Code} (l : Label) (ha : ∀ x ∈ a, x.op ≠ .label) :
    seek l (a ++ code) = seek l code := by
  induction a with
  | nil => rfl
  | cons x a ih =>
    obtain ⟨hx, ha⟩ := List.forall_mem_cons.mp ha
    rw [List.cons_append, seek, if_neg fun h => hx h.1, ih ha]

theorem Rewrites.seek {rule : Code → Code → Prop} {old new : Code} (h : Rewrites rule old new)
    (hlabels : ∀ {a b}, rule a b → SameLabels a b) (l : Label) :
    Rewrites rule (old.seek l) (new.seek l) := by
  induction h with
  | nil => exact .nil
  | @piece a b q q' hab hq ih =>
    rcases hlabels hab with ⟨x, hx, rfl, rfl⟩ | ⟨ha, hb⟩
    · rw [List.singleton_append, List.singleton_append, Code.seek, Code.seek]
      split
      · exact .piece hab hq
      · exact ih
    · rw [seek_append l ha, seek_append l hb]
      exact ih

end Code

/-- Effects that correspond where `R` says which registers do. -/
inductive Effect.Matches (R : Regs → Regs → Prop) : Effect → Effect → Prop where
  | next {ρ σ : Regs} (w : World) : R ρ σ → Matches R (.next ρ w) (.next σ w)
  | jump {ρ σ : Regs} (l : Label) (w : World) : R ρ σ → Matches R (.jump l ρ w) (.jump l σ w)
  | halt (v : Option Int) (w : World) : Matches R (.halt v w) (.halt v w)

namespace Machine
variable (M : Machine)

/-- The effect of a piece of code: its instructions in order, up to the first that does not run
on. -/
def pieceEffect : Code → Regs → World → Effect
  | [], ρ, w => .next ρ w
  | x :: rest, ρ, w =>
    match M.effect x ρ w with
    | .next ρ w => pieceEffect rest ρ w
    | e => e

@[simp] theorem pieceEffect_nil (ρ : Regs) (w : World) : M.pieceEffect [] ρ w = .next ρ w := rfl

@[simp] theorem pieceEffect_singleton (x : Instr) (ρ : Regs) (w : World) :
    M.pieceEffect [x] ρ w = M.effect x ρ w := by
  rw [pieceEffect]
  cases M.effect x ρ w <;> rfl

theorem pieceEffect_cons {x : Instr} {rest : Code} {ρ σ : Regs} {w v : World}
    (h : M.effect x ρ w = .next σ v) : M.pieceEffect (x :: rest) ρ w = M.pieceEffect rest σ v := by
  rw [pieceEffect, h]

theorem exists_run_piece (code a rest : Code) (ρ : Regs) (w : World) :
    ∃ n, (a ≠ [] → 0 < n) ∧
      M.run code n (.running ⟨a ++ rest, ρ, w⟩) = (M.pieceEffect a ρ w).resolve code rest := by
  induction a generalizing ρ w with
  | nil => exact ⟨0, fun h => absurd rfl h, rfl⟩
  | cons x a ih =>
    have hstep : M.step code (.running ⟨x :: a ++ rest, ρ, w⟩) =
        (M.effect x ρ w).resolve code (a ++ rest) := rfl
    cases he : M.effect x ρ w with
    | next σ v =>
      obtain ⟨n, _, hn⟩ := ih σ v
      refine ⟨n + 1, fun _ => Nat.succ_pos n, ?_⟩
      rw [run, hstep, he, pieceEffect, he]
      exact hn
    | jump l σ v =>
      refine ⟨1, fun _ => Nat.one_pos, ?_⟩
      rw [run, hstep, he, pieceEffect, he]
      rfl
    | halt u v =>
      refine ⟨1, fun _ => Nat.one_pos, ?_⟩
      rw [run, hstep, he, pieceEffect, he]
      rfl

end Machine

/-- A rule that loses no label and does the same on both sides, for registers that are related by
`R`. -/
structure SoundRule (M : Machine) (R : Regs → Regs → Prop) (a b : Code) : Prop where
  nonempty : a ≠ []
  labels : Code.SameLabels a b
  effect : ∀ ρ σ w, R ρ σ → Effect.Matches R (M.pieceEffect a ρ w) (M.pieceEffect b σ w)

section
variable {M : Machine} {rule : Code → Code → Prop} {R : Regs → Regs → Prop} {old new : Code}

def RewritesConfig (rule : Code → Code → Prop) (R : Regs → Regs → Prop) (x y : Config) : Prop :=
  Code.Rewrites rule x.rest y.rest ∧ R x.regs y.regs ∧ x.world = y.world

theorem Effect.Matches.resolve {e e' : Effect} (he : Effect.Matches R e e')
    (hsound : ∀ {a b}, rule a b → SoundRule M R a b) (h : Code.Rewrites rule old new)
    {q q' : Code} (hq : Code.Rewrites rule q q') :
    Status.Matches (RewritesConfig rule R) (e.resolve old q) (e'.resolve new q') := by
  cases he with
  | next w hρ => exact .running ⟨hq, hρ, rfl⟩
  | jump l w hρ => exact .running ⟨h.seek (fun hab => (hsound hab).labels) l, hρ, rfl⟩
  | halt v w => exact .halted _ w

theorem lockstep_of_rewrites (hsound : ∀ {a b}, rule a b → SoundRule M R a b)
    (h : Code.Rewrites rule old new) : Lockstep M M old new (RewritesConfig rule R) := by
  refine ⟨fun hab => hab.2.2, ?_⟩
  rintro ⟨p, ρ, w⟩ ⟨p', σ, w'⟩ ⟨hp, hρ, hw⟩
  simp only at hp hρ hw
  subst hw
  -- Induction on the rewriting of what is left: pieces that are dropped cost the old code alone
  -- some steps.
  induction hp generalizing ρ w with
  | nil => exact ⟨1, 1, Nat.one_pos, Nat.one_pos, .halted .ranOff w⟩
  | @piece a b q q' hab hq ih =>
    have hs := hsound hab
    have he := hs.effect ρ σ w hρ
    obtain ⟨m, hm, hrun⟩ := M.exists_run_piece old a q ρ w
    cases b with
    | nil =>
      generalize hold : M.pieceEffect a ρ w = e at he hrun
      cases he with
      | next w' hρ' =>
        obtain ⟨m', n', hm', hn', hmatch⟩ := ih _ _ hρ'
        refine ⟨m + m', n', by omega, hn', ?_⟩
        rw [Machine.run_add, hrun]
        exact hmatch
    | cons y b =>
      obtain ⟨n, hn, hrun'⟩ := M.exists_run_piece new (y :: b) q' σ w
      refine ⟨m, n, hm hs.nonempty, hn (List.cons_ne_nil y b), ?_⟩
      rw [hrun, hrun']
      exact he.resolve hsound h hq

theorem behaviour_eq_of_rewrites (hsound : ∀ {a b}, rule a b → SoundRule M R a b)
    (h : Code.Rewrites rule old new) {ρ σ : Regs} (hρ : R ρ σ) (w : World) :
    M.behaviour old ρ w = M.behaviour new σ w :=
  behaviour_eq_of_lockstep (lockstep_of_rewrites hsound h) ⟨h, hρ, rfl⟩

end

end ThreeAddress
