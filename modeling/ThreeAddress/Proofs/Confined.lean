import ThreeAddress.Proofs.Changes
import ThreeAddress.Proofs.Paths
import ThreeAddress.Proofs.PipelineBehaviour

/-!
# Control stays inside the code

Lowered code ends in a jump or a return, apart from marks, and so does what any sequence of passes
makes of it: a pass that drops the last of them has kept one before it that control does not get
past. In valid code of this kind control goes from no position that it comes to beyond the end
(`Session.lowerFunc_confined`).
-/

namespace ThreeAddress
set_option autoImplicit false

namespace Code

def StaysInside (code : Code) : Prop :=
  ∀ before i, code.Path before i → ∃ x, code[i]? = some x ∧
    (x.op.isTerminator = false → i + 1 < code.length) ∧
    (x.op.isBranch = true → ∃ l j, x.target? = some l ∧ code.find? l = some j ∧ j < code.length)

structure Confined (code : Code) : Prop where
  nonempty : code ≠ []
  last : ∃ x, (code.filter (·.op ≠ .nop)).getLast? = some x ∧ (x.op = .br ∨ x.op = .ret)
  inside : code.StaysInside

/-- Control does not come to the end, where `held` says that it does not come to the start. -/
def closesFrom (held : Bool) : Code → Bool
  | [] => held
  | x :: rest => closesFrom (if x.op = .nop then held else x.op.isTerminator) rest

section
variable {held : Bool} {code : Code} {x : Instr}

theorem closesFrom_eq (held : Bool) (code : Code) : code.closesFrom held =
    ((code.filter (·.op ≠ .nop)).getLast?.map fun x => x.op.isTerminator).getD held := by
  induction code generalizing held with
  | nil => rfl
  | cons x rest ih =>
    rw [closesFrom, ih]
    by_cases hx : x.op = .nop
    · simp [hx]
    · rw [if_neg hx, List.filter_cons_of_pos (by simpa using hx), List.getLast?_cons]
      cases (rest.filter (·.op ≠ .nop)).getLast? <;> rfl

theorem isTerminated_eq (code : Code) : code.isTerminated = code.closesFrom false := by
  rw [closesFrom_eq, isTerminated]
  cases (code.filter (·.op ≠ .nop)).getLast? <;> rfl

theorem closesFrom_append (held : Bool) (c d : Code) :
    closesFrom held (c ++ d) = d.closesFrom (c.closesFrom held) := by
  induction c generalizing held with
  | nil => rfl
  | cons x c ih => exact ih _

theorem closesFrom_mono {held' : Bool} (hle : held = true → held' = true)
    (h : code.closesFrom held = true) :
    code.closesFrom held' = true := by
  induction code generalizing held held' with
  | nil => exact hle h
  | cons x rest ih =>
    refine ih ?_ h
    split
    · exact hle
    · exact id

theorem closesFrom_live (hnop : x.op ≠ .nop) (hlive : x.op.isTerminator = false) (c : Code) :
    closesFrom held (c ++ [x]) = false := by
  rw [closesFrom_append, closesFrom, closesFrom, if_neg hnop, hlive]

theorem closesFrom_rule {folding : Prop} {gone : Code → RegKey → Prop}
    {apart : Reg → Operand → Prop} {a b : Code} (h : Rule folding gone apart a b)
    (ha : a.closesFrom held = true) : b.closesFrom held = true := by
  have habsurd (c : Code) (op : Opcode) (args : List (Option Operand))
      (hop : op.isDefinition = true ∨ op = .brz ∨ op = .bnz)
      (hc : closesFrom held (c ++ [⟨op, args⟩]) = true) : b.closesFrom held = true := by
    have hnop : op ≠ .nop := by
      intro heq
      rw [heq] at hop
      simp [Opcode.isDefinition] at hop
    have hlive : op.isTerminator = false := by
      rcases hop with hop | hop | hop
      · exact (straight_definition hop args).2
      · rw [hop]
        rfl
      · rw [hop]
        rfl
    rw [closesFrom_live (x := ⟨op, args⟩) hnop hlive] at hc
    cases hc
  cases h with
  | keep x => exact ha
  | nop hx => simpa [closesFrom, hx] using ha
  | unread hd => exact habsurd [] _ _ (.inl hd) ha
  | forward => exact habsurd [_] .mov _ (.inl rfl) ha
  | foldDrop _ hf => exact habsurd [_] _ _ (.inr (Opcode.folded?_eq_some hf).1) ha
  | foldKeep _ hf => exact habsurd [_] _ _ (.inr (Opcode.folded?_eq_some hf).1) ha
  | source => exact habsurd [_] .brz _ (.inr (.inl rfl)) ha

theorem closesFrom_rewrites {folding : Prop} {gone : Code → RegKey → Prop}
    {apart : Reg → Operand → Prop} {old new : Code} (h : Rewrites (Rule folding gone apart) old new)
    (hold : old.closesFrom held = true) : new.closesFrom held = true := by
  induction h generalizing held with
  | nil => exact hold
  | piece hab _ ih =>
    rw [closesFrom_append] at hold ⊢
    exact closesFrom_mono (closesFrom_rule hab) (ih hold)

theorem closesFrom_renumber (order : List Int) (held : Bool) (code : Code) :
    closesFrom held (code.map (Instr.renumber order)) = code.closesFrom held := by
  induction code generalizing held with
  | nil => rfl
  | cons x rest ih => exact ih _

/-- The jump that threading drops is followed by a label, so that it is not the last thing to
happen. -/
theorem closesFrom_threadBy (land : Label → Label) (held : Bool) (code : Code) :
    closesFrom held (code.threadBy land) = code.closesFrom held := by
  induction code generalizing held with
  | nil => rfl
  | cons x rest ih =>
    cases hskip : x.skips rest with
    | true =>
      obtain ⟨l, y, more, _, _, rfl, hy⟩ := Instr.skips_iff.mp hskip
      have hlabel := Instr.op_eq_of_label? hy
      rw [threadBy_of_skips hskip, ih, closesFrom, closesFrom, closesFrom]
      simp [hlabel]
    | false => rw [threadBy_of_not hskip, closesFrom, closesFrom, Instr.op_retarget, ih]

theorem closesFrom_reachableFrom {dead : Bool} (h : code.closesFrom dead = true) :
    closesFrom dead (code.reachableFrom dead) = true := by
  induction code generalizing dead with
  | nil => exact h
  | cons x rest ih =>
    rw [closesFrom] at h
    rcases reachable_cases dead x with hkeep | ⟨rfl, hdrop⟩
    · rw [reachableFrom_keep hkeep, closesFrom]
      split at h
      · rename_i hnop
        have hdead : dead = false := by
          cases dead with
          | false => rfl
          | true =>
            have hlabel := hkeep rfl
            rw [hnop] at hlabel
            cases hlabel
        rw [if_pos hnop, hnop, hdead]
        apply ih
        rw [hdead] at h
        exact h
      · rename_i hnop
        rw [if_neg hnop]
        exact ih h
    · rw [reachableFrom_drop hdrop]
      apply ih
      exact closesFrom_mono (fun _ => rfl) h

theorem Change.isTerminated {old new : Code} (h : Change old new) (hold : old.isTerminated = true) :
    new.isTerminated = true := by
  rw [isTerminated_eq] at hold ⊢
  cases h with
  | rewrite h => exact closesFrom_rewrites h hold
  | renumber =>
    rw [code_renumberTemps]
    exact (closesFrom_renumber _ _ old).trans hold
  | thread => exact (closesFrom_threadBy _ _ old).trans hold
  | prune => exact closesFrom_reachableFrom hold

theorem isTerminated_of_edge {i j : Nat} (hterm : code.isTerminated = true)
    (h : isTerminated (code.drop i) = true) (hedge : code.Edge i j) :
    isTerminated (code.drop j) = true := by
  cases hedge with
  | next hi hlive =>
    rw [drop_eq_cons hi] at h
    apply (isTerminated_cons h).resolve_left
    rw [hlive]
    exact Bool.false_ne_true
  | jump _ _ hj hlabel =>
    rw [drop_eq_cons hj]
    apply isTerminated_of_suffix hterm
    · rw [← drop_eq_cons hj]
      exact List.drop_suffix j code
    · rw [Instr.op_eq_of_label? hlabel]
      exact Opcode.noConfusion

theorem isTerminated_of_path (hterm : code.isTerminated = true) {before : List Nat} {i : Nat}
    (h : code.Path before i) :
    isTerminated (code.drop i) = true := by
  induction h with
  | start => exact hterm
  | step _ hedge ih => exact isTerminated_of_edge hterm ih hedge

theorem exists_of_isTerminated {i : Nat} (h : isTerminated (code.drop i) = true) :
    ∃ x, code[i]? = some x := by
  cases hi : code[i]? with
  | some x => exact ⟨x, rfl⟩
  | none =>
    rw [List.drop_eq_nil_of_le (List.getElem?_eq_none_iff.mp hi)] at h
    cases h

theorem confined_of_isTerminated (hv : Valid code) (hterm : code.isTerminated = true) :
    code.Confined where
  nonempty := by
    intro hnil
    rw [hnil] at hterm
    cases hterm
  last := by
    unfold isTerminated at hterm
    split at hterm
    · rename_i x hx
      exact ⟨x, hx, Opcode.isTerminator_iff.mp hterm⟩
    · cases hterm
  inside := by
    intro before i hpath
    have hrest := isTerminated_of_path hterm hpath
    obtain ⟨x, hi⟩ := exists_of_isTerminated hrest
    have hx : x ∈ code := List.mem_of_getElem? hi
    refine ⟨x, hi, ?_, ?_⟩
    · intro hlive
      have hnext := isTerminated_of_edge hterm hrest (.next hi hlive)
      obtain ⟨y, hy⟩ := exists_of_isTerminated hnext
      exact (List.getElem?_eq_some_iff.mp hy).1
    · intro hbranch
      obtain ⟨l, _, _, htarget⟩ := (hv.wellFormed x hx).exists_target (.inl hbranch)
      have hgoal : x.goal? = some l := by rw [Instr.goal?, if_pos hbranch, htarget]
      have hl := hv.resolved l (List.mem_filterMap.mpr ⟨x, hx, hgoal⟩)
      obtain ⟨j, hj⟩ := Option.isSome_iff_exists.mp (find?_isSome_iff.mpr hl)
      exact ⟨l, j, htarget, hj, (List.findIdx?_eq_some_iff_getElem.mp hj).1⟩

end

end Code

/-- Lowered code is not empty and ends in a jump or a return, and control never leaves it; and so it
is after any passes in any order. -/
theorem Session.lowerFunc_confined {s s' : Session} {d : Decl} {f : Func}
    (h : s.lowerFunc d = .ok (.ok f, s')) :
    f.code.Confined ∧ ∀ ps : List (Pass (Except Fault)), (∀ p ∈ ps, p ∈ Pass.all) →
      ∃ g changed, Pass.runAll ps f = .ok (g, .ok changed) ∧ g.code.Confined := by
  obtain ⟨hf, fin, hlower, _⟩ := lowerFunc_eq_ok h
  have hv := Func.verified_iff.mp hf
  have hterm : f.code.isTerminated = true := by
    obtain ⟨ps, s₁, c, _, _, rfl⟩ := Decl.lower_eq_ok hlower
    exact Code.isTerminated_terminate c
  refine ⟨Code.confined_of_isTerminated hv hterm, ?_⟩
  intro ps hps
  obtain ⟨c, changed, hrun, hc, hclosed⟩ :=
    Pass.runAll_keeps (fun _ hchange => hchange.isTerminated) hps hv hterm
  exact ⟨_, changed, hrun, Code.confined_of_isTerminated hc hclosed⟩

theorem Session.lowerFunc_confined_drain :
    ∃ f s', Session.empty.lowerFunc .drain = .ok (.ok f, s') ∧ f.code.Confined ∧
      ∃ g changed, Pass.runAll (Pass.all.reverse ++ Pass.all) f = .ok (g, .ok changed) ∧
        g.code.Confined := by
  obtain ⟨f, s', h⟩ := exists_lowerFunc_drain
  obtain ⟨hcode, hpasses⟩ := lowerFunc_confined h
  exact ⟨f, s', h, hcode, hpasses _ (by simp)⟩

end ThreeAddress
