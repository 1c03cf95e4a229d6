import ThreeAddress.Proofs.Threading

/-!
# Paths through code

`Code.Edge` says where control may go from a position, whatever values the registers have, and
`Code.Path` which positions it may pass on its way from the first one. On valid code no path reads a
temporary that it has not set (`Code.SetsTemps`) if none does in its first steps, however many they
are (`Code.SetWithin`). The second is said of the code that is still to be run, so that proofs can
follow lowering and the rewriting of code.
-/

namespace ThreeAddress
set_option autoImplicit false

theorem Opcode.isDefinition_of_isBranch {op : Opcode} (h : op.isBranch = true) :
    op.isDefinition = false := by
  rcases isBranch_iff.mp h with rfl | rfl | rfl <;> rfl

/-- The result goes to the register. -/
def Instr.Sets (x : Instr) (k : RegKey) : Prop := x.dst?.map Reg.key = some k

namespace Instr
variable {k : RegKey}

theorem sets_iff {x : Instr} :
    x.Sets k ↔ x.op.isDefinition = true ∧ Operand.keyAt? (x.operand? 0) = some k := by
  rw [Sets, dst?]
  cases x.op.isDefinition with
  | false => simp
  | true => exact (and_iff_right rfl).symm

theorem sets_into {op : Opcode} (hop : op.isDefinition = true) {r : Reg}
    {rest : List (Option Operand)} :
    Sets ⟨op, some (.reg r) :: rest⟩ k ↔ r.key = k := by
  rw [sets_iff, and_iff_right hop]
  exact Option.some_inj

theorem not_sets {x : Instr} (hop : x.op.isDefinition = false) : ¬ x.Sets k := by
  rw [sets_iff, hop]
  exact fun h => Bool.false_ne_true h.1

end Instr

namespace Code

/-- Control may go from one position to the other. -/
inductive Edge (code : Code) : Nat → Nat → Prop where
  | next {i : Nat} {x : Instr} : code[i]? = some x → x.op.isTerminator = false → Edge code i (i + 1)
  | jump {i j : Nat} {x y : Instr} {l : Label} :
    code[i]? = some x → x.goal? = some l → code[j]? = some y → y.label? = some l → Edge code i j

/-- A way from the first position to `i` that passes `before`. -/
inductive Path (code : Code) : List Nat → Nat → Prop where
  | start : Path code [] 0
  | step {before : List Nat} {i j : Nat} : Path code before i → code.Edge i j →
      Path code (before ++ [i]) j

/-- On every path, a temporary is set before it is read. -/
def SetsTemps (code : Code) : Prop :=
  ∀ before i x k, code.Path before i → code[i]? = some x → k ∈ x.reads → k.temp = true →
    ∃ j ∈ before, ∃ y, code[j]? = some y ∧ y.Sets k

/-- None of the next `n` instructions, however control goes on, reads the register unless one before
it sets it. -/
def SetWithin (code : Code) (k : RegKey) : Nat → Code → Prop
  | 0, _ => True
  | _ + 1, [] => True
  | n + 1, x :: rest =>
    k ∉ x.reads ∧ (¬ x.Sets k → (x.op.isTerminator = false → code.SetWithin k n rest) ∧
      ∀ l, x.goal? = some l → code.SetWithin k n (code.seek l))

/-- However control goes on, the register is set before it is read. -/
def SetFirst (code : Code) (k : RegKey) (rest : Code) : Prop := ∀ n, code.SetWithin k n rest

variable {code rest : Code} {k : RegKey} {n : Nat} {x : Instr}

@[simp] theorem setWithin_zero : code.SetWithin k 0 rest := trivial

@[simp] theorem setWithin_nil : code.SetWithin k n [] := by
  cases n <;> trivial

theorem SetWithin.of_succ (h : code.SetWithin k (n + 1) rest) : code.SetWithin k n rest := by
  induction n generalizing rest with
  | zero => trivial
  | succ n ih =>
    cases rest with
    | nil => trivial
    | cons x rest =>
      obtain ⟨hreads, hgo⟩ := h
      refine ⟨hreads, fun hx => ?_⟩
      obtain ⟨hnext, hjump⟩ := hgo hx
      exact ⟨fun hlive => ih (hnext hlive), fun l hl => ih (hjump l hl)⟩

theorem SetWithin.cons (hreads : k ∉ x.reads)
    (hnext : ¬ x.Sets k → x.op.isTerminator = false → code.SetWithin k n rest)
    (hjump : ∀ l, x.goal? = some l → code.SetWithin k n (code.seek l)) :
    code.SetWithin k n (x :: rest) := by
  cases n with
  | zero => trivial
  | succ n =>
    exact ⟨hreads,
      fun hx => ⟨fun hlive => (hnext hx hlive).of_succ, fun l hl => (hjump l hl).of_succ⟩⟩

theorem SetWithin.of_not_mem (hcode : k ∉ code.reads) (hrest : rest <:+ code) :
    code.SetWithin k n rest := by
  induction n generalizing rest with
  | zero => trivial
  | succ n ih =>
    cases rest with
    | nil => trivial
    | cons x rest =>
      have hx : k ∉ x.reads :=
        fun hk => hcode (List.mem_flatMap.mpr ⟨x, hrest.subset List.mem_cons_self, hk⟩)
      exact ⟨hx, fun _ =>
        ⟨fun _ => ih ((List.suffix_cons x rest).trans hrest), fun l _ => ih (code.seek_suffix l)⟩⟩

theorem drop_eq_cons {i : Nat} (h : code[i]? = some x) : code.drop i = x :: code.drop (i + 1) := by
  rw [List.drop_eq_getElem?_toList_append, h]
  rfl

namespace SetFirst

theorem not_mem_reads (h : code.SetFirst k (x :: rest)) : k ∉ x.reads := (h 1).1

theorem next (h : code.SetFirst k (x :: rest)) (hx : ¬ x.Sets k)
    (hlive : x.op.isTerminator = false) :
    code.SetFirst k rest := fun n => ((h (n + 1)).2 hx).1 hlive

theorem jump (h : code.SetFirst k (x :: rest)) (hx : ¬ x.Sets k) {l : Label}
    (hl : x.goal? = some l) :
    code.SetFirst k (code.seek l) := fun n => ((h (n + 1)).2 hx).2 l hl

theorem edge (hnodup : code.labels.Nodup) {i j : Nat} (h : code.SetFirst k (code.drop i))
    (hedge : code.Edge i j) (hx : ∀ x, code[i]? = some x → ¬ x.Sets k) :
    code.SetFirst k (code.drop j) := by
  cases hedge with
  | next hi hlive =>
    rw [drop_eq_cons hi] at h
    exact h.next (hx _ hi) hlive
  | jump hi hgoal hj hlabel =>
    have hsuffix := drop_eq_cons hj ▸ List.drop_suffix j code
    rw [drop_eq_cons hi] at h
    rw [drop_eq_cons hj, ← seek_of_suffix hnodup hsuffix hlabel]
    exact h.jump (hx _ hi) hgoal

theorem path (hnodup : code.labels.Nodup) (h : code.SetFirst k code) {before : List Nat} {i : Nat}
    (hpath : code.Path before i) (hbefore : ∀ j ∈ before, ∀ y, code[j]? = some y → ¬ y.Sets k) :
    code.SetFirst k (code.drop i) := by
  induction hpath with
  | start => exact h
  | step _ hedge ih =>
    obtain ⟨hbefore, hi⟩ := List.forall_mem_append.mp hbefore
    exact (ih hbefore).edge hnodup hedge (List.forall_mem_singleton.mp hi)

end SetFirst

theorem setsTemps_of_setFirst (hnodup : code.labels.Nodup)
    (h : ∀ k, k.temp = true → code.SetFirst k code) :
    code.SetsTemps := by
  intro before i x k hpath hi hk htemp
  by_contra hnone
  have hfirst := (h k htemp).path hnodup hpath fun j hj y hy hset => hnone ⟨j, hj, y, hy, hset⟩
  rw [drop_eq_cons hi] at hfirst
  exact hfirst.not_mem_reads hk

end Code

end ThreeAddress
