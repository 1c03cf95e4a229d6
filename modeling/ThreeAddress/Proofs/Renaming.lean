import Mathlib.Data.List.Count
import Mathlib.Data.List.Nodup
import ThreeAddress.Proofs.LocalSteps

/-!
# Renaming registers and labels

A `Renaming` gives labels and temporaries other numbers, without taking two for one, and named
registers other names. The steps that look at neighbouring instructions do not depend on such
things: what they make of renamed code is what they make of the code, renamed.
-/

namespace ThreeAddress
set_option autoImplicit false

structure Renaming where
  label : Label → Label
  temp : Int → Int
  /-- The new name of the named register of that index, from the old one. -/
  name : Int → Bytes → Bytes
  label_injective : Function.Injective label
  label_nonneg : ∀ l, 0 ≤ (label l).handle
  temp_injective : Function.Injective temp

def Renaming.onlyNames (ρ : Renaming) : Renaming :=
  { ρ with temp := id, temp_injective := Function.injective_id }

def Reg.rename (ρ : Renaming) (r : Reg) : Reg :=
  if r.temp then { r with index := ρ.temp r.index } else { r with name := ρ.name r.index r.name }

def RegKey.rename (ρ : Renaming) (k : RegKey) : RegKey :=
  if k.temp then ⟨true, ρ.temp k.index⟩ else k

def Operand.rename (ρ : Renaming) : Operand → Operand
  | .reg r => .reg (r.rename ρ)
  | .label l => .label (ρ.label l)
  | .callee l w => .callee (ρ.label l) w
  | a => a

def Instr.rename (ρ : Renaming) (x : Instr) : Instr :=
  ⟨x.op, x.args.map (Option.map (Operand.rename ρ))⟩

def Code.rename (ρ : Renaming) (code : Code) : Code := code.map (Instr.rename ρ)

def Simplified.rename (ρ : Renaming) (r : Simplified) : Simplified := ⟨r.code.rename ρ, r.changed⟩

def Fold.rename (ρ : Renaming) (f : Fold) : Fold := ⟨f.branch.rename ρ, f.keep⟩

theorem Fault.bind_eq_map_bind {α α' β β' : Type} {x : Except Fault α} {x' : Except Fault α'}
    {f : α → α'} {k : β → β'} {g : α' → Except Fault β'} {h : α → Except Fault β}
    (hx : x' = x.map f) (hgh : ∀ a, g (f a) = (h a).map k) :
    (x' >>= g) = (x >>= h).map k := by
  subst hx
  cases x with
  | error e => rfl
  | ok a => exact hgh a

section
variable (ρ : Renaming)

theorem Reg.key_rename (r : Reg) : (r.rename ρ).key = r.key.rename ρ := by
  obtain ⟨index, width, temp, name⟩ := r
  cases temp <;> rfl

theorem RegKey.rename_injective : Function.Injective (RegKey.rename ρ) := by
  rintro ⟨temp, i⟩ ⟨temp', j⟩ h
  cases temp with
  | false =>
    cases temp' with
    | false => exact h
    | true => cases congrArg RegKey.temp h
  | true =>
    cases temp' with
    | false => cases congrArg RegKey.temp h
    | true => exact congrArg (RegKey.mk true) (ρ.temp_injective (congrArg RegKey.index h))

namespace Operand

theorem keyAt?_rename (a : Option Operand) :
    keyAt? (a.map (rename ρ)) = (keyAt? a).map (RegKey.rename ρ) := by
  rcases a with _ | a
  · rfl
  · cases a with
    | reg r => exact congrArg some (r.key_rename ρ)
    | _ => rfl

theorem sameReg_rename (a b : Option Operand) :
    sameReg (a.map (rename ρ)) (b.map (rename ρ)) = sameReg a b := by
  unfold sameReg
  rw [keyAt?_rename, keyAt?_rename]
  cases keyAt? a with
  | none => rfl
  | some j =>
    cases keyAt? b with
    | none => rfl
    | some k => simp [beq_eq_decide, (RegKey.rename_injective ρ).eq_iff]

theorem isZero_rename (a : Option Operand) : isZero (a.map (rename ρ)) = isZero a := by
  rcases a with _ | a
  · rfl
  · cases a <;> rfl

end Operand

theorem Slot.takes_rename (s : Slot) (a : Option Operand) :
    s.takes (a.map (Operand.rename ρ)) = s.takes a := by
  rcases a with _ | a
  · rfl
  · cases a <;> cases s <;> rfl

namespace Instr
variable (x : Instr)

@[simp] theorem op_rename : (x.rename ρ).op = x.op := rfl

theorem getElem?_args_rename (i : Nat) :
    (x.rename ρ).args[i]? = x.args[i]?.map (Option.map (Operand.rename ρ)) :=
  List.getElem?_map ..

theorem operand?_rename (i : Nat) :
    (x.rename ρ).operand? i = (x.operand? i).map (Operand.rename ρ) := by
  rw [operand?, getElem?_args_rename, operand?]
  rcases x.args[i]? with _ | a <;> rfl

theorem place_rename (i : Nat) :
    (x.rename ρ).place i = (x.place i).map (Option.map (Operand.rename ρ)) := by
  unfold place
  rw [getElem?_args_rename]
  cases x.args[i]? <;> rfl

theorem setPlace_rename (i : Nat) (a : Option Operand) :
    (x.rename ρ).setPlace i (a.map (Operand.rename ρ)) = (x.setPlace i a).map (rename ρ) := by
  unfold setPlace rename
  rw [List.length_map, ← List.map_set]
  split <;> rfl

theorem dst?_rename : (x.rename ρ).dst? = x.dst?.map (Reg.rename ρ) := by
  unfold dst?
  rw [op_rename, operand?_rename]
  split
  · rcases x.operand? 0 with _ | a
    · rfl
    · cases a <;> rfl
  · rfl

theorem target?_rename : (x.rename ρ).target? = x.target?.map ρ.label := by
  unfold target?
  rw [op_rename, operand?_rename]
  split
  · rcases x.operand? 0 with _ | a
    · rfl
    · cases a <;> rfl
  · rfl

theorem cond?_rename : (x.rename ρ).cond? = x.cond?.map (Option.map (Operand.rename ρ)) := by
  unfold cond?
  rw [op_rename, getElem?_args_rename]
  split <;> rfl

theorem label?_rename : (x.rename ρ).label? = x.label?.map ρ.label := by
  rw [label?, label?, op_rename, target?_rename]
  split <;> rfl

theorem goal?_rename : (x.rename ρ).goal? = x.goal?.map ρ.label := by
  rw [goal?, goal?, op_rename, target?_rename]
  split <;> rfl

theorem keys_rename : (x.rename ρ).keys = x.keys.map (RegKey.rename ρ) := by
  unfold keys rename
  rw [List.filterMap_map, List.map_filterMap]
  exact congrArg (List.filterMap · x.args) (funext (Operand.keyAt?_rename ρ))

theorem WellFormed.rename {x : Instr} (h : x.WellFormed) : (x.rename ρ).WellFormed :=
  (wellFormed_map_iff (Slot.takes_rename ρ)).mpr h

end Instr

namespace Code
variable (code : Code)

@[simp] theorem rename_nil : rename ρ [] = [] := rfl

@[simp] theorem rename_cons (x : Instr) : rename ρ (x :: code) = x.rename ρ :: rename ρ code := rfl

@[simp] theorem length_rename : (rename ρ code).length = code.length := List.length_map ..

theorem labels_rename : labels (rename ρ code) = (labels code).map ρ.label := by
  rw [labels, rename, List.filterMap_map, labels, List.map_filterMap]
  exact congrArg (List.filterMap · code) (funext (Instr.label?_rename ρ))

theorem targets_rename : targets (rename ρ code) = (targets code).map ρ.label := by
  rw [targets, rename, List.filterMap_map, targets, List.map_filterMap]
  exact congrArg (List.filterMap · code) (funext (Instr.goal?_rename ρ))

theorem regKeys_rename : regKeys (rename ρ code) = (regKeys code).map (RegKey.rename ρ) := by
  rw [regKeys_eq, rename, List.flatMap_map, regKeys_eq, List.map_flatMap]
  exact congrArg (List.flatMap · code) (funext (Instr.keys_rename ρ))

theorem occurrences_rename (k : RegKey) :
    occurrences (rename ρ code) (k.rename ρ) = occurrences code k := by
  rw [occurrences, regKeys_rename,
    List.count_map_of_injective _ _ (RegKey.rename_injective ρ), occurrences]

theorem Valid.rename {code : Code} (h : Valid code) : Valid (rename ρ code) where
  wellFormed y hy := by
    obtain ⟨x, hx, rfl⟩ := List.mem_map.mp hy
    exact (h.wellFormed x hx).rename ρ
  nodup := by
    rw [labels_rename]
    exact h.nodup.map ρ.label_injective
  nonneg l hl := by
    rw [labels_rename] at hl
    obtain ⟨m, _, rfl⟩ := List.mem_map.mp hl
    exact ρ.label_nonneg m
  resolved l hl := by
    rw [targets_rename] at hl
    obtain ⟨m, hm, rfl⟩ := List.mem_map.mp hl
    rw [labels_rename]
    exact List.mem_map_of_mem (h.resolved m hm)

end Code

namespace Instr
variable {uses uses' : RegKey → Nat} (huses : ∀ k, uses' (k.rename ρ) = uses k) (x y : Instr)
include huses

theorem isUnread_rename : (x.rename ρ).isUnread uses' = x.isUnread uses := by
  unfold isUnread
  rw [dst?_rename]
  cases x.dst? with
  | none => rfl
  | some r =>
    simp only [Option.map_some]
    rw [Reg.key_rename, huses, op_rename]

theorem isMovedOnBy_rename :
    (x.rename ρ).isMovedOnBy uses' (y.rename ρ) = x.isMovedOnBy uses y := by
  unfold isMovedOnBy
  rw [dst?_rename]
  cases x.dst? with
  | none => rfl
  | some r =>
    simp only [Option.map_some]
    rw [op_rename, place_rename, Reg.key_rename, huses]
    split
    · cases y.place 1 with
      | error e => rfl
      | ok a =>
        have hsame := Operand.sameReg_rename ρ a (some (.reg r))
        exact congrArg (fun b => Except.ok (b && uses r.key == 2)) hsame
    · rfl

theorem foldInto_rename :
    (x.rename ρ).foldInto uses' (y.rename ρ) =
      (x.foldInto uses y).map (Option.map (Fold.rename ρ)) := by
  unfold foldInto
  rw [op_rename, op_rename, dst?_rename, cond?_rename]
  cases Opcode.folded? x.op y.op with
  | none => rfl
  | some op =>
    cases x.dst? with
    | none => rfl
    | some d =>
      cases y.cond? with
      | none => rfl
      | some c =>
        have hsame : Operand.sameReg (some (.reg (d.rename ρ))) (c.map (Operand.rename ρ)) =
            Operand.sameReg (some (.reg d)) c := Operand.sameReg_rename ρ (some (.reg d)) c
        -- the branch gets the target of the one and the operand of the other
        have hbranch (keep : Bool) :
            (do
              let a ← (y.rename ρ).place 0
              let b ← (x.rename ρ).place 1
              return some (⟨⟨op, [a, b]⟩, keep⟩ : Fold)) =
            Except.map (Option.map (Fold.rename ρ))
              (do return some ⟨⟨op, [← y.place 0, ← x.place 1]⟩, keep⟩) := by
          apply Fault.bind_eq_map_bind (y.place_rename ρ 0)
          intro a
          apply Fault.bind_eq_map_bind (x.place_rename ρ 1)
          intro b
          rfl
        simp only [Option.map_some]
        rw [hsame, Reg.key_rename, huses]
        split
        · split
          · apply Fault.bind_eq_map_bind (x.place_rename ρ 2)
            intro a
            rw [Operand.isZero_rename]
            split
            · exact hbranch _
            · rfl
          · exact hbranch _
        · rfl

omit huses in
theorem testSource_rename :
    (x.rename ρ).testSource (y.rename ρ) = (x.testSource y).map (Option.map (rename ρ)) := by
  have hcond : (y.rename ρ).cond?.join = y.cond?.join.map (Operand.rename ρ) := by
    rw [cond?_rename]
    cases y.cond? <;> rfl
  unfold testSource
  rw [op_rename, op_rename, hcond]
  split
  · apply Fault.bind_eq_map_bind (x.place_rename ρ 0)
    intro a
    rw [Operand.sameReg_rename]
    split
    · apply Fault.bind_eq_map_bind (x.place_rename ρ 1)
      intro b
      rw [Operand.sameReg_rename]
      split
      · rfl
      · apply Fault.bind_eq_map_bind (y.setPlace_rename ρ 1 b)
        intro z
        rfl
    · rfl
  · rfl

end Instr

namespace Code
variable {uses uses' : RegKey → Nat} (huses : ∀ k, uses' (k.rename ρ) = uses k) (code : Code)

theorem ofShorter_rename (before after : Code) :
    Simplified.ofShorter (rename ρ before) (rename ρ after) =
      (Simplified.ofShorter before after).rename ρ := by
  simp [Simplified.ofShorter, Simplified.rename]

theorem dropNops_rename : dropNops (rename ρ code) = (dropNops code).rename ρ := by
  rw [dropNops, dropNops, ← ofShorter_rename, rename, List.filter_map]
  rfl

theorem dropUnread_rename : dropUnread (rename ρ code) = (dropUnread code).rename ρ := by
  rw [dropUnread_eq, dropUnread_eq, ← ofShorter_rename, rename, List.filter_map]
  congr 2
  apply List.filter_congr
  intro x _
  exact congrArg (! ·) (x.isUnread_rename ρ (occurrences_rename ρ code))

section
include huses

theorem foldTestsWith_rename :
    foldTestsWith uses' (rename ρ code) = (foldTestsWith uses code).map (Simplified.rename ρ) := by
  fun_induction foldTestsWith uses code with
  | case1 x y rest ihFolded ihNext =>
    rw [rename_cons, rename_cons, foldTestsWith]
    apply Fault.bind_eq_map_bind (x.foldInto_rename ρ huses y)
    intro fold
    cases fold with
    | none =>
      apply Fault.bind_eq_map_bind ihNext
      intro r
      rfl
    | some fold =>
      apply Fault.bind_eq_map_bind ihFolded
      intro r
      obtain ⟨branch, keep⟩ := fold
      cases keep <;> rfl
  | case2 x => rfl
  | case3 => rfl

theorem forwardResultsWith_rename :
    forwardResultsWith uses' (rename ρ code) =
      (forwardResultsWith uses code).map (Simplified.rename ρ) := by
  fun_induction forwardResultsWith uses code with
  | case1 x y rest ihMerged ihNext =>
    have hmoved : (x.rename ρ).isMovedOnBy uses' (y.rename ρ) = (x.isMovedOnBy uses y).map id := by
      rw [Instr.isMovedOnBy_rename ρ huses, Except.map_id, id]
    rw [rename_cons, rename_cons, forwardResultsWith]
    apply Fault.bind_eq_map_bind hmoved
    intro moved
    cases moved with
    | false =>
      apply Fault.bind_eq_map_bind ihNext
      intro r
      rfl
    | true =>
      apply Fault.bind_eq_map_bind (y.place_rename ρ 0)
      intro a
      apply Fault.bind_eq_map_bind (x.setPlace_rename ρ 0 a)
      intro z
      apply Fault.bind_eq_map_bind ihMerged
      intro r
      rfl
  | case2 x => rfl
  | case3 => rfl

end

theorem foldTests_rename : foldTests (rename ρ code) = (foldTests code).map (Simplified.rename ρ) :=
  foldTestsWith_rename ρ (occurrences_rename ρ code) code

theorem forwardResults_rename :
    forwardResults (rename ρ code) = (forwardResults code).map (Simplified.rename ρ) :=
  forwardResultsWith_rename ρ (occurrences_rename ρ code) code

theorem testSources_rename :
    testSources (rename ρ code) = (testSources code).map (Simplified.rename ρ) := by
  have hafter (x : Instr) (rest : Code) : testSourcesAfter (x.rename ρ) (rename ρ rest) =
      (testSourcesAfter x rest).map (Simplified.rename ρ) := by
    induction rest generalizing x with
    | nil => rfl
    | cons y rest ih =>
      rw [rename_cons, testSourcesAfter, testSourcesAfter]
      apply Fault.bind_eq_map_bind (x.testSource_rename ρ y)
      intro tested
      cases tested with
      | none =>
        apply Fault.bind_eq_map_bind (ih y)
        intro r
        rfl
      | some z =>
        apply Fault.bind_eq_map_bind (ih z)
        intro r
        rfl
  cases code with
  | nil => rfl
  | cons x rest => exact hafter x rest

theorem settle_rename : settle (rename ρ code) = (settle code).map (Simplified.rename ρ) := by
  fun_induction settle code with
  | case1 code e he =>
    rw [settle_eq_bind, forwardResults_rename, he]
    rfl
  | case2 code forwarded hf kept hchanged ih =>
    have hkept : dropUnread (forwarded.rename ρ).code = kept.rename ρ :=
      dropUnread_rename ρ forwarded.code
    rw [settle_eq_bind, forwardResults_rename, hf]
    change (if ((forwarded.rename ρ).changed || (dropUnread (forwarded.rename ρ).code).changed) =
      true then _ else _) = _
    rw [hkept]
    refine (if_pos hchanged).trans ?_
    change (settle (rename ρ kept.code) >>= _) = _
    rw [ih]
    cases settle kept.code <;> rfl
  | case3 code forwarded hf kept hchanged =>
    have hkept : dropUnread (forwarded.rename ρ).code = kept.rename ρ :=
      dropUnread_rename ρ forwarded.code
    rw [settle_eq_bind, forwardResults_rename, hf]
    change (if ((forwarded.rename ρ).changed || (dropUnread (forwarded.rename ρ).code).changed) =
      true then _ else _) = _
    rw [hkept]
    exact if_neg hchanged

end Code

end

end ThreeAddress
