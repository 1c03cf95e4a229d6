import Mathlib.Data.List.Basic
import ThreeAddress.Proofs.Rules
import ThreeAddress.Simplify

/-!
# Renumbering temporaries

Renumbering is one scan of the code, which gives every temporary a number when it first meets it.
What the scan knows is at any time determined by the temporaries met so far (`Numbering.after`), and
a number that was given stays; so each temporary gets its place among those of the whole code, and
no two of them the same (`renumberTemps_eq`). Nothing but register indices changes, so the code
stays valid (`renumberTemps_valid`) and does the same on registers that are renamed along
(`behaviour_renumberTemps`). Doing it twice does nothing more (`renumberTemps_renumberTemps`).
-/

namespace ThreeAddress
set_option autoImplicit false

/-- Gives a temporary another index, and leaves all else as it is. -/
def Operand.mapTemp (m : Int → Int) : Operand → Operand
  | .reg r => .reg (if r.temp then { r with index := m r.index } else r)
  | a => a

def Instr.mapTemps (m : Int → Int) (x : Instr) : Instr :=
  ⟨x.op, x.args.map (Option.map (Operand.mapTemp m))⟩

def Code.mapTemps (m : Int → Int) (code : Code) : Code := code.map (Instr.mapTemps m)

def Operand.renumber (order : List Int) : Operand → Operand := mapTemp fun i => order.idxOf i

def Instr.renumber (order : List Int) : Instr → Instr := mapTemps fun i => order.idxOf i

/-- The key that a register gets. -/
def RegKey.renumber (order : List Int) (k : RegKey) : RegKey :=
  if k.temp then ⟨true, order.idxOf k.index⟩ else k

theorem RegKey.renumber_inj {order : List Int} {j k : RegKey} (hj : j.temp = true → j.index ∈ order)
    (h : j.renumber order = k.renumber order) : j = k := by
  obtain ⟨t, i⟩ := j
  obtain ⟨t', i'⟩ := k
  cases t with
  | false =>
    cases t' with
    | false => exact h
    | true => exact absurd (congrArg RegKey.temp h) Bool.false_ne_true
  | true =>
    cases t' with
    | false => exact absurd (congrArg RegKey.temp h).symm Bool.false_ne_true
    | true =>
      have hindex : order.idxOf i = order.idxOf i' := Int.ofNat.inj (congrArg RegKey.index h)
      exact congrArg (RegKey.mk true) ((List.idxOf_inj (hj rfl)).mp hindex)

theorem Operand.keyAt?_renumber (order : List Int) (a : Option Operand) :
    keyAt? (a.map (Operand.renumber order)) = (keyAt? a).map (RegKey.renumber order) := by
  rcases a with _ | a
  · rfl
  · cases a with
    | reg r =>
      obtain ⟨i, w, t, n⟩ := r
      cases t <;> rfl
    | _ => rfl

theorem Slot.takes_renumber (s : Slot) (order : List Int) (a : Option Operand) :
    s.takes (a.map (Operand.renumber order)) = s.takes a := by
  rcases a with _ | a
  · rfl
  · cases a <;> cases s <;> rfl

namespace Instr
variable (order : List Int) (x : Instr)

theorem renumber_eq : x.renumber order = ⟨x.op, x.args.map (Option.map (Operand.renumber order))⟩ :=
  rfl

@[simp] theorem op_renumber : (x.renumber order).op = x.op := rfl

theorem operand?_renumber (i : Nat) :
    (x.renumber order).operand? i = (x.operand? i).map (Operand.renumber order) := by
  rw [operand?, renumber_eq, List.getElem?_map, operand?]
  rcases x.args[i]? with _ | a <;> rfl

theorem filterMap_keyAt?_renumber (args : List (Option Operand)) :
    (args.map (Option.map (Operand.renumber order))).filterMap Operand.keyAt? =
      (args.filterMap Operand.keyAt?).map (RegKey.renumber order) := by
  rw [List.filterMap_map, List.map_filterMap]
  congr 1
  funext a
  exact Operand.keyAt?_renumber order a

theorem mem_keys {x : Instr} {i : Nat} {k : RegKey} (h : Operand.keyAt? (x.operand? i) = some k) :
    k ∈ x.keys := by
  obtain ⟨r, hr, _⟩ := Operand.keyAt?_eq_some_iff.mp h
  rw [hr] at h
  exact List.mem_filterMap.mpr ⟨_, List.mem_of_getElem? (Option.join_eq_some_iff.mp hr), h⟩

theorem keys_renumber : (x.renumber order).keys = x.keys.map (RegKey.renumber order) :=
  filterMap_keyAt?_renumber order x.args

@[simp] theorem target?_renumber : (x.renumber order).target? = x.target? := by
  rw [target?, target?, op_renumber, operand?_renumber]
  rcases x.operand? 0 with _ | a
  · rfl
  · cases a <;> rfl

theorem label?_renumber : (x.renumber order).label? = x.label? := by
  rw [label?, label?, op_renumber, target?_renumber]

theorem goal?_renumber : (x.renumber order).goal? = x.goal? := by
  rw [goal?, goal?, op_renumber, target?_renumber]

theorem WellFormed.renumber (h : x.WellFormed) : (x.renumber order).WellFormed :=
  (wellFormed_map_iff fun s a => s.takes_renumber order a).mpr h

end Instr

namespace Machine
variable {M : Machine} {ρ σ : Regs} {order : List Int}

theorem value_renumber {a : Option Operand}
    (h : ∀ k, Operand.keyAt? a = some k → ρ k = σ (k.renumber order)) :
    M.value σ (a.map (Operand.renumber order)) = M.value ρ a := by
  rcases a with _ | a
  · rfl
  · cases a with
    | reg r =>
      rw [value, h r.key rfl]
      obtain ⟨i, w, t, n⟩ := r
      cases t <;> rfl
    | _ => rfl

theorem value_operand?_renumber {x : Instr} (h : ∀ k ∈ x.keys, ρ k = σ (k.renumber order))
    (i : Nat) : M.value σ ((x.renumber order).operand? i) = M.value ρ (x.operand? i) := by
  rw [Instr.operand?_renumber]
  exact value_renumber fun k hk => h k (Instr.mem_keys hk)

theorem outcome_renumber {x : Instr} (h : ∀ k ∈ x.keys, ρ k = σ (k.renumber order)) (w : World) :
    M.outcome (x.renumber order) σ w = M.outcome x ρ w := by
  have hval : ∀ a ∈ x.args, M.value σ (a.map (Operand.renumber order)) = M.value ρ a := fun a ha =>
    value_renumber fun k hk => h k (List.mem_filterMap.mpr ⟨a, ha, hk⟩)
  have hargs :
      ((x.renumber order).args.drop 2).map (M.value σ) = (x.args.drop 2).map (M.value ρ) := by
    rw [Instr.renumber_eq, ← List.map_drop, List.map_map]
    exact List.map_congr_left fun a ha => hval a (List.mem_of_mem_drop ha)
  unfold outcome
  rw [value_operand?_renumber h, value_operand?_renumber h, hargs]
  rfl

end Machine

/-- Registers that agree once the keys that matter are renumbered. -/
def Regs.Renumbered (order : List Int) (live : List RegKey) (ρ σ : Regs) : Prop :=
  ∀ k ∈ live, ρ k = σ (k.renumber order)

theorem Regs.Renumbered.put {order : List Int} {live : List RegKey} {ρ σ : Regs}
    (h : Renumbered order live ρ σ) (horder : ∀ k ∈ live, k.temp = true → k.index ∈ order)
    (a : Option Operand) (v : Int) :
    Renumbered order live (ρ.put a v) (σ.put (a.map (Operand.renumber order)) v) := by
  unfold Regs.put
  rw [Operand.keyAt?_renumber]
  cases Operand.keyAt? a with
  | none => exact h
  | some k =>
    intro j hj
    change Function.update ρ k v j = Function.update σ (k.renumber order) v (j.renumber order)
    by_cases hjk : j = k
    · subst hjk
      rw [Function.update_self, Function.update_self]
    · rw [Function.update_of_ne hjk,
          Function.update_of_ne fun heq => hjk (RegKey.renumber_inj (horder j hj) heq)]
      exact h j hj

theorem Machine.effect_renumber {M : Machine} {order : List Int} {live : List RegKey} {ρ σ : Regs}
    {x : Instr} (hlive : ∀ k ∈ x.keys, k ∈ live)
    (horder : ∀ k ∈ live, k.temp = true → k.index ∈ order)
    (h : ρ.Renumbered order live σ) (w : World) :
    Effect.Matches (Regs.Renumbered order live) (M.effect x ρ w)
      (M.effect (x.renumber order) σ w) := by
  have hkeys : ∀ k ∈ x.keys, ρ k = σ (k.renumber order) := fun k hk => h k (hlive k hk)
  cases hd : x.op.isDefinition with
  | true =>
    rw [effect_definition hd, effect_definition (by rwa [Instr.op_renumber]),
      outcome_renumber hkeys, Instr.operand?_renumber]
    exact .next _ (h.put horder _ _)
  | false =>
    unfold effect
    rw [Instr.op_renumber, Instr.target?_renumber, value_operand?_renumber hkeys,
      value_operand?_renumber hkeys]
    cases hop : x.op with
    | mov | read | un | bin | call => simp [hop, Opcode.isDefinition] at hd
    | nop | label | other | write => exact .next _ h
    | br => exact .jump _ w h
    | brz | bnz =>
      dsimp only
      split
      · exact .jump _ w h
      · exact .next w h
    | ret =>
      have hret : ((x.renumber order).operand? 0).map (fun a => M.value σ (some a)) =
          (x.operand? 0).map fun a => M.value ρ (some a) := by
        have h0 := value_operand?_renumber (M := M) hkeys 0
        rw [Instr.operand?_renumber] at h0 ⊢
        cases ha : x.operand? 0 with
        | none => rfl
        | some a =>
          rw [ha] at h0
          exact congrArg some h0
      rw [hret]
      exact .halt _ w

/-- The index of a temporary. -/
def RegKey.temp? (k : RegKey) : Option Int := if k.temp then some k.index else none

def Operand.tempAt? (a : Option Operand) : Option Int := (keyAt? a).bind RegKey.temp?

theorem Operand.tempAt?_reg {r : Reg} (h : r.temp = true) :
    tempAt? (some (.reg r)) = some r.index := by
  change r.key.temp? = _
  rw [RegKey.temp?, Reg.key, if_pos h]

theorem Operand.tempAt?_mapTemp (m : Int → Int) (a : Option Operand) :
    tempAt? (a.map (mapTemp m)) = (tempAt? a).map m := by
  rcases a with _ | a
  · rfl
  · cases a with
    | reg r =>
      obtain ⟨i, w, temp, name⟩ := r
      cases temp <;> rfl
    | _ => rfl

theorem Operand.mapTemp_congr {m m' : Int → Int} {a : Option Operand}
    (h : ∀ i, tempAt? a = some i → m i = m' i) : a.map (mapTemp m) = a.map (mapTemp m') := by
  rcases a with _ | a
  · rfl
  · cases a with
    | reg r =>
      obtain ⟨i, w, temp, name⟩ := r
      cases temp with
      | false => rfl
      | true =>
        have hi : m i = m' i := h i rfl
        change some (Operand.reg ⟨m i, w, true, name⟩) = some (Operand.reg ⟨m' i, w, true, name⟩)
        rw [hi]
    | _ => rfl

/-- What follows does not change the places of those that have been met. -/
theorem idxOf_eraseDups_append {seen : List Int} {i : Int} (hi : i ∈ seen) (more : List Int) :
    (seen ++ more).eraseDups.idxOf i = seen.eraseDups.idxOf i := by
  rw [List.eraseDups_append, List.idxOf_append_of_mem (List.mem_eraseDups.mpr hi)]

theorem Operand.renumber_eraseDups_append {seen : List Int} {a : Option Operand}
    (h : ∀ i, tempAt? a = some i → i ∈ seen) (more : List Int) :
    a.map (renumber (seen ++ more).eraseDups) = a.map (renumber seen.eraseDups) := by
  apply mapTemp_congr
  intro i hi
  rw [idxOf_eraseDups_append (h i hi)]

namespace Numbering
variable (seen : List Int)

/-- What the scan knows when it has met the temporaries `seen`, in this order and with
repetitions. -/
def after : Numbering :=
  ⟨seen.eraseDups.zipIdx, seen.any fun i => (seen.eraseDups.idxOf i : Int) ≠ i⟩

theorem lookup_given_after (i : Int) : (after seen).given.lookup i = seen.eraseDups.idxOf? i := by
  rw [after, lookup_zipIdx]
  simp

/-- The number of a temporary is its place among those that have been met, itself included. -/
theorem number_after (i : Int) :
    (after seen).number i = ((seen ++ [i]).eraseDups.idxOf i, (after (seen ++ [i])).given) := by
  unfold number
  rw [lookup_given_after]
  cases h : seen.eraseDups.idxOf? i with
  | some k =>
    have hi : i ∈ seen := List.mem_eraseDups.mp (List.isSome_idxOf?.mp (Option.isSome_of_eq_some h))
    have hsame : (seen ++ [i]).eraseDups = seen.eraseDups := by
      rw [List.eraseDups_append]
      simp [List.removeAll, hi]
    have hk : seen.eraseDups.idxOf i = k := by rw [List.idxOf_eq_getD_idxOf?, h, Option.getD_some]
    rw [after, after, hsame, hk]
  | none =>
    have hi : i ∉ seen.eraseDups := List.idxOf?_eq_none_iff.mp h
    have hnew : (seen ++ [i]).eraseDups = seen.eraseDups ++ [i] := by
      have hi' : i ∉ seen := fun hmem => hi (List.mem_eraseDups.mpr hmem)
      rw [List.eraseDups_append]
      simp [List.removeAll, hi', List.eraseDups_cons]
    have hidx : (seen.eraseDups ++ [i]).idxOf i = seen.eraseDups.length := by
      rw [List.idxOf_append, if_neg hi, List.idxOf_cons_self, Nat.zero_add]
    simp only [after, hnew, hidx, List.length_zipIdx, List.zipIdx_append,
      List.zipIdx_singleton, Nat.zero_add]

theorem changed_after_append (i : Int) : (after (seen ++ [i])).changed =
    ((after seen).changed || decide (((seen ++ [i]).eraseDups.idxOf i : Int) ≠ i)) := by
  have hseen : (seen.any fun j => decide (((seen ++ [i]).eraseDups.idxOf j : Int) ≠ j)) =
      seen.any fun j => decide ((seen.eraseDups.idxOf j : Int) ≠ j) := by
    rw [Bool.eq_iff_iff, List.any_eq_true, List.any_eq_true]
    exact exists_congr fun j => and_congr_right fun hj => by rw [idxOf_eraseDups_append hj]
  rw [after, List.any_append, hseen, List.any_cons, List.any_nil, Bool.or_false, after]

theorem operand_after (a : Option Operand) : (after seen).operand a =
    (a.map (Operand.renumber (seen ++ (Operand.tempAt? a).toList).eraseDups),
      after (seen ++ (Operand.tempAt? a).toList)) := by
  have hother (h : Operand.tempAt? a = none) (hsame : a.map (Operand.renumber seen.eraseDups) = a) :
      (a, after seen) = (a.map (Operand.renumber (seen ++ (Operand.tempAt? a).toList).eraseDups),
        after (seen ++ (Operand.tempAt? a).toList)) := by
    rw [h, Option.toList_none, List.append_nil, hsame]
  rcases a with _ | a
  · exact hother rfl rfl
  · cases a with
    | reg r =>
      obtain ⟨i, w, temp, name⟩ := r
      cases temp with
      | false => exact hother rfl rfl
      | true =>
        have hafter : after (seen ++ [i]) = ⟨(after (seen ++ [i])).given,
            (after seen).changed || decide (((seen ++ [i]).eraseDups.idxOf i : Int) ≠ i)⟩ := by
          rw [← changed_after_append]
        rw [Operand.tempAt?_reg rfl, Option.toList_some, operand, if_pos rfl, number_after, hafter]
        dsimp only
        by_cases hk : ((seen ++ [i]).eraseDups.idxOf i : Int) = i
        · rw [if_pos hk, decide_eq_false (not_not.mpr hk), Bool.or_false]
          change _ = (some (Operand.reg ⟨(seen ++ [i]).eraseDups.idxOf i, w, true, name⟩), _)
          rw [hk]
        · rw [if_neg hk, decide_eq_true hk, Bool.or_true]
          rfl
    | _ => exact hother rfl rfl

theorem operands_after (args : List (Option Operand)) : (after seen).operands args =
    (args.map (Option.map (Operand.renumber (seen ++ args.filterMap Operand.tempAt?).eraseDups)),
      after (seen ++ args.filterMap Operand.tempAt?)) := by
  induction args generalizing seen with
  | nil => rw [operands, List.filterMap_nil, List.append_nil, List.map_nil]
  | cons a rest ih =>
    have hseen : seen ++ (a :: rest).filterMap Operand.tempAt? =
        seen ++ (Operand.tempAt? a).toList ++ rest.filterMap Operand.tempAt? := by
      rw [List.append_assoc]
      cases h : Operand.tempAt? a with
      | none => rw [List.filterMap_cons_none h, Option.toList_none, List.nil_append]
      | some i => rw [List.filterMap_cons_some h, Option.toList_some, List.singleton_append]
    have hmet : ∀ i, Operand.tempAt? a = some i → i ∈ seen ++ (Operand.tempAt? a).toList :=
      fun i hi => List.mem_append_right seen (Option.mem_toList.mpr hi)
    rw [operands, operand_after]
    dsimp only
    rw [ih, hseen, List.map_cons, Operand.renumber_eraseDups_append hmet]

end Numbering

namespace Code
variable (code : Code)

/-- The indices of the temporaries as they appear, instruction by instruction and from left to
right, with repetitions. -/
def tempIndices (code : Code) : List Int := code.regKeys.filterMap RegKey.temp?

def temps (code : Code) : List Int := code.tempIndices.eraseDups

theorem temps_eq_eraseDups : code.temps = code.tempIndices.eraseDups := rfl

theorem temps_congr {code code' : Code} (h : regKeys code = regKeys code') :
    code.temps = code'.temps := by
  rw [temps, tempIndices, h, temps, tempIndices]

theorem filterMap_tempAt? (args : List (Option Operand)) :
    args.filterMap Operand.tempAt? = (args.filterMap Operand.keyAt?).filterMap RegKey.temp? :=
  List.filterMap_filterMap.symm

theorem tempIndices_cons (x : Instr) :
    tempIndices (x :: code) = x.args.filterMap Operand.tempAt? ++ code.tempIndices := by
  rw [filterMap_tempAt?, tempIndices, tempIndices, regKeys_eq, regKeys_eq, List.flatMap_cons,
    List.filterMap_append]
  rfl

/-- A temporary that has been met keeps its number to the end of the code. -/
theorem code_after (seen : List Int) : (Numbering.after seen).code code =
    (code.map (Instr.renumber (seen ++ code.tempIndices).eraseDups),
        .after (seen ++ code.tempIndices)) := by
  induction code generalizing seen with
  | nil =>
    rw [Numbering.code, tempIndices, regKeys_eq, List.flatMap_nil, List.filterMap_nil,
      List.append_nil, List.map_nil]
  | cons x rest ih =>
    have hseen : seen ++ tempIndices (x :: rest) =
        seen ++ x.args.filterMap Operand.tempAt? ++ tempIndices rest := by
      rw [tempIndices_cons, List.append_assoc]
    have hhead : x.args.map (Option.map (Operand.renumber
        (seen ++ x.args.filterMap Operand.tempAt? ++ tempIndices rest).eraseDups)) =
        x.args.map
          (Option.map (Operand.renumber (seen ++ x.args.filterMap Operand.tempAt?).eraseDups)) :=
      List.map_congr_left fun a ha => Operand.renumber_eraseDups_append (fun i hi =>
        List.mem_append_right seen (List.mem_filterMap.mpr ⟨a, ha, hi⟩)) _
    rw [Numbering.code, Numbering.operands_after]
    dsimp only
    rw [ih, hseen, ← hhead, List.map_cons]
    rfl

theorem tempIndices_mapTemps (m : Int → Int) :
    (code.mapTemps m).tempIndices = code.tempIndices.map m := by
  induction code with
  | nil => rfl
  | cons x code ih =>
    have hargs : (x.mapTemps m).args.filterMap Operand.tempAt? =
        (x.args.filterMap Operand.tempAt?).map m := by
      rw [Instr.mapTemps, List.filterMap_map, List.map_filterMap]
      exact congrArg (List.filterMap · x.args) (funext (Operand.tempAt?_mapTemp m))
    change tempIndices (x.mapTemps m :: mapTemps m code) = _
    rw [tempIndices_cons, tempIndices_cons, hargs, ih, List.map_append]

theorem mem_temps_iff {code : Code} {i : Int} : i ∈ code.temps ↔ ⟨true, i⟩ ∈ code.regKeys := by
  rw [temps, List.mem_eraseDups, tempIndices, List.mem_filterMap]
  constructor
  · rintro ⟨⟨t, j⟩, hk, hj⟩
    cases t with
    | false => cases hj
    | true =>
      cases hj
      exact hk
  · intro hk
    exact ⟨_, hk, rfl⟩

theorem index_mem_temps {code : Code} {k : RegKey} (hk : k ∈ code.regKeys) (ht : k.temp = true) :
    k.index ∈ code.temps := by
  obtain ⟨t, i⟩ := k
  cases ht
  exact mem_temps_iff.mpr hk

theorem labels_renumber (order : List Int) :
    labels (code.map (Instr.renumber order)) = labels code := by
  rw [labels, List.filterMap_map]
  exact congrArg (List.filterMap · code) (funext (Instr.label?_renumber order))

theorem targets_renumber (order : List Int) :
    targets (code.map (Instr.renumber order)) = targets code := by
  rw [targets, List.filterMap_map]
  exact congrArg (List.filterMap · code) (funext (Instr.goal?_renumber order))

theorem regKeys_renumber (order : List Int) :
    regKeys (code.map (Instr.renumber order)) = (regKeys code).map (RegKey.renumber order) := by
  rw [regKeys_eq, regKeys_eq, List.flatMap_map, List.map_flatMap]
  exact congrArg (List.flatMap · code) (funext (Instr.keys_renumber order))

/-- The scan gives every temporary its place among all temporaries of the code. -/
theorem renumberTemps_eq : code.renumberTemps = ⟨code.map (Instr.renumber code.temps),
    code.tempIndices.any fun i => (code.temps.idxOf i : Int) ≠ i⟩ := by
  have hscan := code.code_after []
  rw [List.nil_append] at hscan
  change (⟨((Numbering.after []).code code).1, ((Numbering.after []).code code).2.changed⟩ :
    Simplified) = _
  rw [hscan]
  rfl

theorem code_renumberTemps : code.renumberTemps.code = code.map (Instr.renumber code.temps) := by
  rw [renumberTemps_eq]

theorem renumberTemps_valid {code : Code} (h : Valid code) : Valid code.renumberTemps.code := by
  have hlabels := labels_renumber code code.temps
  have htargets := targets_renumber code code.temps
  rw [code_renumberTemps]
  refine ⟨fun y hy => ?_, hlabels.symm ▸ h.nodup, hlabels.symm ▸ h.nonneg, fun l hl => ?_⟩
  · obtain ⟨x, hx, rfl⟩ := List.mem_map.mp hy
    exact (h.wellFormed x hx).renumber _
  · rw [hlabels]
    exact h.resolved l (htargets ▸ hl)

/-- Renumbered code does on registers what the code does on the registers they are renumbered
from. -/
theorem behaviour_renumberTemps {code : Code} (hwf : ∀ x ∈ code, x.WellFormed)
    (M : Machine) (σ : Regs) (w : World) :
    M.behaviour code (fun k => σ (k.renumber code.temps)) w =
      M.behaviour code.renumberTemps.code σ w := by
  have hrewrites : Rewrites (fun a b => ∃ x ∈ code, a = [x] ∧ b = [x.renumber code.temps]) code
      code.renumberTemps.code := by
    rw [code_renumberTemps]
    exact Rewrites.of_map fun x hx => ⟨x, hx, rfl, rfl⟩
  apply behaviour_eq_of_rewrites (R := Regs.Renumbered code.temps code.regKeys) _ hrewrites
  · exact fun _ _ => rfl
  · rintro _ _ ⟨x, hx, rfl, rfl⟩
    refine ⟨List.cons_ne_nil _ _, ?_, ?_⟩
    · by_cases hop : x.op = .label
      · obtain ⟨l, rfl⟩ := (hwf x hx).exists_label hop
        exact .inl ⟨_, rfl, rfl, rfl⟩
      · exact .inr (by simpa using hop)
    · intro ρ σ w h
      rw [Machine.pieceEffect_singleton, Machine.pieceEffect_singleton]
      refine Machine.effect_renumber (fun k hk => ?_) (fun k hk => index_mem_temps hk) h w
      rw [regKeys_eq]
      exact List.mem_flatMap.mpr ⟨x, hx, hk⟩

/-- Induction along `List.eraseDups`, which goes on with the tail once the head is taken out of
it. -/
theorem eraseDups_induction {P : List Int → Prop} (nil : P [])
    (cons : ∀ i l, P (l.filter fun b => !b == i) → P (i :: l)) (l : List Int) : P l := by
  induction hn : l.length using Nat.strongRecOn generalizing l with
  | ind n ih =>
    cases l with
    | nil => exact nil
    | cons i l =>
      refine cons i l (ih _ ?_ _ rfl)
      rw [← hn, List.length_cons]
      exact Nat.lt_succ_of_le (List.length_filter_le _ _)

theorem eraseDups_map {l : List Int} {g : Int → Int} (hg : ∀ i ∈ l, ∀ j ∈ l, g i = g j → i = j) :
    (l.map g).eraseDups = l.eraseDups.map g := by
  induction l using eraseDups_induction with
  | nil => rfl
  | cons i l ih =>
    have hfilter : (l.map g).filter (fun b => !b == g i) = (l.filter fun b => !b == i).map g := by
      rw [List.filter_map]
      congr 1
      apply List.filter_congr
      intro j hj
      have hij : g j = g i ↔ j = i :=
        ⟨hg j (List.mem_cons_of_mem i hj) i List.mem_cons_self, fun h => h ▸ rfl⟩
      simp only [Function.comp, beq_eq_decide, hij]
    rw [List.map_cons, List.eraseDups_cons, List.eraseDups_cons, List.map_cons, hfilter]
    congr 1
    exact ih fun a ha b hb => hg a (List.mem_cons_of_mem i (List.mem_of_mem_filter ha)) b
      (List.mem_cons_of_mem i (List.mem_of_mem_filter hb))

theorem nodup_eraseDups (l : List Int) : l.eraseDups.Nodup := by
  induction l using eraseDups_induction with
  | nil => exact List.nodup_nil
  | cons i l ih =>
    rw [List.eraseDups_cons, List.nodup_cons]
    refine ⟨fun hmem => ?_, ih⟩
    have := List.mem_filter.mp (List.mem_eraseDups.mp hmem)
    simp at this

theorem mapTemps_congr {code : Code} {m m' : Int → Int} (h : ∀ i ∈ code.temps, m i = m' i) :
    code.mapTemps m = code.mapTemps m' := by
  refine List.map_congr_left fun x hx => congrArg (Instr.mk x.op)
    (List.map_congr_left fun a ha => Operand.mapTemp_congr fun i hi => h i ?_)
  obtain ⟨k, hk, htemp⟩ := Option.bind_eq_some_iff.mp hi
  have hmem : k ∈ code.regKeys := by
    rw [regKeys_eq]
    exact List.mem_flatMap.mpr ⟨x, hx, List.mem_filterMap.mpr ⟨a, ha, hk⟩⟩
  exact List.mem_eraseDups.mpr (List.mem_filterMap.mpr ⟨k, hmem, htemp⟩)

@[simp] theorem mapTemps_id : code.mapTemps id = code := by
  have hoperand : Operand.mapTemp id = id := by
    funext a
    cases a with
    | reg r =>
      obtain ⟨i, w, temp, name⟩ := r
      cases temp <;> rfl
    | _ => rfl
  have hinstr : Instr.mapTemps id = id := by
    funext x
    rw [Instr.mapTemps, hoperand, Option.map_id, List.map_id]
    rfl
  rw [mapTemps, hinstr, List.map_id]

theorem renumberTemps_eq_mapTemps :
    code.renumberTemps.code = code.mapTemps fun i => code.temps.idxOf i :=
  code_renumberTemps code

theorem map_idxOf_temps : code.temps.map (fun i => (code.temps.idxOf i : Int)) =
    (List.range code.temps.length).map Int.ofNat := by
  apply List.ext_getElem
  · rw [List.length_map, List.length_map, List.length_range]
  · intro i hi _
    rw [List.getElem_map, List.getElem_map, List.getElem_range]
    exact congrArg Int.ofNat ((nodup_eraseDups _).idxOf_getElem i _)

/-- The temporaries in their new order. -/
theorem temps_renumberTemps :
    temps code.renumberTemps.code = (List.range code.temps.length).map Int.ofNat := by
  have hinj : ∀ i ∈ code.tempIndices, ∀ j ∈ code.tempIndices,
      (code.temps.idxOf i : Int) = code.temps.idxOf j → i = j := fun i hi j _ h =>
    (List.idxOf_inj (List.mem_eraseDups.mpr hi)).mp (Int.ofNat.inj h)
  rw [renumberTemps_eq_mapTemps, temps_eq_eraseDups, tempIndices_mapTemps, eraseDups_map hinj,
    ← temps_eq_eraseDups, map_idxOf_temps]

theorem idxOf_temps {code : Code} (h : code.temps = (List.range code.temps.length).map Int.ofNat)
    {i : Int} (hi : i ∈ code.temps) : (code.temps.idxOf i : Int) = i := by
  obtain ⟨j, hj, rfl⟩ := List.getElem_of_mem hi
  have hidx : code.temps.idxOf code.temps[j] = j := (nodup_eraseDups _).idxOf_getElem j hj
  rw [hidx]
  have hget : code.temps[j]? = some (Int.ofNat j) := by
    rw [h, List.getElem?_map, List.getElem?_range (by simpa using hj)]
    rfl
  exact (Option.some.inj ((List.getElem?_eq_getElem hj).symm.trans hget)).symm

theorem renumberTemps_changed {code : Code} :
    code.renumberTemps.changed = false ↔
      code.temps = (List.range code.temps.length).map Int.ofNat := by
  have hchanged : code.renumberTemps.changed = false ↔
      ∀ i ∈ code.temps, (code.temps.idxOf i : Int) = i := by
    rw [renumberTemps_eq, List.any_eq_false]
    exact forall_congr' fun i => imp_congr List.mem_eraseDups.symm (by simp)
  rw [hchanged]
  constructor
  · intro hsame
    calc code.temps = code.temps.map id := (List.map_id _).symm
      _ = code.temps.map (fun i => (code.temps.idxOf i : Int)) :=
        List.map_congr_left fun i hi => (hsame i hi).symm
      _ = (List.range code.temps.length).map Int.ofNat := code.map_idxOf_temps
  · exact fun h i hi => idxOf_temps h hi

theorem renumberTemps_eq_self {code : Code}
    (h : code.temps = (List.range code.temps.length).map Int.ofNat) :
    code.renumberTemps = ⟨code, false⟩ := by
  have hsame : ∀ i ∈ code.temps, (code.temps.idxOf i : Int) = id i := fun i hi => idxOf_temps h hi
  have hcode : code.renumberTemps.code = code := by
    rw [renumberTemps_eq_mapTemps, mapTemps_congr hsame, mapTemps_id]
  calc code.renumberTemps = ⟨code.renumberTemps.code, code.renumberTemps.changed⟩ := rfl
    _ = ⟨code, false⟩ := by rw [hcode, renumberTemps_changed.mpr h]

theorem renumberTemps_renumberTemps :
    code.renumberTemps.code.renumberTemps = ⟨code.renumberTemps.code, false⟩ := by
  apply renumberTemps_eq_self
  rw [temps_renumberTemps, List.length_map, List.length_range]

theorem renumberTemps_changed_of_regKeys {code : Code}
    (h : regKeys code.renumberTemps.code = regKeys code) :
    code.renumberTemps.changed = false := by
  rw [renumberTemps_changed, ← temps_renumberTemps, temps_congr h]

theorem length_renumberTemps : code.renumberTemps.code.length = code.length := by
  rw [code_renumberTemps]
  exact List.length_map _

end Code

end ThreeAddress
