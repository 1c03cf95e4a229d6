import Mathlib.Data.Finset.Card
import Mathlib.Data.List.Nodup
import Mathlib.Data.Set.Function
import ThreeAddress.Proofs.Renumbering

/-!
# Renumbering is canonical

Renumbering replaces the indices of temporaries and nothing else. The new indices are the numbers
from 0 on, in the order in which the temporaries first appear, and do not depend on what the old
ones were: code that differs only in how its temporaries are numbered becomes the same code
(`Code.renumberTemps_canonical`).
-/

namespace ThreeAddress.Code
set_option autoImplicit false

theorem idxOf_cons_lt_iff {a i j : Int} {l : List Int} :
    (a :: l).idxOf i < (a :: l).idxOf j ↔ a ≠ j ∧ (a = i ∨ l.idxOf i < l.idxOf j) := by
  by_cases haj : a = j
  · subst haj
    simp
  · by_cases hai : a = i
    · subst hai
      simp [List.idxOf_cons_ne _ haj, haj]
    · simp [List.idxOf_cons_ne _ hai, List.idxOf_cons_ne _ haj, hai, haj]

theorem idxOf_filter_lt_iff {p : Int → Bool} {i j : Int} (hi : p i = true) (hj : p j = true)
    (l : List Int) :
    (l.filter p).idxOf i < (l.filter p).idxOf j ↔ l.idxOf i < l.idxOf j := by
  induction l with
  | nil => rfl
  | cons a l ih =>
    cases ha : p a with
    | true => rw [List.filter_cons_of_pos ha, idxOf_cons_lt_iff, idxOf_cons_lt_iff, ih]
    | false =>
      have hne {b : Int} (hb : p b = true) : a ≠ b := by
        rintro rfl
        exact Bool.false_ne_true (ha.symm.trans hb)
      rw [List.filter_cons_of_neg (by rw [ha]; exact Bool.false_ne_true), ih, idxOf_cons_lt_iff]
      simp [hne hi, hne hj]

/-- Without repetitions members still come in the order in which they first appeared. -/
theorem idxOf_eraseDups_lt_iff (i j : Int) (l : List Int) :
    l.eraseDups.idxOf i < l.eraseDups.idxOf j ↔ l.idxOf i < l.idxOf j := by
  induction l using eraseDups_induction with
  | nil => rfl
  | cons a l ih =>
    rw [List.eraseDups_cons, idxOf_cons_lt_iff, idxOf_cons_lt_iff]
    refine and_congr_right fun haj => ?_
    by_cases hai : a = i
    · simp [hai]
    · have hi : (!i == a) = true := by simpa using Ne.symm hai
      have hj : (!j == a) = true := by simpa using Ne.symm haj
      rw [ih, idxOf_filter_lt_iff hi hj]

section
variable (code : Code)

theorem mem_temps_iff_tempIndices {i : Int} : i ∈ code.temps ↔ i ∈ code.tempIndices :=
  List.mem_eraseDups

theorem nodup_temps : code.temps.Nodup := nodup_eraseDups _

theorem length_temps : code.temps.length = code.tempIndices.toFinset.card := by
  have hsame : code.temps.toFinset = code.tempIndices.toFinset := by
    ext i
    rw [List.mem_toFinset, List.mem_toFinset, mem_temps_iff_tempIndices]
  rw [← hsame, List.toFinset_card_of_nodup code.nodup_temps]

theorem bijOn_idxOf_temps :
    Set.BijOn (fun i => (code.temps.idxOf i : Int)) {i | i ∈ code.tempIndices}
      {n | 0 ≤ n ∧ n < code.tempIndices.toFinset.card} := by
  refine ⟨fun i hi => ?_, fun i hi j _ h => ?_, fun n hn => ?_⟩
  · have hlt := List.idxOf_lt_length_of_mem (code.mem_temps_iff_tempIndices.mpr hi)
    rw [length_temps] at hlt
    exact ⟨Int.natCast_nonneg _, Int.ofNat_lt.mpr hlt⟩
  · exact (List.idxOf_inj (code.mem_temps_iff_tempIndices.mpr hi)).mp (Int.ofNat.inj h)
  · obtain ⟨k, rfl⟩ := Int.eq_ofNat_of_zero_le hn.1
    have hk : k < code.temps.length := by
      rw [length_temps]
      exact Int.ofNat_lt.mp hn.2
    refine ⟨code.temps[k], code.mem_temps_iff_tempIndices.mp (List.getElem_mem hk), ?_⟩
    exact congrArg Int.ofNat (code.nodup_temps.idxOf_getElem k hk)

theorem renumberTemps_changed_iff :
    code.renumberTemps.changed = true ↔ code.renumberTemps.code ≠ code := by
  constructor
  · intro hchanged heq
    rw [renumberTemps_changed_of_regKeys (congrArg regKeys heq)] at hchanged
    cases hchanged
  · intro hne
    by_contra hchanged
    have hordered := renumberTemps_changed.mp (Bool.eq_false_iff.mpr hchanged)
    exact hne (congrArg Simplified.code (renumberTemps_eq_self hordered))

theorem mapTemps_mapTemps (m m' : Int → Int) :
    (code.mapTemps m).mapTemps m' = code.mapTemps (m' ∘ m) := by
  have hoperand : Operand.mapTemp m' ∘ Operand.mapTemp m = Operand.mapTemp (m' ∘ m) := by
    funext a
    cases a with
    | reg r =>
      obtain ⟨i, w, temp, name⟩ := r
      cases temp <;> rfl
    | _ => rfl
  rw [mapTemps, mapTemps, List.map_map, mapTemps]
  refine congrArg (List.map · code) (funext fun x => congrArg (Instr.mk x.op) ?_)
  rw [Instr.mapTemps, List.map_map, Option.map_comp_map, hoperand]

variable {code}

theorem idxOf_temps_mapTemps {τ : Int → Int} (hτ : Set.InjOn τ {i | i ∈ code.tempIndices}) {i : Int}
    (hi : i ∈ code.temps) :
    (code.mapTemps τ).temps.idxOf (τ i) = code.temps.idxOf i := by
  have htemps : (code.mapTemps τ).temps = code.temps.map τ := by
    rw [temps_eq_eraseDups, tempIndices_mapTemps, eraseDups_map fun i hi j hj => hτ hi hj,
      temps_eq_eraseDups]
  obtain ⟨n, hn, rfl⟩ := List.getElem_of_mem hi
  have hplace : code.temps.idxOf code.temps[n] = n := code.nodup_temps.idxOf_getElem n hn
  have hn' : n < (code.mapTemps τ).temps.length := by rwa [htemps, List.length_map]
  have hget : (code.mapTemps τ).temps[n] = τ code.temps[n] := by simp [htemps]
  rw [hplace, ← hget, (nodup_temps _).idxOf_getElem n hn']

theorem renumberTemps_mapTemps {τ : Int → Int} (hτ : Set.InjOn τ {i | i ∈ code.tempIndices}) :
    (code.mapTemps τ).renumberTemps.code = code.renumberTemps.code := by
  rw [renumberTemps_eq_mapTemps, renumberTemps_eq_mapTemps, mapTemps_mapTemps]
  exact mapTemps_congr fun i hi => congrArg Int.ofNat (idxOf_temps_mapTemps hτ hi)

end

/-- Whatever the code, its temporaries are mapped one to one onto the numbers from 0 on, in the
order in which they first appear, and nothing else is changed. The step says truly whether it
changed anything, has nothing to do the second time, and makes the same of code that differs from
this only by a renaming that keeps its temporaries apart. -/
theorem renumberTemps_canonical (code : Code) :
    (∃ m : Int → Int,
        Set.BijOn m {i | i ∈ code.tempIndices} {n | 0 ≤ n ∧ n < code.tempIndices.toFinset.card} ∧
      code.renumberTemps.code = code.mapTemps m ∧
      ∀ i ∈ code.tempIndices, ∀ j ∈ code.tempIndices,
        (m i < m j ↔ code.tempIndices.idxOf i < code.tempIndices.idxOf j)) ∧
    (code.renumberTemps.changed = true ↔ code.renumberTemps.code ≠ code) ∧
    code.renumberTemps.code.renumberTemps = ⟨code.renumberTemps.code, false⟩ ∧
    ∀ τ : Int → Int, Set.InjOn τ {i | i ∈ code.tempIndices} →
      (code.mapTemps τ).renumberTemps.code = code.renumberTemps.code := by
  refine ⟨⟨fun i => code.temps.idxOf i, code.bijOn_idxOf_temps, code.renumberTemps_eq_mapTemps,
      fun i _ j _ => ?_⟩, code.renumberTemps_changed_iff, code.renumberTemps_renumberTemps,
    fun τ hτ => renumberTemps_mapTemps hτ⟩
  rw [Int.ofNat_lt]
  exact idxOf_eraseDups_lt_iff i j code.tempIndices

/-- Temporaries with indices that are sparse, negative, and in the way of each other. -/
def crossing : Code :=
  let x : Reg := ⟨0, .i32, false, "x"⟩
  let t (i : Int) : Reg := ⟨i, .i32, true, ""⟩
  [.make (.bin .add) [.reg (t 1), .reg x, .reg (t (-4))],
    .make .mov [.reg (t 0), .reg (t 1)],
    .make (.bin .sub) [.reg (t 90), .reg (t 0), .reg (t (-4))],
    .make .ret [.reg (t 90)]]

theorem renumberTemps_canonical_crossing :
    Set.InjOn (fun i : Int => 7 - i) {i | i ∈ crossing.tempIndices} ∧
      (crossing.mapTemps fun i => 7 - i).renumberTemps.code = crossing.renumberTemps.code := by
  have hinj : Set.InjOn (fun i : Int => 7 - i) {i | i ∈ crossing.tempIndices} := fun i _ j _ h => by
    simp only at h
    omega
  exact ⟨hinj, (renumberTemps_canonical crossing).2.2.2 _ hinj⟩

end ThreeAddress.Code
