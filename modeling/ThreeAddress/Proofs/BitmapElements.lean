import Mathlib.Data.Finset.Card
import ThreeAddress.Proofs.Bitmap

/-!
# Bitmaps as finite sets

A bitmap is made with some capacity or none, and then numbers are inserted and all numbers are taken
out, in any order. None of this faults, and the bitmap holds the numbers that were added since it
was last cleared: it finds these and no others, counts each of them once, and shows them to a
visitor from the lowest on (`run_refines`).

The visitor's walk takes bits out of a word until none is left. What it meets is the list of members
because the lowest bit of a word is the first of its bits, and the word without it has the others
(`bitsOf_eq_cons`).
-/

namespace ThreeAddress.Bitmap
set_option autoImplicit false

section
variable {w : UInt64} {i j n : Nat} {ws : List UInt64}

theorem hasBit_dropBit (hi : i < 64) (hj : j < 64) :
    hasBit (dropBit w j) i = true ↔ i ≠ j ∧ hasBit w i = true := by
  have hbit : (bit j).toNat < 2 ^ 64 := (bit j).toNat_lt
  have hnot : (~~~bit j).toNat = 2 ^ 64 - ((bit j).toNat + 1) := by
    rw [UInt64.toNat_not, UInt64.size]
    omega
  rw [hasBit_iff_testBit hi, hasBit_iff_testBit hi, dropBit, UInt64.toNat_and, Nat.testBit_and,
    hnot, Nat.testBit_two_pow_sub_succ hbit, toNat_bit hj, testBit_one_shiftLeft, decide_eq_true hi,
    Bool.true_and, Bool.and_eq_true, Bool.not_eq_true', decide_eq_false_iff_not, and_comm, ne_comm]

theorem bitsOf_eq_filter (w : UInt64) : bitsOf w = (List.range 64).filter (hasBit w) := by
  unfold bitsOf
  split
  · rename_i hw
    subst hw
    refine (List.filter_eq_nil_iff.mpr fun j hj => ?_).symm
    exact not_hasBit_zero (List.mem_range.mp hj)
  · rfl

theorem mem_bitsOf_iff : j ∈ bitsOf w ↔ j < 64 ∧ hasBit w j = true := by
  rw [bitsOf_eq_filter, List.mem_filter, List.mem_range]

theorem lowestBit?_eq_head? (w : UInt64) : lowestBit? w = (bitsOf w).head? := by
  unfold lowestBit? bitsOf
  split
  · rfl
  · rw [List.head?_filter]

theorem bitsOf_eq_nil (h : lowestBit? w = none) : bitsOf w = [] := by
  rw [lowestBit?_eq_head?] at h
  exact List.head?_eq_none_iff.mp h

theorem pairwise_bitsOf (w : UInt64) : (bitsOf w).Pairwise (· < ·) := by
  rw [bitsOf_eq_filter]
  exact List.pairwise_lt_range.filter _

theorem bitsOf_eq_cons (h : lowestBit? w = some j) : bitsOf w = j :: bitsOf (dropBit w j) := by
  rw [lowestBit?_eq_head?] at h
  obtain ⟨rest, hrest⟩ := List.head?_eq_some_iff.mp h
  have hj : j < 64 := (mem_bitsOf_iff.mp (hrest ▸ List.mem_cons_self)).1
  have hlt : ∀ i ∈ rest, j < i := (List.pairwise_cons.mp (hrest ▸ pairwise_bitsOf w)).1
  have hdrop : bitsOf (dropBit w j) = (bitsOf w).filter fun i => i ≠ j := by
    rw [bitsOf_eq_filter, bitsOf_eq_filter, List.filter_filter]
    refine List.filter_congr fun i hi => ?_
    rw [Bool.eq_iff_iff, hasBit_dropBit (List.mem_range.mp hi) hj]
    simp
  rw [hdrop, hrest, List.filter_cons_of_neg (by simp)]
  congr 1
  exact (List.filter_eq_self.mpr fun i hi => decide_eq_true (Nat.ne_of_gt (hlt i hi))).symm

theorem mem_members_iff :
    n ∈ members i ws ↔ i * 64 ≤ n ∧ hasBit (ws.getD (n / 64 - i) 0) (n % 64) = true := by
  induction ws generalizing i with
  | nil =>
    have hnot : ¬ hasBit 0 (n % 64) = true := not_hasBit_zero (by omega)
    simp [hnot]
  | cons w ws ih =>
    have hfirst : (∃ j ∈ bitsOf w, i * 64 + j = n) ↔ n / 64 = i ∧ hasBit w (n % 64) = true := by
      constructor
      · rintro ⟨j, hj, rfl⟩
        obtain ⟨hlt, hbit⟩ := mem_bitsOf_iff.mp hj
        have hword : (i * 64 + j) / 64 = i := by omega
        have hplace : (i * 64 + j) % 64 = j := by omega
        exact ⟨hword, hplace.symm ▸ hbit⟩
      · rintro ⟨hword, hbit⟩
        exact ⟨n % 64, mem_bitsOf_iff.mpr ⟨by omega, hbit⟩, by omega⟩
    rw [members_cons, List.mem_append, List.mem_map, hfirst, ih]
    rcases Nat.lt_trichotomy (n / 64) i with hlt | heq | hgt
    · constructor
      · rintro (⟨h, _⟩ | ⟨h, _⟩) <;> omega
      · rintro ⟨h, _⟩
        omega
    · have hnot : ¬ (i + 1) * 64 ≤ n := by omega
      have hle : i * 64 ≤ n := by omega
      rw [heq, Nat.sub_self]
      simp [hnot, hle]
    · have hsucc : n / 64 - i = (n / 64 - (i + 1)) + 1 := by omega
      have hne : n / 64 ≠ i := by omega
      have hle : i * 64 ≤ n := by omega
      have hle' : (i + 1) * 64 ≤ n := by omega
      rw [hsucc]
      simp [hne, hle, hle']

theorem pairwise_members (i : Nat) (ws : List UInt64) : (members i ws).Pairwise (· < ·) := by
  induction ws generalizing i with
  | nil => exact .nil
  | cons w ws ih =>
    rw [members_cons, List.pairwise_append, List.pairwise_map]
    refine ⟨(pairwise_bitsOf w).imp fun h => Nat.add_lt_add_left h _, ih (i + 1),
      fun a ha b hb => ?_⟩
    obtain ⟨j, hj, rfl⟩ := List.mem_map.mp ha
    have hlt := (mem_bitsOf_iff.mp hj).1
    have hge := (mem_members_iff.mp hb).1
    omega

theorem members_of_lowestBit? (h : lowestBit? w = some j) :
    members i (w :: ws) = (i * 64 + j) :: members i (dropBit w j :: ws) := by
  rw [members_cons, bitsOf_eq_cons h]
  rfl

/-- The walk meets the members in order and ends after the first at which `more` is false. -/
theorem visitFrom_eq (more : Nat → Bool) (i : Nat) (ws : List UInt64) :
    visitFrom more i ws = (members i ws).takeWhile more ++
      ((members i ws).dropWhile more).take 1 := by
  fun_induction visitFrom more i ws with
  | case1 => rfl
  | case2 i w ws h ih => rw [ih, members_cons, bitsOf_eq_nil h, List.map_nil, List.nil_append]
  | case3 i w ws j h hmore ih =>
    rw [ih, members_of_lowestBit? h, List.takeWhile_cons_of_pos hmore,
      List.dropWhile_cons_of_pos hmore, List.cons_append]
  | case4 i w ws j h hmore =>
    rw [members_of_lowestBit? h, List.takeWhile_cons_of_neg hmore, List.dropWhile_cons_of_neg hmore]
    rfl

end

section
variable {s : Bitmap} {n : Nat}

theorem mem_toList_iff : n ∈ s.toList ↔ n ∈ s := by
  rw [toList, mem_members_iff, mem_def]
  simp

theorem pairwise_toList (s : Bitmap) : s.toList.Pairwise (· < ·) := pairwise_members 0 s.words

theorem not_mem_empty (n : Nat) : n ∉ empty := by
  rw [mem_def]
  exact not_hasBit_zero (by omega)

theorem not_mem_clear (s : Bitmap) (n : Nat) : n ∉ s.clear := by
  have hzero : s.clear.words.getD (n / 64) 0 = 0 := by
    rw [List.getD_eq_getElem?_getD, clear, List.getElem?_map]
    cases s.words[n / 64]? <;> rfl
  rw [mem_def, hzero]
  exact not_hasBit_zero (by omega)

end

/-- What can be done to a bitmap. -/
inductive Action where
  | insert (n : Nat)
  | insertNew (n : Nat)
  | clear
deriving DecidableEq

namespace Action

def run : Action → Bitmap → Except Fault Bitmap
  | insert n, s => s.insert n
  | insertNew n, s => Prod.snd <$> s.insertNew n
  | clear, s => .ok s.clear

def number? : Action → Option Nat
  | insert n | insertNew n => some n
  | clear => none

/-- An action never faults. It adds its number and keeps the others, unless it takes all out. -/
theorem exists_run (a : Action) (s : Bitmap) :
    ∃ t, a.run s = .ok t ∧ ∀ m, m ∈ t ↔ a.number? = some m ∨ a ≠ .clear ∧ m ∈ s := by
  have hadded (n m : Nat) : some n = some m ↔ m = n := by rw [Option.some.injEq, eq_comm]
  cases a with
  | insert n =>
    obtain ⟨t, ht, hmem⟩ := s.exists_insert_natCast n
    exact ⟨t, ht, fun m => by simp [hmem, number?, hadded]⟩
  | insertNew n =>
    by_cases hn : n ∈ s
    · refine ⟨s, by rw [run, insertNew_of_mem hn]; rfl, fun m => ?_⟩
      have hstays : m = n → m ∈ s := fun h => h ▸ hn
      simpa [number?, hadded] using hstays
    · obtain ⟨t, ht, hmem⟩ := exists_insertNew hn
      exact ⟨t, by rw [run, ht]; rfl, fun m => by simp [hmem, number?, hadded]⟩
  | clear => exact ⟨s.clear, rfl, fun m => by simp [number?, not_mem_clear]⟩

end Action

/-- A new bitmap: with room for some numbers, or without any word. -/
def start : Option Int → Bitmap
  | some n => ofCapacity n
  | none => empty

def run (s : Bitmap) (actions : List Action) : Except Fault Bitmap :=
  actions.foldlM (fun s a => a.run s) s

/-- The numbers that were added since all were last taken out, the latest first. -/
def added (actions : List Action) : List Nat :=
  (actions.reverse.takeWhile (· ≠ .clear)).filterMap Action.number?

theorem mem_added_concat {actions : List Action} {a : Action} {n : Nat} :
    n ∈ added (actions ++ [a]) ↔ a.number? = some n ∨ a ≠ .clear ∧ n ∈ added actions := by
  unfold added
  rw [List.reverse_concat]
  cases a <;> simp [Action.number?, eq_comm]

/-- The members after a run are the numbers that were added since all were last taken out. -/
theorem exists_run (capacity : Option Int) (actions : List Action) :
    ∃ s, run (start capacity) actions = .ok s ∧ ∀ n, n ∈ s ↔ n ∈ added actions := by
  -- The last action decides what came of the ones before, so the induction is from the end.
  induction actions using List.reverseRecOn with
  | nil =>
    refine ⟨start capacity, rfl, fun n => iff_of_false ?_ List.not_mem_nil⟩
    cases capacity with
    | none => exact not_mem_empty n
    | some c => exact not_mem_ofCapacity c n
  | append_singleton actions a ih =>
    obtain ⟨s, hs, hmem⟩ := ih
    obtain ⟨t, ht, hstep⟩ := a.exists_run s
    refine ⟨t, ?_, fun n => by rw [hstep, hmem, mem_added_concat]⟩
    rw [run, List.foldlM_append, ← run, hs]
    change (a.run s >>= pure) = _
    rw [ht]
    rfl

theorem size_eq_card {s : Bitmap} {elements : List Nat} (h : ∀ n, n ∈ s ↔ n ∈ elements) :
    s.size = elements.toFinset.card := by
  have hnodup : s.toList.Nodup := s.pairwise_toList.imp Nat.ne_of_lt
  have hsame : s.toList.toFinset = elements.toFinset := by
    ext n
    rw [List.mem_toFinset, List.mem_toFinset, mem_toList_iff, h]
  rw [← length_toList, ← List.toFinset_card_of_nodup hnodup, hsame]

/-- A bitmap is a finite set of numbers. Made with any capacity or none, and whatever is done to it
after that, nothing faults. A number is in it exactly if it was added since all were last taken out;
inserting it says whether it was not there, and then it is; the size is the number of distinct
members; and a visitor sees the members, each once and in ascending order, up to and with the first
at which `more` is false. -/
theorem run_refines (capacity : Option Int) (actions : List Action) :
    ∃ s, run (start capacity) actions = .ok s ∧
      (∀ n : Nat, s.contains n = .ok (decide (n ∈ added actions))) ∧
      (∀ n : Nat, ∃ t, s.insertNew n = .ok (decide (n ∉ added actions), t) ∧
          t.contains n = .ok true) ∧
      s.size = (added actions).toFinset.card ∧
      ∃ elements : List Nat, elements.Pairwise (· < ·) ∧ (∀ n, n ∈ elements ↔ n ∈ added actions) ∧
        ∀ more, s.visit more = elements.takeWhile more ++ (elements.dropWhile more).take 1 := by
  obtain ⟨s, hs, hmem⟩ := exists_run capacity actions
  refine ⟨s, hs, fun n => ?_, fun n => ?_, size_eq_card hmem, s.toList, s.pairwise_toList,
    fun n => ?_, fun more => ?_⟩
  · rw [contains_natCast, decide_eq_decide.mpr (hmem n)]
  · by_cases hn : n ∈ s
    · refine ⟨s, ?_, by rw [contains_natCast, decide_eq_true hn]⟩
      rw [insertNew_of_mem hn, decide_eq_false (not_not.mpr ((hmem n).mp hn))]
    · obtain ⟨t, ht, hstep⟩ := exists_insertNew hn
      refine ⟨t, ?_, by rw [contains_natCast, decide_eq_true ((hstep n).mpr (.inl rfl))]⟩
      rw [ht, decide_eq_true (mt (hmem n).mpr hn)]
  · rw [mem_toList_iff, hmem]
  · exact visitFrom_eq more 0 s.words

end ThreeAddress.Bitmap
