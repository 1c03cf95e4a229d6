import ThreeAddress.Bitmap

/-!
# Membership in bitmaps

`n ∈ s` says that bit `n % 64` of word `n / 64` is set. A number that is not negative can always be
looked up and inserted; one that is negative faults as soon as there is a word at all.
-/

namespace ThreeAddress.Bitmap
set_option autoImplicit false

instance : Membership Nat Bitmap where
  mem s n := hasBit (s.words.getD (n / 64) 0) (n % 64) = true

theorem mem_def {s : Bitmap} {n : Nat} :
    n ∈ s ↔ hasBit (s.words.getD (n / 64) 0) (n % 64) = true := Iff.rfl

instance (n : Nat) (s : Bitmap) : Decidable (n ∈ s) :=
  inferInstanceAs (Decidable (hasBit (s.words.getD (n / 64) 0) (n % 64) = true))

theorem toNat_bit {j : Nat} (hj : j < 64) : (bit j).toNat = 1 <<< j := by
  have hmod : (UInt64.ofNat j).toNat % 64 = j := by
    rw [UInt64.toNat_ofNat']
    omega
  rw [bit, UInt64.toNat_shiftLeft, hmod]
  apply Nat.mod_eq_of_lt
  change 1 <<< j < _
  rw [Nat.one_shiftLeft]
  exact Nat.pow_lt_pow_right (by omega) hj

theorem testBit_one_shiftLeft (i j : Nat) : (1 <<< j).testBit i = decide (j = i) := by
  rw [Nat.one_shiftLeft, Nat.testBit_two_pow]

theorem hasBit_iff_testBit {w : UInt64} {j : Nat} (hj : j < 64) :
    hasBit w j = true ↔ w.toNat.testBit j = true := by
  have hand : (w &&& bit j).toNat = w.toNat &&& 1 <<< j := by rw [UInt64.toNat_and, toNat_bit hj]
  rw [hasBit, bne_iff_ne, ne_eq, ← UInt64.toNat_inj, hand]
  constructor
  · intro hne
    obtain ⟨i, hi⟩ := Nat.exists_testBit_of_ne_zero hne
    rw [Nat.testBit_and, testBit_one_shiftLeft, Bool.and_eq_true, decide_eq_true_eq] at hi
    rw [hi.2]
    exact hi.1
  · intro ht h0
    have hfalse : (w.toNat &&& 1 <<< j).testBit j = false := by
      rw [h0]
      exact Nat.zero_testBit j
    rw [Nat.testBit_and, ht, testBit_one_shiftLeft, decide_eq_true rfl] at hfalse
    cases hfalse

theorem hasBit_or_bit {w : UInt64} {i j : Nat} (hi : i < 64) (hj : j < 64) :
    hasBit (w ||| bit j) i = true ↔ i = j ∨ hasBit w i = true := by
  rw [hasBit_iff_testBit hi, hasBit_iff_testBit hi, UInt64.toNat_or, toNat_bit hj, Nat.testBit_or,
    testBit_one_shiftLeft, Bool.or_eq_true, decide_eq_true_eq]
  constructor
  · rintro (h | h)
    · exact .inr h
    · exact .inl h.symm
  · rintro (h | h)
    · exact .inr h.symm
    · exact .inl h

theorem not_hasBit_zero {j : Nat} (hj : j < 64) : ¬ hasBit 0 j = true := by
  rw [hasBit_iff_testBit hj]
  change ¬ Nat.testBit 0 j = true
  rw [Nat.zero_testBit]
  exact Bool.false_ne_true

theorem not_mem_ofCapacity (c : Int) (n : Nat) : n ∉ ofCapacity c := by
  have hzero : (ofCapacity c).words.getD (n / 64) 0 = 0 := by
    rw [List.getD_eq_getElem?_getD, ofCapacity, ← List.replicate_succ, List.getElem?_replicate]
    split <;> rfl
  rw [mem_def, hzero]
  exact not_hasBit_zero (by omega)

theorem locate_natCast (n : Nat) :
    locate (n : Int) = (((n / 64 : Nat) : Int), ((n % 64 : Nat) : Int)) := by
  rw [locate, Int.tdiv_eq_ediv_of_nonneg (by omega), Int.tmod_eq_emod_of_nonneg (by omega)]
  rfl

theorem checked_natCast (n : Nat) : checked (n : Int) = .ok (n / 64, n % 64) := by
  rw [checked, locate_natCast, if_neg (by dsimp only; omega), if_neg (by dsimp only; omega)]
  rfl

theorem contains_natCast (s : Bitmap) (n : Nat) : s.contains (n : Int) = .ok (decide (n ∈ s)) := by
  rw [contains, locate_natCast]
  dsimp only
  split
  · rename_i hle
    have hle' : s.words.length ≤ n / 64 := by omega
    have hnot : n ∉ s := by
      rw [mem_def, List.getD_eq_getElem?_getD, List.getElem?_eq_none hle']
      exact not_hasBit_zero (by omega)
    rw [decide_eq_false hnot]
  · rw [checked_natCast]
    change Except.ok _ = Except.ok _
    simp [mem_def]

theorem exists_insert_natCast (s : Bitmap) (n : Nat) :
    ∃ t, s.insert (n : Int) = .ok t ∧ ∀ m, m ∈ t ↔ m = n ∨ m ∈ s := by
  refine ⟨⟨(s.grow (n / 64)).words.modify (n / 64) (· ||| bit (n % 64))⟩, ?_, ?_⟩
  · rw [insert, checked_natCast]
    rfl
  · intro m
    have hgrow : (s.grow (n / 64)).words[m / 64]?.getD 0 = s.words[m / 64]?.getD 0 := by
      rw [grow]
      by_cases hm : m / 64 < s.words.length
      · rw [List.getElem?_append_left hm]
      · rw [List.getElem?_append_right (by omega), List.getElem?_replicate,
          List.getElem?_eq_none (by omega : s.words.length ≤ m / 64)]
        split <;> rfl
    rw [mem_def, mem_def, List.getD_eq_getElem?_getD, List.getD_eq_getElem?_getD,
      List.getElem?_modify]
    by_cases hw : n / 64 = m / 64
    · have hlen : m / 64 < (s.grow (n / 64)).words.length := by
        rw [grow, List.length_append, List.length_replicate]
        omega
      have hsame : m % 64 = n % 64 ↔ m = n := by omega
      rw [List.getElem?_eq_getElem hlen, Option.getD_some] at hgrow
      rw [List.getElem?_eq_getElem hlen, Option.map_eq_map, Option.map_some, Option.getD_some,
        if_pos hw, hgrow, hasBit_or_bit (by omega) (by omega), hsame]
    · have hne : m ≠ n := by
        rintro rfl
        exact hw rfl
      simp only [hw, if_false, Option.map_eq_map, Option.map_id', hne, false_or]
      rw [hgrow]

theorem insertNew_of_mem {s : Bitmap} {n : Nat} (h : n ∈ s) :
    s.insertNew (n : Int) = .ok (false, s) := by
  rw [insertNew, contains_natCast, decide_eq_true h]
  rfl

theorem exists_insertNew {s : Bitmap} {n : Nat} (h : n ∉ s) :
    ∃ t, s.insertNew (n : Int) = .ok (true, t) ∧ ∀ m, m ∈ t ↔ m = n ∨ m ∈ s := by
  obtain ⟨t, ht, hmem⟩ := s.exists_insert_natCast n
  refine ⟨t, ?_, hmem⟩
  rw [insertNew, contains_natCast, decide_eq_false h, ht]
  rfl

/-- A bitmap that has a word, as every one has that was made with a capacity or inserted into. -/
def Roomy (s : Bitmap) : Prop := 0 < s.words.length

theorem roomy_ofCapacity (c : Int) : (ofCapacity c).Roomy := by simp [Roomy, ofCapacity]

theorem Roomy.insert {s t : Bitmap} {p : Int} (hs : s.Roomy)
    (h : s.insert p = .ok t) : t.Roomy := by
  rw [Bitmap.insert] at h
  obtain ⟨⟨i, j⟩, _, h⟩ := Fault.bind_eq_ok_iff.mp h
  cases h
  simp only [Roomy, grow, List.length_modify, List.length_append]
  exact Nat.lt_of_lt_of_le hs (Nat.le_add_right _ _)

theorem Roomy.nonneg_of_contains {s : Bitmap} {p : Int} {b : Bool} (hs : s.Roomy)
    (h : s.contains p = .ok b) : 0 ≤ p := by
  apply Int.not_lt.mp
  intro hp
  unfold Roomy at hs
  have hword : (locate p).1 = -(-p / 64) := by
    rw [locate, ← Int.tdiv_eq_ediv_of_nonneg (by omega), Int.neg_tdiv, Int.neg_neg]
  rw [contains, if_neg (by omega)] at h
  obtain ⟨ij, hij, _⟩ := Fault.bind_eq_ok_iff.mp h
  unfold checked at hij
  split at hij
  · cases hij
  · rename_i hw
    split at hij
    · cases hij
    · rename_i hb
      have heq : p.tdiv 64 * 64 + p.tmod 64 = p := Int.tdiv_mul_add_tmod p 64
      have h1 : (locate p).1 = p.tdiv 64 := rfl
      have h2 : (locate p).2 = p.tmod 64 := rfl
      omega

end ThreeAddress.Bitmap
