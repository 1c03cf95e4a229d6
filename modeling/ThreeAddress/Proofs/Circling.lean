import ThreeAddress.Proofs.Machine

/-!
# Running in circles

A label, a jump and a nop pass control on and do nothing else. A run circles if from some step on it
meets nothing but these: it never ends, and nothing more is seen of it. Code that is changed group
of steps by group of steps, so that a group is idle exactly if its counterpart is, circles where it
did and nowhere else (`IdleLockstep.circles_iff`).
-/

namespace ThreeAddress
set_option autoImplicit false

/-- The instruction only passes control on. -/
def Instr.Idle (x : Instr) : Prop := x.op = .label ∨ x.op = .br ∨ x.op = .nop

/-- What is run next only passes control on. -/
def Status.Idle : Status → Prop
  | running ⟨x :: _, _, _⟩ => x.Idle
  | _ => False

namespace Machine

/-- The next `n` steps only pass control on. -/
def Idles (M : Machine) (code : Code) (n : Nat) (s : Status) : Prop :=
  ∀ i < n, (M.run code i s).Idle

/-- From some step on the run only passes control on, for ever. -/
def Circles (M : Machine) (code : Code) (ρ : Regs) (w : World) : Prop :=
  ∃ n, ∀ m, n ≤ m → (M.run code m (.running ⟨code, ρ, w⟩)).Idle

/-- Control comes from `a` to `b` and does nothing on the way. -/
def Drifts (M : Machine) (code : Code) (a b : Config) : Prop :=
  ∃ n, M.run code n (.running a) = .running b ∧ M.Idles code n (.running a)

variable {M : Machine} {code : Code}

theorem idles_zero (s : Status) : M.Idles code 0 s := fun i hi => absurd hi (Nat.not_lt_zero i)

theorem idles_add {m n : Nat} {s : Status} :
    M.Idles code (m + n) s ↔ M.Idles code m s ∧ M.Idles code n (M.run code m s) := by
  constructor
  · intro h
    refine ⟨fun i hi => h i (by omega), fun i hi => ?_⟩
    rw [← run_add]
    exact h (m + i) (by omega)
  · intro h i hi
    by_cases hm : i < m
    · exact h.1 i hm
    · obtain ⟨j, rfl⟩ := Nat.le.dest (Nat.le_of_not_lt hm)
      rw [run_add]
      exact h.2 j (by omega)

theorem idles_one {s : Status} : M.Idles code 1 s ↔ s.Idle := by
  constructor
  · intro h
    exact h 0 Nat.one_pos
  · intro h i hi
    obtain rfl : i = 0 := by omega
    exact h

theorem Idles.mono {m n : Nat} {s : Status} (h : M.Idles code n s) (hmn : m ≤ n) :
    M.Idles code m s :=
  fun i hi => h i (Nat.lt_of_lt_of_le hi hmn)

theorem idles_later {m n : Nat} {s : Status} (hmn : m ≤ n)
    (h : ∀ k, M.Idles code k (M.run code m s)) (k : Nat) :
    M.Idles code k (M.run code n s) := by
  obtain ⟨j, rfl⟩ := Nat.le.dest hmn
  rw [run_add]
  exact (idles_add.mp (h (j + k))).2

theorem circles_iff_idles {ρ : Regs} {w : World} : M.Circles code ρ w ↔
    ∃ n, ∀ k, M.Idles code k (M.run code n (.running ⟨code, ρ, w⟩)) := by
  constructor
  · intro h
    obtain ⟨n, hn⟩ := h
    refine ⟨n, fun k i _ => ?_⟩
    rw [← run_add]
    exact hn (n + i) (Nat.le_add_right n i)
  · intro h
    obtain ⟨n, hn⟩ := h
    refine ⟨n, fun m hm => ?_⟩
    obtain ⟨k, rfl⟩ := Nat.le.dest hm
    rw [run_add]
    exact hn (k + 1) k (Nat.lt_succ_self k)

/-- A run that comes back, idly, to where it has been circles. -/
theorem circles_of_loop {ρ : Regs} {w : World} {n k : Nat} (hk : 0 < k) (hback : M.run code k
      (M.run code n (.running ⟨code, ρ, w⟩)) = M.run code n (.running ⟨code, ρ, w⟩))
    (hidle : M.Idles code k (M.run code n (.running ⟨code, ρ, w⟩))) : M.Circles code ρ w := by
  refine circles_iff_idles.mpr ⟨n, fun m => ?_⟩
  generalize M.run code n (.running ⟨code, ρ, w⟩) = s at hback hidle
  have hround : ∀ m, M.Idles code (m * k) s ∧ M.run code (m * k) s = s := by
    intro m
    induction m with
    | zero => exact ⟨by rw [Nat.zero_mul]; exact idles_zero s, by rw [Nat.zero_mul]; rfl⟩
    | succ m ih =>
      obtain ⟨hi, hr⟩ := ih
      rw [Nat.succ_mul]
      exact ⟨idles_add.mpr ⟨hi, by rw [hr]; exact hidle⟩, by rw [run_add, hr, hback]⟩
  exact (hround m).1.mono (Nat.le_mul_of_pos_right m hk)

theorem Drifts.refl (a : Config) : M.Drifts code a a := ⟨0, rfl, idles_zero _⟩

theorem Drifts.trans {a b c : Config} (hab : M.Drifts code a b) (hbc : M.Drifts code b c) :
    M.Drifts code a c := by
  obtain ⟨m, hm, hi⟩ := hab
  obtain ⟨n, hn, hi'⟩ := hbc
  exact ⟨m + n, by rw [run_add, hm, hn], idles_add.mpr ⟨hi, by rw [hm]; exact hi'⟩⟩

theorem Drifts.next {x : Instr} {ρ : Regs} {w : World} (hx : x.Idle)
    (h : M.effect x ρ w = .next ρ w) (k : Code) :
    M.Drifts code ⟨x :: k, ρ, w⟩ ⟨k, ρ, w⟩ := ⟨1, by rw [run_one, h]; rfl, idles_one.mpr hx⟩

theorem Drifts.jump {x : Instr} {ρ : Regs} {w : World} {l : Label} (hx : x.Idle)
    (h : M.effect x ρ w = .jump l ρ w) (k : Code) :
    M.Drifts code ⟨x :: k, ρ, w⟩ ⟨code.seek l, ρ, w⟩ :=
  ⟨1, by rw [run_one, h]; rfl, idles_one.mpr hx⟩

end Machine

section IdleLockstep
variable {M N : Machine} {c d : Code} {R : Config → Config → Prop}

/-- A lockstep in which the steps that one side makes at a time are idle exactly if those of the
other side are. -/
structure IdleLockstep (M N : Machine) (c d : Code) (R : Config → Config → Prop) : Prop where
  world : ∀ {a b}, R a b → a.world = b.world
  progress : ∀ {a b}, R a b → ∃ m n, 0 < m ∧ 0 < n ∧
    Status.Matches R (M.run c m (.running a)) (N.run d n (.running b)) ∧
      (M.Idles c m (.running a) ↔ N.Idles d n (.running b))

namespace IdleLockstep

theorem lockstep (h : IdleLockstep M N c d R) : Lockstep M N c d R where
  world := h.world
  progress hab := by
    obtain ⟨m, n, hm, hn, hmatch, _⟩ := h.progress hab
    exact ⟨m, n, hm, hn, hmatch⟩

theorem far_idles (h : IdleLockstep M N c d R) (k : Nat) {s t : Status}
    (hst : Status.Matches R s t) :
    ∃ m n, k ≤ m ∧ k ≤ n ∧ Status.Matches R (M.run c m s) (N.run d n t) ∧
      (M.Idles c m s ↔ N.Idles d n t) := by
  induction k with
  | zero =>
    exact ⟨0, 0, Nat.le_refl 0, Nat.le_refl 0, hst, fun _ => Machine.idles_zero t,
      fun _ => Machine.idles_zero s⟩
  | succ k ih =>
    obtain ⟨m, n, hm, hn, hmn, hidle⟩ := ih
    generalize hs : M.run c m s = s' at hmn
    generalize ht : N.run d n t = t' at hmn
    cases hmn with
    | running hab =>
      obtain ⟨m', n', hm', hn', hmatch, hidle'⟩ := h.progress hab
      refine ⟨m + m', n + n', by omega, by omega, ?_, ?_⟩
      · rw [Machine.run_add, Machine.run_add, hs, ht]
        exact hmatch
      · rw [Machine.idles_add, Machine.idles_add, hs, ht, hidle, hidle']
    | halted x w =>
      refine ⟨m + 1, n + 1, by omega, by omega, ?_, ?_⟩
      · rw [Machine.run_add, Machine.run_add, hs, ht, Machine.run_halted, Machine.run_halted]
        exact .halted x w
      · rw [Machine.idles_add, Machine.idles_add, hs, ht, Machine.idles_one,
          Machine.idles_one, hidle]

/-- From statuses that correspond both sides are idle for ever, or neither is. -/
theorem idles_iff (h : IdleLockstep M N c d R) {s t : Status} (hst : Status.Matches R s t) :
    (∀ k, M.Idles c k s) ↔ ∀ k, N.Idles d k t := by
  constructor
  · intro hs k
    obtain ⟨m, n, _, hn, _, hidle⟩ := h.far_idles k hst
    exact (hidle.mp (hs m)).mono hn
  · intro ht k
    obtain ⟨m, n, hm, _, _, hidle⟩ := h.far_idles k hst
    exact (hidle.mpr (ht n)).mono hm

theorem circles_iff (h : IdleLockstep M N c d R) {ρ σ : Regs} {w : World}
    (hstart : R ⟨c, ρ, w⟩ ⟨d, σ, w⟩) :
    M.Circles c ρ w ↔ N.Circles d σ w := by
  rw [Machine.circles_iff_idles, Machine.circles_iff_idles]
  constructor
  · intro hc
    obtain ⟨k, hk⟩ := hc
    obtain ⟨m, n, hm, _, hmatch, _⟩ := h.far_idles k (.running hstart)
    exact ⟨n, (h.idles_iff hmatch).mp (Machine.idles_later hm hk)⟩
  · intro hd
    obtain ⟨k, hk⟩ := hd
    obtain ⟨m, n, _, hn, hmatch, _⟩ := h.far_idles k (.running hstart)
    exact ⟨m, (h.idles_iff hmatch).mpr (Machine.idles_later hn hk)⟩

end IdleLockstep

end IdleLockstep

end ThreeAddress
