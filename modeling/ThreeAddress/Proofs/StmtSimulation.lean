import ThreeAddress.Proofs.ExprSimulation

/-!
# The code of statements

Running the code of a statement goes where the statement says: on to the code after it, to the
labels that a break and a continue stand for, or out of the function (`LowersBody.simulates`). A
statement that has used up the turns of its loops corresponds to a run of the machine that is at
least as long as their number, and is still going on.
-/

namespace ThreeAddress
set_option autoImplicit false

open LowerM

section Reaching
variable {M : Machine} {code : Code} {fin : Frame} {loop : Option Loop} {n : Nat} {a b : Config}
  {k k' : Code} {σ : Store} {f : Flow}

def Gets (M : Machine) (code : Code) (fin : Frame) (a : Config) (k : Code) (σ : Store) : Prop :=
  ∃ ρ, M.Reaches code a ⟨k, ρ, σ.world⟩ ∧ ρ.Holds fin σ

/-- The run from `a` goes where a statement sends it that is followed by `k`. -/
def Flow.Reached (M : Machine) (code : Code) (fin : Frame) (loop : Option Loop) (n : Nat)
    (a : Config) (k : Code) (σ : Store) : Flow → Prop
  | normal => Gets M code fin a k σ
  | broke => ∃ l, loop = some l ∧ Gets M code fin a (code.seek l.onBreak) σ
  | continued => ∃ l, loop = some l ∧ Gets M code fin a (code.seek l.onContinue) σ
  | returned v => ∃ m, M.run code m (.running a) = .halted (.returned v) σ.world
  | exhausted => ∃ m b, n ≤ m ∧ M.run code m (.running a) = .running b ∧ b.world = σ.world

theorem Gets.of_reaches (h : M.Reaches code a b) (hb : Gets M code fin b k σ) :
    Gets M code fin a k σ := by
  obtain ⟨ρ, hreach, hρ⟩ := hb
  exact ⟨ρ, h.trans hreach, hρ⟩

namespace Flow

theorem Reached.of_run {m j : Nat} (h : M.run code m (.running a) = .running b)
    (hb : f.Reached M code fin loop n b k σ) (hj : j ≤ m + n) :
    f.Reached M code fin loop j a k σ := by
  cases f with
  | normal => exact Gets.of_reaches ⟨m, h⟩ hb
  | broke =>
    obtain ⟨l, hl, hget⟩ := hb
    exact ⟨l, hl, hget.of_reaches ⟨m, h⟩⟩
  | continued =>
    obtain ⟨l, hl, hget⟩ := hb
    exact ⟨l, hl, hget.of_reaches ⟨m, h⟩⟩
  | returned v =>
    obtain ⟨i, hi⟩ := hb
    exact ⟨m + i, by rw [Machine.run_add, h, hi]⟩
  | exhausted =>
    obtain ⟨i, c, hn, hi, hc⟩ := hb
    exact ⟨m + i, c, by omega, by rw [Machine.run_add, h, hi], hc⟩

theorem Reached.of_reaches (h : M.Reaches code a b) (hb : f.Reached M code fin loop n b k σ) :
    f.Reached M code fin loop n a k σ := by
  obtain ⟨m, hm⟩ := h
  exact hb.of_run hm (Nat.le_add_left n m)

theorem Reached.onward (h : f.Reached M code fin loop n a k σ)
    (hk : ∀ (ρ : Regs) (w : World), M.Reaches code ⟨k, ρ, w⟩ ⟨k', ρ, w⟩) :
    f.Reached M code fin loop n a k' σ := by
  cases f with
  | normal =>
    obtain ⟨ρ, hreach, hρ⟩ := h
    exact ⟨ρ, hreach.trans (hk ρ _), hρ⟩
  | broke | continued | returned | exhausted => exact h

theorem Reached.andThen {r : Flow × Store} {next : Store → Flow × Store}
    (h : r.1.Reached M code fin loop n a k r.2) (h' : ∀ ρ, ρ.Holds fin r.2 →
      (next r.2).1.Reached M code fin loop n ⟨k, ρ, r.2.world⟩ k' (next r.2).2) :
    (Flow.andThen r next).1.Reached M code fin loop n a k' (Flow.andThen r next).2 := by
  obtain ⟨f, σ⟩ := r
  cases f with
  | normal =>
    obtain ⟨ρ, hreach, hρ⟩ := h
    exact (h' ρ hρ).of_reaches hreach
  | broke | continued | returned | exhausted => exact h

end Flow

end Reaching

section Loops
variable {M : Machine} {code : Code} {fin : Frame} {loop : Option Loop} {n : Nat}
  {k head kb kp : Code}

/-- After a turn that starts at the head, the run is at the head again or goes where the loop sends
it. A turn takes a step at least. -/
def Turned (M : Machine) (code : Code) (fin : Frame) (loop : Option Loop) (n : Nat) (head k : Code)
    (ρ : Regs) (w : World) (σ : Store) : Option Flow → Prop
  | none =>
    ∃ m ρ', M.run code (m + 1) (.running ⟨head, ρ, w⟩) = .running ⟨head, ρ', σ.world⟩ ∧
      ρ'.Holds fin σ
  | some f => f.Reached M code fin loop n ⟨head, ρ, w⟩ k σ

theorem reached_iterate {turn : Store → Option Flow × Store}
    (hturn : ∀ (ρ : Regs) (σ : Store), ρ.Holds fin σ →
      Turned M code fin loop n head k ρ σ.world (turn σ).2 (turn σ).1)
    (j : Nat) (hj : j ≤ n) (ρ : Regs) (σ : Store) (hρ : ρ.Holds fin σ) :
    (Flow.iterate turn j σ).1.Reached M code fin loop j ⟨head, ρ, σ.world⟩ k
      (Flow.iterate turn j σ).2 := by
  induction j generalizing ρ σ with
  | zero => exact ⟨0, _, Nat.le_refl 0, rfl, rfl⟩
  | succ j ih =>
    have hone := hturn ρ σ hρ
    rw [Flow.iterate]
    generalize turn σ = r at hone ⊢
    obtain ⟨_ | f, σ'⟩ := r
    · obtain ⟨m, ρ', hrun, hρ'⟩ := hone
      exact (ih (by omega) ρ' σ' hρ').of_run hrun (by omega)
    · exact hone.of_run (m := 0) rfl (by omega)

/-- A loop whose guard is at its head, whose body is at `kb`, and whose turns end with `post`, at
`kp` or at the label of a continue. -/
theorem reached_loop {guard : Store → Bool × Store} {body post : Store → Flow × Store}
    {out next : Label} (hnodup : code.labels.Nodup) (hout : (.defineLabel out :: k) <:+ code)
    (hguard : ∀ (ρ : Regs) (σ : Store), ρ.Holds fin σ →
      ∃ m ρ', M.run code (m + 1) (.running ⟨head, ρ, σ.world⟩) =
      .running ⟨if (guard σ).1 then kb else code.seek out, ρ', (guard σ).2.world⟩ ∧
      ρ'.Holds fin (guard σ).2) (hbody : ∀ (ρ : Regs) (σ : Store), ρ.Holds fin σ →
      (body σ).1.Reached M code fin (some ⟨out, next⟩) n ⟨kb, ρ, σ.world⟩ kp (body σ).2)
    (hpost : ∀ (ρ : Regs) (σ : Store) (rest : Code), ρ.Holds fin σ → rest = kp ∨ rest =
      code.seek next → (post σ).1.Reached M code fin loop n ⟨rest, ρ, σ.world⟩ head (post σ).2)
    {ρ : Regs} {σ : Store} (hρ : ρ.Holds fin σ) :
    (Flow.iterate (Flow.turn guard body post) n σ).1.Reached M code fin loop n ⟨head, ρ, σ.world⟩ k
      (Flow.iterate (Flow.turn guard body post) n σ).2 := by
  refine reached_iterate ?_ n (Nat.le_refl n) ρ σ hρ
  intro ρ σ hρ
  have hleave : ∀ (ρ : Regs) (σ : Store), ρ.Holds fin σ →
      Gets M code fin ⟨code.seek out, ρ, σ.world⟩ k σ := by
    intro ρ σ hρ
    rw [Code.seek_of_suffix hnodup hout rfl]
    exact ⟨ρ, .defineLabel out k ρ _, hρ⟩
  obtain ⟨m, ρ₁, hrun, hρ₁⟩ := hguard ρ σ hρ
  rw [Flow.turn]
  generalize guard σ = g at hrun hρ₁ ⊢
  obtain ⟨_ | _, σ₁⟩ := g
  · exact (hleave ρ₁ σ₁ hρ₁).of_reaches ⟨m + 1, hrun⟩
  · have hb := hbody ρ₁ σ₁ hρ₁
    rw [if_pos rfl] at hrun ⊢
    simp only
    generalize body σ₁ = r at hb ⊢
    obtain ⟨f, σ₂⟩ := r
    -- however control gets to the end of the turn, `post` decides what comes next
    have hend : ∀ rest, rest = kp ∨ rest = code.seek next → Gets M code fin ⟨kb, ρ₁, σ₁.world⟩ rest
        σ₂ → Turned M code fin loop n head k ρ σ.world (post σ₂).2 (post σ₂).1.again? := by
      rintro rest hrest ⟨ρ₂, hreach, hρ₂⟩
      have hp := hpost ρ₂ σ₂ rest hρ₂ hrest
      generalize post σ₂ = q at hp ⊢
      obtain ⟨f, σ₃⟩ := q
      have hreach' := Machine.Reaches.trans ⟨m + 1, hrun⟩ hreach
      cases f with
      | normal =>
        obtain ⟨i, hi⟩ := hreach
        obtain ⟨ρ₃, ⟨j, hj⟩, hρ₃⟩ := hp
        refine ⟨m + i + j, ρ₃, ?_, hρ₃⟩
        have hsum : m + i + j + 1 = m + 1 + i + j := by omega
        rw [hsum, Machine.run_add, Machine.run_add, hrun, hi, hj]
      | broke | continued | returned | exhausted => exact hp.of_reaches hreach'
    cases f with
    | normal => exact hend kp (.inl rfl) hb
    | continued =>
      obtain ⟨l, hl, hget⟩ := hb
      cases hl
      exact hend _ (.inr rfl) hget
    | broke =>
      obtain ⟨l, hl, ρ₂, hreach, hρ₂⟩ := hb
      cases hl
      exact (hleave ρ₂ σ₂ hρ₂).of_reaches (Machine.Reaches.trans ⟨m + 1, hrun⟩ hreach)
    | returned v => exact Flow.Reached.of_reaches (f := .returned v) ⟨m + 1, hrun⟩ hb
    | exhausted => exact Flow.Reached.of_reaches (f := .exhausted) ⟨m + 1, hrun⟩ hb

end Loops

section Simulation
variable {L : Language} {M : Machine} {code : Code} {fin : Frame}

def Body.exec (L : Language) (m : Reading) (n : Nat) : Body → Store → Flow × Store
  | one x => x.exec L m n
  | list xs => Stmt.execList L m n xs

theorem Arrives.gets {a : Config} {k : Code} {lo : Nat} {dst : Option Reg} {σ : Store}
    {P : Regs → Prop} (h : Arrives M code fin a k lo dst σ P) : Gets M code fin a k σ := by
  obtain ⟨ρ, hreach, hρ, _⟩ := h
  exact ⟨ρ, hreach, hρ⟩

def Body.Simulated (L : Language) (M : Machine) (code : Code) (fin : Frame) (n : Nat)
    (loop : Option Loop) (b : Body) (c : Code) : Prop :=
  ∀ ⦃k : Code⦄ ⦃ρ : Regs⦄ ⦃σ : Store⦄, (c ++ k) <:+ code → ρ.Holds fin σ → (b.exec L .inPlace n
    σ).1.Reached M code fin loop n ⟨c ++ k, ρ, σ.world⟩ k (b.exec L .inPlace n σ).2

section Rules
variable {n : Nat} {loop : Option Loop} {x : Expr} {vx : Operand} {cc ca cb cp cx : Code}
  {s s₁ s' : Frame}

theorem simulated_store {addr : Expr} {va : Operand} (hgrows : s.Grows s₁)
    (ha : Part.Simulated L M code fin (.operand addr va) s ca s₁)
    (hx : Part.Simulated L M code fin (.operand x vx) s₁ cx s') :
    Body.Simulated L M code fin n loop (.one (.store addr x))
      (.mark .store :: (ca ++ (cx ++ [.make .write [va, vx]]))) := by
  intro k ρ σ hk hρ
  simp only [List.cons_append, List.append_assoc, List.nil_append] at hk ⊢
  obtain ⟨ρ₁, hreach, hρ₁, _, haddr, hvalue⟩ :=
    arrives_operands hgrows ha hx ((List.suffix_cons _ _).trans hk) hρ
  have hwrite :
      M.effect (.make .write [va, vx]) ρ₁ (x.eval L .inPlace (addr.eval L .inPlace σ).2).2.world =
      .next ρ₁ ((x.eval L .inPlace (addr.eval L .inPlace σ).2).2.world.write (addr.held .inPlace
        (addr.eval L .inPlace σ).1 (x.eval L .inPlace (addr.eval L .inPlace σ).2).2)
      (x.eval L .inPlace (addr.eval L .inPlace σ).2).1) := by
    rw [← haddr, ← hvalue]
    rfl
  exact ⟨ρ₁, (Machine.Reaches.mark _ _ ρ _).trans (hreach.trans (.next hwrite k)), hρ₁⟩

theorem simulated_branch (S : Setting L M code fin) {c : Expr} {a : Stmt} {out : Label}
    (hc : Part.Simulated L M code fin (.guard c out) s cc s')
    (ha : Body.Simulated L M code fin n loop (.one a) ca) :
    Body.Simulated L M code fin n loop (.one (.branch c a .hole))
      (.mark .branch :: (cc ++ (ca ++ [.defineLabel out]))) := by
  intro k ρ σ hk hρ
  simp only [List.cons_append, List.append_assoc, List.nil_append] at hk ⊢
  have hkc := (List.suffix_cons _ _).trans hk
  have hka := (List.suffix_append cc _).trans hkc
  have hout := (List.suffix_append ca _).trans hka
  obtain ⟨ρ₁, hreach, hρ₁, _⟩ := hc hkc hρ
  refine .of_reaches ((Machine.Reaches.mark _ _ ρ _).trans hreach) ?_
  rw [Body.exec, Stmt.exec]
  generalize c.guard L .inPlace σ = q at hρ₁ ⊢
  obtain ⟨_ | _, σ₁⟩ := q
  · rw [if_neg Bool.false_ne_true, if_neg Bool.false_ne_true, Code.seek_of_suffix S.nodup hout rfl]
    exact ⟨ρ₁, .defineLabel out k ρ₁ _, hρ₁⟩
  · exact (ha hka hρ₁).onward fun ρ w => .defineLabel out k ρ w

theorem simulated_branchElse (S : Setting L M code fin) {c : Expr} {a b : Stmt} {out other : Label}
    (hc : Part.Simulated L M code fin (.guard c other) s cc s')
    (ha : Body.Simulated L M code fin n loop (.one a) ca)
    (hb : Body.Simulated L M code fin n loop (.one b) cb) :
    Body.Simulated L M code fin n loop (.one (.branch c a b))
      (.mark .branch ::
          (cc ++ (ca ++ .jump out :: .defineLabel other :: (cb ++ [.defineLabel out])))) := by
  intro k ρ σ hk hρ
  simp only [List.cons_append, List.append_assoc, List.nil_append] at hk ⊢
  have hkc := (List.suffix_cons _ _).trans hk
  have hka := (List.suffix_append cc _).trans hkc
  have hother := (List.suffix_cons _ _).trans ((List.suffix_append ca _).trans hka)
  have hkb := (List.suffix_cons _ _).trans hother
  have hout := (List.suffix_append cb _).trans hkb
  obtain ⟨ρ₁, hreach, hρ₁, _⟩ := hc hkc hρ
  refine .of_reaches ((Machine.Reaches.mark _ _ ρ _).trans hreach) ?_
  rw [Body.exec, Stmt.exec]
  generalize c.guard L .inPlace σ = q at hρ₁ ⊢
  obtain ⟨_ | _, σ₁⟩ := q
  · rw [if_neg Bool.false_ne_true, if_neg Bool.false_ne_true,
        Code.seek_of_suffix S.nodup hother rfl]
    refine .of_reaches (.defineLabel other _ ρ₁ _) ?_
    exact (hb hkb hρ₁).onward fun ρ w => .defineLabel out k ρ w
  · exact (ha hka hρ₁).onward fun ρ w => .goto rfl S.nodup hout _

theorem run_guard {c : Expr} {top out : Label} {k : Code} {ρ : Regs} {σ : Store}
    (hc : Part.Simulated L M code fin (.guard c out) s cc s') (hk : (cc ++ k) <:+ code)
    (hρ : ρ.Holds fin σ) :
    ∃ m ρ', M.run code (m + 1) (.running ⟨.defineLabel top :: (cc ++ k), ρ, σ.world⟩) =
      .running ⟨if (c.guard L .inPlace σ).1 then k
          else code.seek out, ρ', (c.guard L .inPlace σ).2.world⟩ ∧
        ρ'.Holds fin (c.guard L .inPlace σ).2 := by
  obtain ⟨ρ', ⟨m, hm⟩, hρ', _⟩ := hc hk hρ
  exact ⟨m, ρ', hm, hρ'⟩

theorem simulated_while (S : Setting L M code fin) {c : Expr} {body : Stmt} {top out : Label}
    (hc : Part.Simulated L M code fin (.guard c out) s cc s')
    (hb : Body.Simulated L M code fin n (some ⟨out, top⟩) (.one body) cb) :
    Body.Simulated L M code fin n loop (.one (.whileLoop c body))
      (.mark .whileLoop :: .defineLabel top :: (cc ++ (cb ++ [.jump top, .defineLabel out]))) := by
  intro k ρ σ hk hρ
  simp only [List.cons_append, List.append_assoc, List.nil_append] at hk ⊢
  have htop := (List.suffix_cons _ _).trans hk
  have hkc := (List.suffix_cons _ _).trans htop
  have hkb := (List.suffix_append cc _).trans hkc
  have hout := (List.suffix_cons _ _).trans ((List.suffix_append cb _).trans hkb)
  have hseek := Code.seek_of_suffix S.nodup htop rfl
  refine .of_reaches (.mark _ _ ρ _) ?_
  rw [Body.exec, Stmt.exec]
  refine reached_loop S.nodup hout (fun ρ σ hρ => run_guard hc hkc hρ)
    (fun ρ σ hρ => hb hkb hρ) ?_ hρ
  rintro ρ σ rest hρ (rfl | rfl)
  · refine ⟨ρ, ?_, hρ⟩
    have hjump : M.Reaches code ⟨.jump top :: .defineLabel out :: k, ρ, σ.world⟩
        ⟨code.seek top, ρ, σ.world⟩ :=
      .jump rfl _
    rwa [hseek] at hjump
  · rw [hseek]
    exact ⟨ρ, .refl _, hρ⟩

theorem simulated_for (S : Setting L M code fin) {start : Stmt} {c : Expr} {post body : Stmt}
    {top next out : Label} {ci : Code} (hi : Body.Simulated L M code fin n loop (.one start) ci)
    (hc : Part.Simulated L M code fin (.guard c out) s cc s')
    (hb : Body.Simulated L M code fin n (some ⟨out, next⟩) (.one body) cb)
    (hp : Body.Simulated L M code fin n loop (.one post) cp) :
    Body.Simulated L M code fin n loop (.one (.forLoop start c post body))
      (.mark .forLoop :: (ci ++ .defineLabel top :: (cc ++ (cb ++ .defineLabel next ::
        (cp ++ [.jump top, .defineLabel out]))))) := by
  intro k ρ σ hk hρ
  simp only [List.cons_append, List.append_assoc, List.nil_append] at hk ⊢
  have hki := (List.suffix_cons _ _).trans hk
  have htop := (List.suffix_append ci _).trans hki
  have hkc := (List.suffix_cons _ _).trans htop
  have hkb := (List.suffix_append cc _).trans hkc
  have hnext := (List.suffix_append cb _).trans hkb
  have hkp := (List.suffix_cons _ _).trans hnext
  have hout := (List.suffix_cons _ _).trans ((List.suffix_append cp _).trans hkp)
  have hseek := Code.seek_of_suffix S.nodup htop rfl
  refine .of_reaches (.mark _ _ ρ _) ?_
  rw [Body.exec, Stmt.exec]
  refine (hi hki hρ).andThen fun ρ₁ hρ₁ => ?_
  refine reached_loop S.nodup hout (fun ρ σ hρ => run_guard hc hkc hρ)
    (fun ρ σ hρ => hb hkb hρ) ?_ hρ₁
  intro ρ σ rest hρ hrest
  have hpost : rest = .defineLabel next :: (cp ++ .jump top :: .defineLabel out :: k) := by
    rcases hrest with rfl | rfl
    · rfl
    · exact Code.seek_of_suffix S.nodup hnext rfl
  rw [hpost]
  refine .of_reaches (.defineLabel next _ ρ _) ((hp hkp hρ).onward fun ρ w => ?_)
  have hjump : M.Reaches code ⟨.jump top :: .defineLabel out :: k, ρ, w⟩ ⟨code.seek top, ρ, w⟩ :=
    .jump rfl _
  rwa [hseek] at hjump

theorem simulated_ret (hhole : x.isHole = false)
    (hx : Part.Simulated L M code fin (.operand x vx) s cx s') :
    Body.Simulated L M code fin n loop (.one (.ret x))
      (.mark .ret :: (cx ++ [.make .ret [vx]])) := by
  intro k ρ σ hk hρ
  simp only [List.cons_append, List.append_assoc, List.nil_append] at hk ⊢
  obtain ⟨ρ₁, hreach, hρ₁, _, hvx⟩ := hx ((List.suffix_cons _ _).trans hk) hρ
  have hb : M.value ρ₁ (some vx) = (x.eval L .inPlace σ).1 := by rw [hvx.now hρ₁, Expr.held_eval]
  have hret : M.run code 1 (.running ⟨.make .ret [vx] :: k, ρ₁, (x.eval L .inPlace σ).2.world⟩) =
      .halted (.returned (some (x.eval L .inPlace σ).1)) (x.eval L .inPlace σ).2.world := by
    rw [← hb]
    rfl
  rw [Body.exec, Stmt.exec]
  simp only [hhole, Bool.false_eq_true, if_false]
  exact .of_reaches ((Machine.Reaches.mark _ _ ρ _).trans hreach) ⟨1, hret⟩

theorem simulated_cons {x : Stmt} {xs : List Stmt}
    (hx : Body.Simulated L M code fin n loop (.one x) ca)
    (hxs : Body.Simulated L M code fin n loop (.list xs) cb) :
    Body.Simulated L M code fin n loop (.list (x :: xs)) (ca ++ cb) := by
  intro k ρ σ hk hρ
  rw [List.append_assoc] at hk ⊢
  rw [Body.exec, Stmt.execList]
  exact (hx hk hρ).andThen fun ρ₁ hρ₁ => hxs ((List.suffix_append ca _).trans hk) hρ₁

end Rules

theorem LowersBody.simulates (S : Setting L M code fin) (n : Nat) {loop : Option Loop} {b : Body}
    {s s' : Frame} {c : Code} (h : LowersBody loop b s c s') (hs : s'.Grows fin) :
    Body.Simulated L M code fin n loop b c := by
  induction h with
  | hole | nil => exact fun _ ρ _ _ hρ => ⟨ρ, .refl _, hρ⟩
  | block _ ih =>
    intro k ρ σ hk hρ
    exact (ih hs ((List.suffix_cons _ _).trans hk) hρ).of_reaches (.mark _ _ ρ _)
  | expr hx =>
    intro k ρ σ hk hρ
    have hvalue := (hx.simulates S hs) ((List.suffix_cons _ _).trans hk) hρ fun r hr => by cases hr
    exact hvalue.gets.of_reaches (.mark _ _ ρ _)
  | store ha hx =>
    exact simulated_store ha.grows (ha.simulates S (hx.grows.trans hs)) (hx.simulates S hs)
  | branch hc hfin ha iha =>
    exact simulated_branch S
      (hc.simulates S ((newLabel_grows hfin).trans (ha.grows.trans hs))) (iha hs)
  | branchElse _ hc hfin hother ha hb iha ihb =>
    have hs₄ := hb.grows.trans hs
    have hlabels := (newLabel_grows hfin).trans (newLabel_grows hother)
    exact simulated_branchElse S (hc.simulates S (hlabels.trans (ha.grows.trans hs₄)))
      (iha hs₄) (ihb hs)
  | whileLoop _ _ hc hb ihb => exact simulated_while S (hc.simulates S (hb.grows.trans hs)) (ihb hs)
  | forLoop hi htop hnext hfin hc hb hp ihi ihb ihp =>
    have hs₆ := hp.grows.trans hs
    have hs₅ := hb.grows.trans hs₆
    have hlabels := ((newLabel_grows htop).trans (newLabel_grows hnext)).trans (newLabel_grows hfin)
    exact simulated_for S (ihi (hlabels.trans (hc.grows.trans hs₅))) (hc.simulates S hs₅)
      (ihb hs₆) (ihp hs)
  | @breakLoop l _ =>
    intro k ρ σ _ hρ
    have hjump : M.Reaches code ⟨.jump l.onBreak :: k, ρ, σ.world⟩
        ⟨code.seek l.onBreak, ρ, σ.world⟩ := .jump rfl k
    exact ⟨l, rfl, ρ, (Machine.Reaches.mark _ _ ρ _).trans hjump, hρ⟩
  | @continueLoop l _ =>
    intro k ρ σ _ hρ
    have hjump : M.Reaches code ⟨.jump l.onContinue :: k, ρ, σ.world⟩
        ⟨code.seek l.onContinue, ρ, σ.world⟩ := .jump rfl k
    exact ⟨l, rfl, ρ, (Machine.Reaches.mark _ _ ρ _).trans hjump, hρ⟩
  | retNone => exact fun _ _ _ _ _ => ⟨2, rfl⟩
  | ret hhole hx => exact simulated_ret hhole (hx.simulates S hs)
  | cons _ hxs ihx ihxs => exact simulated_cons (ihx (hxs.grows.trans hs)) (ihxs hs)

end Simulation

end ThreeAddress
