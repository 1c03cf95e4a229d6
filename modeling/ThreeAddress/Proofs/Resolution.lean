import ThreeAddress.Proofs.Passes

/-!
# Ways to find a label

There are four of them: validation marks the labels it has met in a bitmap, the table of positions
refuses what is defined twice, a search takes the first place that fits, and threading looks its
targets up as it goes. As long as no label is negative they agree on which labels there are, where
they are, and which code has a label too many or too few (`Func.resolution_agrees`).
-/

namespace ThreeAddress
set_option autoImplicit false

namespace Fault

/-- The step has an answer, be it an error. -/
def Free {α : Type} (x : ExceptT Error (Except Fault) α) : Prop := ∃ r, x.run = .ok r

variable {α β : Type} {x : ExceptT Error (Except Fault) α}

theorem free_pure (a : α) : Free (pure a) := ⟨.ok a, rfl⟩

theorem free_throw (e : Error) : Free (throw e : ExceptT Error (Except Fault) α) := ⟨.error e, rfl⟩

theorem free_lift {x : Except Fault α} {a : α} (h : x = .ok a) :
    Free (monadLift x : ExceptT Error (Except Fault) α) :=
  ⟨.ok a, exceptT_lift_eq_ok_iff.mpr h⟩

theorem Free.bind {f : α → ExceptT Error (Except Fault) β} (hx : Free x) (hf : ∀ a, Free (f a)) :
    Free (x >>= f) := by
  obtain ⟨r, hr⟩ := hx
  cases r with
  | error e => exact ⟨.error e, by rw [ExceptT.run_bind, hr]; rfl⟩
  | ok a =>
    obtain ⟨q, hq⟩ := hf a
    exact ⟨q, by rw [ExceptT.run_bind, hr]; exact hq⟩

theorem Free.exists_error_iff (hx : Free x) :
    (∃ e, x.run = .ok (.error e)) ↔ ¬ ∃ a, x.run = .ok (.ok a) := by
  obtain ⟨r, hr⟩ := hx
  rw [hr]
  cases r with
  | error e => simp
  | ok a => simp

end Fault

theorem Bitmap.exists_contains (s : Bitmap) {p : Int} (hp : 0 ≤ p) : ∃ b, s.contains p = .ok b := by
  obtain ⟨n, rfl⟩ := Int.eq_ofNat_of_zero_le hp
  exact ⟨_, s.contains_natCast n⟩

theorem Bitmap.exists_insert (s : Bitmap) {p : Int} (hp : 0 ≤ p) : ∃ t, s.insert p = .ok t := by
  obtain ⟨n, rfl⟩ := Int.eq_ofNat_of_zero_le hp
  obtain ⟨t, ht, _⟩ := s.exists_insert_natCast n
  exact ⟨t, ht⟩

theorem Instr.label?_of_target? {x : Instr} {l : Label} (h : x.target? = some l) :
    ∃ a ∈ x.args, a.bind Operand.label? = some l := by
  rw [target?] at h
  split at h
  · obtain ⟨a, ha, hl⟩ := Option.bind_eq_some_iff.mp h
    rw [operand?, Option.join_eq_some_iff] at ha
    exact ⟨some a, List.mem_of_getElem? ha, hl⟩
  · cases h

namespace Code

/-- No operand is a negative label. -/
def NonnegLabels (code : Code) : Prop :=
  ∀ x ∈ code, ∀ a ∈ x.args, ∀ l ∈ a.bind Operand.label?, 0 ≤ l.handle

instance (code : Code) : Decidable code.NonnegLabels := inferInstanceAs (Decidable (∀ x ∈ code, _))

variable {code : Code} {seen table : Positions} {i : Nat} {l : Label}

theorem NonnegLabels.of_target? (h : NonnegLabels code) {x : Instr} (hx : x ∈ code)
    (hl : x.target? = some l) :
    0 ≤ l.handle := by
  obtain ⟨a, ha, hal⟩ := Instr.label?_of_target? hl
  exact h x hx a ha l hal

theorem NonnegLabels.target (h : NonnegLabels code) {x : Instr} (hx : x ∈ code) :
    0 ≤ (x.target?.getD ⟨0⟩).handle := by
  cases ht : x.target? with
  | none => exact Int.le_refl 0
  | some l => exact h.of_target? hx ht

theorem NonnegLabels.onward? (h : NonnegLabels code) {p : Nat} (hl : code.onward? p = some l) :
    0 ≤ l.handle := by
  rw [Code.onward?] at hl
  split at hl
  · rename_i x hx
    split at hl
    · exact h.of_target? (List.mem_of_getElem? hx) hl
    · cases hl
  · cases hl

theorem NonnegLabels.labels (h : NonnegLabels code) : ∀ l ∈ labels code, 0 ≤ l.handle := by
  intro l hl
  obtain ⟨x, hx, hlabel⟩ := List.mem_filterMap.mp hl
  rw [Instr.label?, if_pos (Instr.op_eq_of_label? hlabel)] at hlabel
  exact h.of_target? hx hlabel

/-! ## The table and the search -/

theorem positionsFrom_eq_ok (h : positionsFrom seen i code = .ok table) :
    table = seen ++ labelsAt i code ∧ (labels code).Nodup ∧
      ∀ l ∈ labels code, seen.lookup l = none := by
  induction code generalizing seen i with
  | nil =>
    cases h
    exact ⟨(List.append_nil _).symm, List.nodup_nil, List.forall_mem_nil _⟩
  | cons x rest ih =>
    rw [positionsFrom] at h
    rw [labelsAt, labels_cons]
    by_cases hop : x.op = .label
    · rw [if_pos hop] at h
      cases ht : x.target? with
      | none =>
        rw [ht] at h
        cases h
      | some l =>
        cases hl : seen.lookup l with
        | some j =>
          simp only [ht, hl] at h
          cases h
        | none =>
          simp only [ht, hl] at h
          have hx : x.label? = some l := by rw [Instr.label?, if_pos hop, ht]
          obtain ⟨htable, hnodup, hnew⟩ := ih h
          have hfresh : ∀ m ∈ labels rest, seen.lookup m = none ∧ m ≠ l := by
            intro m hm
            have hnone := hnew m hm
            rw [List.lookup_append, Option.or_eq_none_iff] at hnone
            refine ⟨hnone.1, fun heq => ?_⟩
            rw [heq, List.lookup_cons_self] at hnone
            cases hnone.2
          rw [hx, Option.toList_some, List.singleton_append]
          refine ⟨by rw [htable, List.append_assoc]; rfl,
            List.nodup_cons.mpr ⟨fun hmem => (hfresh l hmem).2 rfl, hnodup⟩, ?_⟩
          exact List.forall_mem_cons.mpr ⟨hl, fun m hm => (hfresh m hm).1⟩
    · rw [if_neg hop] at h
      rw [Instr.label?_eq_none hop]
      exact ih h

/-- The table has the first place of each label, as the search does. -/
theorem lookup_labelsAt_eq (i : Nat) (code : Code) (l : Label) :
    (labelsAt i code).lookup l = (find? code l).map (i + ·) := by
  induction code generalizing i with
  | nil => rfl
  | cons x rest ih =>
    rw [lookup_labelsAt_cons, find?_cons, ih]
    by_cases hx : x.label? = some l
    · rw [if_pos hx, if_pos hx]
      rfl
    · rw [if_neg hx, if_neg hx, Option.map_map]
      congr 1
      funext p
      simp only [Function.comp_apply]
      omega

theorem positions_eq_ok (h : positions code = .ok table) :
    table = labelsAt 0 code ∧ (labels code).Nodup := by
  obtain ⟨htable, hnodup, _⟩ := positionsFrom_eq_ok h
  exact ⟨htable, hnodup⟩

theorem lookup_positions (h : positions code = .ok table) (l : Label) :
    table.lookup l = find? code l := by
  rw [(positions_eq_ok h).1, lookup_labelsAt_eq]
  simp

/-! ## Code that is not valid -/

theorem free_definedFrom (h : NonnegLabels code) (seen : Bitmap) (i : Nat) :
    Fault.Free (definedFrom seen i code) := by
  induction code generalizing seen i with
  | nil => exact Fault.free_pure seen
  | cons x rest ih =>
    have hrest : NonnegLabels rest := fun y hy => h y (List.mem_cons_of_mem x hy)
    rw [definedFrom]
    cases x.flaw? with
    | some c => exact Fault.free_throw _
    | none =>
      simp only
      split
      · obtain ⟨present, hpresent⟩ := seen.exists_contains (h.target List.mem_cons_self)
        obtain ⟨grown, hgrown⟩ := seen.exists_insert (h.target List.mem_cons_self)
        refine (Fault.free_lift hpresent).bind fun b => ?_
        cases b with
        | true => exact Fault.free_throw _
        | false => exact (Fault.free_lift hgrown).bind fun t => ih hrest t (i + 1)
      · exact ih hrest seen (i + 1)

theorem free_resolvedFrom (h : NonnegLabels code) (defined : Bitmap) (i : Nat) :
    Fault.Free (resolvedFrom defined i code) := by
  induction code generalizing i with
  | nil => exact Fault.free_pure ()
  | cons x rest ih =>
    have hrest : NonnegLabels rest := fun y hy => h y (List.mem_cons_of_mem x hy)
    rw [resolvedFrom]
    split
    · obtain ⟨present, hpresent⟩ := defined.exists_contains (h.target List.mem_cons_self)
      refine (Fault.free_lift hpresent).bind fun b => ?_
      cases b with
      | false => exact Fault.free_throw _
      | true => exact ih hrest (i + 1)
    · exact ih hrest (i + 1)

theorem exists_follow (h : NonnegLabels code) (start : Label) (table : Positions) (seen : Bitmap)
    (here : Label) :
    ∃ m, code.follow start table seen here = .ok m := by
  fun_induction follow code start table seen here with
  | case1 table seen here hnone => exact ⟨here, rfl⟩
  | case2 table seen here p hp hnone => exact ⟨here, rfl⟩
  | case3 table seen here p hp l hl ih =>
    obtain ⟨n, hn⟩ := Int.eq_ofNat_of_zero_le (h.onward? hl)
    rw [hn]
    by_cases hseen : n ∈ seen
    · rw [Bitmap.insertNew_of_mem hseen]
      exact ⟨start, rfl⟩
    · obtain ⟨grown, hinsert, _⟩ := Bitmap.exists_insertNew hseen
      rw [hinsert]
      exact ih grown

theorem exists_landing (h : NonnegLabels code) (table : Positions) (hl : 0 ≤ l.handle) :
    ∃ m, code.landing table l = .ok m := by
  obtain ⟨seen, hseen⟩ := (Bitmap.ofCapacity table.length).exists_insert hl
  rw [landing, hseen]
  exact exists_follow h l table seen l

theorem free_threadJumpsFrom (h : NonnegLabels code) (hwf : ∀ x ∈ code, x.WellFormed)
    (table : Positions) (i : Nat) {rest : Code} (hrest : rest ⊆ code) :
    Fault.Free (threadJumpsFrom code table i rest) := by
  induction rest generalizing i with
  | nil => exact Fault.free_pure _
  | cons x rest ih =>
    obtain ⟨hx, hrest⟩ := List.cons_subset.mp hrest
    have hmore := ih (i + 1) hrest
    rw [threadJumpsFrom]
    split
    · rename_i hop
      simp only
      cases table.lookup (x.target?.getD ⟨0⟩) with
      | none => exact Fault.free_throw _
      | some p =>
        simp only
        split
        · exact hmore.bind fun _ => Fault.free_pure _
        · obtain ⟨m, hm⟩ := exists_landing h table (h.target hx)
          refine (Fault.free_lift hm).bind fun last => ?_
          split
          · exact hmore.bind fun _ => Fault.free_pure _
          · obtain ⟨l, more, hargs, _⟩ := (hwf x hx).exists_target (.inl hop)
            have hset : x.setPlace 0 (some (.label last)) =
                .ok { x with args := x.args.set 0 (some (.label last)) } := by
              rw [Instr.setPlace, if_pos (by rw [hargs]; exact Nat.succ_pos _)]
            exact (Fault.free_lift hset).bind fun _ => hmore.bind fun _ => Fault.free_pure _
    · exact hmore.bind fun _ => Fault.free_pure _

theorem free_threadJumps (h : NonnegLabels code) (hwf : ∀ x ∈ code, x.WellFormed) :
    Fault.Free code.threadJumps := by
  rw [threadJumps]
  cases code.positions with
  | error e => exact Fault.free_throw e
  | ok table => exact free_threadJumpsFrom h hwf table 0 (List.Subset.refl code)

theorem exists_lookup_of_threadJumpsFrom {rest : Code} {r : Simplified}
    (hwf : ∀ x ∈ rest, x.WellFormed) (h : (threadJumpsFrom code table i rest).run = .ok (.ok r)) :
    ∀ l ∈ targets rest, ∃ p, table.lookup l = some p := by
  induction rest generalizing i r with
  | nil => exact List.forall_mem_nil _
  | cons x rest ih =>
    obtain ⟨hx, hrest⟩ := List.forall_mem_cons.mp hwf
    suffices hstep : (∀ l ∈ x.goal?, ∃ p, table.lookup l = some p) ∧
        ∃ q, (threadJumpsFrom code table (i + 1) rest).run = .ok (.ok q) by
      obtain ⟨hgoal, q, hq⟩ := hstep
      intro l hl
      rw [targets_cons] at hl
      rcases List.mem_append.mp hl with hl | hl
      · exact hgoal l (Option.mem_toList.mp hl)
      · exact ih hrest hq l hl
    rw [threadJumpsFrom] at h
    split at h
    · rename_i hop
      obtain ⟨l, _, _, htarget⟩ := hx.exists_target (.inl hop)
      have hgoal : x.goal? = some l := by rw [Instr.goal?, if_pos hop, htarget]
      simp only [htarget, Option.getD_some] at h
      cases hp : table.lookup l with
      | none =>
        rw [hp] at h
        cases h
      | some p =>
        rw [hp] at h
        refine ⟨fun m hm => ?_, ?_⟩
        · rw [hgoal] at hm
          cases hm
          exact ⟨p, hp⟩
        simp only at h
        split at h
        · obtain ⟨q, hq, _⟩ := Fault.exceptT_bind_eq_ok_iff.mp h
          exact ⟨q, hq⟩
        · obtain ⟨last, _, h⟩ := Fault.exceptT_bind_eq_ok_iff.mp h
          split at h
          · obtain ⟨q, hq, _⟩ := Fault.exceptT_bind_eq_ok_iff.mp h
            exact ⟨q, hq⟩
          · obtain ⟨_, _, h⟩ := Fault.exceptT_bind_eq_ok_iff.mp h
            obtain ⟨q, hq, _⟩ := Fault.exceptT_bind_eq_ok_iff.mp h
            exact ⟨q, hq⟩
    · rename_i hop
      obtain ⟨q, hq, _⟩ := Fault.exceptT_bind_eq_ok_iff.mp h
      refine ⟨fun l hl => ?_, q, hq⟩
      rw [Instr.goal?, if_neg hop] at hl
      cases hl

/-- Threading goes well on valid code only. -/
theorem valid_of_threadJumps {r : Simplified} (h : NonnegLabels code)
    (hwf : ∀ x ∈ code, x.WellFormed) (hr : code.threadJumps.run = .ok (.ok r)) : Valid code := by
  rw [threadJumps] at hr
  cases hpos : code.positions with
  | error e =>
    rw [hpos] at hr
    cases hr
  | ok table =>
    rw [hpos] at hr
    refine ⟨hwf, (positions_eq_ok hpos).2, h.labels, fun l hl => ?_⟩
    obtain ⟨p, hp⟩ := exists_lookup_of_threadJumpsFrom hwf hr l hl
    rw [lookup_positions hpos] at hp
    exact find?_isSome_iff.mp (Option.isSome_of_eq_some hp)

/-- Valid code, said of the table and the search. -/
theorem valid_iff (h : NonnegLabels code) : Valid code ↔ (∀ x ∈ code, x.WellFormed) ∧
    (∃ table, code.positions = .ok table) ∧ ∀ l ∈ targets code, (code.find? l).isSome := by
  constructor
  · intro hv
    exact ⟨hv.wellFormed, ⟨_, hv.positions_eq⟩, fun l hl => find?_isSome_iff.mpr (hv.resolved l hl)⟩
  · intro hall
    obtain ⟨hwf, ⟨table, htable⟩, hfound⟩ := hall
    exact ⟨hwf, (positions_eq_ok htable).2, h.labels, fun l hl => find?_isSome_iff.mp (hfound l hl)⟩

end Code

namespace Func
variable {f : Func} {l : Label}

theorem find_eq_ok_iff {i : Nat} : f.find l = .ok i ↔ f.code.find? l = some i := by
  rw [find]
  cases f.code.find? l with
  | none => simp
  | some j => simp

theorem find_eq_error_iff :
    (∃ e, f.find l = .error e ∧ e.cause = .unresolvedLabel) ↔ f.code.find? l = none := by
  rw [find]
  cases f.code.find? l with
  | none => exact ⟨fun _ => rfl, fun _ => ⟨_, rfl, rfl⟩⟩
  | some j => simp

theorem free_validate (h : f.code.NonnegLabels) : Fault.Free f.validate :=
  (Code.free_definedFrom h _ 0).bind fun defined => Code.free_resolvedFrom h defined 0

theorem verified_iff_found (h : f.code.NonnegLabels) :
    f.Verified ↔ (∀ x ∈ f.code, x.check = .ok ()) ∧
      (∃ table, f.positions = .ok table) ∧
        ∀ x ∈ f.code, x.op.isBranch = true → ∀ l, x.target? = some l → ∃ i, f.find l = .ok i := by
  rw [verified_iff, Code.valid_iff h]
  simp only [Instr.check_eq_ok_iff, find_eq_ok_iff, Code.targets, List.mem_filterMap,
    Option.isSome_iff_exists]
  refine and_congr_right fun _ => and_congr_right fun _ =>
    ⟨fun hfound x hx hop l hl => ?_, fun hfound l hl => ?_⟩
  · exact hfound l ⟨x, hx, by rw [Instr.goal?, if_pos hop, hl]⟩
  · obtain ⟨x, hx, hgoal⟩ := hl
    obtain ⟨hop, _⟩ := Instr.goal?_eq_some_iff.mp hgoal
    rw [Instr.goal?, if_pos hop] at hgoal
    exact hfound x hx hop l hgoal

theorem threadJumps_error_iff (h : f.code.NonnegLabels) (hwf : ∀ x ∈ f.code, x.WellFormed) :
    ∃ r g s, f.validate.run = .ok r ∧ Pass.threadJumps.run f = .ok (g, s) ∧
      ((∃ e, s = .error e) ↔ ∃ e, r = .error e) ∧ ((∃ e, s = .error e) → g = f) := by
  by_cases hv : Code.Valid f.code
  · obtain ⟨changed, hrun, _⟩ := Code.threadJumps_eq hv
    exact ⟨.ok (), _, .ok changed, validate_eq_ok_iff.mpr hv,
      Pass.run_ofStep hrun, by simp, by simp⟩
  · obtain ⟨e, he⟩ :=
      (free_validate h).exists_error_iff.mpr fun hok => hv (validate_eq_ok_iff.mp hok.choose_spec)
    obtain ⟨e', he'⟩ := (Code.free_threadJumps h hwf).exists_error_iff.mpr fun hok =>
      hv (Code.valid_of_threadJumps h hwf hok.choose_spec)
    exact ⟨.error e, f, .error e', he, Pass.run_ofStep_error he', by simp, fun _ => rfl⟩

/-- If no label is negative then validation, the table of positions, the search for a label and the
threading of jumps agree. Validation accepts well-formed instructions for which there is a table and
every target is found. The search finds what is in the table, where the table has it, and what it
does not find it calls unresolved. And on well-formed instructions threading answers with an error
exactly if validation does, and then leaves the function as it was. -/
theorem resolution_agrees {f : Func} (h : f.code.NonnegLabels) :
    (f.Verified ↔ (∀ x ∈ f.code, x.check = .ok ()) ∧ (∃ table, f.positions = .ok table) ∧
      ∀ x ∈ f.code, x.op.isBranch = true → ∀ l, x.target? = some l → ∃ i, f.find l = .ok i) ∧
    (∀ table, f.positions = .ok table → ∀ l, (∀ i, f.find l = .ok i ↔ table.lookup l = some i) ∧
      ((∃ e, f.find l = .error e ∧ e.cause = .unresolvedLabel) ↔ table.lookup l = none)) ∧
    ((∀ x ∈ f.code, x.check = .ok ()) →
      ∃ r g s, f.validate.run = .ok r ∧ Pass.threadJumps.run f = .ok (g, s) ∧
        ((∃ e, s = .error e) ↔ ∃ e, r = .error e) ∧ ((∃ e, s = .error e) → g = f)) := by
  refine ⟨verified_iff_found h, fun table htable l => ?_, fun hchecked => ?_⟩
  · rw [Code.lookup_positions htable]
    exact ⟨fun i => find_eq_ok_iff, find_eq_error_iff⟩
  · exact threadJumps_error_iff h fun x hx => Instr.check_eq_ok_iff.mp (hchecked x hx)

/-- Labels far beyond the length of the code, one that leads in a circle, and a branch to one that
is not there. -/
def dangling : Func :=
  let x : Reg := ⟨0, .i32, false, "x"⟩
  ⟨"dangling", .i32, [⟨.i32, "x"⟩], [.make .br [.label ⟨7000⟩], .defineLabel ⟨3⟩,
      .make .br [.label ⟨7000⟩], .defineLabel ⟨7000⟩, .make .br [.label ⟨3⟩],
      .make .bnz [.label ⟨64⟩, .reg x], .make .ret [.reg x]]⟩

theorem resolution_agrees_dangling :
    dangling.code.NonnegLabels ∧ (∀ x ∈ dangling.code, x.check = .ok ()) ∧
      dangling.positions = .ok [(⟨3⟩, 1), (⟨7000⟩, 3)] ∧
      (∀ i, dangling.find ⟨7000⟩ = .ok i ↔ i = 3) ∧ ¬ dangling.Verified ∧
      ∃ r g s, dangling.validate.run = .ok r ∧ Pass.threadJumps.run dangling = .ok (g, s) ∧
        ((∃ e, s = .error e) ↔ ∃ e, r = .error e) ∧ ((∃ e, s = .error e) → g = dangling) := by
  have hnonneg : dangling.code.NonnegLabels := by decide
  have hchecked : ∀ x ∈ dangling.code, x.check = .ok () := by decide
  have htable : dangling.positions = .ok [(⟨3⟩, 1), (⟨7000⟩, 3)] := by decide
  obtain ⟨hverified, hfind, hthreads⟩ := resolution_agrees hnonneg
  refine ⟨hnonneg, hchecked, htable, fun i => ?_, fun h => ?_, hthreads hchecked⟩
  · rw [(hfind _ htable ⟨7000⟩).1 i]
    exact ⟨fun h => (Option.some.inj h).symm, fun h => congrArg some h.symm⟩
  · obtain ⟨i, hi⟩ := (hverified.mp h).2.2 _
      (.tail _ (.tail _ (.tail _ (.tail _ (.tail _ (.head _)))))) rfl ⟨64⟩ rfl
    cases hi

end Func

end ThreeAddress
