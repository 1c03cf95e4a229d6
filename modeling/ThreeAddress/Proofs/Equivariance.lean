import ThreeAddress.Proofs.Renaming
import ThreeAddress.Proofs.Rounds

/-!
# The standard pipeline under renaming

A round of the standard pipeline numbers the temporaries anew, so that it does not matter how they
were numbered before, and treats labels and named registers as it finds them
(`Code.rounded_rename`). So a function that differs from another by a renaming is made into one that
differs by it from what the other is made into, and has the same temporaries
(`Pipeline.runFunc_rename`).
-/

namespace ThreeAddress
set_option autoImplicit false

section
variable (ρ : Renaming)

theorem Operand.renumber_rename (order : List Int) (a : Operand) :
    (a.rename ρ).renumber (order.map ρ.temp) = (a.renumber order).rename ρ.onlyNames := by
  have hidx (i : Int) : (order.map ρ.temp).idxOf (ρ.temp i) = order.idxOf i := by
    unfold List.idxOf
    rw [List.findIdx_map]
    simp [Function.comp_def, ρ.temp_injective.beq_eq]
  cases a with
  | reg r =>
    obtain ⟨index, width, temp, name⟩ := r
    cases temp with
    | false => rfl
    | true =>
      change Operand.reg ⟨(order.map ρ.temp).idxOf (ρ.temp index), width, true, name⟩ =
        .reg ⟨order.idxOf index, width, true, name⟩
      rw [hidx]
  | _ => rfl

theorem Instr.renumber_rename (order : List Int) (x : Instr) :
    (x.rename ρ).renumber (order.map ρ.temp) = (x.renumber order).rename ρ.onlyNames := by
  rw [renumber_eq, renumber_eq]
  unfold rename
  rw [List.map_map, List.map_map]
  congr 2
  funext a
  cases a with
  | none => rfl
  | some a => exact congrArg some (Operand.renumber_rename ρ order a)

namespace Code
variable (code : Code)

theorem temps_rename : temps (rename ρ code) = code.temps.map ρ.temp := by
  have hindices : (rename ρ code).tempIndices = code.tempIndices.map ρ.temp := by
    rw [tempIndices, tempIndices, regKeys_rename, List.filterMap_map, List.map_filterMap]
    congr 1
    funext k
    obtain ⟨temp, i⟩ := k
    cases temp <;> rfl
  rw [temps, hindices, eraseDups_map fun i _ j _ h => ρ.temp_injective h, temps]

/-- How the temporaries were numbered is forgotten. -/
theorem renumberTemps_rename :
    (renumberTemps (rename ρ code)).code = rename ρ.onlyNames (renumberTemps code).code := by
  rw [code_renumberTemps, code_renumberTemps, temps_rename]
  unfold rename
  rw [List.map_map, List.map_map]
  exact congrArg (List.map · code) (funext (Instr.renumber_rename ρ code.temps))

theorem seek_rename (l : Label) : seek (ρ.label l) (rename ρ code) = rename ρ (seek l code) := by
  induction code with
  | nil => rfl
  | cons x rest ih =>
    have hiff : x.label?.map ρ.label = some (ρ.label l) ↔ x.label? = some l := by
      rw [Option.map_eq_some_iff]
      constructor
      · intro h
        obtain ⟨m, hm, heq⟩ := h
        rw [hm, ρ.label_injective heq]
      · intro h
        exact ⟨l, h, rfl⟩
    rw [rename_cons, seek_cons, seek_cons, Instr.label?_rename, ih]
    simp only [hiff]
    split <;> rfl

theorem next?_rename (l : Label) :
    next? (rename ρ code) (ρ.label l) = (next? code l).map ρ.label := by
  rw [next?, next?, seek_rename]
  rcases code.seek l with _ | ⟨x, _ | ⟨y, rest⟩⟩
  · rfl
  · rfl
  · rw [rename_cons, rename_cons, ahead?_cons_cons, ahead?_cons_cons, Instr.op_rename,
        Instr.target?_rename]
    split <;> rfl

variable {code} {l m : Label}

theorem Leads.rename (h : code.Leads l m) : Leads (rename ρ code) (ρ.label l) (ρ.label m) := by
  induction h with
  | refl => exact .refl
  | tail _ hstep ih =>
    apply ih.tail
    rw [next?_rename, hstep]
    rfl

theorem Leads.of_rename {n : Label} (h : Leads (Code.rename ρ code) (ρ.label l) n) :
    ∃ m, n = ρ.label m ∧ code.Leads l m := by
  induction h with
  | refl => exact ⟨l, rfl, .refl⟩
  | tail _ hstep ih =>
    obtain ⟨m, rfl, hm⟩ := ih
    rw [next?_rename] at hstep
    obtain ⟨k, hk, rfl⟩ := Option.map_eq_some_iff.mp hstep
    exact ⟨k, rfl, hm.tail hk⟩

theorem Lands.rename (h : code.Lands l m) : Lands (Code.rename ρ code) (ρ.label l) (ρ.label m) := by
  rcases h with ⟨hleads, hend⟩ | ⟨rfl, hnever⟩
  · refine .inl ⟨hleads.rename ρ, ?_⟩
    rw [next?_rename, hend]
    rfl
  · refine .inr ⟨rfl, ?_⟩
    intro hends
    obtain ⟨n, hn, hend⟩ := hends
    obtain ⟨k, rfl, hk⟩ := hn.of_rename ρ
    rw [next?_rename, Option.map_eq_none_iff] at hend
    exact hnever ⟨k, hk, hend⟩

theorem land_rename (hv : Valid code) (hl : l ∈ labels code) :
    land (Code.rename ρ code) (ρ.label l) = ρ.label (code.land l) := by
  have hl' : ρ.label l ∈ labels (Code.rename ρ code) := by
    rw [labels_rename]
    exact List.mem_map_of_mem hl
  exact (landing_eq (hv.rename ρ) hl').2.unique ((landing_eq hv hl).2.rename ρ)

theorem skips_rename (x : Instr) (rest : Code) :
    (x.rename ρ).skips (Code.rename ρ rest) = x.skips rest := by
  cases rest with
  | nil => rfl
  | cons y rest =>
    have hiff : y.label?.map ρ.label = x.goal?.map ρ.label ↔ y.label? = x.goal? :=
      (Option.map_injective ρ.label_injective).eq_iff
    rw [rename_cons, Instr.skips, Instr.skips, Instr.op_rename, Instr.goal?_rename,
      Instr.label?_rename, Option.isSome_map]
    simp only [hiff]

theorem retarget_rename {land land' : Label → Label} {x : Instr}
    (hland : ∀ l, x.goal? = some l → land' (ρ.label l) = ρ.label (land l)) :
    (x.rename ρ).retarget land' = (x.retarget land).rename ρ := by
  rcases Instr.goal_cases x with hx | ⟨op, l, more, hop, rfl⟩
  · rw [Instr.retarget_of_none hx, Instr.retarget_of_none (by rw [Instr.goal?_rename, hx]; rfl)]
  · have hl := hland l (Instr.goal?_eq_some_iff.mpr ⟨hop, more, rfl⟩)
    have hrenamed (m : Label) : Instr.rename ρ ⟨op, some (.label m) :: more⟩ =
        ⟨op, some (.label (ρ.label m)) :: more.map (Option.map (Operand.rename ρ))⟩ := rfl
    rw [Instr.retarget_of_goal? hop, hrenamed, Instr.retarget_of_goal? hop, hl, hrenamed]

theorem threadBy_rename {land land' : Label → Label} {code : Code}
    (hland : ∀ l ∈ targets code, land' (ρ.label l) = ρ.label (land l)) :
    threadBy land' (Code.rename ρ code) = Code.rename ρ (threadBy land code) := by
  induction code with
  | nil => rfl
  | cons x rest ih =>
    rw [targets_cons] at hland
    have hrest := ih fun l hl => hland l (List.mem_append_right _ hl)
    have hx : (x.rename ρ).retarget land' = (x.retarget land).rename ρ := by
      apply retarget_rename
      intro l hl
      exact hland l (List.mem_append_left _ (by rw [hl]; exact List.mem_cons_self))
    rw [rename_cons, threadBy, threadBy, skips_rename, hrest, hx]
    split <;> rfl

theorem threaded_rename (hv : Valid code) :
    threaded (Code.rename ρ code) = Code.rename ρ code.threaded :=
  threadBy_rename ρ fun l hl => land_rename ρ hv (hv.resolved l hl)

theorem pruneUnreachable_rename (code : Code) :
    pruneUnreachable (Code.rename ρ code) = (pruneUnreachable code).rename ρ := by
  have hfrom (dead : Bool) (code : Code) :
      reachableFrom dead (Code.rename ρ code) = Code.rename ρ (reachableFrom dead code) := by
    induction code generalizing dead with
    | nil => rfl
    | cons x rest ih =>
      rw [rename_cons, reachableFrom, reachableFrom, Instr.op_rename, ih, ih]
      split <;> rfl
  rw [pruneUnreachable, pruneUnreachable, hfrom, ofShorter_rename]

theorem settled_rename (code : Code) :
    settled (Code.rename ρ code) = Code.rename ρ code.settled := by
  rw [settled, settle_rename, settled]
  cases code.settle <;> rfl

/-- A round forgets how the temporaries were numbered, and nothing else. -/
theorem rounded_rename (hv : Valid code) :
    rounded (Code.rename ρ code) = Code.rename ρ.onlyNames code.rounded := by
  have hsettled := settled_valid (renumberTemps_valid hv)
  rw [rounded, renumberTemps_rename, settled_rename, threaded_rename ρ.onlyNames hsettled,
    pruneUnreachable_rename]
  rfl

theorem iterate_rounded_rename (hv : Valid code) (n : Nat) :
    rounded^[n + 1] (Code.rename ρ code) = Code.rename ρ.onlyNames (rounded^[n + 1] code) := by
  induction n generalizing ρ code with
  | zero => exact rounded_rename ρ hv
  | succ n ih =>
    rw [Function.iterate_succ_apply, rounded_rename ρ hv, ih ρ.onlyNames (rounded_valid hv),
      ← Function.iterate_succ_apply]
    rfl

theorem regKeys_onlyNames (code : Code) :
    regKeys (Code.rename ρ.onlyNames code) = regKeys code := by
  have hkey : RegKey.rename ρ.onlyNames = id := by
    funext k
    obtain ⟨temp, i⟩ := k
    cases temp <;> rfl
  rw [regKeys_rename, hkey, List.map_id]

end Code

end

namespace Pipeline

/-- The loop makes as many rounds as the code needs. -/
theorem rounds_eq_iterate {n limit : Nat} (hlimit : n < limit) {f : Func} (hf : Code.Valid f.code)
    (hstable : Code.StableAfter n f.code) :
    standard.rounds limit f = .ok ({ f with code := Code.rounded^[n] f.code }, .ok ()) := by
  obtain ⟨limit, rfl⟩ := Nat.exists_eq_succ_of_ne_zero (Nat.ne_of_gt (Nat.zero_lt_of_lt hlimit))
  induction n generalizing f limit with
  | zero =>
    rw [rounds, round_of_stable hf hstable]
    rfl
  | succ n ih =>
    obtain ⟨changed, hround, hchanged⟩ := round_eq hf
    rw [rounds, hround]
    cases changed with
    | false =>
      have hfixed : f.code.rounded = f.code := hchanged.mp rfl
      rw [Function.iterate_fixed hfixed, hfixed]
      rfl
    | true =>
      obtain ⟨limit, rfl⟩ := Nat.exists_eq_succ_of_ne_zero (n := limit) (by omega)
      exact ih (f := { f with code := f.code.rounded })
        (Code.rounded_valid hf) hstable limit (by omega)

theorem setup_eq {f : Func} (hf : Code.Valid f.code) :
    ∃ r t changed, f.code.dropNops.code.foldTests = .ok r ∧
      r.code.testSources = .ok t ∧ Code.Valid t.code ∧
      Pass.runAll standard.setup f = .ok ({ f with code := t.code }, .ok changed) := by
  have hdropped := f.code.dropNops_trims.valid hf
  obtain ⟨r, hr, hfolds⟩ := Code.foldTests_rewrites hdropped.wellFormed
  have hfolded := hfolds.valid hdropped
  obtain ⟨t, ht, htrims⟩ := Code.testSources_trims hfolded.wellFormed
  exact ⟨r, t, _, hr, ht, htrims.valid hfolded,
    Pass.runAll_cons (g := { f with code := f.code.dropNops.code }) rfl
    (Pass.runAll_cons (Pass.run_ofStep_lift hr) (Pass.runAll_cons (Pass.run_ofStep_lift ht) rfl))⟩

theorem runFunc_eq_iterate {f : Func} (hf : Code.Valid f.code) :
    ∃ r t, f.code.dropNops.code.foldTests = .ok r ∧
      r.code.testSources = .ok t ∧ Code.Valid t.code ∧
      standard.runFunc f = .ok ({ f with code := Code.rounded^[3] t.code }, .ok ()) := by
  obtain ⟨r, t, changed, hr, ht, hvalid, hsetup⟩ := setup_eq hf
  refine ⟨r, t, hr, ht, hvalid, ?_⟩
  rw [runFunc, hsetup]
  exact rounds_eq_iterate (by decide) hvalid (Code.stableAfter_three hvalid)

/-- The standard pipeline depends on labels and registers only as far as it tells them apart. What
it makes of a verified function whose labels, temporaries and names of registers have been exchanged
is what it makes of the function with the same labels and names exchanged; the temporaries are the
same. -/
theorem runFunc_rename (ρ : Renaming) (f f' : Func) (hf : f.Verified)
    (hcode : f'.code = f.code.rename ρ) :
    ∃ g g', standard.runFunc f = .ok (g, .ok ()) ∧ standard.runFunc f' = .ok (g', .ok ()) ∧
      g'.code = g.code.rename ρ.onlyNames ∧ g'.code.regKeys = g.code.regKeys := by
  have hv := Func.verified_iff.mp hf
  have hv' : Code.Valid f'.code := hcode ▸ hv.rename ρ
  obtain ⟨r, t, hr, ht, hvalid, hrun⟩ := runFunc_eq_iterate hv
  obtain ⟨r', t', hr', ht', _, hrun'⟩ := runFunc_eq_iterate hv'
  have hfolded : r' = r.rename ρ := by
    rw [hcode, Code.dropNops_rename] at hr'
    have hsame := Code.foldTests_rename ρ f.code.dropNops.code
    rw [hr] at hsame
    exact Except.ok.inj (hr'.symm.trans hsame)
  have htested : t' = t.rename ρ := by
    rw [hfolded] at ht'
    have hsame := Code.testSources_rename ρ r.code
    rw [ht] at hsame
    exact Except.ok.inj (ht'.symm.trans hsame)
  have hrounds : Code.rounded^[3] t'.code = Code.rename ρ.onlyNames (Code.rounded^[3] t.code) := by
    rw [htested]
    exact Code.iterate_rounded_rename ρ hvalid 2
  refine ⟨_, _, hrun, hrun', hrounds, ?_⟩
  simp only [hrounds, Code.regKeys_onlyNames]

end Pipeline

/-- Turns the order of temporaries round, and spreads the labels out. -/
def Renaming.shuffle : Renaming where
  label l := ⟨if 0 ≤ l.handle then 2 * l.handle + 10 else -2 * l.handle - 1⟩
  temp i := 7 - i
  name i old := old ++ toString i
  label_injective l m h := by
    have hhandle := congrArg Label.handle h
    simp only at hhandle
    apply congrArg Label.mk
    split at hhandle <;> split at hhandle <;> omega
  label_nonneg l := by
    simp only
    split <;> omega
  temp_injective i j h := by
    simp only at h
    omega

theorem Pipeline.runFunc_rename_countdown :
    Func.countdown.Verified ∧ ∃ g g', standard.runFunc .countdown = .ok (g, .ok ()) ∧
      standard.runFunc { Func.countdown with code := Func.countdown.code.rename .shuffle } =
        .ok (g', .ok ()) ∧
      g'.code = g.code.rename Renaming.shuffle.onlyNames := by
  have hverified : Func.countdown.Verified := rfl
  obtain ⟨g, g', hg, hg', hcode, _⟩ := runFunc_rename .shuffle .countdown
    { Func.countdown with code := Func.countdown.code.rename .shuffle } hverified rfl
  exact ⟨hverified, g, g', hg, hg', hcode⟩

end ThreeAddress
