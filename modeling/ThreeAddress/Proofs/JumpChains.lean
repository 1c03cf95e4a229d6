import ThreeAddress.Proofs.BitmapElements
import ThreeAddress.Proofs.Resolution
import ThreeAddress.Proofs.Stability

/-!
# Chains of jumps

A branch is sent to the last label of the chain that starts at its target, or left alone if the
chain comes to some label again. The search for that label takes what it has passed out of the
table, which is why it ends. Here it is compared with the loop that keeps the whole table and marks
what it has passed in a bitmap that was used before: `chase` ends after no more turns than there are
labels, with the same label (`chase_eq`). Labels of the chain need not be defined, so this is about
code that validation may refuse. Once all branches are sent to where they end up they stay there
(`landing_resolves`).
-/

namespace ThreeAddress
set_option autoImplicit false

namespace Code
variable {code : Code} {start here l m : Label} {table : Positions} {seen : Bitmap}

theorem Revisits.not_ends (h : code.Revisits l) : ¬ code.Ends l := by
  obtain ⟨k, hk, hround⟩ := h
  obtain ⟨j, hj, hback⟩ := Relation.TransGen.tail'_iff.mp hround
  exact fun hend => not_ends_of_cycle hj hback (hk.ends_iff.mp hend)

theorem Lands.of_revisits (h : code.Lands l m) :
    (code.Revisits l → m = l) ∧ (¬ code.Revisits l → code.Leads l m ∧ code.next? m = none) := by
  rcases h with hend | ⟨heq, hends⟩
  · exact ⟨fun hround => absurd ⟨m, hend⟩ hround.not_ends, fun _ => hend⟩
  · exact ⟨fun _ => heq, fun hround => absurd (revisits_of_not_ends hends) hround⟩

/-- A branch that was sent to where it ends up is not sent elsewhere. -/
theorem Lands.self (h : code.Lands l m) : code.Lands m m := by
  rcases h with ⟨_, hend⟩ | ⟨rfl, hends⟩
  · exact .inl ⟨.refl, hend⟩
  · exact .inr ⟨rfl, hends⟩

theorem NonnegLabels.next? (h : NonnegLabels code) (hm : code.next? l = some m) : 0 ≤ m.handle := by
  rw [next?_eq] at hm
  obtain ⟨p, _, hp⟩ := Option.bind_eq_some_iff.mp hm
  exact h.onward? hp

theorem NonnegLabels.leads (h : NonnegLabels code) (hl : 0 ≤ l.handle) (hm : code.Leads l m) :
    0 ≤ m.handle := by
  rcases Relation.ReflTransGen.cases_tail hm with rfl | ⟨k, _, hk⟩
  · exact hl
  · exact h.next? hk

/-- The first `n` turns of following jumps and labels with the whole table, having come from `start`
to `here`; none if it takes more. -/
def chase (code : Code) (table : Positions) (start : Label) :
    Nat → Bitmap → Label → Except Fault (Option Label)
  | 0, _, _ => return none
  | n + 1, seen, here =>
    match (table.lookup here).bind code.onward? with
    | none => return some here
    | some next => do
      let (isNew, seen) ← seen.insertNew next.handle
      if isNew then code.chase table start n seen next
      else return some start

/-- A turn looks for no label that was passed before, so that these may as well be out of the
table. -/
theorem chase_eq (hnonneg : NonnegLabels code) (h : Followed code start here table seen) {n : Nat}
    (hn : table.length < n) :
    code.chase (labelsAt 0 code) start n seen here =
      some <$> code.follow start table seen here := by
  fun_induction follow code start table seen here generalizing n with
  | case1 table seen here hnone =>
    obtain ⟨n, rfl⟩ := Nat.exists_eq_add_one_of_ne_zero (Nat.ne_zero_of_lt hn)
    rw [chase, ← next?_eq, h.next?_eq, hnone]
    rfl
  | case2 table seen here p hp hnone =>
    obtain ⟨n, rfl⟩ := Nat.exists_eq_add_one_of_ne_zero (Nat.ne_zero_of_lt hn)
    rw [chase, ← next?_eq, h.next?_eq, hp, Option.bind_some, hnone]
    rfl
  | case3 table seen here p hp l hl ih =>
    obtain ⟨n, rfl⟩ := Nat.exists_eq_add_one_of_ne_zero (Nat.ne_zero_of_lt hn)
    have hnext := h.next?_eq
    rw [hp, Option.bind_some, hl] at hnext
    have hpos := hnonneg.next? hnext
    obtain ⟨k, hk⟩ := Int.eq_ofNat_of_zero_le hpos
    have hnat : l.handle.toNat = k := by omega
    rw [chase, ← next?_eq, hnext]
    simp only [hk]
    by_cases hseen : k ∈ seen
    · rw [Bitmap.insertNew_of_mem hseen]
      rfl
    · obtain ⟨grown, hinsert, hgrown⟩ := Bitmap.exists_insertNew hseen
      have hshorter := Positions.length_without_lt hp
      rw [hinsert]
      exact ih grown (h.next hpos hnext (hnat ▸ hseen) (hnat ▸ hgrown)) (by omega)

theorem exists_chase (hnonneg : NonnegLabels code) (hl : 0 ≤ l.handle) (hm : code.Lands l m)
    (visited : Bitmap) :
    ∃ seen, visited.clear.insert l.handle = .ok seen ∧
      ∀ n, (labelsAt 0 code).length < n →
        code.chase (labelsAt 0 code) l n seen l = .ok (some m) := by
  obtain ⟨k, hk⟩ := Int.eq_ofNat_of_zero_le hl
  obtain ⟨seen, hinsert, hseen⟩ := visited.clear.exists_insert_natCast k
  have hstart : Followed code l l (labelsAt 0 code) seen := by
    refine .initial hl fun i => ?_
    rw [hseen, or_iff_left (Bitmap.not_mem_clear visited i)]
    omega
  obtain ⟨m', hfollow, hlands⟩ := follow_lands hnonneg.next? hstart
  refine ⟨seen, by rw [hk, hinsert], fun n hn => ?_⟩
  rw [chase_eq hnonneg hstart hn, hfollow, hlands.unique hm]
  rfl

theorem landing_of_threadJumps {r : Simplified} (hwf : ∀ x ∈ code, x.WellFormed)
    (hnonneg : NonnegLabels code) (hr : code.threadJumps.run = .ok (.ok r)) :
    ∃ table, r.code.positions = .ok table ∧
      ∀ t ∈ targets r.code, r.code.landing table t = .ok t := by
  have hv := valid_of_threadJumps hnonneg hwf hr
  obtain ⟨b, hrun, _⟩ := threadJumps_eq hv
  have hcode : r = ⟨code.threaded, b⟩ := by
    rw [hr] at hrun
    exact Except.ok.inj (Except.ok.inj hrun)
  have hvalid := threaded_valid hv
  rw [hcode]
  refine ⟨labelsAt 0 code.threaded, hvalid.positions_eq, fun t ht => ?_⟩
  rw [(landing_eq hvalid (hvalid.resolved t ht)).1, land_threaded hv ht]

/-- In well-formed code with no negative label and none defined twice, the search for where a branch
ends up comes to an end from every label, as does the loop with the whole table and any bitmap. It
stays where it is if the chain of jumps and labels comes to some label again, and otherwise gives
the last label of the chain; from what it gives it goes no further. And threading that succeeds
leaves all branches where they end up in the new code. -/
theorem landing_resolves {code : Code} (hchecked : ∀ x ∈ code, x.check = .ok ())
    (hnonneg : code.NonnegLabels) (honce : (labels code).Nodup) :
    ∃ table, code.positions = .ok table ∧ (∀ k, code.next? k = (table.lookup k).bind code.onward?) ∧
      (∀ l : Label, 0 ≤ l.handle → ∃ m, code.landing table l = .ok m ∧
        (∀ visited : Bitmap, ∃ seen, visited.clear.insert l.handle = .ok seen ∧
          ∀ n, table.length < n → code.chase table l n seen l = .ok (some m)) ∧
        (code.Revisits l → m = l) ∧ (¬ code.Revisits l → code.Leads l m ∧ code.next? m = none) ∧
        code.landing table m = .ok m) ∧
      ∀ r, code.threadJumps.run = .ok (.ok r) →
        ∃ table', r.code.positions = .ok table' ∧
          ∀ t ∈ targets r.code, r.code.landing table' t = .ok t := by
  have hwf : ∀ x ∈ code, x.WellFormed := fun x hx => Instr.check_eq_ok_iff.mp (hchecked x hx)
  refine ⟨labelsAt 0 code, positionsFrom_eq hwf honce fun _ _ => rfl, next?_eq code, fun l hl => ?_,
    fun r hr => landing_of_threadJumps hwf hnonneg hr⟩
  obtain ⟨m, hlanding, hlands⟩ := exists_landing_lands hnonneg.next? hl
  obtain ⟨m', hagain, hlands'⟩ := exists_landing_lands hnonneg.next? (hnonneg.leads hl hlands.leads)
  obtain ⟨hround, hend⟩ := hlands.of_revisits
  rw [hlands'.unique hlands.self] at hagain
  exact ⟨m, hlanding, exists_chase hnonneg hl hlands, hround, hend, hagain⟩

/-- A chain that runs into a circle, and one to the end of the code. -/
def chained : Code :=
  let x : Reg := ⟨0, .i32, false, "x"⟩
  [.make .bnz [.label ⟨1⟩, .reg x], .make .brz [.label ⟨4⟩, .reg x], .defineLabel ⟨1⟩,
    .make .br [.label ⟨2⟩], .defineLabel ⟨2⟩, .defineLabel ⟨3⟩, .make .br [.label ⟨2⟩],
    .defineLabel ⟨4⟩, .defineLabel ⟨5⟩, .make .br [.label ⟨700⟩], .defineLabel ⟨700⟩]

theorem landing_resolves_chained :
    (∀ x ∈ chained, x.check = .ok ()) ∧ chained.NonnegLabels ∧ (labels chained).Nodup ∧
      ∃ table, chained.positions = .ok table ∧ chained.landing table ⟨1⟩ = .ok ⟨1⟩ ∧
        chained.landing table ⟨4⟩ = .ok ⟨700⟩ ∧ chained.landing table ⟨9⟩ = .ok ⟨9⟩ ∧
        ∃ r table', chained.threadJumps.run = .ok (.ok r) ∧ r.code.positions = .ok table' ∧
          ∀ t ∈ targets r.code, r.code.landing table' t = .ok t := by
  have hchecked : ∀ x ∈ chained, x.check = .ok () := by decide
  have hnonneg : chained.NonnegLabels := by decide
  have honce : (labels chained).Nodup := by decide
  have hvalid : Valid chained := ⟨by decide, honce, by decide, by decide⟩
  have hround : chained.Revisits ⟨1⟩ := ⟨⟨2⟩, .single rfl, .tail (.single rfl) rfl⟩
  have hlast : chained.Leads ⟨4⟩ ⟨700⟩ ∧ chained.next? ⟨700⟩ = none :=
    ⟨.tail (.tail .refl rfl) rfl, rfl⟩
  have habsent : chained.Leads ⟨9⟩ ⟨9⟩ ∧ chained.next? ⟨9⟩ = none := ⟨.refl, rfl⟩
  obtain ⟨table, htable, _, hlanding, hthreads⟩ := landing_resolves hchecked hnonneg honce
  obtain ⟨m₁, h₁, _, hback, _⟩ := hlanding ⟨1⟩ (by decide)
  obtain ⟨m₄, h₄, _, _, hend₄, _⟩ := hlanding ⟨4⟩ (by decide)
  obtain ⟨m₉, h₉, _, _, hend₉, _⟩ := hlanding ⟨9⟩ (by decide)
  rw [hback hround] at h₁
  rw [Lands.unique (.inl (hend₄ fun h => h.not_ends ⟨_, hlast⟩)) (.inl hlast)] at h₄
  rw [Lands.unique (.inl (hend₉ fun h => h.not_ends ⟨_, habsent⟩)) (.inl habsent)] at h₉
  obtain ⟨b, hrun, _⟩ := threadJumps_eq hvalid
  obtain ⟨table', htable', hstay⟩ := hthreads _ hrun
  exact ⟨hchecked, hnonneg, honce, table, htable, h₁, h₄, h₉, _, table', hrun, htable', hstay⟩

end Code

end ThreeAddress
