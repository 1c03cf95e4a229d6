import Mathlib.Data.Fintype.Pigeonhole
import Mathlib.Logic.Relation
import ThreeAddress.Proofs.Machine
import ThreeAddress.Proofs.Validity
import ThreeAddress.Simplify

/-!
# Where jumps lead

From a label that is followed by a jump or by another label control goes on to that label, and so
on. `Code.Lands` says where this ends: at a label that is followed by something else, or, if it goes
round in circles, where it started. In valid code every label lands somewhere, and `Code.landing`
finds out where (`landing_eq`).
-/

namespace ThreeAddress
set_option autoImplicit false

theorem Positions.lookup_without {table : Positions} {l m : Label} (h : m ≠ l) :
    (table.without l).lookup m = table.lookup m := by
  induction table with
  | nil => rfl
  | cons e table ih =>
    obtain ⟨k, p⟩ := e
    rw [without] at ih ⊢
    by_cases hk : k = l
    · have hmk : (m == k) = false := beq_eq_false_iff_ne.mpr (hk ▸ h)
      rw [List.filter_cons_of_neg (by simpa using hk), ih, List.lookup_cons, hmk]
    · rw [List.filter_cons_of_pos (by simpa using hk), List.lookup_cons, List.lookup_cons, ih]

namespace Code

/-- The labels with their places, for code of which the first instruction is number `i`. -/
def labelsAt (i : Nat) : Code → Positions
  | [] => []
  | x :: rest => (x.label?.map fun l => (l, i)).toList ++ labelsAt (i + 1) rest

theorem positionsFrom_eq {seen : Positions} {i : Nat} {code : Code} (hwf : ∀ x ∈ code, x.WellFormed)
    (hnodup : (labels code).Nodup) (hnew : ∀ l ∈ labels code, seen.lookup l = none) :
    positionsFrom seen i code = .ok (seen ++ labelsAt i code) := by
  induction code generalizing seen i with
  | nil => rw [positionsFrom, labelsAt, List.append_nil]
  | cons x rest ih =>
    obtain ⟨hx, hrest⟩ := List.forall_mem_cons.mp hwf
    rw [positionsFrom, labelsAt]
    by_cases hop : x.op = .label
    · obtain ⟨l, rfl⟩ := hx.exists_label hop
      rw [labels_cons, Instr.label?_mk, Option.toList_some, List.singleton_append] at hnodup hnew
      obtain ⟨hl, hnew⟩ := List.forall_mem_cons.mp hnew
      obtain ⟨hfresh, hnodup⟩ := List.nodup_cons.mp hnodup
      have htarget : Instr.target? ⟨.label, [some (.label l)]⟩ = some l := rfl
      simp only [if_true, htarget, hl]
      rw [ih hrest hnodup, Instr.label?_mk, List.append_assoc]
      · rfl
      · intro m hm
        have hml : (m == l) = false := beq_eq_false_iff_ne.mpr fun h => hfresh (h ▸ hm)
        rw [List.lookup_append, hnew m hm, List.lookup_cons, hml]
        rfl
    · rw [labels_cons, Instr.label?_eq_none hop] at hnodup hnew
      rw [if_neg hop, ih hrest hnodup hnew, Instr.label?_eq_none hop]
      rfl

theorem Valid.positions_eq {code : Code} (h : Valid code) :
    code.positions = .ok (labelsAt 0 code) :=
  positionsFrom_eq h.wellFormed h.nodup fun _ _ => rfl

theorem seek_cons (x : Instr) (rest : Code) (l : Label) :
    seek l (x :: rest) = if x.label? = some l then x :: rest else seek l rest := by
  rw [seek, Instr.label?]
  by_cases hop : x.op = .label <;> simp [hop]

theorem lookup_labelsAt_cons (i : Nat) (x : Instr) (rest : Code) (l : Label) :
    (labelsAt i (x :: rest)).lookup l = if x.label? = some l then some i
      else (labelsAt (i + 1) rest).lookup l := by
  rw [labelsAt]
  cases hx : x.label? with
  | none => rfl
  | some m =>
    rw [Option.map_some, Option.toList_some, List.singleton_append, List.lookup_cons]
    by_cases hlm : l = m
    · rw [if_pos (congrArg some hlm.symm), beq_iff_eq.mpr hlm]
    · rw [if_neg fun h => hlm (Option.some.inj h).symm, beq_eq_false_iff_ne.mpr hlm]

theorem lookup_labelsAt {code : Code} {l : Label} (i : Nat) (hl : l ∈ labels code) :
    ∃ p, (labelsAt i code).lookup l = some (i + p) ∧ code.seek l = code.drop p ∧
      p < code.length := by
  induction code generalizing i with
  | nil => cases hl
  | cons x rest ih =>
    rw [lookup_labelsAt_cons, seek_cons]
    rw [labels_cons] at hl
    by_cases hx : x.label? = some l
    · exact ⟨0, if_pos hx, if_pos hx, Nat.succ_pos _⟩
    · rw [if_neg hx, if_neg hx]
      have hrest : l ∈ labels rest := by
        rcases List.mem_append.mp hl with h | h
        · exact absurd (Option.mem_toList.mp h) hx
        · exact h
      obtain ⟨p, hlookup, hseek, hp⟩ := ih (i + 1) hrest
      refine ⟨p + 1, ?_, hseek, Nat.succ_lt_succ hp⟩
      rw [hlookup]
      congr 1
      omega

theorem lookup_labelsAt_eq_none {code : Code} {l : Label} (i : Nat) (h : l ∉ labels code) :
    (labelsAt i code).lookup l = none := by
  induction code generalizing i with
  | nil => rfl
  | cons x rest ih =>
    rw [labels_cons, List.mem_append, not_or, Option.mem_toList] at h
    rw [lookup_labelsAt_cons, if_neg h.1, ih (i + 1) h.2]

theorem exists_seek {code : Code} {l : Label} (hl : l ∈ labels code) :
    ∃ x rest, code.seek l = x :: rest ∧ x.label? = some l ∧ (x :: rest) <:+ code := by
  induction code with
  | nil => cases hl
  | cons x rest ih =>
    rw [seek_cons]
    by_cases hx : x.label? = some l
    · exact ⟨x, rest, if_pos hx, hx, List.suffix_rfl⟩
    · rw [labels_cons] at hl
      rcases List.mem_append.mp hl with h | h
      · exact absurd (Option.mem_toList.mp h) hx
      · obtain ⟨y, rest', hy, hlabel, hsuffix⟩ := ih h
        rw [if_neg hx]
        exact ⟨y, rest', hy, hlabel, hsuffix.trans (List.suffix_cons x rest)⟩

theorem seek_eq_nil {code : Code} {l : Label} (h : l ∉ labels code) : code.seek l = [] := by
  induction code with
  | nil => rfl
  | cons x rest ih =>
    rw [labels_cons, List.mem_append, not_or, Option.mem_toList] at h
    rw [seek_cons, if_neg h.1, ih h.2]

theorem mem_labels_of_suffix {code rest : Code} {x : Instr} {l : Label} (h : (x :: rest) <:+ code)
    (hx : x.label? = some l) : l ∈ labels code :=
  List.mem_filterMap.mpr ⟨x, h.subset List.mem_cons_self, hx⟩

theorem seek_of_suffix {code rest : Code} {x : Instr} {l : Label} (hnodup : (labels code).Nodup)
    (h : (x :: rest) <:+ code) (hx : x.label? = some l) : code.seek l = x :: rest := by
  induction code with
  | nil => cases List.suffix_nil.mp h
  | cons y code ih =>
    rw [seek_cons]
    rw [labels_cons] at hnodup
    rcases List.suffix_cons_iff.mp h with heq | hsuffix
    · cases heq
      exact if_pos hx
    · have hy : y.label? ≠ some l := by
        intro hy
        rw [hy, Option.toList_some, List.singleton_append] at hnodup
        exact (List.nodup_cons.mp hnodup).1 (mem_labels_of_suffix hsuffix hx)
      rw [if_neg hy]
      exact ih (List.nodup_append.mp hnodup).2.1 hsuffix

/-- The label that control goes on to if it starts like this. -/
def ahead? : Code → Option Label
  | _ :: y :: _ => if y.op = .br ∨ y.op = .label then y.target? else none
  | _ => none

theorem ahead?_cons_cons (x y : Instr) (rest : Code) :
    ahead? (x :: y :: rest) = if y.op = .br ∨ y.op = .label then y.target? else none := rfl

/-- The label that control goes on to from `l`, if it meets nothing but a jump or a label. -/
def next? (code : Code) (l : Label) : Option Label := ahead? (code.seek l)

theorem onward?_eq {code : Code} {l : Label} {p : Nat} (hseek : code.seek l = code.drop p)
    (hp : p < code.length) : code.onward? p = code.next? l := by
  rw [next?, hseek, onward?, List.drop_eq_getElem_cons hp]
  cases hrest : code.drop (p + 1) with
  | nil =>
    have hlen : code.length ≤ p + 1 := List.drop_eq_nil_iff.mp hrest
    rw [List.getElem?_eq_none hlen]
    rfl
  | cons y rest =>
    have hy : code[p + 1]? = some y := by
      rw [← List.head?_drop, hrest]
      rfl
    rw [hy]
    rfl

theorem next?_eq (code : Code) (l : Label) :
    code.next? l = ((labelsAt 0 code).lookup l).bind code.onward? := by
  by_cases hl : l ∈ labels code
  · obtain ⟨p, hlookup, hseek, hp⟩ := lookup_labelsAt 0 hl
    rw [hlookup, Nat.zero_add, Option.bind_some, onward?_eq hseek hp]
  · rw [next?, seek_eq_nil hl, lookup_labelsAt_eq_none 0 hl]
    rfl

theorem mem_labels_of_next? {code : Code} {l m : Label} (h : code.next? l = some m) :
    l ∈ labels code := by
  by_contra hl
  rw [next?, seek_eq_nil hl] at h
  cases h

/-- Control comes from one label to the other meeting nothing but jumps and labels. -/
def Leads (code : Code) : Label → Label → Prop :=
  Relation.ReflTransGen fun l m => code.next? l = some m

/-- Control comes to a label that leads no further. -/
def Ends (code : Code) (l : Label) : Prop := ∃ m, code.Leads l m ∧ code.next? m = none

/-- Control that starts at `l` and meets nothing but jumps and labels comes to some label again. -/
def Revisits (code : Code) (l : Label) : Prop :=
  ∃ m, code.Leads l m ∧ Relation.TransGen (fun l m => code.next? l = some m) m m

/-- A branch to `l` may as well go to `m`. -/
def Lands (code : Code) (l m : Label) : Prop :=
  (code.Leads l m ∧ code.next? m = none) ∨ (m = l ∧ ¬ code.Ends l)

section
variable {code : Code} {l m n : Label}

theorem Leads.of_leads (hm : code.Leads l m) (hn : code.Leads l n) (hend : code.next? n = none) :
    code.Leads m n := by
  induction hm using Relation.ReflTransGen.head_induction_on with
  | refl => exact hn
  | head hstep _ ih =>
    rcases Relation.ReflTransGen.cases_head hn with rfl | ⟨k, hk, hkn⟩
    · rw [hend] at hstep
      cases hstep
    · rw [hstep] at hk
      cases hk
      exact ih hkn

theorem Leads.ends_iff (h : code.Leads l m) : code.Ends l ↔ code.Ends m := by
  constructor
  · rintro ⟨n, hn, hend⟩
    exact ⟨n, h.of_leads hn hend, hend⟩
  · rintro ⟨n, hn, hend⟩
    exact ⟨n, h.trans hn, hend⟩

theorem not_ends_of_cycle (h : code.Leads l m) (hback : code.next? m = some l) : ¬ code.Ends l := by
  rintro ⟨n, hn, hend⟩
  -- Whatever is on the way leads to the last label of the circle.
  have hround : code.Leads n m := by
    clear hend
    induction hn with
    | refl => exact h
    | @tail j k _ hjk ih =>
      rcases Relation.ReflTransGen.cases_head ih with rfl | ⟨k', hk', hrest⟩
      · rw [hback] at hjk
        cases hjk
        exact h
      · rw [hjk] at hk'
        cases hk'
        exact hrest
  rcases Relation.ReflTransGen.cases_head hround with rfl | ⟨k, hk, _⟩
  · rw [hend] at hback
    cases hback
  · rw [hend] at hk
    cases hk

theorem Lands.leads (h : code.Lands l m) : code.Leads l m := by
  rcases h with ⟨h, _⟩ | ⟨rfl, _⟩
  · exact h
  · exact .refl

theorem Lands.unique (hm : code.Lands l m) (hn : code.Lands l n) : m = n := by
  rcases hm with ⟨hm, hend⟩ | ⟨rfl, hno⟩
  · rcases hn with ⟨hn, hend'⟩ | ⟨_, hno⟩
    · rcases Relation.ReflTransGen.cases_head (hm.of_leads hn hend') with rfl | ⟨k, hk, _⟩
      · rfl
      · rw [hend] at hk
        cases hk
    · exact absurd ⟨m, hm, hend⟩ hno
  · rcases hn with ⟨hn, hend⟩ | ⟨rfl, _⟩
    · exact absurd ⟨n, hn, hend⟩ hno
    · rfl

theorem ahead?_mem_labels {code : Code} (hv : Valid code) {rest : Code} (hsuffix : rest <:+ code)
    (h : ahead? rest = some m) : m ∈ labels code := by
  match rest with
  | [] | [_] => cases h
  | x :: y :: rest =>
    have hy : y ∈ code := hsuffix.subset (List.mem_cons_of_mem x List.mem_cons_self)
    rw [ahead?_cons_cons] at h
    split at h
    · rename_i hop
      rcases hop with hop | hop
      · refine hv.resolved m (List.mem_filterMap.mpr ⟨y, hy, ?_⟩)
        rw [Instr.goal?, hop]
        exact h
      · refine List.mem_filterMap.mpr ⟨y, hy, ?_⟩
        rw [Instr.label?, if_pos hop]
        exact h
    · cases h

theorem next?_mem_labels (hv : Valid code) (hl : l ∈ labels code) (h : code.next? l = some m) :
    m ∈ labels code := by
  obtain ⟨x, rest, hseek, _, hsuffix⟩ := exists_seek hl
  rw [next?, hseek] at h
  exact ahead?_mem_labels hv hsuffix h

theorem Leads.mem_labels (hv : Valid code) (hl : l ∈ labels code) (h : code.Leads l m) :
    m ∈ labels code := by
  induction h with
  | refl => exact hl
  | tail _ hstep ih => exact next?_mem_labels hv ih hstep

/-- There are only so many labels: control that comes to no end comes to some label again. -/
theorem revisits_of_not_ends (h : ¬ code.Ends l) : code.Revisits l := by
  let go : Label → Label := fun m => (code.next? m).getD m
  have hgo : ∀ m, code.Leads l m → code.next? m = some (go m) := by
    intro m hm
    obtain ⟨k, hk⟩ := Option.ne_none_iff_exists'.mp fun hnone => h ⟨m, hm, hnone⟩
    simp only [go, hk]
    rfl
  have hleads : ∀ n, code.Leads l (go^[n] l) := by
    intro n
    induction n with
    | zero => exact .refl
    | succ n ih =>
      rw [Function.iterate_succ_apply']
      exact ih.tail (hgo _ ih)
  have hround : ∀ i k,
      Relation.TransGen (fun l m => code.next? l = some m) (go^[i] l) (go^[i + k + 1] l) := by
    intro i k
    induction k with
    | zero =>
      rw [Function.iterate_succ_apply']
      exact .single (hgo _ (hleads i))
    | succ k ih =>
      rw [Function.iterate_succ_apply']
      exact ih.tail (hgo _ (hleads _))
  obtain ⟨i, j, hij, heq⟩ := Finite.exists_ne_map_eq_of_infinite fun n : Nat =>
    (⟨go^[n] l, mem_labels_of_next? (hgo _ (hleads n))⟩ : { m // m ∈ labels code })
  wlog hlt : i < j generalizing i j
  · exact this j i hij.symm heq.symm (by omega)
  obtain ⟨k, rfl⟩ := Nat.exists_eq_add_of_lt hlt
  have hback : go^[i + k + 1] l = go^[i] l := congrArg Subtype.val heq.symm
  exact ⟨go^[i] l, hleads i, by simpa only [hback] using hround i k⟩

theorem Lands.mem_labels (hv : Valid code) (hl : l ∈ labels code) (h : code.Lands l m) :
    m ∈ labels code := by
  rcases h with ⟨h, _⟩ | ⟨rfl, _⟩
  · exact h.mem_labels hv hl
  · exact hl

end

/-- What `follow` relies on when it has come from `start` to `here`. -/
structure Followed (code : Code) (start here : Label) (table : Positions)
    (seen : Bitmap) : Prop where
  leads : code.Leads start here
  here_mem : here.handle.toNat ∈ seen
  passed : ∀ l, 0 ≤ l.handle → l.handle.toNat ∈ seen → code.Leads start l ∧ code.Leads l here
  table : ∀ l, l = here ∨ l.handle.toNat ∉ seen → table.lookup l = (labelsAt 0 code).lookup l

section
variable {code : Code} {start here l : Label} {table : Positions} {seen : Bitmap}

theorem Followed.initial (hl : 0 ≤ l.handle) (hseen : ∀ n, n ∈ seen ↔ n = l.handle.toNat) :
    Followed code l l (labelsAt 0 code) seen where
  leads := .refl
  here_mem := (hseen _).mpr rfl
  passed m hm hmem := by
    have hml := Label.eq_of_toNat_eq hm hl ((hseen _).mp hmem)
    subst hml
    exact ⟨.refl, .refl⟩
  table _ _ := rfl

theorem Followed.next {grown : Bitmap} (h : Followed code start here table seen)
    (hnonneg : 0 ≤ l.handle) (hl : code.next? here = some l) (hnew : l.handle.toNat ∉ seen)
    (hgrown : ∀ n, n ∈ grown ↔ n = l.handle.toNat ∨ n ∈ seen) :
    Followed code start l (table.without here) grown where
  leads := h.leads.tail hl
  here_mem := (hgrown _).mpr (.inl rfl)
  passed m hm hmem := by
    rcases (hgrown _).mp hmem with heq | hseen
    · have hml := Label.eq_of_toNat_eq hm hnonneg heq
      subst hml
      exact ⟨h.leads.tail hl, .refl⟩
    · obtain ⟨hto, hfrom⟩ := h.passed m hm hseen
      exact ⟨hto, hfrom.tail hl⟩
  table m hcond := by
    have hunseen : m.handle.toNat ∉ seen := by
      rcases hcond with rfl | hcond
      · exact hnew
      · exact fun hseen => hcond ((hgrown _).mpr (.inr hseen))
    have hne : m ≠ here := fun heq => hunseen (heq ▸ h.here_mem)
    rw [Positions.lookup_without hne]
    exact h.table m (.inr hunseen)

theorem Followed.next?_eq (h : Followed code start here table seen) :
    code.next? here = (table.lookup here).bind code.onward? := by
  rw [h.table here (.inl rfl), Code.next?_eq]

theorem Followed.not_ends (h : Followed code start here table seen) (hnonneg : 0 ≤ l.handle)
    (hl : code.next? here = some l) (hseen : l.handle.toNat ∈ seen) : ¬ code.Ends start := by
  obtain ⟨hto, hfrom⟩ := h.passed l hnonneg hseen
  exact fun hend => not_ends_of_cycle hfrom hl (hto.ends_iff.mp hend)

theorem follow_lands (hnonneg : ∀ {k l}, code.next? k = some l → 0 ≤ l.handle)
    (h : Followed code start here table seen) :
    ∃ m, code.follow start table seen here = .ok m ∧ code.Lands start m := by
  fun_induction follow code start table seen here with
  | case1 table seen here hnone =>
    have hnext := h.next?_eq
    rw [hnone] at hnext
    exact ⟨here, rfl, .inl ⟨h.leads, hnext⟩⟩
  | case2 table seen here p hp hnone =>
    have hnext := h.next?_eq
    rw [hp, Option.bind_some, hnone] at hnext
    exact ⟨here, rfl, .inl ⟨h.leads, hnext⟩⟩
  | case3 table seen here p hp l hl ih =>
    have hnext := h.next?_eq
    rw [hp, Option.bind_some, hl] at hnext
    obtain ⟨n, hn⟩ := Int.eq_ofNat_of_zero_le (hnonneg hnext)
    have hnat : l.handle.toNat = n := by omega
    rw [hn]
    by_cases hseen : n ∈ seen
    · rw [Bitmap.insertNew_of_mem hseen]
      exact ⟨start, rfl, .inr ⟨rfl, h.not_ends (hnonneg hnext) hnext (hnat ▸ hseen)⟩⟩
    · obtain ⟨grown, hinsert, hgrown⟩ := Bitmap.exists_insertNew hseen
      rw [hinsert]
      exact ih grown (h.next (hnonneg hnext) hnext (hnat ▸ hseen) (hnat ▸ hgrown))

theorem exists_landing_lands (hnonneg : ∀ {k l}, code.next? k = some l → 0 ≤ l.handle)
    (hl : 0 ≤ l.handle) :
    ∃ m, code.landing (labelsAt 0 code) l = .ok m ∧ code.Lands l m := by
  obtain ⟨n, hn⟩ := Int.eq_ofNat_of_zero_le hl
  obtain ⟨seen, hinsert, hseen⟩ :=
    (Bitmap.ofCapacity (labelsAt 0 code).length).exists_insert_natCast n
  have hstart : ∀ i, i ∈ seen ↔ i = l.handle.toNat := by
    intro i
    rw [hseen, or_iff_left (Bitmap.not_mem_ofCapacity _ i)]
    omega
  obtain ⟨m, hfollow, hlands⟩ := follow_lands hnonneg (.initial hl hstart)
  refine ⟨m, ?_, hlands⟩
  rw [landing, hn, hinsert]
  exact hfollow

end

/-- The label that a branch to `l` ends up at. -/
def land (code : Code) (l : Label) : Label :=
  match code.landing (labelsAt 0 code) l with
  | .ok m => m
  | .error _ => l

theorem landing_eq {code : Code} (hv : Valid code) {l : Label} (hl : l ∈ labels code) :
    code.landing (labelsAt 0 code) l = .ok (code.land l) ∧ code.Lands l (code.land l) := by
  have hnonneg {k m : Label} (h : code.next? k = some m) : 0 ≤ m.handle :=
    hv.nonneg m (next?_mem_labels hv (mem_labels_of_next? h) h)
  obtain ⟨m, hlanding, hlands⟩ := exists_landing_lands hnonneg (hv.nonneg l hl)
  have hland : code.land l = m := by rw [land, hlanding]
  rw [hland]
  exact ⟨hlanding, hlands⟩

end Code

end ThreeAddress
