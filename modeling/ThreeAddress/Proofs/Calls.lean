import ThreeAddress.Proofs.ParallelLowering

/-!
# Functions lowered one after the other

`Session.Calls` records the functions that are lowered in a session, the ones that fail included,
with the sessions before and after each of them. Sessions only grow on the way, and the labels that
are made new all have names of their own (`Session.Calls.name_injective`): a name ends in the number
of labels that were made before.
-/

namespace ThreeAddress
set_option autoImplicit false

/-- A function that was lowered, or was tried to. -/
structure Call where
  before : Session
  decl : Decl
  result : Except Error Func
  after : Session

inductive Session.Calls : Session → List Call → Session → Prop where
  | nil (s : Session) : Calls s [] s
  | cons {s s₁ s' : Session} {d : Decl} {r : Except Error Func} {calls : List Call} :
      s.lowerFunc d = .ok (r, s₁) → Calls s₁ calls s' → Calls s (⟨s, d, r, s₁⟩ :: calls) s'

namespace Call

/-- The same call in a program that has other functions. -/
def withFuncs (fs : List Func) (k : Call) : Call :=
  ⟨k.before.withFuncs fs, k.decl, k.result, k.after.withFuncs fs⟩

def func? (k : Call) : Option Func := k.result.toOption

def failure? (k : Call) : Option FuncError :=
  match k.result with
  | .ok _ => none
  | .error e => some ⟨k.decl.header.name, e⟩

@[simp] theorem decl_withFuncs (fs : List Func) (k : Call) : (k.withFuncs fs).decl = k.decl := rfl

@[simp] theorem func?_withFuncs (fs : List Func) (k : Call) : (k.withFuncs fs).func? = k.func? :=
  rfl

@[simp] theorem failure?_withFuncs (fs : List Func) (k : Call) :
    (k.withFuncs fs).failure? = k.failure? := rfl

section
variable (s s' : Session) (d : Decl) (f : Func) (e : Error)

@[simp] theorem func?_ok : func? ⟨s, d, .ok f, s'⟩ = some f := rfl

@[simp] theorem func?_error : func? ⟨s, d, .error e, s'⟩ = none := rfl

@[simp] theorem failure?_ok : failure? ⟨s, d, .ok f, s'⟩ = none := rfl

@[simp] theorem failure?_error : failure? ⟨s, d, .error e, s'⟩ = some ⟨d.header.name, e⟩ := rfl

end

end Call

namespace Session
variable {s s' : Session} {calls : List Call}

theorem closed_grows (s₀ : Session) : Closed s₀.Grows where
  addLabel h _ := h.trans ⟨⟨_, (Labels.entries_fresh _ _).symm⟩, List.prefix_rfl⟩
  addName h name := h.trans ⟨Labels.entries_intern _ name, List.prefix_rfl⟩
  addString h b := h.trans ⟨List.prefix_rfl, Pool.strings_intern _ b⟩

theorem lowerFunc_grows {d : Decl} {r : Except Error Func}
    (h : s.lowerFunc d = .ok (r, s')) : s.Grows s' :=
  lowerFunc_keeps (closed_grows s) h (.refl s)

theorem closed_funcs (fs : List Func) : Closed fun s => s.funcs = fs where
  addLabel h _ := h
  addName h _ := h
  addString h _ := h

theorem funcs_of_lowerFunc {d : Decl} {r : Except Error Func} (h : s.lowerFunc d = .ok (r, s')) :
    s'.funcs = s.funcs :=
  lowerFunc_keeps (closed_funcs s.funcs) h rfl

namespace Calls

theorem keeps {I : Session → Prop} (hI : Closed I) (h : s.Calls calls s') (hs : I s) : I s' := by
  induction h with
  | nil => exact hs
  | cons hcall _ ih => exact ih (lowerFunc_keeps hI hcall hs)

theorem grows (h : s.Calls calls s') : s.Grows s' := h.keeps (closed_grows s) (.refl s)

theorem of_mem (h : s.Calls calls s') {k : Call} (hk : k ∈ calls) :
    k.before.lowerFunc k.decl = .ok (k.result, k.after) ∧ s.Grows k.before ∧ k.after.Grows s' := by
  induction h with
  | nil => cases hk
  | cons hcall hrest ih =>
    rcases List.mem_cons.mp hk with rfl | hk
    · exact ⟨hcall, .refl _, hrest.grows⟩
    · obtain ⟨hlower, hbefore, hafter⟩ := ih hk
      exact ⟨hlower, (lowerFunc_grows hcall).trans hbefore, hafter⟩

/-- A call starts where an earlier one has ended, or later. -/
theorem pairwise (h : s.Calls calls s') : calls.Pairwise fun j k => j.after.Grows k.before := by
  induction h with
  | nil => exact .nil
  | cons _ hrest ih => exact .cons (fun k hk => (hrest.of_mem hk).2.1) ih

end Calls

theorem Calls.withFuncs (h : s.Calls calls s') (fs : List Func) :
    (s.withFuncs fs).Calls (calls.map (Call.withFuncs fs)) (s'.withFuncs fs) := by
  induction h with
  | nil => exact .nil _
  | cons hcall _ ih => exact .cons (lowerFunc_withFuncs hcall fs) ih

/-- The functions that are lowered and those that fail are put on record by the calls. -/
theorem lowerFuncs_eq_ok_iff {file : File} {errs report : Report} :
    s.lowerFuncs errs file = .ok (s', report) ↔
      ∃ calls t, s.Calls calls t ∧ file = calls.map (fun k => some k.decl) ∧
        s' = t.withFuncs (s.funcs ++ calls.filterMap Call.func?) ∧
        report = errs ++ calls.filterMap Call.failure? := by
  induction file generalizing s errs with
  | nil =>
    constructor
    · intro h
      cases h
      exact ⟨[], _, .nil _, rfl, by simp [Session.withFuncs], by simp⟩
    · rintro ⟨calls, t, hcalls, hfile, rfl, rfl⟩
      cases List.map_eq_nil_iff.mp hfile.symm
      cases hcalls
      simp [lowerFuncs, Session.withFuncs]
  | cons d file ih =>
    cases d with
    | none =>
      constructor
      · intro h
        cases h
      · rintro ⟨calls, _, _, hfile, _⟩
        cases calls with
        | nil => cases hfile
        | cons k calls => cases (List.cons.inj hfile).1
    | some d =>
      rw [lowerFuncs, Fault.bind_eq_ok_iff]
      constructor
      · rintro ⟨⟨r, s₁⟩, hcall, h⟩
        have hfuncs := funcs_of_lowerFunc hcall
        cases r with
        | ok f =>
          obtain ⟨calls, t, hcalls, rfl, rfl, rfl⟩ := ih.mp h
          -- the next functions were lowered in a program that has this one already
          refine ⟨_, _, .cons hcall (hcalls.withFuncs s₁.funcs), ?_, ?_, ?_⟩
          · simp
          · simp [Function.comp_def, hfuncs, Session.withFuncs]
          · simp [List.filterMap_cons, Function.comp_def]
        | error e =>
          obtain ⟨calls, t, hcalls, rfl, rfl, rfl⟩ := ih.mp h
          refine ⟨_, _, .cons hcall hcalls, rfl, ?_, ?_⟩
          · simp [List.filterMap_cons, hfuncs]
          · simp
      · rintro ⟨calls, t, hcalls, hfile, rfl, rfl⟩
        cases hcalls with
        | nil => cases hfile
        | @cons _ s₁ _ d' r calls hcall hcalls =>
          obtain ⟨hd, rfl⟩ := List.cons.inj hfile
          cases hd
          have hfuncs := funcs_of_lowerFunc hcall
          refine ⟨(r, s₁), hcall, ?_⟩
          cases r with
          | ok f =>
            refine ih.mpr ⟨_, _, hcalls.withFuncs (s₁.funcs ++ [f]), ?_, ?_, ?_⟩
            · simp
            · simp [Function.comp_def, hfuncs, Session.withFuncs]
            · simp [List.filterMap_cons, Function.comp_def]
          | error e =>
            refine ih.mpr ⟨_, _, hcalls, rfl, ?_, ?_⟩
            · simp [List.filterMap_cons, hfuncs]
            · simp

/-- The name of a label that is made new after `n` others. -/
def labelName (base : String) (n : Nat) : Bytes := Bytes.ofString (base ++ "." ++ toString n)

end Session

theorem Session.takeWhile_digits (base : String) (n : Nat) :
    ((base ++ "." ++ toString n).toList.reverse).takeWhile (· ≠ '.') =
      (Nat.toDigits 10 n).reverse := by
  have hdigits : ∀ c ∈ (Nat.toDigits 10 n).reverse, decide (c ≠ '.') = true := by
    intro c hc
    have hdigit := Nat.isDigit_of_mem_toDigits (by decide) (by decide) (List.mem_reverse.mp hc)
    rw [decide_eq_true_eq]
    rintro rfl
    cases hdigit
  have hsplit : (base ++ "." ++ toString n).toList.reverse = (Nat.toDigits 10 n).reverse ++
      '.' :: base.toList.reverse := by
    change ((base ++ ".") ++ n.repr).toList.reverse = _
    rw [String.toList_append, String.toList_append, List.reverse_append, List.reverse_append,
      Nat.toList_repr]
    rfl
  rw [hsplit, List.takeWhile_append_of_pos hdigits, List.takeWhile_cons_of_neg (by simp),
    List.append_nil]

theorem Session.labelName_inj {base base' : String} {m n : Nat}
    (h : labelName base m = labelName base' n) : m = n := by
  have htext : base ++ "." ++ toString m = base' ++ "." ++ toString n := Bytes.ofString_injective h
  have hdigits : Nat.toDigits 10 m = Nat.toDigits 10 n := by
    rw [← List.reverse_inj, ← takeWhile_digits base m, ← takeWhile_digits base' n, htext]
  calc m = Nat.ofDigitChars 10 (Nat.toDigits 10 m) 0 := Nat.ofDigitChars_ten_toDigits.symm
    _ = Nat.ofDigitChars 10 (Nat.toDigits 10 n) 0 := by rw [hdigits]
    _ = n := Nat.ofDigitChars_ten_toDigits

/-- The labels that were made new since the session of `old` labels are named by numbers that are
used up, each by its own. -/
structure Session.Names (old : Nat) (s : Session) : Prop where
  old_le : old ≤ s.labels.size
  numbered : ∀ (l : Label) name, old ≤ l.handle → s.labels.get? l = some ⟨name, true⟩ →
    ∃ base n, name = labelName base n ∧ n < s.nextSuffix
  inj : ∀ (l l' : Label) name, old ≤ l.handle → old ≤ l'.handle →
    s.labels.get? l = some ⟨name, true⟩ → s.labels.get? l' = some ⟨name, true⟩ → l = l'

namespace Labels
variable {ls : Labels} {l : Label} {e a : LabelEntry}

theorem get?_push_eq_some_iff :
    (ls.push e).2.get? l = some a ↔ l = ⟨ls.size⟩ ∧ a = e ∨ ls.get? l = some a := by
  by_cases hl : l = ⟨ls.size⟩
  · have hself : (ls.push e).2.get? ⟨ls.size⟩ = some e := ls.get?_push_self e
    have hnone : ls.get? ⟨ls.size⟩ = none := get?_eq_none (Int.le_refl _)
    rw [hl, hself, hnone]
    simp [eq_comm]
  · rw [get?_push_of_ne ls e hl]
    simp [hl]

theorem intern_cases (ls : Labels) (name : Bytes) :
    (ls.intern name).2 = ls ∨ (ls.intern name).2 = (ls.push ⟨name, false⟩).2 := by
  rw [intern_eq]
  split
  · exact .inl rfl
  · exact .inr rfl

end Labels

namespace Session
variable {s s' : Session} {calls : List Call} {old : Nat}

theorem addLabel_eq (base : String) (s : Session) : s.addLabel base =
    { s with
      labels := (s.labels.push ⟨labelName base s.nextSuffix, true⟩).2
      nextSuffix := s.nextSuffix + 1 } := by
  rw [addLabel, Labels.fresh_eq]
  rfl

theorem Names.addLabel (h : s.Names old) (base : String) : (s.addLabel base).Names old := by
  have hcases {l : Label} {a : LabelEntry} (hget : (s.addLabel base).labels.get? l = some a) :
      l = ⟨s.labels.size⟩ ∧ a = ⟨labelName base s.nextSuffix, true⟩ ∨ s.labels.get? l = some a := by
    rw [addLabel_eq] at hget
    exact Labels.get?_push_eq_some_iff.mp hget
  have hnumbered : ∀ (l : Label) name, old ≤ l.handle → s.labels.get? l = some ⟨name, true⟩ →
      name ≠ labelName base s.nextSuffix := by
    rintro l _ hl hget rfl
    obtain ⟨base', n, heq, hlt⟩ := h.numbered l _ hl hget
    rw [labelName_inj heq] at hlt
    exact Nat.lt_irrefl n hlt
  refine ⟨?_, ?_, ?_⟩
  · have hsize : (s.addLabel base).labels.size = s.labels.size + 1 := by
      rw [addLabel_eq]
      exact Labels.size_push _ _
    have hle := h.old_le
    omega
  · intro l name hl hget
    rcases hcases hget with ⟨_, heq⟩ | hget
    · cases heq
      exact ⟨base, s.nextSuffix, rfl, Nat.lt_succ_self _⟩
    · obtain ⟨base', n, rfl, hlt⟩ := h.numbered l name hl hget
      exact ⟨base', n, rfl, Nat.lt_succ_of_lt hlt⟩
  · intro l l' name hl hl' hget hget'
    rcases hcases hget with ⟨rfl, heq⟩ | hget
    · cases heq
      rcases hcases hget' with ⟨rfl, _⟩ | hget'
      · rfl
      · exact absurd rfl (hnumbered l' _ hl' hget')
    · rcases hcases hget' with ⟨rfl, heq⟩ | hget'
      · cases heq
        exact absurd rfl (hnumbered l _ hl hget)
      · exact h.inj l l' name hl hl' hget hget'

theorem Names.of_fresh {t : Session} (h : s.Names old) (hsize : s.labels.size ≤ t.labels.size)
    (hfresh : ∀ l name, t.labels.get? l = some ⟨name, true⟩ → s.labels.get? l = some ⟨name, true⟩)
    (hsuffix : s.nextSuffix = t.nextSuffix) : t.Names old where
  old_le := Nat.le_trans h.old_le hsize
  numbered l name hl hget := hsuffix ▸ h.numbered l name hl (hfresh l name hget)
  inj l l' name hl hl' hget hget' :=
    h.inj l l' name hl hl' (hfresh l name hget) (hfresh l' name hget')

theorem closed_names (old : Nat) : Closed (Names old) where
  addLabel h base := h.addLabel base
  addName {s} h name := by
    refine h.of_fresh ?_ ?_ rfl
    · have hle := (Labels.entries_intern s.labels name).length_le
      rwa [Labels.length_entries, Labels.length_entries] at hle
    · intro l name' hget
      have hlabels : (s.addName name).labels = (s.labels.intern name).2 := rfl
      rw [hlabels] at hget
      rcases s.labels.intern_cases name with heq | heq
      · rwa [heq] at hget
      · rw [heq, Labels.get?_push_eq_some_iff] at hget
        rcases hget with ⟨_, hentry⟩ | hget
        · cases hentry
        · exact hget
  addString h _ := h.of_fresh (Nat.le_refl _) (fun _ _ hget => hget) rfl

/-- Labels that were made new have names of their own. -/
theorem Calls.name_injective (h : s.Calls calls s') {l l' : Label} (hl : s.labels.size ≤ l.handle)
    (hl' : s.labels.size ≤ l'.handle) (hfresh : s'.labels.isFresh l = true)
    (hfresh' : s'.labels.isFresh l' = true)
    (hname : s'.labels.name l = s'.labels.name l') : l = l' := by
  have hstart : s.Names s.labels.size := by
    refine ⟨Nat.le_refl _, ?_, ?_⟩
    · intro l name hl hget
      rw [Labels.get?_eq_none hl] at hget
      cases hget
    · intro l l' name hl _ hget
      rw [Labels.get?_eq_none hl] at hget
      cases hget
  have hnames := h.keeps (closed_names s.labels.size) hstart
  obtain ⟨name, hget⟩ := Labels.isFresh_iff.mp hfresh
  obtain ⟨name', hget'⟩ := Labels.isFresh_iff.mp hfresh'
  have heq : name = name' := by
    rw [Labels.name_eq, Labels.name_eq, hget, hget'] at hname
    exact hname
  subst heq
  exact hnames.inj l l' name hl hl' hget hget'

end Session

theorem Program.lower_eq_ok_iff {file : File} {p : Program} {err : Option Failure} :
    Program.lower file = .ok (p, err) ↔
      ∃ calls s, Session.empty.Calls calls s ∧ file = calls.map (fun k => some k.decl) ∧
      p = ⟨s.labels, s.data, calls.filterMap Call.func?⟩ ∧
      err = Report.err (calls.filterMap Call.failure?) := by
  unfold Program.lower
  rw [Fault.bind_eq_ok_iff]
  constructor
  · rintro ⟨⟨s, errs⟩, hfuncs, h⟩
    cases h
    obtain ⟨calls, t, hcalls, hfile, rfl, rfl⟩ := Session.lowerFuncs_eq_ok_iff.mp hfuncs
    exact ⟨calls, t, hcalls, hfile, rfl, rfl⟩
  · rintro ⟨calls, t, hcalls, hfile, rfl, rfl⟩
    exact ⟨_, Session.lowerFuncs_eq_ok_iff.mpr ⟨calls, t, hcalls, hfile, rfl, rfl⟩, rfl⟩

end ThreeAddress
