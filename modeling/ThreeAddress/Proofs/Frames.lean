import ThreeAddress.Lowering.Program

/-!
# Frames while lowering goes on

A frame only grows: what a variable, a string or a function was given stays with it, and a temporary
is never handed out twice. `Frame.Grows` says so, and one lemma for each action of lowering says
what it hands out and how the frame grows. An atom is read by the same operand in every later frame
(`Reads`).
-/

namespace ThreeAddress
set_option autoImplicit false

open LowerM

theorem getElem?_of_prefix {α : Type} {l l' : List α} {n : Nat} {a : α} (h : l <+: l')
    (hn : l[n]? = some a) :
    l'[n]? = some a := by
  obtain ⟨more, rfl⟩ := h
  rwa [List.getElem?_append_left (List.getElem?_eq_some_iff.mp hn).1]

namespace Labels
variable {ls ls' : Labels} {l : Label} {e : LabelEntry}

theorem get?_eq_some_iff : ls.get? l = some e ↔ ∃ n : Nat, l = ⟨n⟩ ∧ ls.entries[n]? = some e := by
  unfold get?
  constructor
  · intro h
    split at h
    · cases h
    · exact ⟨l.handle.toNat, congrArg Label.mk (by omega), h⟩
  · rintro ⟨n, rfl, h⟩
    rw [if_neg (by simp)]
    exact h

theorem get?_of_prefix (hls : ls.entries <+: ls'.entries) (h : ls.get? l = some e) :
    ls'.get? l = some e := by
  obtain ⟨n, rfl, hn⟩ := get?_eq_some_iff.mp h
  exact get?_eq_some_iff.mpr ⟨n, rfl, getElem?_of_prefix hls hn⟩

theorem handle_of_get? (h : ls.get? l = some e) : 0 ≤ l.handle ∧ l.handle < ls.size := by
  obtain ⟨n, rfl, hn⟩ := get?_eq_some_iff.mp h
  obtain ⟨hlt, _⟩ := List.getElem?_eq_some_iff.mp hn
  have hsize := ls.length_entries
  simp only
  omega

theorem get?_eq_none (h : ls.size ≤ l.handle) : ls.get? l = none := by
  have hsize := ls.length_entries
  rw [get?, if_neg (by omega)]
  exact List.getElem?_eq_none (by omega)

end Labels

def Labels.interned? (ls : Labels) (name : Bytes) : Option Label :=
  (ls.entries.findIdx? fun e => !e.fresh && e.name == name).map fun (i : Nat) => ⟨i⟩

def Pool.index? (p : Pool) (s : Bytes) : Option Nat := p.strings.idxOf? s

theorem Labels.interned?_intern (ls : Labels) (name : Bytes) :
    (ls.intern name).2.interned? name = some (ls.intern name).1 := by
  rw [intern_eq]
  cases h : ls.entries.findIdx? (fun e => !e.fresh && e.name == name) with
  | some i => simp [interned?, h]
  | none =>
    simp [interned?, push, entries_ofEntries, List.findIdx?_append, h, List.findIdx?_cons,
      length_entries]

theorem Labels.entries_intern (ls : Labels) (name : Bytes) :
    ls.entries <+: (ls.intern name).2.entries := by
  rw [intern_eq]
  split
  · exact List.prefix_rfl
  · rw [entries_push]
    exact List.prefix_append _ _

theorem Labels.entries_fresh (ls : Labels) (name : Bytes) :
    (ls.fresh name).2.entries = ls.entries ++ [⟨name, true⟩] := by
  rw [fresh_eq, entries_push]

theorem Pool.index?_intern (p : Pool) (s : Bytes) :
    (p.intern s).2.index? s = some (p.intern s).1 := by
  rw [intern_eq]
  cases h : p.strings.idxOf? s with
  | some i => exact h
  | none =>
    unfold List.idxOf? at h
    simp [index?, ofStrings, List.idxOf?, List.findIdx?_append, h, List.findIdx?_cons, size]

theorem Pool.strings_intern (p : Pool) (s : Bytes) : p.strings <+: (p.intern s).2.strings := by
  rw [intern_eq]
  split
  · exact List.prefix_rfl
  · exact List.prefix_append _ _

theorem Labels.intern_of_interned? {ls : Labels} {name : Bytes} {l : Label}
    (h : ls.interned? name = some l) :
    ls.intern name = (l, ls) := by
  obtain ⟨i, hi, rfl⟩ := Option.map_eq_some_iff.mp h
  rw [intern_eq, hi]

theorem Labels.intern_of_new {ls : Labels} {name : Bytes} (h : ls.interned? name = none) :
    ls.intern name = ls.push ⟨name, false⟩ := by
  rw [intern_eq, Option.map_eq_none_iff.mp h]

theorem Labels.get?_of_interned? {ls : Labels} {name : Bytes} {l : Label}
    (h : ls.interned? name = some l) :
    ls.get? l = some ⟨name, false⟩ := by
  have hget := ls.get?_intern name
  rwa [intern_of_interned? h] at hget

theorem Pool.intern_of_index? {p : Pool} {b : Bytes} {i : Nat} (h : p.index? b = some i) :
    p.intern b = (i, p) := by
  rw [intern_eq, ← index?, h]

theorem Pool.intern_of_new {p : Pool} {b : Bytes} (h : p.index? b = none) :
    p.intern b = (p.size, .ofStrings (p.strings ++ [b])) := by
  rw [intern_eq, ← index?, h]

theorem Pool.getElem?_of_index? {p : Pool} {b : Bytes} {i : Nat} (h : p.index? b = some i) :
    p.strings[i]? = some b := by
  have hget := p.getElem?_intern b
  rwa [intern_of_index? h] at hget

/-- What later lowering keeps of a session. -/
structure Session.Grows (s s' : Session) : Prop where
  labels : s.labels.entries <+: s'.labels.entries
  data : s.data.strings <+: s'.data.strings

theorem Session.Grows.refl (s : Session) : s.Grows s := ⟨List.prefix_rfl, List.prefix_rfl⟩

theorem Session.Grows.trans {s₁ s₂ s₃ : Session} (h : s₁.Grows s₂) (h' : s₂.Grows s₃) :
    s₁.Grows s₃ :=
  ⟨h.labels.trans h'.labels, h.data.trans h'.data⟩

theorem Session.Grows.interned? {s s' : Session} (h : s.Grows s') {name : Bytes} {l : Label}
    (hl : s.labels.interned? name = some l) : s'.labels.interned? name = some l := by
  obtain ⟨i, hi, rfl⟩ := Option.map_eq_some_iff.mp hl
  exact Option.map_eq_some_iff.mpr ⟨i, h.labels.findIdx?_eq_some hi, rfl⟩

theorem Session.Grows.index? {s s' : Session} (h : s.Grows s') {b : Bytes} {i : Nat}
    (hi : s.data.index? b = some i) : s'.data.index? b = some i :=
  h.data.findIdx?_eq_some hi

/-- Variables have named registers, numbered in the order of their first appearance. -/
def Frame.Numbered (s : Frame) : Prop :=
  ∀ (i : Nat) (p : Int × Reg), s.vars[i]? = some p → p.2.key = ⟨false, i⟩

theorem Frame.Numbered.inj {s : Frame} (h : s.Numbered) {a b : Int} {r r' : Reg}
    (ha : s.vars.lookup a = some r) (hb : s.vars.lookup b = some r')
    (hkey : r.key = r'.key) : a = b := by
  obtain ⟨l₁, l₂, hl, _⟩ := List.lookup_eq_some_iff.mp ha
  obtain ⟨m₁, m₂, hm, _⟩ := List.lookup_eq_some_iff.mp hb
  have hra : s.vars[l₁.length]? = some (a, r) := by simp [hl]
  have hrb : s.vars[m₁.length]? = some (b, r') := by simp [hm]
  have hlen : (l₁.length : Int) = m₁.length := by
    have hk := (h _ _ hra).symm.trans (hkey.trans (h _ _ hrb))
    exact congrArg RegKey.index hk
  rw [Int.natCast_inj.mp hlen, hrb] at hra
  exact (congrArg Prod.fst (Option.some.inj hra)).symm

theorem Frame.Numbered.named {s : Frame} (h : s.Numbered) {a : Int} {r : Reg}
    (ha : s.vars.lookup a = some r) :
    r.temp = false := by
  obtain ⟨l₁, l₂, hl, _⟩ := List.lookup_eq_some_iff.mp ha
  have hra : s.vars[l₁.length]? = some (a, r) := by simp [hl]
  exact congrArg RegKey.temp (h _ _ hra)

/-- What later lowering keeps of a frame. -/
structure Frame.Grows (s s' : Frame) : Prop where
  session : s.session.Grows s'.session
  vars : s.vars <+: s'.vars
  temps : s.nextTemp ≤ s'.nextTemp
  numbered : s.Numbered → s'.Numbered

theorem Frame.Grows.refl (s : Frame) : s.Grows s := ⟨.refl _, List.prefix_rfl, Nat.le_refl _, id⟩

theorem Frame.Grows.trans {s₁ s₂ s₃ : Frame} (h : s₁.Grows s₂) (h' : s₂.Grows s₃) : s₁.Grows s₃ :=
  ⟨h.session.trans h'.session, h.vars.trans h'.vars, Nat.le_trans h.temps h'.temps,
    h'.numbered ∘ h.numbered⟩

namespace LowerM
variable {α β : Type} {s s' : Frame}

theorem bind_eq_ok_iff {x : LowerM α} {f : α → LowerM β} {b : β} :
    (x >>= f) s = .ok b s' ↔ ∃ a s₁, x s = .ok a s₁ ∧ f a s₁ = .ok b s' := by
  change EStateM.bind x f s = _ ↔ _
  unfold EStateM.bind
  cases x s with
  | ok a s₁ =>
    constructor
    · intro h
      exact ⟨a, s₁, rfl, h⟩
    · rintro ⟨_, _, hx, h⟩
      cases hx
      exact h
  | error e s₁ => simp

theorem map_eq_ok_iff {f : α → β} {x : LowerM α} {b : β} :
    (f <$> x) s = .ok b s' ↔ ∃ a, x s = .ok a s' ∧ f a = b := by
  change EStateM.map f x s = _ ↔ _
  unfold EStateM.map
  cases x s with
  | ok a s₁ =>
    constructor
    · intro h
      cases h
      exact ⟨a, rfl, rfl⟩
    · rintro ⟨_, hx, rfl⟩
      cases hx
      rfl
  | error e s₁ => simp

theorem pure_eq_ok_iff {a b : α} : (pure a : LowerM α) s = .ok b s' ↔ a = b ∧ s = s' := by
  change EStateM.pure a s = _ ↔ _
  simp [EStateM.pure]

theorem within_eq_ok_iff {c : Context} {act : LowerM α} {a : α} :
    within c act s = .ok a s' ↔ act s = .ok a s' := by
  unfold within
  cases act s with
  | ok b s₁ => simp
  | error e s₁ => simp

theorem fail_ne_ok {c : Cause} {a : α} : (fail c : LowerM α) s ≠ .ok a s' := by
  intro h
  cases h

theorem unsupported_ne_ok {text : Bytes} {a : α} : (unsupported text : LowerM α) s ≠ .ok a s' :=
  fun h => fail_ne_ok (within_eq_ok_iff.mp h)

theorem newTemp_eq_ok {w : Width} {t : Reg} (h : newTemp w s = .ok t s') :
    t = ⟨s.nextTemp, w, true, ""⟩ ∧ s' = { s with nextTemp := s.nextTemp + 1 } := by
  cases h
  exact ⟨rfl, rfl⟩

theorem newTemp_grows {w : Width} {t : Reg} (h : newTemp w s = .ok t s') : s.Grows s' := by
  obtain ⟨_, rfl⟩ := newTemp_eq_ok h
  exact ⟨.refl _, List.prefix_rfl, Nat.le_succ _, id⟩

theorem orTemp_eq_ok {dst : Option Reg} {w : Width} {d : Reg} (h : orTemp dst w s = .ok d s') :
    dst = some d ∧ s' = s ∨ dst = none ∧ newTemp w s = .ok d s' := by
  cases dst with
  | some r =>
    cases h
    exact .inl ⟨rfl, rfl⟩
  | none => exact .inr ⟨rfl, h⟩

theorem orTemp_grows {dst : Option Reg} {w : Width} {d : Reg} (h : orTemp dst w s = .ok d s') :
    s.Grows s' := by
  rcases orTemp_eq_ok h with ⟨_, rfl⟩ | ⟨_, ht⟩
  · exact .refl _
  · exact newTemp_grows ht

theorem newLabel_grows {base : String} {l : Label} (h : newLabel base s = .ok l s') :
    s.Grows s' := by
  cases h
  have hentries := Labels.entries_fresh s.session.labels
  exact ⟨⟨⟨_, (hentries _).symm⟩, List.prefix_rfl⟩, List.prefix_rfl, Nat.le_refl _, id⟩

theorem nextTemp_newLabel {base : String} {l : Label} (h : newLabel base s = .ok l s') :
    s'.nextTemp = s.nextTemp := by
  cases h
  rfl

theorem regOf_eq_ok {v : Var} {r : Reg} (h : regOf v s = .ok r s') :
    s'.vars.lookup v.id = some r ∧ s.Grows s' ∧ s'.nextTemp = s.nextTemp := by
  unfold regOf at h
  cases hv : s.vars.lookup v.id with
  | some r' =>
    rw [hv] at h
    cases h
    exact ⟨hv, .refl _, rfl⟩
  | none =>
    rw [hv] at h
    cases h
    refine ⟨?_, ⟨.refl _, List.prefix_append _ _, Nat.le_refl _, ?_⟩, rfl⟩
    · simp [List.lookup_append, hv]
    · intro hs i p hp
      rcases Nat.lt_or_ge i s.vars.length with hi | hi
      · rw [List.getElem?_append_left hi] at hp
        exact hs i p hp
      · rw [List.getElem?_append_right hi] at hp
        obtain ⟨hlt, rfl⟩ := List.getElem?_eq_some_iff.mp hp
        have hi' : i = s.vars.length := by
          simp only [List.length_singleton] at hlt
          omega
        subst hi'
        simp [Reg.key]

theorem vars_of_regOf {v : Var} {r : Reg} (hv : s.vars.lookup v.id = none)
    (h : regOf v s = .ok r s') :
    s'.vars = s.vars ++ [(v.id, r)] := by
  unfold regOf at h
  rw [hv] at h
  cases h
  rfl

theorem calleeOf_eq_ok {f : FuncRef} {v : Operand} (h : calleeOf f s = .ok v s') :
    ∃ l, v = .callee l f.ret ∧ s'.session.labels.interned? f.name = some l ∧ s.Grows s' ∧
      s'.nextTemp = s.nextTemp := by
  cases h
  exact ⟨_, rfl, Labels.interned?_intern _ _,
    ⟨⟨Labels.entries_intern _ _, List.prefix_rfl⟩, List.prefix_rfl, Nat.le_refl _, id⟩, rfl⟩

theorem dataOf_eq_ok {b : Bytes} {v : Operand} (h : dataOf b s = .ok v s') :
    ∃ i : Nat, v = .data 0 i ∧ s'.session.data.index? b = some i ∧ s.Grows s' ∧
      s'.nextTemp = s.nextTemp := by
  cases h
  exact ⟨_, rfl, Pool.index?_intern _ _,
    ⟨⟨List.prefix_rfl, Pool.strings_intern _ _⟩, List.prefix_rfl, Nat.le_refl _, id⟩, rfl⟩

end LowerM

/-- In the frame `s` the atom `e` is read as `v`. -/
inductive Reads (s : Frame) : Expr → Operand → Prop where
  | num (n : Int) (w : Width) : Reads s (.num n w) (.num n w)
  | var {v : Var} {r : Reg} : s.vars.lookup v.id = some r → Reads s (.var v) (.reg r)
  | str {b : Bytes} {i : Nat} : s.session.data.index? b = some i → Reads s (.str b) (.data 0 i)
  | funcRef {f : FuncRef} {l : Label} :
      s.session.labels.interned? f.name = some l → Reads s (.funcRef f) (.callee l f.ret)

theorem Reads.grows {s s' : Frame} {e : Expr} {v : Operand} (h : Reads s e v) (hs : s.Grows s') :
    Reads s' e v := by
  cases h with
  | num n w => exact .num n w
  | var hr => exact .var (hs.vars.lookup_eq_some hr)
  | str hi => exact .str (hs.session.index? hi)
  | funcRef hl => exact .funcRef (hs.session.interned? hl)

theorem reads_of_atom? {e : Expr} {act : LowerM Operand} {v : Operand} {s s' : Frame}
    (he : e.atom? = some act) (h : act s = .ok v s') :
    Reads s' e v ∧ s.Grows s' ∧ s'.nextTemp = s.nextTemp := by
  cases e with
  | num n w =>
    cases he
    cases h
    exact ⟨.num n w, .refl _, rfl⟩
  | var x =>
    cases he
    obtain ⟨r, hr, rfl⟩ := map_eq_ok_iff.mp h
    obtain ⟨hx, hs, ht⟩ := regOf_eq_ok hr
    exact ⟨.var hx, hs, ht⟩
  | str b =>
    cases he
    obtain ⟨i, rfl, hi, hs, ht⟩ := dataOf_eq_ok h
    exact ⟨.str hi, hs, ht⟩
  | funcRef f =>
    cases he
    obtain ⟨l, rfl, hl, hs, ht⟩ := calleeOf_eq_ok h
    exact ⟨.funcRef hl, hs, ht⟩
  | _ => cases he

end ThreeAddress
