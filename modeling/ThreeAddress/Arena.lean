import ThreeAddress.Basic

/-!
# The label arena and the string pool

A label is a handle into the arena of a program, which has its labels in the order of their
creation: their names, whether they are fresh, and a table by which interned labels are found again
by name. Fresh labels are new each time, also under a name that is already taken. The pool has the
constant byte strings of a program, each held once in the order of their first use, and a table of
their indices.

Both tables repeat what the lists say. `Labels` and `Pool` carry the proof that they do, so that
the entries alone say all there is (`Labels.intern_eq`, `Pool.intern_eq`).
-/

namespace ThreeAddress
set_option autoImplicit false

/-- Handles from the arena count from 0, but code may hold any number. -/
structure Label where
  handle : Int
deriving DecidableEq, Inhabited

def Label.text (l : Label) : Bytes := "L" ++ toString l.handle

structure LabelEntry where
  name : Bytes
  fresh : Bool
deriving DecidableEq, Inhabited

structure Arena where
  names : List Bytes
  temps : List Bool
  named : List (Bytes × Label)
deriving DecidableEq, Inhabited

namespace Arena

def empty : Arena := ⟨[], [], []⟩

def alloc (a : Arena) (name : Bytes) (temp : Bool) : Label × Arena :=
  (⟨a.names.length⟩, { a with names := a.names ++ [name], temps := a.temps ++ [temp] })

def fresh (a : Arena) (name : Bytes) : Label × Arena := a.alloc name true

/-- The interned label of that name, made if there is none. -/
def intern (a : Arena) (name : Bytes) : Label × Arena :=
  match a.named.lookup name with
  | some l => (l, a)
  | none =>
    let (l, a) := a.alloc name false
    (l, { a with named := a.named ++ [(name, l)] })

/-- A handle outside the arena is shown by its number. -/
def name (a : Arena) (l : Label) : Bytes :=
  if l.handle < 0 ∨ a.names.length ≤ l.handle then l.text else a.names.getD l.handle.toNat []

def isFresh (a : Arena) (l : Label) : Bool :=
  0 ≤ l.handle && l.handle < a.temps.length && a.temps.getD l.handle.toNat false

def entries (a : Arena) : List LabelEntry := (a.names.zip a.temps).map fun p => ⟨p.1, p.2⟩

/-- The interned labels among entries of which the first has number `i`, by their names. -/
def namedFrom (i : Nat) : List LabelEntry → List (Bytes × Label)
  | [] => []
  | e :: rest =>
    if e.fresh then namedFrom (i + 1) rest else (e.name, ⟨i⟩) :: namedFrom (i + 1) rest

theorem namedFrom_append (i : Nat) (es fs : List LabelEntry) :
    namedFrom i (es ++ fs) = namedFrom i es ++ namedFrom (i + es.length) fs := by
  induction es generalizing i with
  | nil => rfl
  | cons e es ih =>
    simp only [List.cons_append, namedFrom, ih, List.length_cons, Nat.add_assoc, Nat.add_comm 1]
    split <;> rfl

theorem lookup_namedFrom (i : Nat) (es : List LabelEntry) (name : Bytes) :
    (namedFrom i es).lookup name =
      (es.findIdx? fun e => !e.fresh && e.name == name).map fun j => ⟨(i + j : Nat)⟩ := by
  induction es generalizing i with
  | nil => rfl
  | cons e es ih =>
    have hnext : (namedFrom (i + 1) es).lookup name =
        ((es.findIdx? fun e => !e.fresh && e.name == name).map (· + 1)).map
          fun j => ⟨(i + j : Nat)⟩ := by
      rw [ih, Option.map_map]
      congr 1
      funext j
      rw [Function.comp_apply, Nat.add_assoc, Nat.add_comm 1 j]
    rw [List.findIdx?_cons, namedFrom]
    cases hfresh : e.fresh with
    | true => simpa using hnext
    | false =>
      by_cases hname : e.name = name
      · simp [hname]
      · have hne : (name == e.name) = false := by simpa using fun h => hname h.symm
        simpa [List.lookup_cons, hne, hname] using hnext

/-- The three parts speak of the same labels. -/
structure Agrees (a : Arena) : Prop where
  temps : a.temps.length = a.names.length
  named : a.named = namedFrom 0 a.entries

theorem agrees_empty : empty.Agrees := ⟨rfl, rfl⟩

section
variable {a : Arena}

theorem Agrees.length_entries (h : a.Agrees) : a.entries.length = a.names.length := by
  rw [entries, List.length_map, List.length_zip, h.temps, Nat.min_self]

theorem Agrees.names_eq (h : a.Agrees) : a.names = a.entries.map LabelEntry.name := by
  rw [entries, List.map_map]
  exact (List.map_fst_zip (Nat.le_of_eq h.temps.symm)).symm

theorem Agrees.temps_eq (h : a.Agrees) : a.temps = a.entries.map LabelEntry.fresh := by
  rw [entries, List.map_map]
  exact (List.map_snd_zip (Nat.le_of_eq h.temps)).symm

theorem Agrees.entries_alloc (h : a.Agrees) (name : Bytes) (temp : Bool) :
    (a.alloc name temp).2.entries = a.entries ++ [⟨name, temp⟩] := by
  rw [entries, alloc, List.zip_append h.temps.symm, List.map_append]
  rfl

theorem Agrees.fresh (h : a.Agrees) (name : Bytes) : (a.fresh name).2.Agrees where
  temps := by simp [Arena.fresh, alloc, h.temps]
  named := by
    rw [Arena.fresh, h.entries_alloc, namedFrom_append, ← h.named]
    exact (List.append_nil a.named).symm

theorem Agrees.intern (h : a.Agrees) (name : Bytes) : (a.intern name).2.Agrees := by
  unfold Arena.intern
  split
  · exact h
  · refine ⟨by simp [alloc, h.temps], ?_⟩
    change a.named ++ _ = namedFrom 0 (a.alloc name false).2.entries
    rw [h.entries_alloc, namedFrom_append, ← h.named, h.length_entries, Nat.zero_add]
    rfl

theorem Agrees.lookup_named (h : a.Agrees) (name : Bytes) : a.named.lookup name =
    (a.entries.findIdx? fun e => !e.fresh && e.name == name).map fun j : Nat => ⟨j⟩ := by
  rw [h.named, lookup_namedFrom]
  simp only [Nat.zero_add]

end

end Arena

structure Labels extends Arena where
  agrees : toArena.Agrees

namespace Labels

theorem toArena_injective {ls ls' : Labels} (h : ls.toArena = ls'.toArena) : ls = ls' := by
  cases ls
  cases ls'
  cases h
  rfl

instance : DecidableEq Labels := fun ls ls' =>
  decidable_of_iff (ls.toArena = ls'.toArena) ⟨toArena_injective, congrArg _⟩

def empty : Labels := ⟨.empty, Arena.agrees_empty⟩

instance : Inhabited Labels := ⟨empty⟩

def size (ls : Labels) : Nat := ls.names.length

def fresh (ls : Labels) (name : Bytes) : Label × Labels :=
  ((ls.toArena.fresh name).1, ⟨(ls.toArena.fresh name).2, ls.agrees.fresh name⟩)

def intern (ls : Labels) (name : Bytes) : Label × Labels :=
  ((ls.toArena.intern name).1, ⟨(ls.toArena.intern name).2, ls.agrees.intern name⟩)

theorem entries_injective {ls ls' : Labels} (h : ls.entries = ls'.entries) : ls = ls' := by
  obtain ⟨⟨names, temps, named⟩, hagrees⟩ := ls
  obtain ⟨⟨names', temps', named'⟩, hagrees'⟩ := ls'
  have hnames : names = names' :=
    hagrees.names_eq.trans ((congrArg _ h).trans hagrees'.names_eq.symm)
  have htemps : temps = temps' :=
    hagrees.temps_eq.trans ((congrArg _ h).trans hagrees'.temps_eq.symm)
  have hnamed : named = named' := hagrees.named.trans ((congrArg _ h).trans hagrees'.named.symm)
  cases hnames
  cases htemps
  cases hnamed
  rfl

theorem length_entries (ls : Labels) : ls.entries.length = ls.size := ls.agrees.length_entries

theorem zip_entries (es : List LabelEntry) :
    ((es.map LabelEntry.name).zip (es.map LabelEntry.fresh)).map (fun p => ⟨p.1, p.2⟩) = es := by
  rw [List.zip_map', List.map_map]
  exact List.map_id es

/-- The arena that was filled with these entries. -/
def ofEntries (es : List LabelEntry) : Labels where
  names := es.map LabelEntry.name
  temps := es.map LabelEntry.fresh
  named := Arena.namedFrom 0 es
  agrees := ⟨by simp, by rw [Arena.entries, zip_entries]⟩

theorem entries_ofEntries (es : List LabelEntry) : (ofEntries es).entries = es := zip_entries es

def push (ls : Labels) (e : LabelEntry) : Label × Labels :=
  (⟨ls.size⟩, ofEntries (ls.entries ++ [e]))

@[simp] theorem entries_push (ls : Labels) (e : LabelEntry) :
    (ls.push e).2.entries = ls.entries ++ [e] := entries_ofEntries _

@[simp] theorem size_empty : empty.size = 0 := rfl

@[simp] theorem size_push (ls : Labels) (e : LabelEntry) : (ls.push e).2.size = ls.size + 1 := by
  rw [← length_entries, entries_push, List.length_append, length_entries, List.length_singleton]

theorem fresh_eq (ls : Labels) (name : Bytes) : ls.fresh name = ls.push ⟨name, true⟩ := by
  refine Prod.ext rfl (entries_injective ?_)
  rw [entries_push]
  exact ls.agrees.entries_alloc name true

/-- An interned label is found by a search of the entries, and put at their end if it is new. -/
theorem intern_eq (ls : Labels) (name : Bytes) : ls.intern name =
    match ls.entries.findIdx? (fun e => !e.fresh && e.name == name) with
    | some i => (⟨i⟩, ls)
    | none => ls.push ⟨name, false⟩ := by
  have hlookup := ls.agrees.lookup_named name
  have hintern : (ls.intern name).1 = (ls.toArena.intern name).1 ∧
      (ls.intern name).2.toArena = (ls.toArena.intern name).2 := ⟨rfl, rfl⟩
  unfold Arena.intern at hintern
  cases h : ls.entries.findIdx? (fun e => !e.fresh && e.name == name) with
  | some i =>
    rw [h] at hlookup
    rw [hlookup] at hintern
    exact Prod.ext hintern.1 (toArena_injective hintern.2)
  | none =>
    rw [h] at hlookup
    rw [hlookup] at hintern
    refine Prod.ext hintern.1 (entries_injective ?_)
    rw [entries_push, hintern.2]
    exact ls.agrees.entries_alloc name false

def get? (ls : Labels) (l : Label) : Option LabelEntry :=
  if l.handle < 0 then none else ls.entries[l.handle.toNat]?

theorem name_eq (ls : Labels) (l : Label) :
    ls.name l = ((ls.get? l).map LabelEntry.name).getD l.text := by
  unfold get?
  by_cases hneg : l.handle < 0
  · rw [Arena.name, if_pos (.inl hneg), if_pos hneg]
    rfl
  · rw [if_neg hneg, ← List.getElem?_map, ← ls.agrees.names_eq, Arena.name]
    by_cases hlt : l.handle.toNat < ls.names.length
    · rw [if_neg (by omega), List.getD_eq_getElem?_getD, List.getElem?_eq_getElem hlt]
      rfl
    · rw [if_pos (by omega), List.getElem?_eq_none (by omega)]
      rfl

theorem isFresh_eq (ls : Labels) (l : Label) :
    ls.isFresh l = ((ls.get? l).map LabelEntry.fresh).getD false := by
  unfold get? Arena.isFresh
  by_cases hneg : l.handle < 0
  · rw [if_pos hneg, decide_eq_false (by omega)]
    rfl
  · rw [if_neg hneg, ← List.getElem?_map, ← ls.agrees.temps_eq, List.getD_eq_getElem?_getD]
    by_cases hlt : l.handle.toNat < ls.temps.length
    · rw [decide_eq_true (by omega), decide_eq_true (by omega), Bool.true_and, Bool.true_and]
    · rw [List.getElem?_eq_none (by omega), Option.getD_none, Bool.and_false]

theorem get?_push_self (ls : Labels) (e : LabelEntry) :
    (ls.push e).2.get? (ls.push e).1 = some e := by
  rw [get?, entries_push, push, if_neg (by simp), Int.toNat_natCast, ← length_entries]
  exact List.getElem?_concat_length

theorem get?_intern (ls : Labels) (name : Bytes) :
    (ls.intern name).2.get? (ls.intern name).1 = some ⟨name, false⟩ := by
  rw [intern_eq]
  cases h : ls.entries.findIdx? (fun e => !e.fresh && e.name == name) with
  | some i =>
    obtain ⟨hi, hp, _⟩ := List.findIdx?_eq_some_iff_getElem.mp h
    obtain ⟨hf, hn⟩ := Bool.and_eq_true_iff.mp hp
    have hf' : ls.entries[i].fresh = false := by simpa using hf
    have he : ls.entries[i] = ⟨name, false⟩ := by rw [← eq_of_beq hn, ← hf']
    rw [get?, if_neg (by simp), Int.toNat_natCast, List.getElem?_eq_getElem hi, he]
  | none => exact get?_push_self ls _

end Labels

theorem lookup_zipIdx {α : Type} [BEq α] [LawfulBEq α] (l : List α) (i : Nat) (a : α) :
    (l.zipIdx i).lookup a = (l.idxOf? a).map (i + ·) := by
  induction l generalizing i with
  | nil => rfl
  | cons b l ih =>
    rw [List.zipIdx_cons, List.idxOf?_cons, List.lookup_cons]
    by_cases h : b = a
    · simp [h]
    · have hne : (a == b) = false := by simpa using fun heq => h heq.symm
      have hnext : (i + 1 + ·) = (i + ·) ∘ (· + 1) := by
        funext j
        rw [Function.comp_apply, Nat.add_assoc, Nat.add_comm 1 j]
      rw [hne, ih, if_neg (by simpa using h), Option.map_map, hnext]

structure Pool where
  strings : List Bytes
  index : List (Bytes × Nat)
  agrees : index = strings.zipIdx

namespace Pool

theorem strings_injective {p q : Pool} (h : p.strings = q.strings) : p = q := by
  obtain ⟨strings, index, hagrees⟩ := p
  obtain ⟨strings', index', hagrees'⟩ := q
  cases h
  cases hagrees
  cases hagrees'
  rfl

instance : DecidableEq Pool := fun p q =>
  decidable_of_iff (p.strings = q.strings) ⟨strings_injective, congrArg _⟩

def empty : Pool := ⟨[], [], rfl⟩

instance : Inhabited Pool := ⟨empty⟩

def size (p : Pool) : Nat := p.strings.length

/-- The index of `s`, which is added at the end if it is new. -/
def intern (p : Pool) (s : Bytes) : Nat × Pool :=
  match p.index.lookup s with
  | some i => (i, p)
  | none =>
    let i := p.strings.length
    (i, ⟨p.strings ++ [s], p.index ++ [(s, i)], by
      rw [p.agrees, List.zipIdx_append, Nat.zero_add]
      rfl⟩)

def ofStrings (strings : List Bytes) : Pool := ⟨strings, strings.zipIdx, rfl⟩

theorem intern_eq (p : Pool) (s : Bytes) : p.intern s =
    match p.strings.idxOf? s with
    | some i => (i, p)
    | none => (p.size, ofStrings (p.strings ++ [s])) := by
  have hlookup : p.index.lookup s = p.strings.idxOf? s := by
    rw [p.agrees, lookup_zipIdx]
    simp
  unfold intern
  rw [hlookup]
  cases p.strings.idxOf? s with
  | some i => rfl
  | none => exact Prod.ext rfl (strings_injective rfl)

@[simp] theorem size_empty : empty.size = 0 := rfl

theorem getElem?_intern (p : Pool) (s : Bytes) :
    (p.intern s).2.strings[(p.intern s).1]? = some s := by
  rw [intern_eq]
  cases h : p.strings.idxOf? s with
  | some i =>
    obtain ⟨hi, hs, _⟩ := List.findIdx?_eq_some_iff_getElem.mp h
    rw [List.getElem?_eq_getElem hi, eq_of_beq hs]
  | none => exact List.getElem?_concat_length

end Pool

end ThreeAddress
