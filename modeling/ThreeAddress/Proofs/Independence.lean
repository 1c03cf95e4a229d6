import ThreeAddress.Proofs.Calls
import ThreeAddress.Sample

/-!
# Functions are lowered independently of each other

A function that is lowered after others is what it is when it is lowered alone, up to the handles of
labels and the indices of strings (`Program.lower_independent`). The session it is lowered in alone
is embedded in the session that others have been lowered in: `Session.Embeds` lists the labels and
strings that stand for those of the smaller one, and lowering goes on in both sessions side by side.
-/

namespace ThreeAddress
set_option autoImplicit false

/-- How labels and strings of one program are found in another: new labels as any new labels, a
label that stands for a name as the one that stands for it, a string as itself. -/
structure Relinking (q p : Program) where
  label : Label → Label
  string : Int → Int
  label_injective : Function.Injective label
  fresh {l : Label} {name : Bytes} : q.labels.get? l = some ⟨name, true⟩ →
    ∃ name', p.labels.get? (label l) = some ⟨name', true⟩
  named {l : Label} {name : Bytes} : q.labels.get? l = some ⟨name, false⟩ →
    p.labels.get? (label l) = some ⟨name, false⟩
  pooled {n : Nat} {b : Bytes} : q.data.strings[n]? = some b → ∃ m : Nat, string n = m ∧
    p.data.strings[m]? = some b

section
variable {q p : Program} (ρ : Relinking q p)

def Operand.relink : Operand → Operand
  | .data segment i => .data segment (ρ.string i)
  | .label l => .label (ρ.label l)
  | .callee l w => .callee (ρ.label l) w
  | a => a

def Instr.relink (x : Instr) : Instr := ⟨x.op, x.args.map (Option.map (Operand.relink ρ))⟩

def Func.relink (f : Func) : Func := { f with code := f.code.map (Instr.relink ρ) }

end

/-- The operand refers to labels and strings that the program has. -/
def Operand.KnownTo (p : Program) : Operand → Prop
  | .data _ i => ∃ n : Nat, i = n ∧ n < p.data.size
  | .label l | .callee l _ => (p.labels.get? l).isSome
  | _ => True

/-- What became of the function in `p` is what becomes of it in a program `q` of its own, with the
failure of that. -/
inductive Call.SameAlone (p : Program) (k : Call) (q : Program) (err : Option Failure) : Prop where
  | error {e e' : Error} : k.result = .error e → q.funcs = [] →
      err = some (.funcs [⟨k.decl.header.name, e'⟩]) → e.cause = e'.cause → SameAlone p k q err
  | func {f g : Func} (ρ : Relinking q p) : k.result = .ok f → q.funcs = [g] → err = none →
      (∀ x ∈ g.code, ∀ a, some a ∈ x.args → a.KnownTo q) → f = g.relink ρ → SameAlone p k q err

theorem exists_getElem?_of_forall₂ {α β : Type} {R : α → β → Prop} {as : List α} {bs : List β}
    (h : List.Forall₂ R as bs) {n : Nat} {a : α} (ha : as[n]? = some a) :
    ∃ b, bs[n]? = some b ∧ R a b := by
  induction h generalizing n with
  | nil => cases ha
  | cons hab _ ih =>
    cases n with
    | zero =>
      cases ha
      exact ⟨_, rfl, hab⟩
    | succ n => exact ih ha

theorem exists_mem_of_forall₂ {α β : Type} {R : α → β → Prop} {as : List α} {bs : List β}
    (h : List.Forall₂ R as bs) {b : β} (hb : b ∈ bs) : ∃ a ∈ as, R a b := by
  obtain ⟨n, hn⟩ := List.mem_iff_getElem?.mp hb
  obtain ⟨a, ha, hab⟩ := exists_getElem?_of_forall₂ h.flip hn
  exact ⟨a, List.mem_of_getElem? ha, hab⟩

theorem eq_map_of_forall₂ {α β : Type} {P : α → Prop} {f : α → β} {as : List α} {bs : List β}
    (h : List.Forall₂ (fun a b => P a ∧ b = f a) as bs) : (∀ a ∈ as, P a) ∧ bs = as.map f := by
  induction h with
  | nil => exact ⟨List.forall_mem_nil _, rfl⟩
  | cons hab _ ih =>
    exact ⟨List.forall_mem_cons.mpr ⟨hab.1, ih.1⟩, by rw [hab.2, ih.2, List.map_cons]⟩

theorem Labels.interned?_isSome_of_mem {ls : Labels} {name : Bytes}
    (h : ⟨name, false⟩ ∈ ls.entries) :
    (ls.interned? name).isSome := by
  unfold interned?
  rw [Option.isSome_map, List.findIdx?_isSome, List.any_eq_true]
  exact ⟨_, h, by simp⟩

namespace Session

/-- In the session `t` the label stands for what the entry says of it. -/
inductive Stands (t : Session) : LabelEntry → Label → Prop where
  | fresh {name name' : Bytes} {l : Label} : t.labels.get? l = some ⟨name', true⟩ →
      Stands t ⟨name, true⟩ l
  | named {name : Bytes} {l : Label} : t.labels.interned? name = some l → Stands t ⟨name, false⟩ l

/-- For each label of `s` there is one of `t`, in `φ`, and for each string its index in `t`, in
`δ`. -/
structure Embeds (φ : List Label) (δ : List Nat) (s t : Session) : Prop where
  labels : List.Forall₂ t.Stands s.labels.entries φ
  nodup : φ.Nodup
  strings : List.Forall₂ (fun b j => t.data.index? b = some j) s.data.strings δ

end Session

/-- The links of an embedding. -/
def Links.ofLists (φ : List Label) (δ : List Nat) : Links where
  label l m := ∃ n : Nat, l = ⟨n⟩ ∧ φ[n]? = some m
  string i j := ∃ n m : Nat, i = n ∧ j = m ∧ δ[n]? = some m

theorem Links.ofLists_mono {φ φ' : List Label} {δ δ' : List Nat} (hφ : φ <+: φ') (hδ : δ <+: δ') :
    ofLists φ δ ≤ ofLists φ' δ' where
  label := by
    rintro l m ⟨n, rfl, hn⟩
    exact ⟨n, rfl, getElem?_of_prefix hφ hn⟩
  string := by
    rintro i j ⟨n, m, rfl, rfl, hn⟩
    exact ⟨n, m, rfl, rfl, getElem?_of_prefix hδ hn⟩

namespace Session
variable {φ : List Label} {δ : List Nat} {s t t' : Session} {e : LabelEntry} {l : Label}

theorem Stands.grows (h : t.Stands e l) (ht : t.Grows t') : t'.Stands e l := by
  cases h with
  | fresh hget => exact .fresh (Labels.get?_of_prefix ht.labels hget)
  | named hl => exact .named (ht.interned? hl)

theorem Stands.handle (h : t.Stands e l) : 0 ≤ l.handle ∧ l.handle < t.labels.size := by
  cases h with
  | fresh hget => exact Labels.handle_of_get? hget
  | named hl => exact Labels.handle_of_get? (Labels.get?_of_interned? hl)

theorem Stands.eq_named {name : Bytes} (h : t.Stands e l)
    (hl : t.labels.get? l = some ⟨name, false⟩) : e = ⟨name, false⟩ := by
  cases h with
  | fresh hget =>
    rw [hget] at hl
    cases hl
  | named hl' =>
    rw [Labels.get?_of_interned? hl'] at hl
    cases hl
    rfl

theorem embeds_empty (t : Session) : Session.empty.Embeds [] [] t := ⟨.nil, .nil, .nil⟩

theorem Embeds.grows (h : s.Embeds φ δ t) (ht : t.Grows t') : s.Embeds φ δ t' :=
  ⟨h.labels.imp fun _ _ hl => hl.grows ht, h.nodup, h.strings.imp fun _ _ hi => ht.index? hi⟩

theorem Embeds.size_labels (h : s.Embeds φ δ t) : s.labels.size = φ.length := by
  rw [← Labels.length_entries, h.labels.length_eq]

theorem Embeds.handle (h : s.Embeds φ δ t) (hl : l ∈ φ) :
    0 ≤ l.handle ∧ l.handle < t.labels.size := by
  obtain ⟨e, _, hel⟩ := exists_mem_of_forall₂ h.labels hl
  exact hel.handle

theorem Embeds.concat (h : s.Embeds φ δ t) (hel : t.Stands e l) (hl : l ∉ φ) (n : Nat) :
    Embeds (φ ++ [l]) δ { s with labels := (s.labels.push e).2, nextSuffix := n } t where
  labels := by
    have hentries : ({ s with labels := (s.labels.push e).2, nextSuffix := n } :
        Session).labels.entries = s.labels.entries ++ [e] := s.labels.entries_push e
    rw [hentries]
    exact List.rel_append h.labels (.cons hel .nil)
  nodup := by
    rw [← List.concat_eq_append]
    exact h.nodup.concat hl
  strings := h.strings

theorem Embeds.addLabel (h : s.Embeds φ δ t) (base : String) :
    Embeds (φ ++ [⟨t.labels.size⟩]) δ (s.addLabel base) (t.addLabel base) := by
  have hgrows : t.Grows (t.addLabel base) := (closed_grows t).addLabel (.refl t) base
  have hnew :
      (t.addLabel base).labels.get? ⟨t.labels.size⟩ = some ⟨labelName base t.nextSuffix, true⟩ := by
    rw [addLabel_eq]
    exact Labels.get?_push_self _ _
  rw [addLabel_eq base s]
  apply (h.grows hgrows).concat (.fresh hnew)
  intro hmem
  have hlt := (h.handle hmem).2
  simp at hlt

theorem Embeds.interned? (h : s.Embeds φ δ t) {name : Bytes}
    (hl : s.labels.interned? name = some l) :
    ∃ m, t.labels.interned? name = some m ∧ (Links.ofLists φ δ).label l m := by
  obtain ⟨n, rfl, hn⟩ := Labels.get?_eq_some_iff.mp (Labels.get?_of_interned? hl)
  obtain ⟨m, hm, hstands⟩ := exists_getElem?_of_forall₂ h.labels hn
  cases hstands with
  | named hname => exact ⟨m, hname, n, rfl, hm⟩

theorem Embeds.addName (h : s.Embeds φ δ t) {name : Bytes} (hnew : s.labels.interned? name = none) :
    Embeds (φ ++ [(t.labels.intern name).1]) δ (s.addName name) (t.addName name) := by
  have hgrows : t.Grows (t.addName name) := (closed_grows t).addName (.refl t) name
  have hname : (t.addName name).labels.interned? name = some (t.labels.intern name).1 :=
    Labels.interned?_intern _ _
  have hs : s.addName name =
      { s with labels := (s.labels.push ⟨name, false⟩).2, nextSuffix := s.nextSuffix } := by
    unfold Session.addName
    rw [Labels.intern_of_new hnew]
  rw [hs]
  apply (h.grows hgrows).concat (.named hname)
  intro hmem
  obtain ⟨e, he, hel⟩ := exists_mem_of_forall₂ (h.grows hgrows).labels hmem
  cases hel.eq_named (Labels.get?_of_interned? hname)
  have hsome := Labels.interned?_isSome_of_mem he
  rw [hnew] at hsome
  cases hsome

theorem Embeds.index? (h : s.Embeds φ δ t) {b : Bytes} {i : Nat} (hi : s.data.index? b = some i) :
    ∃ j : Nat, t.data.index? b = some j ∧ (Links.ofLists φ δ).string i j := by
  obtain ⟨j, hj, hb⟩ := exists_getElem?_of_forall₂ h.strings (Pool.getElem?_of_index? hi)
  exact ⟨j, hb, i, j, rfl, rfl, hj⟩

theorem Embeds.addString (h : s.Embeds φ δ t) {b : Bytes} (hnew : s.data.index? b = none) :
    Embeds φ (δ ++ [(t.data.intern b).1]) (s.addString b) (t.addString b) := by
  have hgrows : t.Grows (t.addString b) := (closed_grows t).addString (.refl t) b
  have hs : s.addString b = { s with data := .ofStrings (s.data.strings ++ [b]) } := by
    unfold Session.addString
    rw [Pool.intern_of_new hnew]
  obtain ⟨hlabels, hnodup, hstrings⟩ := h.grows hgrows
  rw [hs]
  exact ⟨hlabels, hnodup, List.rel_append hstrings (.cons (Pool.index?_intern _ _) .nil)⟩

theorem coupling_embeds : Coupling fun R s t => ∃ φ δ, R = Links.ofLists φ δ ∧ s.Embeds φ δ t where
  addLabel := by
    rintro _ s t ⟨φ, δ, rfl, h⟩ base
    refine ⟨_, Links.ofLists_mono (List.prefix_append φ _) List.prefix_rfl, ?_, _, δ, rfl,
      h.addLabel base⟩
    refine ⟨s.labels.size, rfl, ?_⟩
    rw [h.size_labels]
    exact List.getElem?_concat_length
  addName := by
    rintro _ s t ⟨φ, δ, rfl, h⟩ name
    cases hs : s.labels.interned? name with
    | some l =>
      obtain ⟨m, hm, hlm⟩ := h.interned? hs
      unfold Session.addName
      rw [Labels.intern_of_interned? hs, Labels.intern_of_interned? hm]
      exact ⟨_, le_rfl, hlm, φ, δ, rfl, h⟩
    | none =>
      refine ⟨_, Links.ofLists_mono (List.prefix_append φ _) List.prefix_rfl, ?_, _, δ,
        rfl, h.addName hs⟩
      rw [Labels.intern_of_new hs]
      refine ⟨s.labels.size, rfl, ?_⟩
      rw [h.size_labels]
      exact List.getElem?_concat_length
  addString := by
    rintro _ s t ⟨φ, δ, rfl, h⟩ b
    cases hs : s.data.index? b with
    | some i =>
      obtain ⟨j, hj, hij⟩ := h.index? hs
      unfold Session.addString
      rw [Pool.intern_of_index? hs, Pool.intern_of_index? hj]
      exact ⟨_, le_rfl, hij, φ, δ, rfl, h⟩
    | none =>
      refine ⟨_, Links.ofLists_mono List.prefix_rfl (List.prefix_append δ _), ?_, φ, _, rfl,
        h.addString hs⟩
      rw [Pool.intern_of_new hs]
      refine ⟨s.data.size, _, rfl, rfl, ?_⟩
      rw [Pool.size, h.strings.length_eq]
      exact List.getElem?_concat_length

end Session

/-- The label that `φ` has for a handle. Handles that no label has go where no other label goes. -/
def Label.through (φ : List Label) (size : Nat) (l : Label) : Label :=
  if l.handle < 0 then l else φ[l.handle.toNat]?.getD ⟨l.handle + size⟩

theorem Label.through_eq {φ : List Label} {n : Nat} {m : Label} (size : Nat) (h : φ[n]? = some m) :
    through φ size ⟨n⟩ = m := by
  simp [through, h]

theorem Label.through_cases {φ : List Label} {size : Nat}
    (hφ : ∀ l ∈ φ, 0 ≤ l.handle ∧ l.handle < size) (l : Label) :
    (through φ size l).handle < 0 ∧ l = through φ size l ∨
    (0 ≤ (through φ size l).handle ∧ (through φ size l).handle < size) ∧
      (∃ n : Nat, l = ⟨n⟩ ∧ φ[n]? = some (through φ size l)) ∨
      size ≤ (through φ size l).handle ∧ l.handle = (through φ size l).handle - size := by
  unfold through
  by_cases hl : l.handle < 0
  · rw [if_pos hl]
    exact .inl ⟨hl, rfl⟩
  · rw [if_neg hl]
    cases hn : φ[l.handle.toNat]? with
    | none =>
      simp only [Option.getD_none]
      exact .inr (.inr ⟨by omega, by omega⟩)
    | some m =>
      exact .inr
        (.inl ⟨hφ m (List.mem_of_getElem? hn), l.handle.toNat, congrArg Label.mk (by omega), hn⟩)

theorem Label.through_injective {φ : List Label} {size : Nat} (hnodup : φ.Nodup)
    (hφ : ∀ l ∈ φ, 0 ≤ l.handle ∧ l.handle < size) : Function.Injective (through φ size) := by
  intro l l' heq
  have hl := through_cases hφ l
  have hl' := through_cases hφ l'
  rw [← heq] at hl'
  rcases hl with ⟨_, hl⟩ | ⟨_, n, rfl, hn⟩ | ⟨_, hl⟩
  · rcases hl' with ⟨_, hl'⟩ | ⟨_, _⟩ | ⟨_, _⟩
    · rw [hl, ← hl']
    · omega
    · omega
  · rcases hl' with ⟨_, _⟩ | ⟨_, n', rfl, hn'⟩ | ⟨_, _⟩
    · omega
    · have hlen := (List.getElem?_eq_some_iff.mp hn).1
      rw [(List.getElem?_inj hlen hnodup).mp (hn.trans hn'.symm)]
    · omega
  · rcases hl' with ⟨_, _⟩ | ⟨_, _⟩ | ⟨_, hl'⟩
    · omega
    · omega
    · exact congrArg Label.mk (hl.trans hl'.symm)

namespace Session.Embeds
variable {φ : List Label} {δ : List Nat} {s t : Session} (h : s.Embeds φ δ t) (gs fs : List Func)

/-- The labels and strings of an embedded session in programs that have come out of both. -/
def relinking : Relinking ⟨s.labels, s.data, gs⟩ ⟨t.labels, t.data, fs⟩ where
  label := Label.through φ t.labels.size
  string i := (δ[i.toNat]?.getD 0 : Nat)
  label_injective := Label.through_injective h.nodup fun _ hl => h.handle hl
  fresh hl := by
    obtain ⟨n, rfl, hn⟩ := Labels.get?_eq_some_iff.mp hl
    obtain ⟨m, hm, hstands⟩ := exists_getElem?_of_forall₂ h.labels hn
    rw [Label.through_eq _ hm]
    cases hstands with
    | fresh hget => exact ⟨_, hget⟩
  named hl := by
    obtain ⟨n, rfl, hn⟩ := Labels.get?_eq_some_iff.mp hl
    obtain ⟨m, hm, hstands⟩ := exists_getElem?_of_forall₂ h.labels hn
    rw [Label.through_eq _ hm]
    cases hstands with
    | named hname => exact Labels.get?_of_interned? hname
  pooled {n b} hn := by
    obtain ⟨j, hj, hb⟩ := exists_getElem?_of_forall₂ h.strings hn
    exact ⟨j, by simp [hj], Pool.getElem?_of_index? hb⟩

theorem operand_of_linked {a b : Operand} (hab : a.Linked (Links.ofLists φ δ) b) :
    a.KnownTo ⟨s.labels, s.data, gs⟩ ∧ b = a.relink (h.relinking gs fs) := by
  have hlabel {l m : Label} (hlm : (Links.ofLists φ δ).label l m) :
      (s.labels.get? l).isSome ∧ m = (h.relinking gs fs).label l := by
    obtain ⟨n, rfl, hm⟩ := hlm
    obtain ⟨e, he, _⟩ := exists_getElem?_of_forall₂ h.labels.flip hm
    have hget : s.labels.get? ⟨n⟩ = some e := Labels.get?_eq_some_iff.mpr ⟨n, rfl, he⟩
    exact ⟨by rw [hget]; rfl, (Label.through_eq _ hm).symm⟩
  cases hab with
  | label hlm =>
    obtain ⟨hl, rfl⟩ := hlabel hlm
    exact ⟨hl, rfl⟩
  | callee w hlm =>
    obtain ⟨hl, rfl⟩ := hlabel hlm
    exact ⟨hl, rfl⟩
  | data segment hij =>
    obtain ⟨n, m, rfl, rfl, hm⟩ := hij
    have hlt := (List.getElem?_eq_some_iff.mp hm).1
    rw [← h.strings.length_eq] at hlt
    refine ⟨⟨n, rfl, hlt⟩, ?_⟩
    simp [Operand.relink, relinking, hm]
  | num | reg | origin | nothing => exact ⟨trivial, rfl⟩

theorem instr_of_linked {x y : Instr} (hxy : x.Linked (Links.ofLists φ δ) y) :
    (∀ a, some a ∈ x.args → a.KnownTo ⟨s.labels, s.data, gs⟩) ∧
      y = x.relink (h.relinking gs fs) := by
  obtain ⟨op, as⟩ := x
  obtain ⟨op', bs⟩ := y
  obtain ⟨hop, hargs⟩ := hxy
  simp only at hop hargs
  subst hop
  have hboth : List.Forall₂ (fun x y => (∀ a, x = some a → a.KnownTo ⟨s.labels, s.data, gs⟩) ∧
      y = Option.map (Operand.relink (h.relinking gs fs)) x) as bs := by
    apply hargs.imp
    intro x y hxy
    cases hxy with
    | none => simp
    | some hab =>
      obtain ⟨ha, rfl⟩ := h.operand_of_linked gs fs hab
      simp [ha]
  obtain ⟨hknown, rfl⟩ := eq_map_of_forall₂ hboth
  exact ⟨fun a ha => hknown _ ha a rfl, rfl⟩

theorem func_of_linked {g f : Func} (hgf : g.Linked (Links.ofLists φ δ) f) :
    (∀ x ∈ g.code, ∀ a, some a ∈ x.args → a.KnownTo ⟨s.labels, s.data, gs⟩) ∧
      f = g.relink (h.relinking gs fs) := by
  obtain ⟨name, ret, params, code⟩ := g
  obtain ⟨name', ret', params', code'⟩ := f
  obtain ⟨hname, hret, hparams, hcode⟩ := hgf
  simp only at hname hret hparams hcode
  subst hname hret hparams
  obtain ⟨hknown, rfl⟩ := eq_map_of_forall₂ (hcode.imp fun _ _ hxy => h.instr_of_linked gs fs hxy)
  exact ⟨hknown, rfl⟩

end Session.Embeds

namespace Session

/-- A function is lowered in any session as it is lowered in a new one. -/
theorem lowerFunc_alone (t : Session) (d : Decl) :
    (∃ e, Session.empty.lowerFunc d = .error e ∧ t.lowerFunc d = .error e) ∨
      ∃ r r' s' t' φ δ, Session.empty.lowerFunc d = .ok (r, s') ∧ t.lowerFunc d = .ok (r', t') ∧
        s'.Embeds φ δ t' ∧
        Outcome.Linked (Links.ofLists φ δ) r r' := by
  rcases lowerFunc_parallel coupling_embeds ⟨[], [], rfl, embeds_empty t⟩ d with
    he | ⟨_, r, r', s', t', _, ⟨φ, δ, rfl, hembeds⟩, hs, ht, hlinked⟩
  · exact .inl he
  · exact .inr ⟨r, r', s', t', φ, δ, hs, ht, hembeds, hlinked⟩

theorem exists_calls {ds : List Decl} (h : ∀ d ∈ ds, ∃ r s, Session.empty.lowerFunc d = .ok (r, s))
    (t : Session) :
    ∃ calls t', t.Calls calls t' ∧ ds = calls.map Call.decl := by
  induction ds generalizing t with
  | nil => exact ⟨[], t, .nil t, rfl⟩
  | cons d ds ih =>
    obtain ⟨⟨r, s, hs⟩, hds⟩ := List.forall_mem_cons.mp h
    rcases lowerFunc_alone t d with ⟨e, he, _⟩ | ⟨_, r', _, t₁, _, _, _, ht, _, _⟩
    · rw [hs] at he
      cases he
    · obtain ⟨calls, t', hcalls, hdecls⟩ := ih hds t₁
      exact ⟨_, t', .cons ht hcalls, by rw [List.map_cons, ← hdecls]⟩

end Session

namespace Program

theorem lower_singleton {d : Decl} {r : Except Error Func} {s : Session}
    (h : Session.empty.lowerFunc d = .ok (r, s)) :
    Program.lower [some d] =
      .ok (⟨s.labels, s.data, [(⟨.empty, d, r, s⟩ : Call)].filterMap Call.func?⟩,
      Report.err ([(⟨.empty, d, r, s⟩ : Call)].filterMap Call.failure?)) :=
  lower_eq_ok_iff.mpr ⟨_, s, .cons h (.nil s), rfl, rfl, rfl⟩

theorem exists_lower_singleton_iff {x : Option Decl} : (∃ q err, Program.lower [x] = .ok (q, err)) ↔
    ∃ d, x = some d ∧ ∃ r s, Session.empty.lowerFunc d = .ok (r, s) := by
  constructor
  · rintro ⟨q, err, h⟩
    obtain ⟨calls, s, hcalls, hfile, _⟩ := lower_eq_ok_iff.mp h
    cases hcalls with
    | nil => cases hfile
    | cons hcall _ => exact ⟨_, (List.cons.inj hfile).1, _, _, hcall⟩
  · rintro ⟨d, rfl, r, s, h⟩
    exact ⟨_, _, lower_singleton h⟩

/-- A tree is lowered if and only if each of its functions is, alone. -/
theorem exists_lower_iff {file : File} : (∃ p err, Program.lower file = .ok (p, err)) ↔
    ∀ x ∈ file, ∃ q err, Program.lower [x] = .ok (q, err) := by
  constructor
  · rintro ⟨p, err, h⟩ x hx
    obtain ⟨calls, s, hcalls, rfl, _⟩ := lower_eq_ok_iff.mp h
    obtain ⟨k, hk, rfl⟩ := List.mem_map.mp hx
    rcases Session.lowerFunc_alone k.before k.decl with ⟨e, _, he⟩ | ⟨r, _, s', _, _, _, hs, _⟩
    · rw [(hcalls.of_mem hk).1] at he
      cases he
    · exact exists_lower_singleton_iff.mpr ⟨_, rfl, r, s', hs⟩
  · intro h
    have hdecls : ∃ ds : List Decl, file = ds.map some ∧
        ∀ d ∈ ds, ∃ r s, Session.empty.lowerFunc d = .ok (r, s) := by
      induction file with
      | nil => exact ⟨[], rfl, List.forall_mem_nil _⟩
      | cons x file ih =>
        obtain ⟨hx, hfile⟩ := List.forall_mem_cons.mp h
        obtain ⟨d, rfl, hd⟩ := exists_lower_singleton_iff.mp hx
        obtain ⟨ds, rfl, hds⟩ := ih hfile
        exact ⟨d :: ds, rfl, List.forall_mem_cons.mpr ⟨hd, hds⟩⟩
    obtain ⟨ds, rfl, hds⟩ := hdecls
    obtain ⟨calls, s, hcalls, rfl⟩ := Session.exists_calls hds .empty
    exact ⟨_, _, lower_eq_ok_iff.mpr ⟨calls, s, hcalls, by rw [List.map_map]; rfl, rfl, rfl⟩⟩

end Program

theorem Session.Calls.sameAlone {t t' : Session} {calls : List Call} {k : Call}
    (h : t.Calls calls t') (hk : k ∈ calls) (fs : List Func) :
    ∃ q err, Program.lower [some k.decl] = .ok (q, err) ∧
        k.SameAlone ⟨t'.labels, t'.data, fs⟩ q err := by
  obtain ⟨hlower, _, hgrows⟩ := h.of_mem hk
  rcases lowerFunc_alone k.before k.decl with ⟨e, _, he⟩ |
    ⟨r, r', s', u, φ, δ, hs, ht, hembeds, hlinked⟩
  · rw [hlower] at he
    cases he
  · obtain ⟨hr, hu⟩ := Prod.mk.inj (Except.ok.inj (hlower.symm.trans ht))
    have hafter : s'.Embeds φ δ t' := (hu.symm ▸ hembeds).grows hgrows
    refine ⟨_, _, Program.lower_singleton hs, ?_⟩
    cases hlinked with
    | error herror => exact .error hr rfl rfl herror.cause.symm
    | func hgf =>
      obtain ⟨hknown, hf⟩ := hafter.func_of_linked _ fs hgf
      exact .func (hafter.relinking _ fs) hr rfl rfl hknown hf

/-- Lowering a tree is lowering its functions, each for itself. A tree can be lowered if its
functions can be lowered alone, and then each of them fails or succeeds, and fails of the same
cause, as it does alone; the functions that succeed have the same code up to the handles of labels
and the indices of strings. -/
theorem Program.lower_independent (file : File) :
    ((∃ p err, Program.lower file = .ok (p, err)) ↔
        ∀ x ∈ file, ∃ q err, Program.lower [x] = .ok (q, err)) ∧
    ∀ p err, Program.lower file = .ok (p, err) → ∃ calls s, Session.empty.Calls calls s ∧
      file = calls.map (fun k => some k.decl) ∧ p = ⟨s.labels, s.data, calls.filterMap Call.func?⟩ ∧
      err = Report.err (calls.filterMap Call.failure?) ∧
      ∀ k ∈ calls, ∃ q err', Program.lower [some k.decl] = .ok (q, err') ∧
        k.SameAlone p q err' := by
  refine ⟨exists_lower_iff, ?_⟩
  intro p err h
  obtain ⟨calls, s, hcalls, hfile, rfl, hreport⟩ := lower_eq_ok_iff.mp h
  exact ⟨calls, s, hcalls, hfile, rfl, hreport, fun k hk => hcalls.sameAlone hk _⟩

/-- Makes labels and a string before it fails. -/
def Decl.lost : Decl :=
  Sample.decl "lost" .void [] [.whileLoop (.str [104]) (.block []), .breakLoop]

def Decl.greet : Decl :=
  Sample.decl "greet" .void []
    [.whileLoop (.call (some ⟨"put", .i32, [.ptr]⟩) [.str [104, 105]]) (.block [])]

theorem Program.lower_independent_greet : ∃ p e f,
    Program.lower [some .lost, some .greet] = .ok (p, some (.funcs [e])) ∧ p.funcs = [f] ∧
    ∃ calls : List Call, calls.length = 2 ∧
      ∀ k ∈ calls, ∃ q err, Program.lower [some k.decl] = .ok (q, err) ∧ k.SameAlone p q err := by
  obtain ⟨e, s₁, hlost⟩ : ∃ e s₁, Session.empty.lowerFunc .lost = .ok (.error e, s₁) := ⟨_, _, rfl⟩
  obtain ⟨g, s, hgreet⟩ : ∃ g s, Session.empty.lowerFunc .greet = .ok (.ok g, s) := ⟨_, _, rfl⟩
  obtain ⟨f, s₂, hafter⟩ : ∃ f s₂, s₁.lowerFunc .greet = .ok (.ok f, s₂) := by
    rcases Session.lowerFunc_alone s₁ .greet with ⟨e, he, _⟩ |
      ⟨r, r', _, _, _, _, hr, hr', _, hlinked⟩
    · rw [hgreet] at he
      cases he
    · rw [hgreet] at hr
      cases hr
      cases hlinked with
      | func _ => exact ⟨_, _, hr'⟩
  have hlower : Program.lower [some .lost, some .greet] =
      .ok (⟨s₂.labels, s₂.data, [f]⟩, some (.funcs [⟨Bytes.ofString "lost", e⟩])) :=
    lower_eq_ok_iff.mpr ⟨_, s₂, .cons hlost (.cons hafter (.nil s₂)), rfl, rfl, rfl⟩
  obtain ⟨calls, _, _, hfile, _, _, hsame⟩ := (Program.lower_independent _).2 _ _ hlower
  have hlength : calls.length = 2 := by
    have hboth := congrArg List.length hfile
    rw [List.length_map] at hboth
    exact hboth.symm
  exact ⟨_, _, f, hlower, rfl, calls, hlength, hsame⟩

end ThreeAddress
