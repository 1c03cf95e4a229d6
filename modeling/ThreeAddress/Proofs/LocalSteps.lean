import Mathlib.Data.List.Chain
import Mathlib.Data.List.Flatten
import Mathlib.Logic.Relation
import ThreeAddress.Proofs.Rules
import ThreeAddress.Simplify

/-!
# The local simplifying steps

Each step that looks at one or two instructions at a time succeeds on well-formed code and rewrites
it by `Rule`. What the rules ask for is given by the number of times a register is read
(`Code.Rewrites.of_spent`) or occurs.
-/

namespace ThreeAddress
set_option autoImplicit false

namespace Instr

theorem dst?_eq_some_iff {x : Instr} {r : Reg} : x.dst? = some r ↔
    ∃ op rest, op.isDefinition = true ∧ x = ⟨op, some (.reg r) :: rest⟩ := by
  obtain ⟨op, args⟩ := x
  unfold dst?
  constructor
  · intro h
    split at h
    · rename_i hop
      match args with
      | [] => cases h
      | none :: _ => cases h
      | some a :: rest =>
        cases a with
        | reg s =>
          cases h
          exact ⟨op, rest, hop, rfl⟩
        | _ => cases h
    · cases h
  · rintro ⟨_, rest, hop, heq⟩
    cases heq
    rw [if_pos hop]
    rfl

end Instr

namespace Code

theorem occurrences_cons (x : Instr) (code : Code) (k : RegKey) :
    occurrences (x :: code) k = x.keys.count k + code.occurrences k := by
  rw [occurrences, occurrences, regKeys_cons, List.count_append]

end Code

theorem Instr.reads_sublist_keys (x : Instr) : x.reads.Sublist x.keys := by
  unfold reads keys
  split
  · exact (List.drop_sublist 1 x.args).filterMap _
  · exact List.Sublist.refl _

namespace Code

theorem count_reads_lt {op : Opcode} {r : Reg} {rest : List (Option Operand)}
    (hop : op.isDefinition = true) {code : Code} (hmem : ⟨op, some (.reg r) :: rest⟩ ∈ code) :
    code.reads.count r.key < code.occurrences r.key := by
  have hle (c : Code) : c.reads.count r.key ≤ c.occurrences r.key := by
    rw [occurrences, regKeys_eq]
    exact (List.Sublist.flatMap_right c fun x _ => x.reads_sublist_keys).count_le r.key
  induction hmem with
  | head c =>
    have hkeys :
        Instr.keys ⟨op, some (.reg r) :: rest⟩ = r.key :: rest.filterMap Operand.keyAt? := rfl
    have hc := hle c
    rw [reads_cons, List.count_append, occurrences_cons, Instr.reads_cons hop, hkeys,
      List.count_cons_self]
    omega
  | tail x _ ih =>
    have hx := x.reads_sublist_keys.count_le r.key
    rw [reads_cons, List.count_append, occurrences_cons]
    omega

end Code

namespace Code.Rewrites
variable {folding : Prop} {apart : Reg → Operand → Prop} {old new : Code}

/-- The registers that lose their definition are not read in the new code, if they are read less
often in the old code than their piece has instructions. -/
theorem of_spent
    (h : Rewrites (Rule folding (fun a k => old.reads.count k < a.length) apart) old new) :
    Rewrites (Rule folding (fun _ k => k ∉ new.reads) apart) old new := by
  apply h.refine_rule
  intro p a q p' b q' hold hnew hp hq hab
  have spent {k : RegKey} (hk : old.reads.count k ≤ a.reads.count k) (hb : k ∉ b.reads) :
      k ∉ new.reads := by
    rw [hold] at hk
    rw [hnew]
    exact not_mem_reads_of_spent hp hq hk hb
  have last {k : RegKey} (ks : List RegKey) (ha : a.reads = ks ++ [k]) (hk : old.reads.count k < 2)
      (hb : b.reads ⊆ ks) : k ∉ new.reads := by
    have hle : a.reads.count k ≤ old.reads.count k := by
      rw [hold, reads_append, reads_append, List.count_append, List.count_append]
      omega
    rw [ha, List.count_append, List.count_singleton_self] at hle
    refine spent ?_ fun hmem => List.count_eq_zero.mp (by omega : ks.count k = 0) (hb hmem)
    rw [ha, List.count_append, List.count_singleton_self]
    omega
  cases hab with
  | keep x => exact .keep x
  | nop hx => exact .nop hx
  | unread hd hc hr =>
    exact .unread hd hc
      (spent (Nat.le_trans (Nat.le_of_lt_succ hr) (Nat.zero_le _)) List.not_mem_nil)
  | @forward op r s z rest hd hs hr =>
    refine .forward hd hs (last (rest.filterMap Operand.keyAt?) ?_ hr ?_)
    · rw [reads_cons, reads_cons, Instr.reads_cons hd, ← hs]
      rfl
    · rw [reads_cons, Instr.reads_cons hd]
      exact List.append_subset.mpr ⟨List.Subset.refl _, List.nil_subset _⟩
  | @foldDrop op b b' d c u more l hfold hf hm hc hv hr =>
    obtain ⟨hb, hb'⟩ := Opcode.folded?_eq_some hf
    refine .foldDrop hfold hf hm hc hv (last ((some u :: more).filterMap Operand.keyAt?) ?_ hr ?_)
    · rw [reads_cons, reads_cons, Instr.reads_cons (Opcode.isDefinition_of_folds hm),
          Instr.reads_test hb, ← hc]
      rfl
    · rw [reads_cons, Instr.reads_test hb']
      refine List.append_subset.mpr ⟨?_, List.nil_subset _⟩
      exact ((List.singleton_sublist.mpr List.mem_cons_self).filterMap _).subset
  | foldKeep hfold hf hm hc hv hd => exact .foldKeep hfold hf hm hc hv hd
  | source hc hv hr => exact .source hc hv hr

theorem of_occurrences
    (h : Rewrites (Rule folding (fun a k => old.occurrences k ≤ a.length) apart) old new) :
    Rewrites (Rule folding (fun _ k => k ∉ new.reads) apart) old new := by
  apply of_spent
  apply h.refine_rule
  intro p a q p' b q' hold _ _ _ hab
  refine hab.imp id (fun op r rest hop hmem hle => ?_) fun _ _ hru => hru
  have hold' : ⟨op, some (.reg r) :: rest⟩ ∈ old := by
    rw [hold]
    exact List.mem_append_right _ (List.mem_append_left _ hmem)
  exact Nat.lt_of_lt_of_le (count_reads_lt hop hold') hle

end Code.Rewrites

/-- The result of the first instruction is only moved on by the second. -/
inductive Instr.MovedOn (uses : RegKey → Nat) : Instr → Instr → Prop where
  | intro {op : Opcode} {r s z : Reg} {rest : List (Option Operand)} : op.isDefinition = true →
      s.key = r.key → uses r.key = 2 →
      MovedOn uses ⟨op, some (.reg r) :: rest⟩ ⟨.mov, [some (.reg z), some (.reg s)]⟩

namespace Instr
variable {uses : RegKey → Nat} {x y : Instr}

theorem MovedOn.ops (h : MovedOn uses x y) : x.op.isDefinition = true ∧ y.op = .mov := by
  obtain ⟨hop, _, _⟩ := h
  exact ⟨hop, rfl⟩

theorem isMovedOnBy_of_movedOn (h : MovedOn uses x y) : x.isMovedOnBy uses y = .ok true := by
  obtain @⟨op, r, s, z, rest, hop, hs, huses⟩ := h
  have hsame : Operand.sameReg (some (.reg s)) (some (.reg r)) = true :=
    Operand.sameReg_eq_true_iff.mpr ⟨r.key, congrArg some hs, rfl⟩
  rw [isMovedOnBy, dst?_eq_some_iff.mpr ⟨op, rest, hop, rfl⟩]
  change Except.ok (_ && _) = _
  rw [hsame, huses]
  rfl

theorem isMovedOnBy_of_not (hy : y.WellFormed) (h : ¬ MovedOn uses x y) :
    x.isMovedOnBy uses y = .ok false := by
  unfold isMovedOnBy
  cases hd : x.dst? with
  | none => rfl
  | some r =>
    by_cases hmov : y.op = .mov
    · obtain ⟨op, rest, hop, rfl⟩ := dst?_eq_some_iff.mp hd
      obtain ⟨z, a, rfl, _⟩ := hy.exists_mov hmov
      change Except.ok _ = _
      congr 1
      rw [Bool.and_eq_false_iff]
      by_cases hsame : Operand.sameReg (some a) (some (.reg r)) = true
      · obtain ⟨k, ha, hk⟩ := Operand.sameReg_eq_true_iff.mp hsame
        obtain ⟨s, hs, hsk⟩ := Operand.keyAt?_eq_some_iff.mp ha
        cases hs
        have hrk : r.key = k := Option.some.inj hk
        refine .inr (beq_eq_false_iff_ne.mpr fun huses => h ⟨hop, ?_, huses⟩)
        rw [hsk, hrk]
      · exact .inl (Bool.eq_false_iff.mpr hsame)
    · exact if_neg hmov

theorem isUnread_iff : x.isUnread uses = true ↔ ∃ op r rest, op.isDefinition = true ∧ op ≠ .call ∧
    uses r.key < 2 ∧ x = ⟨op, some (.reg r) :: rest⟩ := by
  unfold isUnread
  constructor
  · intro h
    cases hd : x.dst? with
    | none =>
      rw [hd] at h
      cases h
    | some r =>
      rw [hd] at h
      obtain ⟨op, rest, hop, rfl⟩ := dst?_eq_some_iff.mp hd
      obtain ⟨hcall, huses⟩ := Bool.and_eq_true_iff.mp h
      exact ⟨op, r, rest, hop, of_decide_eq_true hcall, of_decide_eq_true huses, rfl⟩
  · rintro ⟨op, r, rest, hop, hcall, huses, rfl⟩
    rw [dst?_eq_some_iff.mpr ⟨op, rest, hop, rfl⟩]
    exact Bool.and_eq_true_iff.mpr ⟨decide_eq_true hcall, decide_eq_true huses⟩

end Instr

namespace Code
variable {code : Code}

/-- A rewriting by rules that ask for nothing. -/
def Trims (old new : Code) : Prop :=
  Rewrites (Rule False (fun _ _ => False) fun _ _ => False) old new

theorem dropNops_trims (code : Code) : Trims code code.dropNops.code := by
  apply Rewrites.of_filter
  · exact fun x _ _ => .keep x
  · exact fun x _ hx => .nop (by simpa using hx)

theorem dropUnread_rewrites (code : Code) :
    Rewrites (Rule False (fun a k => code.occurrences k ≤ a.length) Reg.Apart) code
      code.dropUnread.code := by
  rw [dropUnread_eq]
  apply Rewrites.of_filter
  · exact fun x _ _ => .keep x
  · intro x _ hx
    obtain ⟨op, r, rest, hop, hcall, huses, rfl⟩ := Instr.isUnread_iff.mp (by simpa using hx)
    exact .unread hop hcall (Nat.le_of_lt_succ huses)

/-- No result is only moved on, and none is unread. -/
structure Settled (uses : RegKey → Nat) (code : Code) : Prop where
  moved : code.IsChain fun x y => ¬ Instr.MovedOn uses x y
  read : ∀ x ∈ code, x.isUnread uses = false

theorem forwardResultsWith_rewrites (uses : RegKey → Nat) (hwf : ∀ x ∈ code, x.WellFormed) :
    ∃ r, forwardResultsWith uses code = .ok r ∧
      Rewrites (Rule False (fun a k => uses k ≤ a.length) Reg.Apart) code r.code ∧
      (r.changed = false → r.code = code ∧ code.IsChain fun x y => ¬ Instr.MovedOn uses x y) ∧
      (code.IsChain (fun x y => ¬ Instr.MovedOn uses x y) → r = ⟨code, false⟩) := by
  fun_induction forwardResultsWith uses code with
  | case1 x next rest ihMerged ihNext =>
    have hnext : next.WellFormed := hwf next (by simp)
    by_cases hmoved : Instr.MovedOn uses x next
    · rw [Instr.isMovedOnBy_of_movedOn hmoved]
      obtain ⟨r, hr, hrw, _⟩ := ihMerged fun y hy => hwf y (by simp [hy])
      obtain @⟨op, _, _, z, more, hop, hs, huses⟩ := hmoved
      refine ⟨⟨⟨op, some (.reg z) :: more⟩ :: r.code, true⟩, ?_, ?_, Bool.noConfusion, ?_⟩
      · change (forwardResultsWith uses rest >>= _) = _
        rw [hr]
        rfl
      · exact .piece (.forward hop hs (Nat.le_of_eq huses)) hrw
      · intro hchain
        exact absurd ⟨hop, hs, huses⟩ (List.isChain_cons_cons.mp hchain).1
    · rw [Instr.isMovedOnBy_of_not hnext hmoved]
      obtain ⟨r, hr, hrw, hsame, hfix⟩ := ihNext fun y hy => hwf y (List.mem_cons_of_mem x hy)
      refine ⟨⟨x :: r.code, r.changed⟩, ?_, .piece (.keep x) hrw, fun h => ?_, fun hchain => ?_⟩
      · change (forwardResultsWith uses (next :: rest) >>= _) = _
        rw [hr]
        rfl
      · obtain ⟨hcode, hchain⟩ := hsame h
        exact ⟨congrArg (x :: ·) hcode, List.isChain_cons_cons.mpr ⟨hmoved, hchain⟩⟩
      · rw [hfix (List.isChain_cons_cons.mp hchain).2]
  | case2 x =>
    exact ⟨⟨[x], false⟩, rfl, .single (.keep x), fun _ => ⟨rfl, .singleton x⟩, fun _ => rfl⟩
  | case3 => exact ⟨⟨[], false⟩, rfl, .nil, fun _ => ⟨rfl, .nil⟩, fun _ => rfl⟩

/-- A rewriting that only forwards and drops results, and loses none that is still read. -/
def Tidies (old new : Code) : Prop :=
  Rewrites (Rule False (fun _ k => k ∉ new.reads) Reg.Apart) old new

theorem Trims.tidies {old new : Code} (h : Trims old new) : Tidies old new := by
  apply h.imp
  intro a b hab
  exact hab.imp id (fun _ _ _ _ _ h => h.elim) fun _ _ h => h.elim

theorem dropUnread_tidies (code : Code) : Tidies code code.dropUnread.code :=
  (dropUnread_rewrites code).of_occurrences

theorem dropUnread_changed {code : Code} :
    code.dropUnread.changed = false ↔ ∀ x ∈ code, x.isUnread code.occurrences = false := by
  rw [dropUnread_eq, Simplified.ofShorter, decide_eq_false_iff_not, not_not,
    List.length_filter_eq_length_iff]
  simp only [Bool.not_eq_true']

theorem dropUnread_eq_self {code : Code} (h : ∀ x ∈ code, x.isUnread code.occurrences = false) :
    code.dropUnread = ⟨code, false⟩ := by
  have hcode : code.dropUnread.code = code :=
    List.filter_eq_self.mpr fun x hx => congrArg (! ·) (h x hx)
  rw [← dropUnread_changed.mpr h]
  nth_rewrite 2 [← hcode]
  rfl

theorem forwardResults_tidies (hwf : ∀ x ∈ code, x.WellFormed) :
    ∃ r, code.forwardResults = .ok r ∧ Tidies code r.code ∧
      (r.changed = false → r.code = code ∧
          code.IsChain fun x y => ¬ Instr.MovedOn code.occurrences x y) := by
  obtain ⟨r, hr, hrw, hsame, _⟩ := forwardResultsWith_rewrites code.occurrences hwf
  exact ⟨r, hr, hrw.of_occurrences, hsame⟩

theorem settle_eq_bind (code : Code) : settle code = code.forwardResults >>= fun r =>
    if r.changed || r.code.dropUnread.changed then do
      let s ← settle r.code.dropUnread.code
      return ⟨s.code, true⟩
    else return ⟨r.code.dropUnread.code, false⟩ := by
  rw [settle]
  split
  · rename_i e he
    rw [he]
    rfl
  · rename_i r hr
    rw [hr]
    rfl

theorem settle_of_settled (hwf : ∀ x ∈ code, x.WellFormed) (h : Settled code.occurrences code) :
    code.settle = .ok ⟨code, false⟩ := by
  obtain ⟨r, hr, _, _, hfix⟩ := forwardResultsWith_rewrites code.occurrences hwf
  cases hfix h.moved
  rw [settle_eq_bind, forwardResults_eq, hr]
  change (if (false || code.dropUnread.changed) = true then _ else _) = _
  rw [dropUnread_eq_self h.read]
  rfl

/-- Settling goes through, tidies the code until it is settled, and says whether that took anything
away. -/
theorem settle_spec (hwf : ∀ x ∈ code, x.WellFormed) :
    ∃ r, code.settle = .ok r ∧ Relation.ReflTransGen Tidies code r.code ∧
      Settled (occurrences r.code) r.code ∧ (r.changed = false → r.code = code) ∧
      (r.changed = true → r.code.length < code.length) := by
  fun_induction settle code with
  | case1 code f hf =>
    obtain ⟨r, hr, _⟩ := forwardResults_tidies hwf
    rw [hr] at hf
    cases hf
  | case2 code forwarded hf kept hchanged ih =>
    obtain ⟨r, hr, htidy, _⟩ := forwardResults_tidies hwf
    rw [hr] at hf
    cases hf
    have hkept := dropUnread_tidies forwarded.code
    obtain ⟨s, hs, hsteps, hsettled, hsame, hless⟩ := ih (hkept.wellFormed (htidy.wellFormed hwf))
    have hle : s.code.length ≤ forwarded.code.dropUnread.code.length := by
      cases hc : s.changed with
      | false => exact Nat.le_of_eq (congrArg List.length (hsame hc))
      | true => exact Nat.le_of_lt (hless hc)
    refine ⟨⟨s.code, true⟩, ?_, .head htidy (.head hkept hsteps), hsettled,
      Bool.noConfusion, fun _ => ?_⟩
    · rw [hs]
      rfl
    · have hlf := length_forwardResultsWith hr
      have hlk := length_dropUnread forwarded.code
      change s.code.length < code.length
      rcases Bool.or_eq_true_iff.mp hchanged with hc | hc
      · rw [hc, Bool.toNat_true] at hlf
        omega
      · rw [hc, Bool.toNat_true] at hlk
        omega
  | case3 code forwarded hf kept hchanged =>
    obtain ⟨r, hr, _, hsame⟩ := forwardResults_tidies hwf
    rw [hr] at hf
    cases hf
    obtain ⟨hc, hk⟩ := Bool.or_eq_false_iff.mp (Bool.eq_false_iff.mpr hchanged)
    obtain ⟨hcode, hchain⟩ := hsame hc
    have hread := dropUnread_changed.mp hk
    have heq : kept = ⟨forwarded.code, false⟩ := dropUnread_eq_self hread
    refine ⟨⟨kept.code, false⟩, rfl, ?_, ?_, fun _ => ?_, Bool.noConfusion⟩
    · rw [heq, hcode]
    · rw [heq, hcode]
      rw [hcode] at hread
      exact ⟨hchain, hread⟩
    · rw [heq, hcode]

end Code

/-- What folding the first instruction into the second makes of them. -/
inductive Instr.Folds (uses : RegKey → Nat) : Instr → Instr → Fold → Prop where
  | intro {op b b' : Opcode} {d c : Reg} {a : Operand} {more : List (Option Operand)} {l : Label} :
    Opcode.folded? op b = some b' → op.FoldsWith more → c.key = d.key → a.isValue = true →
    Folds uses ⟨op, some (.reg d) :: some a :: more⟩ ⟨b, [some (.label l), some (.reg c)]⟩
      ⟨⟨b', [some (.label l), some a]⟩, decide (op ≠ .un .not ∧ 3 ≤ uses d.key)⟩

namespace Instr
variable {uses : RegKey → Nat} {x y : Instr}

theorem WellFormed.exists_compared {b b' : Opcode} (h : x.WellFormed)
    (hf : Opcode.folded? x.op b = some b') :
    ∃ d a more, x = ⟨x.op, some (.reg d) :: some a :: more⟩ ∧ a.isValue = true ∧
      ((x.op = .un .not ∧ more = []) ∨
        ((x.op = .bin .eq ∨ x.op = .bin .neq) ∧ ∃ q, more = [some q])) := by
  have hop : x.op = .un .not ∨ x.op = .bin .eq ∨ x.op = .bin .neq := by
    unfold Opcode.folded? at hf
    split at hf <;> simp_all
  obtain ⟨op, args⟩ := x
  simp only at hop ⊢
  rcases hop with rfl | hop
  · obtain ⟨p, q, hargs, hp, hq⟩ := (wellFormed_iff_two rfl).mp h
    obtain ⟨d, rfl⟩ := Slot.takes_register_iff.mp hp
    obtain ⟨a, rfl, ha⟩ := Slot.takes_value_iff.mp hq
    simp only at hargs
    exact ⟨d, a, [], by rw [hargs], ha, .inl ⟨rfl, rfl⟩⟩
  · have hshape : op.shape? = some ⟨[.register, .value, .value], .none⟩ := by
      rcases hop with rfl | rfl <;> rfl
    obtain ⟨p, q, t, hargs, hp, hq, ht⟩ := (wellFormed_iff_three hshape).mp h
    obtain ⟨d, rfl⟩ := Slot.takes_register_iff.mp hp
    obtain ⟨a, rfl, ha⟩ := Slot.takes_value_iff.mp hq
    obtain ⟨z, rfl, _⟩ := Slot.takes_value_iff.mp ht
    simp only at hargs
    exact ⟨d, a, [some z], by rw [hargs], ha, .inr ⟨hop, z, rfl⟩⟩

theorem WellFormed.foldInto_spec (uses : RegKey → Nat) (hx : x.WellFormed) (hy : y.WellFormed) :
    ∃ f?, x.foldInto uses y = .ok f? ∧ ∀ f, f? = some f → Folds uses x y f := by
  have nothing : ∃ f?, Except.ok (ε := Fault) none = .ok f? ∧ ∀ f, f? = some f → Folds uses x y f :=
    ⟨none, rfl, fun f hf => by cases hf⟩
  unfold foldInto
  cases hf : Opcode.folded? x.op y.op with
  | none => exact nothing
  | some b' =>
    obtain ⟨d, a, more, hxe, ha, hmore⟩ := hx.exists_compared hf
    obtain ⟨b, l, c, hb, rfl, hc⟩ := hy.exists_test (Opcode.folded?_eq_some hf).1
    obtain ⟨op, args⟩ := x
    simp only [mk.injEq, true_and] at hxe
    subst hxe
    have hdst : dst? ⟨op, some (.reg d) :: some a :: more⟩ = some d := by
      refine dst?_eq_some_iff.mpr ⟨op, _, ?_, rfl⟩
      rcases hmore with ⟨rfl, _⟩ | ⟨rfl | rfl, _⟩ <;> rfl
    have hcond : cond? ⟨b, [some (.label l), some c]⟩ = some (some c) := by
      rcases hb with rfl | rfl <;> rfl
    rw [hdst, hcond]
    simp only
    split
    · rename_i hsame
      obtain ⟨k, hd, hck⟩ := Operand.sameReg_eq_true_iff.mp hsame
      obtain ⟨s, hs, hsk⟩ := Operand.keyAt?_eq_some_iff.mp hck
      cases hs
      have hkey : s.key = d.key := by rw [hsk, ← Option.some.inj hd]
      rcases hmore with ⟨rfl, rfl⟩ | ⟨hop, q, rfl⟩
      · refine ⟨_, rfl, fun f hf' => ?_⟩
        cases hf'
        exact .intro hf (.inl ⟨rfl, rfl⟩) hkey ha
      · by_cases hzero : Operand.isZero (some q) = true
        · obtain ⟨w, rfl⟩ : ∃ w, q = .num 0 w := by
            cases q with
            | num v w => exact ⟨w, by rw [eq_of_beq hzero]⟩
            | _ => cases hzero
          have hkeep := @Folds.intro uses _ _ _ _ _ _ _ l hf (.inr ⟨hop, w, rfl⟩) hkey ha
          rcases hop with rfl | rfl
          · exact ⟨_, rfl, fun f hf' => by cases hf'; simpa using hkeep⟩
          · exact ⟨_, rfl, fun f hf' => by cases hf'; simpa using hkeep⟩
        · rcases hop with rfl | rfl
          · exact ⟨none, if_neg hzero, fun f hf' => by cases hf'⟩
          · exact ⟨none, if_neg hzero, fun f hf' => by cases hf'⟩
    · exact nothing

theorem WellFormed.testSource_spec (hx : x.WellFormed) (hy : y.WellFormed) :
    x.testSource y = .ok none ∨ ∃ r c a l, c.key = r.key ∧ a.isValue = true ∧
      Operand.keyAt? (some a) ≠ some r.key ∧ x = ⟨.mov, [some (.reg r), some a]⟩ ∧
      y = ⟨.brz, [some (.label l), some (.reg c)]⟩ ∧
      x.testSource y = .ok (some ⟨.brz, [some (.label l), some a]⟩) := by
  unfold testSource
  split
  · rename_i hops
    obtain ⟨r, a, rfl, ha⟩ := hx.exists_mov hops.1
    obtain ⟨b, l, c, _, rfl, _⟩ := hy.exists_test (.inl hops.2)
    obtain rfl : b = .brz := hops.2
    change (if _ then _ else _) = _ ∨ _
    by_cases hr : Operand.sameReg (some (.reg r)) (some c) = true
    · obtain ⟨k, hrk, hck⟩ := Operand.sameReg_eq_true_iff.mp hr
      obtain ⟨s, hs, hsk⟩ := Operand.keyAt?_eq_some_iff.mp hck
      cases hs
      cases hrk
      by_cases hself : Operand.sameReg (some a) (some (.reg s)) = true
      · exact .inl ((if_pos hr).trans (if_pos hself))
      · refine .inr
            ⟨r, s, a, l, hsk, ha, fun ha' => hself ?_, rfl, rfl, (if_pos hr).trans (if_neg hself)⟩
        exact Operand.sameReg_eq_true_iff.mpr ⟨r.key, ha', hck⟩
    · exact .inl (if_neg hr)
  · exact .inl rfl

end Instr

section
variable {gone : Code → RegKey → Prop} {apart : Reg → Operand → Prop} {uses : RegKey → Nat}

theorem Instr.Folds.reads_eq {x y : Instr} {f : Fold} (h : Folds uses x y f) {d : Reg}
    (hd : x.dst? = some d) :
    x.op ≠ .mov ∧ y.reads = [d.key] := by
  obtain @⟨op, b, b', d', c, a, more, l, hf, hm, hc, _⟩ := h
  obtain ⟨_, _, _, heq⟩ := dst?_eq_some_iff.mp hd
  cases heq
  refine ⟨?_, ?_⟩
  · rcases hm with ⟨rfl, _⟩ | ⟨rfl | rfl, _⟩ <;> exact Opcode.noConfusion
  · rw [reads_test (Opcode.folded?_eq_some hf).1, ← hc]
    rfl

theorem Instr.Folds.rule {x y : Instr} {f : Fold} (h : Folds uses x y f)
    (hgone : ∀ d, f.keep = false → x.dst? = some d → gone [x, y] d.key)
    (hapart : ∀ d a, x.op ≠ .bin .neq → x.dst? = some d → x.operand? 1 = some a → apart d a) :
    Rule True gone apart [x, y] (if f.keep then [x, f.branch] else [f.branch]) := by
  obtain @⟨op, b, b', d, c, a, more, l, hf, hm, hc, ha⟩ := h
  have hd : dst? ⟨op, some (.reg d) :: some a :: more⟩ = some d :=
    dst?_eq_some_iff.mpr ⟨op, _, Opcode.isDefinition_of_folds hm, rfl⟩
  by_cases hkeep : op ≠ .un .not ∧ 3 ≤ uses d.key
  · rw [if_pos (decide_eq_true hkeep)]
    exact .foldKeep trivial hf hm hc ha fun hop => hapart d a hop hd rfl
  · rw [if_neg (by rw [decide_eq_false hkeep]; exact Bool.false_ne_true)]
    exact .foldDrop trivial hf hm hc ha (hgone d (decide_eq_false hkeep) hd)

end

namespace Code
variable {gone : Code → RegKey → Prop} {apart : Reg → Operand → Prop} {code : Code}
  {uses : RegKey → Nat}

theorem foldTestsWith_rewrites (hwf : ∀ x ∈ code, x.WellFormed)
    (hrule : ∀ x y f, [x, y] <:+: code → Instr.Folds uses x y f →
      Rule True gone apart [x, y] (if f.keep then [x, f.branch] else [f.branch])) :
    ∃ r, foldTestsWith uses code = .ok r ∧ Rewrites (Rule True gone apart) code r.code := by
  fun_induction foldTestsWith uses code with
  | case1 x next rest ihFolded ihNext =>
    obtain ⟨f?, hf?, hfolds⟩ := (hwf x (by simp)).foldInto_spec uses (hwf next (by simp))
    rw [hf?]
    cases f? with
    | some f =>
      obtain ⟨r, hr, hrw⟩ := ihFolded (fun y hy => hwf y (by simp [hy])) fun x' y f hxy =>
        hrule x' y f (hxy.trans (List.suffix_append [x, next] rest).isInfix)
      refine ⟨⟨(if f.keep then [x, f.branch] else [f.branch]) ++ r.code, true⟩, ?_, ?_⟩
      · change (foldTestsWith uses rest >>= _) = _
        rw [hr]
        rfl
      · have hpair : [x, next] <:+: x :: next :: rest := (List.prefix_append [x, next] rest).isInfix
        exact .piece (hrule x next f hpair (hfolds f rfl)) hrw
    | none =>
      obtain ⟨r, hr, hrw⟩ :=
        ihNext (fun y hy => hwf y (List.mem_cons_of_mem x hy)) fun x' y f hxy =>
        hrule x' y f (hxy.trans (List.suffix_cons x (next :: rest)).isInfix)
      refine ⟨⟨x :: r.code, r.changed⟩, ?_, .piece (.keep x) hrw⟩
      change (foldTestsWith uses (next :: rest) >>= _) = _
      rw [hr]
      rfl
  | case2 x => exact ⟨⟨[x], false⟩, rfl, .single (.keep x)⟩
  | case3 => exact ⟨⟨[], false⟩, rfl, .nil⟩

/-- Folding goes through on all code; whether it keeps what the code does is another matter. -/
theorem foldTests_rewrites (hwf : ∀ x ∈ code, x.WellFormed) :
    ∃ r, code.foldTests = .ok r ∧
      Rewrites (Rule True (fun _ _ => True) fun _ _ => True) code r.code := by
  apply foldTestsWith_rewrites hwf
  intro x y f _ hfolds
  exact hfolds.rule (fun _ _ _ => trivial) fun _ _ _ _ _ => trivial

/-- The instruction in front stays where it is. If it is no move, the rest is rewritten on its
own. -/
theorem testSourcesAfter_trims {before : Instr} (hbefore : before.WellFormed)
    (hwf : ∀ x ∈ code, x.WellFormed) : ∃ r tail, testSourcesAfter before code = .ok r ∧
      r.code = before :: tail ∧ Trims (before :: code) (before :: tail) ∧
      (before.op ≠ .mov → Trims code tail) := by
  induction code generalizing before with
  | nil => exact ⟨⟨[before], false⟩, [], rfl, rfl, .single (.keep before), fun _ => .nil⟩
  | cons next rest ih =>
    obtain ⟨hnext, hrest⟩ := List.forall_mem_cons.mp hwf
    rw [testSourcesAfter]
    rcases hbefore.testSource_spec hnext with hnone | ⟨t, c, a, l, hc, ha, hta, rfl, rfl, hsome⟩
    · obtain ⟨r, tail, hr, hcode, hrw, _⟩ := ih hnext hrest
      rw [hnone]
      refine ⟨⟨before :: r.code, r.changed⟩, next :: tail, ?_, congrArg (before :: ·) hcode,
        ?_, fun _ => hrw⟩
      · change (testSourcesAfter next rest >>= _) = _
        rw [hr]
        rfl
      · exact .piece (.keep before) hrw
    · obtain ⟨r, tail, hr, hcode, _, hrw⟩ := ih (Instr.wellFormed_test (.inl rfl) ha l) hrest
      rw [hsome]
      refine ⟨⟨_ :: r.code, true⟩, _ :: tail, ?_, congrArg (_ :: ·) hcode, ?_,
        fun h => absurd rfl h⟩
      · change (testSourcesAfter _ rest >>= _) = _
        rw [hr]
        rfl
      · exact .piece (.source hc ha hta) (hrw nofun)

theorem testSources_trims (hwf : ∀ x ∈ code, x.WellFormed) :
    ∃ r, code.testSources = .ok r ∧ Trims code r.code := by
  cases code with
  | nil => exact ⟨⟨[], false⟩, rfl, .nil⟩
  | cons x rest =>
    obtain ⟨hx, hwf⟩ := List.forall_mem_cons.mp hwf
    obtain ⟨r, tail, hr, hcode, hrw, _⟩ := testSourcesAfter_trims hx hwf
    exact ⟨r, hr, hcode ▸ hrw⟩

end Code

end ThreeAddress
