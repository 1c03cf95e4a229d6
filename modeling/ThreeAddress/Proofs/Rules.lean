import ThreeAddress.Proofs.Rewriting
import ThreeAddress.Proofs.Validity
import ThreeAddress.Simplify

/-!
# The rules of local rewriting

`Rule` lists what the local simplifying steps do to one or two neighbouring instructions. Every rule
keeps code valid (`Code.Rewrites.valid`). It keeps the behaviour as well if the registers that lose
their definition are read nowhere in the new code, and a comparison for equality that stays does not
overwrite what it compares (`behaviour_eq_of_rules`).
-/

namespace ThreeAddress
set_option autoImplicit false

namespace Operand

theorem keyAt?_eq_some_iff {a : Option Operand} {k : RegKey} :
    keyAt? a = some k ↔ ∃ r, a = some (.reg r) ∧ r.key = k := by
  rcases a with _ | a
  · simp [keyAt?, regAt?]
  · cases a <;> simp [keyAt?, regAt?, reg?]

end Operand

namespace Instr

def keys (x : Instr) : List RegKey := x.args.filterMap Operand.keyAt?

/-- The registers whose values an instruction needs. -/
def reads (x : Instr) : List RegKey :=
  (if x.op.isDefinition then x.args.drop 1 else x.args).filterMap Operand.keyAt?

theorem keys_eq (x : Instr) : x.regs.map Reg.key = x.keys := by
  rw [regs, keys, List.map_filterMap]
  rfl

theorem reads_cons {op : Opcode} (hop : op.isDefinition = true) (p : Option Operand)
    (rest : List (Option Operand)) : reads ⟨op, p :: rest⟩ = rest.filterMap Operand.keyAt? := by
  rw [reads, if_pos hop]
  rfl

theorem reads_test {b : Opcode} (hb : b = .brz ∨ b = .bnz) (l : Label) (a : Option Operand) :
    reads ⟨b, [some (.label l), a]⟩ = [a].filterMap Operand.keyAt? := by
  rcases hb with rfl | rfl <;> rfl

theorem mem_reads {x : Instr} {i : Nat} {k : RegKey} (hi : x.op.isDefinition = true → 1 ≤ i)
    (h : Operand.keyAt? (x.operand? i) = some k) : k ∈ x.reads := by
  obtain ⟨r, hr, rfl⟩ := Operand.keyAt?_eq_some_iff.mp h
  have hget : x.args[i]? = some (some (.reg r)) := Option.join_eq_some_iff.mp hr
  unfold reads
  split
  · rename_i hd
    refine List.mem_filterMap.mpr ⟨some (.reg r), ?_, rfl⟩
    apply List.mem_of_getElem? (i := i - 1)
    rw [List.getElem?_drop, Nat.add_sub_cancel' (hi hd), hget]
  · exact List.mem_filterMap.mpr ⟨some (.reg r), List.mem_of_getElem? hget, rfl⟩

theorem mem_reads_of_mem_drop {x : Instr} {a : Option Operand} {k : RegKey} (ha : a ∈ x.args.drop 2)
    (h : Operand.keyAt? a = some k) : k ∈ x.reads := by
  unfold reads
  split
  · refine List.mem_filterMap.mpr ⟨a, ?_, h⟩
    rw [← List.drop_drop (i := 1)] at ha
    exact List.mem_of_mem_drop ha
  · exact List.mem_filterMap.mpr ⟨a, List.mem_of_mem_drop ha, h⟩

end Instr

namespace Code

def reads (code : Code) : List RegKey := code.flatMap Instr.reads

theorem regKeys_eq (code : Code) : regKeys code = code.flatMap Instr.keys := by
  unfold regKeys
  congr 1
  funext x
  exact x.keys_eq

@[simp] theorem regKeys_nil : regKeys [] = [] := rfl

theorem regKeys_cons (x : Instr) (code : Code) : regKeys (x :: code) = x.keys ++ regKeys code := by
  rw [regKeys_eq, regKeys_eq, List.flatMap_cons]

@[simp] theorem regKeys_append (c d : Code) : regKeys (c ++ d) = regKeys c ++ regKeys d := by
  rw [regKeys_eq, regKeys_eq, regKeys_eq, List.flatMap_append]

theorem reads_cons (x : Instr) (code : Code) : reads (x :: code) = x.reads ++ reads code :=
  List.flatMap_cons

theorem reads_append (c d : Code) : reads (c ++ d) = reads c ++ reads d := List.flatMap_append

end Code

/-- Registers that agree where it matters. -/
def Regs.AgreeOn (live : List RegKey) (ρ σ : Regs) : Prop := ∀ k ∈ live, ρ k = σ k

namespace Regs.AgreeOn
variable {live : List RegKey} {ρ σ : Regs}

theorem update (h : AgreeOn live ρ σ) (k : RegKey) (v : Int) :
    AgreeOn live (Function.update ρ k v) (Function.update σ k v) := by
  intro j hj
  by_cases hjk : j = k
  · subst hjk
    rw [Function.update_self, Function.update_self]
  · rw [Function.update_of_ne hjk, Function.update_of_ne hjk]
    exact h j hj

theorem update_left (h : AgreeOn live ρ σ) {k : RegKey} (hk : k ∉ live) (v : Int) :
    AgreeOn live (Function.update ρ k v) σ := by
  intro j hj
  have hjk : j ≠ k := fun heq => hk (heq ▸ hj)
  rw [Function.update_of_ne hjk]
  exact h j hj

theorem put (h : AgreeOn live ρ σ) (a : Option Operand) (v : Int) :
    AgreeOn live (ρ.put a v) (σ.put a v) := by
  unfold Regs.put
  split
  · exact h.update _ v
  · exact h

end Regs.AgreeOn

@[simp] theorem Regs.put_reg (ρ : Regs) (r : Reg) (v : Int) :
    ρ.put (some (.reg r)) v = Function.update ρ r.key v := rfl

namespace Machine
variable {M : Machine} {ρ σ : Regs}

theorem value_congr {a : Option Operand} (h : ∀ k, Operand.keyAt? a = some k → ρ k = σ k) :
    M.value ρ a = M.value σ a := by
  rcases a with _ | a
  · rfl
  · cases a with
    | reg r => exact h r.key rfl
    | _ => rfl

theorem outcome_congr {x : Instr} (h : ∀ k ∈ x.reads, ρ k = σ k) (w : World) :
    M.outcome x ρ w = M.outcome x σ w := by
  have h1 : M.value ρ (x.operand? 1) = M.value σ (x.operand? 1) :=
    value_congr fun k hk => h k (Instr.mem_reads (fun _ => Nat.le_refl 1) hk)
  have h2 : M.value ρ (x.operand? 2) = M.value σ (x.operand? 2) :=
    value_congr fun k hk => h k (Instr.mem_reads (fun _ => Nat.le_succ 1) hk)
  have hargs : (x.args.drop 2).map (M.value ρ) = (x.args.drop 2).map (M.value σ) := by
    apply List.map_congr_left
    intro a ha
    exact value_congr fun k hk => h k (Instr.mem_reads_of_mem_drop ha hk)
  unfold outcome
  rw [h1, h2, hargs]

theorem effect_definition {x : Instr} (hx : x.op.isDefinition = true) (ρ : Regs) (w : World) :
    M.effect x ρ w = .next (ρ.put (x.operand? 0) (M.outcome x ρ w).1) (M.outcome x ρ w).2 := by
  unfold effect
  cases hop : x.op <;> simp_all [Opcode.isDefinition]

theorem effect_into {op : Opcode} (hop : op.isDefinition = true) (r : Reg)
    (rest : List (Option Operand)) (ρ : Regs) (w : World) :
    M.effect ⟨op, some (.reg r) :: rest⟩ ρ w =
        .next (Function.update ρ r.key (M.outcome ⟨op, some (.reg r) :: rest⟩ ρ w).1)
          (M.outcome ⟨op, some (.reg r) :: rest⟩ ρ w).2 := effect_definition hop ρ w

theorem effect_mov (r : Reg) (a : Option Operand) (ρ : Regs) (w : World) :
    M.effect ⟨.mov, [some (.reg r), a]⟩ ρ w = .next (Function.update ρ r.key (M.value ρ a)) w := rfl

theorem world_outcome {x : Instr} (hx : x.op ≠ .call) (ρ : Regs) (w : World) :
    (M.outcome x ρ w).2 = w := by
  unfold outcome
  cases hop : x.op with
  | call => exact absurd hop hx
  | _ => rfl

theorem outcome_dst (op : Opcode) (p q : Option Operand) (rest : List (Option Operand)) (ρ : Regs)
    (w : World) : M.outcome ⟨op, p :: rest⟩ ρ w = M.outcome ⟨op, q :: rest⟩ ρ w := by
  simp [outcome, Instr.operand?]

theorem effect_matches {live : List RegKey} {x : Instr} (hlive : ∀ k ∈ x.reads, k ∈ live)
    (h : ρ.AgreeOn live σ) (w : World) :
    Effect.Matches (Regs.AgreeOn live) (M.effect x ρ w) (M.effect x σ w) := by
  have hreads : ∀ k ∈ x.reads, ρ k = σ k := fun k hk => h k (hlive k hk)
  cases hd : x.op.isDefinition with
  | true =>
    rw [effect_definition hd, effect_definition hd, outcome_congr hreads]
    exact .next _ (h.put _ _)
  | false =>
    have hval : ∀ i, M.value ρ (x.operand? i) = M.value σ (x.operand? i) := fun i =>
      value_congr fun k hk =>
        hreads k (Instr.mem_reads (fun hd' => by rw [hd] at hd'; cases hd') hk)
    unfold effect
    rw [hval 0, hval 1]
    cases hop : x.op with
    | mov | read | un | bin | call => simp [hop, Opcode.isDefinition] at hd
    | nop | label | other | write => exact .next _ h
    | br => exact .jump _ w h
    | brz | bnz =>
      dsimp only
      split
      · exact .jump _ w h
      · exact .next w h
    | ret =>
      have hret : (x.operand? 0).map (fun a => M.value ρ (some a)) =
          (x.operand? 0).map fun a => M.value σ (some a) := by
        cases ha : x.operand? 0 with
        | none => rfl
        | some a =>
          have := hval 0
          rw [ha] at this
          rw [Option.map_some, Option.map_some, this]
      rw [hret]
      exact .halt _ w

end Machine

/-- The operands after the compared one, where an operation can be folded into a branch: none for a
negation, a zero for a comparison. -/
def Opcode.FoldsWith (op : Opcode) (more : List (Option Operand)) : Prop :=
  (op = .un .not ∧ more = []) ∨ ((op = .bin .eq ∨ op = .bin .neq) ∧ ∃ w, more = [some (.num 0 w)])

/-- One local rewriting. `gone` is asked for where a register loses its only definition, and `apart`
where a comparison stays in front of a branch that now tests what it compares; a comparison for
inequality may overwrite what it compares, since it is zero where that was. Operations are folded
into branches only if `folding` holds. -/
inductive Rule (folding : Prop) (gone : Code → RegKey → Prop) (apart : Reg → Operand → Prop) :
    Code → Code → Prop where
  | keep (x : Instr) : Rule folding gone apart [x] [x]
  | nop {x : Instr} : x.op = .nop → Rule folding gone apart [x] []
  | unread {op : Opcode} {r : Reg} {rest : List (Option Operand)} : op.isDefinition = true →
      op ≠ .call → gone [⟨op, some (.reg r) :: rest⟩] r.key →
      Rule folding gone apart [⟨op, some (.reg r) :: rest⟩] []
  | forward {op : Opcode} {r s z : Reg} {rest : List (Option Operand)} : op.isDefinition = true →
    s.key = r.key →
    gone [⟨op, some (.reg r) :: rest⟩, ⟨.mov, [some (.reg z), some (.reg s)]⟩] r.key →
    Rule folding gone apart [⟨op, some (.reg r) :: rest⟩, ⟨.mov, [some (.reg z), some (.reg s)]⟩]
      [⟨op, some (.reg z) :: rest⟩]
  | foldDrop {op b b' : Opcode} {d c : Reg} {a : Operand} {more : List (Option Operand)}
      {l : Label} : folding → Opcode.folded? op b = some b' → op.FoldsWith more →
      c.key = d.key → a.isValue = true →
      gone [⟨op, some (.reg d) :: some a :: more⟩, ⟨b, [some (.label l), some (.reg c)]⟩] d.key →
      Rule folding gone apart [⟨op, some (.reg d) :: some a :: more⟩,
      ⟨b, [some (.label l), some (.reg c)]⟩] [⟨b', [some (.label l), some a]⟩]
  | foldKeep {op b b' : Opcode} {d c : Reg} {a : Operand} {more : List (Option Operand)}
      {l : Label} : folding → Opcode.folded? op b = some b' → op.FoldsWith more → c.key = d.key →
      a.isValue = true → (op ≠ .bin .neq → apart d a) → Rule folding gone apart
      [⟨op, some (.reg d) :: some a :: more⟩, ⟨b, [some (.label l), some (.reg c)]⟩]
      [⟨op, some (.reg d) :: some a :: more⟩, ⟨b', [some (.label l), some a]⟩]
  | source {r c : Reg} {a : Operand} {l : Label} : c.key = r.key → a.isValue = true →
      Operand.keyAt? (some a) ≠ some r.key → Rule folding gone apart
      [⟨.mov, [some (.reg r), some a]⟩, ⟨.brz, [some (.label l), some (.reg c)]⟩]
      [⟨.mov, [some (.reg r), some a]⟩, ⟨.brz, [some (.label l), some a]⟩]

theorem Opcode.isDefinition_of_folds {op : Opcode} {more : List (Option Operand)}
    (h : op.FoldsWith more) : op.isDefinition = true := by
  rcases h with ⟨rfl, _⟩ | ⟨rfl | rfl, _⟩ <;> rfl

theorem Opcode.folded?_eq_some {op b b' : Opcode} (h : folded? op b = some b') :
    (b = .brz ∨ b = .bnz) ∧ (b' = .brz ∨ b' = .bnz) := by
  unfold folded? at h
  split at h <;> cases h <;> decide

namespace Machine
variable {M : Machine}

theorem effect_test {b : Opcode} (hb : b = .brz ∨ b = .bnz) (l : Label) (a : Option Operand)
    (ρ : Regs) (w : World) : M.effect ⟨b, [some (.label l), a]⟩ ρ w =
      if (b = .brz ↔ M.value ρ a = 0) then .jump l ρ w else .next ρ w := by
  rcases hb with rfl | rfl
  · simp [effect, Instr.operand?, Instr.target?, Opcode.isBranch, Operand.label?]
  · simp [effect, Instr.operand?, Instr.target?, Opcode.isBranch, Operand.label?]

theorem outcome_folds {op : Opcode} {d : Reg} {a : Operand} {more : List (Option Operand)}
    (hmore : op.FoldsWith more) (ρ : Regs) (w : World) :
    ∃ v, M.outcome ⟨op, some (.reg d) :: some a :: more⟩ ρ w = (v, w) ∧
      ((op = .un .not ∧ v = M.un .not (M.value ρ (some a))) ∨
        ∃ o, op = .bin o ∧ v = M.bin o (M.value ρ (some a)) 0) := by
  rcases hmore with ⟨rfl, rfl⟩ | ⟨rfl | rfl, z, rfl⟩
  · exact ⟨_, rfl, .inl ⟨rfl, rfl⟩⟩
  · exact ⟨_, rfl, .inr ⟨_, rfl, rfl⟩⟩
  · exact ⟨_, rfl, .inr ⟨_, rfl, rfl⟩⟩

/-- Branching on a comparison with zero, or on a negation, is branching on what is compared or
negated. -/
theorem taken_folded (hM : M.Lawful) {op b b' : Opcode} (hf : Opcode.folded? op b = some b')
    {u v : Int} (hv : (op = .un .not ∧ v = M.un .not u) ∨ ∃ o, op = .bin o ∧ v = M.bin o u 0) :
    (b = .brz ↔ v = 0) ↔ (b' = .brz ↔ u = 0) := by
  have hnot := hM.not_ne_zero_iff u
  have heq := hM.eq_ne_zero_iff u 0
  have hneq := hM.neq_ne_zero_iff u 0
  unfold Opcode.folded? at hf
  split at hf <;> cases hf <;> rcases hv with ⟨hop, rfl⟩ | ⟨o, hop, rfl⟩ <;> cases hop <;>
    simp <;> grind

end Machine

def Reg.Apart (r : Reg) (a : Operand) : Prop := Operand.keyAt? (some a) ≠ some r.key

namespace Machine
variable {M : Machine}

theorem value_update_of_apart {r : Reg} {a : Operand} (h : r.Apart a) (ρ : Regs) (v : Int) :
    M.value (Function.update ρ r.key v) (some a) = M.value ρ (some a) := by
  apply value_congr
  intro k hk
  apply Function.update_of_ne
  rintro rfl
  exact h hk

/-- The branch that stands behind a comparison may test what was compared, as long as that is still
there. -/
theorem taken_kept (hM : M.Lawful) {op b b' : Opcode} (hf : Opcode.folded? op b = some b') {d : Reg}
    {a : Operand} (ha : op ≠ .bin .neq → d.Apart a) {σ : Regs} {v : Int} (hv : (op = .un .not ∧
      v = M.un .not (M.value σ (some a))) ∨ ∃ o, op = .bin o ∧ v = M.bin o (M.value σ (some a)) 0) :
    (b = .brz ↔ v = 0) ↔ (b' = .brz ↔ M.value (Function.update σ d.key v) (some a) = 0) := by
  by_cases hapart : d.Apart a
  · rw [value_update_of_apart hapart]
    exact taken_folded hM hf hv
  · obtain rfl : op = .bin .neq := by
      by_contra hop
      exact hapart (ha hop)
    obtain ⟨r, hr, hkey⟩ := Operand.keyAt?_eq_some_iff.mp (not_not.mp hapart)
    cases hr
    have hb : b' = b := by
      unfold Opcode.folded? at hf
      split at hf <;> simp_all
    rw [value, hkey, Function.update_self, hb]

end Machine

namespace Rule
variable {folding : Prop} {gone : Code → RegKey → Prop} {apart : Reg → Operand → Prop} {a b : Code}

theorem imp {folding' : Prop} {gone' : Code → RegKey → Prop} {apart' : Reg → Operand → Prop}
    (h : Rule folding gone apart a b) (hf : folding → folding')
    (hg : ∀ op r rest, op.isDefinition = true → ⟨op, some (.reg r) :: rest⟩ ∈ a → gone a r.key →
      gone' a r.key) (ha : ∀ r u, apart r u → apart' r u) : Rule folding' gone' apart' a b := by
  cases h with
  | keep x => exact .keep x
  | nop hx => exact .nop hx
  | unread hd hc hr => exact .unread hd hc (hg _ _ _ hd List.mem_cons_self hr)
  | forward hd hs hr => exact .forward hd hs (hg _ _ _ hd List.mem_cons_self hr)
  | foldDrop hfold h hm hc hv hd =>
    exact .foldDrop (hf hfold) h hm hc hv
      (hg _ _ _ (Opcode.isDefinition_of_folds hm) List.mem_cons_self hd)
  | foldKeep hfold h hm hc hv hd => exact .foldKeep (hf hfold) h hm hc hv fun hop => ha _ _ (hd hop)
  | source hc hv hr => exact .source hc hv hr

theorem nonempty (h : Rule folding gone apart a b) : a ≠ [] := by
  cases h <;> exact List.cons_ne_nil _ _

theorem sameLabels (h : Rule folding gone apart a b) : Code.SameLabels a b := by
  have hdef {op : Opcode} (hop : op.isDefinition = true) : op ≠ .label := by
    rintro rfl
    cases hop
  have htest {op : Opcode} (hop : op = .brz ∨ op = .bnz) : op ≠ .label := by
    rcases hop with rfl | rfl <;> exact Opcode.noConfusion
  cases h with
  | keep x =>
    by_cases hx : x.op = .label
    · exact .inl ⟨x, hx, rfl, rfl⟩
    · exact .inr (by simp [hx])
  | nop hx => exact .inr (by simp [hx])
  | unread hd => exact .inr (by simp [hdef hd])
  | forward hd => exact .inr (by simp [hdef hd])
  | foldDrop _ hf hm =>
    obtain ⟨hb, hb'⟩ := Opcode.folded?_eq_some hf
    exact .inr (by simp [hdef (Opcode.isDefinition_of_folds hm), htest hb, htest hb'])
  | foldKeep _ hf hm =>
    obtain ⟨hb, hb'⟩ := Opcode.folded?_eq_some hf
    exact .inr (by simp [hdef (Opcode.isDefinition_of_folds hm), htest hb, htest hb'])
  | source => exact .inr (by simp)

variable {M : Machine} {live : List RegKey}

/-- With what is asked for, both sides of a rule do the same to the registers that are live. -/
theorem effect_matches (hM : folding → M.Lawful)
    (h : Rule folding (fun _ k => k ∉ live) Reg.Apart a b)
    (hlive : ∀ y ∈ b, ∀ k ∈ y.reads, k ∈ live) (ρ σ : Regs) (w : World) (hρ : ρ.AgreeOn live σ) :
    Effect.Matches (Regs.AgreeOn live) (M.pieceEffect a ρ w) (M.pieceEffect b σ w) := by
  have hval {y : Instr} {u : Operand} (hy : y ∈ b) (hu : some u ∈ y.args.drop 1) :
      M.value ρ (some u) = M.value σ (some u) := by
    apply Machine.value_congr
    intro k hk
    apply hρ
    apply hlive y hy
    unfold Instr.reads
    split
    · exact List.mem_filterMap.mpr ⟨some u, hu, hk⟩
    · exact List.mem_filterMap.mpr ⟨some u, List.mem_of_mem_drop hu, hk⟩
  cases h with
  | keep x =>
    rw [Machine.pieceEffect_singleton, Machine.pieceEffect_singleton]
    exact Machine.effect_matches (hlive x List.mem_cons_self) hρ w
  | @nop x hx =>
    have he : M.effect x ρ w = .next ρ w := by rw [Machine.effect, hx]
    rw [Machine.pieceEffect_singleton, he]
    exact .next w hρ
  | @unread op r rest hd hc hr =>
    rw [Machine.pieceEffect_singleton, Machine.effect_into hd, Machine.world_outcome hc]
    exact .next w (hρ.update_left hr _)
  | @forward op r s z rest hd hs hr =>
    have hsame :
        M.outcome ⟨op, some (.reg r) :: rest⟩ ρ w = M.outcome ⟨op, some (.reg z) :: rest⟩ σ w := by
      rw [Machine.outcome_dst op (some (.reg r)) (some (.reg z))]
      exact Machine.outcome_congr (fun k hk => hρ k (hlive _ List.mem_cons_self k hk)) w
    rw [M.pieceEffect_cons (Machine.effect_into hd r rest ρ w), Machine.pieceEffect_singleton,
      Machine.pieceEffect_singleton, Machine.effect_mov, Machine.effect_into hd, hsame,
      Machine.value, hs, Function.update_self]
    exact .next _ ((hρ.update_left hr _).update z.key _)
  | @foldDrop op b b' d c u more l hfold hf hm hc _ hg =>
    obtain ⟨hb, hb'⟩ := Opcode.folded?_eq_some hf
    obtain ⟨v, hout, hv⟩ := Machine.outcome_folds (M := M) (d := d) (a := u) hm ρ w
    have hx := M.effect_into (Opcode.isDefinition_of_folds hm) d (some u :: more) ρ w
    rw [hout] at hx
    rw [M.pieceEffect_cons hx, Machine.pieceEffect_singleton, Machine.pieceEffect_singleton,
      Machine.effect_test hb, Machine.effect_test hb', Machine.value, hc, Function.update_self]
    simp only [Machine.taken_folded (hM hfold) hf hv, hval List.mem_cons_self List.mem_cons_self]
    split
    · exact .jump l w (hρ.update_left hg v)
    · exact .next w (hρ.update_left hg v)
  | @foldKeep op b b' d c u more l hfold hf hm hc _ ha =>
    obtain ⟨hb, hb'⟩ := Opcode.folded?_eq_some hf
    obtain ⟨v, hout, hv⟩ := Machine.outcome_folds (M := M) (d := d) (a := u) hm ρ w
    have hout' : M.outcome ⟨op, some (.reg d) :: some u :: more⟩ σ w = (v, w) := by
      rw [← hout]
      exact (Machine.outcome_congr (fun k hk => hρ k (hlive _ List.mem_cons_self k hk)) w).symm
    have hx := M.effect_into (Opcode.isDefinition_of_folds hm) d (some u :: more) ρ w
    have hx' := M.effect_into (Opcode.isDefinition_of_folds hm) d (some u :: more) σ w
    rw [hout] at hx
    rw [hout'] at hx'
    rw [hval List.mem_cons_self List.mem_cons_self] at hv
    rw [M.pieceEffect_cons hx, M.pieceEffect_cons hx', Machine.pieceEffect_singleton,
      Machine.pieceEffect_singleton, Machine.effect_test hb, Machine.effect_test hb', Machine.value,
      hc, Function.update_self]
    simp only [Machine.taken_kept (hM hfold) hf ha hv]
    split
    · exact .jump l w (hρ.update d.key v)
    · exact .next w (hρ.update d.key v)
  | @source r c u l hc _ ha =>
    rw [M.pieceEffect_cons (M.effect_mov r _ ρ w), M.pieceEffect_cons (M.effect_mov r _ σ w),
      Machine.pieceEffect_singleton, Machine.pieceEffect_singleton, Machine.effect_test (.inl rfl),
      Machine.effect_test (.inl rfl), Machine.value_update_of_apart ha,
      hval List.mem_cons_self List.mem_cons_self, Machine.value, hc, Function.update_self]
    split
    · exact .jump l w (hρ.update r.key _)
    · exact .next w (hρ.update r.key _)

end Rule

theorem Instr.WellFormed.into {op : Opcode} {r : Reg} {rest : List (Option Operand)}
    (hop : op.isDefinition = true) (h : WellFormed ⟨op, some (.reg r) :: rest⟩) (z : Reg) :
    WellFormed ⟨op, some (.reg z) :: rest⟩ := by
  have hreg : Slot.register.takes (some (.reg z)) = true := rfl
  cases op with
  | mov | read | un =>
    obtain ⟨a, b, hab, _, hb⟩ := (wellFormed_iff_two rfl).mp h
    cases hab
    exact (wellFormed_iff_two rfl).mpr ⟨_, b, rfl, hreg, hb⟩
  | bin =>
    obtain ⟨a, b, c, habc, _, hb, hc⟩ := (wellFormed_iff_three rfl).mp h
    cases habc
    exact (wellFormed_iff_three rfl).mpr ⟨_, b, c, rfl, hreg, hb, hc⟩
  | call =>
    obtain ⟨d, c, args, hargs, _, hc, hrest⟩ := (wellFormed_iff_call rfl).mp h
    cases hargs
    exact (wellFormed_iff_call rfl).mpr ⟨_, c, args, rfl, rfl, hc, hrest⟩
  | _ => cases hop

theorem Instr.wellFormed_test {b : Opcode} (hb : b = .brz ∨ b = .bnz) {a : Operand}
    (ha : a.isValue = true) (l : Label) : WellFormed ⟨b, [some (.label l), some a]⟩ := by
  have hshape : b.shape? = some ⟨[.target, .value], .none⟩ := by
    rcases hb with rfl | rfl <;> rfl
  exact (wellFormed_iff_two hshape).mpr
    ⟨_, _, rfl, rfl, Slot.takes_value_iff.mpr ⟨a, rfl, ha⟩⟩

theorem Instr.goal?_test {b : Opcode} (hb : b = .brz ∨ b = .bnz) (l : Label) (a : Option Operand) :
    goal? ⟨b, [some (.label l), a]⟩ = some l := by
  rcases hb with rfl | rfl <;> rfl

theorem Instr.goal?_definition {op : Opcode} (hop : op.isDefinition = true)
    (args : List (Option Operand)) : goal? ⟨op, args⟩ = none := by
  apply goal?_eq_none
  cases op <;> simp_all [Opcode.isDefinition, Opcode.isBranch]

theorem Code.SameLabels.labels_eq {a b : Code} (h : SameLabels a b) : labels b = labels a := by
  rcases h with ⟨x, _, rfl, rfl⟩ | ⟨ha, hb⟩
  · rfl
  · have hnone {c : Code} (hc : ∀ x ∈ c, x.op ≠ .label) : labels c = [] :=
      List.filterMap_eq_nil_iff.mpr fun x hx => Instr.label?_eq_none (hc x hx)
    rw [hnone ha, hnone hb]

namespace Rule
variable {folding : Prop} {gone : Code → RegKey → Prop} {apart : Reg → Operand → Prop} {a b : Code}

theorem wellFormed (h : Rule folding gone apart a b) (ha : ∀ x ∈ a, x.WellFormed) :
    ∀ y ∈ b, y.WellFormed := by
  cases h with
  | keep x => exact ha
  | nop | unread => exact fun y hy => absurd hy List.not_mem_nil
  | @forward op r s z rest hd =>
    exact List.forall_mem_singleton.mpr ((ha _ List.mem_cons_self).into hd z)
  | foldDrop _ hf _ _ hv =>
    exact List.forall_mem_singleton.mpr (Instr.wellFormed_test (Opcode.folded?_eq_some hf).2 hv _)
  | foldKeep _ hf _ _ hv =>
    exact List.forall_mem_cons.mpr ⟨ha _ List.mem_cons_self,
      List.forall_mem_singleton.mpr (Instr.wellFormed_test (Opcode.folded?_eq_some hf).2 hv _)⟩
  | source _ hv =>
    exact List.forall_mem_cons.mpr ⟨ha _ List.mem_cons_self,
      List.forall_mem_singleton.mpr (Instr.wellFormed_test (.inl rfl) hv _)⟩

theorem targets_subset (h : Rule folding gone apart a b) : b.targets ⊆ a.targets := by
  cases h with
  | keep x => exact List.Subset.refl _
  | nop | unread => exact List.nil_subset _
  | forward hd =>
    rw [Code.targets_cons, Instr.goal?_definition hd]
    exact List.nil_subset _
  | foldDrop _ hf hm =>
    obtain ⟨hb, hb'⟩ := Opcode.folded?_eq_some hf
    simp [Code.targets_cons, Instr.goal?_test hb, Instr.goal?_test hb',
      Instr.goal?_definition (Opcode.isDefinition_of_folds hm)]
  | foldKeep _ hf hm =>
    obtain ⟨hb, hb'⟩ := Opcode.folded?_eq_some hf
    simp [Code.targets_cons, Instr.goal?_test hb, Instr.goal?_test hb',
      Instr.goal?_definition (Opcode.isDefinition_of_folds hm)]
  | source => exact List.Subset.refl _

theorem reads_subset (h : Rule folding gone apart a b) : b.reads ⊆ a.reads := by
  cases h with
  | keep x => exact List.Subset.refl _
  | nop | unread => exact List.nil_subset _
  | forward hd =>
    rw [Code.reads_cons, Code.reads_cons, Instr.reads_cons hd, Instr.reads_cons hd]
    exact List.append_subset.mpr ⟨List.subset_append_left _ _, List.nil_subset _⟩
  | @foldDrop op b b' d c u more l _ hf hm =>
    have hu : [some u].filterMap Operand.keyAt? ⊆ (some u :: more).filterMap Operand.keyAt? :=
      ((List.singleton_sublist.mpr List.mem_cons_self).filterMap _).subset
    rw [Code.reads_cons, Code.reads_cons, Instr.reads_test (Opcode.folded?_eq_some hf).2,
      Instr.reads_cons (Opcode.isDefinition_of_folds hm)]
    exact List.append_subset.mpr ⟨List.subset_append_of_subset_left _ hu, List.nil_subset _⟩
  | @foldKeep op b b' d c u more l _ hf hm =>
    have hu : [some u].filterMap Operand.keyAt? ⊆ (some u :: more).filterMap Operand.keyAt? :=
      ((List.singleton_sublist.mpr List.mem_cons_self).filterMap _).subset
    rw [Code.reads_cons, Code.reads_cons, Code.reads_cons, Code.reads_cons, Instr.reads_test
      (Opcode.folded?_eq_some hf).2, Instr.reads_cons (Opcode.isDefinition_of_folds hm)]
    refine List.append_subset.mpr ⟨List.subset_append_left _ _, ?_⟩
    exact List.append_subset.mpr ⟨List.subset_append_of_subset_left _ hu, List.nil_subset _⟩
  | @source r c u l =>
    have hmov : Instr.reads ⟨.mov, [some (.reg r), some u]⟩ = [some u].filterMap Operand.keyAt? :=
      Instr.reads_cons rfl _ _
    rw [Code.reads_cons, Code.reads_cons, Code.reads_cons, Code.reads_cons,
      Instr.reads_test (.inl rfl), hmov]
    refine List.append_subset.mpr ⟨List.subset_append_left _ _, ?_⟩
    exact List.append_subset.mpr ⟨List.subset_append_left _ _, List.nil_subset _⟩

end Rule

namespace Code.Rewrites
variable {folding : Prop} {gone : Code → RegKey → Prop} {apart : Reg → Operand → Prop}
  {old new : Code}

theorem labels_eq (h : Rewrites (Rule folding gone apart) old new) : labels new = labels old := by
  induction h with
  | nil => rfl
  | piece hab _ ih => rw [labels_append, labels_append, hab.sameLabels.labels_eq, ih]

theorem targets_subset (h : Rewrites (Rule folding gone apart) old new) :
    targets new ⊆ targets old := by
  induction h with
  | nil => exact List.Subset.refl _
  | piece hab _ ih =>
    rw [targets_append, targets_append]
    exact List.append_subset.mpr ⟨List.subset_append_of_subset_left _ hab.targets_subset,
      List.subset_append_of_subset_right _ ih⟩

theorem reads_subset (h : Rewrites (Rule folding gone apart) old new) : reads new ⊆ reads old := by
  induction h with
  | nil => exact List.Subset.refl _
  | piece hab _ ih =>
    rw [reads_append, reads_append]
    exact List.append_subset.mpr ⟨List.subset_append_of_subset_left _ hab.reads_subset,
      List.subset_append_of_subset_right _ ih⟩

theorem wellFormed (h : Rewrites (Rule folding gone apart) old new)
    (hold : ∀ x ∈ old, x.WellFormed) :
    ∀ y ∈ new, y.WellFormed := by
  induction h with
  | nil => exact hold
  | piece hab _ ih =>
    obtain ⟨ha, hrest⟩ := List.forall_mem_append.mp hold
    exact List.forall_mem_append.mpr ⟨hab.wellFormed ha, ih hrest⟩

theorem valid (h : Rewrites (Rule folding gone apart) old new) (hold : Valid old) : Valid new where
  wellFormed := h.wellFormed hold.wellFormed
  nodup := h.labels_eq ▸ hold.nodup
  nonneg := h.labels_eq ▸ hold.nonneg
  resolved l hl := h.labels_eq ▸ hold.resolved l (h.targets_subset hl)

end Code.Rewrites

/-- A register that is read in one piece of the old code only, and not in what the piece becomes, is
read nowhere in the new code. -/
theorem not_mem_reads_of_spent {folding : Prop} {gone : Code → RegKey → Prop}
    {apart : Reg → Operand → Prop} {p a q p' b q' : Code} {k : RegKey}
    (hp : Code.Rewrites (Rule folding gone apart) p p')
    (hq : Code.Rewrites (Rule folding gone apart) q q')
    (hcount : (Code.reads (p ++ (a ++ q))).count k ≤ a.reads.count k) (hb : k ∉ b.reads) :
    k ∉ Code.reads (p' ++ (b ++ q')) := by
  rw [Code.reads_append, Code.reads_append, List.count_append, List.count_append] at hcount
  have hkp : k ∉ Code.reads p := List.count_eq_zero.mp (by omega)
  have hkq : k ∉ Code.reads q := List.count_eq_zero.mp (by omega)
  intro hk
  rw [Code.reads_append, Code.reads_append, List.mem_append, List.mem_append] at hk
  rcases hk with hk | hk | hk
  · exact hkp (hp.reads_subset hk)
  · exact hb hk
  · exact hkq (hq.reads_subset hk)

theorem behaviour_eq_of_rules {M : Machine} {folding : Prop} (hM : folding → M.Lawful)
    {old new : Code} (h : Code.Rewrites (Rule folding (fun _ k => k ∉ new.reads) Reg.Apart) old new)
    (ρ : Regs) (w : World) :
    M.behaviour old ρ w = M.behaviour new ρ w := by
  -- The registers that some instruction of the new code reads have to agree, no others.
  have hlive : Code.Rewrites (fun a b => Rule folding (fun _ k => k ∉ new.reads) Reg.Apart a b ∧
      ∀ y ∈ b, ∀ k ∈ y.reads, k ∈ new.reads) old new := by
    apply h.refine_rule
    intro p a q p' b q' _ hnew _ _ hab
    refine ⟨hab, fun y hy k hk => List.mem_flatMap.mpr ⟨y, ?_, hk⟩⟩
    rw [hnew]
    exact List.mem_append_right _ (List.mem_append_left _ hy)
  apply behaviour_eq_of_rewrites (R := Regs.AgreeOn new.reads) _ hlive (fun _ _ => rfl) w
  rintro a b ⟨hab, hb⟩
  exact ⟨hab.nonempty, hab.sameLabels, hab.effect_matches hM hb⟩

end ThreeAddress
