import ThreeAddress.Proofs.Acceptance
import ThreeAddress.Proofs.Pairings

/-!
# Chains and nested operations

A chain can be written as binary operations, nested to the left. `unchained` writes all chains of a
tree so, but for those without terms. A tree that is accepted stays so (`ExprAt.Sound.unchained`,
`StmtAt.sound_unchained`).
-/

namespace ThreeAddress
set_option autoImplicit false

open LowerM

namespace Expr

/-- The operations of a chain, each the left operand of the next. -/
def leftNested (w : Width) (first : Expr) (rest : List (Bytes × Expr)) : Expr :=
  rest.foldl (fun x t => .binary t.1 x t.2 w) first

mutual

/-- The expression with operations in place of chains. A chain without terms stays. -/
def unchained : Expr → Expr
  | unary op x w => unary op x.unchained w
  | binary op x y w => binary op x.unchained y.unchained w
  | chain first [] w => chain first.unchained [] w
  | chain first (t :: rest) w => leftNested w first.unchained (unchainedTerms (t :: rest))
  | logic op list w => logic op (unchainedList list) w
  | cond c a b w => cond c.unchained a.unchained b.unchained w
  | call f args => call f (unchainedList args)
  | assign v x => assign v x.unchained
  | load addr w => load addr.unchained w
  | e => e

def unchainedTerms : List (Bytes × Expr) → List (Bytes × Expr)
  | [] => []
  | (op, x) :: rest => (op, x.unchained) :: unchainedTerms rest

def unchainedList : List Expr → List Expr
  | [] => []
  | x :: rest => x.unchained :: unchainedList rest

end

theorem unchainedTerms_eq_map (list : List (Bytes × Expr)) :
    unchainedTerms list = list.map fun t => (t.1, t.2.unchained) := by
  induction list with
  | nil => rw [unchainedTerms, List.map_nil]
  | cons t rest ih => rw [unchainedTerms, ih, List.map_cons]

theorem unchainedList_eq_map (list : List Expr) : unchainedList list = list.map unchained := by
  induction list with
  | nil => rw [unchainedList, List.map_nil]
  | cons x rest ih => rw [unchainedList, ih, List.map_cons]

example (a b c : Expr) (w : Width) : (chain a [("+", b), ("-", c)] w).unchained =
    binary "-" (binary "+" a.unchained b.unchained w) c.unchained w := rfl

theorem leftNested_cons (w : Width) (first : Expr) (op : Bytes) (x : Expr)
    (rest : List (Bytes × Expr)) :
    leftNested w first ((op, x) :: rest) = leftNested w (binary op first x w) rest := rfl

theorem exists_leftNested_eq (w : Width) (first : Expr) (t : Bytes × Expr)
    (rest : List (Bytes × Expr)) :
    ∃ op x y, leftNested w first (t :: rest) = binary op x y w := by
  induction rest generalizing first t with
  | nil => exact ⟨t.1, first, t.2, rfl⟩
  | cons u rest ih => exact ih (binary t.1 first t.2 w) u

theorem outside_unchained (e : Expr) :
    e.unchained.isHole = e.isHole ∧ e.unchained.width = e.width ∧ e.unchained.atom? = e.atom? := by
  cases e with
  | chain first rest w =>
    cases rest with
    | nil =>
      rw [unchained]
      exact ⟨rfl, rfl, rfl⟩
    | cons t rest =>
      obtain ⟨op, x, y, heq⟩ :=
        exists_leftNested_eq w first.unchained (t.1, t.2.unchained) (unchainedTerms rest)
      rw [unchained, unchainedTerms, heq]
      exact ⟨rfl, rfl, rfl⟩
  | _ => simp [unchained, isHole, width, atom?]

theorem unchained_hole : hole.unchained = hole := by
  simp [unchained]

theorem isHole_unchained (e : Expr) : e.unchained.isHole = e.isHole := (outside_unchained e).1

theorem width_unchained (e : Expr) : e.unchained.width = e.width := (outside_unchained e).2.1

theorem atom?_unchained (e : Expr) : e.unchained.atom? = e.atom? := (outside_unchained e).2.2

theorem unchained_of_atom? {e : Expr} {act : LowerM Operand} (h : e.atom? = some act) :
    e.unchained = e := by
  cases e with
  | num | var | str | funcRef => rw [unchained] <;> nofun
  | _ => cases h

end Expr

namespace Stmt

mutual

def unchained : Stmt → Stmt
  | block list => block (unchainedList list)
  | expr x => expr x.unchained
  | store addr x => store addr.unchained x.unchained
  | branch c a b => branch c.unchained a.unchained b.unchained
  | whileLoop c body => whileLoop c.unchained body.unchained
  | forLoop start c post body => forLoop start.unchained c.unchained post.unchained body.unchained
  | ret x => ret x.unchained
  | stray (.expr x) => stray (.expr x.unchained)
  | x => x

def unchainedList : List Stmt → List Stmt
  | [] => []
  | x :: rest => x.unchained :: unchainedList rest

end

theorem isHole_unchained (x : Stmt) : x.unchained.isHole = x.isHole := by
  cases x with
  | stray y => cases y <;> simp [unchained, isHole]
  | _ => simp [unchained, isHole]

theorem unchainedList_eq_map (list : List Stmt) : unchainedList list = list.map unchained := by
  induction list with
  | nil => rw [unchainedList, List.map_nil]
  | cons x rest ih => rw [unchainedList, ih, List.map_cons]

end Stmt

def Decl.unchained (d : Decl) : Decl := { d with body := d.body.map Stmt.unchainedList }

def File.unchained (file : File) : File := file.map (Option.map Decl.unchained)

theorem Decl.stmt_unchained (d : Decl) : d.unchained.stmt = d.stmt.unchained := by
  unfold Decl.unchained Decl.stmt
  cases d.body with
  | none => simp [Stmt.unchained]
  | some list => simp [Stmt.unchained]

theorem BinOp.ofSymbol?_of_chain {op : Bytes} {o : BinOp} (h : ofChainSymbol? op = some o) :
    ofSymbol? op = some o := by
  have hsymbols : chainSymbols <+: symbols := ⟨_, rfl⟩
  exact hsymbols.lookup_eq_some h

namespace ExprAt

theorem sound_leftNested {w : Width} {first : Expr} {rest : List (Bytes × Expr)}
    (hfirst : ∀ discarded, Sound ⟨first, discarded⟩)
    (hrest : ∀ t ∈ rest, (BinOp.ofSymbol? t.1).isSome = true ∧ Sound ⟨t.2, false⟩)
    (discarded : Bool) :
    Sound ⟨Expr.leftNested w first rest, discarded⟩ := by
  induction rest generalizing first with
  | nil => exact hfirst discarded
  | cons t rest ih =>
    obtain ⟨⟨hop, ht⟩, hrest⟩ := List.forall_mem_cons.mp hrest
    exact ih (fun _ => sound_binary.mpr ⟨hop, hfirst false, ht⟩) hrest

theorem Sound.unchained {e : Expr} {discarded : Bool} (h : Sound ⟨e, discarded⟩) :
    Sound ⟨e.unchained, discarded⟩ := by
  induction e using Expr.induction generalizing discarded with
  | h e ih =>
  cases e with
  | unary op x w =>
    obtain ⟨hop, hx⟩ := sound_unary.mp h
    rw [Expr.unchained]
    exact sound_unary.mpr ⟨hop, ih x (by simp [Expr.children]) hx⟩
  | binary op x y w =>
    obtain ⟨hop, hx, hy⟩ := sound_binary.mp h
    rw [Expr.unchained]
    exact sound_binary.mpr
      ⟨hop, ih x (by simp [Expr.children]) hx, ih y (by simp [Expr.children]) hy⟩
  | chain first rest w =>
    cases rest with
    | nil =>
      rw [Expr.unchained]
      exact sound_chain_nil.mpr (ih first (by simp [Expr.children]) (sound_chain_nil.mp h))
    | cons t rest =>
      obtain ⟨hfirst, hterms⟩ := sound_chain_cons.mp h
      have hunchained : ∀ u ∈ (t :: rest).map (fun t => (t.1, t.2.unchained)),
          (BinOp.ofSymbol? u.1).isSome = true ∧ Sound ⟨u.2, false⟩ := by
        rw [List.forall_mem_map]
        intro u hu
        obtain ⟨o, ho⟩ := Option.isSome_iff_exists.mp (hterms u hu).1
        refine ⟨Option.isSome_iff_exists.mpr ⟨o, BinOp.ofSymbol?_of_chain ho⟩,
          ih u.2 ?_ (hterms u hu).2⟩
        exact List.mem_cons_of_mem _ (List.mem_map_of_mem hu)
      obtain ⟨⟨hop, ht⟩, hrest⟩ := List.forall_mem_cons.mp hunchained
      have hsum (discarded : Bool) :
          Sound ⟨.binary t.1 first.unchained t.2.unchained w, discarded⟩ :=
        sound_binary.mpr ⟨hop, ih first (by simp [Expr.children]) hfirst, ht⟩
      rw [Expr.unchained, Expr.unchainedTerms_eq_map]
      exact sound_leftNested hsum hrest discarded
  | logic op list w =>
    obtain ⟨hop, hlist⟩ := sound_logic.mp h
    rw [Expr.unchained, Expr.unchainedList_eq_map]
    refine sound_logic.mpr ⟨hop, List.forall_mem_map.mpr fun x hx => ih x hx (hlist x hx)⟩
  | cond c a b w =>
    obtain ⟨hc, ha, hb⟩ := sound_cond.mp h
    rw [Expr.unchained]
    exact sound_cond.mpr ⟨ih c (by simp [Expr.children]) hc, ih a (by simp [Expr.children]) ha,
      ih b (by simp [Expr.children]) hb⟩
  | call f args =>
    cases f with
    | none => cases (h _ .refl).complete
    | some f =>
      obtain ⟨hlen, hargs⟩ := sound_call.mp h
      rw [Expr.unchained, Expr.unchainedList_eq_map]
      exact sound_call.mpr
        ⟨(List.length_map _).trans hlen, List.forall_mem_map.mpr fun x hx => ih x hx (hargs x hx)⟩
  | assign v x =>
    cases v with
    | none => cases (h _ .refl).complete
    | some v =>
      rw [Expr.unchained]
      exact sound_assign.mpr (ih x (by simp [Expr.children]) (sound_assign.mp h))
  | load addr w =>
    rw [Expr.unchained]
    exact sound_load.mpr (ih addr (by simp [Expr.children]) (sound_load.mp h))
  | hole | num | str | var | funcRef | foreign =>
    rw [Expr.unchained]
    · exact h
    all_goals nofun

end ExprAt

namespace StmtAt

mutual

theorem sound_unchained :
    ∀ (x : Stmt) {inLoop : Bool}, Sound ⟨x, inLoop⟩ → Sound ⟨x.unchained, inLoop⟩
  | .hole, _, h => by simpa [Stmt.unchained] using h
  | .block list, _, h => by
    rw [Stmt.unchained, Stmt.unchainedList_eq_map]
    exact sound_block.mpr
      (List.forall_mem_map.mpr fun x hx => sound_unchainedList list (sound_block.mp h) x hx)
  | .expr e, _, h => by
    rw [Stmt.unchained]
    exact sound_expr.mpr (sound_expr.mp h).unchained
  | .store addr e, _, h => by
    obtain ⟨ha, he⟩ := sound_store.mp h
    rw [Stmt.unchained]
    exact sound_store.mpr ⟨ha.unchained, he.unchained⟩
  | .branch c a b, _, h => by
    obtain ⟨hc, ha, hb⟩ := sound_branch.mp h
    rw [Stmt.unchained]
    exact sound_branch.mpr ⟨hc.unchained, sound_unchained a ha, sound_unchained b hb⟩
  | .whileLoop c body, _, h => by
    obtain ⟨hc, hbody⟩ := sound_whileLoop.mp h
    rw [Stmt.unchained]
    exact sound_whileLoop.mpr ⟨hc.unchained, sound_unchained body hbody⟩
  | .forLoop start c post body, _, h => by
    obtain ⟨hc, hstart, hpost, hbody⟩ := sound_forLoop.mp h
    rw [Stmt.unchained]
    have hc' (hhole : c.unchained.isHole = false) := (hc (c.isHole_unchained ▸ hhole)).unchained
    exact sound_forLoop.mpr
      ⟨hc', sound_unchained start hstart, sound_unchained post hpost, sound_unchained body hbody⟩
  | .breakLoop, _, h => by simpa [Stmt.unchained] using h
  | .continueLoop, _, h => by simpa [Stmt.unchained] using h
  | .ret e, _, h => by
    rw [Stmt.unchained]
    refine sound_ret.mpr fun hhole => ?_
    rw [Expr.isHole_unchained] at hhole
    exact (sound_ret.mp h hhole).unchained
  | .stray _, _, h => by cases (h _ .refl).stray

theorem sound_unchainedList :
    ∀ (list : List Stmt) {inLoop : Bool}, (∀ x ∈ list, Sound ⟨x, inLoop⟩) →
      ∀ x ∈ list, Sound ⟨x.unchained, inLoop⟩
  | [], _, _ => List.forall_mem_nil _
  | x :: rest, _, h => by
    obtain ⟨hx, hrest⟩ := List.forall_mem_cons.mp h
    exact List.forall_mem_cons.mpr ⟨sound_unchained x hx, sound_unchainedList rest hrest⟩

end

end StmtAt

end ThreeAddress
