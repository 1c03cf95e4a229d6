import ThreeAddress.Pipeline

/-!
# Filtering in place

A pipeline filters the functions of a program in place, while it goes through them: what it keeps is
moved to the front of the list that it still reads. `Pipeline.runFuncs` makes a new list instead,
and gives the same (`Pipeline.runProgram_eq`). The reports of the two stages of compilation are all
that they can fail with, so compilation ends early in neither (`compileWith_eq`).
-/

namespace ThreeAddress
set_option autoImplicit false

namespace Pipeline
variable {m : Type → Type} [Monad m]

/-- Works on functions one after the other, and lists those that are kept and those that failed. -/
def runFuncs (pl : Pipeline m) : List Func → m (List Func × Report)
  | [] => return ([], [])
  | f :: rest => do
    let (f, r) ← pl.runFunc f
    let (fs, errs) ← pl.runFuncs rest
    match r with
    | .ok () => return (f :: fs, errs)
    | .error e => return (fs, ⟨f.name, e⟩ :: errs)

/-- The functions that are kept, and those that failed. -/
def Filtering.result (w : Filtering) : List Func × Report := (w.slots.take w.kept, w.errs)

/-- Work that has gone through all functions but `rest`: it has kept `front`, and nobody asks any
more for what stands behind. -/
def Filtering.amid (front stale rest : List Func) (errs : Report) : Filtering :=
  ⟨front ++ stale ++ rest, front.length, errs⟩

section
variable (pl : Pipeline m) (front stale rest : List Func) (errs : Report)

theorem getElem?_slots_amid (f : Func) :
    (Filtering.amid front stale (f :: rest) errs).slots[(front ++ stale).length]? = some f := by
  rw [Filtering.amid, List.getElem?_append_right (Nat.le_refl _), Nat.sub_self,
    List.getElem?_cons_zero]

theorem set_front (g : Func) : (front ++ (stale ++ [g]) ++ rest).set front.length g =
    front ++ [g] ++ (stale ++ [g]).tail ++ rest := by
  rw [List.append_assoc, List.set_append_right _ _ (Nat.le_refl _), Nat.sub_self]
  cases stale with
  | nil => simp
  | cons a stale => simp

theorem runSlot_amid (f : Func) :
    pl.runSlot (.amid front stale (f :: rest) errs) (front ++ stale).length = (do
      match ← pl.runFunc f with
      | (g, .error e) => return .amid front (stale ++ [g]) rest (errs ++ [⟨g.name, e⟩])
      | (g, .ok ()) => return .amid (front ++ [g]) (stale ++ [g]).tail rest errs) := by
  have hslot (g : Func) :
      (front ++ stale ++ f :: rest).set (front ++ stale).length g =
        front ++ (stale ++ [g]) ++ rest := by
    rw [List.set_append_right _ _ (Nat.le_refl _), Nat.sub_self, List.set_cons_zero]
    simp
  rw [runSlot, getElem?_slots_amid]
  apply bind_congr
  rintro ⟨g, r⟩
  cases r with
  | error e => simp only [Filtering.amid, hslot]
  | ok _ =>
    have hkept : front.length + 1 = (front ++ [g]).length := by simp
    simp only [Filtering.amid, hslot, set_front, hkept]

variable [LawfulMonad m]

/-- The loop from the middle on. -/
theorem result_foldlM_runSlot :
    Filtering.result <$> (List.range' (front ++ stale).length rest.length).foldlM pl.runSlot
        (.amid front stale rest errs) =
      (fun out => (front ++ out.1, errs ++ out.2)) <$> pl.runFuncs rest := by
  induction rest generalizing front stale errs with
  | nil => simp [runFuncs, Filtering.result, Filtering.amid]
  | cons f rest ih =>
    rw [List.length_cons, List.range'_succ, List.foldlM_cons, runFuncs, runSlot_amid, bind_assoc,
      map_bind, map_bind]
    apply bind_congr
    rintro ⟨g, r⟩
    cases r with
    | error e =>
      have hrest := ih front (stale ++ [g]) (errs ++ [⟨g.name, e⟩])
      have hnext : (front ++ (stale ++ [g])).length = (front ++ stale).length + 1 := by
        simp [Nat.add_assoc]
      rw [hnext] at hrest
      simp only [pure_bind, hrest]
      simp
    | ok _ =>
      have hrest := ih (front ++ [g]) (stale ++ [g]).tail errs
      have hnext : (front ++ [g] ++ (stale ++ [g]).tail).length = (front ++ stale).length + 1 := by
        simp only [List.length_append, List.length_tail, List.length_singleton]
        omega
      rw [hnext] at hrest
      simp only [pure_bind, hrest]
      simp

theorem runProgram_eq (p : Program) :
    pl.runProgram p =
      (fun out => ({ p with funcs := out.1 }, out.2.err)) <$> pl.runFuncs p.funcs := by
  have hloop := result_foldlM_runSlot pl [] [] p.funcs []
  simp only [List.nil_append, Prod.eta, id_map'] at hloop
  rw [← hloop, Functor.map_map, runProgram, List.range_eq_range', bind_pure_comp]
  rfl

end

end Pipeline

/-- A stage that reports functions has no other error. -/
theorem collect_err (errs r : Report) : collect errs r.err = (errs ++ r, none) := by
  cases r with
  | nil => simp [Report.err, collect]
  | cons e r => rfl

theorem Program.lower_eq (file : File) :
    Program.lower file = Session.empty.lowerFuncs [] file >>= fun low =>
      .ok (low.1.toProgram, low.2.err) := rfl

theorem compileWith_eq (pl : Pipeline (Except Fault)) (file : File) :
    compileWith pl file = Session.empty.lowerFuncs [] file >>= fun low =>
      pl.runFuncs low.1.funcs >>= fun out =>
        .ok (some { low.1.toProgram with funcs := out.1 }, (low.2 ++ out.2).err) := by
  have hlower := Program.lower_eq file
  cases hfuncs : Session.empty.lowerFuncs [] file with
  | error f => simp [compileWith, hlower, hfuncs, bind, Except.bind]
  | ok low =>
    have hprog := pl.runProgram_eq low.1.toProgram
    cases hrun : pl.runFuncs low.1.funcs with
    | error f =>
      simp [compileWith, hlower, hfuncs, hprog, hrun, bind, Except.bind, Functor.map, Except.map,
        collect_err]
    | ok out =>
      simp [compileWith, hlower, hfuncs, hprog, hrun, bind, Except.bind, Functor.map, Except.map,
        pure, Except.pure, collect_err]

end ThreeAddress
