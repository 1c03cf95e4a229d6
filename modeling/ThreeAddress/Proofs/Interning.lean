import Mathlib.Data.List.Nodup
import Mathlib.Logic.Function.Basic
import ThreeAddress.Proofs.Frames

/-!
# Handles that stay what they are

Once its tables are known to agree with each other, the label arena is a list of entries that only
grows, and so is the string pool; a handle is a place in such a list. An entry that is shared is
found again where it is; one that is not gets a place of its own each time it is asked for.
`Catalogue` says what one request does, and all else follows from it by induction over the requests:
which requests get the same handle, that handles are given out in ascending order without a gap, and
that a handle stands for its entry for ever (`interning_stable`).
-/

namespace ThreeAddress
set_option autoImplicit false

/-- The label that is asked for: a new one, or the one that all share who ask for its name. -/
def Labels.allot (ls : Labels) (e : LabelEntry) : Label × Labels :=
  if e.fresh then ls.fresh e.name else ls.intern e.name

section Requests
variable {σ α β : Type}

/-- What requests made one after the other are answered, each answer with its request. -/
def answers (serve : σ → α → β × σ) (s : σ) : List α → List (α × β)
  | [] => []
  | a :: rest => (a, (serve s a).1) :: answers serve (serve s a).2 rest

def afterAll (serve : σ → α → β × σ) (s : σ) (asked : List α) : σ :=
  asked.foldl (fun s a => (serve s a).2) s

theorem afterAll_cons (serve : σ → α → β × σ) (s : σ) (a : α) (rest : List α) :
    afterAll serve s (a :: rest) = afterAll serve (serve s a).2 rest := rfl

theorem afterAll_append (serve : σ → α → β × σ) (s : σ) (asked more : List α) :
    afterAll serve s (asked ++ more) = afterAll serve (afterAll serve s asked) more :=
  List.foldl_append

/-- Requests are for the entries of a list, which `view` shows. A shared entry that is there already
is answered by its place; any other entry is put at the end. -/
structure Catalogue (shared : α → Prop) (view : σ → List α) (handle : Nat → β)
    (serve : σ → α → β × σ) : Prop where
  injective : Function.Injective handle
  serves : ∀ s a, (∃ i, shared a ∧ (view s)[i]? = some a ∧ (serve s a).1 = handle i ∧
    view (serve s a).2 = view s) ∨ ((shared a → a ∉ view s) ∧
    (serve s a).1 = handle (view s).length ∧ view (serve s a).2 = view s ++ [a])

/-- No shared entry has two places. -/
def SharedOnce (shared : α → Prop) (entries : List α) : Prop :=
  ∀ (i j : Nat) a, shared a → entries[i]? = some a → entries[j]? = some a → i = j

theorem sharedOnce_nil (shared : α → Prop) : SharedOnce shared [] := by
  intro i j a _ hi
  cases hi

theorem SharedOnce.concat {shared : α → Prop} {entries : List α} {a : α}
    (h : SharedOnce shared entries) (hnew : shared a → a ∉ entries) :
    SharedOnce shared (entries ++ [a]) := by
  intro i j b hb hi hj
  have hplace : ∀ k, (entries ++ [a])[k]? = some b →
      entries[k]? = some b ∨ k = entries.length ∧ b = a := by
    intro k hk
    rw [List.getElem?_append] at hk
    split at hk
    · exact .inl hk
    · obtain ⟨hlt, hba⟩ := List.getElem?_eq_some_iff.mp hk
      simp only [List.length_singleton] at hlt
      simp only [List.getElem_singleton] at hba
      exact .inr ⟨by omega, hba.symm⟩
  rcases hplace i hi with hold | ⟨hlast, rfl⟩
  · rcases hplace j hj with hold' | ⟨_, rfl⟩
    · exact h i j b hb hold hold'
    · exact absurd (List.mem_of_getElem? hold) (hnew hb)
  · rcases hplace j hj with hold' | ⟨hlast', _⟩
    · exact absurd (List.mem_of_getElem? hold') (hnew hb)
    · exact hlast.trans hlast'.symm

namespace Catalogue
variable {shared : α → Prop} {view : σ → List α} {handle : Nat → β} {serve : σ → α → β × σ}
  (h : Catalogue shared view handle serve)
include h

theorem view_prefix (s : σ) (a : α) : view s <+: view (serve s a).2 := by
  rcases h.serves s a with ⟨_, _, _, _, hview⟩ | ⟨_, _, hview⟩
  · exact hview ▸ List.prefix_rfl
  · exact hview ▸ List.prefix_append _ _

theorem view_prefix_afterAll (s : σ) (asked : List α) :
    view s <+: view (afterAll serve s asked) := by
  induction asked generalizing s with
  | nil => exact List.prefix_rfl
  | cons a rest ih => exact (h.view_prefix s a).trans (ih _)

theorem exists_place (s : σ) (a : α) :
    ∃ i, (serve s a).1 = handle i ∧ (view (serve s a).2)[i]? = some a := by
  rcases h.serves s a with ⟨i, _, hi, hhandle, hview⟩ | ⟨_, hhandle, hview⟩
  · exact ⟨i, hhandle, by rw [hview, hi]⟩
  · exact ⟨_, hhandle, by rw [hview, List.getElem?_concat_length]⟩

theorem exists_place_afterAll (s : σ) (asked : List α) {p : α × β}
    (hp : p ∈ answers serve s asked) :
    ∃ i, p.2 = handle i ∧ (view (afterAll serve s asked))[i]? = some p.1 := by
  induction asked generalizing s with
  | nil => cases hp
  | cons a rest ih =>
    rcases List.mem_cons.mp hp with rfl | hp
    · obtain ⟨i, hhandle, hi⟩ := h.exists_place s a
      exact ⟨i, hhandle, getElem?_of_prefix (h.view_prefix_afterAll _ rest) hi⟩
    · exact ih _ hp

theorem sharedOnce_afterAll (s : σ) (asked : List α) (hs : SharedOnce shared (view s)) :
    SharedOnce shared (view (afterAll serve s asked)) := by
  induction asked generalizing s with
  | nil => exact hs
  | cons a rest ih =>
    apply ih
    rcases h.serves s a with ⟨_, _, _, _, hview⟩ | ⟨hnew, _, hview⟩
    · rwa [hview]
    · rw [hview]
      exact hs.concat hnew

theorem length_le_of_not_shared (s : σ) (asked : List α) {p : α × β}
    (hp : p ∈ answers serve s asked) (hshared : ¬ shared p.1) {i : Nat} (hi : p.2 = handle i) :
    (view s).length ≤ i := by
  induction asked generalizing s with
  | nil => cases hp
  | cons a rest ih =>
    rcases List.mem_cons.mp hp with rfl | hp
    · rcases h.serves s a with ⟨_, ha, _⟩ | ⟨_, hhandle, _⟩
      · exact absurd ha hshared
      · exact Nat.le_of_eq (h.injective (hhandle.symm.trans hi))
    · exact Nat.le_trans (h.view_prefix s a).length_le (ih _ hp)

/-- Of two requests the later one gets the handle of the earlier one exactly if both are for one
shared entry. -/
theorem pairwise_answers (s : σ) (asked : List α) (hs : SharedOnce shared (view s)) :
    (answers serve s asked).Pairwise fun a b => a.2 = b.2 ↔ a.1 = b.1 ∧ shared a.1 := by
  induction asked generalizing s with
  | nil => exact .nil
  | cons a rest ih =>
    have hnext : SharedOnce shared (view (serve s a).2) := h.sharedOnce_afterAll s [a] hs
    refine .cons ?_ (ih _ hnext)
    intro b hb
    obtain ⟨i, hhandle, hi⟩ := h.exists_place s a
    obtain ⟨j, hb₂, hj⟩ := h.exists_place_afterAll _ rest hb
    have hlast := getElem?_of_prefix (h.view_prefix_afterAll _ rest) hi
    simp only [hhandle]
    constructor
    · intro heq
      obtain rfl : i = j := h.injective (heq.trans hb₂)
      have hab : a = b.1 := Option.some.inj (hlast.symm.trans hj)
      refine ⟨hab, ?_⟩
      by_contra hshared
      -- an entry that is not shared would have a place after those that there were
      have hle := h.length_le_of_not_shared _ rest hb (hab ▸ hshared) hb₂
      obtain ⟨hlt, _⟩ := List.getElem?_eq_some_iff.mp hi
      omega
    · intro hsame
      obtain ⟨hab, hshared⟩ := hsame
      rw [← hab] at hj
      rw [hb₂, h.sharedOnce_afterAll _ rest hnext i j a hshared hlast hj]

end Catalogue

theorem eraseDups_of_nodup [DecidableEq β] {l : List β} (h : l.Nodup) : l.eraseDups = l := by
  induction l with
  | nil => rfl
  | cons b l ih =>
    obtain ⟨hb, hl⟩ := List.nodup_cons.mp h
    have hkeep : l.filter (fun c => !c == b) = l := by
      apply List.filter_eq_self.mpr
      intro c hc
      have hne : c ≠ b := fun heq => hb (heq ▸ hc)
      simp [hne]
    rw [List.eraseDups_cons, hkeep, ih hl]

theorem eraseDups_append_cons [DecidableEq β] {l : List β} {b : β} (h : b ∈ l) (rest : List β) :
    (l ++ b :: rest).eraseDups = (l ++ rest).eraseDups := by
  have hgone : (b :: rest).removeAll l = rest.removeAll l := by simp [List.cons_removeAll, h]
  rw [List.eraseDups_append, List.eraseDups_append, hgone]

theorem Catalogue.eraseDups_answers [DecidableEq β] {shared : α → Prop} {view : σ → List α}
    {handle : Nat → β} {serve : σ → α → β × σ} (h : Catalogue shared view handle serve) (s : σ)
    (asked : List α) :
    ((List.range (view s).length).map handle ++ (answers serve s asked).map Prod.snd).eraseDups =
      (List.range (view (afterAll serve s asked)).length).map handle := by
  induction asked generalizing s with
  | nil =>
    rw [answers, List.map_nil, List.append_nil]
    exact eraseDups_of_nodup (List.nodup_range.map h.injective)
  | cons a rest ih =>
    have hrest := ih (serve s a).2
    rw [answers, List.map_cons, afterAll_cons, ← hrest]
    rcases h.serves s a with ⟨i, _, hi, hhandle, hview⟩ | ⟨_, hhandle, hview⟩
    · have hmem : handle i ∈ (List.range (view s).length).map handle :=
        List.mem_map_of_mem (List.mem_range.mpr (List.getElem?_eq_some_iff.mp hi).1)
      rw [hhandle, hview, eraseDups_append_cons hmem]
    · rw [hhandle, hview, List.length_append, List.length_singleton, List.range_succ,
          List.map_append, List.append_assoc]
      rfl

end Requests

theorem Labels.catalogue_allot :
    Catalogue (fun e => e.fresh = false) (fun ls : Labels => ls.entries)
      (fun n : Nat => (⟨n⟩ : Label)) Labels.allot where
  injective m n h := Int.ofNat.inj (congrArg Label.handle h)
  serves ls e := by
    obtain ⟨name, fresh⟩ := e
    cases fresh with
    | true =>
      have hallot : ls.allot ⟨name, true⟩ = ls.push ⟨name, true⟩ := ls.fresh_eq name
      rw [hallot, length_entries, entries_push]
      exact .inr ⟨Bool.noConfusion, rfl, rfl⟩
    | false =>
      have hallot : ls.allot ⟨name, false⟩ = ls.intern name := rfl
      rw [hallot]
      cases hfound : ls.interned? name with
      | some l =>
        obtain ⟨i, rfl, hi⟩ := get?_eq_some_iff.mp (get?_of_interned? hfound)
        rw [intern_of_interned? hfound]
        exact .inl ⟨i, rfl, hi, rfl, rfl⟩
      | none =>
        rw [intern_of_new hfound, length_entries, entries_push]
        refine .inr ⟨fun _ hmem => ?_, rfl, rfl⟩
        have hnone := List.findIdx?_eq_none_iff.mp (Option.map_eq_none_iff.mp hfound) _ hmem
        simp at hnone

theorem Pool.catalogue_intern : Catalogue (fun _ => True) Pool.strings id Pool.intern where
  injective := Function.injective_id
  serves p b := by
    cases hfound : p.index? b with
    | some i =>
      rw [intern_of_index? hfound]
      exact .inl ⟨i, trivial, getElem?_of_index? hfound, rfl, rfl⟩
    | none =>
      rw [intern_of_new hfound]
      refine .inr ⟨fun _ hmem => ?_, rfl, rfl⟩
      have hnone := List.findIdx?_eq_none_iff.mp hfound b hmem
      simp at hnone

theorem Labels.name_of_getElem? {ls : Labels} {n : Nat} {e : LabelEntry}
    (h : ls.entries[n]? = some e) :
    ls.name ⟨n⟩ = e.name ∧ ls.isFresh ⟨n⟩ = e.fresh := by
  have hget : ls.get? ⟨n⟩ = some e := get?_eq_some_iff.mpr ⟨n, rfl, h⟩
  rw [name_eq, isFresh_eq, hget]
  exact ⟨rfl, rfl⟩

theorem SharedOnce.nodup {α : Type} {entries : List α} (h : SharedOnce (fun _ => True) entries) :
    entries.Nodup := by
  rw [List.nodup_iff_getElem?_ne_getElem?]
  intro i j hij hj heq
  have hlt :=
    h i j entries[j] trivial (heq.trans (List.getElem?_eq_getElem hj)) (List.getElem?_eq_getElem hj)
  omega

/-- Labels are asked for in any order, new ones and shared ones, from an arena that is empty at
first. The later of two requests gets the label of the earlier one exactly if both are for one name
that is shared; a new label is like none before it. The labels are numbered from 0 on in the order
in which they are made, without a gap, and a label keeps its name, and whether it was made new,
whatever else is asked for. In a pool no string stands twice, and two strings have one index exactly
if they are equal, at which the string is found ever after. -/
theorem interning_stable (asked : List LabelEntry) (texts : List Bytes) :
    ((answers Labels.allot .empty asked).Pairwise fun a b =>
      a.2 = b.2 ↔ a.1 = b.1 ∧ a.1.fresh = false) ∧
    ((answers Labels.allot .empty asked).map Prod.snd).eraseDups =
      (List.range (afterAll Labels.allot .empty asked).size).map (fun n : Nat => ⟨n⟩) ∧
    (∀ more, ∀ a ∈ answers Labels.allot .empty asked,
      (afterAll Labels.allot .empty (asked ++ more)).name a.2 = a.1.name ∧
        (afterAll Labels.allot .empty (asked ++ more)).isFresh a.2 = a.1.fresh) ∧
    ((answers Pool.intern .empty texts).Pairwise fun a b => a.2 = b.2 ↔ a.1 = b.1) ∧
    (afterAll Pool.intern .empty texts).strings.Nodup ∧
    ∀ more, ∀ a ∈ answers Pool.intern .empty texts,
      (afterAll Pool.intern .empty (texts ++ more)).strings[a.2]? = some a.1 := by
  have hlabels := Labels.catalogue_allot
  have hpool := Pool.catalogue_intern
  refine ⟨hlabels.pairwise_answers .empty asked (sharedOnce_nil _), ?_, ?_, ?_, ?_, ?_⟩
  · rw [← Labels.length_entries]
    exact hlabels.eraseDups_answers .empty asked
  · intro more a ha
    obtain ⟨i, hi, hentry⟩ := hlabels.exists_place_afterAll .empty asked ha
    rw [hi, afterAll_append]
    have hname := getElem?_of_prefix (hlabels.view_prefix_afterAll _ more) hentry
    exact Labels.name_of_getElem? hname
  · apply (hpool.pairwise_answers .empty texts (sharedOnce_nil _)).imp
    intro a b hab
    rw [hab, and_iff_left trivial]
  · exact (hpool.sharedOnce_afterAll .empty texts (sharedOnce_nil _)).nodup
  · intro more a ha
    obtain ⟨i, hi, hentry⟩ := hpool.exists_place_afterAll .empty texts ha
    rw [hi, afterAll_append]
    exact getElem?_of_prefix (hpool.view_prefix_afterAll _ more) hentry

/-- A new label between two requests for the shared one of the same name. -/
def LabelEntry.shadowing : List LabelEntry :=
  [⟨"f", false⟩, ⟨"f", true⟩, ⟨"g", false⟩, ⟨"f", false⟩]

theorem interning_stable_shadowing :
    answers Labels.allot .empty LabelEntry.shadowing =
      [(⟨"f", false⟩, ⟨0⟩), (⟨"f", true⟩, ⟨1⟩), (⟨"g", false⟩, ⟨2⟩), (⟨"f", false⟩, ⟨0⟩)] ∧
    (∀ more, (afterAll Labels.allot .empty (LabelEntry.shadowing ++ more)).name ⟨1⟩ = "f" ∧
      (afterAll Labels.allot .empty (LabelEntry.shadowing ++ more)).isFresh ⟨1⟩ = true) ∧
    answers Pool.intern .empty [[104, 105], [], [104, 105]] =
      [([104, 105], 0), ([], 1), ([104, 105], 0)] ∧
    ∀ more, (afterAll Pool.intern .empty ([[104, 105], [], [104, 105]] ++ more)).strings[1]? =
      some [] := by
  have hlabels : answers Labels.allot .empty LabelEntry.shadowing =
      [(⟨"f", false⟩, ⟨0⟩), (⟨"f", true⟩, ⟨1⟩), (⟨"g", false⟩, ⟨2⟩), (⟨"f", false⟩, ⟨0⟩)] := by
    decide
  have htexts : answers Pool.intern .empty [[104, 105], [], [104, 105]] =
      [([104, 105], 0), ([], 1), ([104, 105], 0)] := by
    decide
  obtain ⟨_, _, hnames, _, _, hstrings⟩ :=
    interning_stable LabelEntry.shadowing [[104, 105], [], [104, 105]]
  refine ⟨hlabels, fun more => ?_, htexts, fun more => ?_⟩
  · exact hnames more (⟨"f", true⟩, ⟨1⟩) (by rw [hlabels]; decide)
  · exact hstrings more ([], 1) (by rw [htexts]; decide)

end ThreeAddress
