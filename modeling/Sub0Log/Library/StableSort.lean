import Mathlib

/-!
# Stable sorting, and when the order of the input matters

A total preorder `le` does not tell tied elements apart (`Tied`), and a stable sort leaves
those in the order they came in.

* `filter_tied_mergeSort` — the elements tied with a given one, before and after sorting;
* **`mergeSort_eq_iff`** — two lists are sorted into the same list exactly when they agree on
  every class of tied elements, order and multiplicity included;
* **`flatMap_perm_iff`** — a concatenation does not depend on the order of its parts exactly
  when any two of them commute, and
* **`append_comm_iff`** — lists without repetitions commute exactly when one of them is empty
  or they are the same.
-/

namespace StableSort

variable {α ι : Type}

/-! ### Classes of tied elements -/

section Sorting

variable (le : α → α → Bool)

/-- The order does not tell the two apart. -/
def Tied (a b : α) : Bool := le a b && le b a

variable {le}

theorem tied_iff {a b : α} : Tied le a b = true ↔ le a b = true ∧ le b a = true :=
  Bool.and_eq_true_iff

theorem Tied.symm {a b : α} (h : Tied le a b = true) : Tied le b a = true :=
  tied_iff.mpr (tied_iff.mp h).symm

variable (htrans : ∀ a b c, le a b = true → le b c = true → le a c = true)
  (htotal : ∀ a b, (le a b || le b a) = true)

include htrans in
theorem Tied.trans {a b c : α} (h : Tied le a b = true) (h' : Tied le b c = true) :
    Tied le a c = true := by
  obtain ⟨hab, hba⟩ := tied_iff.mp h
  obtain ⟨hbc, hcb⟩ := tied_iff.mp h'
  exact tied_iff.mpr ⟨htrans a b c hab hbc, htrans c b a hcb hba⟩

include htotal in
theorem le_self (a : α) : le a a = true := by
  have h := htotal a a
  rwa [Bool.or_self] at h

include htotal in
theorem tied_self (a : α) : Tied le a a = true :=
  tied_iff.mpr ⟨le_self htotal a, le_self htotal a⟩

include htrans in
/-- Among tied elements any order is sorted. -/
theorem pairwise_filter_tied (a : α) (l : List α) : (l.filter (Tied le a)).Pairwise (le · ·) := by
  refine List.pairwise_iff_forall_sublist.mpr fun {x y} hxy => ?_
  have hx := (List.mem_filter.mp (hxy.subset List.mem_cons_self)).2
  have hy := (List.mem_filter.mp (hxy.subset (List.mem_cons_of_mem _ List.mem_cons_self))).2
  exact htrans x a y (tied_iff.mp hx).2 (tied_iff.mp hy).1

include htrans htotal in
/-- **Sorting is stable**: tied elements keep their order. -/
theorem filter_tied_mergeSort (a : α) (l : List α) :
    (l.mergeSort le).filter (Tied le a) = l.filter (Tied le a) := by
  have hsub : (l.filter (Tied le a)).Sublist (l.mergeSort le) :=
    List.sublist_mergeSort htrans htotal (pairwise_filter_tied htrans a l) List.filter_sublist
  have hfilter := hsub.filter (Tied le a)
  rw [List.filter_filter] at hfilter
  simp only [Bool.and_self] at hfilter
  -- a sublist of the same length
  refine (hfilter.eq_of_length ?_).symm
  exact ((List.mergeSort_perm l le).filter _).length_eq.symm

include htotal in
/-- Sorted lists with the same classes are the same. -/
theorem eq_of_pairwise_of_filter {l l' : List α} (h : l.Pairwise (le · ·))
    (h' : l'.Pairwise (le · ·))
    (hclass : ∀ a, l.filter (Tied le a) = l'.filter (Tied le a)) : l = l' := by
  induction l generalizing l' with
  | nil =>
    cases l' with
    | nil => rfl
    | cons y ys =>
      have hy := hclass y
      rw [List.filter_cons_of_pos (tied_self htotal y)] at hy
      cases hy
  | cons x xs ih =>
    cases l' with
    | nil =>
      have hx := hclass x
      rw [List.filter_cons_of_pos (tied_self htotal x)] at hx
      cases hx
    | cons y ys =>
      obtain ⟨hxs, hsorted⟩ := List.pairwise_cons.mp h
      obtain ⟨hys, hsorted'⟩ := List.pairwise_cons.mp h'
      -- each head is in the other list, so the heads are tied
      have hmem : ∀ (a b : α) (as bs : List α),
          (a :: as).filter (Tied le a) = (b :: bs).filter (Tied le a) → a ∈ b :: bs := by
        intro a b as bs heq
        rw [List.filter_cons_of_pos (tied_self htotal a)] at heq
        exact (List.mem_filter.mp (heq ▸ List.mem_cons_self)).1
      have hxy : le x y = true := by
        rcases List.mem_cons.mp (hmem y x ys xs (hclass y).symm) with rfl | hin
        · exact le_self htotal y
        · exact hxs y hin
      have hyx : le y x = true := by
        rcases List.mem_cons.mp (hmem x y xs ys (hclass x)) with rfl | hin
        · exact le_self htotal x
        · exact hys x hin
      have hhead : x = y := by
        have hx := hclass x
        rw [List.filter_cons_of_pos (tied_self htotal x),
          List.filter_cons_of_pos (tied_iff.mpr ⟨hxy, hyx⟩)] at hx
        exact (List.cons.inj hx).1
      subst hhead
      refine congrArg (x :: ·) (ih hsorted hsorted' fun a => ?_)
      have ha := hclass a
      cases hax : Tied le a x with
      | true =>
        rw [List.filter_cons_of_pos hax, List.filter_cons_of_pos hax] at ha
        exact (List.cons.inj ha).2
      | false =>
        rwa [List.filter_cons_of_neg (by rw [hax]; exact Bool.false_ne_true),
          List.filter_cons_of_neg (by rw [hax]; exact Bool.false_ne_true)] at ha

include htrans htotal in
/-- **When two lists are sorted alike.** -/
theorem mergeSort_eq_iff {l l' : List α} : l.mergeSort le = l'.mergeSort le ↔
    ∀ a, l.filter (Tied le a) = l'.filter (Tied le a) := by
  constructor
  · intro h a
    rw [← filter_tied_mergeSort htrans htotal a l, h, filter_tied_mergeSort htrans htotal a l']
  · intro h
    refine eq_of_pairwise_of_filter htotal (List.pairwise_mergeSort htrans htotal l)
      (List.pairwise_mergeSort htrans htotal l') fun a => ?_
    rw [filter_tied_mergeSort htrans htotal, filter_tied_mergeSort htrans htotal, h]

end Sorting

/-! ### Concatenations in another order -/

/-- **When the order of the parts does not matter**: any two of them commute. -/
theorem flatMap_perm_iff (f : ι → List α) {l : List ι} :
    (∀ l' : List ι, l'.Perm l → l'.flatMap f = l.flatMap f) ↔
      l.Pairwise fun i j => f i ++ f j = f j ++ f i := by
  constructor
  · intro h
    refine List.pairwise_iff_forall_sublist.mpr fun {i j} hij => ?_
    -- the two parts in front, in one order and in the other
    obtain ⟨rest, hrest⟩ := hij.exists_perm_append
    have hfirst := h ([i, j] ++ rest) hrest.symm
    have hsecond := h ([j, i] ++ rest) (((List.Perm.swap i j []).append_right rest).trans hrest.symm)
    rw [← hsecond, List.flatMap_append, List.flatMap_append] at hfirst
    have hpair := List.append_cancel_right hfirst
    simpa using hpair
  · intro h l' hperm
    induction hperm with
    | nil => rfl
    | cons i _ ih =>
      rw [List.flatMap_cons, List.flatMap_cons, ih (List.pairwise_cons.mp h).2]
    | swap i j l =>
      have hij : f i ++ f j = f j ++ f i :=
        (List.pairwise_cons.mp h).1 j List.mem_cons_self
      simp only [List.flatMap_cons, ← List.append_assoc]
      rw [hij]
    | trans hfirst hsecond ih ih' =>
      rw [ih ((hsecond.symm.pairwise_iff fun {_ _} => Eq.symm).mp h), ih' h]

/-- **When two lists without repetitions commute**: one of them is empty, or they are the
same. -/
theorem append_comm_iff {u v : List α} (hu : u.Nodup) (hv : v.Nodup) :
    u ++ v = v ++ u ↔ u = [] ∨ v = [] ∨ u = v := by
  -- what the longer list has behind the shorter one begins with the shorter one's head
  have hextend : ∀ {u d : List α}, (u ++ d).Nodup → u ++ d = d ++ u → u = [] ∨ d = [] := by
    intro u d hnodup hcomm
    cases u with
    | nil => exact Or.inl rfl
    | cons a as =>
      cases d with
      | nil => exact Or.inr rfl
      | cons b bs =>
        obtain ⟨rfl, -⟩ := List.cons.inj hcomm
        exact absurd List.mem_cons_self
          (List.disjoint_of_nodup_append hnodup List.mem_cons_self)
  constructor
  · intro h
    rcases List.append_eq_append_iff.mp h with ⟨d, rfl, hd⟩ | ⟨d, rfl, hd⟩
    · rcases hextend hv hd with rfl | rfl
      · exact Or.inl rfl
      · exact Or.inr (Or.inr (List.append_nil u).symm)
    · rcases hextend hu hd with rfl | rfl
      · exact Or.inr (Or.inl rfl)
      · exact Or.inr (Or.inr (List.append_nil v))
  · rintro (rfl | rfl | rfl)
    · exact List.append_nil v |>.symm
    · exact List.append_nil u
    · rfl

end StableSort
