import Mathlib

/-!
# The first occurrence of each key

A consumer that reads overlapping batches and wants every entry once keeps the keys it has
seen and takes an entry when its key is new. `fresh key seen l` is what it takes from `l`.
Two descriptions of it: by the recursion, which is how such a consumer works
(`fresh_append`), and by the key, which is what it is for: of each key that was not seen
before it takes the first entry, and no other (`filter_fresh`).

Batches are numbered (`occurrences`), so that the first entry of a key also tells in which
batch the key came first.
-/

namespace FirstSeen

variable {α κ : Type} [DecidableEq κ] (key : α → κ)

/-- The entries of a list whose keys were not seen before, each key once. -/
def fresh : (seen : List κ) → List α → List α
  | _, [] => []
  | seen, a :: l => if key a ∈ seen then fresh seen l else a :: fresh (seen ++ [key a]) l

/-- The keys seen after a list. -/
def remember (seen : List κ) (l : List α) : List κ := seen ++ (fresh key seen l).map key

variable {key} {seen : List κ} {l l' : List α} {a : α}

@[simp] theorem fresh_nil : fresh key seen [] = [] := rfl

theorem fresh_cons_of_mem (h : key a ∈ seen) : fresh key seen (a :: l) = fresh key seen l :=
  if_pos h

theorem fresh_cons_of_not_mem (h : key a ∉ seen) :
    fresh key seen (a :: l) = a :: fresh key (seen ++ [key a]) l := if_neg h

@[simp] theorem remember_nil : remember key seen [] = seen := List.append_nil _

theorem remember_cons_of_mem (h : key a ∈ seen) :
    remember key seen (a :: l) = remember key seen l := by
  unfold remember
  rw [fresh_cons_of_mem h]

theorem remember_cons_of_not_mem (h : key a ∉ seen) :
    remember key seen (a :: l) = remember key (seen ++ [key a]) l := by
  unfold remember
  rw [fresh_cons_of_not_mem h, List.map_cons, List.append_assoc, List.singleton_append]

/-- One list after another. -/
theorem fresh_append :
    fresh key seen (l ++ l') = fresh key seen l ++ fresh key (remember key seen l) l' := by
  induction l generalizing seen with
  | nil => rw [remember_nil]; rfl
  | cons a l ih =>
    rw [List.cons_append]
    by_cases h : key a ∈ seen
    · rw [fresh_cons_of_mem h, fresh_cons_of_mem h, remember_cons_of_mem h, ih]
    · rw [fresh_cons_of_not_mem h, fresh_cons_of_not_mem h, remember_cons_of_not_mem h, ih,
        List.cons_append]

theorem remember_append :
    remember key seen (l ++ l') = remember key (remember key seen l) l' := by
  unfold remember
  rw [fresh_append, List.map_append, List.append_assoc]
  rfl

theorem fresh_sublist : (fresh key seen l).Sublist l := by
  induction l generalizing seen with
  | nil => exact List.Sublist.refl _
  | cons a l ih =>
    by_cases h : key a ∈ seen
    · rw [fresh_cons_of_mem h]
      exact ih.cons a
    · rw [fresh_cons_of_not_mem h]
      exact ih.cons_cons a

/-- **The first entry of each new key**, and nothing else. -/
theorem filter_fresh (k : κ) :
    (fresh key seen l).filter (fun a => key a = k) =
      if k ∈ seen then [] else (l.find? fun a => key a = k).toList := by
  induction l generalizing seen with
  | nil => split <;> rfl
  | cons a l ih =>
    by_cases h : key a ∈ seen
    · rw [fresh_cons_of_mem h, ih]
      split
      · rfl
      · rename_i hk
        have hne : key a ≠ k := fun heq => hk (heq ▸ h)
        rw [List.find?_cons_of_neg (by simpa using hne)]
    · rw [fresh_cons_of_not_mem h]
      by_cases heq : key a = k
      · -- this is the one: what comes later finds its key seen
        rw [List.filter_cons_of_pos (by simpa using heq), ih, if_pos (by simp [heq]),
          if_neg (heq ▸ h), List.find?_cons_of_pos (by simpa using heq)]
        rfl
      · rw [List.filter_cons_of_neg (by simpa using heq), ih,
          List.find?_cons_of_neg (by simpa using heq)]
        have hmem : k ∈ seen ++ [key a] ↔ k ∈ seen := by
          rw [List.mem_append, List.mem_singleton, or_iff_left (Ne.symm heq)]
        simp only [hmem]

/-- What is taken is the first of its key. -/
theorem mem_fresh : a ∈ fresh key [] l ↔ (l.find? fun b => key b = key a) = some a := by
  have hfilter := @filter_fresh _ _ _ key [] l (key a)
  rw [if_neg List.not_mem_nil] at hfilter
  have hmem : a ∈ fresh key [] l ↔ a ∈ (fresh key [] l).filter fun b => key b = key a := by
    rw [List.mem_filter]
    simp
  rw [hmem, hfilter, Option.mem_toList]

/-- Of the key of an entry, one is taken that comes no later. -/
theorem exists_fresh (h : a ∈ l) (l' : List α) :
    ∃ b ∈ fresh key [] (l ++ l'), key b = key a ∧ b ∈ l := by
  have hsome : (l.find? fun b => key b = key a).isSome = true := by
    rw [List.find?_isSome]
    exact ⟨a, h, decide_eq_true rfl⟩
  obtain ⟨b, hb⟩ := Option.isSome_iff_exists.mp hsome
  have hfound := List.find?_some hb
  have hkey : key b = key a := of_decide_eq_true hfound
  refine ⟨b, mem_fresh.mpr ?_, hkey, List.mem_of_find?_eq_some hb⟩
  rw [List.find?_append, hkey, hb]
  rfl

/-- No key is taken twice. -/
theorem fresh_nodup (seen : List κ) (l : List α) : ((fresh key seen l).map key).Nodup := by
  refine List.nodup_iff_count_le_one.mpr fun k => ?_
  have hcount : ((fresh key seen l).map key).count k =
      ((fresh key seen l).filter fun a => key a = k).length := by
    rw [List.count_eq_length_filter, List.filter_map, List.length_map]
    exact congrArg List.length (List.filter_congr fun b _ => rfl)
  rw [hcount, filter_fresh]
  split
  · exact Nat.zero_le _
  · cases l.find? fun a => key a = k with
    | none => exact Nat.zero_le _
    | some _ => exact Nat.le_refl _

/-! ### Batches -/

/-- The entries of batches, each with the number of its batch. -/
def occurrences (batches : List (List α)) : List (Nat × α) :=
  batches.zipIdx.flatMap fun b => b.1.map (Prod.mk b.2)

theorem occurrences_concat (batches : List (List α)) (batch : List α) :
    occurrences (batches ++ [batch]) =
      occurrences batches ++ batch.map (Prod.mk batches.length) := by
  unfold occurrences
  rw [List.zipIdx_append, List.flatMap_append, Nat.zero_add]
  simp

theorem mem_occurrences {batches : List (List α)} {x : Nat × α} :
    x ∈ occurrences batches ↔ ∃ batch, batches[x.1]? = some batch ∧ x.2 ∈ batch := by
  unfold occurrences
  rw [List.mem_flatMap]
  constructor
  · rintro ⟨⟨batch, n⟩, hbatch, hx⟩
    obtain ⟨a, ha, rfl⟩ := List.mem_map.mp hx
    exact ⟨batch, List.mem_zipIdx_iff_getElem?.mp hbatch, ha⟩
  · rintro ⟨batch, hbatch, hx⟩
    exact ⟨(batch, x.1), List.mem_zipIdx_iff_getElem?.mpr hbatch, List.mem_map_of_mem hx⟩

theorem occurrences_append (batches more : List (List α)) :
    ∃ rest, occurrences (batches ++ more) = occurrences batches ++ rest := by
  unfold occurrences
  rw [List.zipIdx_append, List.flatMap_append]
  exact ⟨_, rfl⟩

end FirstSeen
