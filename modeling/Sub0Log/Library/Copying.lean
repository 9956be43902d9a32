import Mathlib
import Sub0Log.Library.Bytes

/-!
# Copying a memory while it changes

A reader copies the memory of a running system from its first byte on, one aligned word of
eight bytes a step, and the system may take any number of steps in between. The copy is no
memory the system ever had: each of its words is from a `moment` of its own. What orders
them is that the copy goes up: of two words the higher one is from the same moment or a
later one (`Copies.moments`).

That is enough to read a log which grows upwards. `exists_stop` is the argument: if at
moment `k` the log ends at `f k`, there is a moment at which the word at the end of
the log was the one being copied, and everything below had been written when it was copied.
-/

open Bytes

namespace Copying

variable {σ : Type}

/-- A system and the bytes that were copied of its memory. -/
structure Reading (σ : Type) where
  system : σ
  copied : List UInt8

/-- What can happen while a memory of `size` bytes is copied: the system takes a step of
its own, or the next word is copied, the last one as far as the memory goes. -/
inductive CopyStep (step : σ → σ → Prop) (view : σ → Mem) (size : Nat) :
    Reading σ → Reading σ → Prop
  | system {q : Reading σ} {s : σ} (h : step q.system s) :
      CopyStep step view size q ⟨s, q.copied⟩
  | word {q : Reading σ} (h : q.copied.length < size) :
      CopyStep step view size q ⟨q.system, q.copied ++
        (view q.system).slice q.copied.length (min 8 (size - q.copied.length))⟩

/-- Any interleaving of the system and the copy. -/
def Copies (step : σ → σ → Prop) (view : σ → Mem) (size : Nat) :
    Reading σ → Reading σ → Prop :=
  Relation.ReflTransGen (CopyStep step view size)

/-- Where the words of a copy are from: word `k` from `moment k`. Words that are still to
be copied have the present as their moment. -/
structure Moments (step : σ → σ → Prop) (view : σ → Mem) (size : Nat) (start : σ)
    (q : Reading σ) (moment : Nat → σ) : Prop where
  aligned : 8 ∣ q.copied.length ∨ q.copied.length = size
  reached : ∀ k, Relation.ReflTransGen step start (moment k)
  ordered : ∀ j k, j ≤ k → Relation.ReflTransGen step (moment j) (moment k)
  present : ∀ k, q.copied.length ≤ 8 * k → moment k = q.system
  byte : ∀ x, x < q.copied.length → q.copied[x]? = some (view (moment (x / 8)) x)

section Moments

variable {step : σ → σ → Prop} {view : σ → Mem} {size : Nat} {start : σ} {q q' : Reading σ}
  {moment : Nat → σ}

/-- The present is no earlier than any moment. -/
theorem Moments.now (h : Moments step view size start q moment) (k : Nat) :
    Relation.ReflTransGen step (moment k) q.system := by
  have hpresent := h.present (max k q.copied.length) (by omega)
  rw [← hpresent]
  exact h.ordered k _ (Nat.le_max_left _ _)

/-- A step of the system moves the present on, the words that were copied stay. -/
theorem Moments.system (h : Moments step view size start q moment) {s : σ}
    (hstep : step q.system s) :
    Moments step view size start ⟨s, q.copied⟩
      (fun k => if q.copied.length ≤ 8 * k then s else moment k) := by
  have hlater : ∀ k, Relation.ReflTransGen step (moment k) s :=
    fun k => Relation.ReflTransGen.tail (h.now k) hstep
  refine ⟨h.aligned, fun k => ?_, fun j k hjk => ?_, fun k hk => if_pos hk, fun x hx => ?_⟩
  · show Relation.ReflTransGen step start (if q.copied.length ≤ 8 * k then s else moment k)
    split
    · exact (h.reached k).trans (hlater k)
    · exact h.reached k
  · show Relation.ReflTransGen step (if q.copied.length ≤ 8 * j then s else moment j)
      (if q.copied.length ≤ 8 * k then s else moment k)
    by_cases hj : q.copied.length ≤ 8 * j
    · rw [if_pos hj, if_pos (le_trans hj (Nat.mul_le_mul_left 8 hjk))]
    · rw [if_neg hj]
      split
      · exact hlater j
      · exact h.ordered j k hjk
  · change x < q.copied.length at hx
    have hbefore : ¬q.copied.length ≤ 8 * (x / 8) := by omega
    rw [if_neg hbefore]
    exact h.byte x hx

/-- The word that is copied is from the present. -/
theorem Moments.word (h : Moments step view size start q moment)
    (hroom : q.copied.length < size) :
    Moments step view size start ⟨q.system, q.copied ++
      (view q.system).slice q.copied.length (min 8 (size - q.copied.length))⟩ moment := by
  have haligned : 8 ∣ q.copied.length := h.aligned.resolve_right (Nat.ne_of_lt hroom)
  refine ⟨?_, h.reached, h.ordered, fun k hk => h.present k ?_, fun x hx => ?_⟩
  · rw [List.length_append, Mem.slice_length]
    omega
  · rw [List.length_append] at hk
    exact le_trans (Nat.le_add_right _ _) hk
  · rw [List.length_append, Mem.slice_length] at hx
    by_cases hold : x < q.copied.length
    · rw [List.getElem?_append_left hold]
      exact h.byte x hold
    · have hpresent := h.present (x / 8) (by omega)
      rw [List.getElem?_append_right (Nat.le_of_not_lt hold),
        Mem.slice_getElem? _ _ _ _ (by omega), hpresent,
        Nat.add_sub_of_le (Nat.le_of_not_lt hold)]

/-- **Every word of a copy is from a moment of the run**, and the moments go up with the
words. -/
theorem Copies.moments (h : Copies step view size ⟨start, []⟩ q) :
    ∃ moment, Moments step view size start q moment := by
  induction h with
  | refl =>
    refine ⟨fun _ => start, Or.inl (Nat.dvd_zero 8), fun _ => ?_, fun _ _ _ => ?_,
      fun _ _ => rfl, fun x hx => absurd hx (Nat.not_lt_zero x)⟩
    · exact Relation.ReflTransGen.refl
    · exact Relation.ReflTransGen.refl
  | tail _ hstep ih =>
    obtain ⟨moment, hmoments⟩ := ih
    cases hstep with
    | system hsystem => exact ⟨_, hmoments.system hsystem⟩
    | word hroom => exact ⟨moment, hmoments.word hroom⟩

/-- What a copy does not look at is a run of the system. -/
theorem Copies.system (h : Copies step view size q q') :
    Relation.ReflTransGen step q.system q'.system := by
  induction h with
  | refl => exact Relation.ReflTransGen.refl
  | tail _ hstep ih =>
    cases hstep with
    | system hsystem => exact ih.tail hsystem
    | word _ => exact ih

/-- The system runs while the copy waits. -/
theorem Copies.of_run {s : σ} (h : Relation.ReflTransGen step q.system s) :
    Copies step view size q ⟨s, q.copied⟩ := by
  induction h with
  | refl => exact Relation.ReflTransGen.refl
  | tail _ hstep ih => exact Relation.ReflTransGen.tail ih (CopyStep.system hstep)

/-- Bytes of the copy as those of a memory. -/
theorem Moments.mem (h : Moments step view size start q moment) {x : Nat}
    (hx : x < q.copied.length) : Mem.ofList q.copied x = view (moment (x / 8)) x := by
  show q.copied.getD x 0 = _
  rw [List.getD_eq_getElem?_getD, h.byte x hx, Option.getD_some]

end Moments

/-- At most `n` more words are copied while the system waits. -/
def copyWords (view : σ → Mem) (size : Nat) : Nat → Reading σ → Reading σ
  | 0, q => q
  | n + 1, q =>
    if q.copied.length < size then
      copyWords view size n ⟨q.system, q.copied ++
        (view q.system).slice q.copied.length (min 8 (size - q.copied.length))⟩
    else q

theorem copyWords_copies (step : σ → σ → Prop) (view : σ → Mem) (size n : Nat) (q : Reading σ) :
    Copies step view size q (copyWords view size n q) := by
  induction n generalizing q with
  | zero => exact Relation.ReflTransGen.refl
  | succ n ih =>
    unfold copyWords
    split
    · exact Relation.ReflTransGen.head (CopyStep.word ‹_›) (ih _)
    · exact Relation.ReflTransGen.refl

theorem copyWords_system (view : σ → Mem) (size n : Nat) (q : Reading σ) :
    (copyWords view size n q).system = q.system := by
  induction n generalizing q with
  | zero => rfl
  | succ n ih =>
    unfold copyWords
    split
    · exact ih _
    · rfl

/-- A copy that is made while the system stands still. -/
theorem copies_standing (step : σ → σ → Prop) (view : σ → Mem) (size n : Nat) (s : σ) :
    Copies step view size ⟨s, []⟩ ⟨s, (copyWords view size n ⟨s, []⟩).copied⟩ := by
  have hcopy := copyWords_copies step view size n ⟨s, []⟩
  have hsystem := copyWords_system view size n ⟨s, []⟩
  generalize copyWords view size n ⟨s, []⟩ = q at hcopy hsystem
  obtain ⟨s', bytes⟩ := q
  obtain rfl : s' = s := hsystem
  exact hcopy

/-! ### Logs that grow upwards -/

/-- From a start below its image, iterating a bounded map reaches a fixed point; what each
iteration keeps holds there. -/
theorem exists_fixed {f : Nat → Nat} {P : Nat → Prop} {bound k : Nat} (hbound : ∀ k, f k ≤ bound)
    (hstep : ∀ k, P k → k ≤ f k ∧ P (f k)) (hk : P k) : ∃ k, P k ∧ f k = k := by
  induction hn : bound - k using Nat.strongRecOn generalizing k with
  | ind n ih =>
    obtain ⟨hle, hnext⟩ := hstep k hk
    by_cases hfixed : f k = k
    · exact ⟨k, hk, hfixed⟩
    · have hlt : k < f k := lt_of_le_of_ne hle (Ne.symm hfixed)
      have hbelow := hbound k
      exact ih (bound - f k) (by omega) hnext rfl

/-- **Where an ascending copy of a growing log stops.** The log begins at `base` and at
moment `k` ends at `f k`. At some moment the word at its end was the one being
copied, and every byte below was in the log when its own word was copied. -/
theorem exists_stop {f : Nat → Nat} {base n : Nat} (hmono : Monotone f)
    (hbase : ∀ k, base ≤ f k) (hbound : ∀ k, f k ≤ n) :
    ∃ k, f k / 8 = k ∧
      ∀ x, base ≤ x → x < f k → x < f (x / 8) := by
  have hstart : base / 8 ≤ f (base / 8) / 8 ∧
      ∀ x, base ≤ x → x < f (base / 8) → x < f (x / 8) :=
    ⟨Nat.div_le_div_right (hbase _), fun x h₁ h₂ =>
      lt_of_lt_of_le h₂ (hmono (Nat.div_le_div_right h₁))⟩
  have hnext : ∀ k, (k ≤ f k / 8 ∧
        ∀ x, base ≤ x → x < f k → x < f (x / 8)) →
      k ≤ f k / 8 ∧ (f k / 8 ≤ f (f k / 8) / 8 ∧
        ∀ x, base ≤ x → x < f (f k / 8) → x < f (x / 8)) := by
    rintro k ⟨hle, hbelow⟩
    refine ⟨hle, Nat.div_le_div_right (hmono hle), fun x h₁ h₂ => ?_⟩
    by_cases hx : x < f k
    · exact hbelow x h₁ hx
    · -- what the log gained meanwhile lies above the word that was looked at
      exact lt_of_lt_of_le h₂ (hmono (Nat.div_le_div_right (Nat.le_of_not_lt hx)))
  obtain ⟨k, ⟨-, hbelow⟩, hfixed⟩ := exists_fixed (f := fun k => f k / 8)
    (P := fun k => k ≤ f k / 8 ∧
      ∀ x, base ≤ x → x < f k → x < f (x / 8))
    (fun k => Nat.div_le_div_right (c := 8) (hbound k)) hnext hstart
  exact ⟨k, hfixed, hbelow⟩

end Copying
