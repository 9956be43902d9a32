import Sub0Log.Library.Bytes

/-!
# Checked words and reads

A computation on unsigned words and borrowed bytes, with every way it can leave
its domain made visible. `Checked α` is a result or a `Fault`: a sum or a
difference that a 64-bit word cannot hold, a read outside the bytes it is made
on, a loop that outlives its bound, an alternative that is not there.

A program written over `Checked` computes what the unchecked program computes
whenever it does not fault, so "it never faults" says at once that no
intermediate value wraps and that every access is inside its container.
-/

open Bytes

/-- What can go wrong. -/
inductive Checked.Fault
  /-- A read outside the bytes it is made on. -/
  | outOfBounds
  /-- A 64-bit sum or difference that wraps. -/
  | wrapped
  /-- A loop that outlived the bound given to it. -/
  | outOfFuel
  /-- A variant read at an alternative it does not hold. -/
  | badVariant
  deriving DecidableEq, Repr

/-- A result, or the first fault met on the way. -/
abbrev Checked : Type → Type := Except Checked.Fault

namespace Checked

variable {α β : Type}

/-- The sum of two 64-bit words. -/
def add64 (a b : Nat) : Checked Nat :=
  if a + b < 2 ^ 64 then .ok (a + b) else .error .wrapped

/-- The difference of two 64-bit words. -/
def sub64 (a b : Nat) : Checked Nat :=
  if b ≤ a then .ok (a - b) else .error .wrapped

/-- The `n` bytes at offset `off` of a byte string. -/
def read (bs : List UInt8) (off n : Nat) : Checked (List UInt8) :=
  if off + n ≤ bs.length then .ok ((bs.drop off).take n) else .error .outOfBounds

@[simp] theorem ok_bind (a : α) (f : α → Checked β) : (Except.ok a >>= f) = f a := rfl

@[simp] theorem error_bind (e : Fault) (f : α → Checked β) :
    ((Except.error e : Checked α) >>= f) = .error e := rfl

@[simp] theorem pure_eq_ok (a : α) : (pure a : Checked α) = .ok a := rfl

theorem add64_eq {a b : Nat} (h : a + b < 2 ^ 64) : add64 a b = .ok (a + b) := if_pos h

theorem sub64_eq {a b : Nat} (h : b ≤ a) : sub64 a b = .ok (a - b) := if_pos h

theorem of_add64 {a b c : Nat} (h : add64 a b = .ok c) : c = a + b := by
  unfold add64 at h
  split at h
  · exact (Except.ok.inj h).symm
  · cases h

theorem of_sub64 {a b c : Nat} (h : sub64 a b = .ok c) : b ≤ a ∧ c = a - b := by
  unfold sub64 at h
  split at h
  · exact ⟨‹_›, (Except.ok.inj h).symm⟩
  · cases h

theorem read_eq {bs : List UInt8} {off n : Nat} (h : off + n ≤ bs.length) :
    read bs off n = .ok ((bs.drop off).take n) := if_pos h

/-- A computation that ends well after a bind ended well before it. -/
theorem bind_eq_ok {x : Checked α} {f : α → Checked β} {b : β} (h : (x >>= f) = .ok b) :
    ∃ a, x = .ok a ∧ f a = .ok b := by
  cases x with
  | error e => exact absurd h (by simp)
  | ok a => exact ⟨a, rfl, h⟩

/-- The rule for a loop over a list: what one iteration establishes of the items done so
far holds, without a fault, of all of them. -/
theorem foldlM_ok {f : β → α → Checked β} {motive : List α → β → Prop} {b : β} (l : List α)
    (init : motive [] b)
    (step : ∀ (done : List α) (a : α) (b : β), motive done b →
      ∃ b', f b a = .ok b' ∧ motive (done ++ [a]) b') :
    ∃ b', l.foldlM f b = .ok b' ∧ motive l b' := by
  -- the items done stay in front of the list as it is consumed
  have h : ∀ (l done : List α) (b : β), motive done b →
      ∃ b', l.foldlM f b = .ok b' ∧ motive (done ++ l) b' := by
    intro l
    induction l with
    | nil => intro done b hb; exact ⟨b, rfl, by rwa [List.append_nil]⟩
    | cons a l ih =>
      intro done b hb
      obtain ⟨b', hstep, hb'⟩ := step done a b hb
      obtain ⟨b'', hrest, hb''⟩ := ih (done ++ [a]) b' hb'
      refine ⟨b'', ?_, by rwa [List.append_assoc] at hb''⟩
      rw [List.foldlM_cons, hstep, ok_bind, hrest]
  obtain ⟨b', hfold, hb'⟩ := h l [] b init
  exact ⟨b', hfold, hb'⟩

end Checked
