import Mathlib

/-!
# Extents laid end to end

A bump allocator hands out extents, each a start and a length, that begin where the one before
ends. `Tiled a es b` says that `es` do this from `a` to `b`. Such extents keep inside the two
ends (`Tiled.inside`), no two of them overlap (`Tiled.disjoint`), and their lengths add up to
what was claimed (`Tiled.length`).
-/

namespace Tiling

/-- The extents `es` cover `a` to `b`, one behind the other. -/
def Tiled : (a : ℕ) → (es : List (ℕ × ℕ)) → (b : ℕ) → Prop
  | a, [], b => a = b
  | a, e :: es, b => e.1 = a ∧ Tiled (a + e.2) es b

/-- The second extent lies behind the first. -/
def Before (e f : ℕ × ℕ) : Prop := e.1 + e.2 ≤ f.1

variable {a b c : ℕ} {e : ℕ × ℕ} {es fs : List (ℕ × ℕ)}

theorem tiled_nil : Tiled a [] b ↔ a = b := Iff.rfl

theorem tiled_cons : Tiled a (e :: es) b ↔ e.1 = a ∧ Tiled (a + e.2) es b := Iff.rfl

theorem Tiled.append (h : Tiled a es b) (h' : Tiled b fs c) : Tiled a (es ++ fs) c := by
  induction es generalizing a with
  | nil =>
    rw [tiled_nil] at h
    rw [h]
    exact h'
  | cons e es ih => exact ⟨h.1, ih h.2⟩

theorem Tiled.length (h : Tiled a es b) : a + (es.map Prod.snd).sum = b := by
  induction es generalizing a with
  | nil => exact h
  | cons e es ih =>
    rw [List.map_cons, List.sum_cons, ← Nat.add_assoc]
    exact ih h.2

/-- No extent leaves the two ends. -/
theorem Tiled.inside (h : Tiled a es b) (he : e ∈ es) : a ≤ e.1 ∧ e.1 + e.2 ≤ b := by
  induction es generalizing a with
  | nil => cases he
  | cons f es ih =>
    obtain ⟨hstart, hrest⟩ := h
    rcases List.mem_cons.mp he with rfl | hmem
    · have hlength := hrest.length
      rw [hstart]
      exact ⟨le_refl a, by omega⟩
    · obtain ⟨hle, hend⟩ := ih hrest hmem
      exact ⟨le_trans (Nat.le_add_right a f.2) hle, hend⟩

/-- No two extents overlap. -/
theorem Tiled.disjoint (h : Tiled a es b) : es.Pairwise Before := by
  induction es generalizing a with
  | nil => exact List.Pairwise.nil
  | cons e es ih =>
    refine List.Pairwise.cons (fun f hf => ?_) (ih h.2)
    unfold Before
    rw [h.1]
    exact (h.2.inside hf).1

end Tiling
