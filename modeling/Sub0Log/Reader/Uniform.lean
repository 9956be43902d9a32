import Sub0Log.Reader.Containment

/-!
# Walking slots of one size

A segment written by one producer has chunks of one size, so wherever the walk stands
the next slot is one `chunkBytes` further. `Geometry.walk_uniform` turns the walk of
such an image into a plain sequence: the slots at `headerBytes + i * chunkBytes`, for
as many `i` as start inside the segment.

The image is the whole segment here; a cut one is the business of the truncation
theorem.
-/

open Bytes Checked

namespace Sub0Log.Reader

open Wire

namespace Walk

/-- Nothing walked. -/
def nil : Walk := ⟨[], 0, 0⟩

/-- The walks of a list, one after another. -/
def concat : List Walk → Walk
  | [] => nil
  | w :: ws => w.append (concat ws)

theorem concat_slots (ws : List Walk) : (concat ws).slots = ws.flatMap Walk.slots := by
  induction ws with
  | nil => rfl
  | cons w ws ih => rw [List.flatMap_cons, ← ih]; rfl

theorem concat_unreadable (ws : List Walk) :
    (concat ws).unreadable = (ws.map Walk.unreadable).sum := by
  induction ws with
  | nil => rfl
  | cons w ws ih => rw [List.map_cons, List.sum_cons, ← ih]; rfl

theorem concat_records (ws : List Walk) :
    (concat ws).records = ws.flatMap Walk.records := by
  induction ws with
  | nil => rfl
  | cons w ws ih => rw [List.flatMap_cons, ← ih, concat, records_append]

end Walk

namespace Geometry

variable (g : Geometry)

/-- Where slot `i` starts when all slots before it have the uniform size. -/
def slotStart (i : Nat) : Nat := g.headerBytes + i * g.chunkBytes

/-- How many slots of the uniform size start inside the segment. -/
def slotCount : Nat := (g.segmentBytes - g.headerBytes + (g.chunkBytes - 1)) / g.chunkBytes

theorem chunkBytes_pos : 0 < g.chunkBytes := lt_of_le_of_lt (Nat.zero_le _) g.chunkBytes_gt

theorem lt_slotCount {i : Nat} : i < g.slotCount ↔ g.slotStart i < g.segmentBytes := by
  have hpos := g.chunkBytes_pos
  unfold slotCount slotStart
  rw [Nat.lt_iff_add_one_le, Nat.le_div_iff_mul_le hpos, Nat.add_mul, Nat.one_mul]
  omega

theorem slotStart_succ (i : Nat) : g.slotStart (i + 1) = g.slotStart i + g.chunkBytes := by
  unfold slotStart
  rw [Nat.add_mul, Nat.one_mul, Nat.add_assoc]

/-- Every slot before the segment's end is as long as the segment's chunks. -/
def UniformSlots (m : Mem) : Prop :=
  ∀ i, i < g.slotCount →
    g.stride (g.slot m g.segmentBytes (g.slotStart i)) = g.chunkBytes

/-- **The walk of uniform slots** goes from slot to slot, to the last one that starts
inside the segment. -/
theorem walk_uniform {m : Mem} (h : g.UniformSlots m) :
    g.walk m g.segmentBytes g.headerBytes 0 =
      Walk.concat ((List.range g.slotCount).map fun i =>
        g.walkSlot m g.segmentBytes (g.slotStart i) (UInt32.ofNat i)) := by
  -- from slot `i` on, there are `k` slots left
  have hgo : ∀ k i, i + k = g.slotCount →
      g.walk m g.segmentBytes (g.slotStart i) (UInt32.ofNat i) =
        Walk.concat ((List.range' i k).map fun i =>
          g.walkSlot m g.segmentBytes (g.slotStart i) (UInt32.ofNat i)) := by
    intro k
    induction k with
    | zero =>
      intro i hi
      have hend : ¬g.slotStart i < g.segmentBytes := by
        rw [← g.lt_slotCount]
        omega
      rw [g.walk_of_le (Nat.le_of_not_lt hend)]
      rfl
    | succ k ih =>
      intro i hi
      have hlt : g.slotStart i < g.segmentBytes := g.lt_slotCount.mp (by omega)
      have hindex : UInt32.ofNat i + 1 = UInt32.ofNat (i + 1) := by
        rw [UInt32.ofNat_add]
        rfl
      rw [g.walk_of_lt hlt hlt, h i (by omega), ← g.slotStart_succ, hindex,
        ih (i + 1) (by omega), List.range'_succ]
      rfl
  have h0 := hgo g.slotCount 0 (Nat.zero_add _)
  have hstart : g.slotStart 0 = g.headerBytes := by unfold slotStart; omega
  rw [hstart] at h0
  rw [List.range_eq_range']
  exact h0

end Geometry

end Sub0Log.Reader
