import Mathlib

/-!
# Reflected cyclic redundancy codes

The bit-serial recurrence of a reflected CRC register of any width and any
polynomial: `step` shifts the register down by one bit and folds the polynomial in
when the bit shifted out was set.

* `step_xor`, `steps_xor` — the recurrence is linear in exclusive or;
* `serial` — the same register fed one message bit at a time, and `run_eq_serial`,
  which says that folding in a whole byte first comes to the same;
* `steps_split` — `k` steps are a table lookup on the low `k` bits and a shift of
  the rest, which is what a table-driven implementation does `k` bits at a time;
* `steps_injective` — when the polynomial has its top bit set, no two registers
  are taken to the same one;
* `run_xor_of_differ` — two messages that differ in one byte only leave registers
  apart by the difference of the two bytes, carried through the steps of the bytes
  that follow.
-/

namespace Crc

variable {w : Nat} (p : BitVec w)

/-! ### The recurrence -/

/-- One bit of the recurrence. -/
def step (x : BitVec w) : BitVec w :=
  if x.getLsbD 0 then (x >>> 1) ^^^ p else x >>> 1

/-- `n` bits of the recurrence. -/
def steps : Nat → BitVec w → BitVec w
  | 0, x => x
  | n + 1, x => steps n (step p x)

/-- The register after one byte, low bit first. -/
def byteStep (x : BitVec w) (b : UInt8) : BitVec w :=
  steps p 8 (x ^^^ b.toBitVec.setWidth w)

/-- The register after a byte string. -/
def run (x : BitVec w) (bs : List UInt8) : BitVec w := bs.foldl (byteStep p) x

@[simp] theorem run_nil (x : BitVec w) : run p x [] = x := rfl

@[simp] theorem run_cons (x : BitVec w) (b : UInt8) (bs : List UInt8) :
    run p x (b :: bs) = run p (byteStep p x b) bs := rfl

theorem run_append (x : BitVec w) (as bs : List UInt8) :
    run p x (as ++ bs) = run p (run p x as) bs := List.foldl_append

theorem steps_add (m n : Nat) (x : BitVec w) : steps p (m + n) x = steps p n (steps p m x) := by
  induction m generalizing x with
  | zero => rw [Nat.zero_add]; rfl
  | succ m ih => rw [Nat.succ_add, steps, ih, steps]

/-! ### Linearity -/

theorem xor_xor_xor_cancel (a b : BitVec w) : (a ^^^ p) ^^^ (b ^^^ p) = a ^^^ b := by
  rw [BitVec.xor_assoc, BitVec.xor_comm b p, ← BitVec.xor_assoc p p b, BitVec.xor_self,
    BitVec.zero_xor]

/-- The recurrence is linear. -/
theorem step_xor (x y : BitVec w) : step p (x ^^^ y) = step p x ^^^ step p y := by
  unfold step
  simp only [BitVec.getLsbD_xor, BitVec.ushiftRight_xor_distrib]
  cases x.getLsbD 0 <;> cases y.getLsbD 0
  · simp
  · simp [BitVec.xor_assoc]
  · simp [BitVec.xor_assoc, BitVec.xor_comm p]
  · simp [xor_xor_xor_cancel]

theorem steps_xor (n : Nat) (x y : BitVec w) :
    steps p n (x ^^^ y) = steps p n x ^^^ steps p n y := by
  induction n generalizing x y with
  | zero => rfl
  | succ n ih => rw [steps, step_xor, ih, steps, steps]

theorem steps_zero (n : Nat) : steps p n (0#w) = 0#w := by
  have h := steps_xor p n (0#w) (0#w)
  rwa [BitVec.xor_self, BitVec.xor_self] at h

/-! ### One message bit at a time -/

/-- One message bit: it is folded into the bit shifted out. -/
def bitStep (x : BitVec w) (bit : Bool) : BitVec w :=
  if x.getLsbD 0 ^^ bit then (x >>> 1) ^^^ p else x >>> 1

/-- The bits of a byte, low bit first. -/
def bits (b : UInt8) : List Bool := (List.range 8).map b.toBitVec.getLsbD

/-- The register after the bits of a byte string. -/
def serial (x : BitVec w) (bs : List UInt8) : BitVec w := (bs.flatMap bits).foldl (bitStep p) x

/-- A word folded in as a whole: its low bit takes part in the step, the rest moves down. -/
theorem step_xor_word (x d : BitVec w) :
    step p (x ^^^ d) = bitStep p x (d.getLsbD 0) ^^^ (d >>> 1) := by
  unfold step bitStep
  rw [BitVec.getLsbD_xor, BitVec.ushiftRight_xor_distrib]
  split
  · rw [BitVec.xor_assoc, BitVec.xor_comm (d >>> 1) p, ← BitVec.xor_assoc]
  · rfl

/-- … and after `n` steps its `n` low bits have taken part. -/
theorem steps_xor_word (n : Nat) (x d : BitVec w) :
    steps p n (x ^^^ d) = ((List.range n).map d.getLsbD).foldl (bitStep p) x ^^^ (d >>> n) := by
  induction n generalizing x d with
  | zero => rw [BitVec.ushiftRight_zero]; rfl
  | succ n ih =>
    have hbits : (List.range (n + 1)).map d.getLsbD =
        d.getLsbD 0 :: (List.range n).map (d >>> 1).getLsbD := by
      rw [List.range_succ_eq_map, List.map_cons, List.map_map]
      refine congrArg _ (List.map_congr_left fun i _ => ?_)
      rw [BitVec.getLsbD_ushiftRight, Nat.add_comm]
      rfl
    rw [steps, step_xor_word, ih, hbits, List.foldl_cons, ← BitVec.shiftRight_add, Nat.add_comm 1 n]

/-- Eight bits of a byte are the byte, in a register at least as wide. -/
theorem byteStep_eq_bits (hw : 8 ≤ w) (x : BitVec w) (b : UInt8) :
    byteStep p x b = (bits b).foldl (bitStep p) x := by
  have hbits : (List.range 8).map (b.toBitVec.setWidth w).getLsbD = bits b := by
    refine List.map_congr_left fun i hi => ?_
    rw [BitVec.getLsbD_setWidth, decide_eq_true (lt_of_lt_of_le (List.mem_range.mp hi) hw),
      Bool.true_and]
  have hgone : b.toBitVec.setWidth w >>> 8 = 0#w := by
    apply BitVec.eq_of_getLsbD_eq
    intro i _
    rw [BitVec.getLsbD_ushiftRight, BitVec.getLsbD_setWidth,
      BitVec.getLsbD_of_ge b.toBitVec (8 + i) (Nat.le_add_right 8 i), Bool.and_false,
      BitVec.getLsbD_zero]
  rw [byteStep, steps_xor_word, hbits, hgone, BitVec.xor_zero]

/-- **A byte at a time is a bit at a time.** -/
theorem run_eq_serial (hw : 8 ≤ w) (x : BitVec w) (bs : List UInt8) :
    run p x bs = serial p x bs := by
  induction bs generalizing x with
  | nil => rfl
  | cons b bs ih =>
    rw [run_cons, ih, byteStep_eq_bits p hw, serial, serial, List.flatMap_cons, List.foldl_append]

/-! ### Several bits at a time -/

/-- A register whose low `k` bits are clear only moves down for `k` steps. -/
theorem steps_of_low_clear {x : BitVec w} :
    ∀ {k : Nat}, (∀ i, i < k → x.getLsbD i = false) → steps p k x = x >>> k
  | 0, _ => by simp [steps]
  | k + 1, h => by
    have h0 : x.getLsbD 0 = false := h 0 (Nat.succ_pos k)
    have hstep : step p x = x >>> 1 := by
      unfold step
      rw [h0]; rfl
    have hlow : ∀ i, i < k → (x >>> 1).getLsbD i = false := by
      intro i hi
      rw [BitVec.getLsbD_ushiftRight]
      exact h (1 + i) (by omega)
    rw [steps, hstep, steps_of_low_clear hlow, ← BitVec.shiftRight_add, Nat.add_comm]

theorem and_xor_and_not (x m : BitVec w) : (x &&& m) ^^^ (x &&& ~~~m) = x := by
  ext i
  simp only [BitVec.getElem_xor, BitVec.getElem_and, BitVec.getElem_not]
  cases x[i] <;> cases m[i] <;> rfl

/-- **Table lookup and shift.** For a mask `m` of exactly the low `k` bits, `k`
steps of a register are `k` steps of its masked part, which a table can hold, and
the rest of it moved down by `k`. -/
theorem steps_split {k : Nat} {m : BitVec w}
    (hm : ∀ i, i < w → m.getLsbD i = decide (i < k)) (x : BitVec w) :
    steps p k x = (x >>> k) ^^^ steps p k (x &&& m) := by
  have hlow : ∀ i, i < k → (x &&& ~~~m).getLsbD i = false := by
    intro i hi
    rw [BitVec.getLsbD_and, BitVec.getLsbD_not]
    by_cases hw : i < w
    · simp [hm i hw, hi]
    · simp [hw]
  have hshift : (x &&& ~~~m) >>> k = x >>> k := by
    apply BitVec.eq_of_getLsbD_eq
    intro i _
    rw [BitVec.getLsbD_ushiftRight, BitVec.getLsbD_ushiftRight, BitVec.getLsbD_and,
      BitVec.getLsbD_not]
    by_cases hw : k + i < w
    · rw [hm (k + i) hw]; simp [hw]
    · simp [BitVec.getLsbD_of_ge x (k + i) (by omega)]
  calc steps p k x = steps p k ((x &&& m) ^^^ (x &&& ~~~m)) := by rw [and_xor_and_not]
    _ = steps p k (x &&& m) ^^^ ((x &&& ~~~m) >>> k) := by
        rw [steps_xor, steps_of_low_clear p hlow]
    _ = (x >>> k) ^^^ steps p k (x &&& m) := by rw [hshift, BitVec.xor_comm]

/-! ### Injectivity -/

variable {p}

/-- With the top bit of the polynomial set, only the clear register is taken to
the clear one: an odd register leaves a shifted value that has no top bit. -/
theorem eq_zero_of_step_eq_zero (hp : p.msb = true) {x : BitVec w} (h : step p x = 0#w) :
    x = 0#w := by
  unfold step at h
  by_cases hx : x.getLsbD 0 = true
  · rw [if_pos hx] at h
    have heq : x >>> 1 = p := by rwa [BitVec.xor_eq_zero_iff] at h
    have hmsb : (x >>> 1).msb = false := by
      rw [BitVec.msb_ushiftRight]; simp
    rw [heq, hp] at hmsb
    exact absurd hmsb (by decide)
  · rw [if_neg hx] at h
    apply BitVec.eq_of_getLsbD_eq
    intro i _
    rw [BitVec.getLsbD_zero]
    cases i with
    | zero => simpa using hx
    | succ i =>
      have hi := congrArg (fun y : BitVec w => y.getLsbD i) h
      simpa [BitVec.getLsbD_ushiftRight, Nat.add_comm] using hi

theorem step_injective (hp : p.msb = true) : Function.Injective (step p) := by
  intro x y h
  have hz : step p (x ^^^ y) = 0#w := by rw [step_xor, h, BitVec.xor_self]
  exact BitVec.xor_eq_zero_iff.mp (eq_zero_of_step_eq_zero hp hz)

theorem steps_injective (hp : p.msb = true) (n : Nat) : Function.Injective (steps p n) := by
  induction n with
  | zero => exact fun _ _ h => h
  | succ n ih => exact ih.comp (step_injective hp)

/-- Two registers apart by `d` are, after the same byte, apart by `d` carried
through eight steps. -/
theorem byteStep_xor (x y : BitVec w) (b : UInt8) :
    byteStep p x b ^^^ byteStep p y b = steps p 8 (x ^^^ y) := by
  unfold byteStep
  rw [← steps_xor, xor_xor_xor_cancel]

/-- … and after the same byte string, through eight steps a byte. -/
theorem run_xor (x y : BitVec w) (bs : List UInt8) :
    run p x bs ^^^ run p y bs = steps p (8 * bs.length) (x ^^^ y) := by
  induction bs generalizing x y with
  | nil => rfl
  | cons b bs ih =>
    rw [run_cons, run_cons, ih, byteStep_xor, List.length_cons, ← steps_add, Nat.mul_succ,
      Nat.add_comm]

/-- **One changed byte.** Two messages that differ in one byte only leave
registers apart by the difference of the two bytes, carried through its own eight
steps and through those of the bytes behind it. -/
theorem run_xor_of_differ (x : BitVec w) (as bs : List UInt8) (b c : UInt8) :
    run p x (as ++ b :: bs) ^^^ run p x (as ++ c :: bs)
      = steps p (8 * (bs.length + 1)) (b.toBitVec.setWidth w ^^^ c.toBitVec.setWidth w) := by
  have hhead : byteStep p (run p x as) b ^^^ byteStep p (run p x as) c
      = steps p 8 (b.toBitVec.setWidth w ^^^ c.toBitVec.setWidth w) := by
    unfold byteStep
    rw [← steps_xor]
    congr 1
    rw [BitVec.xor_comm (run p x as) (b.toBitVec.setWidth w), BitVec.xor_assoc,
      ← BitVec.xor_assoc (run p x as), BitVec.xor_self, BitVec.zero_xor]
  rw [run_append, run_append, run_cons, run_cons, run_xor, hhead, ← steps_add, Nat.mul_succ,
    Nat.add_comm]

end Crc
