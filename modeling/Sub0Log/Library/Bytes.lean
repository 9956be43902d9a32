import Mathlib

/-!
# Little-endian words and flat memories

A number is laid down as `leBytes width n`, the `width` low bytes of `n` with the
least significant first, and read back by `leNat`. The two are inverse up to the
width (`leNat_leBytes`, `leBytes_leNat`), and both split along concatenation
(`leBytes_add`, `leNat_append`).

A flat memory `Mem` is a function from addresses to bytes. `Mem.slice` reads a
range of it as a list, `Mem.store` overwrites a range with a list. The lemmas say
when a store is seen by a slice (`slice_store_self`), when it is not
(`slice_store_of_disjoint`), and that adjacent stores are one store
(`store_store_append`).
-/

namespace Bytes

/-! ### Little-endian words -/

/-- The `width` low bytes of `n`, least significant first. -/
def leBytes : (width : Nat) → (n : Nat) → List UInt8
  | 0, _ => []
  | width + 1, n => UInt8.ofNat n :: leBytes width (n / 256)

/-- The number a byte list stands for, least significant byte first. -/
def leNat : List UInt8 → Nat
  | [] => 0
  | b :: bs => b.toNat + 256 * leNat bs

@[simp] theorem leBytes_length (width n : Nat) : (leBytes width n).length = width := by
  induction width generalizing n with
  | zero => rfl
  | succ width ih => simp [leBytes, ih]

@[simp] theorem leNat_nil : leNat [] = 0 := rfl

@[simp] theorem leNat_cons (b : UInt8) (bs : List UInt8) :
    leNat (b :: bs) = b.toNat + 256 * leNat bs := rfl

/-- Reading back `width` bytes of `n` gives `n` modulo the width. -/
theorem leNat_leBytes (width n : Nat) : leNat (leBytes width n) = n % 256 ^ width := by
  induction width generalizing n with
  | zero => simp [leBytes, Nat.mod_one]
  | succ width ih =>
    have hb : (UInt8.ofNat n).toNat = n % 256 := by simp
    rw [leBytes, leNat_cons, ih, hb, Nat.pow_succ', Nat.mod_mul]

theorem leNat_leBytes_of_lt {width n : Nat} (h : n < 256 ^ width) :
    leNat (leBytes width n) = n := by
  rw [leNat_leBytes, Nat.mod_eq_of_lt h]

theorem leNat_lt (bs : List UInt8) : leNat bs < 256 ^ bs.length := by
  induction bs with
  | nil => simp
  | cons b bs ih =>
    have hb : b.toNat < 256 := b.toNat_lt
    rw [leNat_cons, List.length_cons, Nat.pow_succ']
    omega

/-- Laying a read number down again gives the bytes it was read from. -/
theorem leBytes_leNat (bs : List UInt8) : leBytes bs.length (leNat bs) = bs := by
  induction bs with
  | nil => rfl
  | cons b bs ih =>
    have hb : b.toNat < 256 := b.toNat_lt
    have hdiv : (b.toNat + 256 * leNat bs) / 256 = leNat bs := by omega
    have hmod : UInt8.ofNat (b.toNat + 256 * leNat bs) = b := by
      apply UInt8.toNat_inj.mp
      simp only [UInt8.toNat_ofNat']
      omega
    rw [leNat_cons, List.length_cons, leBytes, hdiv, ih, hmod]

theorem leNat_append (as bs : List UInt8) :
    leNat (as ++ bs) = leNat as + 256 ^ as.length * leNat bs := by
  induction as with
  | nil => simp
  | cons a as ih =>
    rw [List.cons_append, leNat_cons, leNat_cons, ih, List.length_cons, Nat.pow_succ']
    ring

/-- A word laid down in two parts: the low part, then what is left of the number. -/
theorem leBytes_add (v w n : Nat) :
    leBytes (v + w) n = leBytes v n ++ leBytes w (n / 256 ^ v) := by
  induction v generalizing n with
  | zero => simp [leBytes]
  | succ v ih =>
    rw [Nat.succ_add, leBytes, leBytes, ih, List.cons_append, Nat.div_div_eq_div_mul,
      Nat.pow_succ']

/-- Only the low bytes of a number are laid down. -/
theorem leBytes_mod (width n : Nat) : leBytes width (n % 256 ^ width) = leBytes width n := by
  have h := leBytes_leNat (leBytes width n)
  rwa [leBytes_length, leNat_leBytes] at h

theorem leBytes_zero (width : Nat) : leBytes width 0 = List.replicate width 0 := by
  induction width with
  | zero => rfl
  | succ width ih => rw [leBytes, Nat.zero_div, ih, List.replicate_succ]; rfl

/-! ### Fields of a byte string -/

/-- The little-endian field of `n` bytes at offset `off` of a byte string. -/
def field (bs : List UInt8) (off n : Nat) : Nat := leNat ((bs.drop off).take n)

theorem field_lt (bs : List UInt8) (off n : Nat) : field bs off n < 256 ^ n := by
  refine lt_of_lt_of_le (leNat_lt _) (Nat.pow_le_pow_right (by decide) ?_)
  rw [List.length_take]
  exact Nat.min_le_left _ _

/-- The field laid down first is read at offset `0`. -/
@[simp] theorem field_here (w x : Nat) (rest : List UInt8) :
    field (leBytes w x ++ rest) 0 w = x % 256 ^ w := by
  rw [field, List.drop_zero, List.take_left' (leBytes_length w x), leNat_leBytes]

@[simp] theorem field_last (w x : Nat) : field (leBytes w x) 0 w = x % 256 ^ w := by
  have h := field_here w x []
  rwa [List.append_nil] at h

/-- A field behind the first part is read from the rest. -/
theorem field_skip {as bs : List UInt8} {off n : Nat} (h : as.length ≤ off) :
    field (as ++ bs) off n = field bs (off - as.length) n := by
  rw [field, field, List.drop_append, List.drop_eq_nil_of_le h, List.nil_append]

/-- A field inside the first part does not see the rest. -/
theorem field_append_left {as bs : List UInt8} {off n : Nat} (h : off + n ≤ as.length) :
    field (as ++ bs) off n = field as off n := by
  rw [field, field, List.drop_append_of_le_length (by omega),
    List.take_append_of_le_length (by rw [List.length_drop]; omega)]

/-- A field behind a word laid down first. -/
@[simp] theorem field_skip_word {w x off n : Nat} {rest : List UInt8} (h : w ≤ off) :
    field (leBytes w x ++ rest) off n = field rest (off - w) n := by
  rw [field_skip (by rwa [leBytes_length]), leBytes_length]

/-! ### Flat memories -/

/-- A memory: one byte at every address. -/
abbrev Mem := Nat → UInt8

namespace Mem

/-- The `n` bytes from address `a` on. -/
def slice (m : Mem) (a : Nat) : (n : Nat) → List UInt8
  | 0 => []
  | n + 1 => m a :: slice m (a + 1) n

/-- The memory with `bs` laid down from address `a` on. -/
def store (m : Mem) (a : Nat) (bs : List UInt8) : Mem :=
  fun x => if a ≤ x then bs.getD (x - a) (m x) else m x

@[simp] theorem slice_length (m : Mem) (a n : Nat) : (m.slice a n).length = n := by
  induction n generalizing a with
  | zero => rfl
  | succ n ih => simp [slice, ih]

@[simp] theorem slice_zero (m : Mem) (a : Nat) : m.slice a 0 = [] := rfl

theorem slice_add (m : Mem) (a k n : Nat) :
    m.slice a (k + n) = m.slice a k ++ m.slice (a + k) n := by
  induction k generalizing a with
  | zero => simp
  | succ k ih =>
    rw [Nat.succ_add, slice, ih, slice, List.cons_append, Nat.add_assoc, Nat.add_comm 1 k]

/-- Two slices agree when the memories agree on the range. -/
theorem slice_congr {m m' : Mem} {a n : Nat} (h : ∀ x, a ≤ x → x < a + n → m x = m' x) :
    m.slice a n = m'.slice a n := by
  induction n generalizing a with
  | zero => rfl
  | succ n ih =>
    rw [slice, slice, h a (Nat.le_refl a) (by omega),
      ih (fun x h₁ h₂ => h x (by omega) (by omega))]

/-- Memories with equal slices agree on the range. -/
theorem eq_of_slice_eq {m m' : Mem} {a n : Nat} (h : m.slice a n = m'.slice a n) :
    ∀ x, a ≤ x → x < a + n → m x = m' x := by
  induction n generalizing a with
  | zero => intro x h₁ h₂; omega
  | succ n ih =>
    intro x h₁ h₂
    rw [slice, slice, List.cons.injEq] at h
    by_cases hx : x = a
    · rw [hx]; exact h.1
    · exact ih h.2 x (by omega) (by omega)

theorem slice_getElem? (m : Mem) (a n i : Nat) (h : i < n) :
    (m.slice a n)[i]? = some (m (a + i)) := by
  induction n generalizing a i with
  | zero => omega
  | succ n ih =>
    cases i with
    | zero => simp [slice]
    | succ i =>
      rw [slice, List.getElem?_cons_succ, ih (a + 1) i (by omega)]
      congr 2; omega

/-- A slice cut out of a slice. -/
theorem slice_drop_take (m : Mem) (a n off k : Nat) (h : off + k ≤ n) :
    ((m.slice a n).drop off).take k = m.slice (a + off) k := by
  have hsplit : n = off + (k + (n - off - k)) := by omega
  rw [hsplit, slice_add, slice_add, List.drop_left' (slice_length m a off),
    List.take_left' (slice_length m (a + off) k)]

/-- The memory a byte string is the beginning of; zero from its end on. -/
def ofList (bs : List UInt8) : Mem := fun x => bs.getD x 0

theorem slice_ofList {bs : List UInt8} {a n : Nat} (h : a + n ≤ bs.length) :
    (ofList bs).slice a n = (bs.drop a).take n := by
  induction n generalizing a with
  | zero => simp
  | succ n ih =>
    have ha : a < bs.length := by omega
    rw [slice, ih (by omega), List.drop_eq_getElem_cons ha, List.take_succ_cons]
    simp [ofList, List.getD_eq_getElem?_getD, List.getElem?_eq_getElem ha]

theorem store_of_lt {m : Mem} {a x : Nat} {bs : List UInt8} (h : x < a) :
    m.store a bs x = m x := by
  rw [store, if_neg (by omega)]

theorem store_of_ge {m : Mem} {a x : Nat} {bs : List UInt8} (h : a + bs.length ≤ x) :
    m.store a bs x = m x := by
  rw [store]
  split
  · rw [List.getD_eq_getElem?_getD, List.getElem?_eq_none (by omega)]; rfl
  · rfl

@[simp] theorem store_nil (m : Mem) (a : Nat) : m.store a [] = m := by
  funext x
  unfold store
  split <;> simp

theorem store_cons (m : Mem) (a : Nat) (b : UInt8) (bs : List UInt8) :
    m.store a (b :: bs) = (m.store a [b]).store (a + 1) bs := by
  funext x
  unfold store
  by_cases h₁ : a + 1 ≤ x
  · have hx : x - a = (x - (a + 1)) + 1 := by omega
    rw [if_pos (by omega), if_pos h₁, if_pos (by omega), hx]
    simp [List.getD_eq_getElem?_getD]
  · by_cases h₂ : a ≤ x
    · have hx : x - a = 0 := by omega
      rw [if_pos h₂, if_neg h₁, if_pos h₂, hx]
      simp
    · rw [if_neg h₂, if_neg h₁, if_neg h₂]

/-- Adjacent stores are one store. -/
theorem store_store_append (m : Mem) (a : Nat) (as bs : List UInt8) :
    (m.store a as).store (a + as.length) bs = m.store a (as ++ bs) := by
  induction as generalizing a m with
  | nil => simp
  | cons b as ih =>
    rw [store_cons, List.cons_append, store_cons m a b (as ++ bs), ← ih, List.length_cons]
    congr 1; omega

/-- Adjacent stores are one store, also when the one in front comes last. -/
theorem store_store_front (m : Mem) (a : Nat) (as bs : List UInt8) :
    (m.store (a + as.length) bs).store a as = m.store a (as ++ bs) := by
  rw [← store_store_append]
  funext x
  by_cases hfront : x < a + as.length
  · -- nothing of the other store is there
    have hbehind : ∀ m : Mem, m.store (a + as.length) bs x = m x := fun m => store_of_lt hfront
    rw [hbehind]
    unfold store
    by_cases hx : a ≤ x
    · rw [if_pos hx, if_pos hx, if_neg (by omega)]
    · rw [if_neg hx, if_neg hx, if_neg (by omega)]
  · have hx : a + as.length ≤ x := Nat.le_of_not_lt hfront
    rw [store_of_ge hx]
    unfold store
    rw [if_pos hx, if_pos hx, if_pos (by omega)]
    congr 1
    rw [List.getD_eq_getElem?_getD, List.getElem?_eq_none (by omega)]
    rfl

/-- A store is read back by the slice over its own range. -/
@[simp] theorem slice_store_self (m : Mem) (a : Nat) (bs : List UInt8) :
    (m.store a bs).slice a bs.length = bs := by
  induction bs generalizing a m with
  | nil => rfl
  | cons b bs ih =>
    rw [List.length_cons, slice, store_cons, ih, store_of_lt (by omega)]
    simp [store]

theorem slice_store_eq {m : Mem} {a n : Nat} {bs : List UInt8} (h : bs.length = n) :
    (m.store a bs).slice a n = bs := by
  subst h; exact slice_store_self m a bs

/-- A store outside the range of a slice is not seen by it. -/
theorem slice_store_of_disjoint {m : Mem} {a c n : Nat} {bs : List UInt8}
    (h : c + n ≤ a ∨ a + bs.length ≤ c) : (m.store a bs).slice c n = m.slice c n := by
  apply slice_congr
  intro x h₁ h₂
  rcases h with h | h
  · exact store_of_lt (by omega)
  · exact store_of_ge (by omega)

/-- Laying down what is already there changes nothing. -/
theorem store_slice_self (m : Mem) (a n : Nat) : m.store a (m.slice a n) = m := by
  funext x
  unfold store
  split
  · by_cases hx : x - a < n
    · rw [List.getD_eq_getElem?_getD, slice_getElem? m a n _ hx, Option.getD_some]
      congr 1; omega
    · rw [List.getD_eq_getElem?_getD, List.getElem?_eq_none (by simp; omega)]; rfl
  · rfl

/-- Zeros stored over zeros. -/
theorem store_append_zeros {m : Mem} {a n : Nat} {bs : List UInt8}
    (h : ∀ x, a + bs.length ≤ x → x < a + bs.length + n → m x = 0) :
    m.store a (bs ++ List.replicate n 0) = m.store a bs := by
  rw [← store_store_append]
  have hzeros : List.replicate n 0 = (m.store a bs).slice (a + bs.length) n := by
    refine List.ext_getElem? fun i => ?_
    by_cases hi : i < n
    · rw [slice_getElem? _ _ _ _ hi, store_of_ge (Nat.le_add_right _ _), h _ (by omega) (by omega),
        List.getElem?_replicate, if_pos hi]
    · rw [List.getElem?_eq_none (by simpa using hi), List.getElem?_eq_none (by simpa using hi)]
  rw [hzeros, store_slice_self]

/-- The little-endian word of `width` bytes at address `a`. -/
def word (m : Mem) (a width : Nat) : Nat := leNat (m.slice a width)

theorem word_lt (m : Mem) (a width : Nat) : m.word a width < 256 ^ width := by
  have h := leNat_lt (m.slice a width)
  rwa [slice_length] at h

theorem word_congr {m m' : Mem} {a width : Nat}
    (h : ∀ x, a ≤ x → x < a + width → m x = m' x) : m.word a width = m'.word a width := by
  rw [word, word, slice_congr h]

/-- A word read in two parts. -/
theorem word_add (m : Mem) (a v w : Nat) :
    m.word a (v + w) = m.word a v + 256 ^ v * m.word (a + v) w := by
  rw [word, slice_add, leNat_append, slice_length]; rfl

theorem word_eq_zero_of_zero {m : Mem} {a width : Nat}
    (h : ∀ x, a ≤ x → x < a + width → m x = 0) : m.word a width = 0 := by
  induction width generalizing a with
  | zero => rfl
  | succ w ih =>
    have h0 : m a = 0 := h a (Nat.le_refl a) (by omega)
    have ih' : leNat (m.slice (a + 1) w) = 0 :=
      ih (fun x h₁ h₂ => h x (by omega) (by omega))
    simp [word, slice, h0, ih']

theorem word_store_eq {m : Mem} {a width n : Nat} (h : n < 256 ^ width) :
    (m.store a (leBytes width n)).word a width = n := by
  rw [word, slice_store_eq (leBytes_length width n), leNat_leBytes_of_lt h]

end Mem

end Bytes
