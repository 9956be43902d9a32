import Sub0Log.Library.Checked
import Sub0Log.Library.Interleaving

/-!
# Reading a memory in place while it changes

A reader without a copy of its own: a program that loads from the memory of a running system,
which may take any number of steps before each load and during it (`Reads`). A range of bytes is
loaded in any order, each byte at some moment of the load; an aligned word of eight bytes in two
halves, the high one first.

A reader that goes up and never loads an address twice (`Ascends`) sees an image of the memory
which is none the system ever had. **`Reads.exists_image`** makes it a memory that stands still:
on it the program returns the same, and each load has its bytes from the moments of that load
(`Timed`).
-/

open Bytes Checked

namespace InPlace

variable {σ α β : Type}

/-- What a reader loads: some bytes, or a word in two halves. -/
inductive Load
  | bytes (a n : Nat)
  | word (a : Nat)
  deriving DecidableEq, Repr

namespace Load

def Answer : Load → Type
  | bytes _ _ => List UInt8
  | word _ => Nat

def address : Load → Nat
  | bytes a _ => a
  | word a => a

def size : Load → Nat
  | bytes _ n => n
  | word _ => 8

/-- What a memory that stands still answers. -/
def of (m : Mem) : (i : Load) → i.Answer
  | bytes a n => m.slice a n
  | word a => m.word a 8

end Load

/-- A program that loads. -/
abbrev Looking (α : Type) : Type := Interleaving.Prog Load.Answer α

/-- What it returns of a memory that stands still. -/
def look (m : Mem) : Looking α → α
  | .ret a => a
  | .op i next => look m (next (i.of m))

/-- What it loads of it, in order. -/
def loads (m : Mem) : Looking α → List Load
  | .ret _ => []
  | .op i next => i :: loads m (next (i.of m))

theorem look_bind (m : Mem) (x : Looking α) (f : α → Looking β) :
    look m (x >>= f) = look m (f (look m x)) := by
  induction x with
  | ret a => rfl
  | op i next ih => exact ih (i.of m)

theorem loads_bind (m : Mem) (x : Looking α) (f : α → Looking β) :
    loads m (x >>= f) = loads m x ++ loads m (f (look m x)) := by
  induction x with
  | ret a => rfl
  | op i next ih => exact congrArg (i :: ·) (ih (i.of m))

/-! ### Readers that go up -/

/-- Loading from address `a` on the program never goes back, whatever it is answered; it returns
an `r` with `Q r b` when it has loaded up to `b`. -/
def Ascends (Q : α → Nat → Prop) : Nat → Looking α → Prop
  | a, .ret r => Q r a
  | a, .op i next => a ≤ i.address ∧ ∀ r, Ascends Q (i.address + i.size) (next r)

theorem Ascends.bind {Q : β → Nat → Prop} {a : Nat} {x : Looking α} {f : α → Looking β}
    (h : Ascends (fun r b => Ascends Q b (f r)) a x) : Ascends Q a (x >>= f) := by
  induction x generalizing a with
  | ret r => exact h
  | op i next ih => exact ⟨h.1, fun r => ih r (h.2 r)⟩

theorem Ascends.imp {P Q : α → Nat → Prop} {a : Nat} {x : Looking α} (h : Ascends P a x)
    (himp : ∀ r b, P r b → Q r b) : Ascends Q a x := by
  induction x generalizing a with
  | ret r => exact himp r a h
  | op i next ih => exact ⟨h.1, fun r => ih r (h.2 r)⟩

/-- What lies below is not seen. -/
theorem Ascends.look_congr {Q : α → Nat → Prop} {a : Nat} {x : Looking α} (h : Ascends Q a x)
    {m m' : Mem} (hm : ∀ y, a ≤ y → m y = m' y) :
    look m x = look m' x ∧ loads m x = loads m' x := by
  induction x generalizing a with
  | ret _ => exact ⟨rfl, rfl⟩
  | op i next ih =>
    have hanswer : i.of m = i.of m' := by
      cases i with
      | bytes b n => exact Mem.slice_congr fun y hy _ => hm y (le_trans h.1 hy)
      | word b => exact Mem.word_congr fun y hy _ => hm y (le_trans h.1 hy)
    have hrest := ih (i.of m') (h.2 _) fun y hy =>
      hm y (le_trans h.1 (le_trans (Nat.le_add_right _ _) hy))
    refine ⟨?_, ?_⟩
    · show look m (next (i.of m)) = look m' (next (i.of m'))
      rw [hanswer]
      exact hrest.1
    · show i :: loads m (next (i.of m)) = i :: loads m' (next (i.of m'))
      rw [hanswer, hrest.2]

/-! ### Readers that check -/

/-- A program that loads and may fault. -/
abbrev Attempt (α : Type) : Type := ExceptT Fault Looking α

namespace Attempt

variable {m : Mem} {a : Nat}

/-- Load if the memory has it. -/
def load (size : Nat) (i : Load) : Attempt i.Answer :=
  if i.address + i.size ≤ size then ExceptT.lift (Interleaving.Prog.perform i)
  else throw .outOfBounds

theorem run_bind (x : Attempt α) (f : α → Attempt β) :
    (x >>= f).run = (x.run >>= fun r : Checked α => match r with
      | .ok a => (f a).run
      | .error e => pure (.error e)) := by
  refine congrArg (x.run >>= ·) (funext fun r => ?_)
  cases r <;> rfl

theorem look_run_bind (m : Mem) (x : Attempt α) (f : α → Attempt β) :
    look m (x >>= f).run = (look m x.run : Checked α) >>= fun a => look m (f a).run := by
  rw [run_bind, look_bind]
  cases look m x.run <;> rfl

@[simp] theorem look_pure (m : Mem) (a : α) : look m (pure a : Attempt α).run = .ok a := rfl

@[simp] theorem look_lift (m : Mem) (x : Checked α) :
    look m (liftM x : Attempt α).run = x := rfl

theorem look_load (m : Mem) {size : Nat} {i : Load} (h : i.address + i.size ≤ size) :
    look m (load size i).run = .ok (i.of m) := by
  unfold load
  rw [if_pos h]
  rfl

theorem look_load_out (m : Mem) {size : Nat} {i : Load} (h : ¬i.address + i.size ≤ size) :
    look m (load size i).run = .error .outOfBounds := by
  unfold load
  rw [if_neg h]
  rfl

theorem loads_run_bind {x : Attempt α} {f : α → Attempt β} {r : α}
    (h : look m x.run = .ok r) : loads m (x >>= f).run = loads m x.run ++ loads m (f r).run := by
  rw [run_bind, loads_bind, h]

@[simp] theorem loads_pure (m : Mem) (a : α) : loads m (pure a : Attempt α).run = [] := rfl

@[simp] theorem loads_lift (m : Mem) (x : Checked α) : loads m (liftM x : Attempt α).run = [] :=
  rfl

theorem loads_load (m : Mem) {size : Nat} {i : Load} (h : i.address + i.size ≤ size) :
    loads m (load size i).run = [i] := by
  unfold load
  rw [if_pos h]
  rfl

/-- A program that ends well after a bind ended well before it, and loads what the two load. -/
theorem of_bind {x : Attempt α} {f : α → Attempt β} {r : β}
    (h : look m (x >>= f).run = .ok r) : ∃ y, look m x.run = .ok y ∧ look m (f y).run = .ok r ∧
      loads m (x >>= f).run = loads m x.run ++ loads m (f y).run := by
  rw [look_run_bind] at h
  obtain ⟨y, hx, hf⟩ := bind_eq_ok h
  exact ⟨y, hx, hf, loads_run_bind hx⟩

theorem of_lift {x : Checked α} {f : α → Attempt β} {r : β}
    (h : look m (liftM x >>= f).run = .ok r) :
    ∃ y, x = .ok y ∧ look m (f y).run = .ok r ∧
      loads m (liftM x >>= f).run = loads m (f y).run :=
  of_bind h

theorem of_load {size : Nat} {i : Load} {f : i.Answer → Attempt β} {r : β}
    (h : look m (load size i >>= f).run = .ok r) : look m (f (i.of m)).run = .ok r ∧
      loads m (load size i >>= f).run = i :: loads m (f (i.of m)).run := by
  obtain ⟨y, hx, hf, hloads⟩ := of_bind h
  by_cases hin : i.address + i.size ≤ size
  · rw [look_load m hin] at hx
    obtain rfl := Except.ok.inj hx
    rw [loads_load m hin] at hloads
    exact ⟨hf, hloads⟩
  · rw [look_load_out m hin] at hx
    cases hx

/-- What a program that checks has loaded when it ends well. -/
abbrev Goes (Q : α → Nat → Prop) (a : Nat) (x : Attempt α) : Prop :=
  Ascends (fun r b => ∀ y, r = .ok y → Q y b) a x.run

variable {Q : β → Nat → Prop} {P : α → Nat → Prop}

theorem Goes.pure {r : α} (h : P r a) : Goes P a (Pure.pure r) :=
  fun _ hy => Except.ok.inj hy ▸ h

theorem Goes.throw (e : Fault) : Goes P a (throw e) := nofun

theorem Goes.bind {x : Attempt α} {f : α → Attempt β} (hx : Goes P a x)
    (hf : ∀ y b, P y b → Goes Q b (f y)) : Goes Q a (x >>= f) := by
  rw [Goes, run_bind]
  refine Ascends.bind (hx.imp fun r b hr => ?_)
  cases r with
  | error e => exact nofun
  | ok y => exact hf y b (hr y rfl)

theorem Goes.checked {x : Checked α} (h : ∀ y, x = .ok y → P y a) :
    Goes P a (liftM x : Attempt α) :=
  fun y hy => h y hy

theorem Goes.lift {x : Checked α} {f : α → Attempt β} (hf : ∀ y, x = .ok y → Goes Q a (f y)) :
    Goes Q a (liftM x >>= f) := by
  refine Goes.bind (P := fun y b => x = .ok y ∧ b = a) (Goes.checked fun y hy => ⟨hy, rfl⟩)
    fun y b h => ?_
  rw [h.2]
  exact hf y h.1

theorem Goes.load {size : Nat} {i : Load} {f : i.Answer → Attempt β} (h : a ≤ i.address)
    (hf : ∀ y, Goes Q (i.address + i.size) (f y)) : Goes Q a (Attempt.load size i >>= f) := by
  refine Goes.bind (P := fun _ b => b = i.address + i.size) ?_ fun y b hb => hb ▸ hf y
  unfold Attempt.load
  split
  · exact ⟨h, fun _ _ _ => rfl⟩
  · exact nofun

end Attempt

/-! ### The moments of a reader -/

section Moments

variable (step : σ → σ → Prop) (view : σ → Mem)

/-- The system runs. -/
abbrev Runs : σ → σ → Prop := Relation.ReflTransGen step

/-- A byte of a moment between two others. -/
def Between (s e : σ) (x : Nat) (b : UInt8) : Prop :=
  ∃ m, Runs step s m ∧ Runs step m e ∧ b = view m x

/-- The program, begun in state `s`, has returned `r` when the system is in state `e`. -/
inductive Reads : Looking α → σ → α → σ → Prop
  | ret {a : α} {s e : σ} (h : Runs step s e) : Reads (.ret a) s a e
  | bytes {a n : Nat} {next : List UInt8 → Looking α} {s s' e : σ} {bs : List UInt8} {r : α}
      (h : Runs step s s') (hlength : bs.length = n)
      (hbytes : ∀ i, i < n → Between step view s s' (a + i) (bs.getD i 0))
      (hrest : Reads (next bs) s' r e) : Reads (.op (.bytes a n) next) s r e
  | word {a : Nat} {next : Nat → Looking α} {s high low e : σ} {r : α}
      (h : Runs step s high) (h' : Runs step high low)
      (hrest : Reads (next ((view low).word a 4 + 256 ^ 4 * (view high).word (a + 4) 4)) low r e) :
      Reads (.op (.word a) next) s r e

/-- Memory `m` from address `a` on, as it was loaded between the states `s` and `e`: each load
has its bytes, and those it skips, from moments of its own, one load after the other. -/
def Timed (m : Mem) : Nat → List Load → σ → σ → Prop
  | a, [], s, e => Runs step s e ∧ ∀ x, a ≤ x → Between step view s e x (m x)
  | a, .bytes b n :: l, s, e => ∃ s', Runs step s s' ∧
      (∀ x, a ≤ x → x < b + n → Between step view s s' x (m x)) ∧ Timed m (b + n) l s' e
  | a, .word b :: l, s, e => ∃ high low, Runs step s high ∧ Runs step high low ∧
      (∀ x, a ≤ x → x < b → Between step view s high x (m x)) ∧
      (∀ x, b + 4 ≤ x → x < b + 8 → m x = view high x) ∧
      (∀ x, b ≤ x → x < b + 4 → m x = view low x) ∧ Timed m (b + 8) l low e

variable {step view} {s e : σ} {m m' : Mem} {a : Nat} {l l' : List Load}

theorem Between.mono {s' e' : σ} {x : Nat} {b : UInt8} (h : Between step view s e x b)
    (hs : Runs step s' s) (he : Runs step e e') : Between step view s' e' x b := by
  obtain ⟨m, h₁, h₂, hb⟩ := h
  exact ⟨m, hs.trans h₁, h₂.trans he, hb⟩

theorem Timed.runs (h : Timed step view m a l s e) : Runs step s e := by
  induction l generalizing a s with
  | nil => exact h.1
  | cons i l ih =>
    cases i with
    | bytes b n =>
      obtain ⟨s', h₁, -, hrest⟩ := h
      exact h₁.trans (ih hrest)
    | word b =>
      obtain ⟨high, low, h₁, h₂, -, -, -, hrest⟩ := h
      exact (h₁.trans h₂).trans (ih hrest)

/-- Every byte is of a moment of the reader. -/
theorem Timed.between (h : Timed step view m a l s e) {x : Nat} (hx : a ≤ x) :
    Between step view s e x (m x) := by
  induction l generalizing a s with
  | nil => exact h.2 x hx
  | cons i l ih =>
    cases i with
    | bytes b n =>
      obtain ⟨s', h₁, hbytes, hrest⟩ := h
      by_cases hlt : x < b + n
      · exact (hbytes x hx hlt).mono Relation.ReflTransGen.refl hrest.runs
      · exact (ih hrest (Nat.le_of_not_lt hlt)).mono h₁ Relation.ReflTransGen.refl
    | word b =>
      obtain ⟨high, low, h₁, h₂, hgap, hhigh, hlow, hrest⟩ := h
      by_cases hlt : x < b + 8
      · by_cases hskipped : x < b
        · exact (hgap x hx hskipped).mono Relation.ReflTransGen.refl (h₂.trans hrest.runs)
        · by_cases hhalf : x < b + 4
          · exact ⟨low, h₁.trans h₂, hrest.runs, hlow x (Nat.le_of_not_lt hskipped) hhalf⟩
          · exact ⟨high, h₁, h₂.trans hrest.runs, hhigh x (Nat.le_of_not_lt hhalf) hlt⟩
      · exact (ih hrest (Nat.le_of_not_lt hlt)).mono (h₁.trans h₂) Relation.ReflTransGen.refl

/-- The later loads come after the earlier ones. -/
theorem Timed.later (h : Timed step view m a (l ++ l') s e) :
    ∃ a' s', Runs step s s' ∧ Timed step view m a' l' s' e := by
  induction l generalizing a s with
  | nil => exact ⟨a, s, Relation.ReflTransGen.refl, h⟩
  | cons i l ih =>
    cases i with
    | bytes b n =>
      obtain ⟨s', h₁, -, hrest⟩ := h
      obtain ⟨a', s'', h₂, hl'⟩ := ih hrest
      exact ⟨a', s'', h₁.trans h₂, hl'⟩
    | word b =>
      obtain ⟨high, low, h₁, h₂, -, -, -, hrest⟩ := h
      obtain ⟨a', s'', h₃, hl'⟩ := ih hrest
      exact ⟨a', s'', (h₁.trans h₂).trans h₃, hl'⟩

/-- What lies below does not matter. -/
theorem Timed.congr {Q : α → Nat → Prop} {x : Looking α} (hasc : Ascends Q a x)
    (h : Timed step view m a (loads m x) s e) (hm : ∀ y, a ≤ y → m' y = m y) :
    Timed step view m' a (loads m x) s e := by
  induction x generalizing a s with
  | ret _ =>
    refine ⟨h.1, fun y hy => ?_⟩
    rw [hm y hy]
    exact h.2 y hy
  | op i next ih =>
    cases i with
    | bytes b n =>
      have hle : a ≤ b := hasc.1
      obtain ⟨s', h₁, hbytes, hrest⟩ := h
      refine ⟨s', h₁, fun y hy hy' => ?_, ih _ (hasc.2 _) hrest fun y hy => hm y ?_⟩
      · rw [hm y hy]
        exact hbytes y hy hy'
      · exact le_trans hle (le_trans (Nat.le_add_right b n) hy)
    | word b =>
      have hle : a ≤ b := hasc.1
      obtain ⟨high, low, h₁, h₂, hgap, hhigh, hlow, hrest⟩ := h
      refine ⟨high, low, h₁, h₂, fun y hy hy' => ?_, fun y hy hy' => ?_, fun y hy hy' => ?_,
        ih _ (hasc.2 _) hrest fun y hy => hm y (le_trans hle (le_trans (Nat.le_add_right b 8) hy))⟩
      · rw [hm y hy]
        exact hgap y hy hy'
      · rw [hm y (by omega)]
        exact hhigh y hy hy'
      · rw [hm y (by omega)]
        exact hlow y hy hy'

/-- **The image a reader sees.** On a memory that stands still the program would have returned the
same, and loaded the same at the moments at which it did. -/
theorem Reads.exists_image {x : Looking α} {r : α} (h : Reads step view x s r e)
    {Q : α → Nat → Prop} (hasc : Ascends Q a x) :
    ∃ m : Mem, look m x = r ∧ Timed step view m a (loads m x) s e := by
  induction h generalizing a with
  | @ret b s e h => exact ⟨view e, rfl, h, fun y _ => ⟨e, h, Relation.ReflTransGen.refl, rfl⟩⟩
  | @bytes b n next s s' e bs r h hlength hbytes hrest ih =>
    have hle : a ≤ b := hasc.1
    have hnext : Ascends Q (b + n) (next bs) := hasc.2 bs
    obtain ⟨m, hlook, htimed⟩ := ih hnext
    -- skipped bytes are those of the start
    obtain ⟨img, himg⟩ : ∃ img : Mem, img = fun y => if y < b then view s y else m.store b bs y :=
      ⟨_, rfl⟩
    have habove : ∀ y, b + n ≤ y → img y = m y := by
      intro y hy
      simp only [himg]
      rw [if_neg (by omega), Mem.store_of_ge (by omega)]
    have hin : ∀ y, b ≤ y → img y = m.store b bs y := by
      intro y hy
      simp only [himg]
      rw [if_neg (Nat.not_lt_of_le hy)]
    have hanswer : img.slice b n = bs := by
      rw [Mem.slice_congr fun y hy _ => hin y hy, ← hlength]
      exact Mem.slice_store_self _ _ _
    have hsame := hnext.look_congr habove
    refine ⟨img, ?_, ?_⟩
    · show look img (next (img.slice b n)) = r
      rw [hanswer, hsame.1]
      exact hlook
    · show Timed step view img a (Load.bytes b n :: loads img (next (img.slice b n))) s e
      rw [hanswer, hsame.2]
      refine ⟨s', h, fun y hy hy' => ?_, htimed.congr hnext habove⟩
      by_cases hskipped : y < b
      · refine ⟨s, Relation.ReflTransGen.refl, h, ?_⟩
        simp only [himg]
        rw [if_pos hskipped]
      · have hyb : b + (y - b) = y := Nat.add_sub_of_le (Nat.le_of_not_lt hskipped)
        have hget := Mem.slice_getElem? img b n (y - b) (by omega)
        have hbyte := hbytes (y - b) (by omega)
        rw [hyb] at hbyte hget
        rw [hanswer] at hget
        rw [List.getD_eq_getElem?_getD, hget] at hbyte
        exact hbyte
  | @word b next s high low e r h h' hrest ih =>
    have hle : a ≤ b := hasc.1
    obtain ⟨w, hw⟩ : ∃ w, w = (view low).word b 4 + 256 ^ 4 * (view high).word (b + 4) 4 :=
      ⟨_, rfl⟩
    rw [← hw] at hrest ih
    have hnext : Ascends Q (b + 8) (next w) := hasc.2 w
    obtain ⟨m, hlook, htimed⟩ := ih hnext
    -- the low half of one moment and the high half of an earlier one
    obtain ⟨img, himg⟩ : ∃ img : Mem, img = fun y => if y < b then view s y
        else if y < b + 4 then view low y else if y < b + 8 then view high y else m y := ⟨_, rfl⟩
    have habove : ∀ y, b + 8 ≤ y → img y = m y := by
      intro y hy
      simp only [himg]
      rw [if_neg (by omega), if_neg (by omega), if_neg (by omega)]
    have hhigh : ∀ y, b + 4 ≤ y → y < b + 8 → img y = view high y := by
      intro y h₁ h₂
      simp only [himg]
      rw [if_neg (by omega), if_neg (by omega), if_pos h₂]
    have hlow : ∀ y, b ≤ y → y < b + 4 → img y = view low y := by
      intro y h₁ h₂
      simp only [himg]
      rw [if_neg (by omega), if_pos h₂]
    have hword : img.word b 8 = w := by
      have hsplit : img.word b 8 = img.word b 4 + 256 ^ 4 * img.word (b + 4) 4 :=
        Mem.word_add img b 4 4
      have hfront : img.word b 4 = (view low).word b 4 := Mem.word_congr hlow
      have hback : img.word (b + 4) 4 = (view high).word (b + 4) 4 :=
        Mem.word_congr fun y h₁ h₂ => hhigh y h₁ (by omega)
      rw [hsplit, hfront, hback, hw]
    have hsame := hnext.look_congr habove
    refine ⟨img, ?_, ?_⟩
    · show look img (next (img.word b 8)) = r
      rw [hword, hsame.1]
      exact hlook
    · show Timed step view img a (Load.word b :: loads img (next (img.word b 8))) s e
      rw [hword, hsame.2]
      refine ⟨high, low, h, h', fun y hy hy' => ⟨s, Relation.ReflTransGen.refl, h, ?_⟩, hhigh, hlow,
        htimed.congr hnext habove⟩
      simp only [himg]
      rw [if_pos hy']

/-- A load that is made at once, in state `s`. -/
theorem Reads.at_once {i : Load} {next : i.Answer → Looking α} {r : α}
    (h : Reads step view (next (i.of (view s))) s r e) : Reads step view (.op i next) s r e := by
  cases i with
  | bytes b n =>
    refine Reads.bytes Relation.ReflTransGen.refl (Mem.slice_length (view s) b n) (fun k hk => ?_) h
    refine ⟨s, Relation.ReflTransGen.refl, Relation.ReflTransGen.refl, ?_⟩
    rw [List.getD_eq_getElem?_getD, Mem.slice_getElem? (view s) b n k hk]
    rfl
  | word b =>
    have hsplit : (view s).word b 8 =
        (view s).word b 4 + 256 ^ 4 * (view s).word (b + 4) 4 := Mem.word_add (view s) b 4 4
    refine Reads.word Relation.ReflTransGen.refl Relation.ReflTransGen.refl ?_
    rw [← hsplit]
    exact h

/-- The system runs before the program goes on. -/
theorem Reads.after {x : Looking α} {r : α} {s' : σ} (hrun : Runs step s s')
    (h : Reads step view x s' r e) : Reads step view x s r e := by
  cases h with
  | ret h => exact .ret (hrun.trans h)
  | bytes h hlength hbytes hrest =>
    refine .bytes (hrun.trans h) hlength (fun k hk => ?_) hrest
    exact (hbytes k hk).mono hrun Relation.ReflTransGen.refl
  | word h h' hrest => exact .word (hrun.trans h) h' hrest

/-- What the program returns when the first `n` loads are of memory `m` and the others of `m'`. -/
def lookThen (m m' : Mem) : Nat → Looking α → α
  | _, .ret a => a
  | 0, .op i next => look m' (next (i.of m'))
  | n + 1, .op i next => lookThen m m' n (next (i.of m))

/-- The system runs after the first `n` loads, which are made at once, as the others are. -/
theorem Reads.lookThen (hrun : Runs step s e) (n : Nat) (x : Looking α) :
    Reads step view x s (lookThen (view s) (view e) n x) e := by
  have hstanding : ∀ x : Looking α, Reads step view x e (look (view e) x) e := by
    intro x
    induction x with
    | ret a => exact .ret Relation.ReflTransGen.refl
    | op i next ih => exact Reads.at_once (ih _)
  induction x generalizing n with
  | ret a =>
    cases n with
    | zero => exact .ret hrun
    | succ n => exact .ret hrun
  | op i next ih =>
    cases n with
    | zero => exact (hstanding (.op i next)).after hrun
    | succ n => exact Reads.at_once (ih _ n)

end Moments

end InPlace
