import Sub0Log.Export.Text
import Sub0Log.Library.Checked

/-!
# The validator's reads

`validUtf8` with its index: every `text[i]` is a read that can miss, and the length that is
left a difference that can wrap. **`validUtf8_exact`**: no read misses, nothing wraps, and
the answer is whether the text is well-formed UTF-8.
-/

open Checked

namespace Sub0Log.Export

open Utf8

/-- `text[i]`. -/
def charAt (text : List UInt8) (i : ℕ) : Checked UInt8 :=
  match text[i]? with
  | some c => .ok c
  | none => .error .outOfBounds

/-- The loop over the announced bytes: the index behind them and the code, or a byte that
does not continue. -/
def continuationFrom (text : List UInt8) : (count i code : ℕ) → Checked (Option (ℕ × ℕ))
  | 0, i, code => .ok (some (i, code))
  | count + 1, i, code => do
    let next ← charAt text i
    if next &&& 0xc0 ≠ 0x80 then .ok none
    else continuationFrom text count (i + 1) (code <<< 6 ||| (next &&& 0x3f).toNat)

/-- The rest of the validator from index `i` on. -/
def validUtf8From (text : List UInt8) : (fuel i : ℕ) → Checked Bool
  | 0, i => if i < text.length then .error .outOfFuel else .ok true
  | fuel + 1, i =>
    if i < text.length then do
      let first ← charAt text i
      if first < 0x80 then validUtf8From text fuel (i + 1)
      else
        match utf8Lead first with
        | none => .ok false
        | some (count, code, minimum) => do
          let left ← sub64 text.length (i + 1)
          if left < count then .ok false
          else do
            let tail ← continuationFrom text count (i + 1) code
            match tail with
            | none => .ok false
            | some (i, code) =>
              if code < minimum ∨ 0x10ffff < code ∨ (0xd800 ≤ code ∧ code ≤ 0xdfff) then .ok false
              else validUtf8From text fuel i
    else .ok true

/-- `validUtf8`, every access checked. -/
def validUtf8Checked (text : List UInt8) : Checked Bool := validUtf8From text text.length 0

theorem charAt_eq {text rest : List UInt8} {i : ℕ} {c : UInt8} (h : text.drop i = c :: rest) :
    charAt text i = .ok c ∧ text.drop (i + 1) = rest := by
  have hget : text[i]? = some c := by rw [← List.head?_drop, h]; rfl
  refine ⟨by unfold charAt; rw [hget], ?_⟩
  rw [← List.tail_drop, h]
  rfl

/-- Where the announced bytes are there, none of them is missed. -/
theorem continuationFrom_eq (text : List UInt8) (count i code : ℕ) (h : i + count ≤ text.length) :
    continuationFrom text count i code =
      .ok ((utf8Tail code count (text.drop i)).map fun tail => (i + count, tail.1)) ∧
      ∀ tail, utf8Tail code count (text.drop i) = some tail → tail.2 = text.drop (i + count) := by
  induction count generalizing i code with
  | zero =>
    refine ⟨rfl, fun tail htail => ?_⟩
    rw [← Option.some.inj htail]
    rfl
  | succ count ih =>
    cases hdrop : text.drop i with
    | nil => exact absurd (List.drop_eq_nil_iff.mp hdrop) (by omega)
    | cons next rest =>
      obtain ⟨hchar, hrest⟩ := charAt_eq hdrop
      rw [continuationFrom, hchar, ok_bind, utf8Tail]
      split
      · exact ⟨rfl, fun tail htail => absurd htail (by simp)⟩
      · rw [← hrest, show i + (count + 1) = i + 1 + count by omega]
        exact ih (i + 1) _ (by omega)

/-- From any index the checked loop answers as the other does on what is left. -/
theorem validUtf8From_eq (text : List UInt8) (fuel i : ℕ) (h : text.length ≤ i + fuel) :
    validUtf8From text fuel i = .ok (validUtf8Loop fuel (text.drop i)) := by
  induction fuel generalizing i with
  | zero =>
    rw [validUtf8From, if_neg (by omega), List.drop_eq_nil_of_le (by omega)]
    rfl
  | succ fuel ih =>
    rw [validUtf8From]
    split
    next hlt =>
      cases hdrop : text.drop i with
      | nil => exact absurd (List.drop_eq_nil_iff.mp hdrop) (by omega)
      | cons first rest =>
        obtain ⟨hchar, hrest⟩ := charAt_eq hdrop
        have hlength : rest.length = text.length - (i + 1) := by rw [← hrest, List.length_drop]
        rw [hchar, ok_bind, validUtf8Loop, utf8Step]
        split
        · rw [ih (i + 1) (by omega), hrest]
        · cases utf8Lead first with
          | none => rfl
          | some lead =>
            obtain ⟨count, code, minimum⟩ := lead
            simp only
            rw [sub64_eq (by omega : i + 1 ≤ text.length), ok_bind, ← hlength]
            split
            · rfl
            · -- the announced bytes are there
              obtain ⟨htail, hleft⟩ := continuationFrom_eq text count (i + 1) code (by omega)
              rw [hrest] at htail hleft
              rw [htail, ok_bind]
              cases hwalk : utf8Tail code count rest with
              | none => rfl
              | some tail =>
                simp only [Option.map_some]
                split
                · rfl
                · rw [ih _ (by omega), hleft tail hwalk]
    next hge =>
      rw [List.drop_eq_nil_of_le (by omega)]
      rfl

/-- **UTF-8 validation is exact.** No byte past the end is read, and what is accepted are the
concatenations of shortest encodings of scalar values. -/
theorem validUtf8_exact (text : List UInt8) :
    ∃ valid, validUtf8Checked text = .ok valid ∧ validUtf8 text = valid ∧
      (valid = true ↔ WellFormed text) := by
  refine ⟨validUtf8 text, ?_, rfl, ?_⟩
  · have hrun := validUtf8From_eq text text.length 0 (by omega)
    rwa [List.drop_zero] at hrun
  · rw [wellFormed_iff, validUtf8_iff]

end Sub0Log.Export
