import Sub0Log.Child.Process

/-!
# The lines of a stream

`splitLines` is what a stream is split into, without chunks: at every line feed, a line that
is too long cut to the cap and flagged, a carriage return in front of the line feed taken off.

What the capture loop carries at any point is a function of the bytes of the line that has not
ended (`carryOf`), so the loop is the program that writes the lines of the whole stream one after
another, whatever pieces `read` returns it in: **`captureLoop_eq`**.
-/

open Bytes Interleaving

namespace Sub0Log.Child

open Wire Producer Abi

variable {κ γ τ : Type}

/-! ### The reference -/

/-- A line that a line feed ended. -/
def terminated (line : List UInt8) : List UInt8 × Bool :=
  if line.length ≤ cLineCap then
    (if line.getLast? = some cCR then line.dropLast else line, false)
  else (line.take cLineCap, true)

/-- A line that end of file ended. -/
def unterminated (line : List UInt8) : List UInt8 × Bool :=
  if line.length ≤ cLineCap then (line, false) else (line.take cLineCap, true)

/-- The lines of a stream of which `line` is the beginning of the first. -/
def splitFrom (line : List UInt8) : List UInt8 → List (List UInt8 × Bool)
  | [] => if line = [] then [] else [unterminated line]
  | c :: stream =>
    if c = cLF then terminated line :: splitFrom [] stream else splitFrom (line ++ [c]) stream

/-- The lines of a stream. -/
def splitLines (stream : List UInt8) : List (List UInt8 × Bool) := splitFrom [] stream

/-- A stream of lines that all end. -/
theorem splitLines_flatMap (ending : List UInt8) (lines : List (List UInt8))
    (hlines : ∀ line ∈ lines, cLF ∉ line) (hending : cLF ∉ ending) :
    splitLines (lines.flatMap fun line => line ++ (ending ++ [cLF])) =
      lines.map fun line => terminated (line ++ ending) := by
  -- up to its line feed a line is only added to
  have hopen : ∀ (text begun stream : List UInt8), cLF ∉ text →
      splitFrom begun (text ++ cLF :: stream) = terminated (begun ++ text) :: splitFrom [] stream := by
    intro text
    induction text with
    | nil =>
      intro begun stream _
      rw [List.nil_append, splitFrom, if_pos rfl, List.append_nil]
    | cons c text ih =>
      intro begun stream htext
      rw [List.cons_append, splitFrom, if_neg (List.ne_of_not_mem_cons htext).symm,
        ih _ _ fun hmem => htext (List.mem_cons_of_mem _ hmem), List.append_assoc]
      rfl
  induction lines with
  | nil => rfl
  | cons line lines ih =>
    have htext : cLF ∉ line ++ ending := fun hmem => (List.mem_append.mp hmem).elim
      (hlines line List.mem_cons_self) hending
    have hrest := ih fun line hline => hlines line (List.mem_cons_of_mem _ hline)
    unfold splitLines at hrest ⊢
    rw [List.flatMap_cons, ← List.append_assoc, List.append_assoc (line ++ ending),
      List.map_cons, ← hrest]
    exact hopen (line ++ ending) [] _ htext

/-! ### What is carried -/

/-- What the loop carries after `line`, the bytes of a line that has not ended. -/
def carryOf (line : List UInt8) : Carry :=
  if line.length ≤ cLineCap then ⟨line, false⟩ else ⟨[], true⟩

theorem carryOf_short {line : List UInt8} (h : line.length ≤ cLineCap) :
    carryOf line = ⟨line, false⟩ := if_pos h

theorem carryOf_long {line : List UInt8} (h : cLineCap < line.length) :
    carryOf line = ⟨[], true⟩ := if_neg (Nat.not_le.mpr h)

/-- A line feed. -/
theorem captureByte_end (line : List UInt8) :
    captureByte (carryOf line) cLF =
      (if line.length ≤ cLineCap then some (terminated line) else none, carryOf []) := by
  unfold captureByte
  rw [if_pos rfl]
  by_cases h : line.length ≤ cLineCap
  · rw [carryOf_short h, if_pos h, terminated, if_pos h]
    rfl
  · rw [carryOf_long (Nat.not_le.mp h), if_neg h]
    rfl

theorem captureByte_carried (line : List UInt8) {c : UInt8} (hc : c ≠ cLF) :
    captureByte ⟨line, false⟩ c =
      if cLineCap < (line ++ [c]).length then
        (some ((line ++ [c]).take cLineCap, true), ⟨[], true⟩)
      else (none, ⟨line ++ [c], false⟩) := by
  unfold captureByte
  rw [if_neg hc]
  rfl

theorem captureByte_discarded {c : UInt8} (hc : c ≠ cLF) :
    captureByte ⟨[], true⟩ c = (none, ⟨[], true⟩) := by
  unfold captureByte
  rw [if_neg hc]
  rfl

/-- Any other byte: it is carried, or it is the first beyond the cap, or nothing is. -/
theorem captureByte_open (line : List UInt8) {c : UInt8} (hc : c ≠ cLF) :
    captureByte (carryOf line) c =
      (if line.length = cLineCap then some (line, true) else none, carryOf (line ++ [c])) := by
  have hlength : (line ++ [c]).length = line.length + 1 := by simp
  obtain hlt | heq | hgt := Nat.lt_trichotomy line.length cLineCap
  · rw [carryOf_short (Nat.le_of_lt hlt), captureByte_carried line hc, if_neg (by omega),
      if_neg (Nat.ne_of_lt hlt), carryOf_short (by omega)]
  · rw [carryOf_short (Nat.le_of_eq heq), captureByte_carried line hc, if_pos (by omega),
      if_pos heq, carryOf_long (by omega), ← heq, List.take_left]
  · rw [carryOf_long hgt, captureByte_discarded hc, if_neg (Nat.ne_of_gt hgt),
      carryOf_long (by omega)]

/-- The lines the loop hands on for the rest of a stream, the last one included. -/
def captured (s : Carry) : List UInt8 → List (List UInt8 × Bool)
  | [] => (lastLine s).toList
  | c :: stream => (captureByte s c).1.toList ++ captured (captureByte s c).2 stream

/-- A line beyond the cap is in the reference what it was when it crossed it. -/
theorem splitFrom_long (stream : List UInt8) {line : List UInt8} (h : cLineCap < line.length) :
    splitFrom line stream = (line.take cLineCap, true) :: (splitFrom line stream).tail := by
  induction stream generalizing line with
  | nil =>
    have hne : line ≠ [] := by
      rintro rfl
      exact absurd h (Nat.not_lt_zero _)
    rw [splitFrom, if_neg hne, unterminated, if_neg (Nat.not_le.mpr h)]
    rfl
  | cons c stream ih =>
    rw [splitFrom]
    split
    · rw [terminated, if_neg (Nat.not_le.mpr h)]
      rfl
    · have hmore : cLineCap < (line ++ [c]).length := by
        rw [List.length_append]
        exact Nat.lt_add_right _ h
      rw [ih hmore, List.take_append_of_le_length (Nat.le_of_lt h)]
      rfl

/-- **What is handed on is what the reference says**; of a line beyond the cap that was done when
it crossed it. -/
theorem captured_carryOf (stream line : List UInt8) :
    captured (carryOf line) stream =
      if line.length ≤ cLineCap then splitFrom line stream else (splitFrom line stream).tail := by
  induction stream generalizing line with
  | nil =>
    rw [captured, splitFrom]
    by_cases h : line.length ≤ cLineCap
    · rw [carryOf_short h, if_pos h, lastLine]
      by_cases hempty : line = []
      · rw [if_pos hempty, if_neg fun hand => hand.2 hempty]
        rfl
      · rw [if_neg hempty, if_pos ⟨rfl, hempty⟩, unterminated, if_pos h]
        rfl
    · rw [carryOf_long (Nat.not_le.mp h), if_neg h]
      split <;> rfl
  | cons c stream ih =>
    by_cases hc : c = cLF
    · subst hc
      have hrest : captured (carryOf []) stream = splitFrom [] stream :=
        (ih []).trans (if_pos (Nat.zero_le _))
      rw [captured, captureByte_end, splitFrom, if_pos rfl, hrest]
      split <;> rfl
    · rw [captured, captureByte_open line hc, splitFrom, if_neg hc, ih]
      have hlength : (line ++ [c]).length = line.length + 1 := by simp
      obtain hlt | heq | hgt := Nat.lt_trichotomy line.length cLineCap
      · rw [if_neg (Nat.ne_of_lt hlt), if_pos (by omega), if_pos (Nat.le_of_lt hlt)]
        rfl
      · -- the byte that crosses the cap
        rw [if_pos heq, if_neg (by omega), if_pos (Nat.le_of_eq heq),
          splitFrom_long stream (show cLineCap < (line ++ [c]).length by omega), ← heq, List.take_left]
        rfl
      · rw [if_neg (Nat.ne_of_gt hgt), if_neg (by omega), if_neg (by omega)]
        rfl

/-! ### The loop -/

section Functions

variable (lg : κ → Logger τ) (children : γ → ChildCaptureState κ)

/-- A line of child `c`. -/
def lineOf (c : γ) (stream : ChildStream) (line : List UInt8 × Bool) : ChildLine :=
  ⟨(children c).childId, stream, line.1, line.2⟩

/-- Lines written one after another. -/
def writeLines (c : γ) : List ChildLine → ChildCode κ γ Unit
  | [] => pure ()
  | line :: lines => do
    writeChildOutputLine lg children c line
    writeLines c lines

theorem writeCaptured_bind {α : Type} (c : γ) (stream : ChildStream)
    (line : Option (List UInt8 × Bool)) (lines : List ChildLine) (f : Unit → ChildCode κ γ α) :
    (writeCaptured lg children c stream line >>= fun _ => writeLines lg children c lines >>= f) =
      writeLines lg children c (line.toList.map (lineOf children c stream) ++ lines) >>= f := by
  cases line with
  | none => rfl
  | some line => exact (Prog.bind_assoc _ _ _).symm

/-- One chunk, whatever is done with the rest of the stream. -/
theorem processCapturedChunk_bind (c : γ) (stream : ChildStream) (chunk rest : List UInt8)
    (s : Carry) :
    (processCapturedChunk lg children c stream chunk s >>= fun s =>
        writeLines lg children c ((captured s rest).map (lineOf children c stream))) =
      writeLines lg children c ((captured s (chunk ++ rest)).map (lineOf children c stream)) := by
  induction chunk generalizing s with
  | nil => rfl
  | cons byte chunk ih =>
    have hwrite := writeCaptured_bind lg children c stream (captureByte s byte).1
      ((captured (captureByte s byte).2 (chunk ++ rest)).map (lineOf children c stream)) Prog.ret
    rw [Prog.bind_ret, Prog.bind_ret] at hwrite
    rw [List.cons_append, captured, List.map_append, ← hwrite, ← ih]
    exact Prog.bind_assoc _ _ _

/-- All chunks, and what end of file leaves. -/
theorem captureChunks_bind (c : γ) (stream : ChildStream) (reads : List (List UInt8)) (s : Carry) :
    (captureChunks lg children c stream reads s >>= fun s =>
        writeCaptured lg children c stream (lastLine s)) =
      writeLines lg children c ((captured s reads.flatten).map (lineOf children c stream)) := by
  induction reads generalizing s with
  | nil =>
    have hwrite := writeCaptured_bind lg children c stream (lastLine s) [] Prog.ret
    rw [Prog.bind_ret, Prog.bind_ret, List.append_nil] at hwrite
    rw [List.flatten_nil, captured, ← hwrite]
    exact (Prog.bind_ret _).symm
  | cons chunk reads ih =>
    rw [List.flatten_cons, ← processCapturedChunk_bind]
    refine (Prog.bind_assoc _ _ _).trans ?_
    exact congrArg _ (funext fun s => ih s)

/-- **Splitting does not depend on the chunks.** -/
theorem captureLoop_eq (c : γ) (stream : ChildStream) (reads : List (List UInt8)) :
    captureLoop lg children c stream reads =
      writeLines lg children c ((splitLines reads.flatten).map (lineOf children c stream)) := by
  have hstart : captured ⟨[], false⟩ reads.flatten = splitLines reads.flatten :=
    (captured_carryOf reads.flatten []).trans (if_pos (Nat.zero_le _))
  rw [← hstart]
  exact captureChunks_bind lg children c stream reads ⟨[], false⟩

end Functions

end Sub0Log.Child
