import Sub0Log.Export.Json

/-!
# What a format renders to

`Decoder::format` reads its format two bytes at a time wherever a brace stands. A format that
was made by doubling the braces of literals and putting placeholders between them is read back
piece by piece: **`render_escaped`** says that literals come out as they are, that the `i`-th
placeholder is the text of argument `i`, and that nothing else is taken for one, braces inside
literals or argument texts included.
-/

namespace Sub0Log.Export

open Reader

/-- A literal with every brace doubled. -/
def escapeBraces (text : List UInt8) : List UInt8 :=
  text.flatMap fun c => if c = 123 ∨ c = 125 then [c, c] else [c]

/-- The format of a first literal and of those behind the placeholders. -/
def escapedFormat (first : List UInt8) (others : List (List UInt8)) : List UInt8 :=
  escapeBraces first ++ others.flatMap fun text => 123 :: 125 :: escapeBraces text

/-- The text of argument `i`. -/
def argText (chars : DoubleChars) (args : List DecodedArg) (i : ℕ) : List UInt8 :=
  match args[i]? with
  | some arg => appendArgText chars [] arg
  | none => literal "\x7b?\x7d"

/-- The literals with the arguments' texts between them, counted from `i`. -/
def renderedFrom (chars : DoubleChars) (args : List DecodedArg) (i : ℕ)
    (others : List (List UInt8)) : List UInt8 :=
  (others.zipIdx i).flatMap fun (text, i) => argText chars args i ++ text

theorem appendArgText_eq (chars : DoubleChars) (out : List UInt8) (arg : DecodedArg) :
    appendArgText chars out arg = out ++ appendArgText chars [] arg := by
  cases arg <;> rfl

/-- A byte that is no brace stands for itself, whatever follows it. -/
theorem formatLoop_plain (chars : DoubleChars) {c : UInt8} (hopen : c ≠ 123) (hclose : c ≠ 125)
    (rest : List UInt8) (args : List DecodedArg) (out : List UInt8) :
    formatLoop chars (c :: rest) args out = formatLoop chars rest args (out ++ [c]) := by
  rw [formatLoop]
  · exact fun _ h => absurd h hopen
  · exact fun _ h => absurd h hclose
  · exact fun _ _ _ _ h => absurd h hopen
  · exact fun _ _ h => absurd h hopen

/-- **A literal.** Its pieces are whole wherever the loop looks, so what follows does not matter. -/
theorem formatLoop_escape (chars : DoubleChars) (text rest : List UInt8) (args : List DecodedArg)
    (out : List UInt8) :
    formatLoop chars (escapeBraces text ++ rest) args out =
      formatLoop chars rest args (out ++ text) := by
  induction text generalizing out with
  | nil =>
    rw [List.append_nil]
    rfl
  | cons c text ih =>
    have hnext : formatLoop chars ((if c = 123 ∨ c = 125 then [c, c] else [c]) ++
        (escapeBraces text ++ rest)) args out =
        formatLoop chars (escapeBraces text ++ rest) args (out ++ [c]) := by
      split
      next hbrace =>
        obtain rfl | rfl := hbrace
        · exact formatLoop.eq_1 ..
        · exact formatLoop.eq_2 ..
      next hbrace =>
        obtain ⟨hopen, hclose⟩ := not_or.mp hbrace
        exact formatLoop_plain chars hopen hclose _ _ _
    rw [escapeBraces, List.flatMap_cons, List.append_assoc]
    refine hnext.trans ?_
    rw [ih, List.append_assoc]
    rfl

/-- **A placeholder**, the arguments from the `i`-th on being left. -/
theorem formatLoop_placeholder (chars : DoubleChars) (rest : List UInt8) (args : List DecodedArg)
    (i : ℕ) (out : List UInt8) :
    formatLoop chars (123 :: 125 :: rest) (args.drop i) out =
      formatLoop chars rest (args.drop (i + 1)) (out ++ argText chars args i) := by
  unfold argText
  cases hget : args[i]? with
  | none =>
    have hlength : args.length ≤ i := List.getElem?_eq_none_iff.mp hget
    rw [List.drop_eq_nil_of_le hlength, List.drop_eq_nil_of_le (Nat.le_succ_of_le hlength)]
    exact formatLoop.eq_4 ..
  | some arg =>
    obtain ⟨hlt, harg⟩ := List.getElem?_eq_some_iff.mp hget
    rw [List.drop_eq_getElem_cons hlt, harg, ← appendArgText_eq]
    exact formatLoop.eq_3 ..

/-- The pieces behind the first literal. -/
theorem formatLoop_others (chars : DoubleChars) (others : List (List UInt8))
    (args : List DecodedArg) (i : ℕ) (out : List UInt8) :
    formatLoop chars (others.flatMap fun text => 123 :: 125 :: escapeBraces text) (args.drop i) out =
      out ++ renderedFrom chars args i others := by
  induction others generalizing i out with
  | nil =>
    rw [show renderedFrom chars args i [] = [] from rfl, List.append_nil]
    exact formatLoop.eq_6 ..
  | cons text others ih =>
    have hrendered : renderedFrom chars args i (text :: others) =
        argText chars args i ++ (text ++ renderedFrom chars args (i + 1) others) := by
      unfold renderedFrom
      rw [List.zipIdx_cons, List.flatMap_cons, List.append_assoc]
    calc formatLoop chars ((text :: others).flatMap fun text => 123 :: 125 :: escapeBraces text)
          (args.drop i) out
        = formatLoop chars (escapeBraces text ++ others.flatMap fun text =>
            123 :: 125 :: escapeBraces text) (args.drop (i + 1)) (out ++ argText chars args i) := by
          rw [List.flatMap_cons]
          exact formatLoop_placeholder chars _ args i out
      _ = out ++ argText chars args i ++ text ++ renderedFrom chars args (i + 1) others := by
          rw [formatLoop_escape, ih]
      _ = out ++ renderedFrom chars args i (text :: others) := by
          rw [hrendered, List.append_assoc, List.append_assoc]

/-- **Rendering is unambiguous.** -/
theorem render_escaped (chars : DoubleChars) (first : List UInt8) (others : List (List UInt8))
    (record : DecodedRecord) (h : record.site.format = escapedFormat first others) :
    renderMessage chars record = first ++ renderedFrom chars record.args 0 others := by
  unfold renderMessage escapedFormat at *
  rw [h, formatLoop_escape]
  exact formatLoop_others chars others record.args 0 first

/-- A record whose literals are braces and whose argument is a pair of them. -/
def braceRecord : DecodedRecord where
  site := ⟨1, 0, 2, 7, escapedFormat [123] [[125]], [], []⟩
  monoNs := 0
  correlationId := 0
  ownerThread := 1
  truncated := false
  args := [.bytes [123, 125]]
  segmentGeneration := 1
  recordOffset := 32

theorem render_escaped_brace_record :
    braceRecord.site.format = [123, 123, 123, 125, 125, 125] ∧
      renderMessage ⟨fun _ => [], fun _ => []⟩ braceRecord = [123, 123, 125, 125] :=
  ⟨rfl, render_escaped _ [123] [[125]] braceRecord rfl⟩

end Sub0Log.Export
