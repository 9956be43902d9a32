import Mathlib

/-!
# Quoting a Windows command line

`CreateProcessW` takes one string, and the child splits it again. The two functions of
`child.hpp` that build the string, and the documented splitting rules as `child.test.cpp`
writes them out.

**`split_build`**: splitting the string gives the arguments back. Both halves of the proof carry
a run of backslashes in front of what is left of an argument: what such a run stands for is not
known before the byte behind it.
-/

namespace Sub0Log.Child

/-- The bytes the rules speak of: `'\\'`, `'"'`, `' '` and `'\t'`. -/
def cBackslash : UInt8 := 0x5c
def cQuote : UInt8 := 0x22
def cSpace : UInt8 := 0x20
def cTab : UInt8 := 0x09

/-! ### Building -/

/-- What the loop over an argument carries. -/
structure QuoteState where
  out : List UInt8
  backslashes : ℕ

/-- One byte of an argument. -/
def quoteStep (s : QuoteState) (c : UInt8) : QuoteState :=
  if c = cBackslash then { s with backslashes := s.backslashes + 1 }
  else if c = cQuote then
    ⟨s.out ++ List.replicate (s.backslashes * 2 + 1) cBackslash ++ [cQuote], 0⟩
  else ⟨s.out ++ List.replicate s.backslashes cBackslash ++ [c], 0⟩

/-- `arg.find_first_of(" \t\"") == npos`. -/
def plain (arg : List UInt8) : Bool :=
  arg.all fun c => decide (c ≠ cSpace ∧ c ≠ cTab ∧ c ≠ cQuote)

theorem plain_cons {c : UInt8} {arg : List UInt8} (h : plain (c :: arg) = true) :
    (c ≠ cSpace ∧ c ≠ cTab ∧ c ≠ cQuote) ∧ plain arg = true := by
  unfold plain at h
  rw [List.all_cons, Bool.and_eq_true] at h
  exact ⟨of_decide_eq_true h.1, h.2⟩

/-- `quoteWindowsCommandLineArgument`. -/
def quoteWindowsCommandLineArgument (arg : List UInt8) : List UInt8 :=
  if arg ≠ [] ∧ plain arg = true then arg
  else
    let s := arg.foldl quoteStep ⟨[cQuote], 0⟩
    s.out ++ List.replicate (s.backslashes * 2) cBackslash ++ [cQuote]

/-- `buildWindowsCommandLine`. -/
def buildWindowsCommandLine : List (List UInt8) → List UInt8
  | [] => []
  | arg :: argv =>
    quoteWindowsCommandLineArgument arg ++
      argv.flatMap fun arg => cSpace :: quoteWindowsCommandLineArgument arg

/-! ### Splitting -/

/-- What the splitting loop carries. -/
structure SplitState where
  args : List (List UInt8)
  current : List UInt8
  inQuotes : Bool
  haveArg : Bool

/-- One iteration of `splitWindowsCommandLineForTest` at the byte `c`: the state after it and
what is left of the string. -/
def splitStep (s : SplitState) (c : UInt8) (rest : List UInt8) : SplitState × List UInt8 :=
  if s.inQuotes = false ∧ (c = cSpace ∨ c = cTab) then
    if s.haveArg then ⟨⟨s.args ++ [s.current], [], s.inQuotes, false⟩, rest⟩ else ⟨s, rest⟩
  else if c = cBackslash then
    -- the inner loop: the whole run, `c` its first
    let backslashes := (rest.takeWhile (· == cBackslash)).length + 1
    match rest.dropWhile (· == cBackslash) with
    | [] => ⟨⟨s.args, s.current ++ List.replicate backslashes cBackslash, s.inQuotes, true⟩, []⟩
    | d :: rest =>
      if d = cQuote then
        let current := s.current ++ List.replicate (backslashes / 2) cBackslash
        if backslashes % 2 = 1 then ⟨⟨s.args, current ++ [cQuote], s.inQuotes, true⟩, rest⟩
        else ⟨⟨s.args, current, !s.inQuotes, true⟩, rest⟩
      else
        ⟨⟨s.args, s.current ++ List.replicate backslashes cBackslash, s.inQuotes, true⟩, d :: rest⟩
  else if c = cQuote then ⟨⟨s.args, s.current, !s.inQuotes, true⟩, rest⟩
  else ⟨⟨s.args, s.current ++ [c], s.inQuotes, true⟩, rest⟩

/-- The loop and what follows it; every iteration takes a byte. -/
def splitLoop : (fuel : ℕ) → SplitState → List UInt8 → List (List UInt8)
  | _, s, [] => if s.haveArg then s.args ++ [s.current] else s.args
  | 0, s, _ :: _ => s.args
  | fuel + 1, s, c :: rest => splitLoop fuel (splitStep s c rest).1 (splitStep s c rest).2

/-- `splitWindowsCommandLineForTest`. -/
def splitWindowsCommandLineForTest (commandLine : List UInt8) : List (List UInt8) :=
  splitLoop commandLine.length ⟨[], [], false, false⟩ commandLine

/-! ### What an argument is quoted to -/

/-- The rest of a quoted argument when `n` backslashes are pending. -/
def quotedFrom : (n : ℕ) → List UInt8 → List UInt8
  | n, [] => List.replicate (n * 2) cBackslash ++ [cQuote]
  | n, c :: arg =>
    if c = cBackslash then quotedFrom (n + 1) arg
    else if c = cQuote then
      List.replicate (n * 2 + 1) cBackslash ++ cQuote :: quotedFrom 0 arg
    else List.replicate n cBackslash ++ c :: quotedFrom 0 arg

theorem foldl_quoteStep (arg out : List UInt8) (n : ℕ) :
    (arg.foldl quoteStep ⟨out, n⟩).out ++
        List.replicate ((arg.foldl quoteStep ⟨out, n⟩).backslashes * 2) cBackslash ++ [cQuote] =
      out ++ quotedFrom n arg := by
  induction arg generalizing out n with
  | nil => rw [List.append_assoc]; rfl
  | cons c arg ih =>
    rw [List.foldl_cons, quoteStep, quotedFrom]
    split
    · exact ih out (n + 1)
    split
    · rw [ih]
      simp only [List.append_assoc, List.singleton_append]
    · rw [ih]
      simp only [List.append_assoc, List.singleton_append]

theorem quote_of_not_plain {arg : List UInt8} (h : ¬ (arg ≠ [] ∧ plain arg = true)) :
    quoteWindowsCommandLineArgument arg = cQuote :: quotedFrom 0 arg := by
  unfold quoteWindowsCommandLineArgument
  rw [if_neg h]
  exact foldl_quoteStep arg [cQuote] 0

/-! ### What the loop does, whatever its bound -/

/-- From `s` on, what is left splits to `args`. -/
def Splits (s : SplitState) (rest : List UInt8) (args : List (List UInt8)) : Prop :=
  ∀ fuel, rest.length ≤ fuel → splitLoop fuel s rest = args

theorem Splits.done (s : SplitState) :
    Splits s [] (if s.haveArg then s.args ++ [s.current] else s.args) := by
  intro fuel _
  cases fuel <;> rfl

/-- An iteration first. -/
theorem Splits.step {s s' : SplitState} {c : UInt8} {rest rest' : List UInt8}
    {args : List (List UInt8)} (hstep : splitStep s c rest = ⟨s', rest'⟩)
    (hle : rest'.length ≤ rest.length) (h : Splits s' rest' args) : Splits s (c :: rest) args := by
  intro fuel hfuel
  rw [List.length_cons] at hfuel
  obtain ⟨fuel, rfl⟩ := Nat.exists_eq_add_of_le' (Nat.le_trans (Nat.le_add_left 1 _) hfuel)
  rw [splitLoop, hstep]
  exact h fuel (by omega)

theorem takeWhile_run (n : ℕ) {rest : List UInt8} (h : rest.head? ≠ some cBackslash) :
    ((List.replicate n cBackslash ++ rest).takeWhile (· == cBackslash)).length = n ∧
      (List.replicate n cBackslash ++ rest).dropWhile (· == cBackslash) = rest := by
  induction n with
  | zero =>
    cases rest with
    | nil => exact ⟨rfl, rfl⟩
    | cons d rest =>
      have hd : (d == cBackslash) = false := by
        rw [beq_eq_false_iff_ne]
        exact fun heq => h (congrArg some heq)
      constructor
      · show ((d :: rest).takeWhile (· == cBackslash)).length = 0
        rw [List.takeWhile_cons, hd]
        rfl
      · show (d :: rest).dropWhile (· == cBackslash) = d :: rest
        rw [List.dropWhile_cons, hd]
        rfl
  | succ n ih =>
    rw [List.replicate_succ, List.cons_append, List.takeWhile_cons, List.dropWhile_cons,
      beq_self_eq_true, if_pos rfl, if_pos rfl, List.length_cons, ih.1]
    exact ⟨rfl, ih.2⟩

/-- A run of backslashes in front of a quote, `n` of them and one more. -/
theorem splitStep_run_quote (s : SplitState) (n : ℕ) (rest : List UInt8) :
    splitStep s cBackslash (List.replicate n cBackslash ++ cQuote :: rest) =
      if (n + 1) % 2 = 1 then
        ⟨⟨s.args, s.current ++ List.replicate ((n + 1) / 2) cBackslash ++ [cQuote], s.inQuotes, true⟩,
          rest⟩
      else
        ⟨⟨s.args, s.current ++ List.replicate ((n + 1) / 2) cBackslash, !s.inQuotes, true⟩, rest⟩ := by
  have hhead : (cQuote :: rest).head? ≠ some cBackslash :=
    show some cQuote ≠ some cBackslash by decide
  obtain ⟨htake, hdrop⟩ := takeWhile_run n hhead
  have hblank : ¬ (s.inQuotes = false ∧ (cBackslash = cSpace ∨ cBackslash = cTab)) := by
    rintro ⟨-, h⟩
    exact absurd h (by decide)
  unfold splitStep
  rw [if_neg hblank, if_pos rfl, hdrop, htake]
  rfl

/-- An even run: half of it is literal, and the quote toggles. -/
theorem splitStep_even (s : SplitState) (n : ℕ) (rest : List UInt8) :
    splitStep s cBackslash (List.replicate (n * 2 + 1) cBackslash ++ cQuote :: rest) =
      ⟨⟨s.args, s.current ++ List.replicate (n + 1) cBackslash, !s.inQuotes, true⟩, rest⟩ := by
  rw [splitStep_run_quote, if_neg (by omega), show (n * 2 + 1 + 1) / 2 = n + 1 by omega]

/-- An odd run: half of it is literal, and so is the quote. -/
theorem splitStep_odd (s : SplitState) (n : ℕ) (rest : List UInt8) :
    splitStep s cBackslash (List.replicate (n * 2) cBackslash ++ cQuote :: rest) =
      ⟨⟨s.args, s.current ++ List.replicate n cBackslash ++ [cQuote], s.inQuotes, true⟩, rest⟩ := by
  rw [splitStep_run_quote, if_pos (by omega), show (n * 2 + 1) / 2 = n by omega]

/-- A run in front of anything else, or of nothing. -/
theorem splitStep_run_other (s : SplitState) (n : ℕ) {rest : List UInt8}
    (hbackslash : rest.head? ≠ some cBackslash) (hquote : rest.head? ≠ some cQuote) :
    splitStep s cBackslash (List.replicate n cBackslash ++ rest) =
      ⟨⟨s.args, s.current ++ List.replicate (n + 1) cBackslash, s.inQuotes, true⟩, rest⟩ := by
  obtain ⟨htake, hdrop⟩ := takeWhile_run n hbackslash
  have hblank : ¬ (s.inQuotes = false ∧ (cBackslash = cSpace ∨ cBackslash = cTab)) := by
    rintro ⟨-, h⟩
    exact absurd h (by decide)
  unfold splitStep
  rw [if_neg hblank, if_pos rfl, hdrop, htake]
  cases rest with
  | nil => rfl
  | cons d rest => exact if_neg fun heq => hquote (congrArg some heq)

/-- Pending backslashes that no quote follows are literal. -/
theorem Splits.literal_run {s : SplitState} (hhave : s.haveArg = true) (n : ℕ) {rest : List UInt8}
    {args : List (List UInt8)} (hbackslash : rest.head? ≠ some cBackslash)
    (hquote : rest.head? ≠ some cQuote)
    (h : Splits ⟨s.args, s.current ++ List.replicate n cBackslash, s.inQuotes, true⟩ rest args) :
    Splits s (List.replicate n cBackslash ++ rest) args := by
  cases n with
  | zero =>
    obtain ⟨_, _, _, _⟩ := s
    obtain rfl : _ = true := hhave
    rwa [List.replicate_zero, List.append_nil] at h
  | succ n =>
    rw [List.replicate_succ, List.cons_append]
    refine Splits.step (splitStep_run_other s n hbackslash hquote) ?_ h
    rw [List.length_append]
    exact Nat.le_add_left _ _

/-- A byte that is neither a backslash nor a quote, nor a blank outside quotes. -/
theorem Splits.literal {s : SplitState} {c : UInt8} {rest : List UInt8} {args : List (List UInt8)}
    (hblank : ¬ (s.inQuotes = false ∧ (c = cSpace ∨ c = cTab))) (hbackslash : c ≠ cBackslash)
    (hquote : c ≠ cQuote)
    (h : Splits ⟨s.args, s.current ++ [c], s.inQuotes, true⟩ rest args) :
    Splits s (c :: rest) args := by
  refine Splits.step ?_ (Nat.le_refl _) h
  unfold splitStep
  rw [if_neg hblank, if_neg hbackslash, if_neg hquote]

/-! ### Arguments -/

/-- **A quoted argument**: inside quotes, `n` backslashes pending, the rest of it is read as itself
and the quotes are closed. -/
theorem splits_quoted (arg : List UInt8) (n : ℕ) (args : List (List UInt8)) (current tail : List UInt8)
    {result : List (List UInt8)}
    (h : Splits ⟨args, current ++ List.replicate n cBackslash ++ arg, false, true⟩ tail result) :
    Splits ⟨args, current, true, true⟩ (quotedFrom n arg ++ tail) result := by
  induction arg generalizing n current with
  | nil =>
    rw [List.append_nil] at h
    show Splits _ ((List.replicate (n * 2) cBackslash ++ [cQuote]) ++ tail) result
    rw [List.append_assoc]
    cases n with
    | zero =>
      rw [List.replicate_zero, List.append_nil] at h
      exact Splits.step rfl (Nat.le_refl _) h
    | succ n =>
      -- an even run in front of the closing quote: half of it is literal
      rw [show (n + 1) * 2 = (n * 2 + 1) + 1 by omega, List.replicate_succ, List.cons_append]
      refine Splits.step (splitStep_even _ n tail) ?_ h
      rw [List.length_append]
      show tail.length ≤ _ + (tail.length + 1)
      omega
  | cons c arg ih =>
    rw [quotedFrom]
    split
    next hc =>
      subst hc
      refine ih (n + 1) current ?_
      rw [List.replicate_succ', ← List.append_assoc, List.append_assoc _ [cBackslash]]
      exact h
    split
    next _ hc =>
      -- an odd run in front of a quote of the argument
      have hnext := ih 0 (current ++ List.replicate n cBackslash ++ [cQuote]) (by
        rw [List.replicate_zero, List.append_nil, List.append_assoc _ [cQuote], ← hc]
        exact h)
      rw [List.append_assoc, List.replicate_succ, List.cons_append, List.cons_append]
      generalize quotedFrom 0 arg ++ tail = left at hnext ⊢
      refine Splits.step (splitStep_odd _ n left) ?_ hnext
      rw [List.length_append]
      show left.length ≤ _ + (left.length + 1)
      omega
    next hbackslash hquote =>
      have hnext := ih 0 (current ++ List.replicate n cBackslash ++ [c]) (by
        rw [List.replicate_zero, List.append_nil, List.append_assoc _ [c]]
        exact h)
      rw [List.append_assoc, List.cons_append]
      refine Splits.literal_run rfl n ?_ ?_ (Splits.literal ?_ hbackslash hquote hnext)
      · exact fun heq => hbackslash (Option.some.inj heq)
      · exact fun heq => hquote (Option.some.inj heq)
      · rintro ⟨h, -⟩
        cases h

/-- What may stand behind an argument: nothing, or a space. -/
def Ends (tail : List UInt8) : Prop := tail = [] ∨ ∃ rest, tail = cSpace :: rest

theorem Ends.head {tail : List UInt8} (h : Ends tail) :
    tail.head? ≠ some cBackslash ∧ tail.head? ≠ some cQuote := by
  obtain rfl | ⟨rest, rfl⟩ := h
  · exact ⟨by decide, by decide⟩
  · exact ⟨fun heq => absurd (Option.some.inj heq) (by decide),
      fun heq => absurd (Option.some.inj heq) (by decide)⟩

/-- **A plain argument**, `n` backslashes in front of what is left of it. -/
theorem splits_plain (arg : List UInt8) (hplain : plain arg = true) (n : ℕ)
    (args : List (List UInt8)) (current : List UInt8) {tail : List UInt8} (hends : Ends tail)
    {result : List (List UInt8)}
    (h : Splits ⟨args, current ++ List.replicate n cBackslash ++ arg, false, true⟩ tail result) :
    Splits ⟨args, current, false, true⟩ (List.replicate n cBackslash ++ (arg ++ tail)) result := by
  induction arg generalizing n current with
  | nil =>
    rw [List.append_nil] at h
    exact Splits.literal_run rfl n hends.head.1 hends.head.2 h
  | cons c arg ih =>
    obtain ⟨⟨hspace, htab, hquote⟩, harg⟩ := plain_cons hplain
    by_cases hbackslash : c = cBackslash
    · subst hbackslash
      have hnext := ih harg (n + 1) current (by
        rw [List.replicate_succ', ← List.append_assoc, List.append_assoc _ [cBackslash]]
        exact h)
      rwa [List.replicate_succ', List.append_assoc] at hnext
    · have hnext := ih harg 0 (current ++ List.replicate n cBackslash ++ [c]) (by
        rw [List.replicate_zero, List.append_nil, List.append_assoc _ [c]]
        exact h)
      refine Splits.literal_run rfl n ?_ ?_ (Splits.literal ?_ hbackslash hquote hnext)
      · exact fun heq => hbackslash (Option.some.inj heq)
      · exact fun heq => hquote (Option.some.inj heq)
      · rintro ⟨-, h | h⟩
        · exact hspace h
        · exact htab h

/-- The first byte of a plain argument makes it one: what is read of it does not depend on whether
an argument was begun. -/
theorem Splits.begin {args : List (List UInt8)} {c : UInt8} {rest : List UInt8}
    {result : List (List UInt8)} (hc : c ≠ cSpace ∧ c ≠ cTab)
    (h : Splits ⟨args, [], false, true⟩ (c :: rest) result) :
    Splits ⟨args, [], false, false⟩ (c :: rest) result := by
  have hblank : ¬ (false = false ∧ (c = cSpace ∨ c = cTab)) := by
    rintro ⟨-, h | h⟩
    · exact hc.1 h
    · exact hc.2 h
  have hstep : splitStep ⟨args, [], false, false⟩ c rest = splitStep ⟨args, [], false, true⟩ c rest := by
    unfold splitStep
    rw [if_neg hblank, if_neg hblank]
  intro fuel hfuel
  have hrun := h fuel hfuel
  cases fuel with
  | zero => exact absurd hfuel (by simp)
  | succ fuel =>
    rw [splitLoop, hstep]
    exact hrun

/-- **One argument of a command line.** -/
theorem splits_argument (arg : List UInt8) (args : List (List UInt8)) {tail : List UInt8}
    (hends : Ends tail) {result : List (List UInt8)}
    (h : Splits ⟨args, arg, false, true⟩ tail result) :
    Splits ⟨args, [], false, false⟩ (quoteWindowsCommandLineArgument arg ++ tail) result := by
  by_cases hplain : arg ≠ [] ∧ plain arg = true
  · unfold quoteWindowsCommandLineArgument
    rw [if_pos hplain]
    have hread := splits_plain arg hplain.2 0 args [] hends h
    rw [List.replicate_zero, List.nil_append] at hread
    cases arg with
    | nil => exact absurd rfl hplain.1
    | cons c arg =>
      obtain ⟨⟨hspace, htab, -⟩, -⟩ := plain_cons hplain.2
      exact Splits.begin ⟨hspace, htab⟩ hread
  · rw [quote_of_not_plain hplain, List.cons_append]
    refine Splits.step rfl (Nat.le_refl _) (splits_quoted arg 0 args [] tail ?_)
    exact h

/-- The arguments behind the first. -/
theorem splits_rest (argv : List (List UInt8)) (args : List (List UInt8)) (current : List UInt8) :
    Splits ⟨args, current, false, true⟩
      (argv.flatMap fun arg => cSpace :: quoteWindowsCommandLineArgument arg)
      (args ++ current :: argv) := by
  induction argv generalizing args current with
  | nil => exact Splits.done ⟨args, current, false, true⟩
  | cons arg argv ih =>
    have hends : Ends (argv.flatMap fun arg => cSpace :: quoteWindowsCommandLineArgument arg) := by
      cases argv with
      | nil => exact Or.inl rfl
      | cons next argv => exact Or.inr ⟨_, List.flatMap_cons⟩
    have hrest := ih (args ++ [current]) arg
    rw [List.append_assoc] at hrest
    rw [List.flatMap_cons, List.cons_append]
    exact Splits.step rfl (Nat.le_refl _) (splits_argument arg (args ++ [current]) hends hrest)

/-- **Quoting round trip.** Splitting the built command line gives the arguments back, whatever
bytes they have. -/
theorem split_build (argv : List (List UInt8)) :
    splitWindowsCommandLineForTest (buildWindowsCommandLine argv) = argv := by
  cases argv with
  | nil => rfl
  | cons arg argv =>
    have hends : Ends (argv.flatMap fun arg => cSpace :: quoteWindowsCommandLineArgument arg) := by
      cases argv with
      | nil => exact Or.inl rfl
      | cons next argv => exact Or.inr ⟨_, List.flatMap_cons⟩
    exact splits_argument arg [] hends (splits_rest argv [] arg) _ (Nat.le_refl _)

end Sub0Log.Child
