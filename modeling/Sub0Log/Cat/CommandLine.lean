import Sub0Log.Cat.Follow
import Sub0Log.Export.Text
import Sub0Log.Library.Decimal

/-!
# The command line of sub0log-cat

`parseArguments` takes the words of a command line one after another. `Setting` is what a word,
or a word with its value, asks for, and `Spells` is the grammar: which words ask for what.

* `parseArguments_iff` — the words that are accepted are those that can be cut into spelled
  settings, and the options are the defaults with these settings applied in order, a later one
  over an earlier one. Whatever stands behind a request for help is not looked at.
* `parseArguments_reaches` — the options a command line can ask for are the `Coherent` ones, and
  each of them has a command line (`spelling`).

The induction is on the words; what it needs of one option is `withValue_iff`.
-/

open Decimal

namespace Sub0Log.Cat

open Export

/-! ### The options -/

inductive OutputFormat
  | text
  | jsonl
  deriving DecidableEq

/-- All of `Options`; what the loop over the scans reads of them is the part it extends. -/
structure Invocation extends Options where
  inputs : List (List UInt8)
  waitMs : Option UInt32
  stats : Bool
  healthJson : Bool
  helpOnly : Bool
  format : OutputFormat

/-- The initialisers of `Options`. -/
def Invocation.initial : Invocation where
  minimum := 0
  subsystems := []
  correlation := none
  argUint := none
  maxInputBytes := 128 * 1024 * 1024
  maxOutputBytes := 64 * 1024 * 1024
  maxRecords := 1000000
  maxFiles := 1024
  follow := false
  inputs := []
  waitMs := none
  stats := false
  healthJson := false
  helpOnly := false
  format := .text

/-! ### Words -/

inductive Flag
  | follow
  | healthJson
  | stats
  deriving DecidableEq

inductive Limit
  | maxFiles
  | maxInputBytes
  | maxRecords
  | maxOutputBytes
  deriving DecidableEq

/-- The options that take the next word for their value. -/
inductive Valued
  | format
  | level
  | subsystem
  | correlation
  | waitMs
  | argUint
  | limit (which : Limit)
  deriving DecidableEq

/-- What a word is taken for. -/
inductive Word
  | help
  | flag (f : Flag)
  | valued (v : Valued)
  | unknown
  | input
  deriving DecidableEq

/-- The words `parseArguments` compares an argument with, in the order of its branches. -/
def cWords : List (List UInt8 × Word) :=
  [(literal "-h", .help), (literal "--help", .help),
    (literal "-f", .flag .follow), (literal "--follow", .flag .follow),
    (literal "--health-json", .flag .healthJson), (literal "--stats", .flag .stats),
    (literal "--format", .valued .format),
    (literal "-l", .valued .level), (literal "--level", .valued .level),
    (literal "-s", .valued .subsystem), (literal "--subsystem", .valued .subsystem),
    (literal "-c", .valued .correlation), (literal "--correlation", .valued .correlation),
    (literal "--wait-ms", .valued .waitMs), (literal "--arg-uint", .valued .argUint),
    (literal "--max-files", .valued (.limit .maxFiles)),
    (literal "--max-input-bytes", .valued (.limit .maxInputBytes)),
    (literal "--max-records", .valued (.limit .maxRecords)),
    (literal "--max-output-bytes", .valued (.limit .maxOutputBytes))]

/-- Looks like an option: a dash with something behind it. -/
def dashed (argument : List UInt8) : Bool :=
  decide (argument.head? = some 45) && decide (1 < argument.length)

def wordOf (argument : List UInt8) : Word :=
  match cWords.find? fun entry => entry.1 = argument with
  | some (_, word) => word
  | none => if dashed argument then .unknown else .input

/-! ### Values -/

/-- `parseUnsigned`, for a type whose largest value is `max`. -/
def parseUnsigned (max : ℕ) (text : List UInt8) : Option ℕ :=
  if text = [] then none
  else
    match fromChars max text with
    | (some n, []) => some n
    | _ => none

/-- The table of `parseSeverity`. -/
def cSeverities : List (List UInt8 × UInt8) :=
  [(literal "trace", 0), (literal "debug", 1), (literal "info", 2), (literal "warning", 3),
    (literal "warn", 3), (literal "error", 4), (literal "unclassified", 5), (literal "fatal", 6)]

/-- `parseSeverity`. -/
def parseSeverity (name : List UInt8) : Option UInt8 :=
  (cSeverities.find? fun entry => entry.1 = name).map Prod.snd

/-- The two numbers of `--arg-uint`, around the first colon. -/
def parsePair (text : List UInt8) : Option (ℕ × ℕ) :=
  match text.dropWhile (· ≠ 58) with
  | [] => none
  | _ :: rest => do
    let index ← parseUnsigned (2 ^ 64 - 1) (text.takeWhile (· ≠ 58))
    let number ← parseUnsigned (2 ^ 64 - 1) rest
    return (index, number)

def Invocation.setLimit (o : Invocation) (n : UInt64) : Limit → Invocation
  | .maxFiles => { o with maxFiles := n }
  | .maxInputBytes => { o with maxInputBytes := n }
  | .maxRecords => { o with maxRecords := n }
  | .maxOutputBytes => { o with maxOutputBytes := n }

/-- The branch of an option that has its value: the options behind it, or what is printed on
stderr. -/
def withValue (v : Valued) (value : List UInt8) (o : Invocation) :
    Except (List UInt8) Invocation :=
  match v with
  | .format =>
    if value = literal "text" then .ok { o with format := .text }
    else if value = literal "jsonl" then .ok { o with format := .jsonl }
    else .error (literal "sub0log-cat: unknown format '" ++ value ++
      literal "' (use text or jsonl)\n")
  | .level =>
    match parseSeverity value with
    | some severity => .ok { o with minimum := severity }
    | none => .error (literal "sub0log-cat: unknown severity '" ++ value ++ literal "'\n")
  | .subsystem =>
    match parseUnsigned (2 ^ 32 - 1) value with
    | some id => .ok { o with subsystems := o.subsystems ++ [UInt32.ofNat id] }
    | none => .error (literal "sub0log-cat: invalid subsystem id\n")
  | .correlation =>
    match parseUnsigned (2 ^ 64 - 1) value with
    | some id => .ok { o with correlation := some (UInt64.ofNat id) }
    | none => .error (literal "sub0log-cat: invalid correlation id\n")
  | .waitMs =>
    match parseUnsigned (2 ^ 32 - 1) value with
    | some ms => .ok { o with waitMs := some (UInt32.ofNat ms), follow := true }
    | none => .error (literal "sub0log-cat: invalid wait duration\n")
  | .argUint =>
    match parsePair value with
    | some (index, number) => .ok { o with argUint := some (index, UInt64.ofNat number) }
    | none => .error (literal "sub0log-cat: invalid unsigned argument predicate\n")
  | .limit which =>
    match parseUnsigned (2 ^ 64 - 1) value with
    | some n =>
      if n = 0 then .error (literal "sub0log-cat: invalid resource limit\n")
      else .ok (o.setLimit (UInt64.ofNat n) which)
    | none => .error (literal "sub0log-cat: invalid resource limit\n")

/-- What is printed when an option is the last word: that its value is missing, and for some
options then what is printed of a bad value. The limits name the word itself. -/
def missingValue (v : Valued) (argument : List UInt8) : List UInt8 :=
  let needs (what : List UInt8) := literal "sub0log-cat: " ++ what ++ literal " needs a value\n"
  match v with
  | .format => needs (literal "--format")
  | .level => needs (literal "--level") ++ literal "sub0log-cat: unknown severity ''\n"
  | .subsystem => needs (literal "--subsystem")
  | .correlation => needs (literal "--correlation")
  | .waitMs => needs (literal "--wait-ms") ++ literal "sub0log-cat: invalid wait duration\n"
  | .argUint => needs (literal "--arg-uint")
  | .limit _ => needs argument ++ literal "sub0log-cat: invalid resource limit\n"

def Invocation.setFlag (o : Invocation) : Flag → Invocation
  | .follow => { o with follow := true }
  | .healthJson => { o with healthJson := true }
  | .stats => { o with stats := true }

/-- The loop of `parseArguments`. -/
def parseWords : List (List UInt8) → Invocation → Except (List UInt8) Invocation
  | [], o => .ok o
  | argument :: rest, o =>
    match wordOf argument with
    | .help => .ok { o with helpOnly := true }
    | .flag f => parseWords rest (o.setFlag f)
    | .valued v =>
      match rest with
      | [] => .error (missingValue v argument)
      | value :: rest =>
        match withValue v value o with
        | .error message => .error message
        | .ok o => parseWords rest o
    | .unknown =>
      .error (literal "sub0log-cat: unknown option '" ++ argument ++ literal "'\n")
    | .input => parseWords rest { o with inputs := o.inputs ++ [argument] }

/-- `parseArguments`, behind the program's name. -/
def parseArguments (argv : List (List UInt8)) : Except (List UInt8) Invocation :=
  match parseWords argv Invocation.initial with
  | .error message => .error message
  | .ok o =>
    -- help returns from inside the loop, before the inputs are looked at
    if o.helpOnly then .ok o
    else if o.inputs = [] then
      .error (literal "sub0log-cat: no input given (try --help)\n")
    else .ok o

/-! ### The grammar -/

/-- What a word, or a word and its value, asks for. -/
inductive Setting
  | flag (f : Flag)
  | format (f : OutputFormat)
  | level (severity : UInt8)
  | subsystem (id : UInt32)
  | correlation (id : UInt64)
  | waitMs (ms : UInt32)
  | argUint (index : ℕ) (number : UInt64)
  | limit (which : Limit) (n : UInt64)
  | input (path : List UInt8)

/-- The options with a setting. -/
def Setting.apply (o : Invocation) : Setting → Invocation
  | flag f => o.setFlag f
  | format f => { o with format := f }
  | level severity => { o with minimum := severity }
  | subsystem id => { o with subsystems := o.subsystems ++ [id] }
  | correlation id => { o with correlation := some id }
  | waitMs ms => { o with waitMs := some ms, follow := true }
  | argUint index number => { o with argUint := some (index, number) }
  | limit which n => o.setLimit n which
  | input path => { o with inputs := o.inputs ++ [path] }

/-- The values an option takes. -/
inductive SpellsValue : Setting → Valued → List UInt8 → Prop
  | text : SpellsValue (.format .text) .format (literal "text")
  | jsonl : SpellsValue (.format .jsonl) .format (literal "jsonl")
  | level {name : List UInt8} {severity : UInt8} (h : (name, severity) ∈ cSeverities) :
      SpellsValue (.level severity) .level name
  | subsystem {text : List UInt8} {id : UInt32} (h : Numeral text id.toNat) :
      SpellsValue (.subsystem id) .subsystem text
  | correlation {text : List UInt8} {id : UInt64} (h : Numeral text id.toNat) :
      SpellsValue (.correlation id) .correlation text
  | waitMs {text : List UInt8} {ms : UInt32} (h : Numeral text ms.toNat) :
      SpellsValue (.waitMs ms) .waitMs text
  | argUint {left right : List UInt8} {index : ℕ} {number : UInt64} (hleft : Numeral left index)
      (hindex : index < 2 ^ 64) (hright : Numeral right number.toNat) :
      SpellsValue (.argUint index number) .argUint (left ++ 58 :: right)
  | limit {text : List UInt8} {n : UInt64} (which : Limit) (h : Numeral text n.toNat)
      (hpos : n ≠ 0) : SpellsValue (.limit which n) (.limit which) text

/-- The words that ask for a setting. -/
inductive Spells : Setting → List (List UInt8) → Prop
  | flag {f : Flag} {argument : List UInt8} (h : (argument, Word.flag f) ∈ cWords) :
      Spells (.flag f) [argument]
  | valued {s : Setting} {v : Valued} {argument value : List UInt8}
      (h : (argument, Word.valued v) ∈ cWords) (hvalue : SpellsValue s v value) :
      Spells s [argument, value]
  | input {argument : List UInt8} (h : dashed argument = false) :
      Spells (.input argument) [argument]

/-- The options with some settings, the first one first. -/
def applyAll (o : Invocation) (settings : List Setting) : Invocation :=
  settings.foldl Setting.apply o

/-! ### Words and their meaning -/

/-- No two branches compare with the same word. -/
theorem cWords_nodup : (cWords.map Prod.fst).Nodup := by decide +kernel

/-- Every word of a branch looks like an option. -/
theorem cWords_dashed : ∀ entry ∈ cWords, dashed entry.1 = true := by decide +kernel

theorem cSeverities_nodup : (cSeverities.map Prod.fst).Nodup := by decide +kernel

/-- An entry of a table without repetitions is the one that is found. -/
theorem find_entry {α β : Type} [DecidableEq α] {table : List (α × β)}
    (hnodup : (table.map Prod.fst).Nodup) {a : α} {b : β} :
    table.find? (fun entry => entry.1 = a) = some (a, b) ↔ (a, b) ∈ table := by
  constructor
  · exact List.mem_of_find?_eq_some
  · intro hmem
    induction table with
    | nil => cases hmem
    | cons entry table ih =>
      rw [List.map_cons, List.nodup_cons] at hnodup
      rcases List.mem_cons.mp hmem with rfl | htail
      · exact List.find?_cons_of_pos (decide_eq_true rfl)
      · -- the first entry has another name
        have hne : entry.1 ≠ a := by
          rintro rfl
          exact hnodup.1 (List.mem_map.mpr ⟨_, htail, rfl⟩)
        rw [List.find?_cons_of_neg (by simpa using hne)]
        exact ih hnodup.2 htail

theorem wordOf_entry {argument : List UInt8} {word : Word} (h : (argument, word) ∈ cWords) :
    wordOf argument = word := by
  unfold wordOf
  rw [(find_entry cWords_nodup).mpr h]

/-- A word is that of a branch, or it is unknown, or an input. -/
theorem wordOf_cases (argument : List UInt8) :
    (argument, wordOf argument) ∈ cWords ∨
      (wordOf argument = .unknown ∧ dashed argument = true) ∨
      (wordOf argument = .input ∧ dashed argument = false) := by
  unfold wordOf
  cases hfind : cWords.find? fun entry => entry.1 = argument with
  | some entry =>
    obtain ⟨name, word⟩ := entry
    have hsame := List.find?_some hfind
    obtain rfl : name = argument := of_decide_eq_true hsame
    exact Or.inl (List.mem_of_find?_eq_some hfind)
  | none =>
    cases hdashed : dashed argument with
    | true => exact Or.inr (Or.inl ⟨rfl, rfl⟩)
    | false => exact Or.inr (Or.inr ⟨rfl, rfl⟩)

/-- No branch is that of an unknown word or an input. -/
theorem cWords_known : ∀ entry ∈ cWords, entry.2 ≠ .unknown ∧ entry.2 ≠ .input := by
  decide +kernel

theorem wordOf_input {argument : List UInt8} :
    wordOf argument = .input ↔ dashed argument = false := by
  rcases wordOf_cases argument with hentry | ⟨hword, hdashed⟩ | ⟨hword, hdashed⟩
  · refine iff_of_false (cWords_known _ hentry).2 fun hdashed => ?_
    rw [cWords_dashed _ hentry] at hdashed
    cases hdashed
  · rw [hword, hdashed]
    exact iff_of_false (fun h => by cases h) (fun h => by cases h)
  · exact iff_of_true hword hdashed

/-- The word of a branch, from what it is taken for. -/
theorem entry_of_wordOf {argument : List UInt8} {word : Word} (h : wordOf argument = word)
    (hunknown : word ≠ .unknown) (hinput : word ≠ .input) : (argument, word) ∈ cWords := by
  rcases wordOf_cases argument with hentry | ⟨hword, -⟩ | ⟨hword, -⟩
  · rwa [h] at hentry
  · exact absurd (h.symm.trans hword) hunknown
  · exact absurd (h.symm.trans hword) hinput

/-! ### Values and their meaning -/

theorem parseUnsigned_eq_some {max n : ℕ} {text : List UInt8} :
    parseUnsigned max text = some n ↔ Numeral text n ∧ n ≤ max := by
  rw [← fromChars_all]
  unfold parseUnsigned
  by_cases hnil : text = []
  · subst hnil
    rw [if_pos rfl]
    refine iff_of_false (fun h => by cases h) fun h => ?_
    exact (fromChars_all.mp h).1.ne_nil rfl
  · rw [if_neg hnil]
    obtain ⟨found, rest⟩ := fromChars max text
    cases found with
    | none => exact iff_of_false (fun h => by cases h) (fun h => by cases h)
    | some m =>
      cases rest with
      | nil => exact ⟨fun h => by cases h; rfl, fun h => by cases h; rfl⟩
      | cons c rest => exact iff_of_false (fun h => by cases h) (fun h => by cases h)

theorem parseSeverity_eq_some {name : List UInt8} {severity : UInt8} :
    parseSeverity name = some severity ↔ (name, severity) ∈ cSeverities := by
  unfold parseSeverity
  rw [← find_entry cSeverities_nodup, Option.map_eq_some_iff]
  constructor
  · rintro ⟨⟨found, _⟩, hfind, rfl⟩
    have hsame := List.find?_some hfind
    obtain rfl : found = name := of_decide_eq_true hsame
    exact hfind
  · exact fun hfind => ⟨_, hfind, rfl⟩

/-- A numeral has no colon in it. -/
theorem no_colon {text : List UInt8} {n : ℕ} (h : Numeral text n) :
    ∀ c ∈ text, decide (c ≠ 58) = true := by
  intro c hc
  refine decide_eq_true ?_
  rintro rfl
  exact absurd (h.digits _ hc) (by decide)

theorem parsePair_eq_some {text : List UInt8} {index number : ℕ} :
    parsePair text = some (index, number) ↔ ∃ left right, text = left ++ 58 :: right ∧
      (Numeral left index ∧ index ≤ 2 ^ 64 - 1) ∧ Numeral right number ∧ number ≤ 2 ^ 64 - 1 := by
  constructor
  · intro h
    unfold parsePair at h
    cases hdrop : text.dropWhile (· ≠ 58) with
    | nil =>
      rw [hdrop] at h
      cases h
    | cons c rest =>
      rw [hdrop] at h
      have hcolon : c = 58 := by
        have hfirst := List.head?_dropWhile_not (fun c : UInt8 => decide (c ≠ 58)) text
        rw [hdrop] at hfirst
        simpa using hfirst
      obtain ⟨i, hi, hrest⟩ := Option.bind_eq_some_iff.mp h
      obtain ⟨n, hn, hpair⟩ := Option.bind_eq_some_iff.mp hrest
      obtain ⟨rfl, rfl⟩ := Prod.mk.inj (Option.some.inj hpair)
      refine ⟨_, rest, ?_, parseUnsigned_eq_some.mp hi, parseUnsigned_eq_some.mp hn⟩
      calc text = text.takeWhile (· ≠ 58) ++ text.dropWhile (· ≠ 58) :=
            List.takeWhile_append_dropWhile.symm
        _ = text.takeWhile (· ≠ 58) ++ 58 :: rest := by rw [hdrop, hcolon]
  · rintro ⟨left, right, rfl, hleft, hright⟩
    have hplain := no_colon hleft.1
    unfold parsePair
    rw [List.dropWhile_append_of_pos hplain, List.takeWhile_append_of_pos hplain]
    have hdrop : (58 :: right).dropWhile (fun c : UInt8 => decide (c ≠ 58)) = 58 :: right := rfl
    have htake : (58 :: right).takeWhile (fun c : UInt8 => decide (c ≠ 58)) = [] := rfl
    rw [hdrop, htake, List.append_nil]
    simp only [parseUnsigned_eq_some.mpr hleft, parseUnsigned_eq_some.mpr hright]
    rfl

/-- **One option.** Its branch goes on exactly when the value is one of its spellings, and then
with what this spelling asks for. -/
theorem withValue_iff {v : Valued} {value : List UInt8} {o o' : Invocation} :
    withValue v value o = .ok o' ↔ ∃ s, SpellsValue s v value ∧ o' = s.apply o := by
  have h32 : ∀ {n : ℕ}, n ≤ 2 ^ 32 - 1 → (UInt32.ofNat n).toNat = n := by
    intro n hn
    rw [UInt32.toNat_ofNat']
    exact Nat.mod_eq_of_lt (lt_of_le_of_lt hn (by norm_num))
  have h64 : ∀ {n : ℕ}, n ≤ 2 ^ 64 - 1 → (UInt64.ofNat n).toNat = n := by
    intro n hn
    rw [UInt64.toNat_ofNat']
    exact Nat.mod_eq_of_lt (lt_of_le_of_lt hn (by norm_num))
  have hlt32 : ∀ id : UInt32, id.toNat ≤ 2 ^ 32 - 1 := fun id => Nat.le_sub_one_of_lt id.toNat_lt
  have hlt64 : ∀ id : UInt64, id.toNat ≤ 2 ^ 64 - 1 := fun id => Nat.le_sub_one_of_lt id.toNat_lt
  constructor
  · intro h
    cases v with
    | format =>
      unfold withValue at h
      by_cases htext : value = literal "text"
      · simp only [if_pos htext] at h
        subst htext
        exact ⟨.format .text, .text, (Except.ok.inj h).symm⟩
      by_cases hjsonl : value = literal "jsonl"
      · simp only [if_neg htext, if_pos hjsonl] at h
        subst hjsonl
        exact ⟨.format .jsonl, .jsonl, (Except.ok.inj h).symm⟩
      · simp only [if_neg htext, if_neg hjsonl] at h
        cases h
    | level =>
      unfold withValue at h
      cases hparse : parseSeverity value with
      | none =>
        simp only [hparse] at h
        cases h
      | some severity =>
        simp only [hparse] at h
        exact ⟨.level severity, .level (parseSeverity_eq_some.mp hparse), (Except.ok.inj h).symm⟩
    | subsystem =>
      unfold withValue at h
      cases hparse : parseUnsigned (2 ^ 32 - 1) value with
      | none =>
        simp only [hparse] at h
        cases h
      | some id =>
        simp only [hparse] at h
        obtain ⟨hnumeral, hrange⟩ := parseUnsigned_eq_some.mp hparse
        refine ⟨.subsystem (UInt32.ofNat id), .subsystem ?_, (Except.ok.inj h).symm⟩
        rwa [h32 hrange]
    | correlation =>
      unfold withValue at h
      cases hparse : parseUnsigned (2 ^ 64 - 1) value with
      | none =>
        simp only [hparse] at h
        cases h
      | some id =>
        simp only [hparse] at h
        obtain ⟨hnumeral, hrange⟩ := parseUnsigned_eq_some.mp hparse
        refine ⟨.correlation (UInt64.ofNat id), .correlation ?_, (Except.ok.inj h).symm⟩
        rwa [h64 hrange]
    | waitMs =>
      unfold withValue at h
      cases hparse : parseUnsigned (2 ^ 32 - 1) value with
      | none =>
        simp only [hparse] at h
        cases h
      | some ms =>
        simp only [hparse] at h
        obtain ⟨hnumeral, hrange⟩ := parseUnsigned_eq_some.mp hparse
        refine ⟨.waitMs (UInt32.ofNat ms), .waitMs ?_, (Except.ok.inj h).symm⟩
        rwa [h32 hrange]
    | argUint =>
      unfold withValue at h
      cases hparse : parsePair value with
      | none =>
        simp only [hparse] at h
        cases h
      | some pair =>
        obtain ⟨index, number⟩ := pair
        simp only [hparse] at h
        obtain ⟨left, right, rfl, ⟨hleft, hindex⟩, hright, hnumber⟩ := parsePair_eq_some.mp hparse
        refine ⟨.argUint index (UInt64.ofNat number), .argUint hleft ?_ ?_,
          (Except.ok.inj h).symm⟩
        · exact lt_of_le_of_lt hindex (by norm_num)
        · rwa [h64 hnumber]
    | limit which =>
      unfold withValue at h
      cases hparse : parseUnsigned (2 ^ 64 - 1) value with
      | none =>
        simp only [hparse] at h
        cases h
      | some n =>
        simp only [hparse] at h
        obtain ⟨hnumeral, hrange⟩ := parseUnsigned_eq_some.mp hparse
        by_cases hzero : n = 0
        · rw [if_pos hzero] at h
          cases h
        · rw [if_neg hzero] at h
          refine ⟨.limit which (UInt64.ofNat n), .limit which ?_ fun heq => hzero ?_,
            (Except.ok.inj h).symm⟩
          · rwa [h64 hrange]
          · rw [← h64 hrange, heq]
            rfl
  · rintro ⟨s, hspells, rfl⟩
    cases hspells with
    | text => rfl
    | jsonl =>
      unfold withValue
      rw [if_neg (by decide +kernel), if_pos rfl]
      rfl
    | level hmem =>
      simp only [withValue, parseSeverity_eq_some.mpr hmem]
      rfl
    | subsystem hnumeral =>
      simp only [withValue, parseUnsigned_eq_some.mpr ⟨hnumeral, hlt32 _⟩, UInt32.ofNat_toNat]
      rfl
    | correlation hnumeral =>
      simp only [withValue, parseUnsigned_eq_some.mpr ⟨hnumeral, hlt64 _⟩, UInt64.ofNat_toNat]
      rfl
    | waitMs hnumeral =>
      simp only [withValue, parseUnsigned_eq_some.mpr ⟨hnumeral, hlt32 _⟩, UInt32.ofNat_toNat]
      rfl
    | @argUint left right index number hleft hindex hright =>
      have hpair : parsePair (left ++ 58 :: right) = some (index, number.toNat) :=
        parsePair_eq_some.mpr ⟨left, right, rfl, ⟨hleft, Nat.le_sub_one_of_lt hindex⟩, hright,
          hlt64 number⟩
      simp only [withValue, hpair, UInt64.ofNat_toNat]
      rfl
    | @limit text n which hnumeral hpos =>
      have hne : n.toNat ≠ 0 := fun hzero => hpos (UInt64.toNat.inj hzero)
      simp only [withValue, parseUnsigned_eq_some.mpr ⟨hnumeral, hlt64 _⟩, if_neg hne,
        UInt64.ofNat_toNat]
      rfl

/-! ### Command lines -/

/-- Settings spelled one after another. -/
def SpellsAll (settings : List Setting) (words : List (List UInt8)) : Prop :=
  ∃ pieces, words = pieces.flatten ∧ List.Forall₂ Spells settings pieces

theorem SpellsAll.cons {s : Setting} {settings : List Setting} {piece words : List (List UInt8)}
    (h : Spells s piece) (hall : SpellsAll settings words) :
    SpellsAll (s :: settings) (piece ++ words) := by
  obtain ⟨pieces, rfl, hpieces⟩ := hall
  exact ⟨piece :: pieces, rfl, .cons h hpieces⟩

/-- No setting asks for help. -/
theorem Setting.apply_helpOnly (o : Invocation) (s : Setting) :
    (s.apply o).helpOnly = o.helpOnly := by
  cases s with
  | flag f => cases f <;> rfl
  | limit which n => cases which <;> rfl
  | _ => rfl

theorem applyAll_helpOnly (o : Invocation) (settings : List Setting) :
    (applyAll o settings).helpOnly = o.helpOnly := by
  induction settings generalizing o with
  | nil => rfl
  | cons s settings ih => exact (ih (s.apply o)).trans (s.apply_helpOnly o)

/-- One spelled setting is applied, and the rest is read. -/
theorem parseWords_spelled {s : Setting} {piece rest : List (List UInt8)} (h : Spells s piece)
    (o : Invocation) : parseWords (piece ++ rest) o = parseWords rest (s.apply o) := by
  cases h with
  | flag hentry =>
    rw [List.singleton_append, parseWords, wordOf_entry hentry]
    rfl
  | valued hentry hvalue =>
    rw [List.cons_append, List.singleton_append, parseWords, wordOf_entry hentry]
    simp only [withValue_iff.mpr ⟨_, hvalue, rfl⟩]
  | input hdashed =>
    rw [List.singleton_append, parseWords, wordOf_input.mpr hdashed]
    rfl

theorem parseWords_spelledAll {settings : List Setting} {words : List (List UInt8)}
    (h : SpellsAll settings words) (rest : List (List UInt8)) (o : Invocation) :
    parseWords (words ++ rest) o = parseWords rest (applyAll o settings) := by
  obtain ⟨pieces, rfl, hpieces⟩ := h
  induction hpieces generalizing o with
  | nil => rfl
  | @cons s piece settings pieces hspells hall ih =>
    rw [List.flatten_cons, List.append_assoc, parseWords_spelled hspells]
    exact ih _

/-- **What the loop accepts**: spelled settings up to the end or up to a request for help. -/
theorem parseWords_accepts {words : List (List UInt8)} {o o' : Invocation}
    (h : parseWords words o = .ok o') :
    (∃ settings, SpellsAll settings words ∧ o' = applyAll o settings) ∨
      ∃ settings spelled argument rest, words = spelled ++ argument :: rest ∧
        SpellsAll settings spelled ∧ (argument, Word.help) ∈ cWords ∧
        o' = { applyAll o settings with helpOnly := true } := by
  -- a setting in front of what the induction hypothesis says of the rest
  have hstep : ∀ {s : Setting} {piece r : List (List UInt8)} {o : Invocation}, Spells s piece →
      ((∃ settings, SpellsAll settings r ∧ o' = applyAll (s.apply o) settings) ∨
        ∃ settings spelled argument behind, r = spelled ++ argument :: behind ∧
          SpellsAll settings spelled ∧ (argument, Word.help) ∈ cWords ∧
          o' = { applyAll (s.apply o) settings with helpOnly := true }) →
      (∃ settings, SpellsAll settings (piece ++ r) ∧ o' = applyAll o settings) ∨
        ∃ settings spelled argument behind, piece ++ r = spelled ++ argument :: behind ∧
          SpellsAll settings spelled ∧ (argument, Word.help) ∈ cWords ∧
          o' = { applyAll o settings with helpOnly := true } := by
    rintro s piece r o hspells (⟨settings, hall, heq⟩ | ⟨settings, spelled, argument, behind,
      rfl, hall, hhelp, heq⟩)
    · exact Or.inl ⟨s :: settings, hall.cons hspells, heq⟩
    · exact Or.inr ⟨s :: settings, piece ++ spelled, argument, behind,
        (List.append_assoc _ _ _).symm, hall.cons hspells, hhelp, heq⟩
  induction words using List.twoStepInduction generalizing o with
  | nil => exact Or.inl ⟨[], ⟨[], rfl, .nil⟩, (Except.ok.inj h).symm⟩
  | singleton argument =>
    rw [parseWords] at h
    cases hword : wordOf argument with
    | help =>
      rw [hword] at h
      have hentry := entry_of_wordOf hword (fun h => by cases h) (fun h => by cases h)
      exact Or.inr ⟨[], [], argument, [], rfl, ⟨[], rfl, .nil⟩, hentry,
        (Except.ok.inj h).symm⟩
    | flag f =>
      rw [hword] at h
      have hentry := entry_of_wordOf hword (fun h => by cases h) (fun h => by cases h)
      exact hstep (r := []) (.flag hentry)
        (Or.inl ⟨[], ⟨[], rfl, .nil⟩, (Except.ok.inj h).symm⟩)
    | valued v =>
      -- the value is missing
      rw [hword] at h
      cases h
    | unknown =>
      rw [hword] at h
      cases h
    | input =>
      rw [hword] at h
      exact hstep (r := []) (.input (wordOf_input.mp hword))
        (Or.inl ⟨[], ⟨[], rfl, .nil⟩, (Except.ok.inj h).symm⟩)
  | cons_cons argument value rest ihrest ih =>
    rw [parseWords] at h
    cases hword : wordOf argument with
    | help =>
      rw [hword] at h
      have hentry := entry_of_wordOf hword (fun h => by cases h) (fun h => by cases h)
      exact Or.inr ⟨[], [], argument, _, rfl, ⟨[], rfl, .nil⟩, hentry, (Except.ok.inj h).symm⟩
    | flag f =>
      rw [hword] at h
      have hentry := entry_of_wordOf hword (fun h => by cases h) (fun h => by cases h)
      exact hstep (.flag hentry) (ih value h)
    | valued v =>
      rw [hword] at h
      have hentry := entry_of_wordOf hword (fun h => by cases h) (fun h => by cases h)
      cases hvalue : withValue v value o with
      | error message =>
        simp only [hvalue] at h
        cases h
      | ok o₁ =>
        simp only [hvalue] at h
        obtain ⟨s, hspells, rfl⟩ := withValue_iff.mp hvalue
        exact hstep (.valued hentry hspells) (ihrest h)
    | unknown =>
      rw [hword] at h
      cases h
    | input =>
      rw [hword] at h
      exact hstep (.input (wordOf_input.mp hword)) (ih value h)

theorem applyAll_append (o : Invocation) (settings others : List Setting) :
    applyAll o (settings ++ others) = applyAll (applyAll o settings) others :=
  List.foldl_append

/-- The path of an input. -/
def Setting.input? : Setting → Option (List UInt8)
  | input path => some path
  | _ => none

theorem applyAll_inputs (o : Invocation) (settings : List Setting) :
    (applyAll o settings).inputs = o.inputs ++ settings.filterMap Setting.input? := by
  induction settings generalizing o with
  | nil => exact (List.append_nil _).symm
  | cons s settings ih =>
    refine (ih (s.apply o)).trans ?_
    cases s with
    | input path =>
      show o.inputs ++ [path] ++ settings.filterMap Setting.input? = _
      rw [List.append_assoc]
      rfl
    | flag f => cases f <;> rfl
    | limit which n => cases which <;> rfl
    | _ => rfl

/-- Some setting names an input exactly when there is an input. -/
theorem applyAll_inputs_ne_nil (settings : List Setting) :
    (applyAll Invocation.initial settings).inputs ≠ [] ↔
      ∃ path, Setting.input path ∈ settings := by
  rw [applyAll_inputs, show Invocation.initial.inputs = [] from rfl, List.nil_append, ne_eq,
    List.filterMap_eq_nil_iff, not_forall]
  constructor
  · rintro ⟨s, hs⟩
    obtain ⟨hmem, hinput⟩ := Classical.not_imp.mp hs
    cases s with
    | input path => exact ⟨path, hmem⟩
    | _ => exact absurd rfl hinput
  · rintro ⟨path, hmem⟩
    exact ⟨.input path, Classical.not_imp.mpr ⟨hmem, fun h => by cases h⟩⟩

/-- What a command line asks for: settings with an input among them, or settings in front of a
request for help. -/
def Asks (argv : List (List UInt8)) (o : Invocation) : Prop :=
  (∃ settings, SpellsAll settings argv ∧ (∃ path, Setting.input path ∈ settings) ∧
    o = applyAll Invocation.initial settings) ∨
  ∃ settings spelled argument rest, argv = spelled ++ argument :: rest ∧
    SpellsAll settings spelled ∧ (argument, Word.help) ∈ cWords ∧
    o = { applyAll Invocation.initial settings with helpOnly := true }

theorem asks_of_parse {argv : List (List UInt8)} {o : Invocation}
    (h : parseArguments argv = .ok o) : Asks argv o := by
  unfold parseArguments at h
  cases hwords : parseWords argv Invocation.initial with
  | error message =>
    rw [hwords] at h
    cases h
  | ok o₁ =>
    simp only [hwords] at h
    rcases parseWords_accepts hwords with ⟨settings, hall, rfl⟩ | ⟨settings, spelled, argument,
      rest, rfl, hall, hhelp, rfl⟩
    · rw [applyAll_helpOnly, if_neg (by exact Bool.false_ne_true)] at h
      by_cases hinputs : (applyAll Invocation.initial settings).inputs = []
      · rw [if_pos hinputs] at h
        cases h
      · rw [if_neg hinputs] at h
        exact Or.inl ⟨settings, hall, (applyAll_inputs_ne_nil settings).mp hinputs,
          (Except.ok.inj h).symm⟩
    · rw [if_pos rfl] at h
      exact Or.inr ⟨settings, spelled, argument, rest, rfl, hall, hhelp, (Except.ok.inj h).symm⟩

theorem parse_of_asks {argv : List (List UInt8)} {o : Invocation} (h : Asks argv o) :
    parseArguments argv = .ok o := by
  unfold parseArguments
  rcases h with ⟨settings, hall, hinput, rfl⟩ | ⟨settings, spelled, argument, rest, rfl, hall,
    hhelp, rfl⟩
  · have hwords : parseWords argv Invocation.initial =
        .ok (applyAll Invocation.initial settings) := by
      have hread := parseWords_spelledAll hall [] Invocation.initial
      rwa [List.append_nil] at hread
    rw [hwords]
    simp only [applyAll_helpOnly, if_neg ((applyAll_inputs_ne_nil settings).mpr hinput)]
    rfl
  · have hwords : parseWords (spelled ++ argument :: rest) Invocation.initial =
        .ok { applyAll Invocation.initial settings with helpOnly := true } := by
      rw [parseWords_spelledAll hall, parseWords, wordOf_entry hhelp]
    rw [hwords]
    rfl

/-- **The command lines that are accepted**, and the options they ask for. -/
theorem parseArguments_iff (argv : List (List UInt8)) (o : Invocation) :
    parseArguments argv = .ok o ↔
      (∃ settings, SpellsAll settings argv ∧ (∃ path, Setting.input path ∈ settings) ∧
        o = applyAll Invocation.initial settings) ∨
      ∃ settings spelled argument rest, argv = spelled ++ argument :: rest ∧
        SpellsAll settings spelled ∧ (argument, Word.help) ∈ cWords ∧
        o = { applyAll Invocation.initial settings with helpOnly := true } :=
  ⟨asks_of_parse, parse_of_asks⟩

/-! ### Options and their command lines -/

/-- What holds of the options a command line can ask for, apart from its inputs. -/
structure Plausible (o : Invocation) : Prop where
  minimum : o.minimum.toNat ≤ 6
  waits : o.waitMs ≠ none → o.follow = true
  index : ∀ index number, o.argUint = some (index, number) → index < 2 ^ 64
  maxFiles : o.maxFiles ≠ 0
  maxInputBytes : o.maxInputBytes ≠ 0
  maxRecords : o.maxRecords ≠ 0
  maxOutputBytes : o.maxOutputBytes ≠ 0
  paths : ∀ path ∈ o.inputs, dashed path = false

/-- The options a command line can ask for. -/
structure Coherent (o : Invocation) : Prop extends Plausible o where
  inputs : o.inputs ≠ []
  helpOnly : o.helpOnly = false

theorem plausible_initial : Plausible Invocation.initial where
  minimum := by decide
  waits := fun h => absurd rfl h
  index := fun _ _ h => by cases h
  maxFiles := by decide
  maxInputBytes := by decide
  maxRecords := by decide
  maxOutputBytes := by decide
  paths := fun _ h => by cases h

theorem cSeverities_le : ∀ entry ∈ cSeverities, entry.2.toNat ≤ 6 := by decide +kernel

/-- A spelled setting keeps the options plausible. -/
theorem Plausible.apply {o : Invocation} (h : Plausible o) {s : Setting}
    {piece : List (List UInt8)} (hs : Spells s piece) : Plausible (s.apply o) := by
  cases hs with
  | @flag f _ _ =>
    cases f with
    | follow => exact { h with waits := fun _ => rfl }
    | healthJson => exact { h with }
    | stats => exact { h with }
  | input hdashed =>
    refine { h with paths := fun path hpath => ?_ }
    rcases List.mem_append.mp hpath with hold | hnew
    · exact h.paths path hold
    · rw [List.mem_singleton.mp hnew]
      exact hdashed
  | valued _ hvalue =>
    cases hvalue with
    | text => exact { h with }
    | jsonl => exact { h with }
    | level hmem => exact { h with minimum := cSeverities_le _ hmem }
    | subsystem _ => exact { h with }
    | correlation _ => exact { h with }
    | waitMs _ => exact { h with waits := fun _ => rfl }
    | argUint _ hindex _ =>
      refine { h with index := fun index number heq => ?_ }
      obtain ⟨rfl, rfl⟩ := Prod.mk.inj (Option.some.inj heq)
      exact hindex
    | limit which _ hpos =>
      cases which with
      | maxFiles => exact { h with maxFiles := hpos }
      | maxInputBytes => exact { h with maxInputBytes := hpos }
      | maxRecords => exact { h with maxRecords := hpos }
      | maxOutputBytes => exact { h with maxOutputBytes := hpos }

theorem Plausible.applyAll {o : Invocation} (h : Plausible o) {settings : List Setting}
    {words : List (List UInt8)} (hall : SpellsAll settings words) :
    Plausible (applyAll o settings) := by
  obtain ⟨pieces, -, hpieces⟩ := hall
  induction hpieces generalizing o with
  | nil => exact h
  | cons hspells _ ih => exact ih (h.apply hspells)

/-- What a command line asks for is coherent. -/
theorem coherent_of_parse {argv : List (List UInt8)} {o : Invocation}
    (h : parseArguments argv = .ok o) (hhelp : o.helpOnly = false) : Coherent o := by
  rcases asks_of_parse h with ⟨settings, hall, hinput, rfl⟩ | ⟨settings, spelled,
    argument, rest, -, -, -, rfl⟩
  · exact { plausible_initial.applyAll hall with
      inputs := (applyAll_inputs_ne_nil settings).mpr hinput
      helpOnly := hhelp }
  · cases hhelp

def flagIf (b : Bool) (f : Flag) : List Setting := if b then [.flag f] else []

/-- The settings of some options, one for each field. -/
def spelling (o : Invocation) : List Setting :=
  [.format o.format, .level o.minimum, .limit .maxFiles o.maxFiles,
    .limit .maxInputBytes o.maxInputBytes, .limit .maxRecords o.maxRecords,
    .limit .maxOutputBytes o.maxOutputBytes] ++
  (flagIf o.follow .follow ++ (flagIf o.healthJson .healthJson ++ (flagIf o.stats .stats ++
    ((o.waitMs.map Setting.waitMs).toList ++ ((o.correlation.map Setting.correlation).toList ++
      ((o.argUint.map fun a => Setting.argUint a.1 a.2).toList ++
        (o.subsystems.map Setting.subsystem ++ o.inputs.map Setting.input)))))))

/-- One way to spell a setting. -/
def Setting.words : Setting → List (List UInt8)
  | flag .follow => [literal "--follow"]
  | flag .healthJson => [literal "--health-json"]
  | flag .stats => [literal "--stats"]
  | format .text => [literal "--format", literal "text"]
  | format .jsonl => [literal "--format", literal "jsonl"]
  | level severity => [literal "--level",
      ((cSeverities.find? fun entry => entry.2 = severity).map Prod.fst).getD []]
  | subsystem id => [literal "--subsystem", written id.toNat]
  | correlation id => [literal "--correlation", written id.toNat]
  | waitMs ms => [literal "--wait-ms", written ms.toNat]
  | argUint index number => [literal "--arg-uint", written index ++ 58 :: written number.toNat]
  | limit .maxFiles n => [literal "--max-files", written n.toNat]
  | limit .maxInputBytes n => [literal "--max-input-bytes", written n.toNat]
  | limit .maxRecords n => [literal "--max-records", written n.toNat]
  | limit .maxOutputBytes n => [literal "--max-output-bytes", written n.toNat]
  | input path => [path]

/-- A command line for some options. -/
def commandLine (o : Invocation) : List (List UInt8) := ((spelling o).map Setting.words).flatten

/-- A setting some words ask for. -/
def Setting.Spellable : Setting → Prop
  | level severity => severity.toNat ≤ 6
  | argUint index _ => index < 2 ^ 64
  | limit _ n => n ≠ 0
  | input path => dashed path = false
  | _ => True

/-- Every severity up to `Fatal` has a name. -/
theorem severity_named {severity : UInt8} (h : severity.toNat ≤ 6) :
    (((cSeverities.find? fun entry => entry.2 = severity).map Prod.fst).getD [], severity) ∈
      cSeverities := by
  have hall : ∀ n : Fin 7, (((cSeverities.find? fun entry =>
      entry.2 = UInt8.ofNat n.val).map Prod.fst).getD [], UInt8.ofNat n.val) ∈ cSeverities := by
    decide +kernel
  have hone := hall ⟨severity.toNat, Nat.lt_succ_of_le h⟩
  rwa [UInt8.ofNat_toNat] at hone

theorem spells_words {s : Setting} (h : s.Spellable) : Spells s s.words := by
  have hentry : ∀ {name : List UInt8} {word : Word},
      decide ((name, word) ∈ cWords) = true → (name, word) ∈ cWords := fun h => of_decide_eq_true h
  cases s with
  | flag f => cases f <;> exact .flag (hentry (by decide +kernel))
  | format f =>
    cases f with
    | text => exact .valued (hentry (by decide +kernel)) .text
    | jsonl => exact .valued (hentry (by decide +kernel)) .jsonl
  | level severity => exact .valued (hentry (by decide +kernel)) (.level (severity_named h))
  | subsystem id => exact .valued (hentry (by decide +kernel)) (.subsystem (numeral_written _))
  | correlation id => exact .valued (hentry (by decide +kernel)) (.correlation (numeral_written _))
  | waitMs ms => exact .valued (hentry (by decide +kernel)) (.waitMs (numeral_written _))
  | argUint index number =>
    exact .valued (hentry (by decide +kernel))
      (.argUint (numeral_written _) h (numeral_written _))
  | limit which n =>
    cases which <;>
      exact .valued (hentry (by decide +kernel)) (.limit _ (numeral_written _) h)
  | input path => exact .input h

theorem spellsAll_words {settings : List Setting} (h : ∀ s ∈ settings, s.Spellable) :
    SpellsAll settings (settings.map Setting.words).flatten := by
  refine ⟨_, rfl, ?_⟩
  induction settings with
  | nil => exact .nil
  | cons s settings ih =>
    exact .cons (spells_words (h s List.mem_cons_self)) (ih fun s' hs' =>
      h s' (List.mem_cons_of_mem _ hs'))

/-- The settings of plausible options can be spelled. -/
theorem Plausible.spellable {o : Invocation} (h : Plausible o) :
    ∀ s ∈ spelling o, s.Spellable := by
  have hflag : ∀ b f, ∀ s ∈ flagIf b f, s.Spellable := by
    intro b f s hs
    cases b with
    | false => cases hs
    | true =>
      rw [List.mem_singleton.mp hs]
      trivial
  intro s hs
  unfold spelling at hs
  simp only [List.mem_append, List.mem_cons, List.not_mem_nil, or_false, Option.mem_toList,
    Option.map_eq_some_iff, List.mem_map] at hs
  rcases hs with (rfl | rfl | rfl | rfl | rfl | rfl) | hs | hs | hs | ⟨_, _, rfl⟩ |
    ⟨_, _, rfl⟩ | ⟨⟨index, number⟩, hsome, rfl⟩ | ⟨_, _, rfl⟩ | ⟨path, hpath, rfl⟩
  · trivial
  · exact h.minimum
  · exact h.maxFiles
  · exact h.maxInputBytes
  · exact h.maxRecords
  · exact h.maxOutputBytes
  · exact hflag _ _ s hs
  · exact hflag _ _ s hs
  · exact hflag _ _ s hs
  · trivial
  · trivial
  · exact h.index index number hsome
  · trivial
  · exact h.paths path hpath

theorem applyAll_subsystems (o : Invocation) (ids : List UInt32) :
    applyAll o (ids.map Setting.subsystem) = { o with subsystems := o.subsystems ++ ids } := by
  induction ids generalizing o with
  | nil =>
    rw [List.append_nil]
    rfl
  | cons id ids ih =>
    refine (ih (Setting.apply o (.subsystem id))).trans ?_
    show { o with subsystems := o.subsystems ++ [id] ++ ids } = _
    rw [List.append_assoc]
    rfl

theorem applyAll_paths (o : Invocation) (paths : List (List UInt8)) :
    applyAll o (paths.map Setting.input) = { o with inputs := o.inputs ++ paths } := by
  induction paths generalizing o with
  | nil =>
    rw [List.append_nil]
    rfl
  | cons path paths ih =>
    refine (ih (Setting.apply o (.input path))).trans ?_
    show { o with inputs := o.inputs ++ [path] ++ paths } = _
    rw [List.append_assoc]
    rfl

/-- The settings of coherent options give these options. -/
theorem Coherent.applyAll_spelling {o : Invocation} (h : Coherent o) :
    applyAll Invocation.initial (spelling o) = o := by
  have hwaits := h.waits
  have hhelp := h.helpOnly
  unfold spelling
  rw [applyAll_append, applyAll_append, applyAll_append, applyAll_append, applyAll_append,
    applyAll_append, applyAll_append, applyAll_append, applyAll_subsystems, applyAll_paths]
  obtain ⟨⟨minimum, subsystems, correlation, argUint, maxInputBytes, maxOutputBytes, maxRecords,
    maxFiles, follow⟩, inputs, waitMs, stats, healthJson, helpOnly, format⟩ := o
  obtain rfl : helpOnly = false := hhelp
  -- one field after another; those that are not there are what they were
  cases waitMs with
  | none => cases follow <;> cases healthJson <;> cases stats <;> cases correlation <;>
      cases argUint <;> rfl
  | some ms =>
    obtain rfl : follow = true := hwaits fun hnone => by cases hnone
    cases healthJson <;> cases stats <;> cases correlation <;> cases argUint <;> rfl

/-- **The options a command line can ask for** are the coherent ones, and each of them is what
its own command line asks for. -/
theorem parseArguments_reaches (o : Invocation) :
    List.TFAE [Coherent o, parseArguments (commandLine o) = .ok o ∧ o.helpOnly = false,
      ∃ argv, parseArguments argv = .ok o ∧ o.helpOnly = false] := by
  tfae_have 1 → 2 := by
    intro h
    refine ⟨parse_of_asks (Or.inl ⟨spelling o, ?_, ?_, ?_⟩), h.helpOnly⟩
    · exact spellsAll_words h.spellable
    · rw [← applyAll_inputs_ne_nil, h.applyAll_spelling]
      exact h.inputs
    · exact h.applyAll_spelling.symm
  tfae_have 2 → 3 := fun h => ⟨_, h⟩
  tfae_have 3 → 1 := fun ⟨_, h, hhelp⟩ => coherent_of_parse h hhelp
  tfae_finish

end Sub0Log.Cat
