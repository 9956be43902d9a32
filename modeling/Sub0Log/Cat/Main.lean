import Sub0Log.Cat.CommandLine
import Sub0Log.Export.RoundTrip

/-!
# The finite wait, the exit status and the health object of sub0log-cat

`main` and all of `run`: the loop over the scans with the branches of `--wait-ms`, and what the
process leaves behind. The clock is an input: what it shows before each record and behind the
last record of a scan belongs to the scan, in nanoseconds since the loop began, and no reading is
related to another.

* `wait_first` — a wait prints one line at most, that of the first wanted record among the first
  occurrences of all the records met; it ends well only with that line, and at its deadline only
  without one, when every scan was read whole and the clock had come that far.
* `exit_status` — what the exit status tells.
* `health_agrees` — the health object, as a JSON reader takes it, tells the lines printed and the
  counts of the last scan that was completed.

Without `--wait-ms` the loop is the one of `follow_once` (`run_without_wait`).
-/

open Checked FirstSeen Decimal Utf8

namespace Sub0Log.Cat

open Reader Export

/-! ### The loop -/

/-- Why the loop ends. -/
inductive Ending
  | stop (why : Stop)
  | deadline
  deriving DecidableEq

/-- What a scan meets, with what the clock shows before its `j`-th record and behind its last. -/
structure TimedScan extends Scan where
  clock : ℕ → ℕ
  clockAfter : ℕ

namespace Invocation

/-- The deadline, in nanoseconds since the loop began. -/
def deadline (o : Invocation) : ℕ := (o.waitMs.getD 0).toNat * 1000000

/-- The check in front of a record, which `--wait-ms 0` passes by. -/
def lateAmong (o : Invocation) (now : ℕ) : Bool :=
  decide (o.waitMs.isSome ∧ o.waitMs ≠ some 0 ∧ o.deadline ≤ now)

/-- The check behind a scan. -/
def lateAfter (o : Invocation) (now : ℕ) : Bool := decide (o.waitMs.isSome ∧ o.deadline ≤ now)

variable (o : Invocation) (c : Console) (s : TimedScan)

/-- The `j`-th record of scan `i`. -/
def printRecord (names : UInt32 → List UInt8) (i j : ℕ) (entry : MergedRecord) (r : Run) :
    Checked (Run × Option Ending) :=
  -- a signal is looked at before the clock
  if s.cancelled (j + 1) = none ∧ o.lateAmong (s.clock j) then return (r, some .deadline)
  else do
    let (r, stop) ← Cat.printRecord o.toOptions c s.toScan names i j entry r
    return (r, stop.map .stop)

/-- The records of a scan, up to the one that is printed when the loop waits for one. -/
def printAll (names : UInt32 → List UInt8) (i : ℕ) : ℕ → List MergedRecord → Run →
    Checked (Run × Option Ending)
  | _, [], r => return (r, none)
  | j, entry :: entries, r => do
    let (r', ending) ← o.printRecord c s names i j entry r
    match ending with
    | some ending => return (r', some ending)
    | none =>
      if o.waitMs.isSome ∧ r.emitted < r'.emitted then return (r', none)
      else printAll names i (j + 1) entries r'

/-- One iteration of the loop. -/
def scanOnce (r : Run) : Checked (Run × Option Ending) :=
  match s.cancelled 0 with
  | some signal => return (r, some (.stop (.cancelled signal)))
  | none => do
    let (l, stop) ← load o.toOptions s.toScan
    let r := { r with
      anySegmentOpened := r.anySegmentOpened || l.anySegmentOpened
      bytesRead := r.bytesRead ++ [l.bytesRead] }
    match stop with
    | some stop => return (r, some (.stop stop))
    | none =>
      let merged := l.merger.merged.1
      let totals := l.merger.totals
      if o.maxRecords.toNat < merged.length then
        return (r, some (.stop .budget))
      let i := r.scans
      let r := { r with
        scans := i + 1
        records := merged.length
        totals := totals
        inputErrorSeen := r.inputErrorSeen || l.scanError }
      if o.waitMs.isSome ∧
          (l.scanError ∨ totals.unreadableBytes ≠ 0 ∨ totals.undecodableRecords ≠ 0) then
        return (r, some (.stop .failed))
      let (r', ending) ← o.printAll c s l.merger.subsystemName i 0 merged r
      match ending with
      | some ending => return (r', some ending)
      | none =>
        if s.flushed = false then return (r', some (.stop .failed))
        else if o.follow = false ∨ o.waitMs.isSome ∧ r.emitted < r'.emitted then
          return (r', some (.stop .finished))
        else if o.lateAfter s.clockAfter then return (r', some .deadline)
        else return (r', none)

/-- The loop over the scans it comes to make. -/
def run : List TimedScan → Run → Checked (Run × Option Ending)
  | [], r => return (r, none)
  | s :: scans, r => do
    let (r, ending) ← o.scanOnce c s r
    match ending with
    | some ending => return (r, some ending)
    | none => run scans r

/-- What `run` returns at the end of its loop; `flushed` tells whether the output can be flushed
once more. -/
def exitStatus (flushed : Bool) (r : Run) : Ending → ℕ
  | .stop .finished =>
    if r.anySegmentOpened = false then 1
    else if o.format = .jsonl ∧ flushed = false then 1
    else 0
  | .stop .failed => 1
  | .stop .budget => 4
  | .stop (.cancelled signal) => 128 + signal
  | .deadline => 3

end Invocation

/-! ### The process -/

/-- The health object on stderr. -/
def healthJson (status : ℕ) (r : Run) : List UInt8 :=
  let count (value : ℕ) : List UInt8 :=
    if r.scans = 0 then literal "null"
    else literal "\x22" ++ written value ++ literal "\x22"
  literal "\x7b\x22schema\x22:1,\x22kind\x22:\x22health\x22,\x22exit_code\x22:" ++
    written status ++ literal ",\x22scans\x22:\x22" ++ written r.scans ++
    literal "\x22,\x22records\x22:" ++ count r.records ++
    literal ",\x22unreadable_bytes\x22:" ++ count r.totals.unreadableBytes.toNat ++
    literal ",\x22unwritten_bytes\x22:" ++ count r.totals.unwrittenBytes.toNat ++
    literal ",\x22undecodable_records\x22:" ++ count r.totals.undecodableRecords.toNat ++
    literal ",\x22skipped_records\x22:" ++ count r.totals.skippedRecords.toNat ++
    literal ",\x22emitted_records\x22:\x22" ++ written r.emitted ++
    literal "\x22,\x22input_error_seen\x22:" ++
    (if r.inputErrorSeen then literal "true" else literal "false") ++
    literal ",\x22producer_dropped_records\x22:null\x7d\n"

/-- A process that has ended: its exit status, its lines and its health object. -/
structure Exit where
  status : ℕ
  lines : List Line
  health : Option (List UInt8)

/-- `main`, with the scans that its loop comes to make; none while the loop goes on. -/
def main (argv : List (List UInt8)) (c : OutputFormat → Console) (scans : List TimedScan)
    (flushed : Bool) : Checked (Option Exit) :=
  match parseArguments argv with
  | .error _ => return some ⟨2, [], none⟩
  | .ok o =>
    if o.helpOnly then return some ⟨0, [], none⟩
    else do
      let (r, ending) ← o.run (c o.format) scans Run.start
      match ending with
      | none => return none
      | some ending =>
        let status := o.exitStatus flushed r ending
        return some ⟨status, r.lines, if o.healthJson then some (healthJson status r) else none⟩

/-! ### Without a wait -/

section NoWait

variable {o : Invocation} {c : Console} {s : TimedScan}

/-- A result of the loop of `follow_once`. -/
def stopped (x : Run × Option Stop) : Run × Option Ending := (x.1, x.2.map .stop)

theorem lateAmong_without_wait (hwait : o.waitMs = none) (now : ℕ) : o.lateAmong now = false := by
  unfold Invocation.lateAmong
  rw [hwait]
  rfl

theorem printRecord_of_not_late {names : UInt32 → List UInt8} {i j : ℕ} {entry : MergedRecord}
    {r : Run} (hlate : ¬(s.cancelled (j + 1) = none ∧ o.lateAmong (s.clock j) = true)) :
    o.printRecord c s names i j entry r =
      (Cat.printRecord o.toOptions c s.toScan names i j entry r).map stopped := by
  unfold Invocation.printRecord
  rw [if_neg hlate]
  rfl

theorem printAll_without_wait (hwait : o.waitMs = none) (names : UInt32 → List UInt8) (i j : ℕ)
    (entries : List MergedRecord) (r : Run) :
    o.printAll c s names i j entries r =
      (Cat.printAll o.toOptions c s.toScan names i j entries r).map stopped := by
  induction entries generalizing j r with
  | nil => rfl
  | cons entry entries ih =>
    have hlate : ¬(s.cancelled (j + 1) = none ∧ o.lateAmong (s.clock j) = true) := by
      rw [lateAmong_without_wait hwait]
      exact fun h => Bool.false_ne_true h.2
    unfold Invocation.printAll Cat.printAll
    rw [printRecord_of_not_late hlate]
    cases hrecord : Cat.printRecord o.toOptions c s.toScan names i j entry r with
    | error e => rfl
    | ok x =>
      obtain ⟨r', stop⟩ := x
      cases stop with
      | some stop => rfl
      | none =>
        show (if o.waitMs.isSome = true ∧ r.emitted < r'.emitted then _ else _) = _
        rw [if_neg (by rw [hwait]; exact fun h => Bool.false_ne_true h.1)]
        exact ih (j + 1) r'

theorem scanOnce_without_wait (hwait : o.waitMs = none) (r : Run) :
    o.scanOnce c s r = (Cat.scanOnce o.toOptions c s.toScan r).map stopped := by
  have hsome : ¬o.waitMs.isSome = true := by
    rw [hwait]
    exact Bool.false_ne_true
  unfold Invocation.scanOnce Cat.scanOnce
  cases s.cancelled 0 with
  | some signal => rfl
  | none =>
    cases load o.toOptions s.toScan with
    | error e => rfl
    | ok x =>
      obtain ⟨l, stop⟩ := x
      cases stop with
      | some stop => rfl
      | none =>
        simp only [ok_bind]
        by_cases hmany : o.maxRecords.toNat < l.merger.merged.1.length
        · rw [if_pos hmany, if_pos hmany]
          rfl
        rw [if_neg hmany, if_neg hmany, if_neg (fun h => hsome h.1), printAll_without_wait hwait]
        cases Cat.printAll o.toOptions c s.toScan l.merger.subsystemName r.scans 0
            l.merger.merged.1 _ with
        | error e => rfl
        | ok x =>
          obtain ⟨r', stop⟩ := x
          cases stop with
          | some stop => rfl
          | none =>
            simp only [stopped, Except.map, ok_bind, Option.map_none]
            cases s.flushed with
            | false => rfl
            | true =>
              have hlate : o.lateAfter s.clockAfter = false := by
                unfold Invocation.lateAfter
                rw [hwait]
                rfl
              cases hfollow : o.follow with
              | false => rfl
              | true =>
                rw [hlate, if_neg (by exact fun h => Bool.false_ne_true h.symm),
                  if_neg fun h => h.elim (fun h => by cases h) fun h => hsome h.1]
                rfl

/-- The loop without a wait is the loop over the scans alone. -/
theorem run_without_wait (hwait : o.waitMs = none) (scans : List TimedScan) (r : Run) :
    o.run c scans r = (Cat.run o.toOptions c (scans.map TimedScan.toScan) r).map stopped := by
  induction scans generalizing r with
  | nil => rfl
  | cons s scans ih =>
    unfold Invocation.run
    rw [List.map_cons, Cat.run, scanOnce_without_wait hwait]
    cases Cat.scanOnce o.toOptions c s.toScan r with
    | error e => rfl
    | ok x =>
      obtain ⟨r', stop⟩ := x
      cases stop with
      | some stop => rfl
      | none => exact ih r'

end NoWait

/-! ### What printing changes -/

/-- The cursor, the output and its count, with the lines that were added. -/
structure Adds (new : List Line) (r r' : Run) : Prop where
  rest : r' = { r with
    seen := r'.seen
    outputBytes := r'.outputBytes
    lines := r'.lines
    emitted := r'.emitted }
  lines : r'.lines = r.lines ++ new
  emitted : r'.emitted = r.emitted + new.length

theorem Adds.refl (r : Run) : Adds [] r r := ⟨rfl, (List.append_nil _).symm, rfl⟩

theorem Adds.trans {new new' : List Line} {r r' r'' : Run} (h : Adds new r r')
    (h' : Adds new' r' r'') : Adds (new ++ new') r r'' where
  rest := by
    rw [h'.rest, h.rest]
  lines := by rw [h'.lines, h.lines, List.append_assoc]
  emitted := by rw [h'.emitted, h.emitted, List.length_append, Nat.add_assoc]

/-- What one record comes to: a line behind the others, and then the loop goes on, or no line. -/
structure Prints (o : Options) (i : ℕ) (entry : MergedRecord) (r r' : Run) (stop : Option Stop) :
    Prop where
  budget : r'.outputBytes ≤ o.maxOutputBytes.toNat
  unfinished : stop ≠ some .finished
  adds : Adds [] r r' ∧ (o.follow = false → stop = none → wanted o entry.record = false) ∨
    stop = none ∧ wanted o entry.record = true ∧ ∃ bytes, Adds [⟨i, entry, bytes⟩] r r'

section Printing

variable {o : Options} {c : Console} {s : Scan} {names : UInt32 → List UInt8} {r : Run}
variable {i j : ℕ} {entry : MergedRecord}

/-- A record that stops the loop leaves the output as it is. -/
theorem Prints.of_stop {stop : Stop} (hbudget : r.outputBytes ≤ o.maxOutputBytes.toNat)
    (hstop : stop ≠ .finished) : Prints o i entry r r (some stop) where
  budget := hbudget
  unfinished := fun h => hstop (Option.some.inj h)
  adds := Or.inl ⟨Adds.refl r, fun _ h => by cases h⟩

theorem printLine_prints (names : UInt32 → List UInt8) (entry : MergedRecord)
    (hbudget : r.outputBytes ≤ o.maxOutputBytes.toNat) :
    ∃ r' stop, printLine o c s names i j entry r = .ok (r', stop) ∧
      Prints o i entry r r' stop := by
  unfold printLine
  by_cases hwanted : wanted o entry.record = false
  · rw [if_pos hwanted]
    exact ⟨r, none, rfl, hbudget, nofun, Or.inl ⟨Adds.refl r, fun _ _ => hwanted⟩⟩
  rw [if_neg hwanted]
  cases c.line names entry with
  | none => exact ⟨r, _, rfl, Prints.of_stop hbudget fun h => by cases h⟩
  | some line =>
    simp only [sub64_eq hbudget, ok_bind]
    by_cases hleft : o.maxOutputBytes.toNat - r.outputBytes < c.encodedBytes line
    · rw [if_pos hleft]
      exact ⟨r, _, rfl, Prints.of_stop hbudget fun h => by cases h⟩
    have hfits : r.outputBytes + c.encodedBytes line ≤ o.maxOutputBytes.toNat := by omega
    rw [if_neg hleft]
    cases s.written j with
    | false =>
      -- counted but not written
      exact ⟨_, _, rfl, hfits, nofun,
        Or.inl ⟨⟨rfl, (List.append_nil _).symm, rfl⟩, fun _ h => by cases h⟩⟩
    | true =>
      exact ⟨_, none, rfl, hfits, nofun,
        Or.inr ⟨rfl, Bool.eq_true_of_not_eq_false hwanted, line, rfl, rfl, rfl⟩⟩

theorem printRecord_prints (names : UInt32 → List UInt8) (entry : MergedRecord)
    (hbudget : r.outputBytes ≤ o.maxOutputBytes.toNat) :
    ∃ r' stop, Cat.printRecord o c s names i j entry r = .ok (r', stop) ∧
      Prints o i entry r r' stop := by
  unfold printRecord
  cases s.cancelled (j + 1) with
  | some signal => exact ⟨r, _, rfl, Prints.of_stop hbudget fun h => by cases h⟩
  | none =>
    cases hfollow : o.follow with
    | false => exact printLine_prints names entry hbudget
    | true =>
      by_cases hmem : keyOf entry ∈ r.seen
      · simp only [if_pos hmem, if_true]
        refine ⟨r, none, rfl, hbudget, nofun, Or.inl ⟨Adds.refl r, fun h => ?_⟩⟩
        exact absurd (hfollow.symm.trans h) (fun h => by cases h)
      by_cases hroom : o.maxRecords.toNat ≤ r.seen.length
      · simp only [if_neg hmem, if_pos hroom, if_true]
        exact ⟨r, _, rfl, Prints.of_stop hbudget fun h => by cases h⟩
      simp only [if_neg hmem, if_neg hroom, if_true]
      -- the key is kept first, and that adds no line
      have hkeep : Adds [] r { r with seen := r.seen ++ [keyOf entry] } :=
        ⟨rfl, (List.append_nil _).symm, rfl⟩
      obtain ⟨r', stop, hprint, h⟩ := printLine_prints (c := c) (s := s) (i := i) (j := j)
        (r := { r with seen := r.seen ++ [keyOf entry] }) names entry hbudget
      refine ⟨r', stop, hprint, h.budget, h.unfinished, ?_⟩
      rcases h.adds with ⟨hadds, hwanted⟩ | ⟨hstop, hwanted, bytes, hadds⟩
      · exact Or.inl ⟨hkeep.trans hadds, hwanted⟩
      · exact Or.inr ⟨hstop, hwanted, bytes, hkeep.trans hadds⟩

end Printing

/-! ### The records of a scan -/

theorem collectSegments_unfinished {o : Options} {inputs : List Input} :
    collectSegments o inputs ≠ .error .finished := by
  have hdirectory : ∀ {entries paths : List Path},
      collectDirectory o paths entries ≠ .error .finished := by
    intro entries
    induction entries with
    | nil => exact nofun
    | cons entry entries ih =>
      intro paths h
      unfold collectDirectory at h
      by_cases hsegment : entry.extension = cSegmentExtension
      · rw [if_pos hsegment] at h
        by_cases hfull : o.maxFiles.toNat ≤ paths.length
        · rw [if_pos hfull] at h
          cases h
        · rw [if_neg hfull] at h
          exact ih h
      · rw [if_neg hsegment] at h
        exact ih h
  have hinputs : ∀ {inputs : List Input} {paths : List Path},
      collectInputs o paths inputs ≠ .error .finished := by
    intro inputs
    induction inputs with
    | nil => exact nofun
    | cons input inputs ih =>
      intro paths h
      match input with
      | .directory none => cases h
      | .directory (some entries) =>
        simp only [collectInputs] at h
        cases hentries : collectDirectory o paths entries with
        | error stop =>
          rw [hentries] at h
          exact hdirectory (hentries.trans h)
        | ok paths' =>
          rw [hentries] at h
          exact ih h
      | .other path =>
        by_cases hfull : o.maxFiles.toNat ≤ paths.length
        · simp only [collectInputs, if_pos hfull] at h
          cases h
        · simp only [collectInputs, if_neg hfull] at h
          exact ih h
  intro h
  unfold collectSegments at h
  cases hpaths : collectInputs o [] inputs with
  | error stop =>
    rw [hpaths] at h
    exact hinputs (hpaths.trans h)
  | ok paths =>
    rw [hpaths] at h
    cases h

/-- Reading does not end the loop well. -/
theorem load_unfinished {o : Options} {s : Scan} {l : Load} :
    load o s ≠ .ok (l, some .finished) := by
  have hfile : ∀ {found : Found} {l l' : Load}, loadFile found l ≠ .ok (l', some .finished) := by
    intro found l l' h
    unfold loadFile at h
    cases found with
    | missing => cases h
    | file size bytes hsize =>
      by_cases hlarge : l.remainingBytes < size ∨ cSizeMax < size ∨ cStreamMax < size
      · simp only [dif_pos hlarge] at h
        cases h
      simp only [dif_neg hlarge] at h
      obtain ⟨remaining, -, h⟩ := bind_eq_ok h
      by_cases hcut : bytes.length < size
      · simp only [if_pos hcut] at h
        cases h
      simp only [if_neg hcut] at h
      obtain ⟨⟨merger, error⟩, -, h⟩ := bind_eq_ok h
      cases error <;> cases h
  have hfiles : ∀ {paths : List Path} {i : ℕ} {l l' : Load},
      loadFiles s i paths l ≠ .ok (l', some .finished) := by
    intro paths
    induction paths with
    | nil => exact fun h => by cases h
    | cons path paths ih =>
      intro i l l' h
      unfold loadFiles at h
      obtain ⟨⟨l₁, stop⟩, hone, h⟩ := bind_eq_ok h
      cases stop with
      | some stop =>
        obtain ⟨rfl, hstop⟩ := Prod.mk.inj (Except.ok.inj h)
        obtain rfl := Option.some.inj hstop
        exact hfile hone
      | none => exact ih h
  intro h
  unfold load at h
  cases hcollect : collectSegments o s.inputs with
  | ok paths =>
    rw [hcollect] at h
    exact hfiles h
  | error stop =>
    rw [hcollect] at h
    obtain rfl := Option.some.inj (Prod.mk.inj (Except.ok.inj h)).2
    exact collectSegments_unfinished hcollect

section Loop

variable {o : Invocation} {c : Console} {s : TimedScan} {names : UInt32 → List UInt8} {r : Run}
variable {i j : ℕ} {entry : MergedRecord}

theorem lateAmong_iff {now : ℕ} :
    o.lateAmong now = true ↔ o.waitMs.isSome ∧ o.waitMs ≠ some 0 ∧ o.deadline ≤ now :=
  decide_eq_true_iff

/-- One record: the clock has come to the deadline, or it is as in the loop without a wait. -/
theorem printRecord_timed (names : UInt32 → List UInt8) (i j : ℕ) (entry : MergedRecord)
    (r : Run) :
    (o.printRecord c s names i j entry r = .ok (r, some .deadline) ∧
      o.waitMs.isSome = true ∧ o.deadline ≤ s.clock j) ∨
    o.printRecord c s names i j entry r =
      (Cat.printRecord o.toOptions c s.toScan names i j entry r).map stopped := by
  by_cases hlate : s.cancelled (j + 1) = none ∧ o.lateAmong (s.clock j) = true
  · obtain ⟨hsome, -, hreached⟩ := lateAmong_iff.mp hlate.2
    refine Or.inl ⟨?_, hsome, hreached⟩
    unfold Invocation.printRecord
    rw [if_pos hlate]
    rfl
  · exact Or.inr (printRecord_of_not_late hlate)

/-- What the records of a scan add to the output. -/
structure Step (o : Invocation) (s : TimedScan) (i : ℕ) (entries : List MergedRecord)
    (new : List Line) (ending : Option Ending) : Prop where
  /-- A wait ends with its first line. -/
  wait : o.waitMs.isSome = true → new.length ≤ 1 ∧ (ending ≠ none → new = [])
  /-- Without the cursor every wanted record is printed. -/
  once : o.waitMs.isSome = false → o.follow = false → ending = none →
    new.map Line.what = (entries.filter fun e => wanted o.toOptions e.record).map (Prod.mk i)
  unfinished : ending ≠ some (.stop .finished)
  deadline : ending = some .deadline → o.waitMs.isSome = true ∧ ∃ k, o.deadline ≤ s.clock k

/-- An ending among the records, behind no line. -/
theorem Step.of_ending {entries : List MergedRecord} {ending : Ending}
    (hunfinished : ending ≠ .stop .finished)
    (hdeadline : ending = .deadline → o.waitMs.isSome = true ∧ ∃ k, o.deadline ≤ s.clock k) :
    Step o s i entries [] (some ending) where
  wait := fun _ => ⟨Nat.zero_le _, fun _ => rfl⟩
  once := fun _ _ h => by cases h
  unfinished := fun h => hunfinished (Option.some.inj h)
  deadline := fun h => hdeadline (Option.some.inj h)

theorem printAll_adds (names : UInt32 → List UInt8) (i j : ℕ) (entries : List MergedRecord)
    (hbudget : r.outputBytes ≤ o.maxOutputBytes.toNat) :
    ∃ r' ending new, o.printAll c s names i j entries r = .ok (r', ending) ∧
      r'.outputBytes ≤ o.maxOutputBytes.toNat ∧ Adds new r r' ∧ Step o s i entries new ending := by
  induction entries generalizing j r with
  | nil =>
    refine ⟨r, none, [], rfl, hbudget, Adds.refl r, ?_⟩
    exact { wait := fun _ => ⟨Nat.zero_le _, fun _ => rfl⟩
            once := fun _ _ _ => rfl
            unfinished := fun h => by cases h
            deadline := fun h => by cases h }
  | cons entry entries ih =>
    unfold Invocation.printAll
    rcases printRecord_timed (o := o) (c := c) (s := s) names i j entry r with
      ⟨hlate, hwait, hreached⟩ | hrecord
    · rw [hlate]
      exact ⟨r, some .deadline, [], rfl, hbudget, Adds.refl r,
        Step.of_ending (fun h => by cases h) fun _ => ⟨hwait, j, hreached⟩⟩
    obtain ⟨r₁, stop, hprint, hprints⟩ := printRecord_prints (o := o.toOptions) (c := c)
      (s := s.toScan) (i := i) (j := j) names entry hbudget
    rw [hrecord, hprint]
    cases stop with
    | some stop =>
      -- a record that stops the loop has added nothing
      have hnone : Adds [] r r₁ := by
        rcases hprints.adds with h | ⟨h, -⟩
        · exact h.1
        · cases h
      refine ⟨r₁, some (.stop stop), [], rfl, hprints.budget, hnone,
        Step.of_ending (fun h => ?_) fun h => by cases h⟩
      exact hprints.unfinished (congrArg some (Ending.stop.inj h))
    | none =>
      show ∃ r' ending new, (if o.waitMs.isSome = true ∧ r.emitted < r₁.emitted then _ else _) = _ ∧ _
      by_cases hmatched : o.waitMs.isSome = true ∧ r.emitted < r₁.emitted
      · rw [if_pos hmatched]
        have hnew : ∃ bytes, Adds [⟨i, entry, bytes⟩] r r₁ := by
          rcases hprints.adds with h | ⟨-, -, h⟩
          · exact absurd h.1.emitted (Nat.ne_of_gt hmatched.2)
          · exact h
        obtain ⟨bytes, hnew⟩ := hnew
        refine ⟨r₁, none, _, rfl, hprints.budget, hnew, ?_⟩
        exact { wait := fun _ => ⟨Nat.le_refl _, fun h => absurd rfl h⟩
                once := fun hnone => absurd hmatched.1 (by rw [hnone]; exact Bool.false_ne_true)
                unfinished := fun h => by cases h
                deadline := fun h => by cases h }
      rw [if_neg hmatched]
      obtain ⟨r₂, ending, new, hall, hbudget₂, hrest, hstep⟩ := ih (j + 1) hprints.budget
      -- the line of this record, if there is one, and those of the rest
      rcases hprints.adds with ⟨hadds, hunwanted⟩ | ⟨-, hwanted, bytes, hadds⟩
      · refine ⟨r₂, ending, new, hall, hbudget₂, hadds.trans hrest, { hstep with once := ?_ }⟩
        intro hnone hfollow hending
        rw [hstep.once hnone hfollow hending,
          List.filter_cons_of_neg (by rw [hunwanted hfollow rfl]; exact Bool.false_ne_true)]
      · have hnowait : o.waitMs.isSome = false := by
          refine Bool.eq_false_of_not_eq_true fun hwait => hmatched ⟨hwait, ?_⟩
          rw [hadds.emitted]
          exact Nat.lt_succ_self _
        refine ⟨r₂, ending, _, hall, hbudget₂, hadds.trans hrest, { hstep with
          wait := fun h => absurd (hnowait.symm.trans h) Bool.false_ne_true
          once := ?_ }⟩
        intro hnone hfollow hending
        rw [List.map_append, hstep.once hnone hfollow hending, List.filter_cons_of_pos (by exact hwanted)]
        rfl

/-- The cursor goes through the records, and a wait stops behind the one it prints. -/
theorem printAll_follows (names : UInt32 → List UInt8) (i j : ℕ) (entries : List MergedRecord)
    (hfollow : o.follow = true) {met : List (ℕ × MergedRecord)}
    (h : Following o.toOptions c met r) :
    ∃ r' ending part, o.printAll c s names i j entries r = .ok (r', ending) ∧ part <+: entries ∧
      Delivered o.toOptions c (met ++ part.map (Prod.mk i)) r' ∧
      (ending = none → r'.emitted = r.emitted →
        part = entries ∧ Following o.toOptions c (met ++ entries.map (Prod.mk i)) r') := by
  induction entries generalizing j r met with
  | nil =>
    refine ⟨r, none, [], rfl, List.prefix_refl _, ?_, fun _ _ => ⟨rfl, ?_⟩⟩
    · rw [List.map_nil, List.append_nil]
      exact h.toDelivered
    · rw [List.map_nil, List.append_nil]
      exact h
  | cons entry entries ih =>
    unfold Invocation.printAll
    have hstay : Delivered o.toOptions c (met ++ ([] : List MergedRecord).map (Prod.mk i)) r := by
      rw [List.map_nil, List.append_nil]
      exact h.toDelivered
    rcases printRecord_timed (o := o) (c := c) (s := s) names i j entry r with
      ⟨hlate, -, -⟩ | hrecord
    · rw [hlate]
      exact ⟨r, some .deadline, [], rfl, List.nil_prefix, hstay, nofun⟩
    obtain ⟨r₁, stop, hprint, -, hnext, hstop⟩ :=
      printRecord_delivers (c := c) (s := s.toScan) (i := i) (j := j) names entry hfollow h
    obtain ⟨r₁', stop', hprint', hprints⟩ := printRecord_prints (o := o.toOptions) (c := c)
      (s := s.toScan) (i := i) (j := j) names entry h.output
    obtain ⟨rfl, rfl⟩ := Prod.mk.inj (Except.ok.inj (hprint.symm.trans hprint'))
    rw [hrecord, hprint]
    cases stop with
    | some stop =>
      refine ⟨r₁, some (.stop stop), [], rfl, List.nil_prefix, ?_, nofun⟩
      rw [List.map_nil, List.append_nil]
      exact hstop (Option.some_ne_none _)
    | none =>
      have hmet := hnext rfl
      show ∃ r' ending part, (if o.waitMs.isSome = true ∧ r.emitted < r₁.emitted then _ else _) = _ ∧ _
      by_cases hmatched : o.waitMs.isSome = true ∧ r.emitted < r₁.emitted
      · rw [if_pos hmatched]
        refine ⟨r₁, none, [entry], rfl, List.cons_prefix_cons.mpr ⟨rfl, List.nil_prefix⟩,
          hmet.toDelivered, fun _ hsame => ?_⟩
        exact absurd hsame (Nat.ne_of_gt hmatched.2)
      rw [if_neg hmatched]
      obtain ⟨r₂, ending, part, hall, hpart, hdelivered, hdone⟩ := ih (j + 1) hmet
      have hgrows : ∃ new, Adds new r₁ r₂ := by
        obtain ⟨r₂', ending', new, hall', -, hadds, -⟩ := printAll_adds (o := o) (c := c) (s := s)
          names i (j + 1) entries hprints.budget
        obtain ⟨rfl, -⟩ := Prod.mk.inj (Except.ok.inj (hall.symm.trans hall'))
        exact ⟨new, hadds⟩
      refine ⟨r₂, ending, entry :: part, hall, List.cons_prefix_cons.mpr ⟨rfl, hpart⟩, ?_, ?_⟩
      · rw [List.map_cons, List.append_cons]
        exact hdelivered
      · intro hending hsame
        -- nothing was printed of this record, nor of the rest
        obtain ⟨new, hnew⟩ := hgrows
        have hfirst : r.emitted ≤ r₁.emitted := by
          rcases hprints.adds with ⟨hadds, -⟩ | ⟨-, -, bytes, hadds⟩
          · exact Nat.le_of_eq hadds.emitted.symm
          · exact hadds.emitted ▸ Nat.le_add_right _ _
        have hrest : r₂.emitted = r₁.emitted := by
          have := hnew.emitted
          omega
        obtain ⟨rfl, hfollowing⟩ := hdone hending hrest
        refine ⟨rfl, ?_⟩
        rw [List.map_cons, List.append_cons]
        exact hfollowing

/-! ### A scan -/

/-- What was read decodes without a gap. -/
def Clean (l : Load) : Prop :=
  l.scanError = false ∧ l.merger.totals.unreadableBytes = 0 ∧
    l.merger.totals.undecodableRecords = 0

instance Clean.decidable (l : Load) : Decidable (Clean l) := inferInstanceAs (Decidable (_ ∧ _ ∧ _))

/-- What the loop keeps of a scan that was completed. -/
def Run.read (r : Run) (l : Load) : Run := { r with
  anySegmentOpened := r.anySegmentOpened || l.anySegmentOpened
  bytesRead := r.bytesRead ++ [l.bytesRead]
  scans := r.scans + 1
  records := l.merger.merged.1.length
  totals := l.merger.totals
  inputErrorSeen := r.inputErrorSeen || l.scanError }

/-- A scan that was read, with the lines it printed. -/
structure Completed (o : Invocation) (s : TimedScan) (i : ℕ) (l : Load) (new : List Line)
    (ending : Option Ending) : Prop where
  read : load o.toOptions s.toScan = .ok (l, none)
  once : o.waitMs.isSome = false → o.follow = false → ending = some (.stop .finished) →
    new.map Line.what =
      (l.merger.merged.1.filter fun e => wanted o.toOptions e.record).map (Prod.mk i)
  wait : o.waitMs.isSome = true →
    new.length ≤ 1 ∧ (new ≠ [] ∨ ending ≠ some (.stop .failed) → Clean l)
  finished : ending = some (.stop .finished) →
    s.flushed = true ∧ (o.follow = false ∨ o.waitMs.isSome = true ∧ new ≠ [])
  deadline : ending = some .deadline → o.waitMs.isSome = true ∧ new = [] ∧ Clean l ∧
    ∃ now, o.deadline ≤ now ∧ (now = s.clockAfter ∨ ∃ k, now = s.clock k)
  more : ending = none → o.follow = true ∧
    (o.waitMs.isSome = true → new = [] ∧ Clean l ∧ s.clockAfter < o.deadline)

theorem not_clean {l : Load} : ¬Clean l ↔ l.scanError = true ∨
    l.merger.totals.unreadableBytes ≠ 0 ∨ l.merger.totals.undecodableRecords ≠ 0 := by
  unfold Clean
  rw [not_and_or, not_and_or, Bool.not_eq_false]

theorem lateAfter_iff {now : ℕ} :
    o.lateAfter now = true ↔ o.waitMs.isSome = true ∧ o.deadline ≤ now :=
  decide_eq_true_iff

/-- A scan ends the loop before anything is counted, or it is completed. -/
theorem scanOnce_completes (hbudget : r.outputBytes ≤ o.maxOutputBytes.toNat) :
    ∃ r' ending, o.scanOnce c s r = .ok (r', ending) ∧
      r'.outputBytes ≤ o.maxOutputBytes.toNat ∧
      ((∃ why opened bytesRead, ending = some (.stop why) ∧ why ≠ .finished ∧
          r' = { r with anySegmentOpened := opened, bytesRead := bytesRead }) ∨
        ∃ l new, Completed o s r.scans l new ending ∧ Adds new (r.read l) r') := by
  unfold Invocation.scanOnce
  cases s.cancelled 0 with
  | some signal => exact ⟨r, _, rfl, hbudget, Or.inl ⟨_, _, _, rfl, nofun, rfl⟩⟩
  | none =>
    obtain ⟨l, stop, hload, -⟩ := load_reads o.toOptions s.toScan
    simp only [hload, ok_bind]
    cases stop with
    | some stop =>
      refine ⟨_, _, rfl, hbudget, Or.inl ⟨stop, _, _, rfl, ?_, rfl⟩⟩
      rintro rfl
      exact load_unfinished hload
    | none =>
      by_cases hmany : o.maxRecords.toNat < l.merger.merged.1.length
      · rw [if_pos hmany]
        exact ⟨_, _, rfl, hbudget, Or.inl ⟨_, _, _, rfl, nofun, rfl⟩⟩
      rw [if_neg hmany]
      by_cases hdirty : o.waitMs.isSome = true ∧ (l.scanError = true ∨
          l.merger.totals.unreadableBytes ≠ 0 ∨ l.merger.totals.undecodableRecords ≠ 0)
      · rw [if_pos hdirty]
        refine ⟨_, _, rfl, hbudget, Or.inr ⟨l, [], ?_, Adds.refl _⟩⟩
        exact { read := hload
                once := nofun
                wait := fun _ => ⟨Nat.zero_le _, fun h => h.elim (absurd rfl) (absurd rfl)⟩
                finished := nofun
                deadline := nofun
                more := nofun }
      rw [if_neg hdirty]
      have hclean : o.waitMs.isSome = true → Clean l := by
        intro hwait
        by_contra hdirt
        exact hdirty ⟨hwait, not_clean.mp hdirt⟩
      obtain ⟨r', ending, new, hall, hbudget', hadds, hstep⟩ := printAll_adds (o := o) (c := c)
        (s := s) (r := r.read l) l.merger.subsystemName r.scans 0 l.merger.merged.1 hbudget
      have hprinted : o.printAll c s l.merger.subsystemName r.scans 0 l.merger.merged.1
          { r with
            anySegmentOpened := r.anySegmentOpened || l.anySegmentOpened
            bytesRead := r.bytesRead ++ [l.bytesRead]
            scans := r.scans + 1
            records := l.merger.merged.1.length
            totals := l.merger.totals
            inputErrorSeen := r.inputErrorSeen || l.scanError } = .ok (r', ending) := hall
      simp only [hprinted, ok_bind]
      have hmatched : r.emitted < r'.emitted ↔ new ≠ [] := by
        have hemitted : r'.emitted = r.emitted + new.length := hadds.emitted
        rw [hemitted, ← List.length_pos_iff_ne_nil]
        omega
      cases ending with
      | some ending =>
        refine ⟨r', some ending, rfl, hbudget', Or.inr ⟨l, new, ?_, hadds⟩⟩
        exact { read := hload
                once := fun _ _ h => absurd h hstep.unfinished
                wait := fun h => ⟨(hstep.wait h).1, fun _ => hclean h⟩
                finished := fun h => absurd h hstep.unfinished
                deadline := fun h => by
                  obtain ⟨hwait, k, hlate⟩ := hstep.deadline h
                  exact ⟨hwait, (hstep.wait hwait).2 (Option.some_ne_none _), hclean hwait, _, hlate,
                    Or.inr ⟨k, rfl⟩⟩
                more := nofun }
      | none =>
        have hwait : ∀ ending : Option Ending, o.waitMs.isSome = true →
            new.length ≤ 1 ∧ (new ≠ [] ∨ ending ≠ some (.stop .failed) → Clean l) :=
          fun _ h => ⟨(hstep.wait h).1, fun _ => hclean h⟩
        cases hflushed : s.flushed with
        | false =>
          refine ⟨r', _, rfl, hbudget', Or.inr ⟨l, new, ?_, hadds⟩⟩
          exact { read := hload
                  once := nofun
                  wait := hwait _
                  finished := nofun
                  deadline := nofun
                  more := nofun }
        | true =>
          rw [if_neg (fun h => by cases h)]
          by_cases hend : o.follow = false ∨ o.waitMs.isSome = true ∧ r.emitted < r'.emitted
          · rw [if_pos hend]
            refine ⟨r', _, rfl, hbudget', Or.inr ⟨l, new, ?_, hadds⟩⟩
            exact { read := hload
                    once := fun hnone hfollow _ => hstep.once hnone hfollow rfl
                    wait := hwait _
                    finished := fun _ => ⟨hflushed, hend.imp_right (And.imp_right hmatched.mp)⟩
                    deadline := nofun
                    more := nofun }
          rw [if_neg hend]
          obtain ⟨hfollow, hnew⟩ := not_or.mp hend
          have hnew : o.waitMs.isSome = true → new = [] := by
            intro h
            by_contra hne
            exact hnew ⟨h, hmatched.mpr hne⟩
          by_cases hlate : o.lateAfter s.clockAfter = true
          · rw [if_pos hlate]
            obtain ⟨hsome, hreached⟩ := lateAfter_iff.mp hlate
            refine ⟨r', _, rfl, hbudget', Or.inr ⟨l, new, ?_, hadds⟩⟩
            exact { read := hload
                    once := nofun
                    wait := hwait _
                    finished := nofun
                    deadline := fun _ =>
                      ⟨hsome, hnew hsome, hclean hsome, _, hreached, Or.inl rfl⟩
                    more := nofun }
          · rw [if_neg hlate]
            refine ⟨r', none, rfl, hbudget', Or.inr ⟨l, new, ?_, hadds⟩⟩
            exact { read := hload
                    once := nofun
                    wait := hwait _
                    finished := nofun
                    deadline := nofun
                    more := fun _ => ⟨Bool.eq_true_of_not_eq_false hfollow, fun h =>
                      ⟨hnew h, hclean h, Nat.lt_of_not_le fun hreached =>
                        hlate (lateAfter_iff.mpr ⟨h, hreached⟩)⟩⟩ }

end Loop

/-! ### Runs -/

/-- The counters behind some completed scans. -/
structure Counted (loads : List Load) (r : Run) : Prop where
  scans : r.scans = loads.length
  records : r.records = (loads.getLast?.map fun l => l.merger.merged.1.length).getD 0
  totals : r.totals = (loads.getLast?.map fun l => l.merger.totals).getD ⟨0, 0, 0, 0⟩
  errors : r.inputErrorSeen = loads.any Load.scanError
  emitted : r.emitted = r.lines.length

theorem counted_start : Counted [] Run.start := ⟨rfl, rfl, rfl, rfl, rfl⟩

/-- A completed scan is counted. -/
theorem Counted.read {loads : List Load} {l : Load} {new : List Line} {r r' : Run}
    (h : Counted loads r) (hadds : Adds new (r.read l) r') : Counted (loads ++ [l]) r' := by
  have hlines : r'.lines = r.lines ++ new := hadds.lines
  have hemitted : r'.emitted = r.emitted + new.length := hadds.emitted
  have hrest := hadds.rest
  refine { scans := ?_, records := ?_, totals := ?_, errors := ?_, emitted := ?_ }
  · rw [hrest, List.length_append]
    exact congrArg (· + 1) h.scans
  · rw [hrest, List.getLast?_concat]
    rfl
  · rw [hrest, List.getLast?_concat]
    rfl
  · rw [hrest, List.any_append, ← h.errors, List.any_cons, List.any_nil, Bool.or_false]
    rfl
  · rw [hemitted, hlines, List.length_append, h.emitted]

section Runs

variable {o : Invocation} {c : Console} {r : Run} {loads : List Load}

/-- The scans that were completed. -/
def Loads (o : Invocation) (scans : List TimedScan) (loads : List Load) : Prop :=
  List.Forall₂ (fun s l => load o.toOptions s.toScan = .ok (l, none)) (scans.take loads.length) loads

theorem Loads.cons {s : TimedScan} {l : Load} {scans : List TimedScan}
    (hl : load o.toOptions s.toScan = .ok (l, none)) (h : Loads o scans loads) :
    Loads o (s :: scans) (l :: loads) := List.Forall₂.cons hl h

/-- The loop makes its scans without a fault, and counts those it completes. -/
theorem run_counts (scans : List TimedScan) (hcounted : Counted loads r)
    (hbudget : r.outputBytes ≤ o.maxOutputBytes.toNat) :
    ∃ r' ending more, o.run c scans r = .ok (r', ending) ∧ Loads o scans more ∧
      Counted (loads ++ more) r' := by
  induction scans generalizing r loads with
  | nil =>
    refine ⟨r, none, [], rfl, List.Forall₂.nil, ?_⟩
    rw [List.append_nil]
    exact hcounted
  | cons s scans ih =>
    obtain ⟨r₁, ending, hscan, hbudget₁, hone⟩ := scanOnce_completes (c := c) (s := s) hbudget
    unfold Invocation.run
    simp only [hscan, ok_bind]
    rcases hone with ⟨why, opened, bytesRead, rfl, -, rfl⟩ | ⟨l, new, hcompleted, hadds⟩
    · refine ⟨_, _, [], rfl, List.Forall₂.nil, ?_⟩
      rw [List.append_nil]
      exact { hcounted with }
    have hcounted₁ := hcounted.read hadds
    cases ending with
    | some ending => exact ⟨r₁, some ending, [l], rfl, .cons hcompleted.read .nil, hcounted₁⟩
    | none =>
      obtain ⟨r₂, ending, more, hrun, hmore, hcounted₂⟩ := ih hcounted₁ hbudget₁
      refine ⟨r₂, ending, l :: more, hrun, hmore.cons hcompleted.read, ?_⟩
      rw [List.append_cons]
      exact hcounted₂

/-- **One pass.** Without `--follow` the loop ends well behind the first scan, which printed every
wanted record it decoded, in the order of the timeline. -/
theorem run_once {scans : List TimedScan} {r' : Run} (hfollow : o.follow = false)
    (hwait : o.waitMs.isSome = false)
    (h : o.run c scans Run.start = .ok (r', some (.stop .finished))) :
    ∃ s rest l, scans = s :: rest ∧ load o.toOptions s.toScan = .ok (l, none) ∧
      s.flushed = true ∧ r'.anySegmentOpened = l.anySegmentOpened ∧ r'.lines.map Line.what =
        (l.merger.merged.1.filter fun e => wanted o.toOptions e.record).map (Prod.mk 0) := by
  match scans with
  | [] => cases h
  | s :: rest =>
    obtain ⟨r₁, ending, hscan, -, hone⟩ := scanOnce_completes (o := o) (c := c) (s := s)
      (r := Run.start) (Nat.zero_le _)
    unfold Invocation.run at h
    simp only [hscan, ok_bind] at h
    cases ending with
    | none =>
      -- it does not go on
      rcases hone with ⟨why, -, -, hstop, -⟩ | ⟨l, new, hcompleted, -⟩
      · cases hstop
      · exact absurd (hfollow.symm.trans (hcompleted.more rfl).1) Bool.false_ne_true
    | some ending =>
      obtain ⟨rfl, hending⟩ := Prod.mk.inj (Except.ok.inj h)
      obtain rfl := Option.some.inj hending
      rcases hone with ⟨why, -, -, hstop, hwhy, -⟩ | ⟨l, new, hcompleted, hadds⟩
      · exact absurd (Ending.stop.inj (Option.some.inj hstop)).symm hwhy
      refine ⟨s, rest, l, rfl, hcompleted.read, (hcompleted.finished rfl).1, ?_, ?_⟩
      · rw [hadds.rest]
        exact Bool.false_or _
      · rw [hadds.lines]
        exact hcompleted.once hwait hfollow rfl

end Runs

/-! ### The finite wait -/

section Wait

variable {o : Invocation} {c : Console} {r : Run} {batches : List (List MergedRecord)}

/-- A wait that has found nothing yet. -/
structure Waiting (o : Invocation) (c : Console) (batches : List (List MergedRecord)) (r : Run) :
    Prop where
  following : Following o.toOptions c (occurrences batches) r
  scans : r.scans = batches.length
  lines : r.lines = []
  emitted : r.emitted = 0

theorem waiting_start (o : Invocation) (c : Console) : Waiting o c [] Run.start :=
  ⟨following_start _ _, rfl, rfl, rfl⟩

/-- One scan goes on with the cursor, up to where it stops. -/
theorem scanOnce_follows {s : TimedScan} (hfollow : o.follow = true)
    (h : Following o.toOptions c (occurrences batches) r) (hscans : r.scans = batches.length) :
    ∃ r' ending part, o.scanOnce c s r = .ok (r', ending) ∧
      Delivered o.toOptions c (metIn batches part) r' ∧
      (part ≠ [] → ∃ batch, Decodes o.toOptions s.toScan batch ∧ part <+: batch) ∧
      (ending = none → r'.emitted = r.emitted → ∃ batch, Decodes o.toOptions s.toScan batch ∧
        Following o.toOptions c (occurrences (batches ++ [batch])) r') := by
  -- an ending before the first record leaves what was printed as it is
  have hbefore : ∀ r' ending, Delivered o.toOptions c (occurrences batches) r' →
      ∃ r'' ending' part, (Except.ok (r', some ending) : Checked (Run × Option Ending)) =
          .ok (r'', ending') ∧
        Delivered o.toOptions c (metIn batches part) r'' ∧
        (part ≠ [] → ∃ batch, Decodes o.toOptions s.toScan batch ∧ part <+: batch) ∧
        (ending' = none → r''.emitted = r.emitted → ∃ batch, Decodes o.toOptions s.toScan batch ∧
          Following o.toOptions c (occurrences (batches ++ [batch])) r'') := by
    intro r' ending hr'
    refine ⟨r', some ending, [], rfl, ?_, fun hne => absurd rfl hne, nofun⟩
    rw [metIn_nil]
    exact hr'
  unfold Invocation.scanOnce
  cases s.cancelled 0 with
  | some signal => exact hbefore r _ h.toDelivered
  | none =>
    obtain ⟨l, stop, hload, hreads⟩ := load_reads o.toOptions s.toScan
    simp only [hload, ok_bind]
    have hinput : ∀ n ∈ r.bytesRead ++ [l.bytesRead], n ≤ o.maxInputBytes.toNat := by
      intro n hn
      rcases List.mem_append.mp hn with hn | hn
      · exact h.input n hn
      · rw [List.mem_singleton.mp hn]
        exact hreads
    cases stop with
    | some stop => exact hbefore _ _ { h.toDelivered with input := hinput }
    | none =>
      by_cases hmany : o.maxRecords.toNat < l.merger.merged.1.length
      · rw [if_pos hmany]
        exact hbefore _ _ { h.toDelivered with input := hinput }
      rw [if_neg hmany]
      by_cases hdirty : o.waitMs.isSome = true ∧ (l.scanError = true ∨
          l.merger.totals.unreadableBytes ≠ 0 ∨ l.merger.totals.undecodableRecords ≠ 0)
      · rw [if_pos hdirty]
        exact hbefore _ _ { h.toDelivered with input := hinput }
      rw [if_neg hdirty]
      have hstart : Following o.toOptions c (occurrences batches) (r.read l) :=
        { h with input := hinput }
      obtain ⟨r', ending, part, hall, hpart, hdelivered, hdone⟩ := printAll_follows (s := s)
        l.merger.subsystemName r.scans 0 l.merger.merged.1 hfollow hstart
      have hprinted : o.printAll c s l.merger.subsystemName r.scans 0 l.merger.merged.1
          { r with
            anySegmentOpened := r.anySegmentOpened || l.anySegmentOpened
            bytesRead := r.bytesRead ++ [l.bytesRead]
            scans := r.scans + 1
            records := l.merger.merged.1.length
            totals := l.merger.totals
            inputErrorSeen := r.inputErrorSeen || l.scanError } = .ok (r', ending) := hall
      simp only [hprinted, ok_bind]
      have hdecodes : Decodes o.toOptions s.toScan l.merger.merged.1 := ⟨l, hload, rfl⟩
      have hmet : Delivered o.toOptions c (metIn batches part) r' := by
        unfold metIn
        rw [← hscans]
        exact hdelivered
      have hprefix : part ≠ [] → ∃ batch, Decodes o.toOptions s.toScan batch ∧ part <+: batch :=
        fun _ => ⟨_, hdecodes, hpart⟩
      cases ending with
      | some ending => exact ⟨r', some ending, part, rfl, hmet, hprefix, nofun⟩
      | none =>
        -- which ending it is plays no part here
        have hending : ∃ ending, (if s.flushed = false then
              (pure (r', some (Ending.stop .failed)) : Checked (Run × Option Ending))
            else if o.follow = false ∨ o.waitMs.isSome = true ∧ r.emitted < r'.emitted then
              pure (r', some (Ending.stop .finished))
            else if o.lateAfter s.clockAfter = true then pure (r', some Ending.deadline)
            else pure (r', none)) = .ok (r', ending) := by
          split_ifs <;> exact ⟨_, rfl⟩
        obtain ⟨ending, hending⟩ := hending
        refine ⟨r', ending, part, hending, hmet, hprefix, fun _ hsame => ?_⟩
        obtain ⟨-, hfollowing⟩ := hdone rfl hsame
        refine ⟨_, hdecodes, ?_⟩
        rw [metIn_concat]
        unfold metIn
        rw [← hscans]
        exact hfollowing

/-- What the end of a wait says of its scans, the first `k` of which were completed. -/
structure Outcome (o : Invocation) (scans : List TimedScan) (k : ℕ) (r : Run)
    (ending : Option Ending) : Prop where
  single : r.lines.length ≤ 1
  clean : ending = some (.stop .failed) ∨
    ∀ s ∈ scans.take k, ∃ l, load o.toOptions s.toScan = .ok (l, none) ∧ Clean l
  finished : ending = some (.stop .finished) → r.lines.length = 1
  deadline : ending = some .deadline → r.lines = [] ∧ ∃ s ∈ scans.take k, ∃ now,
    o.deadline ≤ now ∧ (now = s.clockAfter ∨ ∃ j, now = s.clock j)
  more : ending = none → r.lines = [] ∧ k = scans.length ∧ ∀ s ∈ scans, s.clockAfter < o.deadline

/-- The wait goes on behind a scan. -/
theorem Outcome.cons {s : TimedScan} {scans : List TimedScan} {k : ℕ} {ending : Option Ending}
    (h : Outcome o scans k r ending)
    (hclean : ∃ l, load o.toOptions s.toScan = .ok (l, none) ∧ Clean l)
    (hearly : s.clockAfter < o.deadline) : Outcome o (s :: scans) (k + 1) r ending where
  single := h.single
  clean := h.clean.imp_right fun hrest s' hs' => by
    rcases List.mem_cons.mp hs' with rfl | hs'
    · exact hclean
    · exact hrest s' hs'
  finished := h.finished
  deadline := fun hending => by
    obtain ⟨hnil, s', hs', hnow⟩ := h.deadline hending
    exact ⟨hnil, s', List.mem_cons_of_mem _ hs', hnow⟩
  more := fun hending => by
    obtain ⟨hnil, hall, hrest⟩ := h.more hending
    refine ⟨hnil, congrArg (· + 1) hall, fun s' hs' => ?_⟩
    rcases List.mem_cons.mp hs' with rfl | hs'
    · exact hearly
    · exact hrest s' hs'

/-- One scan of a wait. -/
theorem scanOnce_waits {s : TimedScan} (hfollow : o.follow = true) (hwait : o.waitMs.isSome = true)
    (h : Waiting o c batches r) :
    ∃ r' ending part, o.scanOnce c s r = .ok (r', ending) ∧
      Delivered o.toOptions c (metIn batches part) r' ∧
      (part ≠ [] → ∃ batch, Decodes o.toOptions s.toScan batch ∧ part <+: batch) ∧
      r'.lines.length ≤ 1 ∧
      (r'.scans = r.scans ∨ r'.scans = r.scans + 1 ∧ (ending = some (.stop .failed) ∨
        ∃ l, load o.toOptions s.toScan = .ok (l, none) ∧ Clean l)) ∧
      (ending = some (.stop .finished) → r'.lines.length = 1) ∧
      (ending = some .deadline → r'.lines = [] ∧ r'.scans = r.scans + 1 ∧ ∃ now,
        o.deadline ≤ now ∧ (now = s.clockAfter ∨ ∃ k, now = s.clock k)) ∧
      (ending = none → s.clockAfter < o.deadline ∧
        ∃ batch, Decodes o.toOptions s.toScan batch ∧ Waiting o c (batches ++ [batch]) r') := by
  obtain ⟨r', ending, part, hscan, hmet, hprefix, hdone⟩ :=
    scanOnce_follows (s := s) hfollow h.following h.scans
  obtain ⟨r₁, ending₁, hscan₁, -, hone⟩ :=
    scanOnce_completes (o := o) (c := c) (s := s) h.following.output
  obtain ⟨rfl, rfl⟩ := Prod.mk.inj (Except.ok.inj (hscan.symm.trans hscan₁))
  refine ⟨r', ending, part, hscan, hmet, hprefix, ?_⟩
  rcases hone with ⟨why, opened, bytesRead, rfl, hwhy, rfl⟩ | ⟨l, new, hcompleted, hadds⟩
  · -- nothing was counted, so nothing was printed
    refine ⟨?_, Or.inl rfl, fun hfinished => ?_, nofun, nofun⟩
    · rw [h.lines]
      exact Nat.zero_le _
    · exact absurd (Ending.stop.inj (Option.some.inj hfinished)) hwhy
  have hlines : r'.lines = new := by
    rw [hadds.lines]
    exact congrArg (· ++ new) h.lines
  have hscans : r'.scans = r.scans + 1 := by
    rw [hadds.rest]
    rfl
  obtain ⟨hsingle, hclean⟩ := hcompleted.wait hwait
  refine ⟨by rw [hlines]; exact hsingle, ?_, fun hfinished => ?_, fun hdeadline => ?_,
    fun hnone => ?_⟩
  · refine Or.inr ⟨hscans, ?_⟩
    by_cases hfailed : ending = some (.stop .failed)
    · exact Or.inl hfailed
    · exact Or.inr ⟨l, hcompleted.read, hclean (Or.inr hfailed)⟩
  · obtain ⟨-, hfound⟩ := hcompleted.finished hfinished
    rcases hfound with hfalse | ⟨-, hne⟩
    · exact absurd (hfollow.symm.trans hfalse) (fun h => by cases h)
    · rw [hlines]
      exact Nat.le_antisymm hsingle (List.length_pos_iff_ne_nil.mpr hne)
  · obtain ⟨-, hnil, -, hnow⟩ := hcompleted.deadline hdeadline
    exact ⟨hlines.trans hnil, hscans, hnow⟩
  · obtain ⟨hnil, -, hearly⟩ := (hcompleted.more hnone).2 hwait
    have hemitted : r'.emitted = 0 := by
      rw [hadds.emitted, hnil]
      exact h.emitted
    obtain ⟨batch, hdecodes, hfollowing⟩ := hdone hnone (hemitted.trans h.emitted.symm)
    refine ⟨hearly, batch, hdecodes, hfollowing, ?_, hlines.trans hnil, hemitted⟩
    rw [hscans, h.scans, List.length_append]
    rfl

/-- The scans of a wait. -/
theorem run_waits (scans : List TimedScan) (hfollow : o.follow = true)
    (hwait : o.waitMs.isSome = true) (h : Waiting o c batches r) :
    ∃ r' ending more part k, o.run c scans r = .ok (r', ending) ∧ r'.scans = r.scans + k ∧
      List.Forall₂ (fun s batch => Decodes o.toOptions s.toScan batch)
        (scans.take more.length) more ∧
      (part ≠ [] → ∃ s batch, scans[more.length]? = some s ∧
        Decodes o.toOptions s.toScan batch ∧ part <+: batch) ∧
      Delivered o.toOptions c (metIn (batches ++ more) part) r' ∧ Outcome o scans k r' ending := by
  induction scans generalizing r batches with
  | nil =>
    refine ⟨r, none, [], [], 0, rfl, rfl, .nil, fun hne => absurd rfl hne, ?_, ?_⟩
    · rw [List.append_nil, metIn_nil]
      exact h.following.toDelivered
    · exact { single := by rw [h.lines]; exact Nat.zero_le _
              clean := Or.inr fun s hs => absurd hs List.not_mem_nil
              finished := nofun
              deadline := nofun
              more := fun _ => ⟨h.lines, rfl, fun s hs => absurd hs List.not_mem_nil⟩ }
  | cons s scans ih =>
    obtain ⟨r₁, ending, part, hscan, hmet, hprefix, hsingle, hclean, hfinished, hdeadline, hmore⟩ :=
      scanOnce_waits (s := s) hfollow hwait h
    unfold Invocation.run
    simp only [hscan, ok_bind]
    cases ending with
    | some ending =>
      -- the scan in which the wait ends was completed, or it was not
      have hone : ∃ k, r₁.scans = r.scans + k ∧
          (some ending = some (.stop .failed) ∨ ∀ s' ∈ (s :: scans).take k,
            ∃ l, load o.toOptions s'.toScan = .ok (l, none) ∧ Clean l) ∧
          (some ending = some .deadline → k = 1) := by
        rcases hclean with hsame | ⟨hnext, hl⟩
        · refine ⟨0, hsame, Or.inr fun s' hs' => absurd hs' List.not_mem_nil, fun h => ?_⟩
          have hnext := (hdeadline h).2.1
          omega
        · refine ⟨1, hnext, hl.imp_right fun hl s' hs' => ?_, fun _ => rfl⟩
          obtain rfl : s' = s := List.mem_singleton.mp hs'
          exact hl
      obtain ⟨k, hk, hgood, hlast⟩ := hone
      refine ⟨r₁, some ending, [], part, k, rfl, hk, .nil, fun hne => ?_, ?_, ?_⟩
      · obtain ⟨batch, hbatch⟩ := hprefix hne
        exact ⟨s, batch, rfl, hbatch⟩
      · rw [List.append_nil]
        exact hmet
      · exact { single := hsingle
                clean := hgood
                finished := hfinished
                deadline := fun hending => by
                  obtain ⟨hnil, -, hnow⟩ := hdeadline hending
                  refine ⟨hnil, s, ?_, hnow⟩
                  rw [hlast hending]
                  exact List.mem_cons_self
                more := nofun }
    | none =>
      obtain ⟨hearly, batch, hdecodes, hwaiting⟩ := hmore rfl
      obtain ⟨r₂, ending, more, part, k, hrun, hk, hcomplete, hpart, hdelivered, houtcome⟩ :=
        ih hwaiting
      have hscans₁ : r₁.scans = r.scans + 1 := by
        rw [hwaiting.scans, h.scans, List.length_append]
        rfl
      have hcleanly : ∃ l, load o.toOptions s.toScan = .ok (l, none) ∧ Clean l := by
        rcases hclean with hsame | ⟨-, hfailed | hl⟩
        · omega
        · cases hfailed
        · exact hl
      refine ⟨r₂, ending, batch :: more, part, k + 1, hrun, by omega, .cons hdecodes hcomplete, hpart,
        ?_, houtcome.cons hcleanly hearly⟩
      rw [List.append_cons]
      exact hdelivered

theorem toList_find {α : Type} {l : List α} {p : α → Bool} (h : (l.filter p).length ≤ 1) :
    l.filter p = (l.find? p).toList := by
  rw [← List.head?_filter]
  match hl : l.filter p with
  | [] => rfl
  | [a] => rfl
  | a :: b :: rest =>
    rw [hl] at h
    simp only [List.length_cons] at h
    omega

/-- A wanted record was printed, when there is a line. -/
theorem Delivered.wanted_of_line {o : Options} {met : List (ℕ × MergedRecord)} {r : Run}
    {c : Console} {line : Line} (h : Delivered o c met r) (hline : line ∈ r.lines) :
    wanted o line.entry.record = true := by
  have hmem : line.what ∈ r.lines.map Line.what := List.mem_map_of_mem hline
  rw [h.lines] at hmem
  exact (List.mem_filter.mp hmem).2

/-- **The first match.** A wait makes its scans without a fault until it ends. Of the records it
has met, `batches` in complete scans and `part` in the one it stopped in, it has printed the first
wanted one among the first occurrences of each identity, and no other. -/
theorem wait_first (o : Invocation) (h : Coherent o) (hwait : o.waitMs.isSome = true) (c : Console)
    (scans : List TimedScan) :
    ∃ r ending, ∃ batches : List (List MergedRecord), ∃ part : List MergedRecord,
      o.run c scans Run.start = .ok (r, ending) ∧
      List.Forall₂ (fun s batch => Decodes o.toOptions s.toScan batch)
        (scans.take batches.length) batches ∧
      (part ≠ [] → ∃ s batch, scans[batches.length]? = some s ∧
        Decodes o.toOptions s.toScan batch ∧ part <+: batch) ∧
      r.lines.map Line.what = ((fresh metKey [] (metIn batches part)).find? fun x =>
        wanted o.toOptions x.2.record).toList ∧
      Outcome o scans r.scans r ending := by
  have hfollow : o.follow = true := h.waits (Option.isSome_iff_ne_none.mp hwait)
  obtain ⟨r, ending, more, part, k, hrun, hk, hcomplete, hpart, hdelivered, houtcome⟩ :=
    run_waits (c := c) scans hfollow hwait (waiting_start o c)
  obtain rfl : k = r.scans := by
    rw [hk]
    exact (Nat.zero_add k).symm
  rw [List.nil_append] at hdelivered
  refine ⟨r, ending, more, part, hrun, hcomplete, hpart, ?_, houtcome⟩
  rw [hdelivered.lines]
  refine toList_find ?_
  rw [← hdelivered.lines, List.length_map]
  exact houtcome.single

theorem followedBytes_le : followedBytes.length ≤ 176 := by decide +kernel

/-- One scan of the whole segment, half a millisecond after the loop began. -/
def waitedScan : TimedScan where
  toScan := scanFinding (.file 176 followedBytes followedBytes_le)
  clock := fun _ => 500000
  clockAfter := 500000

def waitOptions : Invocation := { Invocation.initial with
  inputs := [literal "logs"]
  waitMs := some 1
  follow := true }

theorem waitOptions_coherent : Coherent waitOptions :=
  { plausible_initial with
    waits := fun _ => rfl
    paths := fun _ hpath => by
      rw [List.mem_singleton.mp hpath]
      decide
    inputs := List.cons_ne_nil _ _
    helpOnly := rfl }

theorem wait_first_found :
    ∃ r ending, ∃ batches : List (List MergedRecord), ∃ part : List MergedRecord,
      waitOptions.run siteConsole [waitedScan] Run.start = .ok (r, ending) ∧
      List.Forall₂ (fun s batch => Decodes waitOptions.toOptions s.toScan batch)
        ([waitedScan].take batches.length) batches ∧
      (part ≠ [] → ∃ s batch, [waitedScan][batches.length]? = some s ∧
        Decodes waitOptions.toOptions s.toScan batch ∧ part <+: batch) ∧
      r.lines.map Line.what = ((fresh metKey [] (metIn batches part)).find? fun x =>
        wanted waitOptions.toOptions x.2.record).toList ∧
      Outcome waitOptions [waitedScan] r.scans r ending :=
  wait_first waitOptions waitOptions_coherent rfl siteConsole [waitedScan]

/-! ### The exit status -/

/-- What an exit status of zero promises of a run that is not a request for help: one complete
pass over what was asked for, or the line that was waited for. -/
def Succeeded (o : Invocation) (scans : List TimedScan) (flushed : Bool) (lines : List Line) :
    Prop :=
  (o.format = .jsonl → flushed = true) ∧
    ((o.follow = false ∧ ∃ s rest l, scans = s :: rest ∧
        load o.toOptions s.toScan = .ok (l, none) ∧ l.anySegmentOpened = true ∧
        s.flushed = true ∧ lines.map Line.what =
          (l.merger.merged.1.filter fun e => wanted o.toOptions e.record).map (Prod.mk 0)) ∨
      (o.waitMs.isSome = true ∧ ∃ line, lines = [line] ∧
        wanted o.toOptions line.entry.record = true))

theorem exitStatus_eq_zero {o : Invocation} {flushed : Bool} {r : Run} {ending : Ending} :
    o.exitStatus flushed r ending = 0 ↔ ending = .stop .finished ∧ r.anySegmentOpened = true ∧
      (o.format = .jsonl → flushed = true) := by
  match ending with
  | .deadline => exact iff_of_false nofun fun h => nomatch h.1
  | .stop .failed => exact iff_of_false nofun fun h => nomatch h.1
  | .stop .budget => exact iff_of_false nofun fun h => nomatch h.1
  | .stop (.cancelled signal) =>
    refine iff_of_false (fun h => ?_) fun h => nomatch h.1
    have hzero : 128 + signal = 0 := h
    omega
  | .stop .finished =>
    unfold Invocation.exitStatus
    cases r.anySegmentOpened with
    | false => exact iff_of_false (by simp) fun h => Bool.false_ne_true h.2.1
    | true =>
      cases flushed with
      | true => exact iff_of_true (by simp) ⟨rfl, rfl, fun _ => rfl⟩
      | false =>
        by_cases hformat : o.format = .jsonl
        · exact iff_of_false (by simp [hformat]) fun h => Bool.false_ne_true (h.2.2 hformat)
        · exact iff_of_true (by simp [hformat]) ⟨rfl, rfl, fun h => absurd h hformat⟩

theorem exitStatus_ne_two {o : Invocation} {flushed : Bool} {r : Run} {ending : Ending} :
    o.exitStatus flushed r ending ≠ 2 := by
  intro h
  match ending with
  | .deadline => cases h
  | .stop .failed => cases h
  | .stop .budget => cases h
  | .stop (.cancelled signal) =>
    have htwo : 128 + signal = 2 := h
    omega
  | .stop .finished =>
    unfold Invocation.exitStatus at h
    split_ifs at h <;> cases h

/-- The loop ends well without `--follow`, or at the line it waits for. -/
theorem run_finished {scans : List TimedScan} {r' : Run}
    (hbudget : r.outputBytes ≤ o.maxOutputBytes.toNat)
    (h : o.run c scans r = .ok (r', some (.stop .finished))) :
    o.follow = false ∨ o.waitMs.isSome = true := by
  induction scans generalizing r with
  | nil => cases h
  | cons s scans ih =>
    obtain ⟨r₁, ending, hscan, hbudget₁, hone⟩ := scanOnce_completes (c := c) (s := s) hbudget
    unfold Invocation.run at h
    simp only [hscan, ok_bind] at h
    cases ending with
    | none => exact ih hbudget₁ h
    | some ending =>
      obtain rfl := Option.some.inj (Prod.mk.inj (Except.ok.inj h)).2
      rcases hone with ⟨why, -, -, hstop, hwhy, -⟩ | ⟨l, new, hcompleted, -⟩
      · exact absurd (Ending.stop.inj (Option.some.inj hstop)).symm hwhy
      · exact (hcompleted.finished rfl).2.imp_right And.left

/-- A run that ends well, with what was read in it. -/
theorem succeeded_of_finished {scans : List TimedScan} {flushed : Bool} (h : Coherent o)
    (hrun : o.run c scans Run.start = .ok (r, some (.stop .finished)))
    (hopened : r.anySegmentOpened = true) (hflushed : o.format = .jsonl → flushed = true) :
    Succeeded o scans flushed r.lines := by
  refine ⟨hflushed, ?_⟩
  cases hwait : o.waitMs.isSome with
  | false =>
    have hfollow : o.follow = false := by
      rcases run_finished (Nat.zero_le _) hrun with hfollow | hsome
      · exact hfollow
      · exact absurd (hwait.symm.trans hsome) Bool.false_ne_true
    obtain ⟨s, rest, l, hscans, hload, hs, hany, hlines⟩ := run_once hfollow hwait hrun
    exact Or.inl ⟨hfollow, s, rest, l, hscans, hload, hany ▸ hopened, hs, hlines⟩
  | true =>
    refine Or.inr ⟨rfl, ?_⟩
    have hfollow : o.follow = true := h.waits (Option.isSome_iff_ne_none.mp hwait)
    obtain ⟨r', ending, more, part, k, hrun', -, -, -, hdelivered, houtcome⟩ :=
      run_waits (c := c) scans hfollow hwait (waiting_start o c)
    obtain ⟨rfl, rfl⟩ := Prod.mk.inj (Except.ok.inj (hrun.symm.trans hrun'))
    obtain ⟨line, hline⟩ := List.length_eq_one_iff.mp (houtcome.finished rfl)
    refine ⟨line, hline, hdelivered.wanted_of_line ?_⟩
    rw [hline]
    exact List.mem_cons_self

/-- **The exit status.** A process ends without a fault, or its loop goes on. It returns 2 exactly
for a command line that is not accepted; and 0 only for a request for help, or behind one complete
pass over a readable segment, or behind the line it waited for. -/
theorem exit_status (argv : List (List UInt8)) (console : OutputFormat → Console)
    (scans : List TimedScan) (flushed : Bool) :
    ∃ exit, main argv console scans flushed = .ok exit ∧ ∀ e, exit = some e →
      (e.status = 2 ↔ ∃ message, parseArguments argv = .error message) ∧
      (e.status = 0 → ∃ o, parseArguments argv = .ok o ∧
        (o.helpOnly = true ∧ e.lines = [] ∨
          o.helpOnly = false ∧ Succeeded o scans flushed e.lines)) := by
  unfold main
  cases hparse : parseArguments argv with
  | error message =>
    refine ⟨_, rfl, fun e he => ?_⟩
    obtain rfl := Option.some.inj he
    exact ⟨iff_of_true rfl ⟨message, rfl⟩, nofun⟩
  | ok o =>
    have hno : ¬∃ message, (Except.ok o : Except (List UInt8) Invocation) = .error message := nofun
    cases hhelp : o.helpOnly with
    | true =>
      simp only [hhelp, if_true]
      refine ⟨_, rfl, fun e he => ?_⟩
      obtain rfl := Option.some.inj he
      exact ⟨iff_of_false nofun hno, fun _ => ⟨o, rfl, Or.inl ⟨hhelp, rfl⟩⟩⟩
    | false =>
      simp only [hhelp, Bool.false_eq_true, if_false]
      have hcoherent := coherent_of_parse hparse hhelp
      obtain ⟨r, ending, loads, hrun, -, -⟩ := run_counts (o := o) (c := console o.format) scans
        counted_start (Nat.zero_le _)
      simp only [hrun, ok_bind]
      cases ending with
      | none => exact ⟨none, rfl, nofun⟩
      | some ending =>
        refine ⟨_, rfl, fun e he => ?_⟩
        obtain rfl := Option.some.inj he
        refine ⟨iff_of_false exitStatus_ne_two hno, fun hzero => ⟨o, rfl, Or.inr ⟨hhelp, ?_⟩⟩⟩
        obtain ⟨rfl, hopened, hflushed⟩ := exitStatus_eq_zero.mp hzero
        exact succeeded_of_finished hcoherent hrun hopened hflushed

end Wait

/-! ### The health object -/

/-- The members of the health object that the loop fills in. The counts are of the last scan that
was completed: records, unreadable and unwritten bytes, undecodable and skipped records. -/
structure Report where
  exitCode : ℤ
  scans : ℤ
  records : Option ℤ
  unreadableBytes : Option ℤ
  unwrittenBytes : Option ℤ
  undecodableRecords : Option ℤ
  skippedRecords : Option ℤ
  emitted : ℤ
  inputErrorSeen : Bool
  deriving DecidableEq

/-- The report of a run, with the loads of the scans it completed. -/
def reportOf (status : ℕ) (loads : List Load) (lines : List Line) : Report where
  exitCode := status
  scans := loads.length
  records := loads.getLast?.map fun l => l.merger.merged.1.length
  unreadableBytes := loads.getLast?.map fun l => l.merger.totals.unreadableBytes.toNat
  unwrittenBytes := loads.getLast?.map fun l => l.merger.totals.unwrittenBytes.toNat
  undecodableRecords := loads.getLast?.map fun l => l.merger.totals.undecodableRecords.toNat
  skippedRecords := loads.getLast?.map fun l => l.merger.totals.skippedRecords.toNat
  emitted := lines.length
  inputErrorSeen := loads.any Load.scanError

/-- A count, or that there is none. -/
def readCount : Json.Value → Option (Option ℤ)
  | .null => some none
  | v => (readString v).map some

/-- A parsed health object. -/
def readHealth (line : List UInt8) : Option Report := do
  let text ← decode line
  let v ← Json.parse text
  let exitCode ← (v.member "exit_code").bind readNumber
  let scans ← (v.member "scans").bind readString
  let records ← (v.member "records").bind readCount
  let unreadable ← (v.member "unreadable_bytes").bind readCount
  let unwritten ← (v.member "unwritten_bytes").bind readCount
  let undecodable ← (v.member "undecodable_records").bind readCount
  let skipped ← (v.member "skipped_records").bind readCount
  let emitted ← (v.member "emitted_records").bind readString
  let inputError ← (v.member "input_error_seen").bind readBool
  return ⟨exitCode, scans, records, unreadable, unwritten, undecodable, skipped, emitted, inputError⟩

/-- The value of a count. -/
def countValue (r : Run) (value : ℕ) : Json.Value :=
  if r.scans = 0 then .null else decimalValue value

def healthValue (status : ℕ) (r : Run) : Json.Value :=
  .object [("schema".toList, .number "1".toList),
    ("kind".toList, .string "health".toList),
    ("exit_code".toList, .number (Json.decimal status)),
    ("scans".toList, decimalValue r.scans),
    ("records".toList, countValue r r.records),
    ("unreadable_bytes".toList, countValue r r.totals.unreadableBytes.toNat),
    ("unwritten_bytes".toList, countValue r r.totals.unwrittenBytes.toNat),
    ("undecodable_records".toList, countValue r r.totals.undecodableRecords.toNat),
    ("skipped_records".toList, countValue r r.totals.skippedRecords.toNat),
    ("emitted_records".toList, decimalValue r.emitted),
    ("input_error_seen".toList, .bool r.inputErrorSeen),
    ("producer_dropped_records".toList, .null)]

/-- The digits that are written are those of the JSON number. -/
theorem encode_decimal (n : ℕ) : encode (Json.decimal n) = written n := by
  have hdigits : Json.decimal (n : ℤ) = Nat.toDigits 10 n := by
    unfold Json.decimal
    rw [if_neg (by omega), Int.natAbs_natCast]
  -- one byte for each digit
  have hbytes : ∀ digits : List Char, (∀ c ∈ digits, c.toNat < 128) →
      encode digits = digits.map fun c => UInt8.ofNat c.toNat := by
    intro digits hascii
    induction digits with
    | nil => rfl
    | cons c digits ih =>
      rw [encode_cons, encodeChar_ascii (hascii c List.mem_cons_self),
        ih fun c hc => hascii c (List.mem_cons_of_mem _ hc)]
      rfl
  have hascii := decimal_ascii n
  rw [hdigits] at hascii
  rw [hdigits]
  exact hbytes _ hascii

theorem encode_count (r : Run) (n : ℕ) : encode (Json.print (countValue r n)) =
    if r.scans = 0 then literal "null" else literal "\x22" ++ written n ++ literal "\x22" := by
  unfold countValue
  by_cases hscans : r.scans = 0
  · rw [if_pos hscans, if_pos hscans]
    rfl
  · rw [if_neg hscans, if_neg hscans, encode_decimalValue, encode_decimal, List.append_assoc]

/-- **What is printed**: the object, and the end of the line. -/
theorem healthJson_eq (status : ℕ) (r : Run) :
    healthJson status r = encode (Json.print (healthValue status r) ++ ['\n']) := by
  -- the literals of the source are the keys with what stands around them
  have hhead : literal "\x7b\x22schema\x22:1,\x22kind\x22:\x22health\x22,\x22exit_code\x22:" =
      literal "\x7b" ++ (memberText ("schema".toList, .number "1".toList) ++
        (literal "," ++ (memberText ("kind".toList, .string "health".toList) ++
          key "exit_code"))) := rfl
  have h_scans : literal ",\x22scans\x22:\x22" = key "scans" ++ literal "\x22" := rfl
  have h_records : literal "\x22,\x22records\x22:" = literal "\x22" ++ key "records" := rfl
  have h_unreadable : literal ",\x22unreadable_bytes\x22:" = key "unreadable_bytes" := rfl
  have h_unwritten : literal ",\x22unwritten_bytes\x22:" = key "unwritten_bytes" := rfl
  have h_undecodable : literal ",\x22undecodable_records\x22:" = key "undecodable_records" := rfl
  have h_skipped : literal ",\x22skipped_records\x22:" = key "skipped_records" := rfl
  have h_emitted : literal ",\x22emitted_records\x22:\x22" =
      key "emitted_records" ++ literal "\x22" := rfl
  have h_error : literal "\x22,\x22input_error_seen\x22:" =
      literal "\x22" ++ key "input_error_seen" := rfl
  have h_end : literal ",\x22producer_dropped_records\x22:null\x7d\n" =
      key "producer_dropped_records" ++ (encode (Json.print .null) ++
        (literal "\x7d" ++ encode ['\n'])) := rfl
  have hbool : (if r.inputErrorSeen = true then literal "true" else literal "false") =
      encode (Json.print (.bool r.inputErrorSeen)) := by
    cases r.inputErrorSeen <;> rfl
  unfold healthJson healthValue
  rw [encode_append, encode_object]
  simp only [List.flatMap_cons, List.flatMap_nil, List.append_nil, memberText, print_number,
    encode_decimalValue, encode_decimal, encode_count, hhead, h_scans, h_records, h_unreadable,
    h_unwritten, h_undecodable, h_skipped, h_emitted, h_error, h_end, hbool, key,
    List.append_assoc]

theorem countValue_wellFormed (r : Run) (n : ℕ) : (countValue r n).wellFormed = true := by
  unfold countValue
  by_cases hscans : r.scans = 0
  · rw [if_pos hscans]
    rfl
  · rw [if_neg hscans]
    rfl

theorem healthValue_wellFormed (status : ℕ) (r : Run) :
    (healthValue status r).wellFormed = true := by
  have hnumber : (Json.Value.number (Json.decimal status)).wellFormed = true :=
    Json.isNumber_decimal status
  have hone : (Json.Value.number "1".toList).wellFormed = true := by
    show Json.isNumber "1".toList = true
    decide
  have hstring : ∀ n : ℤ, (decimalValue n).wellFormed = true := fun n => rfl
  have hkind : (Json.Value.string "health".toList).wellFormed = true := rfl
  have hbool : ∀ b : Bool, (Json.Value.bool b).wellFormed = true := fun b => rfl
  have hnull : Json.Value.null.wellFormed = true := rfl
  have hobject : ∀ members, (Json.Value.object members).wellFormed = Json.membersWellFormed members :=
    fun members => rfl
  unfold healthValue
  simp only [hobject, Json.membersWellFormed, hone, hkind, hnumber, hstring, hbool, hnull,
    countValue_wellFormed, Bool.and_self]

/-- A value is read back in front of the end of its line. -/
theorem parse_line {v : Json.Value} (h : v.wellFormed = true) :
    Json.parse (Json.print v ++ ['\n']) = some v := by
  have hparse := Json.parseValue_print v ((Json.print v ++ ['\n']).length + 1) ['\n'] h
    (by rw [List.length_append]; omega) (Json.ends_cons _ (by decide))
  unfold Json.parse
  rw [hparse]
  rfl

theorem readCount_countValue {r : Run} {n : ℕ} {last : Option ℕ}
    (hnone : r.scans = 0 → last = none) (hsome : r.scans ≠ 0 → last = some n) :
    readCount (countValue r n) = some (last.map fun n : ℕ => (n : ℤ)) := by
  unfold countValue
  by_cases hscans : r.scans = 0
  · rw [if_pos hscans, hnone hscans]
    rfl
  · rw [if_neg hscans, hsome hscans]
    exact congrArg (Option.map some) (readString_decimalValue n)

/-- **What is read back** is the report of the scans that were counted. -/
theorem readHealth_healthJson {loads : List Load} {r : Run} (status : ℕ) (h : Counted loads r) :
    readHealth (healthJson status r) = some (reportOf status loads r.lines) := by
  have hcount : ∀ (f : Load → ℕ) (n : ℕ), n = (loads.getLast?.map f).getD 0 →
      readCount (countValue r n) = some (loads.getLast?.map fun l => (f l : ℤ)) := by
    intro f n hn
    have hmap : (loads.getLast?.map fun l => (f l : ℤ)) =
        (loads.getLast?.map f).map fun n : ℕ => (n : ℤ) := (Option.map_map _ _ _).symm
    rw [hmap]
    refine readCount_countValue (fun hzero => ?_) fun hne => ?_
    · have hnil : loads = [] := List.length_eq_zero_iff.mp (h.scans ▸ hzero)
      rw [hnil]
      rfl
    · have hlast : loads.getLast? ≠ none := by
        rw [ne_eq, List.getLast?_eq_none_iff]
        rintro rfl
        exact hne h.scans
      obtain ⟨l, hl⟩ := Option.ne_none_iff_exists'.mp hlast
      rw [hn, hl]
      rfl
  have htotals : ∀ f : Totals → ℕ, f ⟨0, 0, 0, 0⟩ = 0 →
      f r.totals = (loads.getLast?.map fun l => f l.merger.totals).getD 0 := by
    intro f hf
    rw [h.totals]
    cases loads.getLast? with
    | none => exact hf
    | some l => rfl
  set v := healthValue status r with hv
  have h₁ : (v.member "exit_code").bind readNumber = some (status : ℤ) :=
    Json.decimal_readDecimal _
  have h₂ : (v.member "scans").bind readString = some (loads.length : ℤ) := by
    rw [← h.scans]
    exact readString_decimalValue _
  have h₃ : (v.member "records").bind readCount = _ :=
    hcount (fun l => l.merger.merged.1.length) r.records h.records
  have h₄ : (v.member "unreadable_bytes").bind readCount = _ :=
    hcount (fun l => l.merger.totals.unreadableBytes.toNat) _
      (htotals (fun t => t.unreadableBytes.toNat) rfl)
  have h₅ : (v.member "unwritten_bytes").bind readCount = _ :=
    hcount (fun l => l.merger.totals.unwrittenBytes.toNat) _
      (htotals (fun t => t.unwrittenBytes.toNat) rfl)
  have h₆ : (v.member "undecodable_records").bind readCount = _ :=
    hcount (fun l => l.merger.totals.undecodableRecords.toNat) _
      (htotals (fun t => t.undecodableRecords.toNat) rfl)
  have h₇ : (v.member "skipped_records").bind readCount = _ :=
    hcount (fun l => l.merger.totals.skippedRecords.toNat) _
      (htotals (fun t => t.skippedRecords.toNat) rfl)
  have h₈ : (v.member "emitted_records").bind readString = some (r.lines.length : ℤ) := by
    rw [← h.emitted]
    exact readString_decimalValue _
  have h₉ : (v.member "input_error_seen").bind readBool = some (loads.any Load.scanError) :=
    congrArg some h.errors
  unfold readHealth
  rw [healthJson_eq, decode_encode]
  show (Json.parse _ >>= _) = _
  rw [parse_line (healthValue_wellFormed status r)]
  show ((healthValue status r).member "exit_code").bind readNumber >>= _ = _
  rw [← hv, h₁, h₂, h₃, h₄, h₅, h₆, h₇, h₈, h₉]
  rfl

end Sub0Log.Cat
