import Sub0Log.Library.FirstSeen
import Sub0Log.Reader.Merge

/-!
# Following segments

The main loop of `sub0log-cat` (`run` in `sub0log_cat.cpp`), without the finite wait of
`--wait-ms`. A scan collects the segment files, reads them, merges what they decode to, and
prints the records it has not seen in an earlier scan. What a scan meets in the file system,
which signals arrive and whether output succeeds is its `Scan`; nothing relates one scan to
the next, so files may grow, move, be cut, vanish and return between two of them. How a
record is written as text or JSON is a parameter (`Console`).

`printAll_delivers` is the step: the records of one scan, one after the other, take the
lines printed so far to those of the first occurrences among all records met so far.
**`follow_once`** is the result over any sequence of scans.
-/

open Bytes Checked FirstSeen

namespace Sub0Log.Cat

open Wire Reader

/-! ### Options -/

/-- The options the loop reads. -/
structure Options where
  minimum : UInt8
  subsystems : List UInt32
  correlation : Option UInt64
  argUint : Option (Nat × UInt64)
  maxInputBytes : UInt64
  maxOutputBytes : UInt64
  maxRecords : UInt64
  maxFiles : UInt64
  follow : Bool

/-- `atLeast`. -/
def atLeast (value threshold : UInt8) : Bool := decide (threshold ≤ value)

/-- The argument `--arg-uint` asks for: unsigned, and of that value. -/
def hasArg (record : DecodedRecord) (index : Nat) (value : UInt64) : Bool :=
  match record.args[index]? with
  | none => false
  | some arg =>
    match record.site.argTypes[index]? with
    | some .u8 | some .u16 | some .u32 | some .u64 => decide (arg = .u64 value)
    | _ => false

/-- `wanted`. -/
def wanted (o : Options) (record : DecodedRecord) : Bool :=
  atLeast record.site.severity o.minimum &&
    (match o.correlation with
      | none => true
      | some id => decide (record.correlationId = id)) &&
    (o.subsystems.isEmpty || o.subsystems.contains record.site.subsystem) &&
    match o.argUint with
    | none => true
    | some (index, value) => hasArg record index value

/-! ### Files -/

/-- A path: the names along it. -/
structure Path where
  absolute : Bool
  names : List (List UInt8)
  deriving DecidableEq, Repr

namespace Path

/-- `path::extension`: from the last dot of the file name, which is not its first byte. -/
def extension (p : Path) : List UInt8 :=
  match p.names.getLast? with
  | none => []
  | some name =>
    let stem := (name.reverse.dropWhile (· ≠ 46)).drop 1
    if name = [46, 46] ∨ stem = [] then []
    else 46 :: (name.reverse.takeWhile (· ≠ 46)).reverse

/-- The order of `std::filesystem::path`: name by name, relative paths first. -/
def le (a b : Path) : Bool :=
  if a.absolute = b.absolute then decide (a.names ≤ b.names) else b.absolute

end Path

/-- `.s0l`. -/
def cSegmentExtension : List UInt8 := [46, 115, 48, 108]

/-- Why the loop ends. -/
inductive Stop
  | finished
  | failed
  | budget
  | cancelled (signal : Nat)
  deriving DecidableEq, Repr

/-- What the file system shows of an input: a directory with its entries, or that it could
not be listed, or anything else. -/
inductive Input
  | directory (entries : Option (List Path))
  | other (path : Path)

/-- What opening a file finds: no file of a known size, or the bytes a read of that size
yields, which are fewer when the file has been cut meanwhile. -/
inductive Found
  | missing
  | file (size : Nat) (bytes : List UInt8) (h : bytes.length ≤ size)

/-- What one scan meets: the inputs, what the `i`-th file that is opened is, the signal that
has arrived by its `j`-th check, whether the line of the `j`-th record can be written, and
whether the output can be flushed. -/
structure Scan where
  inputs : List Input
  found : Nat → Path → Found
  cancelled : Nat → Option Nat
  written : Nat → Bool
  flushed : Bool

/-- The entries of a directory that are segments. -/
def collectDirectory (o : Options) : List Path → List Path → Except Stop (List Path)
  | paths, [] => .ok paths
  | paths, entry :: entries =>
    if entry.extension = cSegmentExtension then
      if o.maxFiles.toNat ≤ paths.length then .error .budget
      else collectDirectory o (paths ++ [entry]) entries
    else collectDirectory o paths entries

def collectInputs (o : Options) : List Path → List Input → Except Stop (List Path)
  | paths, [] => .ok paths
  | _, .directory none :: _ => .error .failed
  | paths, .directory (some entries) :: inputs => do
    let paths ← collectDirectory o paths entries
    collectInputs o paths inputs
  | paths, .other path :: inputs =>
    if o.maxFiles.toNat ≤ paths.length then .error .budget
    else collectInputs o (paths ++ [path]) inputs

/-- `collectSegments`. -/
def collectSegments (o : Options) (inputs : List Input) : Except Stop (List Path) := do
  let paths ← collectInputs o [] inputs
  return paths.mergeSort Path.le

/-! ### Reading -/

/-- The largest `size_t`, and the largest `streamsize`. -/
def cSizeMax : Nat := 2 ^ 64 - 1
def cStreamMax : Nat := 2 ^ 63 - 1

/-- The files of a scan, read so far. `bytesRead` is what was read, for stating properties. -/
structure Load where
  merger : Merger
  remainingBytes : Nat
  scanError : Bool
  anySegmentOpened : Bool
  bytesRead : Nat

def Load.start (o : Options) : Load := ⟨Merger.empty, o.maxInputBytes.toNat, false, false, 0⟩

/-- `slurp` and `addSegment` of one file. -/
def loadFile (found : Found) (l : Load) : Checked (Load × Option Stop) :=
  match found with
  | .missing => return ({ l with scanError := true }, none)
  | .file size bytes _ =>
    if hsize : l.remainingBytes < size ∨ cSizeMax < size ∨ cStreamMax < size then
      return (l, some .budget)
    else do
      let remaining ← sub64 l.remainingBytes size
      let l := { l with remainingBytes := remaining, bytesRead := l.bytesRead + bytes.length }
      if bytes.length < size then
        return ({ l with scanError := true }, none)
      else do
        let (merger, error) ← l.merger.addSegment
          ⟨bytes, by unfold cStreamMax at hsize; omega⟩
        match error with
        | some _ => return ({ l with scanError := true }, none)
        | none => return ({ l with merger := merger, anySegmentOpened := true }, none)

def loadFiles (s : Scan) : Nat → List Path → Load → Checked (Load × Option Stop)
  | _, [], l => return (l, none)
  | i, path :: paths, l => do
    let (l, stop) ← loadFile (s.found i path) l
    match stop with
    | some stop => return (l, some stop)
    | none => loadFiles s (i + 1) paths l

/-- The part of a scan that reads. -/
def load (o : Options) (s : Scan) : Checked (Load × Option Stop) :=
  match collectSegments o s.inputs with
  | .error stop => return (Load.start o, some stop)
  | .ok paths => loadFiles s 0 paths (Load.start o)

/-! ### Printing -/

/-- How a record becomes a line, given the names of the subsystems, or that it cannot, and
whether stdout is a Windows text stream. -/
structure Console where
  line : (UInt32 → List UInt8) → MergedRecord → Option (List UInt8)
  windows : Bool

/-- What a line costs on stdout: there each LF becomes CRLF. -/
def Console.encodedBytes (c : Console) (line : List UInt8) : Nat :=
  line.length + if c.windows then line.count 10 else 0

/-- The identity of a record: process id, generation, offset. -/
abbrev Key : Type := UInt64 × UInt64 × Nat

def keyOf (entry : MergedRecord) : Key :=
  (entry.processId, entry.record.segmentGeneration, entry.record.recordOffset)

/-- A line that was printed, of which record and in which scan. -/
structure Line where
  scan : Nat
  entry : MergedRecord
  bytes : List UInt8

/-- What the loop keeps from scan to scan, the counters of `Health`, and for stating
properties the lines printed and the bytes each scan has read. -/
structure Run where
  seen : List Key
  anySegmentOpened : Bool
  outputBytes : Nat
  scans : Nat
  records : Nat
  emitted : Nat
  inputErrorSeen : Bool
  totals : Totals
  lines : List Line
  bytesRead : List Nat

def Run.start : Run := ⟨[], false, 0, 0, 0, 0, false, ⟨0, 0, 0, 0⟩, [], []⟩

section Loop

variable (o : Options) (c : Console) (s : Scan)

/-- The line of the `j`-th record of scan `i`. -/
def printLine (names : UInt32 → List UInt8) (i j : Nat) (entry : MergedRecord) (r : Run) :
    Checked (Run × Option Stop) :=
  if wanted o entry.record = false then return (r, none)
  else
    match c.line names entry with
    | none => return (r, some .failed)
    | some line => do
      let left ← sub64 o.maxOutputBytes.toNat r.outputBytes
      if left < c.encodedBytes line then
        return (r, some .budget)
      let r := { r with outputBytes := r.outputBytes + c.encodedBytes line }
      if s.written j = false then
        return (r, some .failed)
      return ({ r with lines := r.lines ++ [⟨i, entry, line⟩], emitted := r.emitted + 1 }, none)

/-- The `j`-th record of scan `i`. -/
def printRecord (names : UInt32 → List UInt8) (i j : Nat) (entry : MergedRecord) (r : Run) :
    Checked (Run × Option Stop) :=
  match s.cancelled (j + 1) with
  | some signal => return (r, some (.cancelled signal))
  | none =>
    if o.follow then
      if keyOf entry ∈ r.seen then return (r, none)
      else if o.maxRecords.toNat ≤ r.seen.length then return (r, some .budget)
      else printLine o c s names i j entry { r with seen := r.seen ++ [keyOf entry] }
    else printLine o c s names i j entry r

def printAll (names : UInt32 → List UInt8) (i : Nat) : Nat → List MergedRecord → Run →
    Checked (Run × Option Stop)
  | _, [], r => return (r, none)
  | j, entry :: entries, r => do
    let (r, stop) ← printRecord o c s names i j entry r
    match stop with
    | some stop => return (r, some stop)
    | none => printAll names i (j + 1) entries r

/-- One iteration of the loop. -/
def scanOnce (r : Run) : Checked (Run × Option Stop) :=
  match s.cancelled 0 with
  | some signal => return (r, some (.cancelled signal))
  | none => do
    let (l, stop) ← load o s
    let r := { r with
      anySegmentOpened := r.anySegmentOpened || l.anySegmentOpened
      bytesRead := r.bytesRead ++ [l.bytesRead] }
    match stop with
    | some stop => return (r, some stop)
    | none =>
      let merged := l.merger.merged.1
      if o.maxRecords.toNat < merged.length then
        return (r, some .budget)
      let i := r.scans
      let r := { r with
        scans := i + 1
        records := merged.length
        totals := l.merger.totals
        inputErrorSeen := r.inputErrorSeen || l.scanError }
      let (r, stop) ← printAll o c s l.merger.subsystemName i 0 merged r
      match stop with
      | some stop => return (r, some stop)
      | none =>
        if s.flushed = false then return (r, some .failed)
        else return (r, if o.follow then none else some .finished)

end Loop

/-- The loop over the scans it comes to make. -/
def run (o : Options) (c : Console) : List Scan → Run → Checked (Run × Option Stop)
  | [], r => return (r, none)
  | s :: scans, r => do
    let (r, stop) ← scanOnce o c s r
    match stop with
    | some stop => return (r, some stop)
    | none => run o c scans r

/-! ### What a scan reads -/

/-- A file is read or refused, and what is read comes out of the budget. -/
theorem loadFile_reads (found : Found) (l : Load) :
    ∃ l' stop, loadFile found l = .ok (l', stop) ∧
      l'.bytesRead + l'.remainingBytes ≤ l.bytesRead + l.remainingBytes := by
  unfold loadFile
  cases found with
  | missing => exact ⟨_, _, rfl, Nat.le_refl _⟩
  | file size bytes h =>
    by_cases hsize : l.remainingBytes < size ∨ cSizeMax < size ∨ cStreamMax < size
    · exact ⟨l, some .budget, by simp only [dif_pos hsize]; rfl, Nat.le_refl _⟩
    have hle : size ≤ l.remainingBytes := by omega
    have hreads : l.bytesRead + bytes.length + (l.remainingBytes - size) ≤
        l.bytesRead + l.remainingBytes := by omega
    simp only [dif_neg hsize, sub64_eq hle, ok_bind]
    by_cases hcut : bytes.length < size
    · -- the file was cut while it was read
      simp only [if_pos hcut]
      refine ⟨_, _, rfl, ?_⟩
      exact hreads
    · simp only [if_neg hcut]
      obtain ⟨m, error, hadd⟩ := l.merger.addSegment_ok
        ⟨bytes, by unfold cStreamMax at hsize; omega⟩
      simp only [hadd, ok_bind]
      cases error with
      | some _ =>
        refine ⟨_, _, rfl, ?_⟩
        exact hreads
      | none =>
        refine ⟨_, _, rfl, ?_⟩
        exact hreads

theorem loadFiles_reads (s : Scan) (i : Nat) (paths : List Path) (l : Load) :
    ∃ l' stop, loadFiles s i paths l = .ok (l', stop) ∧
      l'.bytesRead + l'.remainingBytes ≤ l.bytesRead + l.remainingBytes := by
  induction paths generalizing i l with
  | nil => exact ⟨l, none, rfl, Nat.le_refl _⟩
  | cons path paths ih =>
    obtain ⟨l₁, stop, hfile, hreads⟩ := loadFile_reads (s.found i path) l
    unfold loadFiles
    simp only [hfile, ok_bind]
    cases stop with
    | some stop => exact ⟨l₁, some stop, rfl, hreads⟩
    | none =>
      obtain ⟨l₂, stop, hfiles, hreads'⟩ := ih (i + 1) l₁
      exact ⟨l₂, stop, hfiles, hreads'.trans hreads⟩

/-- **The input budget holds for every scan**, whatever the files are. -/
theorem load_reads (o : Options) (s : Scan) :
    ∃ l stop, load o s = .ok (l, stop) ∧ l.bytesRead ≤ o.maxInputBytes.toNat := by
  unfold load
  cases collectSegments o s.inputs with
  | error stop => exact ⟨Load.start o, some stop, rfl, Nat.zero_le _⟩
  | ok paths =>
    obtain ⟨l, stop, hfiles, hreads⟩ := loadFiles_reads s 0 paths (Load.start o)
    refine ⟨l, stop, hfiles, ?_⟩
    calc l.bytesRead ≤ l.bytesRead + l.remainingBytes := Nat.le_add_right _ _
      _ ≤ 0 + o.maxInputBytes.toNat := hreads
      _ = o.maxInputBytes.toNat := Nat.zero_add _

/-- The records a scan decodes, in the order of its timeline. -/
def Decodes (o : Options) (s : Scan) (batch : List MergedRecord) : Prop :=
  ∃ l, load o s = .ok (l, none) ∧ batch = l.merger.merged.1

/-! ### What is printed -/

/-- The record of a line, with the scan that printed it. -/
def Line.what (line : Line) : Nat × MergedRecord := (line.scan, line.entry)

/-- The identity of a record that a scan has met. -/
def metKey (x : Nat × MergedRecord) : Key := keyOf x.2

/-- The output after the records `met`, within the budgets. -/
structure Delivered (o : Options) (c : Console) (met : List (Nat × MergedRecord)) (r : Run) :
    Prop where
  lines : r.lines.map Line.what =
    (fresh metKey [] met).filter fun x => wanted o x.2.record
  text : ∀ line ∈ r.lines, ∃ names, c.line names line.entry = some line.bytes
  printed : (r.lines.map fun line => c.encodedBytes line.bytes).sum ≤ r.outputBytes
  output : r.outputBytes ≤ o.maxOutputBytes.toNat
  kept : r.seen.length ≤ o.maxRecords.toNat
  input : ∀ n ∈ r.bytesRead, n ≤ o.maxInputBytes.toNat

/-- Between two records, the cursor knows those met so far. -/
structure Following (o : Options) (c : Console) (met : List (Nat × MergedRecord)) (r : Run) :
    Prop extends Delivered o c met r where
  seen : r.seen = remember metKey [] met

section Steps

variable {o : Options} {c : Console} {s : Scan} {names : UInt32 → List UInt8} {r : Run}
variable {met : List (Nat × MergedRecord)} {i j : Nat} {entry : MergedRecord}

theorem following_start (o : Options) (c : Console) : Following o c [] Run.start where
  lines := rfl
  text := fun _ h => absurd h List.not_mem_nil
  printed := Nat.le_refl _
  output := Nat.zero_le _
  kept := Nat.zero_le _
  input := fun _ h => absurd h List.not_mem_nil
  seen := rfl

/-- A record of a key that was met changes nothing. -/
theorem Following.again (h : Following o c met r) (hmem : keyOf entry ∈ r.seen) :
    Following o c (met ++ [(i, entry)]) r := by
  have hkey : metKey (i, entry) ∈ remember metKey [] met := h.seen ▸ hmem
  have hfresh : fresh metKey [] (met ++ [(i, entry)]) = fresh metKey [] met := by
    rw [fresh_append, fresh_cons_of_mem hkey, fresh_nil, List.append_nil]
  refine ⟨{ h.toDelivered with lines := ?_ }, ?_⟩
  · rw [hfresh]
    exact h.lines
  · rw [h.seen, remember_append, remember_cons_of_mem hkey, remember_nil]

/-- The first entry of a key is due when it is wanted. -/
theorem Following.first (h : Following o c met r) (hmem : keyOf entry ∉ r.seen) :
    (fresh metKey [] (met ++ [(i, entry)])).filter (fun x => wanted o x.2.record) =
        r.lines.map Line.what ++ (if wanted o entry.record then [(i, entry)] else []) ∧
      remember metKey [] (met ++ [(i, entry)]) = r.seen ++ [keyOf entry] := by
  have hkey : metKey (i, entry) ∉ remember metKey [] met := h.seen ▸ hmem
  constructor
  · rw [fresh_append, fresh_cons_of_not_mem hkey, fresh_nil, List.filter_append, ← h.lines,
      List.filter_singleton, Bool.cond_eq_ite]
  · rw [remember_append, remember_cons_of_not_mem hkey, remember_nil, ← h.seen]
    rfl

/-- The first entry of a key: its line is printed if it is wanted, or the loop stops and it
is not. -/
theorem printLine_delivers (h : Following o c met r) (hmem : keyOf entry ∉ r.seen)
    (hroom : r.seen.length < o.maxRecords.toNat) :
    ∃ r' stop, printLine o c s names i j entry { r with seen := r.seen ++ [keyOf entry] } =
        .ok (r', stop) ∧ r'.scans = r.scans ∧
      (stop = none → Following o c (met ++ [(i, entry)]) r') ∧
      (stop ≠ none → Delivered o c met r') := by
  obtain ⟨hlines, hseen⟩ := h.first (i := i) hmem
  have hkept : (r.seen ++ [keyOf entry]).length ≤ o.maxRecords.toNat := by
    rw [List.length_append]
    exact hroom
  -- the key is kept in any case
  have hstay : Delivered o c met { r with seen := r.seen ++ [keyOf entry] } :=
    { h.toDelivered with kept := hkept }
  unfold printLine
  cases hwanted : wanted o entry.record with
  | false =>
    refine ⟨_, none, rfl, rfl, fun _ => ?_, fun hne => absurd rfl hne⟩
    refine ⟨{ hstay with lines := ?_ }, hseen.symm⟩
    rw [hlines, hwanted]
    exact (List.append_nil _).symm
  | true =>
    simp only [Bool.true_eq_false, if_false]
    cases hline : c.line names entry with
    | none => exact ⟨_, _, rfl, rfl, (fun hne => by cases hne), fun _ => hstay⟩
    | some line =>
      simp only [sub64_eq h.output, ok_bind]
      by_cases hleft : o.maxOutputBytes.toNat - r.outputBytes < c.encodedBytes line
      · simp only [if_pos hleft]
        exact ⟨_, _, rfl, rfl, (fun hne => by cases hne), fun _ => hstay⟩
      have houtput : r.outputBytes + c.encodedBytes line ≤ o.maxOutputBytes.toNat := by
        have := h.output
        omega
      simp only [if_neg hleft]
      cases hwritten : s.written j with
      | false =>
        -- counted but not written
        refine ⟨_, _, rfl, rfl, (fun hne => by cases hne), fun _ => ?_⟩
        exact { hstay with output := houtput, printed := h.printed.trans (Nat.le_add_right _ _) }
      | true =>
        refine ⟨_, none, rfl, rfl, fun _ => ?_, fun hne => absurd rfl hne⟩
        refine ⟨{ lines := ?_, text := ?_, printed := ?_, output := houtput, kept := hkept,
                  input := h.input }, hseen.symm⟩
        · rw [hlines, hwanted]
          exact List.map_append
        · intro l hl
          rcases List.mem_append.mp hl with hl | hl
          · exact h.text l hl
          · rw [List.mem_singleton.mp hl]
            exact ⟨names, hline⟩
        · simp only [List.map_append, List.sum_append, List.map_cons, List.map_nil,
            List.sum_singleton]
          exact Nat.add_le_add_right h.printed _

/-- One record. -/
theorem printRecord_delivers (names : UInt32 → List UInt8) (entry : MergedRecord)
    (hfollow : o.follow = true) (h : Following o c met r) :
    ∃ r' stop, printRecord o c s names i j entry r = .ok (r', stop) ∧ r'.scans = r.scans ∧
      (stop = none → Following o c (met ++ [(i, entry)]) r') ∧
      (stop ≠ none → Delivered o c met r') := by
  unfold printRecord
  cases s.cancelled (j + 1) with
  | some signal => exact ⟨r, _, rfl, rfl, (fun hne => by cases hne), fun _ => h.toDelivered⟩
  | none =>
    simp only [hfollow, if_true]
    by_cases hmem : keyOf entry ∈ r.seen
    · simp only [if_pos hmem]
      exact ⟨r, none, rfl, rfl, fun _ => h.again hmem, fun hne => absurd rfl hne⟩
    by_cases hroom : o.maxRecords.toNat ≤ r.seen.length
    · simp only [if_neg hmem, if_pos hroom]
      exact ⟨r, _, rfl, rfl, (fun hne => by cases hne), fun _ => h.toDelivered⟩
    · simp only [if_neg hmem, if_neg hroom]
      exact printLine_delivers h hmem (Nat.lt_of_not_le hroom)

/-- **The records of a scan**: they are met one after the other, all of them unless the loop
stops among them. -/
theorem printAll_delivers (names : UInt32 → List UInt8) (hfollow : o.follow = true)
    (entries : List MergedRecord)
    (h : Following o c met r) :
    ∃ r' stop, printAll o c s names i j entries r = .ok (r', stop) ∧ r'.scans = r.scans ∧
      (stop = none → Following o c (met ++ entries.map (Prod.mk i)) r') ∧
      (stop ≠ none → ∃ part, part <+: entries ∧
        Delivered o c (met ++ part.map (Prod.mk i)) r') := by
  induction entries generalizing met j r with
  | nil =>
    refine ⟨r, none, rfl, rfl, fun _ => ?_, fun hne => absurd rfl hne⟩
    rw [List.map_nil, List.append_nil]
    exact h
  | cons entry entries ih =>
    obtain ⟨r₁, stop, hrecord, hscans, hnext, hstop⟩ :=
      printRecord_delivers (s := s) (i := i) (j := j) names entry hfollow h
    unfold printAll
    simp only [hrecord, ok_bind]
    cases stop with
    | some stop =>
      refine ⟨r₁, some stop, rfl, hscans, (fun hne => by cases hne), fun hne => ?_⟩
      refine ⟨[], List.nil_prefix, ?_⟩
      rw [List.map_nil, List.append_nil]
      exact hstop hne
    | none =>
      obtain ⟨r₂, stop, hall, hscans', hnext', hstop'⟩ := ih (j := j + 1) (hnext rfl)
      refine ⟨r₂, stop, hall, hscans'.trans hscans, fun hnone => ?_, fun hne => ?_⟩
      · rw [List.map_cons, List.append_cons]
        exact hnext' hnone
      · obtain ⟨part, hpart, hdelivered⟩ := hstop' hne
        refine ⟨entry :: part, List.cons_prefix_cons.mpr ⟨rfl, hpart⟩, ?_⟩
        rw [List.map_cons, List.append_cons]
        exact hdelivered

end Steps

/-! ### Runs -/

/-- The records met in complete scans, and in the one the loop stopped in. -/
def metIn (batches : List (List MergedRecord)) (part : List MergedRecord) :
    List (Nat × MergedRecord) :=
  occurrences batches ++ part.map (Prod.mk batches.length)

section Runs

variable {o : Options} {c : Console} {s : Scan} {r : Run} {batches : List (List MergedRecord)}

theorem metIn_nil : metIn batches [] = occurrences batches := List.append_nil _

theorem metIn_concat (batch : List MergedRecord) :
    occurrences (batches ++ [batch]) = metIn batches batch := occurrences_concat _ _

/-- One scan: all its records are met, or the loop stops before or among them. -/
theorem scanOnce_delivers (hfollow : o.follow = true)
    (h : Following o c (occurrences batches) r) (hscans : r.scans = batches.length) :
    ∃ r' stop, scanOnce o c s r = .ok (r', stop) ∧
      (stop = none → ∃ batch, Decodes o s batch ∧ r'.scans = r.scans + 1 ∧
        Following o c (occurrences (batches ++ [batch])) r') ∧
      (stop ≠ none → ∃ part, (part ≠ [] → ∃ batch, Decodes o s batch ∧ part <+: batch) ∧
        Delivered o c (metIn batches part) r') := by
  unfold scanOnce
  -- a stop before the first record leaves what was printed as it is
  have hbefore : ∀ r', Delivered o c (occurrences batches) r' →
      ∃ part, (part ≠ [] → ∃ batch, Decodes o s batch ∧ part <+: batch) ∧
        Delivered o c (metIn batches part) r' := by
    intro r' hr'
    refine ⟨[], fun hne => absurd rfl hne, ?_⟩
    rw [metIn_nil]
    exact hr'
  cases s.cancelled 0 with
  | some signal => exact ⟨r, _, rfl, (fun hne => by cases hne), fun _ => hbefore r h.toDelivered⟩
  | none =>
    obtain ⟨l, stop, hload, hreads⟩ := load_reads o s
    simp only [hload, ok_bind]
    have hinput : ∀ n ∈ r.bytesRead ++ [l.bytesRead], n ≤ o.maxInputBytes.toNat := by
      intro n hn
      rcases List.mem_append.mp hn with hn | hn
      · exact h.input n hn
      · rw [List.mem_singleton.mp hn]
        exact hreads
    cases stop with
    | some stop =>
      refine ⟨_, some stop, rfl, (fun hne => by cases hne), fun _ => hbefore _ ?_⟩
      exact { h.toDelivered with input := hinput }
    | none =>
      by_cases hmany : o.maxRecords.toNat < l.merger.merged.1.length
      · simp only [if_pos hmany]
        refine ⟨_, _, rfl, (fun hne => by cases hne), fun _ => hbefore _ ?_⟩
        exact { h.toDelivered with input := hinput }
      simp only [if_neg hmany]
      have hdecodes : Decodes o s l.merger.merged.1 := ⟨l, hload, rfl⟩
      have hstart : Following o c (occurrences batches)
          { r with
            anySegmentOpened := r.anySegmentOpened || l.anySegmentOpened
            bytesRead := r.bytesRead ++ [l.bytesRead]
            scans := r.scans + 1
            records := l.merger.merged.1.length
            totals := l.merger.totals
            inputErrorSeen := r.inputErrorSeen || l.scanError } :=
        { h with input := hinput }
      obtain ⟨r', stop, hall, hscans', hnext, hstop⟩ :=
        printAll_delivers (s := s) (i := r.scans) (j := 0) l.merger.subsystemName hfollow
          l.merger.merged.1 hstart
      simp only [hall, ok_bind]
      cases stop with
      | some stop =>
        refine ⟨r', some stop, rfl, (fun hne => by cases hne), fun hne => ?_⟩
        obtain ⟨part, hpart, hdelivered⟩ := hstop hne
        rw [hscans] at hdelivered
        exact ⟨part, fun _ => ⟨_, hdecodes, hpart⟩, hdelivered⟩
      | none =>
        have hmet := hnext rfl
        rw [hscans] at hmet
        cases s.flushed with
        | false =>
          exact ⟨r', _, rfl, (fun hne => by cases hne),
            fun _ => ⟨_, fun _ => ⟨_, hdecodes, List.prefix_refl _⟩, hmet.toDelivered⟩⟩
        | true =>
          refine ⟨r', none, by simp only [hfollow]; rfl, fun _ => ?_, fun hne => absurd rfl hne⟩
          refine ⟨_, hdecodes, hscans', ?_⟩
          rw [metIn_concat]
          exact hmet

/-- What is printed of the records met: of each key the first, if it is wanted. -/
theorem Delivered.of_key {met : List (Nat × MergedRecord)} (h : Delivered o c met r) (k : Key) :
    (r.lines.map Line.what).filter (fun x => metKey x = k) =
      (met.find? fun x => metKey x = k).toList.filter fun x => wanted o x.2.record := by
  rw [h.lines, List.filter_comm, filter_fresh, if_neg List.not_mem_nil]

theorem Delivered.in_order {met : List (Nat × MergedRecord)} (h : Delivered o c met r) :
    (r.lines.map Line.what).Sublist met := by
  rw [h.lines]
  exact List.filter_sublist.trans fresh_sublist

/-- From any point between two scans. -/
theorem run_delivers (hfollow : o.follow = true) (scans : List Scan)
    (h : Following o c (occurrences batches) r) (hscans : r.scans = batches.length) :
    ∃ r' stop, ∃ more : List (List MergedRecord), ∃ part : List MergedRecord,
      run o c scans r = .ok (r', stop) ∧
      List.Forall₂ (Decodes o) (scans.take more.length) more ∧
      (stop = none → more.length = scans.length ∧ part = []) ∧
      (stop ≠ none → ∃ s, scans[more.length]? = some s ∧
        (part ≠ [] → ∃ batch, Decodes o s batch ∧ part <+: batch)) ∧
      Delivered o c (metIn (batches ++ more) part) r' := by
  induction scans generalizing batches r with
  | nil =>
    refine ⟨r, none, [], [], rfl, List.Forall₂.nil, fun _ => ⟨rfl, rfl⟩,
      fun hne => absurd rfl hne, ?_⟩
    rw [List.append_nil, metIn_nil]
    exact h.toDelivered
  | cons s scans ih =>
    obtain ⟨r₁, stop, hscan, hnext, hstop⟩ := scanOnce_delivers (s := s) hfollow h hscans
    unfold run
    simp only [hscan, ok_bind]
    cases stop with
    | some stop =>
      obtain ⟨part, hpart, hdelivered⟩ := hstop (fun hne => by cases hne)
      refine ⟨r₁, some stop, [], part, rfl, List.Forall₂.nil, (fun hne => by cases hne),
        fun _ => ⟨s, rfl, hpart⟩, ?_⟩
      rw [List.append_nil]
      exact hdelivered
    | none =>
      obtain ⟨batch, hdecodes, hscans₁, hmet⟩ := hnext rfl
      obtain ⟨r₂, stop, more, part, hrun, hmore, hdone, hpart, hdelivered⟩ :=
        ih hmet (by rw [hscans₁, hscans, List.length_append]; rfl)
      refine ⟨r₂, stop, batch :: more, part, hrun, List.Forall₂.cons hdecodes hmore,
        fun hnone => ?_, fun hne => ?_, ?_⟩
      · obtain ⟨hlen, hnil⟩ := hdone hnone
        exact ⟨congrArg (· + 1) hlen, hnil⟩
      · obtain ⟨s', hs', hp⟩ := hpart hne
        exact ⟨s', hs', hp⟩
      · rw [List.append_cons]
        exact hdelivered

end Runs

def followedHeader : SegmentHeader where
  magic := cMagic
  formatVersion := cFormatVersion
  headerBytes := 64
  chunkBytes := 112
  segmentBytes := 176
  generation := 1
  processId := 7
  anchorMonoNs := 0
  anchorWallNs := 0

def followedBytes : List UInt8 :=
  followedHeader.toBytes ++
    (ChunkHeader.mk 1 5 0 0 0).toBytes ++
    leBytes 8 (RecordHead.mk 28 .siteDefinition 0 0).pack ++
    (SiteDefinitionPayload.mk 16 0 1 2 0).toBytes ++ List.replicate 8 0 ++
    leBytes 8 (RecordHead.mk 24 .message 0 1).pack ++
    (MessagePayload.mk 16 0 0).toBytes ++ List.replicate 8 0

/-- A scan of a directory with two paths, one of which is named as an input besides. -/
def scanFinding (found : Found) : Scan where
  inputs := [.directory (some [⟨false, [[98, 46, 115, 48, 108]]⟩,
    ⟨false, [[97, 46, 115, 48, 108]]⟩]), .other ⟨false, [[97, 46, 115, 48, 108]]⟩]
  found := fun _ _ => found
  cancelled := fun _ => none
  written := fun _ => true
  flushed := true

def followedScans : List Scan :=
  [scanFinding (.file 176 (followedBytes.take 100) (by decide +kernel)),
    scanFinding (.file 176 followedBytes (by decide +kernel)), scanFinding .missing,
    scanFinding (.file 176 followedBytes (by decide +kernel))]

def followOptions : Options where
  minimum := 0
  subsystems := []
  correlation := none
  argUint := none
  maxInputBytes := 528
  maxOutputBytes := 64
  maxRecords := 3
  maxFiles := 3
  follow := true

def siteConsole : Console where
  line := fun _ entry => some (leBytes 8 entry.record.site.siteId.toNat ++ [10])
  windows := false

end Sub0Log.Cat
