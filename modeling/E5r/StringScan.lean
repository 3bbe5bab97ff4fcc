import E5r.CacheCodec
import E5r.RustText
import E5r.SteppedRuns

/-!
The strings of one buffer: the longest runs of printable bytes, and of printable bytes with a
zero behind each.
-/
namespace E5r.StringScan
open CacheCodec RustText SteppedRuns

structure Options where
  minLen : ℕ
  utf16 : Bool

/-- True for bytes that read as text rather than as data. -/
def printable (b : UInt8) : Bool := (0x20 ≤ b && b ≤ 0x7e) || b = 9 || b = 10 || b = 13

variable (bytes : List UInt8) (base : ℕ) (o : Options)

def byteAt (i : ℕ) : UInt8 := bytes.getD i 0

def plain (i : ℕ) : Bool := i < bytes.length && printable (byteAt bytes i)
def wide (i : ℕ) : Bool := i + 1 < bytes.length && printable (byteAt bytes i) && byteAt bytes (i + 1) = 0

def wideText (s e : ℕ) : List Char :=
  (List.range ((e - s) / 2)).map fun j => Char.ofNat (byteAt bytes (s + j * 2)).toNat

/-- A NUL after the run is what separates a string from a stretch of data that happens to be printable. -/
def plainFound (r : ℕ × ℕ) : Option Found :=
  let run := (bytes.take r.2).drop r.1
  if run.length < o.minLen ∨ bytes[r.2]? ≠ some 0 ∨ 2 ^ 64 ≤ base + r.1 then none
  else some ⟨base + r.1, run.length, if run.all (· < 128) then .ascii else .utf8, fromUtf8Lossy run⟩

def wideFound (r : ℕ × ℕ) : Option Found :=
  -- every character of the text is one byte long
  if (wideText bytes r.1 r.2).length < o.minLen ∨ 2 ^ 64 ≤ base + r.1 then none
  else some ⟨base + r.1, r.2 - r.1, .utf16, String.ofList (wideText bytes r.1 r.2)⟩

def scanUtf16 : List Found := (runs (wide bytes) 2 bytes.length bytes.length 0).filterMap (wideFound bytes base o)

/-- Scan one buffer, reporting strings at `base + offset`. -/
def scanBytes : List Found :=
  (runs (plain bytes) 1 bytes.length bytes.length 0).filterMap (plainFound bytes base o) ++
    if o.utf16 then scanUtf16 bytes base o else []

variable {bytes : List UInt8} {base s e : ℕ} {o : Options}

theorem plain_runs : (s, e) ∈ runs (plain bytes) 1 bytes.length bytes.length 0 ↔ IsRun (plain bytes) 1 s e := by
  have inside : ∀ i, plain bytes i → i < bytes.length := fun i => by simp +contextual [plain]
  simpa using mem_runs inside one_pos (fun i d _ some less => by omega) (by omega) (i := 0) (by simp [Between])

theorem wide_runs : (s, e) ∈ runs (wide bytes) 2 bytes.length bytes.length 0 ↔ IsRun (wide bytes) 2 s e := by
  have inside : ∀ i, wide bytes i → i < bytes.length := fun i marked => by
    simp only [wide, Bool.and_eq_true, decide_eq_true_eq] at marked
    omega
  have apart : Apart (wide bytes) 2 := by
    intro i d marked some less next
    obtain rfl : d = 1 := by omega
    simp only [wide, Bool.and_eq_true, decide_eq_true_eq] at marked next
    rw [marked.2] at next
    exact absurd next.1.2 (by decide)
  simpa using mem_runs inside two_pos apart (by omega) (i := 0) (by simp [Between])

theorem low_of_printable {b : UInt8} (text : printable b = true) : b < 128 := by
  simp only [printable, Bool.or_eq_true, Bool.and_eq_true, decide_eq_true_eq] at text
  rcases text with ((⟨-, most⟩ | rfl) | rfl) | rfl
  · exact UInt8.lt_of_le_of_lt most (by decide)
  all_goals decide

theorem plainFound_run (run : IsRun (plain bytes) 1 s e) :
    plainFound bytes base o (s, e) = if e - s < o.minLen ∨ bytes[e]? ≠ some 0 ∨ 2 ^ 64 ≤ base + s then none
      else some ⟨base + s, e - s, .ascii, fromUtf8Lossy ((bytes.take e).drop s)⟩ := by
  have ended : e ≤ bytes.length := by
    obtain ⟨⟨m, rfl, all⟩, filled, -, -⟩ := run
    have last := all (m - 1) (by omega)
    simp only [plain, Bool.and_eq_true, decide_eq_true_eq] at last
    omega
  have low : ((bytes.take e).drop s).all (· < 128) = true := by
    rw [List.all_eq_true]
    intro b inside
    obtain ⟨j, short, rfl⟩ := List.getElem_of_mem inside
    obtain ⟨⟨m, rfl, all⟩, -, -, -⟩ := run
    have marked := all j (by simp at short; omega)
    simp only [plain, byteAt, Nat.mul_one, Bool.and_eq_true, decide_eq_true_eq] at marked
    rw [List.getD_eq_getElem _ _ marked.1] at marked
    simpa using low_of_printable marked.2
  have size : ((bytes.take e).drop s).length = e - s := by
    rw [List.length_drop, List.length_take_of_le ended]
  simp only [plainFound, low, size, if_true]

/-- The strings of a buffer are its longest runs that are long enough, the plain ones with a NUL behind. -/
theorem scan_exact (bytes : List UInt8) (base : ℕ) (o : Options) (f : Found) : f ∈ scanBytes bytes base o ↔
    (∃ s e, IsRun (plain bytes) 1 s e ∧ o.minLen ≤ e - s ∧ bytes[e]? = some 0 ∧ base + s < 2 ^ 64 ∧
      f = ⟨base + s, e - s, .ascii, fromUtf8Lossy ((bytes.take e).drop s)⟩) ∨
    (o.utf16 = true ∧ ∃ s e, IsRun (wide bytes) 2 s e ∧ o.minLen ≤ (e - s) / 2 ∧ base + s < 2 ^ 64 ∧
      f = ⟨base + s, e - s, .utf16, String.ofList (wideText bytes s e)⟩) := by
  rw [scanBytes, List.mem_append]
  refine or_congr ?_ ?_
  · simp only [List.mem_filterMap, Prod.exists, plain_runs]
    refine exists_congr fun s => exists_congr fun e => and_congr_right fun run => ?_
    rw [plainFound_run run]
    simp [and_assoc, eq_comm]
  · by_cases asked : o.utf16 = true
    · simp only [asked, if_true, scanUtf16, List.mem_filterMap, Prod.exists, wide_runs, true_and]
      refine exists_congr fun s => exists_congr fun e => and_congr_right fun _ => ?_
      simp [wideFound, wideText, and_assoc, eq_comm]
    · simp [asked]

end E5r.StringScan
