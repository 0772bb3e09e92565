/-! # The benchmark report

The table that the benchmark prints: a head with the number of iterations and the size of the
input, one row for each workload with its time and throughput, and a closing remark. The rows'
figures come from outside, since they are measured.

Main statements: `iterations_lt` (the number of iterations is one of 64 bits), `length_headLine` and
`length_padRight_workload` (the columns line up). -/

namespace BitTransducer
namespace Bench

/-- The names of the workloads, in the order of the rows. -/
def workloads : List String :=
  ["write_const 13-bit", "write_const 64-bit", "write_buffer offset", "window scan", "identity run"]

/-- Iterations when none, or no number, is asked for. -/
def defaultIterations : Nat := 50

/-- Bytes of input for each workload. -/
def inputSize : Nat := 1048576

/-- The number below `2 ^ 64` that decimal digits spell, after an optional plus sign. -/
def parseCount? (text : String) : Option Nat :=
  let digits := match text.toList with
    | '+' :: digits => digits
    | digits => digits
  if digits ≠ [] ∧ digits.all (·.isDigit) then
    let n := digits.foldl (fun n c => 10 * n + (c.toNat - '0'.toNat)) 0
    if n < UInt64.size then some n else none
  else none

/-- The number of iterations that the arguments ask for. -/
def iterations (arguments : List String) : Nat :=
  ((arguments.head?.bind parseCount?).getD defaultIterations)

theorem parseCount?_lt {text : String} {n : Nat} (h : parseCount? text = some n) :
    n < UInt64.size := by
  simp only [parseCount?, Option.ite_none_right_eq_some, Option.some.injEq] at h
  obtain ⟨-, hlt, rfl⟩ := h
  exact hlt

theorem iterations_lt (arguments : List String) : iterations arguments < UInt64.size := by
  rw [iterations]
  cases h : arguments.head?.bind parseCount? with
  | none => decide
  | some n =>
    obtain ⟨text, -, hn⟩ := Option.bind_eq_some_iff.1 h
    exact parseCount?_lt hn

/-- A text filled up with blanks on the right to `width` characters. -/
def padRight (text : String) (width : Nat) : String :=
  text ++ String.ofList (List.replicate (width - text.length) ' ')

/-- A text filled up with blanks on the left to `width` characters. -/
def padLeft (text : String) (width : Nat) : String :=
  String.ofList (List.replicate (width - text.length) ' ') ++ text

/-- A line of the table's head. -/
def headLine (test time throughput : String) : String :=
  padRight test 22 ++ " " ++ padLeft time 17 ++ "  " ++ padLeft throughput 12

/-- The lines of the report; `figures` gives the figures of a workload's row. -/
def report (arguments : List String) (figures : String → String) : List String :=
  ["bitrt Benchmarks", "================", s!"Iterations: {iterations arguments}",
    s!"Input size: {inputSize} bytes", "", headLine "Test" "Time" "Throughput",
    headLine "----" "----" "----------"] ++
  workloads.map (fun name => padRight name 22 ++ " " ++ figures name) ++
  ["", "Use these results for relative comparisons only."]

theorem length_padRight (text : String) (width : Nat) :
    (padRight text width).length = max text.length width := by
  rw [padRight, String.length_append, String.length_ofList, List.length_replicate]
  omega

theorem length_padLeft (text : String) (width : Nat) :
    (padLeft text width).length = max text.length width := by
  rw [padLeft, String.length_append, String.length_ofList, List.length_replicate]
  omega

/-- Heads that fit their columns make lines of one length. -/
theorem length_headLine {test time throughput : String} (h : test.length ≤ 22)
    (h' : time.length ≤ 17) (h'' : throughput.length ≤ 12) :
    (headLine test time throughput).length = 54 := by
  simp only [headLine, String.length_append, length_padRight, length_padLeft, Nat.max_eq_right,
    h, h', h'']
  rfl

/-- No workload has a name longer than its column. -/
theorem length_padRight_workload {name : String} (h : name ∈ workloads) :
    (padRight name 22).length = 22 := by
  have hle : ∀ name ∈ workloads, name.length ≤ 22 := by decide
  rw [length_padRight, Nat.max_eq_right (hle name h)]

/-- Seven lines come before the rows, and two after them. -/
theorem length_report (arguments : List String) (figures : String → String) :
    (report arguments figures).length = 9 + workloads.length := by
  rw [report, List.length_append, List.length_append, List.length_map]
  exact Nat.add_right_comm 7 workloads.length 2

end Bench
end BitTransducer
