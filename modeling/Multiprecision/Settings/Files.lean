import Multiprecision.Digits.Division
import Multiprecision.Settings.Ratio
import Multiprecision.Settings.Threshold

/-! The settings as two files of source text: the threshold from which division by halving pays, and the
    two tables of ratios. A run reads the environment, writes the files to the output folder and prints
    what a later run depends on. A threshold that is not a positive number stops the run before anything
    is written, and so does a folder that does not exist. -/

namespace Multiprecision.Settings

/-- The name of the variable that holds the threshold. -/
def thresholdVariable : String := "RUST_TASTYINT_DIVISION_THRESHOLD"

/-- The name of the variable that holds the output folder. -/
def folderVariable : String := "OUT_DIR"

/-- The name of the file of the threshold. -/
def thresholdFile : String := "default_division_threshold.rs"

/-- The name of the file of the ratios. -/
def ratioFile : String := "radix_ratios.rs"

/-- The files of a folder, each with its bytes if it exists. -/
structure Folder where
  threshold : Option ByteArray
  ratios : Option ByteArray

/-- Where a run writes. -/
inductive Output where
  /-- No folder is named. -/
  | unset
  /-- A folder is named that does not exist. -/
  | absent
  | folder (files : Folder)

/-- What a run shows: the lines it prints, and why it stopped if it did. -/
structure Report where
  lines : List String
  stopped : Option String
  deriving DecidableEq, Repr

/-- The text of the file of the threshold. -/
def thresholdText (n : Nat) : String :=
  "const DEFAULT_DIVISION_THRESHOLD: usize = " ++ toString n ++ ";"

/-- The text of a table of ratios, one for each base from 0 to the greatest. -/
def tableText (name : String) (ratio : Nat → Scaled) : String :=
  let entries := (List.range (greatestBase + 1)).map fun base => ratioText (ratio base)
  "pub(crate) static " ++ name ++ ": [f64; " ++ toString entries.length ++ "] = [\n    "
    ++ ",\n    ".intercalate entries ++ ",\n];\n"

/-- The text of the file of the ratios. -/
def ratiosText : String :=
  tableText "DIGITS_PER_TOKEN" digitsPerToken ++ "\n" ++ tableText "TOKENS_PER_DIGIT" tokensPerDigit

/-- The threshold that the environment asks for; the usual one if it asks for none, or not in text. -/
def thresholdOf (asked : Option ByteArray) : Except NumeralFault Nat :=
  match asked.bind String.fromUTF8? with
  | none => .ok DivisionRule.usualThreshold
  | some text => readPositive text

/-- The line that makes a run depend on a file. -/
def fileLine (name : String) : String :=
  "cargo:rerun-if-changed=" ++ folderVariable ++ "/" ++ name

/-- The line that makes a run depend on a variable. -/
def variableLine (name : String) : String := "cargo:rerun-if-env-changed=" ++ name

/-- Why a run stops at a threshold. -/
def thresholdMessage (fault : NumeralFault) : String :=
  "$" ++ thresholdVariable ++ " must be an integer > 0: ParseIntError \x7b kind: " ++ fault.name
    ++ " \x7d"

/-- Why a run stops at a folder that does not exist. -/
def absentMessage : String :=
  "Could not create generated source file: Os \x7b code: 2, kind: NotFound, message: "
    ++ "\"No such file or directory\" \x7d"

/-- One run: what it shows, and where it leaves the output. -/
def run (asked : Option ByteArray) : Output → Report × Output
  | .unset => (⟨[], none⟩, .unset)
  | .absent =>
    match thresholdOf asked with
    | .error fault => (⟨[], some (thresholdMessage fault)⟩, .absent)
    | .ok _ => (⟨[], some absentMessage⟩, .absent)
  | .folder files =>
    match thresholdOf asked with
    | .error fault => (⟨[], some (thresholdMessage fault)⟩, .folder files)
    | .ok n =>
      (⟨[fileLine thresholdFile, variableLine thresholdVariable, fileLine ratioFile], none⟩,
        .folder ⟨some (thresholdText n).toByteArray, some ratiosText.toByteArray⟩)

/-- So many runs one after the other. -/
def runs (asked : Option ByteArray) : Nat → Output → List Report × Output
  | 0, o => ([], o)
  | n + 1, o =>
    let (report, next) := run asked o
    let (reports, last) := runs asked n next
    (report :: reports, last)

end Multiprecision.Settings
