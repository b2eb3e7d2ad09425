import Mathlib
import Phrasebook.Command.Check
import Phrasebook.Proofs.Source.Modes

/-!
# The verdict on a list of files

Checking files ends with one verdict. It depends on the bytes of the files only: not on the
mode in which they are read, nor on the form of the report, nor on the order of the files. The
reports of the two modes belong together as well: the strict one stops at the first error of
the lenient one.

## Main definitions

* `Faulty`: bytes that are no text, or a text with a malformed entry.
* `FileReport.Lists`: a report with one error for each malformed entry.
* `FileReport.Heads`: a report that has the first error of another one and no more.
-/

namespace Phrasebook

theorem Resource.mem_junk {r : Resource} {j : Junk} : j ∈ r.junk ↔ .junk j ∈ r.body := by
  simp only [Resource.junk, List.mem_filterMap]
  constructor
  · rintro ⟨e, he, hj⟩
    cases e with
    | junk j' =>
      cases hj
      exact he
    | message | term | comment => cases hj
  · exact fun h => ⟨_, h, rfl⟩

theorem Resource.parseBytes_of_valid {bytes : ByteArray} (h : bytes.IsValidUTF8) (mode : Mode) :
    Resource.parseBytes mode bytes = Resource.parse mode (String.fromUTF8 bytes h) := by
  rw [Resource.parseBytes, String.fromUTF8?, dif_pos h]

theorem Resource.parseBytes_of_not_valid {bytes : ByteArray} (h : ¬ bytes.IsValidUTF8)
    (mode : Mode) : Resource.parseBytes mode bytes = .error .notUtf8 := by
  rw [Resource.parseBytes, String.fromUTF8?, dif_neg h]

namespace Command

/-- The bytes are no text, or the lenient reading of the text has junk. -/
def Faulty (bytes : ByteArray) : Prop :=
  ¬ bytes.IsValidUTF8 ∨ ∃ r j, Resource.parseBytes .lenient bytes = .ok r ∧ .junk j ∈ r.body

/-! ## One file -/

namespace FileReport

theorem ofFile_of_ok {mode : Mode} {bytes : ByteArray} {r : Resource}
    (h : Resource.parseBytes mode bytes = .ok r) (file : String) :
    ofFile mode file bytes = ⟨file, r.messages.length, r.terms.length, r.junk.map ofJunk⟩ := by
  rw [ofFile, h]

theorem ofFile_of_error {mode : Mode} {bytes : ByteArray} {e : ParseError}
    (h : Resource.parseBytes mode bytes = .error e) (file : String) :
    ofFile mode file bytes = { file, errors := [⟨e.position, e.message, none⟩] } := by
  rw [ofFile, h]

theorem file_ofFile (mode : Mode) (file : String) (bytes : ByteArray) :
    (ofFile mode file bytes).file = file := by
  unfold ofFile
  split <;> rfl

/-- A report lists one error for each malformed entry, with its source text. -/
def Lists (report : FileReport) (r : Resource) : Prop :=
  List.Forall₂ (fun j e => e.content = some j.content) r.junk report.errors

/-- A report on the same file with the first error of another one, at the same line and column,
and no more; if there is none, it has none. -/
def Heads (report other : FileReport) : Prop :=
  report.file = other.file ∧
    report.errors.map EntryError.position = (other.errors.map EntryError.position).take 1

theorem lists_ofFile {bytes : ByteArray} {r : Resource}
    (h : Resource.parseBytes .lenient bytes = .ok r) (file : String) :
    (ofFile .lenient file bytes).Lists r := by
  rw [ofFile_of_ok h, Lists, List.forall₂_map_right_iff, List.forall₂_same]
  exact fun j _ => rfl

/-- Both modes find an error or none, and the first one at the same place. -/
theorem heads_ofFile (file : String) (bytes : ByteArray) :
    (ofFile .strict file bytes).Heads (ofFile .lenient file bytes) := by
  refine ⟨by rw [file_ofFile, file_ofFile], ?_⟩
  by_cases hvalid : bytes.IsValidUTF8
  · obtain ⟨r, hlenient, hstrict⟩ := Resource.parse_modes (String.fromUTF8 bytes hvalid)
    rw [← Resource.parseBytes_of_valid hvalid] at hlenient hstrict
    rw [ofFile_of_ok hlenient]
    obtain ⟨hjunk, hstrict⟩ | ⟨j, others, note, hjunk, hnote, hstrict⟩ := hstrict
    · rw [ofFile_of_ok hstrict, hjunk]
      rfl
    · rw [ofFile_of_error hstrict, hjunk]
      simp [ofJunk, hnote, ParseError.position]
  · rw [ofFile_of_error (Resource.parseBytes_of_not_valid hvalid _),
      ofFile_of_error (Resource.parseBytes_of_not_valid hvalid _)]
    rfl

theorem errors_ofFile_lenient (file : String) (bytes : ByteArray) :
    (ofFile .lenient file bytes).errors = [] ↔ ¬ Faulty bytes := by
  by_cases hvalid : bytes.IsValidUTF8
  · obtain ⟨r, hlenient, -⟩ := Resource.parse_modes (String.fromUTF8 bytes hvalid)
    rw [← Resource.parseBytes_of_valid hvalid] at hlenient
    simp [ofFile_of_ok hlenient, Faulty, hvalid, hlenient, ← Resource.mem_junk,
      List.eq_nil_iff_forall_not_mem]
  · simp [ofFile_of_error (Resource.parseBytes_of_not_valid hvalid _), Faulty, hvalid]

/-- In either mode a file is reported exactly if it is faulty. -/
theorem errors_ofFile (mode : Mode) (file : String) (bytes : ByteArray) :
    (ofFile mode file bytes).errors = [] ↔ ¬ Faulty bytes := by
  rw [← errors_ofFile_lenient file]
  cases mode with
  | lenient => rfl
  | strict =>
    have hfirst := (heads_ofFile file bytes).2
    rw [← List.map_eq_nil_iff (f := EntryError.position), hfirst]
    simp [List.take_eq_nil_iff]

/-- A file has as many diagnostics as its report has errors. -/
theorem length_diagnostics (mode : Mode) (file : String) (bytes : ByteArray) :
    (Diagnostic.ofFile mode bytes).length = (ofFile mode file bytes).errors.length := by
  unfold Diagnostic.ofFile ofFile
  cases Resource.parseBytes mode bytes with
  | ok r => simp only [List.length_map]
  | error e => rfl

theorem noticesOf_eq_nil (mode : Mode) (file : String) (bytes : ByteArray) :
    noticesOf mode file bytes = [] ↔ ¬ Faulty bytes := by
  rw [noticesOf, List.map_eq_nil_iff, ← List.length_eq_zero_iff, length_diagnostics mode file,
    List.length_eq_zero_iff, errors_ofFile]

end FileReport

/-! ## All files -/

/-- The bytes at every path can be read. -/
def Readable (files : FileTree) (paths : List String) : Prop :=
  ∀ path ∈ paths, ∃ bytes, files.read path = .ok bytes

/-- Some file is faulty. -/
def AnyFaulty (files : FileTree) (paths : List String) : Prop :=
  ∃ path ∈ paths, ∃ bytes, files.read path = .ok bytes ∧ Faulty bytes

/-- The reports on files, as they are written. -/
def reportText (reports : List FileReport) : String :=
  (Tree.list (reports.map FileReport.toTree)).toText ++ "\n"

theorem Readable.of_perm {files : FileTree} {paths paths' : List String}
    (h : Readable files paths) (hperm : paths'.Perm paths) : Readable files paths' :=
  fun path hpath => h path (hperm.mem_iff.mp hpath)

theorem anyFaulty_of_perm {files : FileTree} {paths paths' : List String}
    (hperm : paths'.Perm paths) : AnyFaulty files paths' ↔ AnyFaulty files paths := by
  simp only [AnyFaulty, hperm.mem_iff]

/-- What was read, file by file. -/
def Read (files : FileTree) (paths : List String) (contents : List (String × ByteArray)) : Prop :=
  List.Forall₂ (fun path content => content.1 = path ∧ files.read path = .ok content.2)
    paths contents

theorem readFiles_of_readable {files : FileTree} {paths : List String}
    (h : Readable files paths) :
    ∃ contents, readFiles files paths = (contents, none) ∧ Read files paths contents := by
  induction paths with
  | nil => exact ⟨[], rfl, .nil⟩
  | cons path paths ih =>
    obtain ⟨⟨bytes, hbytes⟩, hothers⟩ := List.forall_mem_cons.mp h
    obtain ⟨contents, hcontents, hread⟩ := ih hothers
    refine ⟨(path, bytes) :: contents, ?_, .cons ⟨rfl, hbytes⟩ hread⟩
    rw [readFiles, hbytes, hcontents]

theorem Read.anyFaulty_iff {files : FileTree} {paths : List String}
    {contents : List (String × ByteArray)} (h : Read files paths contents) :
    AnyFaulty files paths ↔ ∃ content ∈ contents, Faulty content.2 := by
  induction h with
  | nil => simp [AnyFaulty]
  | cons hfirst _ ih =>
    simp only [AnyFaulty, List.exists_mem_cons_iff] at ih ⊢
    rw [ih, hfirst.2]
    simp

namespace CheckSettings

variable {files : FileTree} {contents : List (String × ByteArray)} {s : CheckSettings}

/-- The reports that are made of what was read. -/
def reports (s : CheckSettings) (contents : List (String × ByteArray)) : List FileReport :=
  contents.map fun content => FileReport.ofFile (modeOf s.strict) content.1 content.2

theorem exit_run (h : readFiles files s.files = (contents, none)) (verbose : Bool) :
    (s.run files verbose).exit =
      if (s.reports contents).all (·.errors.isEmpty) then ExitCode.ok else ExitCode.dataError := by
  simp only [run, h, reports]
  split <;> rfl

theorem stdout_run (h : readFiles files s.files = (contents, none)) (hjson : s.json = true)
    (verbose : Bool) : (s.run files verbose).stdout = reportText (s.reports contents) := by
  simp only [run, h, hjson]
  rfl

theorem all_reports (hread : Read files s.files contents) :
    (s.reports contents).all (·.errors.isEmpty) = true ↔ ¬ AnyFaulty files s.files := by
  rw [hread.anyFaulty_iff]
  simp [reports, FileReport.errors_ofFile]

/-- The exit code depends on the bytes of the files only. -/
theorem exit_run_iff (h : Readable files s.files) (verbose : Bool) :
    ((s.run files verbose).exit = ExitCode.dataError ↔ AnyFaulty files s.files) ∧
      ((s.run files verbose).exit = ExitCode.ok ↔ ¬ AnyFaulty files s.files) := by
  obtain ⟨contents, hcontents, hread⟩ := readFiles_of_readable h
  have hne : ExitCode.ok ≠ ExitCode.dataError := by decide
  rw [exit_run hcontents]
  by_cases hfaulty : AnyFaulty files s.files
  · rw [if_neg fun hall => (all_reports hread).mp hall hfaulty]
    simp [hfaulty, hne.symm]
  · rw [if_pos ((all_reports hread).mpr hfaulty)]
    simp [hfaulty, hne]

/-- Where no report is asked for as data, there are notices if and only if a file is faulty. -/
theorem notices_run_eq_nil (h : Readable files s.files) (hjson : s.json = false)
    (verbose : Bool) : (s.run files verbose).notices = [] ↔ ¬ AnyFaulty files s.files := by
  obtain ⟨contents, hcontents, hread⟩ := readFiles_of_readable h
  have hnotices : (s.run files verbose).notices =
      contents.flatMap fun content => noticesOf (modeOf s.strict) content.1 content.2 := by
    simp only [run, hcontents, hjson]
    rfl
  rw [hnotices, hread.anyFaulty_iff]
  simp [FileReport.noticesOf_eq_nil]

/-- A text that is well formed, and one that is not. -/
def twoFiles : FileTree :=
  { nodes := [(["a"], .file "a = b\n".toUTF8), (["b"], .file "a b\n".toUTF8)] }

end CheckSettings

end Command

end Phrasebook
