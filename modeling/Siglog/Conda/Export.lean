import Siglog.Conda.Normalize
import Siglog.Import.Chunk
import Siglog.Import.Jsonl
import Siglog.Monitor.Conda
import Mathlib

/-! The export of a channel. Its packages are written in the order of their filenames, one
normalized entry on a line. The import reads back exactly the entries that were written,
and none is lost: a package that cannot be written makes the export fail. -/

namespace Siglog.Conda

open Import (InputSummary LineJson ValidLine jsonl lineFeed carriageReturn maxEntrySize pieces popIf
  yielded)
open Monitor (CondaEntry CondaLog EntryJson parseEntry)
open Text (Str utf8)
open Text.Hex (HexErrors)
open Text.Json (Value)

/-- The packages of one format. -/
def packagesOf (repodata : Value) (field : Str) : List (Str × Value) :=
  ((repodata.get field).bind Value.asObject).getD []

/-- The packages of both formats, in the order of their filenames. -/
def allPackages (repodata : Value) : List (Str × Value) :=
  (packagesOf repodata "packages.conda".toList ++ packagesOf repodata "packages".toList).mergeSort
    fun a b => a.1 ≤ b.1

/-- A field that is there is an object. -/
def checkField (repodata : Value) (field : Str) : Except Str Unit :=
  match repodata.get field with
  | none => .ok ()
  | some v =>
    if v.asObject.isSome then .ok ()
    else .error ("repodata ".toList ++ field ++ " must be an object".toList)

/-- What is checked of a channel before its export. -/
def checkRepodata (repodata : Value) (subdir : Str) : Except Str Unit := do
  if repodata.asObject.isNone then .error "repodata must be an object".toList
  checkField repodata "packages".toList
  checkField repodata "packages.conda".toList
  match ((repodata.get "info".toList).bind (Value.get · "subdir".toList)).bind Value.asStr with
  | none => .ok ()
  | some s =>
    if s = subdir then .ok ()
    else .error ("repodata subdir ".toList ++ s ++ " does not match --subdir ".toList ++ subdir)

section

variable [HexErrors]

/-- `is_ok_and(|hash| hash.len() == 32)`. -/
def validSha256 (sha256 : Str) : Bool :=
  match Text.Hex.decode sha256 with
  | .ok hash => hash.length = 32
  | .error _ => false

/-- The line of a package. -/
def exportLine (subdir : Str) (package : Str × Value) : Except Str Bytes :=
  match RepodataEntry.fromRepodata package.1 subdir package.2 none with
  | none => .error ("cannot normalize ".toList ++ package.1 ++
      ": missing/invalid required fields (including sha256)".toList)
  | some normalized =>
    if validSha256 normalized.sha256 = false then .error ("invalid sha256 for ".toList ++ package.1)
    else if maxEntrySize < normalized.toNormalizedJson.length then
      .error ("entry too large: ".toList ++ package.1)
    else .ok normalized.toNormalizedJson

def exportLines (subdir : Str) : List (Str × Value) → Except Str (List Bytes)
  | [] => .ok []
  | package :: packages => do
    let data ← exportLine subdir package
    .ok (data :: (← exportLines subdir packages))

/-- The contents of the file that is published. -/
def exportJsonl (packages : List (Str × Value)) (subdir : Str) : Except Str Bytes :=
  if packages.isEmpty then .error "no packages to export".toList
  else do
    let lines ← exportLines subdir packages
    .ok (lines.flatMap (· ++ [lineFeed]))

/-- The first packages of a channel, or all of them. -/
def selected (repodata : Value) (limit : Option ℕ) : List (Str × Value) :=
  let packages := allPackages repodata
  let total := limit.elim packages.length fun limit => min limit packages.length
  packages.take total

def exportChannel (repodata : Value) (subdir : Str) (limit : Option ℕ) : Except Str Bytes := do
  checkRepodata repodata subdir
  exportJsonl (selected repodata limit) subdir

/-! ### Lines -/

variable {subdir : Str} {package : Str × Value} {packages : List (Str × Value)}

/-- The entry of a package that can be exported. -/
structure Exported (subdir : Str) (package : Str × Value) (e : RepodataEntry) : Prop where
  normalized : RepodataEntry.fromRepodata package.1 subdir package.2 none = some e
  sha256 : validSha256 e.sha256 = true
  length : e.toNormalizedJson.length ≤ maxEntrySize

theorem exportLine_ok {data : Bytes} :
    exportLine subdir package = .ok data ↔ ∃ e, Exported subdir package e ∧
    e.toNormalizedJson = data := by
  rw [exportLine]
  cases hentry : RepodataEntry.fromRepodata package.1 subdir package.2 none with
  | none =>
    refine iff_of_false (fun h => by cases h) ?_
    rintro ⟨e, h, -⟩
    rw [h.normalized] at hentry
    cases hentry
  | some e =>
    dsimp only
    constructor
    · intro h
      split_ifs at h with hsha hlen
      exact ⟨e, ⟨hentry, by simpa using hsha, not_lt.mp hlen⟩, Except.ok.inj h⟩
    · rintro ⟨e', h, rfl⟩
      obtain rfl := Option.some.inj (hentry.symm.trans h.normalized)
      rw [if_neg (by simp [h.sha256]), if_neg (not_lt.mpr h.length)]

theorem exportLines_ok {lines : List Bytes} : exportLines subdir packages = .ok lines ↔
    ∃ entries, List.Forall₂ (Exported subdir) packages entries ∧
      entries.map RepodataEntry.toNormalizedJson = lines := by
  induction packages generalizing lines with
  | nil => simp [exportLines, eq_comm]
  | cons package packages ih =>
    rw [exportLines]
    cases hfirst : exportLine subdir package with
    | error e =>
      refine iff_of_false (fun h => by cases h) ?_
      rintro ⟨entries, h, -⟩
      cases h with
      | cons h _ =>
        rw [exportLine_ok.mpr ⟨_, h, rfl⟩] at hfirst
        cases hfirst
    | ok data =>
      obtain ⟨e, he, rfl⟩ := exportLine_ok.mp hfirst
      cases hrest : exportLines subdir packages with
      | error err =>
        refine iff_of_false (fun h => by cases h) ?_
        rintro ⟨entries, h, -⟩
        cases h with
        | cons _ h =>
          rw [ih.mpr ⟨_, h, rfl⟩] at hrest
          cases hrest
      | ok rest =>
        obtain ⟨entries, hentries, rfl⟩ := ih.mp hrest
        constructor
        · intro h
          exact ⟨e :: entries, .cons he hentries, Except.ok.inj h⟩
        · rintro ⟨_, hall, rfl⟩
          cases hall with
          | cons h hall =>
            have hline := Except.ok.inj (hfirst.symm.trans (exportLine_ok.mpr ⟨_, h, rfl⟩))
            have hlines := Except.ok.inj (hrest.symm.trans (ih.mpr ⟨_, hall, rfl⟩))
            simp only [bind, Except.bind, List.map_cons, hline, hlines]

/-- A channel is exported exactly if every one of its packages can be. -/
theorem exportChannel_ok {repodata : Value} {limit : Option ℕ} {file : Bytes} :
    exportChannel repodata subdir limit = .ok file ↔
    checkRepodata repodata subdir = .ok () ∧ ∃ entries, entries ≠ [] ∧
      List.Forall₂ (Exported subdir) (selected repodata limit) entries ∧
      (entries.map RepodataEntry.toNormalizedJson).flatMap (· ++ [lineFeed]) = file := by
  rw [exportChannel]
  cases hcheck : checkRepodata repodata subdir with
  | error e => exact iff_of_false (fun h => by cases h) fun h => by cases h.1
  | ok u =>
    change exportJsonl (selected repodata limit) subdir = .ok file ↔ _
    generalize selected repodata limit = packages
    rw [exportJsonl]
    constructor
    · intro h
      split_ifs at h with hempty
      cases hlines : exportLines subdir packages with
      | error e => simp [hlines, bind, Except.bind] at h
      | ok lines =>
        obtain ⟨entries, hentries, rfl⟩ := exportLines_ok.mp hlines
        refine ⟨rfl, entries, ?_, hentries, by simpa [hlines, bind, Except.bind] using h⟩
        rintro rfl
        cases hentries
        exact hempty rfl
    · rintro ⟨-, entries, hne, hentries, rfl⟩
      have hempty : packages.isEmpty = false := by
        cases hentries with
        | nil => exact absurd rfl hne
        | cons _ _ => rfl
      rw [hempty, exportLines_ok.mpr ⟨entries, hentries, rfl⟩]
      rfl

end

/-! ### Reading back -/

/-- What is written as an object is read as one. -/
class LawfulLineJson [LineJson] : Prop where
  isObject_write : ∀ fields : List (Str × Value), (∀ field ∈ fields, field.2.Flat) →
    LineJson.isObject (utf8 (Value.object fields).write) = true

/-- The fields of a written object are read. -/
class LawfulEntryJson [EntryJson] : Prop where
  fromSlice_write :
    ∀ fields : List (Str × Value), (∀ field ∈ fields, field.2.Flat) → (fields.map Prod.fst).Nodup →
      ∀ sha256 filename, fields.lookup "sha256".toList = some (.string sha256) →
        fields.lookup "filename".toList = some (.string filename) →
        fields.lookup "fn".toList = none →
        EntryJson.fromSlice (utf8 (Value.object fields).write) = .ok ⟨sha256, filename⟩

/-- What the monitor takes from an entry. -/
def RepodataEntry.condaEntry (e : RepodataEntry) : CondaEntry := ⟨e.sha256, e.filename⟩

theorem RepodataEntry.parseEntry_normalized [EntryJson] [LawfulEntryJson] (e : RepodataEntry) :
    parseEntry e.toNormalizedJson = .ok e.condaEntry := by
  have hparse := LawfulEntryJson.fromSlice_write _ e.flat_fields
    (e.sorted_fields.imp fun {a b} (h : a < b) (heq : a = b) =>
      List.lt_irrefl b (heq ▸ h)) e.sha256 e.filename
    (by rw [e.lookup_fields]; rfl) (by rw [e.lookup_fields]; rfl) (by rw [e.lookup_fields]; rfl)
  rw [parseEntry, e.toNormalizedJson_eq, toValue, hparse]
  rfl

section

variable [HexErrors] [LineJson] [LawfulLineJson] {subdir : Str}

theorem Exported.line {package : Str × Value} {e : RepodataEntry} (h : Exported subdir package e) :
    ValidLine e.toNormalizedJson ∧ lineFeed ∉ e.toNormalizedJson ∧
    carriageReturn ∉ e.toNormalizedJson := by
  have hlength := h.length
  obtain ⟨hne, hprinted⟩ := Value.utf8_write_line e.plain_toValue
  rw [e.toNormalizedJson_eq] at hlength ⊢
  refine ⟨⟨hne, hlength, LawfulLineJson.isObject_write _ e.flat_fields⟩, fun hmem => ?_,
    fun hmem => ?_⟩
  · exact absurd (hprinted _ hmem) (by decide)
  · exact absurd (hprinted _ hmem) (by decide)

theorem Exported.lines {packages : List (Str × Value)} {entries : List RepodataEntry}
    (h : List.Forall₂ (Exported subdir) packages entries) :
    ∀ line ∈ entries.map RepodataEntry.toNormalizedJson,
      ValidLine line ∧ lineFeed ∉ line ∧ carriageReturn ∉ line := by
  induction h with
  | nil => simp
  | cons h _ ih => exact List.forall_mem_cons.mpr ⟨h.line, ih⟩

variable [EntryJson] [LawfulEntryJson] [Sha256]

/-- What an export has written is imported entry by entry: each package of the channel has one
line, and the lines are read back without an error. The monitor accepts the entries as a log
if no package has the SHA-256 of another one and each filename has one SHA-256. -/
theorem exportChannel_imported {repodata : Value} {limit : Option ℕ} {file : Bytes}
    (h : exportChannel repodata subdir limit = .ok file) : ∃ entries : List RepodataEntry,
      List.Forall₂
        (fun package e => RepodataEntry.fromRepodata package.1 subdir package.2 none = some e)
        (selected repodata limit) entries ∧
      (∀ n, (jsonl ⟨file, none⟩).results n =
        (List.range n).map fun k =>
          ((entries.map RepodataEntry.toNormalizedJson).map Except.ok)[k]?) ∧
      (entries.length ≤ i64Max → ∃ input,
        InputSummary.scan ((entries.map RepodataEntry.toNormalizedJson).map .ok) = .ok input ∧
          input.entries = (selected repodata limit).length) ∧
      (CondaLog (entries.map RepodataEntry.toNormalizedJson)
        (entries.map RepodataEntry.condaEntry) ↔
        (entries.map RepodataEntry.sha256).Nodup ∧
          ∀ a ∈ entries, ∀ b ∈ entries, a.filename = b.filename → a.sha256 = b.sha256) := by
  obtain ⟨-, entries, hne, hentries, rfl⟩ := exportChannel_ok.mp h
  have hlines := Exported.lines hentries
  refine ⟨entries, hentries.imp fun _ _ h => h.normalized, fun n => ?_, fun hmax => ?_, ?_⟩
  · have hstrip : (entries.map RepodataEntry.toNormalizedJson).map (popIf carriageReturn) =
        entries.map RepodataEntry.toNormalizedJson :=
      (List.map_congr_left fun line hline => Import.popIf_of_not_mem (hlines line hline).2.2).trans
        (List.map_id _)
    rw [Import.results_jsonl, Import.pieces_lines fun line hline => (hlines line hline).2.1, hstrip,
      Import.yielded_of_valid fun line hline => (hlines line hline).1]
  · have hsizes : ∀ entry ∈ entries.map RepodataEntry.toNormalizedJson, entry ≠ [] ∧
        entry.length ≤ maxEntrySize :=
      fun entry hentry => ⟨(hlines entry hentry).1.1, (hlines entry hentry).1.2.1⟩
    obtain ⟨input, hscan, hcount⟩ :=
      Import.scan_of_sizes hsizes (by simpa using hne) (by simpa using hmax)
    exact ⟨input, hscan, by rw [hcount, List.length_map, hentries.length_eq]⟩
  · have hdigests : (entries.map RepodataEntry.condaEntry).map CondaEntry.sha256 =
        entries.map RepodataEntry.sha256 := by
      rw [List.map_map]
      rfl
    constructor
    · rintro ⟨-, hsha, hfilename⟩
      refine ⟨hdigests ▸ hsha, fun a ha b hb => ?_⟩
      exact hfilename _ (List.mem_map_of_mem ha) _ (List.mem_map_of_mem hb)
    · rintro ⟨hsha, hfilename⟩
      refine ⟨?_, hdigests.symm ▸ hsha, ?_⟩
      · rw [List.map_map, List.map_map]
        exact List.map_congr_left fun e _ => e.parseEntry_normalized
      · simp only [List.forall_mem_map]
        exact hfilename

end

/-! ### A channel of two packages -/

section

/-- An object is told by its text. -/
theorem write_object_injective {a b : List (Str × Value)} (ha : ∀ field ∈ a, field.2.Flat)
    (hb : ∀ field ∈ b, field.2.Flat)
    (h : utf8 (Value.object a).write = utf8 (Value.object b).write) : a = b := by
  have hplain :
      ∀ {l : List (Str × Value)}, (∀ field ∈ l, field.2.Flat) → (Value.object l).Plain := by
    intro l hl
    rw [Value.Plain, Value.plainFields_iff]
    exact fun field hfield => (hl field hfield).plain
  exact Value.object.inj (Value.write_injective (hplain ha) (hplain hb) (Text.utf8_injective h))

/-- The entry that is read from a text. -/
def Reads (b : Bytes) (entry : CondaEntry) : Prop :=
  ∃ fields : List (Str × Value), (∀ field ∈ fields, field.2.Flat) ∧
    b = utf8 (Value.object fields).write ∧
    fields.lookup "sha256".toList = some (.string entry.sha256) ∧
    fields.lookup "filename".toList = some (.string entry.filename)

attribute [local instance] StartHash.sha256 Text.Hex.plainErrors

/-- A parser for lines that are all objects. -/
local instance oneLineJson : LineJson := ⟨fun _ => true⟩

local instance oneLineJson_lawful : LawfulLineJson := ⟨fun _ _ => rfl⟩

open Classical in
/-- A parser of flat objects. -/
noncomputable local instance oneEntryJson : EntryJson :=
  ⟨fun b => if h : ∃ entry, Reads b entry then .ok h.choose else .error "expected an object"⟩

local instance oneEntryJson_lawful : LawfulEntryJson := by
  refine ⟨fun fields hflat _ sha256 filename hsha hfilename _ => ?_⟩
  have hreads : ∃ entry, Reads (utf8 (Value.object fields).write) entry :=
    ⟨⟨sha256, filename⟩, fields, hflat, rfl, hsha, hfilename⟩
  obtain ⟨fields', hflat', hsame, hsha', hfilename'⟩ := hreads.choose_spec
  obtain rfl := write_object_injective hflat hflat' hsame
  rw [hsha, Option.some.injEq, Value.string.injEq] at hsha'
  rw [hfilename, Option.some.injEq, Value.string.injEq] at hfilename'
  rw [hsha', hfilename']
  exact dif_pos hreads

def onePackage : RepodataEntry :=
  ⟨none, "0".toList, 0, none, none, "a-1-0.tar.bz2".toList, none, none, none, "a".toList,
    List.replicate 64 '0', 1, "noarch".toList, none, "1".toList⟩

def otherPackage : RepodataEntry :=
  { onePackage with
    filename := "b-1-0.conda".toList
    name := "b".toList
    sha256 := List.replicate 64 '1' }

/-- The channel has one package in each format. -/
def twoChannel : Value :=
  .object [("packages".toList, .object [(onePackage.filename, onePackage.toValue)]),
    ("packages.conda".toList, .object [(otherPackage.filename, otherPackage.toValue)])]

theorem fromRepodata_one : RepodataEntry.fromRepodata onePackage.filename "noarch".toList
    onePackage.toValue none = some onePackage :=
  RepodataEntry.fromRepodata_toValue ⟨by decide, by decide⟩

theorem fromRepodata_other : RepodataEntry.fromRepodata otherPackage.filename "noarch".toList
    otherPackage.toValue none = some otherPackage :=
  RepodataEntry.fromRepodata_toValue ⟨by decide, by decide⟩

/-- The packages of the second format come first, but the filenames are in the other order. -/
theorem selected_two : selected twoChannel none =
    [(onePackage.filename, onePackage.toValue), (otherPackage.filename, otherPackage.toValue)] := by
  have hall : allPackages twoChannel = [(onePackage.filename, onePackage.toValue),
      (otherPackage.filename, otherPackage.toValue)] := by
    have hlt : ¬ otherPackage.filename ≤ onePackage.filename := by decide
    change List.mergeSort [(otherPackage.filename, otherPackage.toValue),
      (onePackage.filename, onePackage.toValue)] _ = _
    rw [List.mergeSort]
    simp [List.MergeSort.Internal.splitInTwo, hlt]
  rw [selected, hall]
  rfl

/-- Both lines are read back in the order of the filenames, and the monitor accepts them. -/
theorem exportChannel_imported_two :
    ∃ file, exportChannel twoChannel "noarch".toList none = .ok file ∧
    (∀ n, (jsonl ⟨file, none⟩).results n = (List.range n).map fun k =>
      [Except.ok onePackage.toNormalizedJson, .ok otherPackage.toNormalizedJson][k]?) ∧
    CondaLog [onePackage.toNormalizedJson, otherPackage.toNormalizedJson]
      [onePackage.condaEntry, otherPackage.condaEntry] := by
  have hone : Exported "noarch".toList (onePackage.filename, onePackage.toValue) onePackage :=
    ⟨fromRepodata_one, by decide +kernel, by rw [RepodataEntry.toNormalizedJson_eq]; decide +kernel⟩
  have hother :
      Exported "noarch".toList (otherPackage.filename, otherPackage.toValue) otherPackage :=
    ⟨fromRepodata_other, by decide +kernel,
      by rw [RepodataEntry.toNormalizedJson_eq]; decide +kernel⟩
  have hfile : exportChannel twoChannel "noarch".toList none = .ok _ :=
    exportChannel_ok.mpr
      ⟨rfl, [onePackage, otherPackage], by simp, selected_two ▸ .cons hone (.cons hother .nil), rfl⟩
  obtain ⟨entries, hentries, hresults, -, hlog⟩ := exportChannel_imported hfile
  rw [selected_two] at hentries
  obtain rfl : entries = [onePackage, otherPackage] := by
    cases hentries with
    | cons hfirst hrest =>
      cases hrest with
      | cons hsecond hrest =>
        cases hrest
        rw [fromRepodata_one.symm.trans hfirst |> Option.some.inj,
          fromRepodata_other.symm.trans hsecond |> Option.some.inj]
  refine ⟨_, hfile, hresults, hlog.mpr ⟨by decide +kernel, ?_⟩⟩
  -- the filenames differ
  decide +kernel

end

end Siglog.Conda
