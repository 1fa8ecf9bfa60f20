import Siglog.Text.Json
import Siglog.Types

/-! The normal form of a repodata entry: the fields that are kept, in the order of their
names, as compact JSON. Two entries have one normal form exactly if all the kept fields
agree, and the normal form is its own. -/

namespace Siglog.Conda

open Text (Str utf8 utf8_injective)
open Text.Json (Value)

/-- A normalized repodata entry for the transparency log. -/
structure RepodataEntry where
  attestationSha256 : Option Str
  build : Str
  buildNumber : UInt64
  constrains : Option (List Str)
  depends : Option (List Str)
  filename : Str
  license : Option Str
  licenseFamily : Option Str
  md5 : Option Str
  name : Str
  sha256 : Str
  size : UInt64
  subdir : Str
  timestamp : Option UInt64
  version : Str
  deriving DecidableEq

/-- The strings of a list, unless there are none. -/
def stringsOf (field : Option Value) : Option (List Str) := do
  let items ← (← field).asArray
  let arr := items.filterMap Value.asStr
  if arr = [] then none else some arr

/-- Create a new entry from raw repodata JSON and additional context. -/
def RepodataEntry.fromRepodata (filename subdir : Str) (entry : Value)
    (attestationSha256 : Option Str) :
    Option RepodataEntry := do
  let obj ← entry.asObject
  let name ← (← obj.lookup "name".toList).asStr
  let version ← (← obj.lookup "version".toList).asStr
  let build ← (← obj.lookup "build".toList).asStr
  let buildNumber ← (← obj.lookup "build_number".toList).asU64
  let sha256 ← (← obj.lookup "sha256".toList).asStr
  let size ← (← obj.lookup "size".toList).asU64
  some {
    attestationSha256, build, buildNumber, filename, name, sha256, size, subdir, version
    constrains := stringsOf (obj.lookup "constrains".toList)
    depends := stringsOf (obj.lookup "depends".toList)
    license := (obj.lookup "license".toList).bind Value.asStr
    licenseFamily := (obj.lookup "license_family".toList).bind Value.asStr
    md5 := (obj.lookup "md5".toList).bind Value.asStr
    timestamp := (obj.lookup "timestamp".toList).bind Value.asU64 }

/-- A list of strings as a value. -/
def stringArray (l : List Str) : Value := .array (l.map .string)

namespace RepodataEntry

/-- The fields in the order in which they are declared. One that is missing is not written. -/
def slots (e : RepodataEntry) : List (Str × Option Value) := [
  ("attestation_sha256".toList, e.attestationSha256.map .string),
  ("build".toList, some (.string e.build)),
  ("build_number".toList, some (.number (.pos e.buildNumber))),
  ("constrains".toList, e.constrains.map stringArray),
  ("depends".toList, e.depends.map stringArray),
  ("filename".toList, some (.string e.filename)),
  ("license".toList, e.license.map .string),
  ("license_family".toList, e.licenseFamily.map .string),
  ("md5".toList, e.md5.map .string),
  ("name".toList, some (.string e.name)),
  ("sha256".toList, some (.string e.sha256)),
  ("size".toList, some (.number (.pos e.size))),
  ("subdir".toList, some (.string e.subdir)),
  ("timestamp".toList, e.timestamp.map fun n => .number (.pos n)),
  ("version".toList, some (.string e.version))]

end RepodataEntry

/-- `skip_serializing_if`: the fields that are not missing. -/
def present (slots : List (Str × Option Value)) : List (Str × Value) :=
  slots.filterMap fun slot => slot.2.map (slot.1, ·)

/-- Insert into an ordered map. -/
def insertField (name : Str) (v : Value) : List (Str × Value) → List (Str × Value)
  | [] => [(name, v)]
  | (key, w) :: fields =>
    if name < key then (name, v) :: (key, w) :: fields
    else if name = key then (name, v) :: fields
    else (key, w) :: insertField name v fields

def btreeMap (fields : List (Str × Value)) : List (Str × Value) :=
  fields.foldl (fun map field => insertField field.1 field.2 map) []

namespace RepodataEntry

def toValue (e : RepodataEntry) : Value := .object (present e.slots)

/-- Serialize to normalized JSON bytes. -/
def toNormalizedJson (e : RepodataEntry) : Bytes :=
  utf8 (Value.object (btreeMap (present e.slots))).write

end RepodataEntry

def normalizeRepodataEntry (filename subdir : Str) (entry : Value)
    (attestationSha256 : Option Str) : Option Bytes := do
  let entry ← RepodataEntry.fromRepodata filename subdir entry attestationSha256
  some entry.toNormalizedJson

/-! ### Fields by name -/

section

variable {slots : List (Str × Option Value)}

theorem map_fst_present (slots : List (Str × Option Value)) :
    ((present slots).map Prod.fst).Sublist (slots.map Prod.fst) := by
  induction slots with
  | nil => exact List.Sublist.refl _
  | cons slot slots ih =>
    obtain ⟨name, v⟩ := slot
    cases v with
    | none => exact ih.cons _
    | some v => exact ih.cons_cons _

theorem lookup_present (h : (slots.map Prod.fst).Nodup) (name : Str) :
    (present slots).lookup name = (slots.lookup name).join := by
  induction slots with
  | nil => rfl
  | cons slot slots ih =>
    obtain ⟨key, v⟩ := slot
    rw [List.map_cons, List.nodup_cons] at h
    cases v with
    | none =>
      change (present slots).lookup name = _
      rw [ih h.2, List.lookup_cons]
      cases heq : name == key with
      | false => rfl
      | true =>
        obtain rfl := eq_of_beq heq
        have hnone : slots.lookup name = none := List.lookup_eq_none_iff.mpr fun p hp => by
          have hne : name ≠ p.1 := fun heq => h.1 (List.mem_map.mpr ⟨p, hp, heq.symm⟩)
          simpa using hne
        rw [hnone]
        rfl
    | some v =>
      change ((key, v) :: present slots).lookup name = _
      rw [List.lookup_cons, List.lookup_cons, ih h.2]
      cases name == key with
      | false => rfl
      | true => rfl

/-- A name after all others goes to the end. -/
theorem insertField_last {name : Str} {v : Value} {fields : List (Str × Value)}
    (h : ∀ field ∈ fields, field.1 < name) :
    insertField name v fields = fields ++ [(name, v)] := by
  induction fields with
  | nil => rfl
  | cons field fields ih =>
    obtain ⟨key, w⟩ := field
    rw [List.forall_mem_cons] at h
    have hlt : ¬ name < key := List.lt_asymm h.1
    have hne : name ≠ key := fun heq => List.lt_irrefl key (heq ▸ h.1)
    rw [insertField, if_neg hlt, if_neg hne, ih h.2]
    rfl

/-- Fields that are in order stay so. -/
theorem btreeMap_of_sorted {fields : List (Str × Value)}
    (h : (fields.map Prod.fst).Pairwise (· < ·)) : btreeMap fields = fields := by
  have hfold : ∀ done, ((done ++ fields).map Prod.fst).Pairwise (· < ·) →
      fields.foldl (fun map field => insertField field.1 field.2 map) done = done ++ fields := by
    clear h
    induction fields with
    | nil => exact fun done _ => (List.append_nil done).symm
    | cons field fields ih =>
      intro done h
      have hlast : ∀ f ∈ done, f.1 < field.1 := by
        rw [List.map_append, List.pairwise_append] at h
        exact fun f hf => h.2.2 f.1 (List.mem_map_of_mem hf) field.1 List.mem_cons_self
      rw [List.foldl_cons, insertField_last hlast, ih, List.append_assoc]
      · rfl
      · rwa [List.append_assoc]
  exact hfold [] h

end

/-! ### The normal form -/

namespace RepodataEntry

/-- The names of the fields. -/
def fieldNames : List Str :=
  ["attestation_sha256", "build", "build_number", "constrains", "depends", "filename", "license",
  "license_family", "md5", "name", "sha256", "size", "subdir", "timestamp", "version"].map
  String.toList

theorem map_fst_slots (e : RepodataEntry) : e.slots.map Prod.fst = fieldNames := rfl

theorem fieldNames_sorted : fieldNames.Pairwise (· < ·) := by decide +kernel

theorem sorted_fields (e : RepodataEntry) : ((present e.slots).map Prod.fst).Pairwise (· < ·) :=
  fieldNames_sorted.sublist (e.map_fst_slots ▸ map_fst_present e.slots)

theorem nodup_slots (e : RepodataEntry) : (e.slots.map Prod.fst).Nodup := by
  rw [map_fst_slots]
  exact fieldNames_sorted.imp fun {a b} (h : a < b) (heq : a = b) => List.lt_irrefl b (heq ▸ h)

theorem toNormalizedJson_eq (e : RepodataEntry) : e.toNormalizedJson = utf8 e.toValue.write := by
  rw [toNormalizedJson, btreeMap_of_sorted e.sorted_fields, toValue]

theorem lookup_fields (e : RepodataEntry) (name : Str) :
    (present e.slots).lookup name = (e.slots.lookup name).join :=
  lookup_present e.nodup_slots name

theorem flat_fields (e : RepodataEntry) : ∀ field ∈ present e.slots, field.2.Flat := by
  intro field hfield
  obtain ⟨⟨name, v⟩, hslot, heq⟩ := List.mem_filterMap.mp hfield
  obtain ⟨w, rfl, rfl⟩ := Option.map_eq_some_iff.mp heq
  have hstring : ∀ (o : Option Str) w, o.map Value.string = some w → w.Flat := by
    intro o w h
    obtain ⟨s, -, rfl⟩ := Option.map_eq_some_iff.mp h
    exact .string s
  have hlist : ∀ (o : Option (List Str)) w, o.map stringArray = some w → w.Flat := by
    intro o w h
    obtain ⟨l, -, rfl⟩ := Option.map_eq_some_iff.mp h
    exact .strings l
  have hnumber :
      ∀ (o : Option UInt64) w, (o.map fun n => Value.number (.pos n)) = some w → w.Flat := by
    intro o w h
    obtain ⟨n, -, rfl⟩ := Option.map_eq_some_iff.mp h
    exact .number n
  have hall : ∀ slot ∈ e.slots, ∀ w, slot.2 = some w → w.Flat := by
    simp only [slots, List.forall_mem_cons]
    refine ⟨hstring _, hstring (some _), hnumber (some _), hlist _, hlist _, hstring (some _),
      hstring _, hstring _, hstring _,
      hstring (some _), hstring (some _), hnumber (some _), hstring (some _), hnumber _,
      hstring (some _), ?_⟩
    exact fun _ h => absurd h List.not_mem_nil
  exact hall _ hslot w rfl

theorem plain_toValue (e : RepodataEntry) : e.toValue.Plain := by
  rw [toValue, Value.Plain, Value.plainFields_iff]
  exact fun field hfield => (e.flat_fields field hfield).plain

/-- The fields tell the entry. -/
theorem slots_injective : Function.Injective slots := by
  have hstring : Function.Injective (Option.map Value.string) :=
    Option.map_injective fun _ _ h => Value.string.inj h
  have harray : Function.Injective stringArray := fun a b h =>
    List.map_injective_iff.mpr (fun _ _ h => Value.string.inj h) (Value.array.inj h)
  have hlist : Function.Injective (Option.map stringArray) := Option.map_injective harray
  have hnumber : Function.Injective (Option.map fun n => Value.number (.pos n)) :=
    Option.map_injective fun _ _ h => Text.Json.Number.pos.inj (Value.number.inj h)
  intro a b h
  simp only [slots, List.cons.injEq, Prod.mk.injEq, true_and, and_true, Option.some.injEq,
    Value.string.injEq, Value.number.injEq,
    Text.Json.Number.pos.injEq, hstring.eq_iff, hlist.eq_iff, hnumber.eq_iff] at h
  obtain ⟨h₁, h₂, h₃, h₄, h₅, h₆, h₇, h₈, h₉, h₁₀, h₁₁, h₁₂, h₁₃, h₁₄, h₁₅⟩ := h
  cases a
  cases b
  simp only [mk.injEq]
  exact ⟨h₁, h₂, h₃, h₄, h₅, h₆, h₇, h₈, h₉, h₁₀, h₁₁, h₁₂, h₁₃, h₁₄, h₁₅⟩

theorem present_injective {a b : RepodataEntry} (h : present a.slots = present b.slots) :
    a = b := by
  have hnames : ∀ e : RepodataEntry, e.slots = fieldNames.map fun name =>
      (name, (e.slots.lookup name).join) := fun e => rfl
  apply slots_injective
  rw [hnames a, hnames b]
  simp only [← lookup_fields, h]

/-- No list is empty. -/
structure Normal (e : RepodataEntry) : Prop where
  depends : e.depends ≠ some []
  constrains : e.constrains ≠ some []

end RepodataEntry

theorem stringsOf_ne_nil (field : Option Value) : stringsOf field ≠ some [] := by
  intro h
  obtain ⟨v, -, h⟩ := Option.bind_eq_some_iff.mp h
  obtain ⟨items, -, h⟩ := Option.bind_eq_some_iff.mp h
  dsimp only at h
  split_ifs at h with hnil
  exact hnil (Option.some.inj h)

theorem stringsOf_stringArray {o : Option (List Str)} (h : o ≠ some []) :
    stringsOf (o.map stringArray) = o := by
  cases o with
  | none => rfl
  | some l =>
    have harr : (l.map Value.string).filterMap Value.asStr = l := by
      rw [List.filterMap_map]
      exact List.filterMap_some
    change (if (l.map Value.string).filterMap Value.asStr = [] then none
      else some ((l.map Value.string).filterMap Value.asStr)) = _
    rw [harr, if_neg fun hnil => h (congrArg some hnil)]

namespace RepodataEntry

/-- What is made of a raw entry is in normal form, and has what was given with it. -/
theorem fromRepodata_normal {filename subdir : Str} {v : Value} {attestation : Option Str}
    {e : RepodataEntry} (h : fromRepodata filename subdir v attestation = some e) :
    e.Normal ∧ e.filename = filename ∧ e.subdir = subdir ∧ e.attestationSha256 = attestation := by
  simp only [fromRepodata, Option.bind_eq_bind, Option.bind_eq_some_iff, Option.some.injEq] at h
  obtain ⟨obj, -, -, -, name, -, -, -, version, -, -, -, build, -, -, -, number, -, -, -, sha256, -,
      -, -, size, -, rfl⟩ := h
  exact ⟨⟨stringsOf_ne_nil _, stringsOf_ne_nil _⟩, rfl, rfl, rfl⟩

/-- A normal form is made of itself. -/
theorem fromRepodata_toValue {e : RepodataEntry} (h : e.Normal) :
    fromRepodata e.filename e.subdir e.toValue e.attestationSha256 = some e := by
  have hstring : ∀ o : Option Str, (o.map Value.string).bind Value.asStr = o := by
    intro o
    cases o <;> rfl
  have hnumber :
      ∀ o : Option UInt64, (o.map fun n => Value.number (.pos n)).bind Value.asU64 = o := by
    intro o
    cases o <;> rfl
  have hlookup : ∀ name v, e.slots.lookup name = some v → (present e.slots).lookup name = v := by
    intro name v hv
    rw [lookup_fields, hv]
    rfl
  simp only [fromRepodata, toValue, Value.asObject, Option.bind_eq_bind, Option.bind_some]
  rw [hlookup "name".toList _ rfl, hlookup "version".toList _ rfl, hlookup "build".toList _ rfl,
    hlookup "build_number".toList _ rfl, hlookup "sha256".toList _ rfl, hlookup "size".toList _ rfl,
    hlookup "constrains".toList _ rfl, hlookup "depends".toList _ rfl,
    hlookup "license".toList _ rfl,
    hlookup "license_family".toList _ rfl, hlookup "md5".toList _ rfl,
    hlookup "timestamp".toList _ rfl,
    stringsOf_stringArray h.depends, stringsOf_stringArray h.constrains, hstring, hstring, hstring,
    hnumber]
  rfl

theorem toNormalizedJson_injective : Function.Injective toNormalizedJson := by
  intro a b h
  rw [toNormalizedJson_eq, toNormalizedJson_eq] at h
  exact present_injective
    (Value.object.inj (Value.write_injective a.plain_toValue b.plain_toValue (utf8_injective h)))

end RepodataEntry

theorem normalizeRepodataEntry_eq_some {filename subdir : Str} {v : Value}
    {attestation : Option Str} {b : Bytes} :
    normalizeRepodataEntry filename subdir v attestation = some b ↔
      ∃ e, RepodataEntry.fromRepodata filename subdir v attestation = some e ∧
        e.toNormalizedJson = b := by
  simp [normalizeRepodataEntry, Option.bind_eq_some_iff]

/-- Two entries have one normal form exactly if the same is kept of them. The normal form is
one line of compact JSON with its fields in order, and read as a raw entry it is its own
normal form. -/
theorem normalizeRepodataEntry_canonical :
    (∀ filename subdir v attestation filename' subdir' v' attestation' b b',
      normalizeRepodataEntry filename subdir v attestation = some b →
      normalizeRepodataEntry filename' subdir' v' attestation' = some b' →
      (b = b' ↔ RepodataEntry.fromRepodata filename subdir v attestation =
        RepodataEntry.fromRepodata filename' subdir' v' attestation')) ∧
    ∀ filename subdir v attestation b, normalizeRepodataEntry filename subdir v attestation =
      some b →
      ∃ fields : List (Str × Value), b = utf8 (Value.object fields).write ∧
        (fields.map Prod.fst).Pairwise (· < ·) ∧
        normalizeRepodataEntry filename subdir (.object fields) attestation = some b ∧ b ≠ [] ∧
        ∀ x ∈ b, 32 ≤ x.toNat := by
  constructor
  · intro filename subdir v attestation filename' subdir' v' attestation' b b' h h'
    obtain ⟨e, he, rfl⟩ := normalizeRepodataEntry_eq_some.mp h
    obtain ⟨e', he', rfl⟩ := normalizeRepodataEntry_eq_some.mp h'
    rw [he, he', Option.some.injEq, RepodataEntry.toNormalizedJson_injective.eq_iff]
  · intro filename subdir v attestation b h
    obtain ⟨e, he, rfl⟩ := normalizeRepodataEntry_eq_some.mp h
    obtain ⟨hnormal, rfl, rfl, rfl⟩ := RepodataEntry.fromRepodata_normal he
    have hline := Value.utf8_write_line e.plain_toValue
    rw [← e.toNormalizedJson_eq] at hline
    exact ⟨present e.slots, e.toNormalizedJson_eq, e.sorted_fields,
      normalizeRepodataEntry_eq_some.mpr ⟨e, RepodataEntry.fromRepodata_toValue hnormal, rfl⟩,
      hline⟩

end Siglog.Conda
