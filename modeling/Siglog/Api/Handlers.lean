import Siglog.Api.ParsePath
import Siglog.Storage.Server
import Siglog.Import.Bulk
import Siglog.Witness.Request

/-! The handlers of the log: who may write, what may be added, and how the stored objects
are read by their names. -/

namespace Siglog.Api

open Concurrent (Prog)
open Import (maxEntrySize)
open Storage (Op Server perform)
open Text (Str decimal utf8 utf8_injective stripPrefix stripPrefix_append splitOnce splitOnce_char
  splitOnce_char_iff)
open Witness (Response)

/-! ### Writes -/

/-- A comparison that looks at all bytes. -/
def constantTimeEq (a b : Bytes) : Bool :=
  if a.length ≠ b.length then false
  else (a.zip b).foldl (fun diff (left, right) => diff ||| (left ^^^ right)) (0 : UInt8) == 0

/-- `to_str` of a header value. -/
def headerStr (value : Bytes) : Option Str :=
  if value.all fun b => (32 ≤ b.toNat && b.toNat < 127) || b ==
    9 then some (value.map fun b => Char.ofNat b.toNat)
  else none

/-- Writes need the key, if there is one. -/
def authorizeWrite (apiKey : Option Str) (authorization : Option Bytes) : Except Error Unit :=
  match apiKey with
  | none => .ok ()
  | some expectedKey =>
    match (authorization.bind headerStr).bind (stripPrefix "Bearer ".toList) with
    | some token =>
      if constantTimeEq (utf8 token) (utf8 expectedKey) then .ok () else .error .unauthorized
    | none => .error .unauthorized

/-- `add_entry`, up to its call of the sequencer. -/
def addEntry {H : Type} [Sha256Hash H] (apiKey : Option Str) (authorization : Option Bytes)
    (body : Bytes) :
    Except Error (Entry H) := do
  authorizeWrite apiKey authorization
  if body = [] then .error (.invalidEntry "empty entry")
  else if body.length > maxEntrySize then
    .error (.invalidEntry s!"entry too large: {body.length} bytes (max {maxEntrySize} bytes)")
  else .ok (Entry.new body)

theorem or_eq_zero {a b : UInt8} : a ||| b = 0 ↔ a = 0 ∧ b = 0 := by
  constructor
  · intro h
    have hnat : a.toNat ||| b.toNat = 0 := by rw [← UInt8.toNat_or, h]; rfl
    obtain ⟨ha, hb⟩ := Nat.or_eq_zero_iff.mp hnat
    exact ⟨UInt8.toNat_inj.mp ha, UInt8.toNat_inj.mp hb⟩
  · rintro ⟨rfl, rfl⟩
    rfl

theorem foldl_diff {l : List (UInt8 × UInt8)} : ∀ {diff : UInt8},
    l.foldl (fun diff (left, right) => diff ||| (left ^^^ right)) diff = 0 ↔ diff = 0 ∧
    ∀ p ∈ l, p.1 = p.2 := by
  induction l with
  | nil => simp
  | cons p l ih =>
    intro diff
    obtain ⟨left, right⟩ := p
    rw [List.foldl_cons, ih, or_eq_zero, List.forall_mem_cons, UInt8.xor_eq_zero_iff, and_assoc]

theorem constantTimeEq_iff {a b : Bytes} : constantTimeEq a b = true ↔ a = b := by
  rw [constantTimeEq]
  split_ifs with hlen
  · refine iff_of_false (by simp) ?_
    rintro rfl
    exact hlen rfl
  · rw [not_not] at hlen
    rw [beq_iff_eq, foldl_diff]
    constructor
    · rintro ⟨-, h⟩
      refine List.ext_getElem hlen fun i hi hi' => ?_
      have hzip : i < (a.zip b).length := by
        rw [List.length_zip]
        exact Nat.lt_min.mpr ⟨hi, hi'⟩
      have := h _ (List.getElem_mem hzip)
      rwa [List.getElem_zip] at this
    · rintro rfl
      refine ⟨rfl, fun p hp => ?_⟩
      obtain ⟨i, hi, rfl⟩ := List.mem_iff_getElem.mp hp
      rw [List.getElem_zip]

/-- A character that may stand in a header. -/
def Visible (c : Char) : Prop := (32 ≤ c.toNat ∧ c.toNat < 127) ∨ c.toNat = 9

instance (c : Char) : Decidable (Visible c) := inferInstanceAs (Decidable (_ ∨ _))

theorem headerStr_iff {value : Bytes} {t : Str} : headerStr value = some t ↔ value = utf8 t ∧
    ∀ c ∈ t, Visible c := by
  have hchar : ∀ b : UInt8, b.toNat < 128 → (Char.ofNat b.toNat).toNat = b.toNat := by
    intro b hb
    have hall : ∀ n : Fin 128, (Char.ofNat n.val).toNat = n.val := by decide
    exact hall ⟨b.toNat, hb⟩
  have hvisible : ∀ b : UInt8, ((32 ≤ b.toNat && b.toNat < 127) || b == 9) = true ↔
      (32 ≤ b.toNat ∧ b.toNat < 127) ∨ b.toNat = 9 := by
    intro b
    rw [Bool.or_eq_true, Bool.and_eq_true, decide_eq_true_eq, decide_eq_true_eq, beq_iff_eq,
      ← UInt8.toNat_inj]
    rfl
  constructor
  · intro h
    unfold headerStr at h
    split_ifs at h with hall
    obtain rfl := Option.some.inj h
    have hbytes : ∀ b ∈ value, (32 ≤ b.toNat ∧ b.toNat < 127) ∨ b.toNat = 9 :=
      fun b hb => (hvisible b).mp (List.all_eq_true.mp hall b hb)
    have htext : ∀ c ∈ value.map fun b => Char.ofNat b.toNat, Visible c := by
      intro c hc
      obtain ⟨b, hb, rfl⟩ := List.mem_map.mp hc
      rw [Visible, hchar b (by have := hbytes b hb; omega)]
      exact hbytes b hb
    refine ⟨?_, htext⟩
    rw [Text.utf8_ascii fun c hc => by
        have := htext c hc; unfold Visible at this; omega, List.map_map]
    refine ((List.map_congr_left fun b hb => ?_).trans (List.map_id _)).symm
    have := hbytes b hb
    exact UInt8.toNat_inj.mp (by simp [hchar b (by omega)])
  · rintro ⟨rfl, ht⟩
    have hascii : ∀ c ∈ t, c.toNat < 128 := fun c hc => by
      have := ht c hc; unfold Visible at this; omega
    have hbyte : ∀ c ∈ t, (UInt8.ofNat c.toNat).toNat = c.toNat := fun c hc => by
      rw [UInt8.toNat_ofNat']
      exact Nat.mod_eq_of_lt (by have := hascii c hc; omega)
    rw [Text.utf8_ascii hascii, headerStr, if_pos, List.map_map]
    · refine congrArg some ((List.map_congr_left fun c hc => ?_).trans (List.map_id _))
      simp only [Function.comp_apply, id_eq]
      rw [hbyte c hc, Char.ofNat_toNat]
    · refine List.all_eq_true.mpr fun b hb => ?_
      obtain ⟨c, hc, rfl⟩ := List.mem_map.mp hb
      refine (hvisible _).mpr ?_
      rw [hbyte c hc]
      exact ht c hc

theorem stripPrefix_iff {pat t rest : Str} : stripPrefix pat t = some rest ↔ t = pat ++ rest := by
  constructor
  · intro h
    unfold stripPrefix at h
    split_ifs at h with hpat
    obtain rfl := Option.some.inj h
    exact (List.prefix_iff_eq_append.mp (List.isPrefixOf_iff_prefix.mp hpat)).symm
  · rintro rfl
    exact stripPrefix_append pat rest

/-- A write is allowed with the one header that has the key, and with any if there is no key. -/
theorem authorizeWrite_iff {apiKey : Option Str} {authorization : Option Bytes} :
    authorizeWrite apiKey authorization = .ok () ↔ ∀ key, apiKey = some key →
      authorization = some (utf8 ("Bearer ".toList ++ key)) ∧ ∀ c ∈ key, Visible c := by
  cases apiKey with
  | none => simp [authorizeWrite]
  | some key =>
    have hbearer : ∀ c ∈ "Bearer ".toList, Visible c := by decide
    rw [authorizeWrite]
    constructor
    · intro h key' hkey
      obtain rfl := Option.some.inj hkey
      split at h
      · rename_i token htoken
        split_ifs at h with heq
        obtain rfl := utf8_injective (constantTimeEq_iff.mp heq)
        obtain ⟨text, htext, hstrip⟩ := Option.bind_eq_some_iff.mp htoken
        obtain ⟨value, rfl, hvalue⟩ := Option.bind_eq_some_iff.mp htext
        obtain ⟨rfl, hvisible⟩ := headerStr_iff.mp hvalue
        obtain rfl := stripPrefix_iff.mp hstrip
        exact ⟨rfl, fun c hc => hvisible c (List.mem_append_right _ hc)⟩
      · cases h
    · intro h
      obtain ⟨rfl, hvisible⟩ := h key rfl
      have hheader :
          headerStr (utf8 ("Bearer ".toList ++ key)) = some ("Bearer ".toList ++ key) := by
        refine headerStr_iff.mpr ⟨rfl, fun c hc => ?_⟩
        rcases List.mem_append.mp hc with hc | hc
        · exact hbearer c hc
        · exact hvisible c hc
      rw [Option.bind_some, hheader, Option.bind_some, stripPrefix_append]
      dsimp only
      rw [if_pos (constantTimeEq_iff.mpr rfl)]

/-- What comes to the sequencer fits into a bundle. -/
theorem addEntry_eq_ok {H : Type} [Sha256Hash H] {apiKey : Option Str}
    {authorization : Option Bytes} {body : Bytes}
    {entry : Entry H} : addEntry apiKey authorization body = .ok entry ↔
      authorizeWrite apiKey authorization = .ok () ∧ body ≠ [] ∧ body.length ≤ maxEntrySize ∧
      entry = Entry.new body := by
  constructor
  · intro h
    obtain ⟨_, hauth, h⟩ := bind_eq_ok h
    split_ifs at h with hempty hlong
    exact ⟨hauth, hempty, Nat.le_of_not_lt hlong, (Except.ok.inj h).symm⟩
  · rintro ⟨hauth, hempty, hlen, rfl⟩
    rw [addEntry, hauth]
    simp only [bind, Except.bind]
    rw [if_neg hempty, if_neg (Nat.not_lt_of_le hlen)]

/-! ### Reads -/

/-- The status and the text of an error. -/
def errorResponse : Error → Response
  | .notFound e => ⟨404, utf8 (Error.notFound e).display.toList⟩
  | .unauthorized => ⟨401, utf8 Error.unauthorized.display.toList⟩
  | .duplicate index => ⟨409, utf8 (Error.duplicate index).display.toList⟩
  | .invalidPath e => ⟨400, utf8 (Error.invalidPath e).display.toList⟩
  | .invalidEntry e => ⟨400, utf8 (Error.invalidEntry e).display.toList⟩
  | .indexFull e => ⟨503, utf8 (Error.indexFull e).display.toList⟩
  | _ => ⟨500, utf8 "Internal server error".toList⟩

section

variable {H : Type}

namespace Handlers

def getCheckpoint : Server H Bytes := do
  match ← perform (.readObject checkpointPath) with
  | some data => .pure data
  | none => .fail (.err (.notFound "checkpoint not found"))

def getTile (level path : Str) : Server H Bytes := do
  let (level, index, part) ← Prog.ofExcept (parseTilePath level path)
  match ← perform (.readObject (tilePath level index part)) with
  | some data => .pure data
  | none =>
    .fail (.err (.notFound ("tile not found: " ++ String.ofList (tilePath level index part))))

def getEntries (path : Str) : Server H Bytes := do
  let (index, part) ← Prog.ofExcept (parseTileIndex path)
  match ← perform (.readObject (entriesPath index part)) with
  | some data => .pure data
  | none =>
    .fail (.err (.notFound ("entries not found: " ++ String.ofList (entriesPath index part))))

/-- The handler of a path. A level or a path that is empty is no route. -/
def route (path : Str) : Option (Server H Bytes) :=
  if path = checkpointPath then some getCheckpoint
  else
    match (stripPrefix "tile/".toList path).bind (splitOnce ['/']) with
    | none => none
    | some (level, rest) =>
      if level = [] ∨ rest = [] then none
      else if level = "entries".toList then some (getEntries rest)
      else some (getTile level rest)

/-- The response to a read. -/
def get (path : Str) : Server H Response :=
  match route path with
  | none => .pure ⟨404, []⟩
  | some handler => do
    match ← handler.attempt with
    | .ok data => .pure ⟨200, data⟩
    | .error (.err e) => .pure (errorResponse e)
    | .error .panic => .fail .panic

end Handlers

theorem formatNWithSuffix_ne_nil (index part : ℕ) : formatNWithSuffix index part ≠ [] := by
  have hdigits : formatN index ≠ [] := by
    obtain ⟨groups, last, -, -, -, -, hformat⟩ := exists_formatN index
    rw [hformat, groupPath]
    simp [digits3]
  unfold formatNWithSuffix
  split_ifs
  · simp
  · exact hdigits

/-- The handler of the name of a tile. -/
theorem route_tilePath (level index part : ℕ) : Handlers.route (tilePath level index part) =
    some (Handlers.getTile (decimal level) (formatNWithSuffix index part) : Server H Bytes) := by
  have hslash : '/' ∉ decimal level := by
    intro hmem
    have := Text.isDigit_of_mem_decimal hmem
    cases this
  have hentries : decimal level ≠ "entries".toList := by
    intro h
    have hmem : 'e' ∈ decimal level := by
      rw [h]
      decide
    have := Text.isDigit_of_mem_decimal hmem
    cases this
  have hsplit : tilePath level index part = "tile/".toList ++
      (decimal level ++ '/' :: formatNWithSuffix index part) :=
    List.append_assoc ..
  rw [Handlers.route, if_neg (checkpointPath_ne_tilePath level index part).symm, hsplit,
    stripPrefix_append, Option.bind_some, splitOnce_char hslash]
  dsimp only
  rw [if_neg, if_neg hentries]
  rw [not_or]
  exact ⟨Text.decimal_ne_nil level, formatNWithSuffix_ne_nil index part⟩

theorem route_entriesPath (index part : ℕ) : Handlers.route (entriesPath index part) =
    some (Handlers.getEntries (formatNWithSuffix index part) : Server H Bytes) := by
  have hsplit : entriesPath index part =
      "tile/".toList ++ ("entries".toList ++ '/' :: formatNWithSuffix index part) := rfl
  rw [Handlers.route, if_neg (checkpointPath_ne_entriesPath index part).symm, hsplit,
    stripPrefix_append, Option.bind_some, splitOnce_char (by decide)]
  dsimp only
  rw [if_neg, if_pos rfl]
  rw [not_or]
  exact ⟨by decide, formatNWithSuffix_ne_nil index part⟩

end

end Siglog.Api
