import Nyuka.Domain.Library
import Nyuka.Foundation.Lines
import Nyuka.Foundation.Utf8
import Nyuka.Packaging.Paths

/-! What reaches the log: each line with the values under sensitive keys masked. -/
namespace Nyuka.Redaction
open Packaging (isWhitespace)

/-- What a redacted value is replaced with. -/
def mask : String := "***"

/-- Fragments of field names whose values must never be printed. -/
def sensitive : List String :=
  ["authorization", "cookie", "set-cookie", "token", "secret", "password", "api-key", "api_key"]

def isSensitive (field : String) : Bool :=
  let lowered := field.toList.map Char.toLower
  sensitive.any fun needle => decide (needle.toList <:+: lowered)

mutual
def redactWith (hide : String → Bool) : JsonValue → JsonValue
  | .object members => .object (redactMembers hide members)
  | .array items => .array (redactItems hide items)
  | .null => .null
  | .bool b => .bool b
  | .number text => .number text
  | .string s => .string s

def redactItems (hide : String → Bool) : List JsonValue → List JsonValue
  | [] => []
  | item :: items => redactWith hide item :: redactItems hide items

def redactMembers (hide : String → Bool) : List (String × JsonValue) → List (String × JsonValue)
  | [] => []
  | (key, child) :: members =>
    (key, if hide key then .string mask else redactWith hide child) :: redactMembers hide members
end

def redactValue (value : JsonValue) : JsonValue := redactWith isSensitive value

theorem redactItems_eq_map (hide : String → Bool) (items : List JsonValue) :
    redactItems hide items = items.map (redactWith hide) := by
  induction items with
  | nil => rfl
  | cons item items ih => rw [redactItems, ih, List.map_cons]

theorem redactMembers_eq_map (hide : String → Bool) (members : List (String × JsonValue)) :
    redactMembers hide members = members.map fun m =>
      (m.1, if hide m.1 then .string mask else redactWith hide m.2) := by
  induction members with
  | nil => rfl
  | cons m members ih => rw [redactMembers, ih, List.map_cons]

/-- The value is stored under the key, at any depth. -/
inductive Holds : JsonValue → String → JsonValue → Prop
  | member {members : List (String × JsonValue)} {key : String} {value : JsonValue} :
      (key, value) ∈ members → Holds (.object members) key value
  | inMember {members : List (String × JsonValue)} {name key : String} {child value : JsonValue} :
      (name, child) ∈ members → Holds child key value → Holds (.object members) key value
  | inItem {items : List JsonValue} {item : JsonValue} {key : String} {value : JsonValue} :
      item ∈ items → Holds item key value → Holds (.array items) key value

mutual
/-- Values are alike if they differ under sensitive keys only. -/
inductive Alike : JsonValue → JsonValue → Prop
  | refl (value : JsonValue) : Alike value value
  | array {items items' : List JsonValue} : AlikeItems items items' →
      Alike (.array items) (.array items')
  | object {members members' : List (String × JsonValue)} : AlikeMembers members members' →
      Alike (.object members) (.object members')

inductive AlikeItems : List JsonValue → List JsonValue → Prop
  | nil : AlikeItems [] []
  | cons {item item' : JsonValue} {items items' : List JsonValue} : Alike item item' →
      AlikeItems items items' → AlikeItems (item :: items) (item' :: items')

inductive AlikeMembers : List (String × JsonValue) → List (String × JsonValue) → Prop
  | nil : AlikeMembers [] []
  | secret {key : String} {child child' : JsonValue}
      {members members' : List (String × JsonValue)} :
      isSensitive key = true → AlikeMembers members members' →
        AlikeMembers ((key, child) :: members) ((key, child') :: members')
  | plain {key : String} {child child' : JsonValue} {members members' : List (String × JsonValue)} :
      Alike child child' → AlikeMembers members members' →
        AlikeMembers ((key, child) :: members) ((key, child') :: members')
end

/-- The redaction of a value does not depend on what is under its sensitive keys. -/
theorem Alike.redactValue_eq {value value' : JsonValue} (h : Alike value value') :
    redactValue value = redactValue value' := by
  refine @Alike.rec (fun v v' _ => redactValue v = redactValue v')
    (fun items items' _ => redactItems isSensitive items = redactItems isSensitive items')
    (fun members members' _ =>
      redactMembers isSensitive members = redactMembers isSensitive members')
    ?_ ?_ ?_ ?_ ?_ ?_ ?_ ?_ value value' h
  · exact fun value => rfl
  · exact fun _ hitems => congrArg JsonValue.array hitems
  · exact fun _ hmembers => congrArg JsonValue.object hmembers
  · rfl
  · exact fun _ _ hitem hitems => congrArg₂ List.cons hitem hitems
  · rfl
  · intro key child child' members members' hkey _ hmembers
    rw [redactMembers, redactMembers, hmembers, if_pos hkey, if_pos hkey]
  · intro key child child' members members' _ _ hchild hmembers
    have hchild : redactWith isSensitive child = redactWith isSensitive child' := hchild
    rw [redactMembers, redactMembers, hmembers, hchild]

theorem eq_object_of_redactWith {hide : String → Bool} {value : JsonValue}
    {members : List (String × JsonValue)} (h : redactWith hide value = .object members) :
    ∃ members', value = .object members' ∧ members = redactMembers hide members' := by
  cases value with
  | object members' => exact ⟨members', rfl, (JsonValue.object.inj h).symm⟩
  | _ => simp [redactWith] at h

private theorem eq_array_of_redactWith {hide : String → Bool} {value : JsonValue}
    {items : List JsonValue} (h : redactWith hide value = .array items) :
    ∃ items', value = .array items' ∧ items = redactItems hide items' := by
  cases value with
  | array items' => exact ⟨items', rfl, (JsonValue.array.inj h).symm⟩
  | _ => simp [redactWith] at h

/-- What is stored under a hidden key of a redacted value is the mask. -/
theorem eq_mask_of_holds {hide : String → Bool} {value child : JsonValue} {key : String}
    (h : Holds (redactWith hide value) key child) (hkey : hide key = true) :
    child = .string mask := by
  generalize hredacted : redactWith hide value = redacted at h
  induction h generalizing value with
  | member hmem =>
    obtain ⟨members', rfl, rfl⟩ := eq_object_of_redactWith hredacted
    rw [redactMembers_eq_map] at hmem
    obtain ⟨m, -, hm⟩ := List.mem_map.mp hmem
    obtain ⟨rfl, hchild⟩ := Prod.mk.inj hm
    rw [← hchild, if_pos hkey]
  | inMember hmem hholds ih =>
    obtain ⟨members', rfl, rfl⟩ := eq_object_of_redactWith hredacted
    rw [redactMembers_eq_map] at hmem
    obtain ⟨m, -, hm⟩ := List.mem_map.mp hmem
    obtain ⟨rfl, hchild⟩ := Prod.mk.inj hm
    split at hchild
    · -- the mask itself holds nothing
      subst hchild
      cases hholds
    · exact ih hkey hchild
  | inItem hmem _ ih =>
    obtain ⟨items', rfl, rfl⟩ := eq_array_of_redactWith hredacted
    rw [redactItems_eq_map] at hmem
    obtain ⟨item', -, hitem⟩ := List.mem_map.mp hmem
    exact ih hkey hitem

theorem redactWith_redactWith (hide : String → Bool) (value : JsonValue) :
    redactWith hide (redactWith hide value) = redactWith hide value := by
  induction value using JsonValue.value_induction with
  | object members ih =>
    rw [redactWith, redactWith, redactMembers_eq_map, redactMembers_eq_map, List.map_map]
    refine congrArg JsonValue.object (List.map_congr_left fun m hm => ?_)
    by_cases hkey : hide m.1 = true
    · simp only [Function.comp_apply, hkey, ↓reduceIte]
    · simp only [Function.comp_apply, hkey, Bool.false_eq_true, ↓reduceIte, ih m hm]
  | array items ih =>
    rw [redactWith, redactWith, redactItems_eq_map, redactItems_eq_map, List.map_map]
    exact congrArg JsonValue.array (List.map_congr_left ih)
  | null => rfl
  | bool b => rfl
  | number text => rfl
  | string s => rfl

mutual
/-- The value with the digits of its numbers left out. -/
def withoutDigits : JsonValue → JsonValue
  | .object members => .object (membersWithoutDigits members)
  | .array items => .array (itemsWithoutDigits items)
  | .null => .null
  | .bool b => .bool b
  | .number _ => .number ""
  | .string s => .string s

def itemsWithoutDigits : List JsonValue → List JsonValue
  | [] => []
  | item :: items => withoutDigits item :: itemsWithoutDigits items

def membersWithoutDigits : List (String × JsonValue) → List (String × JsonValue)
  | [] => []
  | (key, child) :: members => (key, withoutDigits child) :: membersWithoutDigits members
end

theorem itemsWithoutDigits_eq_map (items : List JsonValue) :
    itemsWithoutDigits items = items.map withoutDigits := by
  induction items with
  | nil => rfl
  | cons item items ih => rw [itemsWithoutDigits, ih, List.map_cons]

theorem membersWithoutDigits_eq_map (members : List (String × JsonValue)) :
    membersWithoutDigits members = members.map fun m => (m.1, withoutDigits m.2) := by
  induction members with
  | nil => rfl
  | cons m members ih => rw [membersWithoutDigits, ih, List.map_cons]

theorem withoutDigits_redactWith (hide : String → Bool) (value : JsonValue) :
    withoutDigits (redactWith hide value) = redactWith hide (withoutDigits value) := by
  induction value using JsonValue.value_induction with
  | object members ih =>
    rw [redactWith, withoutDigits, withoutDigits, redactWith, redactMembers_eq_map,
      redactMembers_eq_map, membersWithoutDigits_eq_map, membersWithoutDigits_eq_map, List.map_map,
      List.map_map]
    refine congrArg JsonValue.object (List.map_congr_left fun m hm => ?_)
    by_cases hkey : hide m.1 = true
    · simp only [Function.comp_apply, hkey, ↓reduceIte, withoutDigits]
    · simp only [Function.comp_apply, hkey, Bool.false_eq_true, ↓reduceIte, ih m hm]
  | array items ih =>
    rw [redactWith, withoutDigits, withoutDigits, redactWith, redactItems_eq_map,
      redactItems_eq_map, itemsWithoutDigits_eq_map, itemsWithoutDigits_eq_map, List.map_map,
      List.map_map]
    exact congrArg JsonValue.array (List.map_congr_left ih)
  | null => rfl
  | bool b => rfl
  | number text => rfl
  | string s => rfl

theorem Holds.withoutDigits {value child : JsonValue} {key : String} (h : Holds value key child) :
    Holds (withoutDigits value) key (withoutDigits child) := by
  induction h with
  | member hmem =>
    rw [Redaction.withoutDigits, membersWithoutDigits_eq_map]
    exact .member (List.mem_map_of_mem hmem)
  | inMember hmem _ ih =>
    rw [Redaction.withoutDigits, membersWithoutDigits_eq_map]
    exact .inMember (List.mem_map_of_mem hmem) ih
  | inItem hmem _ ih =>
    rw [Redaction.withoutDigits, itemsWithoutDigits_eq_map]
    exact .inItem (List.mem_map_of_mem hmem) ih

/-- The masks do not depend on the digits of the numbers around them. -/
theorem eq_mask_of_withoutDigits {hide : String → Bool} {value again child : JsonValue}
    {key : String} (h : withoutDigits again = withoutDigits (redactWith hide value))
    (hholds : Holds again key child) (hkey : hide key = true) : child = .string mask := by
  have hmasked := hholds.withoutDigits
  rw [h, withoutDigits_redactWith] at hmasked
  have hchild := eq_mask_of_holds hmasked hkey
  cases child with
  | string s => exact hchild
  | _ => simp [withoutDigits] at hchild

/-- `serde_json`: what it reads in a text, and what it prints. -/
structure SerdeJson where
  fromStr : List Char → Option JsonValue
  toString : JsonValue → Option (List Char)

def dropped : List Char :=
  "\x7b\"redaction\":\"line could not be parsed and was dropped\"\x7d".toList

/-- Masks the sensitive keys in one formatted JSON line. -/
def redactLine (json : SerdeJson) (line : Bytes) : List Char :=
  match Text.fromUtf8 line with
  | none => dropped
  | some text =>
    if Text.trimMatches isWhitespace text = [] then []
    else match json.fromStr text with
      | some value => (json.toString (redactValue value)).getD dropped
      -- an unparsed text may hold what is to be masked
      | none => dropped

/-- What has been written on, and the line that is not yet complete. -/
structure RedactingWriter where
  inner : Bytes
  pending : Bytes

namespace RedactingWriter

/-- A redacted line with its end. -/
def rendered (json : SerdeJson) (line : Bytes) : Bytes := Text.utf8 (redactLine json line) ++ [10]

/-- The loop over the complete lines, of which there are no more than bytes. -/
def drainLines (json : SerdeJson) : ℕ → RedactingWriter → RedactingWriter
  | 0, w => w
  | n + 1, w =>
    match w.pending.findIdx? (· == 10) with
    | none => w
    | some pos =>
      drainLines json n
        { inner := w.inner ++ rendered json (w.pending.take pos)
          pending := w.pending.drop (pos + 1) }

def write (json : SerdeJson) (w : RedactingWriter) (buf : Bytes) : RedactingWriter :=
  let w := { w with pending := w.pending ++ buf }
  drainLines json w.pending.length w

/-- A rest without a newline is still a log line. -/
def flush (json : SerdeJson) (w : RedactingWriter) : RedactingWriter :=
  if w.pending = [] then w
  else { inner := w.inner ++ rendered json w.pending, pending := [] }

/-- All that comes out of a writer that is given these pieces and dropped. -/
def output (json : SerdeJson) (pieces : List Bytes) : Bytes :=
  (flush json (pieces.foldl (write json) ⟨[], []⟩)).inner

/-- The first newline ends the first line. -/
theorem pending_of_findIdx? {pending : Bytes} {pos : ℕ}
    (h : pending.findIdx? (· == 10) = some pos) :
    10 ∉ pending.take pos ∧ pending = pending.take pos ++ 10 :: pending.drop (pos + 1) := by
  obtain ⟨hlt, hpos, hbefore⟩ := List.findIdx?_eq_some_iff_getElem.mp h
  constructor
  · intro hmem
    obtain ⟨j, hj, hget⟩ := List.mem_take_iff_getElem.mp hmem
    exact hbefore j (by omega) (beq_iff_eq.mpr hget)
  · have hcons := List.getElem_cons_drop hlt
    rw [beq_iff_eq.mp hpos] at hcons
    rw [hcons, List.take_append_drop]

private theorem drainLines_eq (json : SerdeJson) (n : ℕ) (w : RedactingWriter)
    (hn : w.pending.length ≤ n) :
    drainLines json n w =
      { inner := w.inner ++ (Lines.split 10 w.pending).1.flatMap (rendered json)
        pending := (Lines.split 10 w.pending).2 } := by
  obtain ⟨inner, pending⟩ := w
  induction n generalizing inner pending with
  | zero =>
    obtain rfl : pending = [] := List.length_eq_zero_iff.mp (Nat.le_zero.mp hn)
    simp [drainLines, Lines.split]
  | succ n ih =>
    rw [drainLines]
    cases hpos : pending.findIdx? (· == 10) with
    | none =>
      have hnot : (10 : UInt8) ∉ pending := fun hmem => by
        simpa using List.findIdx?_eq_none_iff.mp hpos 10 hmem
      simp [Lines.split_of_notMem hnot]
    | some pos =>
      obtain ⟨hline, hpending⟩ := pending_of_findIdx? hpos
      have hlength : (pending.drop (pos + 1)).length ≤ n := by
        have hdrop := congrArg List.length hpending
        simp only [List.length_append, List.length_cons] at hdrop hn
        omega
      have hsplit := Lines.split_line_append hline (pending.drop (pos + 1))
      rw [← hpending] at hsplit
      simp only [ih _ _ hlength, hsplit, List.flatMap_cons, List.append_assoc]

/-- A piece is taken up by emitting the lines it completes. -/
theorem write_eq (json : SerdeJson) (w : RedactingWriter) (buf : Bytes) :
    write json w buf =
      { inner := w.inner ++ (Lines.split 10 (w.pending ++ buf)).1.flatMap (rendered json)
        pending := (Lines.split 10 (w.pending ++ buf)).2 } :=
  drainLines_eq json _ { w with pending := w.pending ++ buf } (Nat.le_refl _)

/-- What was written in pieces is what would have been written at once. -/
theorem foldl_write (json : SerdeJson) (pieces : List Bytes) :
    pieces.foldl (write json) ⟨[], []⟩ =
      { inner := (Lines.split 10 pieces.flatten).1.flatMap (rendered json)
        pending := (Lines.split 10 pieces.flatten).2 } := by
  induction pieces using List.reverseRecOn with
  | nil => rfl
  | append_singleton pieces piece ih =>
    rw [List.foldl_append, ih, List.foldl_cons, List.foldl_nil, write_eq, List.flatten_append,
      List.flatten_singleton, Lines.split_append pieces.flatten piece, List.flatMap_append]

/-- The output is the redacted lines and the redacted rest, however they were cut. -/
theorem output_eq (json : SerdeJson) (pieces : List Bytes) :
    output json pieces = (Lines.split 10 pieces.flatten).1.flatMap (rendered json) ++
      if (Lines.split 10 pieces.flatten).2 = [] then []
      else rendered json (Lines.split 10 pieces.flatten).2 := by
  rw [output, foldl_write, flush]
  split <;> simp [*]

end RedactingWriter

/-- What `serde_json` does: blank text is no value; a value that it read, with the values of any
keys masked, it prints on one line. What it reads there is that value, but for the digits of the
numbers: fractions are read with best-effort precision. The line that stands for a dropped one is
the text of a value. -/
structure SerdeJson.Lawful (json : SerdeJson) : Prop where
  read_not_blank : ∀ text value, json.fromStr text = some value →
    Text.trimMatches isWhitespace text ≠ []
  read_printed : ∀ text value, json.fromStr text = some value → ∀ hide : String → Bool,
    ∃ printed, json.toString (redactWith hide value) = some printed ∧
      Text.trimMatches isWhitespace printed ≠ [] ∧ '\n' ∉ printed ∧
      ∀ again, json.fromStr printed = some again →
        withoutDigits again = withoutDigits (redactWith hide value)
  read_dropped : json.fromStr dropped =
    some (.object [("redaction", .string "line could not be parsed and was dropped")])
  print_dropped : json.toString
    (.object [("redaction", .string "line could not be parsed and was dropped")]) = some dropped

section Line
variable {json : SerdeJson} {line line' : Bytes} {value value' : JsonValue}

/-- The line is the text of the value. -/
def Reads (json : SerdeJson) (line : Bytes) (value : JsonValue) : Prop :=
  ∃ text, Text.fromUtf8 line = some text ∧ json.fromStr text = some value

@[simp] theorem reads_utf8 {text : List Char} :
    Reads json (Text.utf8 text) value ↔ json.fromStr text = some value := by
  rw [Reads, Text.fromUtf8_utf8]
  exact ⟨fun ⟨text', htext, hvalue⟩ => Option.some.inj htext ▸ hvalue, fun h => ⟨text, rfl, h⟩⟩

theorem redactLine_of_reads (hjson : json.Lawful) (h : Reads json line value) :
    json.toString (redactValue value) = some (redactLine json line) := by
  obtain ⟨text, htext, hvalue⟩ := h
  obtain ⟨printed, hprinted, -⟩ := hjson.read_printed text value hvalue isSensitive
  have hredacted : json.toString (redactValue value) = some printed := hprinted
  simp only [redactLine, htext, hjson.read_not_blank text value hvalue, ↓reduceIte, hvalue,
    hredacted, Option.getD_some]

/-- A line that is no JSON is not passed through. -/
theorem redactLine_of_not_reads (h : ∀ value, ¬ Reads json line value) :
    redactLine json line = [] ∨ redactLine json line = dropped := by
  unfold redactLine
  cases htext : Text.fromUtf8 line with
  | none => exact .inr rfl
  | some text =>
    cases hvalue : json.fromStr text with
    | some value => exact absurd ⟨text, htext, hvalue⟩ (h value)
    | none =>
      simp only [hvalue]
      split
      · exact .inl rfl
      · exact .inr rfl

theorem redactLine_utf8_of_none {text : List Char}
    (hblank : Text.trimMatches isWhitespace text ≠ []) (h : json.fromStr text = none) :
    redactLine json (Text.utf8 text) = dropped := by
  simp only [redactLine, Text.fromUtf8_utf8, hblank, ↓reduceIte, h]

theorem redactLine_alike (hjson : json.Lawful) (h : Reads json line value)
    (h' : Reads json line' value') (halike : Alike value value') :
    redactLine json line = redactLine json line' := by
  have hline := redactLine_of_reads hjson h
  rw [halike.redactValue_eq, redactLine_of_reads hjson h'] at hline
  exact (Option.some.inj hline).symm

@[simp] theorem isSensitive_redaction : isSensitive "redaction" = false := by decide

/-- What a redacted line reads as is the redacted value, but for the digits of its numbers. -/
theorem withoutDigits_of_reads (hjson : json.Lawful) (h : Reads json line value)
    (hagain : Reads json (Text.utf8 (redactLine json line)) value') :
    withoutDigits value' = withoutDigits (redactValue value) := by
  obtain ⟨text, -, hvalue⟩ := id h
  obtain ⟨printed, hprinted, -, -, hread⟩ := hjson.read_printed text value hvalue isSensitive
  obtain rfl : printed = redactLine json line :=
    Option.some.inj (hprinted.symm.trans (redactLine_of_reads hjson h))
  exact hread value' (reads_utf8.mp hagain)

/-- Whatever went in, no sensitive key of what comes out holds anything but the mask. -/
theorem eq_mask_of_reads (hjson : json.Lawful)
    (h : Reads json (Text.utf8 (redactLine json line)) value) {key : String} {child : JsonValue}
    (hholds : Holds value key child) (hkey : isSensitive key = true) : child = .string mask := by
  by_cases hline : ∃ before, Reads json line before
  · obtain ⟨before, hline⟩ := hline
    exact eq_mask_of_withoutDigits (withoutDigits_of_reads hjson hline h) hholds hkey
  · have hread := reads_utf8.mp h
    rcases redactLine_of_not_reads (not_exists.mp hline) with hnil | hdropped
    · rw [hnil] at hread
      exact absurd rfl (hjson.read_not_blank [] value hread)
    · rw [hdropped, hjson.read_dropped] at hread
      obtain rfl := Option.some.inj hread
      cases hholds with
      | member hmem =>
        obtain ⟨rfl, -⟩ := Prod.mk.inj (List.mem_singleton.mp hmem)
        exact absurd hkey (by simp [isSensitive_redaction])
      | inMember hmem hin =>
        obtain ⟨-, rfl⟩ := Prod.mk.inj (List.mem_singleton.mp hmem)
        cases hin

private theorem redactLine_dropped (hjson : json.Lawful) :
    redactLine json (Text.utf8 dropped) = dropped := by
  have hreads := redactLine_of_reads hjson (reads_utf8.mpr hjson.read_dropped)
  rw [redactValue, redactWith, redactMembers, isSensitive_redaction] at hreads
  exact (Option.some.inj (hjson.print_dropped.symm.trans hreads)).symm

/-- A line that stood for no value stays as it was redacted. -/
theorem redactLine_redactLine_of_not_reads (hjson : json.Lawful)
    (h : ∀ value, ¬ Reads json line value) :
    redactLine json (Text.utf8 (redactLine json line)) = redactLine json line := by
  rcases redactLine_of_not_reads h with hnil | hdropped
  · rw [hnil]
    simp [redactLine, Text.utf8, Text.fromUtf8_eq_some_iff.mpr (show [] = Text.utf8 [] from rfl),
      Text.trimMatches]
  · rw [hdropped, redactLine_dropped hjson]

/-- A redacted line stays as it is where its numbers are read as they were printed. -/
theorem redactLine_redactLine_of_reads (hjson : json.Lawful) (h : Reads json line value)
    (hback : Reads json (Text.utf8 (redactLine json line)) (redactValue value)) :
    redactLine json (Text.utf8 (redactLine json line)) = redactLine json line := by
  have hagain := redactLine_of_reads hjson hback
  rw [redactValue, redactValue, redactWith_redactWith] at hagain
  exact Option.some.inj (hagain.symm.trans (redactLine_of_reads hjson h))

/-- The second redaction drops the line or prints the same value, but for the digits of its
numbers. -/
theorem redactLine_redactLine (hjson : json.Lawful) (h : Reads json line value) :
    redactLine json (Text.utf8 (redactLine json line)) = dropped ∨
      ∃ again, json.toString again =
          some (redactLine json (Text.utf8 (redactLine json line))) ∧
        withoutDigits again = withoutDigits (redactValue value) := by
  obtain ⟨text, -, hvalue⟩ := id h
  obtain ⟨printed, hprinted, hblank, -⟩ := hjson.read_printed text value hvalue isSensitive
  obtain rfl : printed = redactLine json line :=
    Option.some.inj (hprinted.symm.trans (redactLine_of_reads hjson h))
  cases hback : json.fromStr (redactLine json line) with
  | none => exact .inl (redactLine_utf8_of_none hblank hback)
  | some again =>
    have hreads : Reads json (Text.utf8 (redactLine json line)) again := reads_utf8.mpr hback
    refine .inr ⟨redactValue again, redactLine_of_reads hjson hreads, ?_⟩
    rw [redactValue, withoutDigits_redactWith, withoutDigits_of_reads hjson h hreads,
      ← withoutDigits_redactWith, redactValue, redactWith_redactWith]

/-- A redacted line is one line. -/
theorem newline_notMem_redactLine (hjson : json.Lawful) (line : Bytes) :
    '\n' ∉ redactLine json line := by
  have hdropped : '\n' ∉ dropped := by decide
  by_cases h : ∃ value, Reads json line value
  · obtain ⟨value, h⟩ := h
    obtain ⟨text, -, hvalue⟩ := id h
    obtain ⟨printed, hprinted, -, hline, -⟩ := hjson.read_printed text value hvalue isSensitive
    obtain rfl : printed = redactLine json line :=
      Option.some.inj (hprinted.symm.trans (redactLine_of_reads hjson h))
    exact hline
  · rcases redactLine_of_not_reads (not_exists.mp h) with hnil | hmark
    · rw [hnil]
      exact List.not_mem_nil
    · rwa [hmark]

end Line

/-- Lines come out one by one, however they were cut; nothing that is stored under a sensitive key
is in them, and they change no more than the digits of their numbers when they are redacted
again. -/
theorem redaction_complete (json : SerdeJson) (hjson : json.Lawful) :
    (∀ (lines : List Bytes) (rest : Bytes) (pieces : List Bytes), (∀ line ∈ lines, 10 ∉ line) →
      10 ∉ rest → pieces.flatten = (lines.flatMap fun line => line ++ [10]) ++ rest →
        RedactingWriter.output json pieces =
          (lines.flatMap fun line => Text.utf8 (redactLine json line) ++ [10]) ++
            if rest = [] then [] else Text.utf8 (redactLine json rest) ++ [10]) ∧
    (∀ line, 10 ∉ Text.utf8 (redactLine json line)) ∧
    (∀ line value, Reads json line value →
      json.toString (redactValue value) = some (redactLine json line)) ∧
    (∀ line value, Reads json (Text.utf8 (redactLine json line)) value →
      ∀ key child, Holds value key child → isSensitive key = true → child = .string mask) ∧
    (∀ line line' value value', Reads json line value → Reads json line' value' →
      Alike value value' → redactLine json line = redactLine json line') ∧
    (∀ line, (∀ value, ¬ Reads json line value) →
      (redactLine json line = [] ∨ redactLine json line = dropped) ∧
      redactLine json (Text.utf8 (redactLine json line)) = redactLine json line) ∧
    ∀ line value, Reads json line value →
      (Reads json (Text.utf8 (redactLine json line)) (redactValue value) →
        redactLine json (Text.utf8 (redactLine json line)) = redactLine json line) ∧
      (redactLine json (Text.utf8 (redactLine json line)) = dropped ∨
        ∃ again, json.toString again =
            some (redactLine json (Text.utf8 (redactLine json line))) ∧
          withoutDigits again = withoutDigits (redactValue value)) := by
  refine ⟨fun lines rest pieces hlines hrest hpieces => ?_, fun line => ?_,
    fun line value h => redactLine_of_reads hjson h,
    fun line value h key child hholds hkey => eq_mask_of_reads hjson h hholds hkey,
    fun line line' value value' h h' halike => redactLine_alike hjson h h' halike,
    fun line h => ⟨redactLine_of_not_reads h, redactLine_redactLine_of_not_reads hjson h⟩,
    fun line value h => ⟨redactLine_redactLine_of_reads hjson h, redactLine_redactLine hjson h⟩⟩
  · rw [RedactingWriter.output_eq, hpieces, Lines.split_lines hlines hrest]
    rfl
  · exact Text.notMem_utf8_newline (newline_notMem_redactLine hjson line)

/-- Texts of one member, and what `serde_json` reads in them: it scales the digits of a fraction by
a power of ten, and rounds twice. -/
def memberTexts : List (String × JsonValue) :=
  [("\x7b\"d\":9.4271148610713794\x7d", .object [("d", .number "9.427114861071379")]),
    ("\x7b\"d\":9.427114861071379\x7d", .object [("d", .number "9.42711486107138")]),
    ("\x7b\"d\":9.42711486107138\x7d", .object [("d", .number "9.42711486107138")]),
    ("\x7b\"d\":\"***\"\x7d", .object [("d", .string "***")]),
    ("\x7b\"token\":\"x\"\x7d", .object [("token", .string "x")]),
    ("\x7b\"token\":\"***\"\x7d", .object [("token", .string "***")]),
    ("\x7b\"redaction\":\"***\"\x7d", .object [("redaction", .string "***")]),
    ("\x7b\"redaction\":\"line could not be parsed and was dropped\"\x7d",
      .object [("redaction", .string "line could not be parsed and was dropped")])]

def memberJson : SerdeJson where
  fromStr text := (memberTexts.find? fun r => r.1.toList = text).map Prod.snd
  toString
    | .object [(key, .number digits)] => some ("\x7b\"" ++ key ++ "\":" ++ digits ++ "\x7d").toList
    | .object [(key, .string s)] => some ("\x7b\"" ++ key ++ "\":\"" ++ s ++ "\"\x7d").toList
    | _ => none

theorem mem_of_memberJson_read {text : List Char} {value : JsonValue}
    (h : memberJson.fromStr text = some value) :
    ∃ r ∈ memberTexts, r.1.toList = text ∧ r.2 = value := by
  obtain ⟨r, hr, hvalue⟩ := Option.map_eq_some_iff.mp h
  have htext : decide (r.1.toList = text) = true :=
    @List.find?_some _ (fun r : String × JsonValue => decide (r.1.toList = text)) _ _ hr
  exact ⟨r, List.mem_of_find?_eq_some hr, of_decide_eq_true htext, hvalue⟩

theorem memberJson_prints : ∀ r ∈ memberTexts, ∃ printed again,
    memberJson.toString r.2 = some printed ∧
      (Text.trimMatches isWhitespace printed ≠ [] ∧ '\n' ∉ printed) ∧
      memberJson.fromStr printed = some again ∧ withoutDigits again = withoutDigits r.2 := by
  intro r hr
  simp only [memberTexts, List.mem_cons, List.not_mem_nil, or_false] at hr
  rcases hr with rfl | rfl | rfl | rfl | rfl | rfl | rfl | rfl
  all_goals exact ⟨_, _, rfl, by decide, rfl, rfl⟩

private theorem redactWith_member (hide : String → Bool) (key : String) {leaf : JsonValue}
    (h : redactWith hide leaf = leaf) :
    redactWith hide (.object [(key, leaf)]) = .object [(key, leaf)] ∨
      redactWith hide (.object [(key, leaf)]) = .object [(key, .string mask)] := by
  rw [redactWith, redactMembers, redactMembers, h]
  cases hide key
  · exact .inl rfl
  · exact .inr rfl

private theorem redactWith_memberTexts (hide : String → Bool) : ∀ r ∈ memberTexts,
    ∃ r' ∈ memberTexts, redactWith hide r.2 = r'.2 := by
  have hmask : ∀ key ∈ ["d", "token", "redaction"], ∃ r' ∈ memberTexts,
      r'.2 = .object [(key, .string mask)] := by
    simp [memberTexts, mask]
  have hleaf : ∀ r ∈ memberTexts, ∃ key ∈ ["d", "token", "redaction"], ∃ leaf,
      r.2 = .object [(key, leaf)] ∧ redactWith hide leaf = leaf := by
    simp [memberTexts, redactWith]
  intro r hr
  obtain ⟨key, hkey, leaf, hvalue, hplain⟩ := hleaf r hr
  rcases redactWith_member hide key hplain with h | h
  · exact ⟨r, hr, by rw [hvalue, h]⟩
  · obtain ⟨r', hr', hmasked⟩ := hmask key hkey
    exact ⟨r', hr', by rw [hvalue, h, hmasked]⟩

theorem memberJson_lawful : memberJson.Lawful where
  read_not_blank text value h := by
    obtain ⟨r, hr, rfl, -⟩ := mem_of_memberJson_read h
    exact (by decide :
      ∀ r ∈ memberTexts.map Prod.fst, Text.trimMatches isWhitespace r.toList ≠ []) r.1
        (List.mem_map_of_mem hr)
  read_printed text value h hide := by
    obtain ⟨r, hr, -, rfl⟩ := mem_of_memberJson_read h
    obtain ⟨r', hr', hredacted⟩ := redactWith_memberTexts hide r hr
    obtain ⟨printed, again, hprinted, ⟨hblank, hline⟩, hread, hsame⟩ := memberJson_prints r' hr'
    rw [hredacted]
    refine ⟨printed, hprinted, hblank, hline, fun again' hagain => ?_⟩
    rwa [← Option.some.inj (hread.symm.trans hagain)]
  read_dropped := rfl
  print_dropped := rfl

/-- A token that comes in two pieces is masked, and its line then stays as it is. -/
theorem token_masked :
    RedactingWriter.output memberJson [Text.utf8 "\x7b\"tok".toList,
        Text.utf8 "en\":\"x\"\x7d\n".toList] =
      Text.utf8 "\x7b\"token\":\"***\"\x7d\n".toList ∧
    redactLine memberJson
        (Text.utf8 (redactLine memberJson (Text.utf8 "\x7b\"token\":\"x\"\x7d".toList))) =
      redactLine memberJson (Text.utf8 "\x7b\"token\":\"x\"\x7d".toList) := by
  have hredacted : redactLine memberJson (Text.utf8 "\x7b\"token\":\"x\"\x7d".toList) =
      "\x7b\"token\":\"***\"\x7d".toList := by
    decide
  constructor
  · rw [(redaction_complete memberJson memberJson_lawful).1
      [Text.utf8 "\x7b\"token\":\"x\"\x7d".toList] [] _ (by decide) (by decide)
      (by decide)]
    decide
  · refine ((redaction_complete memberJson memberJson_lawful).2.2.2.2.2.2 _
      (.object [("token", .string "x")]) ⟨_, Text.fromUtf8_utf8 _, rfl⟩).1 ?_
    rw [hredacted]
    exact ⟨_, Text.fromUtf8_utf8 _, rfl⟩

/-- Redacting a redacted line may change it: `9.4271148610713794` is read as a number that is
printed as `9.427114861071379`, and that is read as another one. -/
theorem fraction_changed : memberJson.Lawful ∧
    ¬ ∀ line, redactLine memberJson (Text.utf8 (redactLine memberJson line)) =
      redactLine memberJson line :=
  ⟨memberJson_lawful, fun h => absurd (h (Text.utf8 "\x7b\"d\":9.4271148610713794\x7d".toList))
    (by decide)⟩

end Nyuka.Redaction
