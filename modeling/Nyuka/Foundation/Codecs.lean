import Nyuka.Foundation.Utf8
import Nyuka.Foundation.Varints

/-! Codecs of a format that does not describe itself: how a value is written, and how it is read
back from the front of bytes. A codec carries the laws between the two; those of larger values are
put together from those of their parts. -/
namespace Codecs
variable {α β ι : Type}

abbrev Reader (α : Type) := List UInt8 → Option (α × List UInt8)

/-- The bytes are read as the value, whatever follows them. -/
def Reads (read : Reader α) (head : List UInt8) (a : α) : Prop :=
  ∀ rest, read (head ++ rest) = some (a, rest)

/-- Of the bytes that are read as a value, those that are written are the shortest. -/
structure Codec (α : Type) where
  /-- The values that can be written. -/
  Valid : α → Prop
  write : α → List UInt8
  read : Reader α
  reads_write : ∀ a, Valid a → Reads read (write a) a
  exact : ∀ bytes a rest, read bytes = some (a, rest) → ∃ head, bytes = head ++ rest ∧
    Reads read head a ∧ Valid a ∧ (head = write a ∨ (write a).length < head.length)

/-- Reads a value and ignores what follows it. -/
def Codec.decode (c : Codec α) (bytes : List UInt8) : Option α := (c.read bytes).map Prod.fst

section Laws
variable {c : Codec α} {a b : α} {bytes head head' front rest rest' : List UInt8}

theorem Reads.read (h : Reads c.read head a) : c.read head = some (a, []) := by
  have hnil := h []
  rwa [List.append_nil] at hnil

/-- Nothing that is read as a value begins something else that is read. -/
theorem Reads.append_inj (ha : Reads c.read head a) (hb : Reads c.read head' b)
    (h : head ++ rest = head' ++ rest') : head = head' ∧ a = b ∧ rest = rest' := by
  have hsame : some (a, rest) = some (b, rest') := by rw [← ha rest, h, hb rest']
  obtain ⟨rfl, rfl⟩ := Prod.mk.inj (Option.some.inj hsame)
  exact ⟨List.append_cancel_right h, rfl, rfl⟩

theorem Reads.of_read (h : c.read bytes = some (a, rest)) :
    ∃ head, bytes = head ++ rest ∧ Reads c.read head a := by
  obtain ⟨head, hbytes, hreads, -⟩ := c.exact bytes a rest h
  exact ⟨head, hbytes, hreads⟩

theorem read_eq_some : c.read bytes = some (a, rest) ↔
    ∃ head, bytes = head ++ rest ∧ Reads c.read head a := by
  constructor
  · exact Reads.of_read
  · rintro ⟨head, rfl, hreads⟩
    exact hreads rest

/-- Bytes that are cut off are not read. -/
theorem Reads.read_front (h : Reads c.read head a) (hfront : front <+: head)
    (hne : front ≠ head) : c.read front = none := by
  obtain ⟨tail, rfl⟩ := hfront
  cases hread : c.read front with
  | none => rfl
  | some found =>
    obtain ⟨b, rest⟩ := found
    obtain ⟨head, rfl, hreads⟩ := Reads.of_read hread
    have hcut : head ++ rest ++ tail ++ [] = head ++ (rest ++ tail) := by simp
    obtain ⟨hwhole, -, -⟩ := h.append_inj hreads hcut
    -- what is read would be all of the bytes
    have hlength := congrArg List.length hwhole
    simp only [List.length_append] at hlength
    have hrest : rest = [] := List.length_eq_zero_iff.mp (by omega)
    have htail : tail = [] := List.length_eq_zero_iff.mp (by omega)
    simp [hrest, htail] at hne

theorem Codec.decode_of_reads (h : Reads c.read head a) (rest : List UInt8) :
    c.decode (head ++ rest) = some a := by
  rw [Codec.decode, h rest]
  rfl

/-- A value is decoded from what is written of it, with anything behind it. -/
theorem Codec.decode_write (h : c.Valid a) (rest : List UInt8) :
    c.decode (c.write a ++ rest) = some a := Codec.decode_of_reads (c.reads_write a h) rest

theorem Codec.write_inj (ha : c.Valid a) (hb : c.Valid b)
    (h : c.write a ++ rest = c.write b ++ rest') : a = b ∧ rest = rest' :=
  ((c.reads_write a ha).append_inj (c.reads_write b hb) h).2

/-- What is decoded could have been written, in no more bytes. -/
theorem Codec.decode_valid (h : c.decode bytes = some a) :
    c.Valid a ∧ (c.write a <+: bytes ∨ (c.write a).length < bytes.length) := by
  obtain ⟨⟨found, rest⟩, hread, rfl⟩ := Option.map_eq_some_iff.mp h
  obtain ⟨head, rfl, -, hvalid, rfl | hlt⟩ := c.exact bytes found rest hread
  · exact ⟨hvalid, .inl (List.prefix_append _ _)⟩
  · refine ⟨hvalid, .inr ?_⟩
    rw [List.length_append]
    exact Nat.lt_add_right _ hlt

/-- Two writings in a row are no longer than what each of them was read from. -/
theorem shortest_append {w v h g : List UInt8} (hw : h = w ∨ w.length < h.length)
    (hv : g = v ∨ v.length < g.length) :
    h ++ g = w ++ v ∨ (w ++ v).length < (h ++ g).length := by
  rw [List.length_append, List.length_append]
  obtain rfl | hw := hw
  · obtain rfl | hv := hv
    · exact .inl rfl
    · exact .inr (by omega)
  · obtain rfl | hv := hv
    · exact .inr (by omega)
    · exact .inr (by omega)

end Laws

/-! The codecs that others are made of. -/

/-- A value that takes no bytes. -/
def unit (a : α) : Codec α where
  Valid b := b = a
  write _ := []
  read bytes := some (a, bytes)
  reads_write b hb rest := by
    rw [hb]
    rfl
  exact bytes b rest h := by
    cases h
    exact ⟨[], rfl, fun _ => rfl, rfl, .inl rfl⟩

/-- So many bytes as they are. -/
def raw (n : ℕ) : Codec (List UInt8) where
  Valid a := a.length = n
  write a := a
  read bytes := if n ≤ bytes.length then some (bytes.take n, bytes.drop n) else none
  reads_write a ha rest := by
    subst ha
    change (if _ then _ else _) = _
    rw [if_pos (by simp), List.take_left, List.drop_left]
  exact bytes a rest h := by
    split at h
    · next hle =>
      cases h
      have hlength : (bytes.take n).length = n := by
        rw [List.length_take]
        omega
      refine ⟨bytes.take n, (List.take_append_drop n bytes).symm, fun rest => ?_, hlength, .inl rfl⟩
      change (if _ then _ else _) = _
      rw [if_pos (by rw [List.length_append]; omega), List.take_left' hlength,
        List.drop_left' hlength]
    · cases h

/-- A value by another one that it is read from and written as. -/
def Codec.map (c : Codec α) (parse : α → Option β) (print : β → Option α)
    (h : ∀ a b, parse a = some b ↔ print b = some a) : Codec β where
  Valid b := ∃ a, print b = some a ∧ c.Valid a
  write b := (print b).elim [] c.write
  read bytes := (c.read bytes).bind fun (a, rest) => (parse a).map (·, rest)
  reads_write b hb rest := by
    obtain ⟨a, ha, hvalid⟩ := hb
    simp only [ha, Option.elim_some, c.reads_write a hvalid rest, Option.bind_some,
      (h a b).mpr ha, Option.map_some]
  exact bytes b rest hread := by
    obtain ⟨⟨a, rest'⟩, ha, hb⟩ := Option.bind_eq_some_iff.mp hread
    obtain ⟨b', hparse, hpair⟩ := Option.map_eq_some_iff.mp hb
    cases hpair
    obtain ⟨head, hbytes, hreads, hvalid, hshort⟩ := c.exact bytes a rest ha
    have hprint := (h a b).mp hparse
    refine ⟨head, hbytes, fun rest => ?_, ⟨a, hprint, hvalid⟩, ?_⟩
    · simp only [hreads rest, Option.bind_some, hparse, Option.map_some]
    · rwa [hprint]

/-- A value made of another one, which is got back from it. -/
def Codec.built (c : Codec α) (mk : α → β) (get : β → Option α)
    (h : ∀ a b, get b = some a ↔ mk a = b) : Codec β :=
  c.map (fun a => some (mk a)) get fun a b => by rw [h, Option.some.injEq]

/-- Reads what the codec of the rest depends on, then the rest. -/
def Codec.bind (c : Codec ι) (key : α → ι) (d : ι → Codec α)
    (h : ∀ i a, (d i).Valid a → key a = i) : Codec α where
  Valid a := c.Valid (key a) ∧ (d (key a)).Valid a
  write a := c.write (key a) ++ (d (key a)).write a
  read bytes := (c.read bytes).bind fun (i, rest) => (d i).read rest
  reads_write a ha rest := by
    obtain ⟨hkey, hrest⟩ := ha
    change (c.read _).bind _ = _
    rw [List.append_assoc, c.reads_write _ hkey]
    exact (d (key a)).reads_write a hrest rest
  exact bytes a rest hread := by
    obtain ⟨⟨i, mid⟩, hi, ha⟩ := Option.bind_eq_some_iff.mp hread
    obtain ⟨head, rfl, hreads, hvalid, hshort⟩ := c.exact bytes i mid hi
    obtain ⟨head', rfl, hreads', hvalid', hshort'⟩ := (d i).exact mid a rest ha
    obtain rfl := h i a hvalid'
    refine ⟨head ++ head', (List.append_assoc _ _ _).symm, fun rest => ?_, ⟨hvalid, hvalid'⟩,
      shortest_append hshort hshort'⟩
    change (c.read _).bind _ = _
    rw [List.append_assoc, hreads]
    exact hreads' rest

/-- A value behind one that is known. -/
def Codec.beside (d : Codec β) (a : α) : Codec (α × β) where
  Valid x := x.1 = a ∧ d.Valid x.2
  write x := d.write x.2
  read bytes := (d.read bytes).map fun (b, rest) => ((a, b), rest)
  reads_write x hx rest := by
    obtain ⟨rfl, hvalid⟩ := hx
    change (d.read _).map _ = _
    rw [d.reads_write _ hvalid]
    rfl
  exact bytes x rest hread := by
    obtain ⟨⟨b, rest'⟩, hb, hpair⟩ := Option.map_eq_some_iff.mp hread
    cases hpair
    obtain ⟨head, hbytes, hreads, hvalid, hshort⟩ := d.exact bytes b rest hb
    refine ⟨head, hbytes, fun rest => ?_, ⟨rfl, hvalid⟩, hshort⟩
    change (d.read _).map _ = _
    rw [hreads]
    rfl

/-- One field after another. -/
def Codec.pair (c : Codec α) (d : Codec β) : Codec (α × β) :=
  c.bind Prod.fst d.beside fun _ _ h => h.1

@[simp] theorem Codec.pair_valid {c : Codec α} {d : Codec β} {x : α × β} :
    (c.pair d).Valid x ↔ c.Valid x.1 ∧ d.Valid x.2 := by
  change c.Valid x.1 ∧ x.1 = x.1 ∧ d.Valid x.2 ↔ _
  simp

@[simp] theorem Codec.pair_write {c : Codec α} {d : Codec β} {x : α × β} :
    (c.pair d).write x = c.write x.1 ++ d.write x.2 := rfl

section Repetition

def readTimes (read : Reader α) : ℕ → Reader (List α)
  | 0, bytes => some ([], bytes)
  | n + 1, bytes => (read bytes).bind fun (a, rest) =>
    (readTimes read n rest).map fun (as, rest) => (a :: as, rest)

variable {c : Codec α}

theorem reads_flatMap {as : List α} (h : ∀ a ∈ as, c.Valid a) :
    Reads (readTimes c.read as.length) (as.flatMap c.write) as := by
  induction as with
  | nil => exact fun _ => rfl
  | cons a as ih =>
    intro rest
    have hrest := ih (fun b hb => h b (List.mem_cons_of_mem a hb)) rest
    rw [List.flatMap_cons, List.append_assoc, List.length_cons, readTimes,
      c.reads_write a (h a List.mem_cons_self), Option.bind_some]
    change (readTimes _ _ _).map _ = _
    rw [hrest]
    rfl

private theorem readTimes_exact {n : ℕ} {bytes rest : List UInt8} {as : List α}
    (h : readTimes c.read n bytes = some (as, rest)) : ∃ head, bytes = head ++ rest ∧
      Reads (readTimes c.read n) head as ∧ (as.length = n ∧ ∀ a ∈ as, c.Valid a) ∧
      (head = as.flatMap c.write ∨ (as.flatMap c.write).length < head.length) := by
  induction n generalizing bytes as with
  | zero =>
    cases h
    exact ⟨[], rfl, fun _ => rfl, ⟨rfl, fun _ hb => by cases hb⟩, .inl rfl⟩
  | succ n ih =>
    obtain ⟨⟨a, mid⟩, ha, hrest⟩ := Option.bind_eq_some_iff.mp h
    obtain ⟨⟨as', rest'⟩, has, hpair⟩ := Option.map_eq_some_iff.mp hrest
    cases hpair
    obtain ⟨head, rfl, hreads, hvalid, hshort⟩ := c.exact bytes a mid ha
    obtain ⟨head', rfl, hreads', ⟨hlength, hall⟩, hshort'⟩ := ih has
    refine ⟨head ++ head', (List.append_assoc _ _ _).symm, fun rest => ?_,
      ⟨congrArg (· + 1) hlength, ?_⟩, shortest_append hshort hshort'⟩
    · rw [List.append_assoc, readTimes, hreads, Option.bind_some]
      change (readTimes _ _ _).map _ = _
      rw [hreads']
      rfl
    · intro b hb
      obtain rfl | hb := List.mem_cons.mp hb
      · exact hvalid
      · exact hall b hb

/-- So many values. -/
def Codec.times (c : Codec α) (n : ℕ) : Codec (List α) where
  Valid as := as.length = n ∧ ∀ a ∈ as, c.Valid a
  write as := as.flatMap c.write
  read := readTimes c.read n
  reads_write as has := by
    obtain ⟨rfl, hall⟩ := has
    exact reads_flatMap hall
  exact _ _ _ h := readTimes_exact h

end Repetition

/-! Numbers. -/

section Numbers

/-- Seven bits a byte, the least significant first. -/
def writeVarint (n : ℕ) : List UInt8 :=
  if n < 128 then [n.toUInt8] else (n % 128 + 128).toUInt8 :: writeVarint (n / 128)
termination_by n

def readVarint : ℕ → Reader ℕ
  | 0, _ => none
  | _ + 1, [] => none
  | k + 1, byte :: bytes =>
    if byte.toNat < 128 then some (byte.toNat, bytes)
    else (readVarint k bytes).map fun (n, rest) => (byte.toNat - 128 + 128 * n, rest)

theorem denotes_writeVarint (n : ℕ) : Varints.Denotes (writeVarint n) n := by
  fun_induction writeVarint n with
  | case1 n hlt =>
    have hbyte : n.toUInt8.toNat = n := Nat.mod_eq_of_lt (by omega)
    simpa only [hbyte] using Varints.Denotes.last n.toUInt8 (by omega)
  | case2 n hge ih =>
    have hbyte : (n % 128 + 128).toUInt8.toNat = n % 128 + 128 := Nat.mod_eq_of_lt (by omega)
    have hmore := Varints.Denotes.more (n % 128 + 128).toUInt8 (by omega) ih
    rwa [hbyte, Nat.add_sub_cancel, Nat.mod_add_div] at hmore

theorem not_overlong_writeVarint (n : ℕ) : ¬ Varints.Overlong (writeVarint n) := by
  fun_induction writeVarint n with
  | case1 n hlt => exact Varints.not_overlong_singleton _
  | case2 n hge ih =>
    rw [Varints.overlong_cons (denotes_writeVarint _).ne_nil, not_or]
    refine ⟨fun hzero => ?_, ih⟩
    have hdenotes := denotes_writeVarint (n / 128)
    rw [hzero] at hdenotes
    have hquotient := hdenotes.unique (Varints.Denotes.last 0 (by decide))
    simp only [UInt8.toNat_zero] at hquotient
    omega

/-- What is read is an encoding of no more than so many bytes. -/
theorem readVarint_eq_some {k n : ℕ} {bytes rest : List UInt8} :
    readVarint k bytes = some (n, rest) ↔
      ∃ head, Varints.Denotes head n ∧ head.length ≤ k ∧ bytes = head ++ rest := by
  induction k generalizing bytes n with
  | zero =>
    constructor
    · intro h
      cases h
    · rintro ⟨head, hdenotes, hlength, -⟩
      exact absurd (List.length_eq_zero_iff.mp (Nat.le_zero.mp hlength)) hdenotes.ne_nil
  | succ k ih =>
    cases bytes with
    | nil =>
      constructor
      · intro h
        cases h
      · rintro ⟨head, hdenotes, -, hbytes⟩
        exact absurd (List.append_eq_nil_iff.mp hbytes.symm).1 hdenotes.ne_nil
    | cons byte bytes =>
      rw [readVarint]
      split
      · next hlow =>
        constructor
        · intro h
          cases h
          exact ⟨[byte], .last byte hlow, Nat.succ_le_succ (Nat.zero_le k), rfl⟩
        · rintro ⟨head, hdenotes, -, hbytes⟩
          obtain ⟨-, rfl, rfl⟩ := (Varints.Denotes.last byte hlow).append_inj hdenotes hbytes
          rfl
      · next hhigh =>
        rw [Option.map_eq_some_iff]
        constructor
        · rintro ⟨⟨m, rest'⟩, hread, hpair⟩
          cases hpair
          obtain ⟨head, hdenotes, hlength, rfl⟩ := ih.mp hread
          exact ⟨byte :: head, .more byte (Nat.le_of_not_lt hhigh) hdenotes,
            Nat.succ_le_succ hlength, rfl⟩
        · rintro ⟨head, hdenotes, hlength, hbytes⟩
          obtain ⟨first, head, rfl⟩ := List.exists_cons_of_ne_nil hdenotes.ne_nil
          obtain ⟨rfl, rfl⟩ := List.cons_eq_cons.mp hbytes
          obtain ⟨hlow, -⟩ | ⟨-, m, hrest, rfl⟩ := Varints.denotes_cons.mp hdenotes
          · exact absurd hlow hhigh
          · exact ⟨(m, rest), ih.mpr ⟨head, hrest, Nat.le_of_succ_le_succ hlength, rfl⟩, rfl⟩

theorem length_writeVarint_le {n k : ℕ} (h : n < 128 ^ (k + 1)) :
    (writeVarint n).length ≤ k + 1 :=
  (denotes_writeVarint n).length_le (not_overlong_writeVarint n) h

/-- What else a number is read from is longer than what is written of it. -/
theorem eq_writeVarint_or_lt {head : List UInt8} {n : ℕ} (h : Varints.Denotes head n) :
    head = writeVarint n ∨ (writeVarint n).length < head.length := by
  induction h with
  | last byte hlow =>
    refine .inl ?_
    rw [writeVarint, if_pos hlow]
    exact congrArg (fun b => [b]) (UInt8.toNat_inj.mp (Nat.mod_eq_of_lt byte.toNat_lt).symm)
  | @more byte hhigh bytes n hrest ih =>
    have hlt := byte.toNat_lt
    by_cases hzero : n = 0
    · -- the further bytes hold nothing
      subst hzero
      refine .inr ?_
      rw [writeVarint, if_pos (by omega)]
      have hpos := List.length_pos_iff.mpr hrest.ne_nil
      simp only [List.length_cons, List.length_nil]
      omega
    · have hbyte : ((byte.toNat - 128 + 128 * n) % 128 + 128).toUInt8 = byte := by
        refine UInt8.toNat_inj.mp ?_
        change ((byte.toNat - 128 + 128 * n) % 128 + 128) % 256 = _
        omega
      have hdiv : (byte.toNat - 128 + 128 * n) / 128 = n := by omega
      rw [writeVarint, if_neg (by omega), hbyte, hdiv]
      obtain rfl | hlonger := ih
      · exact .inl rfl
      · refine .inr ?_
        rw [List.length_cons, List.length_cons]
        omega

/-- A number below a limit, in so many bytes at the most. -/
def varint (k limit : ℕ) (h : limit ≤ 128 ^ (k + 1)) : Codec ℕ where
  Valid n := n < limit
  write := writeVarint
  read bytes := (readVarint (k + 1) bytes).filter fun (n, _) => n < limit
  reads_write n hn rest := by
    have hread : readVarint (k + 1) (writeVarint n ++ rest) = some (n, rest) :=
      readVarint_eq_some.mpr ⟨writeVarint n, denotes_writeVarint n,
        length_writeVarint_le (Nat.lt_of_lt_of_le hn h), rfl⟩
    change (readVarint _ _).filter _ = _
    rw [hread]
    exact if_pos (decide_eq_true hn)
  exact bytes n rest h := by
    obtain ⟨hread, hlt⟩ := Option.filter_eq_some_iff.mp h
    obtain ⟨head, hdenotes, hlength, rfl⟩ := readVarint_eq_some.mp hread
    refine ⟨head, rfl, fun rest => ?_, of_decide_eq_true hlt, eq_writeVarint_or_lt hdenotes⟩
    change (readVarint _ _).filter _ = _
    rw [readVarint_eq_some.mpr ⟨head, hdenotes, hlength, rfl⟩]
    exact if_pos hlt

end Numbers

/-! The values of the format. -/

section Values

/-- The number that a byte of no more than one stands for. -/
def bool : Codec Bool := (raw 1).map
  (fun bytes => if bytes = [0] then some false else if bytes = [1] then some true else none)
  (fun b => some [if b then 1 else 0])
  fun bytes b => by
    cases b with
    | false =>
      constructor
      · intro h
        split_ifs at h with hzero
        · rw [hzero]
          rfl
        · cases h
      · intro h
        cases h
        rfl
    | true =>
      constructor
      · intro h
        split_ifs at h with hzero hone
        · cases h
        · rw [hone]
          rfl
      · intro h
        cases h
        rfl

/-- The place of a field that may be absent. -/
def Codec.option (c : Codec α) : Codec (Option α) :=
  bool.bind Option.isSome
    (fun
      | false => unit none
      | true => c.map (fun a => some (some a)) id fun a b => by
        rw [Option.some.injEq, eq_comm]
        rfl)
    fun i a h => by
      cases i with
      | false =>
        rw [show a = none from h]
        rfl
      | true =>
        obtain ⟨b, hb, -⟩ := h
        rw [show a = some b from hb]
        rfl

/-- A length: a number of 64 bits. -/
def size : Codec ℕ := varint 9 (2 ^ 64) (by decide)

def Codec.list (c : Codec α) : Codec (List α) := size.bind List.length c.times fun _ _ h => h.1

/-- A text by its bytes, whose number stands in front. -/
def string : Codec String :=
  size.bind (fun s => (Text.utf8 s.toList).length)
    (fun n => (raw n).map (fun bytes => (Text.fromUtf8 bytes).map String.ofList)
      (fun s => some (Text.utf8 s.toList)) fun bytes s => by
        rw [Option.map_eq_some_iff, Option.some.injEq]
        constructor
        · rintro ⟨cs, hcs, rfl⟩
          rw [String.toList_ofList, Text.fromUtf8_eq_some_iff.mp hcs]
        · rintro rfl
          exact ⟨s.toList, Text.fromUtf8_utf8 _, String.ofList_toList⟩)
    fun n s h => by
      obtain ⟨bytes, hbytes, hlength⟩ := h
      cases hbytes
      exact hlength

/-- Nothing is read. -/
def fail : Codec α where
  Valid _ := False
  write _ := []
  read _ := none
  reads_write _ h := h.elim
  exact _ _ _ h := by cases h

/-- One of several variants, behind its place among them. -/
def tagged (tag : α → ℕ) (bodies : List (Codec α))
    (h : ∀ i c a, bodies[i]? = some c → c.Valid a → tag a = i) : Codec α :=
  (varint 4 (2 ^ 32) (by decide)).bind tag (fun i => bodies[i]?.getD fail) fun i a ha => by
    cases hc : bodies[i]? with
    | none =>
      rw [hc] at ha
      exact ha.elim
    | some c =>
      rw [hc] at ha
      exact h i c a hc ha

/-- One of several values, by its place among them. -/
def oneOf [DecidableEq α] (values : List α) (h : values.Nodup) : Codec α :=
  tagged values.idxOf (values.map unit) fun i c a hc ha => by
    rw [List.getElem?_map, Option.map_eq_some_iff] at hc
    obtain ⟨b, hb, rfl⟩ := hc
    obtain ⟨hi, rfl⟩ := List.getElem?_eq_some_iff.mp hb
    rw [show a = values[i] from ha]
    exact h.idxOf_getElem i hi

/-- The sign in the lowest bit. -/
def zigzag (z : ℤ) : ℕ := if 0 ≤ z then 2 * z.toNat else 2 * (-z).toNat - 1

def unzigzag (n : ℕ) : ℤ := if n % 2 = 0 then (n / 2 : ℕ) else -(n / 2 : ℕ) - 1

theorem unzigzag_eq_iff {n : ℕ} {z : ℤ} : unzigzag n = z ↔ zigzag z = n := by
  unfold unzigzag zigzag
  split_ifs <;> omega

theorem zigzag_lt_iff {z : ℤ} {m : ℕ} : zigzag z < 2 * m ↔ -m ≤ z ∧ z < m := by
  unfold zigzag
  split_ifs <;> omega

def int32 : Codec Int32 := (varint 4 (2 ^ 32) (by decide)).map
  (fun n => if n < 2 ^ 32 then some (Int32.ofInt (unzigzag n)) else none)
  (fun x => some (zigzag x.toInt))
  fun n x => by
    have hrange {z : ℤ} : zigzag z < 2 ^ 32 ↔ -2 ^ 31 ≤ z ∧ z < 2 ^ 31 :=
      @zigzag_lt_iff z (2 ^ 31)
    rw [Option.ite_none_right_eq_some, Option.some.injEq, Option.some.injEq]
    constructor
    · rintro ⟨hlt, rfl⟩
      have hz : zigzag (unzigzag n) = n := unzigzag_eq_iff.mp rfl
      obtain ⟨hlow, hhigh⟩ := hrange.mp (hz.symm ▸ hlt)
      rw [Int32.toInt_ofInt_of_le hlow hhigh, hz]
    · rintro rfl
      exact ⟨hrange.mpr ⟨x.le_toInt, x.toInt_lt⟩,
        by rw [unzigzag_eq_iff.mpr rfl, Int32.ofInt_toInt]⟩

def int64 : Codec Int64 := (varint 9 (2 ^ 64) (by decide)).map
  (fun n => if n < 2 ^ 64 then some (Int64.ofInt (unzigzag n)) else none)
  (fun x => some (zigzag x.toInt))
  fun n x => by
    have hrange {z : ℤ} : zigzag z < 2 ^ 64 ↔ -2 ^ 63 ≤ z ∧ z < 2 ^ 63 :=
      @zigzag_lt_iff z (2 ^ 63)
    rw [Option.ite_none_right_eq_some, Option.some.injEq, Option.some.injEq]
    constructor
    · rintro ⟨hlt, rfl⟩
      have hz : zigzag (unzigzag n) = n := unzigzag_eq_iff.mp rfl
      obtain ⟨hlow, hhigh⟩ := hrange.mp (hz.symm ▸ hlt)
      rw [Int64.toInt_ofInt_of_le hlow hhigh, hz]
    · rintro rfl
      exact ⟨hrange.mpr ⟨x.le_toInt, x.toInt_lt⟩,
        by rw [unzigzag_eq_iff.mpr rfl, Int64.ofInt_toInt]⟩

/-- Four bytes, the lowest first. -/
def word32 : Codec (BitVec 32) := (raw 4).map
  (fun
    | [a, b, c, d] =>
      some (.ofNat 32 (a.toNat + 256 * (b.toNat + 256 * (c.toNat + 256 * d.toNat))))
    | _ => none)
  (fun x => some [x.toNat.toUInt8, (x.toNat / 256).toUInt8, (x.toNat / 65536).toUInt8,
    (x.toNat / 16777216).toUInt8])
  fun bytes x => by
    have hx := x.isLt
    have hbyte (n : ℕ) : n.toUInt8.toNat = n % 256 := rfl
    constructor
    · intro h
      split at h
      · next a b c d =>
        cases h
        have ha := a.toNat_lt
        have hb := b.toNat_lt
        have hc := c.toNat_lt
        have hd := d.toNat_lt
        rw [BitVec.toNat_ofNat, Nat.mod_eq_of_lt (by omega), Option.some.injEq]
        simp only [List.cons.injEq, ← UInt8.toNat_inj, hbyte, and_true]
        omega
      · cases h
    · intro h
      cases h
      simp only [hbyte, Option.some.injEq]
      rw [← BitVec.toNat_inj, BitVec.toNat_ofNat]
      omega

end Values

/-! A table of keys and values, of which a later one takes the place of an earlier one. -/

section Tables
variable {κ ν : Type} [DecidableEq κ]

/-- What stands under a key gives way to the new value. -/
def insertPair (p : κ × ν) : List (κ × ν) → List (κ × ν)
  | [] => [p]
  | q :: l => if q.1 = p.1 then p :: l else q :: insertPair p l

def insertAll (l : List (κ × ν)) : List (κ × ν) := l.foldl (fun table p => insertPair p table) []

variable {p : κ × ν} {l : List (κ × ν)}

@[simp] theorem insertAll_concat : insertAll (l ++ [p]) = insertPair p (insertAll l) := by
  rw [insertAll, List.foldl_append]
  rfl

theorem insertPair_of_notMem (h : p.1 ∉ l.map Prod.fst) : insertPair p l = l ++ [p] := by
  induction l with
  | nil => rfl
  | cons q l ih =>
    rw [List.map_cons, List.mem_cons, not_or] at h
    rw [insertPair, if_neg (Ne.symm h.1), ih h.2]
    rfl

theorem map_fst_insertPair_of_mem (h : p.1 ∈ l.map Prod.fst) :
    (insertPair p l).map Prod.fst = l.map Prod.fst := by
  induction l with
  | nil => cases h
  | cons q l ih =>
    rw [insertPair]
    split_ifs with hkey
    · rw [List.map_cons, List.map_cons, hkey]
    · obtain heq | hmem := List.mem_cons.mp h
      · exact absurd heq.symm hkey
      · rw [List.map_cons, List.map_cons, ih hmem]

private theorem mem_of_mem_insertPair {q : κ × ν} (h : q ∈ insertPair p l) : q = p ∨ q ∈ l := by
  induction l with
  | nil => exact .inl (List.mem_singleton.mp h)
  | cons r l ih =>
    rw [insertPair] at h
    split_ifs at h
    · obtain rfl | h := List.mem_cons.mp h
      · exact .inl rfl
      · exact .inr (List.mem_cons_of_mem _ h)
    · obtain rfl | h := List.mem_cons.mp h
      · exact .inr List.mem_cons_self
      · exact (ih h).imp_right (List.mem_cons_of_mem _)

theorem mem_of_mem_insertAll {q : κ × ν} (h : q ∈ insertAll l) : q ∈ l := by
  induction l using List.reverseRecOn with
  | nil => exact h
  | append_singleton l p ih =>
    rw [insertAll_concat] at h
    obtain rfl | h := mem_of_mem_insertPair h
    · exact List.mem_append_right _ List.mem_cons_self
    · exact List.mem_append_left _ (ih h)

theorem nodup_insertAll : ((insertAll l).map Prod.fst).Nodup := by
  induction l using List.reverseRecOn with
  | nil => exact List.nodup_nil
  | append_singleton l p ih =>
    rw [insertAll_concat]
    by_cases hmem : p.1 ∈ (insertAll l).map Prod.fst
    · rwa [map_fst_insertPair_of_mem hmem]
    · rw [insertPair_of_notMem hmem, List.map_append, List.map_singleton,
        ← List.concat_eq_append]
      exact ih.concat hmem

/-- A table with one value under each key is left as it is. -/
theorem insertAll_eq_self_iff : insertAll l = l ↔ (l.map Prod.fst).Nodup := by
  constructor
  · intro h
    rw [← h]
    exact nodup_insertAll
  · intro h
    induction l using List.reverseRecOn with
    | nil => rfl
    | append_singleton l p ih =>
      rw [List.map_append, List.map_singleton, ← List.concat_eq_append, List.nodup_concat] at h
      rw [insertAll_concat, ih h.2, insertPair_of_notMem h.1]

private theorem length_insertPair_le : (insertPair p l).length ≤ l.length + 1 := by
  induction l with
  | nil => exact le_rfl
  | cons q l ih =>
    rw [insertPair]
    split_ifs
    · exact Nat.le_succ _
    · exact Nat.succ_le_succ ih

theorem length_insertAll_le : (insertAll l).length ≤ l.length := by
  induction l using List.reverseRecOn with
  | nil => exact le_rfl
  | append_singleton l p ih =>
    rw [insertAll_concat, List.length_append]
    exact length_insertPair_le.trans (Nat.succ_le_succ ih)

/-- What gives way is not written. -/
theorem length_flatMap_insertPair {write : κ × ν → List UInt8} (hne : ∀ q, write q ≠ [])
    (h : p.1 ∈ l.map Prod.fst) :
    ((insertPair p l).flatMap write).length < (l.flatMap write).length + (write p).length := by
  induction l with
  | nil => cases h
  | cons q l ih =>
    rw [insertPair]
    split_ifs with hkey
    · have hpos := List.length_pos_iff.mpr (hne q)
      rw [List.flatMap_cons, List.flatMap_cons, List.length_append, List.length_append]
      omega
    · obtain heq | hmem := List.mem_cons.mp h
      · exact absurd heq.symm hkey
      · have hrest := ih hmem
        rw [List.flatMap_cons, List.flatMap_cons, List.length_append, List.length_append]
        omega

theorem length_flatMap_insertAll {write : κ × ν → List UInt8} (hne : ∀ q, write q ≠ []) :
    insertAll l = l ∨ ((insertAll l).flatMap write).length < (l.flatMap write).length := by
  induction l using List.reverseRecOn with
  | nil => exact .inl rfl
  | append_singleton l p ih =>
    rw [insertAll_concat, List.flatMap_append, List.length_append, List.flatMap_singleton]
    by_cases hmem : p.1 ∈ (insertAll l).map Prod.fst
    · have hless := length_flatMap_insertPair hne hmem
      refine .inr ?_
      obtain heq | hlt := ih
      · rwa [heq] at hless ⊢
      · omega
    · rw [insertPair_of_notMem hmem, List.flatMap_append, List.length_append,
        List.flatMap_singleton]
      exact ih.imp (fun heq => by rw [heq]) fun hlt => by omega

/-- What is read is brought to a normal form, which is written in fewer bytes. -/
def Codec.normal (c : Codec α) (f : α → α) (hidem : ∀ a, f (f a) = f a)
    (hshort : ∀ a, c.Valid a → c.Valid (f a) ∧
      (f a = a ∨ (c.write (f a)).length < (c.write a).length)) : Codec α where
  Valid a := c.Valid a ∧ f a = a
  write := c.write
  read bytes := (c.read bytes).map fun (a, rest) => (f a, rest)
  reads_write a ha rest := by
    obtain ⟨hvalid, hnormal⟩ := ha
    change (c.read _).map _ = _
    rw [c.reads_write a hvalid]
    exact congrArg (fun b => some (b, rest)) hnormal
  exact bytes b rest h := by
    obtain ⟨⟨a, rest'⟩, ha, hpair⟩ := Option.map_eq_some_iff.mp h
    cases hpair
    obtain ⟨head, hbytes, hreads, hvalid, hhead⟩ := c.exact bytes a rest ha
    obtain ⟨hvalid', hnormal⟩ := hshort a hvalid
    refine ⟨head, hbytes, fun rest => ?_, ⟨hvalid', hidem a⟩, ?_⟩
    · change (c.read _).map _ = _
      rw [hreads]
      rfl
    · obtain heq | hlt := hnormal
      · rwa [heq]
      · refine .inr ?_
        obtain rfl | hhead := hhead
        · exact hlt
        · omega

/-- More is not written in fewer bytes. -/
theorem length_writeVarint_mono {m n : ℕ} (h : m ≤ n) :
    (writeVarint m).length ≤ (writeVarint n).length := by
  obtain ⟨first, rest, hcons⟩ := List.exists_cons_of_ne_nil (denotes_writeVarint n).ne_nil
  have hlt := (denotes_writeVarint n).lt
  rw [hcons, List.length_cons] at hlt ⊢
  exact length_writeVarint_le (Nat.lt_of_le_of_lt h hlt)

/-- Keys with their values, in any order; of those under one key the last is read. -/
def Codec.table (k : Codec κ) (v : Codec ν) (hne : ∀ a, k.write a ≠ []) :
    Codec (List (κ × ν)) :=
  (k.pair v).list.normal insertAll (fun l => insertAll_eq_self_iff.mpr nodup_insertAll)
    fun l hl => by
      obtain ⟨hsize, -, hall⟩ := hl
      have hle := @length_insertAll_le κ ν _ l
      refine ⟨⟨Nat.lt_of_le_of_lt hle hsize, rfl, fun p hp => hall p (mem_of_mem_insertAll hp)⟩, ?_⟩
      have hne' (p : κ × ν) : (k.pair v).write p ≠ [] := by
        rw [Codec.pair_write]
        exact List.append_ne_nil_of_left_ne_nil (hne p.1) _
      refine (length_flatMap_insertAll hne').imp_right fun hlt => ?_
      change (writeVarint _ ++ _).length < (writeVarint _ ++ _).length
      rw [List.length_append, List.length_append]
      exact Nat.add_lt_add_of_le_of_lt (length_writeVarint_mono hle) hlt

end Tables

@[simp] theorem string_write_ne_nil (s : String) : string.write s ≠ [] :=
  List.append_ne_nil_of_left_ne_nil (denotes_writeVarint _).ne_nil _

/-! What can be written. -/

section Valid
variable {κ ν : Type} [DecidableEq κ] {c : Codec α} {d : Codec β}

@[simp] theorem Codec.built_valid {mk : α → β} {get : β → Option α}
    {h : ∀ a b, get b = some a ↔ mk a = b} {b : β} :
    (c.built mk get h).Valid b ↔ ∃ a, get b = some a ∧ c.Valid a := Iff.rfl

@[simp] theorem bool_valid (b : Bool) : bool.Valid b := ⟨_, rfl, rfl⟩

@[simp] theorem int32_valid (x : Int32) : int32.Valid x :=
  ⟨_, rfl, (@zigzag_lt_iff x.toInt (2 ^ 31)).mpr ⟨x.le_toInt, x.toInt_lt⟩⟩

@[simp] theorem int64_valid (x : Int64) : int64.Valid x :=
  ⟨_, rfl, (@zigzag_lt_iff x.toInt (2 ^ 63)).mpr ⟨x.le_toInt, x.toInt_lt⟩⟩

@[simp] theorem word32_valid (x : BitVec 32) : word32.Valid x := ⟨_, rfl, rfl⟩

@[simp] theorem Codec.option_valid {o : Option α} : c.option.Valid o ↔ ∀ a ∈ o, c.Valid a := by
  cases o with
  | none => exact ⟨fun _ _ h => (by cases h), fun _ => ⟨bool_valid _, rfl⟩⟩
  | some a =>
    constructor
    · rintro ⟨-, b, hb, hvalid⟩ a' ha'
      cases hb
      cases ha'
      exact hvalid
    · exact fun h => ⟨bool_valid _, a, rfl, h a rfl⟩

@[simp] theorem Codec.list_valid {l : List α} :
    c.list.Valid l ↔ l.length < 2 ^ 64 ∧ ∀ a ∈ l, c.Valid a := by
  change _ ∧ l.length = l.length ∧ _ ↔ _
  rw [eq_self, true_and]
  rfl

@[simp] theorem string_valid {s : String} : string.Valid s ↔ Text.bytes s.toList < 2 ^ 64 := by
  rw [← Text.length_utf8]
  constructor
  · exact fun h => h.1
  · exact fun h => ⟨h, _, rfl, rfl⟩

theorem tagged_valid {tag : α → ℕ} {bodies : List (Codec α)}
    {h : ∀ i c a, bodies[i]? = some c → c.Valid a → tag a = i} {a : α} :
    (tagged tag bodies h).Valid a ↔
      tag a < 2 ^ 32 ∧ (bodies[tag a]?.getD fail).Valid a := Iff.rfl

theorem oneOf_valid [DecidableEq α] {values : List α} {h : values.Nodup} {a : α}
    (hfew : values.length ≤ 2 ^ 32) (ha : a ∈ values) : (oneOf values h).Valid a := by
  have hlt := List.idxOf_lt_length_of_mem ha
  refine tagged_valid.mpr ⟨Nat.lt_of_lt_of_le hlt hfew, ?_⟩
  rw [List.getElem?_map, List.getElem?_eq_getElem hlt]
  exact (List.getElem_idxOf hlt).symm

end Valid

end Codecs
