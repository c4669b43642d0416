import Nyuka.Foundation.Batches
import Nyuka.Runtime.Blocks
import Nyuka.Runtime.Resources

/-! `net::send_all`: a source's array of handles, whose requests are made in batches of threads and
whose outcomes are matched with them by position. -/
namespace Nyuka
namespace Runtime

/-- `Memory::write` -/
def Memory.write (m : Memory) (offset : ℕ) (bytes : Bytes) : Option Memory :=
  if offset + bytes.length ≤ m.length then
    some (m.take offset ++ bytes ++ m.drop (offset + bytes.length))
  else none

/-- `i32::to_le_bytes` -/
def leBytes (n : ℤ) : Bytes :=
  let u := (n % 2 ^ 32).toNat
  [UInt8.ofNat u, UInt8.ofNat (u / 256), UInt8.ofNat (u / 65536), UInt8.ofNat (u / 16777216)]

/-- The numbers that stand one after another. -/
def i32s : Bytes → List ℤ
  | a :: b :: c :: d :: rest => le32 [a, b, c, d] :: i32s rest
  | _ => []

def readI32s (memory : Option Memory) (ptr len : Int32) : Option (List ℤ) :=
  if len.toInt < 0 ∨ ptr.toInt < 0 then none
  else memory.bind fun m => (m.read (asUsize ptr.toInt) (len.toInt.toNat * 4)).map i32s

/-- Writes numbers back over the array the guest passed in. -/
def writeI32s (memory : Option Memory) (ptr : Int32) (values : List ℤ) : Option Memory :=
  memory.bind fun m => m.write (asUsize ptr.toInt) (values.flatMap leBytes)

/-- How many requests of a batch are in flight at once. -/
def sendAllConcurrency : ℕ := 4

/-- What a request comes to on its thread, which finds the network as it is by then or panics. -/
def sendOn (c : Client) (lib : Libraries) (r : HeldRequest) :
    Option Network → Except ℤ Response
  | some net => (send c lib net r.toRequest).2
  | none => .error NetError.failed

abbrev Sending := Batches.State HeldRequest (Except ℤ Response)

abbrev SendAction := Batches.Action (Option Network)

def sendStep (c : Client) (lib : Libraries) : Sending → SendAction → Option Sending :=
  Batches.step sendAllConcurrency (sendOn c lib)

/-- What the loop over the results has made of them so far. -/
structure Answers (Html : Type) where
  table : ResourceTable Html
  codes : List ℤ
  failure : ℤ

variable {Html : Type}

def Answers.record (rids : List ℤ) (s : Answers Html) :
    Except ℤ Response × ℕ → Answers Html
  | (.ok response, index) => match rids[index]? with
    | some rid => { s with table := s.table.respond rid response }
    -- There are as many results as handles.
    | none => s
  | (.error code, index) => { s with
      codes := s.codes.set index code
      failure := if s.failure = 0 then code else s.failure }

def recordAll (rids : List ℤ) (table : ResourceTable Html)
    (results : List (Except ℤ Response)) : Answers Html :=
  results.zipIdx.foldl (Answers.record rids) ⟨table, rids, 0⟩

/-- The memory, the table and the value that a call leaves. -/
structure AfterSend (Html : Type) where
  memory : Option Memory
  table : ResourceTable Html
  value : ℤ

def answerAll (memory : Option Memory) (table : ResourceTable Html) (ptr : Int32) (rids : List ℤ)
    (results : List (Except ℤ Response)) : AfterSend Html :=
  let answers := recordAll rids table results
  if answers.failure = 0 then ⟨memory, answers.table, answers.failure⟩
  else match writeI32s memory ptr answers.codes with
    | some m => ⟨some m, answers.table, answers.failure⟩
    | none => ⟨memory, answers.table, NetError.failed⟩

/-- A call that the threads run through by these actions. -/
def sendAll (c : Client) (lib : Libraries) (memory : Option Memory) (table : ResourceTable Html)
    (ptr len : Int32) (actions : List SendAction) : Option (AfterSend Html) :=
  match readI32s memory ptr len with
  | none => if actions.isEmpty then some ⟨memory, table, NetError.invalidDescriptor⟩ else none
  | some rids => match rids.mapM table.request with
    | none => if actions.isEmpty then some ⟨memory, table, NetError.invalidDescriptor⟩ else none
    | some requests => match Runs.exec (sendStep c lib) (Batches.start requests) actions with
      | none => none
      | some s => if s.Finished then some (answerAll memory table ptr rids s.out) else none

/-- The last position that holds the handle and succeeded. -/
structure LastSuccess (rids : List ℤ) (results : List (Except ℤ Response)) (rid : ℤ) (i : ℕ)
    (response : Response) : Prop where
  listed : rids[i]? = some rid
  success : results[i]? = some (.ok response)
  last : ∀ j > i, rids[j]? = some rid → ∀ later, results[j]? ≠ some (.ok later)

/-- The response that is held in the end: that of the last success, or else the old one. -/
def Holds (rids : List ℤ) (results : List (Except ℤ Response)) (rid : ℤ)
    (old response : Option Response) : Prop :=
  (∃ i latest, LastSuccess rids results rid i latest ∧ response = some latest) ∨
    (∀ i : ℕ, rids[i]? = some rid → ∀ latest, results[i]? ≠ some (.ok latest)) ∧ response = old

structure FirstFailure (results : List (Except ℤ Response)) (i : ℕ) (code : ℤ) : Prop where
  failure : results[i]? = some (.error code)
  first : ∀ j < i, ∀ earlier, results[j]? ≠ some (.error earlier)

/-- What stands at a position of the array in the end. -/
def codeAt (rids : List ℤ) (results : List (Except ℤ Response)) (i : ℕ) : Option ℤ :=
  match results[i]? with
  | some (.error code) => some code
  | _ => rids[i]?

/-- What a call that sends leaves behind, where the results are those of the requests. -/
structure SentAll (c : Client) (lib : Libraries) (memory : Option Memory)
    (table : ResourceTable Html) (ptr len : Int32) (rids : List ℤ) (actions : List SendAction)
    (results : List (Except ℤ Response)) (left : AfterSend Html) : Prop where
  length : results.length = rids.length
  own : ∀ (i : ℕ) rid r, rids[i]? = some rid → table.request rid = some r → ∃ attempt,
    Batches.attempts i actions = [attempt] ∧ results[i]? = some (sendOn c lib r attempt)
  held : ∀ rid ∈ rids, ∀ r, table.request rid = some r → ∃ response,
    Holds rids results rid r.response response ∧
      left.table.entries rid = some (.request { r with response := response })
  others : ∀ rid ∉ rids, left.table.entries rid = table.entries rid
  succeeded : (∀ (i : ℕ) code, results[i]? ≠ some (.error code)) →
    left.value = 0 ∧ left.memory = memory
  failed : ∀ i code, FirstFailure results i code → left.value = code ∧
    ∃ codes, readI32s left.memory ptr len = some codes ∧ ∀ i, codes[i]? = codeAt rids results i
  elsewhere : ∀ m, memory = some m → ∃ m', left.memory = some m' ∧ m'.length = m.length ∧
    ∀ i, i < ptr.toInt.toNat ∨ ptr.toInt.toNat + len.toInt.toNat * 4 ≤ i → m'[i]? = m[i]?

section Words

private theorem le32_leBytes {n : ℤ} (h : Fits n) : le32 (leBytes n) = n := by
  have hword : ∀ u < 2 ^ 32, u % 256 + 256 * (u / 256 % 256 + 256 * (u / 65536 % 256 +
      256 * (u / 16777216 % 256 + 256 * 0))) = u := by
    intro u hu
    omega
  have hu : (n % 2 ^ 32).toNat < 2 ^ 32 := by omega
  have hcast : ((n % 2 ^ 32).toNat : ℤ) = n % 2 ^ 32 := Int.toNat_of_nonneg (by omega)
  obtain ⟨hlow, hhigh⟩ := h
  simp only [le32, leBytes, List.foldr_cons, List.foldr_nil, UInt8.toNat_ofNat']
  rw [hword _ hu, BitVec.toInt_eq_toNat_bmod, BitVec.toNat_ofNat, Nat.mod_eq_of_lt hu, hcast]
  change Int.bmod (n % (2 ^ 32 : ℕ)) (2 ^ 32) = n
  rw [Int.emod_bmod]
  exact Int.bmod_eq_of_le (by omega) (by omega)

theorem i32s_leBytes {values : List ℤ} (h : ∀ n ∈ values, Fits n) :
    i32s (values.flatMap leBytes) = values := by
  induction values with
  | nil => rfl
  | cons n values ih =>
    have hrest := ih fun n hn => h n (List.mem_cons_of_mem _ hn)
    have hword : le32 (leBytes n) = n := le32_leBytes (h n List.mem_cons_self)
    rw [List.flatMap_cons]
    change le32 (leBytes n) :: i32s (values.flatMap leBytes) = _
    rw [hword, hrest]

@[simp] theorem length_flatMap_leBytes (values : List ℤ) :
    (values.flatMap leBytes).length = values.length * 4 := by
  induction values with
  | nil => rfl
  | cons n values ih =>
    rw [List.flatMap_cons, List.length_append, ih, List.length_cons]
    change 4 + _ = _
    omega

theorem length_i32s (n : ℕ) : ∀ bytes : Bytes, bytes.length = n * 4 → (i32s bytes).length = n := by
  induction n with
  | zero =>
    intro bytes h
    rw [List.length_eq_zero_iff.mp (h.trans (Nat.zero_mul 4))]
    rfl
  | succ n ih =>
    intro bytes h
    rw [Nat.succ_mul] at h
    obtain ⟨a, bytes, rfl⟩ := List.exists_cons_of_length_eq_add_one h
    obtain ⟨b, bytes, rfl⟩ := List.exists_cons_of_length_eq_add_one (Nat.succ.inj h)
    obtain ⟨c, bytes, rfl⟩ := List.exists_cons_of_length_eq_add_one (Nat.succ.inj (Nat.succ.inj h))
    obtain ⟨d, rest, rfl⟩ :=
      List.exists_cons_of_length_eq_add_one (Nat.succ.inj (Nat.succ.inj (Nat.succ.inj h)))
    rw [i32s, List.length_cons, ih rest]
    simp only [List.length_cons] at h
    omega

theorem i32s_fits {bytes : Bytes} {n : ℤ} (h : n ∈ i32s bytes) : Fits n := by
  fun_induction i32s bytes with
  | case1 a b c d rest ih =>
    obtain rfl | h := List.mem_cons.mp h
    · exact le32_fits _
    · exact ih h
  | case2 => cases h

end Words

section Loop
variable {rids : List ℤ} {results : List (Except ℤ Response)} {table : ResourceTable Html}
  {rid : ℤ} {old response : Option Response} {result : Except ℤ Response}

@[simp] theorem recordAll_append (result : Except ℤ Response) :
    recordAll rids table (results ++ [result]) =
      (recordAll rids table results).record rids (result, results.length) := by
  rw [recordAll, List.zipIdx_append, List.foldl_append, Nat.zero_add]
  rfl

theorem of_getElem?_concat {α : Type} {l : List α} {x y : α} {i : ℕ}
    (h : (l ++ [x])[i]? = some y) : l[i]? = some y ∨ i = l.length ∧ x = y := by
  obtain hlt | hge := Nat.lt_or_ge i l.length
  · rw [List.getElem?_append_left hlt] at h
    exact .inl h
  · have hlt := (List.getElem?_eq_some_iff.mp h).1
    rw [List.length_append, List.length_singleton] at hlt
    obtain rfl : i = l.length := by omega
    rw [List.getElem?_concat_length] at h
    exact .inr ⟨rfl, Option.some.inj h⟩

theorem getElem?_concat_of_some {α : Type} {l : List α} {x y : α} {i : ℕ} (h : l[i]? = some y) :
    (l ++ [x])[i]? = some y := by
  rw [List.getElem?_append_left (List.getElem?_eq_some_iff.mp h).1, h]

/-- A success is the last one of its handle when it is recorded. -/
theorem Holds.of_ok {latest : Response} (h : rids[results.length]? = some rid) :
    Holds rids (results ++ [.ok latest]) rid old (some latest) := by
  refine .inl ⟨results.length, latest, ⟨h, List.getElem?_concat_length, ?_⟩, rfl⟩
  intro j hj _ later hlater
  have hlt := (List.getElem?_eq_some_iff.mp hlater).1
  rw [List.length_append, List.length_singleton] at hlt
  omega

/-- Any other result leaves a handle what it holds. -/
theorem Holds.append (h : Holds rids results rid old response)
    (hresult : rids[results.length]? = some rid → ∀ latest, result ≠ .ok latest) :
    Holds rids (results ++ [result]) rid old response := by
  have hback : ∀ j : ℕ, rids[j]? = some rid → ∀ later : Response,
      (results ++ [result])[j]? = some (Except.ok later) →
        results[j]? = some (Except.ok later) := by
    intro j hj later hlater
    obtain hfound | ⟨rfl, heq⟩ := of_getElem?_concat hlater
    · exact hfound
    · exact absurd heq (hresult hj later)
  obtain ⟨i, latest, hlast, rfl⟩ | ⟨hnever, rfl⟩ := h
  · refine .inl ⟨i, latest, ⟨hlast.listed, ?_, fun j hj hrid later hlater => ?_⟩, rfl⟩
    · exact getElem?_concat_of_some hlast.success
    · exact hlast.last j hj hrid later (hback j hrid later hlater)
  · exact .inr ⟨fun i hi latest hlatest => hnever i hi latest (hback i hi latest hlatest), rfl⟩

theorem Holds.nil : Holds rids [] rid old old :=
  .inr ⟨fun _ _ _ hfound => (by cases hfound), rfl⟩

/-- What is not listed keeps what it holds. -/
theorem Holds.eq_of_not_mem (h : Holds rids results rid old response) (hrid : rid ∉ rids) :
    response = old := by
  obtain ⟨i, latest, hlast, -⟩ | ⟨-, heq⟩ := h
  · exact absurd (List.mem_of_getElem? hlast.listed) hrid
  · exact heq

/-- Every request holds the response of its last success, and all else is as it was. -/
structure Answered (rids : List ℤ) (results : List (Except ℤ Response))
    (before after : ResourceTable Html) : Prop where
  request : ∀ rid r, before.request rid = some r → ∃ response,
    Holds rids results rid r.response response ∧
      after.entries rid = some (.request { r with response := response })
  other : ∀ rid, before.request rid = none → after.entries rid = before.entries rid

theorem Answered.nil : Answered rids [] table table :=
  ⟨fun _ r hr => ⟨r.response, Holds.nil, ResourceTable.request_eq_some.mp hr⟩, fun _ _ => rfl⟩

theorem Answered.of_error {after : ResourceTable Html} {code : ℤ}
    (h : Answered rids results table after) :
    Answered rids (results ++ [.error code]) table after := by
  refine ⟨fun rid r hr => ?_, h.other⟩
  obtain ⟨response, hholds, hentry⟩ := h.request rid r hr
  exact ⟨response, hholds.append fun _ _ heq => (by cases heq), hentry⟩

theorem Answered.of_ok {after : ResourceTable Html} {latest : Response}
    (h : Answered rids results table after) (hrid : rids[results.length]? = some rid) :
    Answered rids (results ++ [.ok latest]) table (after.respond rid latest) := by
  refine ⟨fun p r hr => ?_, fun p hp => ?_⟩
  · obtain ⟨response, hholds, hentry⟩ := h.request p r hr
    by_cases hprid : p = rid
    · obtain rfl := hprid
      have hrequest := ResourceTable.request_eq_some.mpr hentry
      exact ⟨some latest, Holds.of_ok hrid, (ResourceTable.respond_self hrequest).trans rfl⟩
    · refine ⟨response, hholds.append fun hlisted => ?_,
        (ResourceTable.respond_of_ne hprid).trans hentry⟩
      exact absurd (Option.some.inj (hlisted.symm.trans hrid)) hprid
  · by_cases hprid : p = rid
    · obtain rfl := hprid
      have hnone : after.request p = none :=
        (ResourceTable.request_congr (h.other p hp)).trans hp
      rw [ResourceTable.respond_of_none hnone]
      exact h.other p hp
    · exact (ResourceTable.respond_of_ne hprid).trans (h.other p hp)

/-- What the loop has made of the results so far. -/
structure Recorded (rids : List ℤ) (results : List (Except ℤ Response))
    (table : ResourceTable Html) (s : Answers Html) : Prop where
  table : Answered rids results table s.table
  length : s.codes.length = rids.length
  codes : ∀ i, s.codes[i]? = codeAt rids results i
  failure : (∃ i, FirstFailure results i s.failure) ∨
    (∀ (i : ℕ) code, results[i]? ≠ some (.error code)) ∧ s.failure = 0

theorem codeAt_append_of_ne {i : ℕ} (h : i ≠ results.length) :
    codeAt rids (results ++ [result]) i = codeAt rids results i := by
  rw [codeAt, codeAt]
  obtain hlt | hgt := Nat.lt_or_gt_of_ne h
  · rw [List.getElem?_append_left hlt]
  · rw [List.getElem?_append_right (Nat.le_of_lt hgt), List.getElem?_eq_none (Nat.le_of_lt hgt),
      List.getElem?_eq_none (Nat.sub_pos_of_lt hgt)]

@[simp] theorem codeAt_append_error {code : ℤ} :
    codeAt rids (results ++ [.error code]) results.length = some code := by
  rw [codeAt, List.getElem?_concat_length]

@[simp] theorem codeAt_append_ok {latest : Response} :
    codeAt rids (results ++ [.ok latest]) results.length = rids[results.length]? := by
  rw [codeAt, List.getElem?_concat_length]

@[simp] theorem codeAt_length : codeAt rids results results.length = rids[results.length]? := by
  rw [codeAt, List.getElem?_eq_none (Nat.le_refl _)]

theorem FirstFailure.append {i : ℕ} {code : ℤ} (h : FirstFailure results i code) :
    FirstFailure (results ++ [result]) i code := by
  refine ⟨getElem?_concat_of_some h.failure, fun j hj earlier hearlier => ?_⟩
  have hlt := (List.getElem?_eq_some_iff.mp h.failure).1
  obtain hfound | ⟨rfl, -⟩ := of_getElem?_concat hearlier
  · exact h.first j hj earlier hfound
  · omega

theorem Recorded.of_ok {s : Answers Html} {latest : Response} (h : Recorded rids results table s)
    (hlt : results.length < rids.length) :
    Recorded rids (results ++ [.ok latest]) table
      (s.record rids (.ok latest, results.length)) := by
  obtain ⟨rid, hrid⟩ : ∃ rid, rids[results.length]? = some rid :=
    ⟨_, List.getElem?_eq_getElem hlt⟩
  have hrecord : s.record rids (.ok latest, results.length) =
      { s with table := s.table.respond rid latest } := by
    rw [Answers.record, hrid]
  rw [hrecord]
  refine ⟨h.table.of_ok hrid, h.length, fun i => (h.codes i).trans ?_, ?_⟩
  · by_cases hi : i = results.length
    · rw [hi, codeAt_length, codeAt_append_ok]
    · exact (codeAt_append_of_ne hi).symm
  · obtain ⟨i, hfirst⟩ | ⟨hnever, hzero⟩ := h.failure
    · exact .inl ⟨i, hfirst.append⟩
    · refine .inr ⟨fun i code hcode => ?_, hzero⟩
      obtain hfound | ⟨-, heq⟩ := of_getElem?_concat hcode
      · exact hnever i code hfound
      · cases heq

theorem Recorded.of_error {s : Answers Html} {code : ℤ} (h : Recorded rids results table s)
    (hlt : results.length < rids.length)
    (hcodes : ∀ (i : ℕ) code, results[i]? = some (.error code) → code ≠ 0) :
    Recorded rids (results ++ [.error code]) table
      (s.record rids (.error code, results.length)) := by
  refine ⟨h.table.of_error, List.length_set.trans h.length, fun i => ?_, ?_⟩
  · change (s.codes.set results.length code)[i]? = _
    by_cases hi : i = results.length
    · rw [hi, codeAt_append_error, List.getElem?_set_self (h.length ▸ hlt)]
    · rw [codeAt_append_of_ne hi, List.getElem?_set_ne (Ne.symm hi), h.codes]
  · change (∃ i, FirstFailure _ i (if s.failure = 0 then code else s.failure)) ∨ _
    obtain ⟨i, hfirst⟩ | ⟨hnever, hzero⟩ := h.failure
    · rw [if_neg (hcodes i _ hfirst.failure)]
      exact .inl ⟨i, hfirst.append⟩
    · rw [if_pos hzero]
      refine .inl ⟨results.length, List.getElem?_concat_length, fun j hj earlier hearlier => ?_⟩
      obtain hfound | ⟨rfl, -⟩ := of_getElem?_concat hearlier
      · exact hnever j earlier hfound
      · exact absurd hj (Nat.lt_irrefl _)

/-- The loop as a whole: as many results as handles, and no failure with the code of a success. -/
theorem recordAll_recorded (hlength : results.length ≤ rids.length)
    (hcodes : ∀ (i : ℕ) code, results[i]? = some (.error code) → code ≠ 0) :
    Recorded rids results table (recordAll rids table results) := by
  induction results using List.reverseRecOn with
  | nil => exact ⟨Answered.nil, rfl, fun _ => rfl, .inr ⟨fun _ _ hfound => (by cases hfound), rfl⟩⟩
  | append_singleton results result ih =>
    rw [List.length_append, List.length_singleton] at hlength
    have hbefore : ∀ (i : ℕ) code, results[i]? = some (.error code) → code ≠ 0 :=
      fun i code hi => hcodes i code (getElem?_concat_of_some hi)
    have hrec := ih (Nat.le_of_succ_le hlength) hbefore
    rw [recordAll_append]
    cases result with
    | ok latest => exact hrec.of_ok hlength
    | error code => exact hrec.of_error hlength hbefore

end Loop

section Arrays
variable {memory : Option Memory} {m : Memory} {ptr len : Int32} {rids values : List ℤ}

/-- The array lies where it says, and within the memory. -/
structure ArrayAt (m : Memory) (ptr len : Int32) : Prop where
  pointer : 0 ≤ ptr.toInt
  length : 0 ≤ len.toInt
  inside : ptr.toInt.toNat + len.toInt.toNat * 4 ≤ m.length

theorem readI32s_some (h : ArrayAt m ptr len) :
    readI32s (some m) ptr len =
      some (i32s ((m.drop ptr.toInt.toNat).take (len.toInt.toNat * 4))) := by
  have hneg : ¬ (len.toInt < 0 ∨ ptr.toInt < 0) :=
    not_or.mpr ⟨not_lt.mpr h.length, not_lt.mpr h.pointer⟩
  rw [readI32s, if_neg hneg, asUsize_of_fits (int32_fits ptr) h.pointer, Option.bind_some,
    Memory.read_of_le h.inside, Option.map_some]

theorem exists_array (h : readI32s memory ptr len = some rids) :
    ∃ m, memory = some m ∧ ArrayAt m ptr len ∧
      rids = i32s ((m.drop ptr.toInt.toNat).take (len.toInt.toNat * 4)) := by
  rw [readI32s] at h
  split_ifs at h with hneg
  obtain ⟨hlen, hptr⟩ := not_or.mp hneg
  obtain ⟨m, rfl, hm⟩ := Option.bind_eq_some_iff.mp h
  obtain ⟨bytes, hbytes, rfl⟩ := Option.map_eq_some_iff.mp hm
  rw [asUsize_of_fits (int32_fits ptr) (not_lt.mp hptr), Memory.read] at hbytes
  split_ifs at hbytes with hinside
  cases hbytes
  exact ⟨m, rfl, ⟨not_lt.mp hptr, not_lt.mp hlen, hinside⟩, rfl⟩

theorem ArrayAt.length_i32s (h : ArrayAt m ptr len) :
    (i32s ((m.drop ptr.toInt.toNat).take (len.toInt.toNat * 4))).length = len.toInt.toNat := by
  apply Runtime.length_i32s
  have hinside := h.inside
  rw [List.length_take, List.length_drop]
  omega

/-- Numbers that are written over an array are read back from it, and nothing else changes. -/
theorem ArrayAt.write (h : ArrayAt m ptr len) (hlength : values.length = len.toInt.toNat)
    (hvalues : ∀ n ∈ values, Fits n) :
    ∃ m', writeI32s (some m) ptr values = some m' ∧ readI32s (some m') ptr len = some values ∧
      m'.length = m.length ∧ ∀ i,
        i < ptr.toInt.toNat ∨ ptr.toInt.toNat + len.toInt.toNat * 4 ≤ i → m'[i]? = m[i]? := by
  have hinside := h.inside
  have hbytes : (values.flatMap leBytes).length = len.toInt.toNat * 4 := by
    rw [length_flatMap_leBytes, hlength]
  have htake : (m.take ptr.toInt.toNat).length = ptr.toInt.toNat := by
    rw [List.length_take]
    omega
  have hfront : (m.take ptr.toInt.toNat ++ values.flatMap leBytes).length =
      ptr.toInt.toNat + len.toInt.toNat * 4 := by
    rw [List.length_append, htake, hbytes]
  have hlen : (m.take ptr.toInt.toNat ++ values.flatMap leBytes ++
      m.drop (ptr.toInt.toNat + len.toInt.toNat * 4)).length = m.length := by
    rw [List.length_append, hfront, List.length_drop]
    omega
  refine ⟨m.take ptr.toInt.toNat ++ values.flatMap leBytes ++
    m.drop (ptr.toInt.toNat + len.toInt.toNat * 4), ?_, ?_, hlen, fun i hi => ?_⟩
  · rw [writeI32s, Option.bind_some, asUsize_of_fits (int32_fits ptr) h.pointer, Memory.write,
      hbytes, if_pos hinside]
  · rw [readI32s_some ⟨h.pointer, h.length, hlen.symm ▸ hinside⟩, List.append_assoc,
      List.drop_left' htake, List.take_left' hbytes, i32s_leBytes hvalues]
  · obtain hi | hi := hi
    · rw [List.append_assoc, List.getElem?_append_left (by omega), List.getElem?_take_of_lt hi]
    · rw [List.getElem?_append_right (by omega), List.getElem?_drop, hfront]
      congr 1
      omega

end Arrays

section Sending
variable {c : Client} {lib : Libraries} {memory : Option Memory} {table : ResourceTable Html}
  {ptr len : Int32} {rids : List ℤ} {results : List (Except ℤ Response)}

/-- The codes of a failure are numbers of their own below that of a success. -/
theorem send_error {net : Network} {r : Request} {code : ℤ}
    (h : (send c lib net r).2 = .error code) : -6 ≤ code ∧ code ≤ -3 := by
  have hcodes : ∀ code ∈ [NetError.notSent, NetError.invalidMethod, NetError.invalidUrl,
      NetError.failed], -6 ≤ code ∧ code ≤ -3 := by decide
  refine hcodes code ?_
  rw [send] at h
  split at h
  · cases h
    simp
  · split at h
    · cases h
      simp
    · split at h
      · cases h
        simp
      · split at h
        · split at h
          · split at h
            · cases h
              simp
            · split at h
              · cases h
                simp
              · cases h
          · cases h
            simp
        · cases h
          simp

theorem sendOn_error {r : HeldRequest} {attempt : Option Network} {code : ℤ}
    (h : sendOn c lib r attempt = .error code) : -6 ≤ code ∧ code ≤ -3 := by
  cases attempt with
  | some net => exact send_error h
  | none =>
    cases h
    decide

theorem mapM_request_eq_none {rids : List ℤ} (h : ∃ rid ∈ rids, table.request rid = none) :
    rids.mapM table.request = none := by
  induction rids with
  | nil =>
    obtain ⟨rid, hrid, -⟩ := h
    cases hrid
  | cons rid rids ih =>
    rw [List.mapM_cons]
    obtain ⟨bad, hbad, hnone⟩ := h
    obtain rfl | hbad := List.mem_cons.mp hbad
    · rw [hnone]
      rfl
    · cases table.request rid with
      | none => rfl
      | some r =>
        rw [ih ⟨bad, hbad, hnone⟩]
        rfl

theorem mapM_request_eq_some {rids : List ℤ} (h : ∀ rid ∈ rids, table.request rid ≠ none) :
    rids.mapM table.request = some (rids.filterMap table.request) ∧
      (rids.filterMap table.request).length = rids.length ∧
      ∀ (i : ℕ) rid, rids[i]? = some rid →
        (rids.filterMap table.request)[i]? = table.request rid := by
  induction rids with
  | nil => exact ⟨rfl, rfl, fun _ _ hi => by cases hi⟩
  | cons rid rids ih =>
    obtain ⟨hmap, hlength, hat⟩ := ih fun p hp => h p (List.mem_cons_of_mem _ hp)
    obtain ⟨r, hr⟩ := Option.ne_none_iff_exists'.mp (h rid List.mem_cons_self)
    rw [List.filterMap_cons_some hr]
    refine ⟨?_, congrArg (· + 1) hlength, fun i p hi => ?_⟩
    · rw [List.mapM_cons, hr, hmap]
      rfl
    · cases i with
      | zero =>
        cases hi
        exact hr.symm
      | succ i => exact hat i p hi

theorem codeAt_fits {i : ℕ} {n : ℤ} (hrids : ∀ rid ∈ rids, Fits rid)
    (hcodes : ∀ (i : ℕ) code, results[i]? = some (.error code) → -6 ≤ code ∧ code ≤ -3)
    (h : codeAt rids results i = some n) : Fits n := by
  rw [codeAt] at h
  split at h
  · rename_i code hcode
    obtain ⟨hlow, hhigh⟩ := hcodes i code hcode
    cases h
    exact ⟨by omega, by omega⟩
  · exact hrids n (List.mem_of_getElem? h)

theorem Recorded.entries {s : Answers Html} (h : Recorded rids results table s) {rid : ℤ}
    (hrid : rid ∉ rids) : s.table.entries rid = table.entries rid := by
  cases hr : table.request rid with
  | none => exact h.table.other rid hr
  | some r =>
    obtain ⟨response, hholds, hentry⟩ := h.table.request rid r hr
    rw [hentry, hholds.eq_of_not_mem hrid, ResourceTable.request_eq_some.mp hr]

theorem FirstFailure.code_eq {i j : ℕ} {a b : ℤ} (h : FirstFailure results i a)
    (h' : FirstFailure results j b) : a = b := by
  obtain hlt | rfl | hgt := lt_trichotomy i j
  · exact absurd h.failure (h'.first i hlt a)
  · cases h.failure.symm.trans h'.failure
    rfl
  · exact absurd h'.failure (h.first j hgt b)

theorem Recorded.failure_eq {s : Answers Html} {i : ℕ} {code : ℤ}
    (h : Recorded rids results table s) (hfirst : FirstFailure results i code) :
    s.failure = code := by
  obtain ⟨j, hj⟩ | ⟨hnever, -⟩ := h.failure
  · exact hj.code_eq hfirst
  · exact absurd hfirst.failure (hnever i code)

theorem Recorded.failure_eq_zero {s : Answers Html} (h : Recorded rids results table s)
    (hnever : ∀ (i : ℕ) code, results[i]? ≠ some (.error code)) : s.failure = 0 := by
  obtain ⟨i, hi⟩ | ⟨-, hzero⟩ := h.failure
  · exact absurd hi.failure (hnever i s.failure)
  · exact hzero

/-- The array is as it was, or it is written over with the codes. -/
theorem exists_answerAll {m : Memory} {s : Answers Html} (harray : ArrayAt m ptr len)
    (hs : recordAll rids table results = s) (hlength : s.codes.length = len.toInt.toNat)
    (hfits : ∀ n ∈ s.codes, Fits n) :
    ∃ m', answerAll (some m) table ptr rids results = ⟨some m', s.table, s.failure⟩ ∧
      (s.failure = 0 → m' = m) ∧ (s.failure ≠ 0 → readI32s (some m') ptr len = some s.codes) ∧
      m'.length = m.length ∧ ∀ i,
        i < ptr.toInt.toNat ∨ ptr.toInt.toNat + len.toInt.toNat * 4 ≤ i → m'[i]? = m[i]? := by
  rw [answerAll, hs]
  by_cases hzero : s.failure = 0
  · exact ⟨m, if_pos hzero, fun _ => rfl, fun hne => absurd hzero hne, rfl, fun _ _ => rfl⟩
  · obtain ⟨m', hwrite, hback, hsize, hsame⟩ := harray.write hlength hfits
    refine ⟨m', ?_, fun h => absurd h hzero, fun _ => hback, hsize, hsame⟩
    simp only [if_neg hzero, hwrite]

/-- The loop and the array that it writes, for results of which each is that of its request. -/
theorem answerAll_sentAll {actions : List SendAction}
    (hread : readI32s memory ptr len = some rids) (hlength : results.length = rids.length)
    (hown : ∀ (i : ℕ) rid r, rids[i]? = some rid → table.request rid = some r → ∃ attempt,
      Batches.attempts i actions = [attempt] ∧ results[i]? = some (sendOn c lib r attempt))
    (hcodes : ∀ (i : ℕ) code, results[i]? = some (.error code) → -6 ≤ code ∧ code ≤ -3) :
    SentAll c lib memory table ptr len rids actions results
      (answerAll memory table ptr rids results) := by
  obtain ⟨m, rfl, harray, hrids⟩ := exists_array hread
  have hlen : rids.length = len.toInt.toNat := by rw [hrids, harray.length_i32s]
  have hfits : ∀ rid ∈ rids, Fits rid := fun rid hrid => i32s_fits (hrids ▸ hrid)
  have hnonzero : ∀ (i : ℕ) code, results[i]? = some (.error code) → code ≠ 0 := by
    intro i code hcode
    have hhigh := (hcodes i code hcode).2
    omega
  have hrecorded : Recorded rids results table (recordAll rids table results) :=
    recordAll_recorded hlength.le hnonzero
  generalize hs : recordAll rids table results = s at hrecorded
  have hcodefits : ∀ n ∈ s.codes, Fits n := by
    intro n hn
    obtain ⟨i, hi⟩ := List.mem_iff_getElem?.mp hn
    exact codeAt_fits hfits hcodes ((hrecorded.codes i).symm.trans hi)
  obtain ⟨m', heq, hok, hfailed, hsize, hsame⟩ :=
    exists_answerAll harray hs (hrecorded.length.trans hlen) hcodefits
  rw [heq]
  exact {
    length := hlength
    own := hown
    held := fun rid _ => hrecorded.table.request rid
    others := fun rid hrid => hrecorded.entries hrid
    succeeded := fun hnever =>
      have hzero := hrecorded.failure_eq_zero hnever
      ⟨hzero, congrArg some (hok hzero)⟩
    failed := fun i code hfirst =>
      have hcode := hrecorded.failure_eq hfirst
      ⟨hcode, s.codes, hfailed (hcode ▸ hnonzero i code hfirst.failure), hrecorded.codes⟩
    elsewhere := fun _ hm => ⟨m', rfl, Option.some.inj hm ▸ ⟨hsize, hsame⟩⟩ }

theorem sendAll_unknown {actions : List SendAction} {left : AfterSend Html}
    (hread : readI32s memory ptr len = some rids) (h : ∃ rid ∈ rids, table.request rid = none) :
    sendAll c lib memory table ptr len actions = some left ↔
      actions = [] ∧ left = ⟨memory, table, NetError.invalidDescriptor⟩ := by
  simp only [sendAll, hread, mapM_request_eq_none h, Option.ite_none_right_eq_some,
    List.isEmpty_iff, Option.some.injEq]
  rw [eq_comm (a := left)]

/-- A call whose handles all name requests: what its end says, and that it gets there. -/
theorem sendAll_known {requests : List HeldRequest}
    (hread : readI32s memory ptr len = some rids)
    (hmap : rids.mapM table.request = some requests) {actions : List SendAction}
    {left : AfterSend Html} :
    sendAll c lib memory table ptr len actions = some left ↔
      ∃ s : Sending, Runs.exec (sendStep c lib) (Batches.start requests) actions = some s ∧
        s.Finished ∧ left = answerAll memory table ptr rids s.out := by
  simp only [sendAll, hread, hmap]
  cases Runs.exec (sendStep c lib) (Batches.start requests) actions with
  | none => simp
  | some s => simp [eq_comm]

theorem sendAll_finishes (hread : readI32s memory ptr len = some rids)
    (hknown : ∀ rid ∈ rids, table.request rid ≠ none) {actions : List SendAction} {s : Sending}
    (h : Runs.exec (sendStep c lib) (Batches.start (rids.filterMap table.request)) actions =
      some s) :
    ∃ rest left, sendAll c lib memory table ptr len (actions ++ rest) = some left := by
  have hmap := (mapM_request_eq_some hknown).1
  obtain ⟨rest, t, hexec, hfinished⟩ := Batches.exists_finish (by decide) h
  exact ⟨rest, _, (sendAll_known hread hmap).mpr ⟨t, hexec, hfinished, rfl⟩⟩

private theorem sendAll_sentAll (hread : readI32s memory ptr len = some rids)
    (hknown : ∀ rid ∈ rids, table.request rid ≠ none) {actions : List SendAction}
    {left : AfterSend Html} (h : sendAll c lib memory table ptr len actions = some left) :
    ∃ results, SentAll c lib memory table ptr len rids actions results left := by
  obtain ⟨hmap, hcount, hat⟩ := mapM_request_eq_some hknown
  obtain ⟨s, hexec, hfinished, rfl⟩ := (sendAll_known hread hmap).mp h
  obtain ⟨hlength, hresults, -⟩ := Batches.results_of_exec hexec hfinished
  refine ⟨s.out, answerAll_sentAll hread (hlength.trans hcount) (fun i rid r hi hr => ?_)
    fun i code hcode => ?_⟩
  · exact hresults i r ((hat i rid hi).trans hr)
  · have hlt : i < (rids.filterMap table.request).length :=
      hlength ▸ (List.getElem?_eq_some_iff.mp hcode).1
    obtain ⟨attempt, -, hresult⟩ := hresults i _ (List.getElem?_eq_getElem hlt)
    exact sendOn_error (Option.some.inj (hresult.symm.trans hcode))

/-- With a handle of no request nothing is sent and nothing changes. Otherwise every call comes to
an end, in whatever order its threads finish, and answers each request with its own result. -/
theorem sendAll_exact (c : Client) (lib : Libraries) {memory : Option Memory}
    {table : ResourceTable Html} {ptr len : Int32} {rids : List ℤ}
    (hread : readI32s memory ptr len = some rids) :
    ((∃ rid ∈ rids, table.request rid = none) → ∀ actions left,
      sendAll c lib memory table ptr len actions = some left ↔
        actions = [] ∧ left = ⟨memory, table, NetError.invalidDescriptor⟩) ∧
    ((∀ rid ∈ rids, table.request rid ≠ none) →
      (∀ actions s, Runs.exec (sendStep c lib)
          (Batches.start (rids.filterMap table.request)) actions = some s →
        ∃ rest left, sendAll c lib memory table ptr len (actions ++ rest) = some left) ∧
      ∀ actions left, sendAll c lib memory table ptr len actions = some left →
        ∃ results, SentAll c lib memory table ptr len rids actions results left) :=
  ⟨fun hunknown _ _ => sendAll_unknown hread hunknown, fun hknown =>
    ⟨fun _ _ h => sendAll_finishes hread hknown h, fun _ _ h => sendAll_sentAll hread hknown h⟩⟩

end Sending

/-- The site answers at once. -/
def answeringNetwork : Network where
  dns _ _ port := some [⟨.v4 ⟨93, 184, 216, 34⟩, port⟩]
  dials _ addrs := addrs
  exchange _ _ := .answered ⟨200, [], none, .ok [7]⟩
  mem_of_dialed _ _ _ h := h
  dials_ne_nil _ _ h := h

/-- A request of the site, and one that is not complete. -/
def requestTable : ResourceTable Unit where
  entries id :=
    if id = 1 then some (.request ⟨⟨0, some redirectingSite.text, [], none⟩, none⟩)
    else if id = 2 then some (.request ⟨⟨0, none, [], none⟩, none⟩)
    else none
  next := 2

/-- The last of the first batch finishes first, and the thread of the second panics. -/
def outOfOrder : List SendAction :=
  [.batch, .spawn, .spawn, .spawn, .finish 2 (some answeringNetwork), .spawn,
    .finish 3 (some answeringNetwork), .finish 0 (some answeringNetwork), .join,
    .finish 1 (some answeringNetwork), .join, .join, .join, .batch, .spawn, .finish 4 none, .join]

def handleArray : Memory := [1, 2, 1, 2, 1].flatMap leBytes

theorem outOfOrder_answered :
    ∃ left, sendAll (buildClient ⟨answeringNetwork.dns⟩) siteLibraries (some handleArray)
        requestTable 0 5 outOfOrder = some left ∧
      ∃ results, SentAll (buildClient ⟨answeringNetwork.dns⟩) siteLibraries (some handleArray)
        requestTable 0 5 [1, 2, 1, 2, 1] outOfOrder results left := by
  have hread : readI32s (some handleArray) 0 5 = some [1, 2, 1, 2, 1] := by decide
  have hsome : (sendAll (buildClient ⟨answeringNetwork.dns⟩) siteLibraries (some handleArray)
      requestTable 0 5 outOfOrder).isSome = true := by decide
  obtain ⟨left, hleft⟩ := Option.isSome_iff_exists.mp hsome
  have hknown : ∀ rid ∈ [1, 2, 1, 2, 1], requestTable.request rid ≠ none := by decide
  have hall := ((sendAll_exact (buildClient ⟨answeringNetwork.dns⟩) siteLibraries hread).2
    hknown).2
  exact ⟨left, hleft, hall outOfOrder left hleft⟩

end Runtime
end Nyuka
