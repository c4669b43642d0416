import Nyuka.Foundation.Paging
import Nyuka.Foundation.Runs

/-! Reading a table page by page while it changes. A page's cursor names its last row, and the
next page starts behind that row as the table then has it. -/
namespace Paging
open Runs

variable {σ α ρ κ ι μ ε : Type*}

/-- What was read of a table so far, and the cursor to go on with, if there is more. -/
structure Reading (σ ρ κ : Type*) where
  table : σ
  read : List ρ
  next : Option (Option κ)

/-- The table changes, or the next page is read. -/
inductive Turn (α : Type*) where
  | change (a : α)
  | fetch

def Reading.start (table : σ) : Reading σ ρ κ := ⟨table, [], some none⟩

def Reading.turn (change : σ → α → Option σ) (fetch : σ → Option κ → Except ε (Page ρ κ))
    (s : Reading σ ρ κ) : Turn α → Option (Reading σ ρ κ)
  | .change a => (change s.table a).map fun table => { s with table }
  | .fetch => s.next.bind fun cursor => (fetch s.table cursor).toOption.map fun page =>
      { s with read := s.read ++ page.items, next := page.next.map some }

/-- The last row that was read is still in the table. -/
def Reading.Marked (rows : σ → List ρ) (id : ρ → ι) (s : Reading σ ρ κ) : Prop :=
  ∀ last ∈ s.read.getLast?, ∃ r ∈ rows s.table, id r = id last

section Pages
variable [LinearOrder μ] {rank : ρ → μ}

/-- The rows that rank behind the last one read. -/
def ahead (rank : ρ → μ) (read rows : List ρ) : List ρ :=
  rows.filter fun r => read.getLast?.all fun last => decide (rank last < rank r)

@[simp] theorem mem_ahead {read rows : List ρ} {r : ρ} :
    r ∈ ahead rank read rows ↔ r ∈ rows ∧ ∀ last ∈ read.getLast?, rank last < rank r := by
  simp [ahead, List.mem_filter, Option.all_eq_true]

/-- The first page of rows in their order. -/
def firstPage (size : ℕ) (cursor : ρ → κ) (rank : ρ → μ) (rows : List ρ) : Page ρ κ :=
  pageOf size cursor ((orderBy rank rows).take (size + 1))

variable {size : ℕ} {cursor : ρ → κ} {rows : List ρ} {r : ρ}

@[simp] theorem items_firstPage :
    (firstPage size cursor rank rows).items = (orderBy rank rows).take size := by
  rw [firstPage, pageOf, List.take_take, Nat.min_eq_left (Nat.le_succ size)]

theorem mem_of_mem_firstPage (h : r ∈ (firstPage size cursor rank rows).items) : r ∈ rows := by
  rw [items_firstPage] at h
  exact mem_orderBy.mp (List.mem_of_mem_take h)

theorem ascending_firstPage (h : Ranked rank rows) :
    (firstPage size cursor rank rows).items.Pairwise fun a b => rank a < rank b := by
  rw [items_firstPage]
  exact h.strict.sublist (List.take_sublist _ _)

/-- The next cursor names the last row of the page. -/
theorem next_firstPage {k : κ} (h : (firstPage size cursor rank rows).next = some k) :
    ∃ last, (firstPage size cursor rank rows).items.getLast? = some last ∧ cursor last = k := by
  simp only [firstPage, pageOf] at h ⊢
  split at h
  · exact Option.map_eq_some_iff.mp h
  · cases h

/-- What is not on the page is behind its last row, and there is a next page. -/
theorem mem_or_behind (cursor : ρ → κ) (hsize : 0 < size) (h : Ranked rank rows) (hr : r ∈ rows) :
    r ∈ (firstPage size cursor rank rows).items ∨
      (firstPage size cursor rank rows).next.isSome = true ∧
        ∀ last ∈ (firstPage size cursor rank rows).items.getLast?, rank last < rank r := by
  rw [items_firstPage]
  have hsplit : r ∈ orderBy rank rows := mem_orderBy.mpr hr
  rw [← List.take_append_drop size (orderBy rank rows), List.mem_append] at hsplit
  refine hsplit.imp_right fun hdrop => ⟨?_, fun last hlast => ?_⟩
  · have hlong : size < (orderBy rank rows).length := by
      have hpos := List.length_pos_of_mem hdrop
      rw [List.length_drop] at hpos
      omega
    have hfetched : size < ((orderBy rank rows).take (size + 1)).length := by
      rw [List.length_take]
      omega
    have hne : ((orderBy rank rows).take (size + 1)).take size ≠ [] := by
      rw [← List.length_pos_iff, List.length_take]
      omega
    rw [firstPage, pageOf, if_pos hfetched, Option.isSome_map, Option.isSome_iff_ne_none, ne_eq,
      List.getLast?_eq_none_iff]
    exact hne
  · have hstrict := h.strict
    rw [← List.take_append_drop size (orderBy rank rows), List.pairwise_append] at hstrict
    exact hstrict.2.2 last (List.mem_of_getLast? hlast) r hdrop

end Pages

/-- A listing of a table: its rows have ranks that never change, and a page starts behind the row
its cursor names. Behind a row that is gone there is nothing. `I` is what holds of the table. -/
structure Listing [LinearOrder μ] (change : σ → α → Option σ) (rows : σ → List ρ) (id : ρ → ι)
    (rank : ρ → μ) (size : ℕ) (cursor : ι → κ) (fetch : σ → Option κ → Except ε (Page ρ κ))
    (I : σ → Prop) : Prop where
  size_pos : 0 < size
  kept : ∀ {s a t}, I s → change s a = some t → I t
  ranked : ∀ {s}, I s → Ranked rank (rows s)
  same : ∀ {s t r r'}, I s → Reachable change s t → r ∈ rows s → r' ∈ rows t → id r' = id r →
    rank r' = rank r
  first : ∀ {s}, I s → fetch s none = .ok (firstPage size (cursor ∘ id) rank (rows s))
  resume : ∀ {s r}, I s → r ∈ rows s → fetch s (some (cursor (id r))) =
    .ok (firstPage size (cursor ∘ id) rank ((rows s).filter fun r' => rank r < rank r'))
  lost : ∀ {s i}, I s → (∀ r ∈ rows s, id r ≠ i) → fetch s (some (cursor i)) = .ok ⟨[], none⟩

section Readings
variable [LinearOrder μ] {change : σ → α → Option σ} {rows : σ → List ρ} {id : ρ → ι}
  {rank : ρ → μ} {size : ℕ} {cursor : ι → κ} {fetch : σ → Option κ → Except ε (Page ρ κ)}
  {I : σ → Prop} {s t u : Reading σ ρ κ} {turn : Turn α} {turns : List (Turn α)} {table : σ}

/-- What was read was in the table when it was read, in the order of the ranks, and the cursor
names the last of it. -/
structure Reading.Sound (change : σ → α → Option σ) (rows : σ → List ρ) (id : ρ → ι)
    (rank : ρ → μ) (cursor : ι → κ) (I : σ → Prop) (s : Reading σ ρ κ) : Prop where
  table : I s.table
  came : ∀ r ∈ s.read, ∃ s₀, I s₀ ∧ Reachable change s₀ s.table ∧ r ∈ rows s₀
  ascending : s.read.Pairwise fun a b => rank a < rank b
  next : ∀ c, s.next = some c → c = s.read.getLast?.map (cursor ∘ id)

/-- The page that is fetched, while the last row read is there and when it is gone. -/
theorem Listing.fetched (L : Listing change rows id rank size cursor fetch I)
    (hs : s.Sound change rows id rank cursor I) {c : Option κ} (hc : s.next = some c) :
    (s.Marked rows id → fetch s.table c = .ok (firstPage size (cursor ∘ id) rank
      (ahead rank s.read (rows s.table)))) ∧
    (¬ s.Marked rows id → fetch s.table c = .ok ⟨[], none⟩) := by
  obtain rfl := hs.next c hc
  cases hlast : s.read.getLast? with
  | none =>
    have hall : ahead rank s.read (rows s.table) = rows s.table :=
      List.filter_eq_self.mpr fun r _ => by simp [hlast]
    refine ⟨fun _ => ?_, fun hgone => absurd (fun last h => ?_) hgone⟩
    · rw [hall]
      exact L.first hs.table
    · rw [hlast] at h
      cases h
  | some last =>
    constructor
    · intro hmarked
      obtain ⟨r, hr, hid⟩ := hmarked last hlast
      obtain ⟨s₀, h₀, hreach, hmem⟩ := hs.came last (List.mem_of_getLast? hlast)
      have hrank : rank r = rank last := L.same h₀ hreach hmem hr hid
      have hahead : ahead rank s.read (rows s.table) =
          (rows s.table).filter fun r' => rank r < rank r' :=
        List.filter_congr fun r' _ => by simp [hlast, hrank]
      rw [hahead, Option.map_some, Function.comp_apply, ← hid]
      exact L.resume hs.table hr
    · intro hgone
      refine L.lost hs.table fun r hr hid => hgone fun last' h => ?_
      obtain rfl := Option.some.inj (hlast.symm.trans h)
      exact ⟨r, hr, hid⟩

/-- What a turn does. -/
theorem Listing.turn_cases (L : Listing change rows id rank size cursor fetch I)
    (hs : s.Sound change rows id rank cursor I) (h : s.turn change fetch turn = some t) :
    (∃ a table, turn = .change a ∧ change s.table a = some table ∧ t = { s with table }) ∨
    (turn = .fetch ∧ s.next.isSome = true ∧
      ((s.Marked rows id ∧ ∃ page, page = firstPage size (cursor ∘ id) rank
          (ahead rank s.read (rows s.table)) ∧
          t = { s with read := s.read ++ page.items, next := page.next.map some }) ∨
        ¬ s.Marked rows id ∧ t = { s with next := none })) := by
  cases turn with
  | change a =>
    obtain ⟨table, htable, rfl⟩ := Option.map_eq_some_iff.mp h
    exact .inl ⟨a, table, rfl, htable, rfl⟩
  | fetch =>
    obtain ⟨c, hc, h⟩ := Option.bind_eq_some_iff.mp h
    refine .inr ⟨rfl, by rw [hc]; rfl, ?_⟩
    by_cases hmarked : s.Marked rows id
    · rw [(L.fetched hs hc).1 hmarked] at h
      exact .inl ⟨hmarked, _, rfl, (Option.some.inj h).symm⟩
    · rw [(L.fetched hs hc).2 hmarked] at h
      refine .inr ⟨hmarked, ?_⟩
      rw [← Option.some.inj h]
      simp

theorem ranked_ahead {read rows : List ρ} (h : Ranked rank rows) :
    Ranked rank (ahead rank read rows) := h.filter _

theorem Listing.sound_turn (L : Listing change rows id rank size cursor fetch I)
    (hs : s.Sound change rows id rank cursor I) (h : s.turn change fetch turn = some t) :
    t.Sound change rows id rank cursor I := by
  obtain ⟨a, table, rfl, htable, rfl⟩ | ⟨rfl, -, ⟨-, page, hpage, rfl⟩ | ⟨-, rfl⟩⟩ :=
    L.turn_cases hs h
  · refine ⟨L.kept hs.table htable, fun r hr => ?_, hs.ascending, hs.next⟩
    obtain ⟨s₀, h₀, hreach, hmem⟩ := hs.came r hr
    exact ⟨s₀, h₀, hreach.tail htable, hmem⟩
  · have hmem : ∀ r ∈ page.items, r ∈ ahead rank s.read (rows s.table) := fun r hr =>
      mem_of_mem_firstPage (hpage ▸ hr)
    refine ⟨hs.table, fun r hr => ?_, ?_, fun c hc => ?_⟩
    · rcases List.mem_append.mp hr with hread | hitem
      · exact hs.came r hread
      · exact ⟨s.table, hs.table, .refl _, (mem_ahead.mp (hmem r hitem)).1⟩
    · refine List.pairwise_append.mpr ⟨hs.ascending, ?_, fun a ha b hb => ?_⟩
      · rw [hpage]
        exact ascending_firstPage (ranked_ahead (L.ranked hs.table))
      · -- the last row read ranks at least as high as all of them
        obtain ⟨pre, last, hsplit⟩ := List.eq_nil_or_concat s.read |>.resolve_left
          (List.ne_nil_of_mem ha)
        have hlast : s.read.getLast? = some last := by rw [hsplit]; simp
        have hbehind := (mem_ahead.mp (hmem b hb)).2 last hlast
        rw [hsplit, List.concat_eq_append, List.mem_append, List.mem_singleton] at ha
        rcases ha with ha | rfl
        · have hascending := hs.ascending
          rw [hsplit, List.concat_eq_append, List.pairwise_append] at hascending
          exact (hascending.2.2 a ha last (List.mem_singleton_self _)).trans hbehind
        · exact hbehind
    · obtain ⟨k, hk, rfl⟩ := Option.map_eq_some_iff.mp hc
      rw [hpage] at hk
      obtain ⟨last, hlast, rfl⟩ := next_firstPage hk
      rw [← hpage] at hlast
      rw [List.getLast?_append, hlast]
      rfl
  · exact ⟨hs.table, hs.came, hs.ascending, fun c hc => by cases hc⟩

theorem Reading.sound_start (hI : I table) :
    (Reading.start table : Reading σ ρ κ).Sound change rows id rank cursor I where
  table := hI
  came r hr := by cases hr
  ascending := .nil
  next c hc := (Option.some.inj hc).symm

/-- The row with the id was read, or is still to come. -/
def Reading.Reaches (rows : σ → List ρ) (id : ρ → ι) (rank : ρ → μ) (i : ι) (s : Reading σ ρ κ) :
    Prop :=
  (∃ r ∈ s.read, id r = i) ∨
    s.next.isSome = true ∧ ∃ r ∈ ahead rank s.read (rows s.table), id r = i

theorem Listing.reaches_turn (L : Listing change rows id rank size cursor fetch I)
    (hs : s.Sound change rows id rank cursor I) {i : ι} (hi : s.Reaches rows id rank i)
    (hmarked : turn = .fetch → s.Marked rows id) (h : s.turn change fetch turn = some t)
    (hthere : ∃ r ∈ rows t.table, id r = i) : t.Reaches rows id rank i := by
  obtain ⟨a, table, rfl, htable, rfl⟩ | ⟨rfl, -, ⟨-, page, hpage, rfl⟩ | ⟨hgone, -⟩⟩ :=
    L.turn_cases hs h
  · refine hi.imp_right fun ⟨hnext, r, hr, hid⟩ => ⟨hnext, ?_⟩
    obtain ⟨r', hr', hid'⟩ := hthere
    obtain ⟨hmem, hbehind⟩ := mem_ahead.mp hr
    have hrank := L.same hs.table (Reachable.tail (.refl _) htable) hmem hr' (hid'.trans hid.symm)
    exact ⟨r', mem_ahead.mpr ⟨hr', fun last hlast => hrank ▸ hbehind last hlast⟩, hid'⟩
  · rcases hi with ⟨r, hr, hid⟩ | ⟨-, r, hr, hid⟩
    · exact .inl ⟨r, List.mem_append_left _ hr, hid⟩
    · rcases mem_or_behind (cursor ∘ id) L.size_pos (ranked_ahead (L.ranked hs.table)) hr with
        hitem | ⟨hnext, hbehind⟩
      · exact .inl ⟨r, List.mem_append_right _ (hpage ▸ hitem), hid⟩
      · rw [← hpage] at hnext hbehind
        refine .inr ⟨by rw [Option.isSome_map]; exact hnext, r, mem_ahead.mpr
          ⟨(mem_ahead.mp hr).1, fun last hlast => ?_⟩, hid⟩
        rw [List.getLast?_append, Option.mem_def, Option.or_eq_some_iff] at hlast
        rcases hlast with hlast | ⟨-, hlast⟩
        · exact hbehind last hlast
        · exact (mem_ahead.mp hr).2 last hlast
  · exact absurd (hmarked rfl) hgone

theorem Listing.sound_exec (L : Listing change rows id rank size cursor fetch I)
    (hs : s.Sound change rows id rank cursor I)
    (h : exec (Reading.turn change fetch) s turns = some t) :
    t.Sound change rows id rank cursor I :=
  Reachable.invariant ⟨turns, h⟩ hs fun _ _ _ hs h => L.sound_turn hs h

theorem Listing.reaches_exec (L : Listing change rows id rank size cursor fetch I)
    (hs : s.Sound change rows id rank cursor I) {i : ι} (hi : s.Reaches rows id rank i)
    (hmarked : Each (Reading.turn change fetch) (fun s turn => turn = .fetch → s.Marked rows id)
      s turns)
    (hthere : Always (Reading.turn change fetch) (fun s => ∃ r ∈ rows s.table, id r = i) s turns)
    (h : exec (Reading.turn change fetch) s turns = some t) : t.Reaches rows id rank i := by
  induction turns generalizing s with
  | nil => exact Option.some.inj h ▸ hi
  | cons turn turns ih =>
    obtain ⟨u, hu, hrest⟩ := Option.bind_eq_some_iff.mp h
    obtain ⟨hmark, hmarked⟩ := hmarked u hu
    have hthere := hthere.2 u hu
    exact ih (L.sound_turn hs hu) (L.reaches_turn hs hi hmark hu hthere.head) hmarked hthere hrest

/-- A reading that is done reads nothing more. -/
theorem Reading.exec_done (hs : s.next = none)
    (h : exec (Reading.turn change fetch) s turns = some t) : t.read = s.read ∧ t.next = none := by
  induction turns generalizing s with
  | nil => exact Option.some.inj h ▸ ⟨rfl, hs⟩
  | cons turn turns ih =>
    obtain ⟨u, hu, hrest⟩ := Option.bind_eq_some_iff.mp h
    cases turn with
    | change a =>
      obtain ⟨table, -, rfl⟩ := Option.map_eq_some_iff.mp hu
      exact ih (s := { s with table }) hs hrest
    | fetch =>
      obtain ⟨c, hc, -⟩ := Option.bind_eq_some_iff.mp hu
      rw [hs] at hc
      cases hc

/-- No row is read twice, and the rows come in their order. A row that is there all the while is
read, if at each page the last row read before it still is. If that one is gone, the reading ends
there. -/
structure ReadsThrough (change : σ → α → Option σ) (rows : σ → List ρ) (id : ρ → ι)
    (before : ρ → ρ → Prop) (fetch : σ → Option κ → Except ε (Page ρ κ)) (table : σ)
    (turns : List (Turn α)) (t : Reading σ ρ κ) : Prop where
  ordered : t.read.Pairwise before
  complete : t.next = none →
    Each (Reading.turn change fetch) (fun s turn => turn = .fetch → s.Marked rows id)
      (.start table) turns →
    ∀ i, Always (Reading.turn change fetch) (fun s => ∃ r ∈ rows s.table, id r = i)
      (.start table) turns → ∃ r ∈ t.read, id r = i
  ends : ∀ pre suf u, turns = pre ++ .fetch :: suf →
    exec (Reading.turn change fetch) (.start table) pre = some u → ¬ u.Marked rows id →
    t.read = u.read ∧ t.next = none

theorem Listing.reads (L : Listing change rows id rank size cursor fetch I) (hI : I table)
    (h : exec (Reading.turn change fetch) (.start table) turns = some t) :
    ReadsThrough change rows id (fun a b => rank a < rank b) fetch table turns t := by
  have hstart : (Reading.start table).Sound change rows id rank cursor I :=
    Reading.sound_start hI
  refine ⟨(L.sound_exec hstart h).ascending, fun hdone hmarked i hthere => ?_, ?_⟩
  · have hi : (Reading.start (ρ := ρ) (κ := κ) table).Reaches rows id rank i := by
      obtain ⟨r, hr, hid⟩ := hthere.head
      exact .inr ⟨rfl, r, mem_ahead.mpr ⟨hr, fun last hlast => by cases hlast⟩, hid⟩
    rcases L.reaches_exec hstart hi hmarked hthere h with hread | ⟨hnext, -⟩
    · exact hread
    · rw [hdone] at hnext
      cases hnext
  · rintro pre suf u rfl hpre hgone
    rw [exec_append, hpre, Option.bind_some] at h
    obtain ⟨v, hv, hrest⟩ := Option.bind_eq_some_iff.mp h
    obtain ⟨a, _, hturn, -⟩ | ⟨-, -, ⟨hmarked, -⟩ | ⟨-, rfl⟩⟩ :=
      L.turn_cases (L.sound_exec hstart hpre) hv
    · cases hturn
    · exact absurd hmarked hgone
    · exact Reading.exec_done (s := { u with next := none }) rfl hrest

end Readings

end Paging
