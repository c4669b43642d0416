import Mathlib.Data.List.Pairwise
import Mathlib.Data.List.Sort
import Mathlib.Data.Prod.Lex
import Nyuka.Foundation.Results

/-! Keyset pagination. Rows come in a declared order, a page at a time; the cursor of a page
names its last row, and the next page starts behind it. -/
namespace Paging

variable {ρ κ ε : Type*}

structure Page (ρ κ : Type*) where
  items : List ρ
  next : Option κ

/-- The page of fetched rows. One row more than the page is fetched, to tell that there is
more. -/
def pageOf (size : ℕ) (cursor : ρ → κ) (rows : List ρ) : Page ρ κ where
  items := rows.take size
  next := if size < rows.length then (rows.take size).getLast?.map cursor else none

theorem pageOf_map {τ : Type*} (size : ℕ) (cursor : ρ → κ) (f : τ → ρ) (rows : List τ) :
    pageOf size cursor (rows.map f) = ⟨(pageOf size (cursor ∘ f) rows).items.map f,
      (pageOf size (cursor ∘ f) rows).next⟩ := by
  simp [pageOf, ← List.map_take]

/-- Following the cursors of `fetch` from one on gives these pages, and then there are no
more. -/
inductive Walk (fetch : Option κ → Except ε (Page ρ κ)) : Option κ → List (List ρ) → Prop
  | last {cursor : Option κ} {page : Page ρ κ} : fetch cursor = .ok page → page.next = none →
      Walk fetch cursor [page.items]
  | more {cursor : Option κ} {page : Page ρ κ} {k : κ} {pages : List (List ρ)} :
      fetch cursor = .ok page → page.next = some k → Walk fetch (some k) pages →
      Walk fetch cursor (page.items :: pages)

theorem Walk.unique {fetch : Option κ → Except ε (Page ρ κ)} {cursor : Option κ}
    {pages pages' : List (List ρ)} (h : Walk fetch cursor pages) (h' : Walk fetch cursor pages') :
    pages = pages' := by
  induction h generalizing pages' with
  | last hfetch hnext =>
    cases h' with
    | last hfetch' hnext' => rw [Except.ok.inj (hfetch.symm.trans hfetch')]
    | more hfetch' hnext' _ =>
      rw [← Except.ok.inj (hfetch.symm.trans hfetch'), hnext] at hnext'
      cases hnext'
  | more hfetch hnext _ ih =>
    cases h' with
    | last hfetch' hnext' =>
      rw [← Except.ok.inj (hfetch.symm.trans hfetch'), hnext] at hnext'
      cases hnext'
    | more hfetch' hnext' hrest =>
      obtain rfl := Except.ok.inj (hfetch.symm.trans hfetch')
      obtain rfl := Option.some.inj (hnext.symm.trans hnext')
      rw [ih hrest]

/-- A walk begins with a page that was fetched. -/
theorem Walk.fetched {fetch : Option κ → Except ε (Page ρ κ)} {cursor : Option κ}
    {pages : List (List ρ)} (h : Walk fetch cursor pages) : ∃ page, fetch cursor = .ok page := by
  cases h with
  | last hfetch _ => exact ⟨_, hfetch⟩
  | more hfetch _ _ => exact ⟨_, hfetch⟩

/-- What holds of every row that is fetched behind a cursor holds of the pages behind it. -/
theorem Walk.forall_mem {fetch : Option κ → Except ε (Page ρ κ)} {P : ρ → Prop}
    (hfetch : ∀ k page, fetch (some k) = .ok page → ∀ r ∈ page.items, P r) {k : κ}
    {pages : List (List ρ)} (h : Walk fetch (some k) pages) : ∀ r ∈ pages.flatten, P r := by
  generalize hc : some k = cursor at h
  induction h generalizing k with
  | last hpage hnext =>
    subst hc
    simpa using hfetch k _ hpage
  | more hpage hnext _ ih =>
    subst hc
    intro r hr
    rw [List.flatten_cons, List.mem_append] at hr
    exact hr.elim (hfetch k _ hpage r) (ih rfl r)

/-- Two fetches that turn the same pages of rows into different views of them walk alike. -/
theorem Walk.map {τ : Type*} {fetch : Option κ → Except ε (Page ρ κ)}
    {fetch' : Option κ → Except ε (Page τ κ)} {f : τ → ρ}
    (hfetch : ∀ c, fetch c = (fetch' c).map fun page => ⟨page.items.map f, page.next⟩)
    {cursor : Option κ} {pages : List (List ρ)} (h : Walk fetch cursor pages) :
    ∃ pages', Walk fetch' cursor pages' ∧ pages'.map (List.map f) = pages := by
  induction h with
  | @last cursor page hpage hnext =>
    rw [hfetch, Results.map_eq_ok] at hpage
    obtain ⟨view, hview, rfl⟩ := hpage
    exact ⟨[view.items], .last hview hnext, rfl⟩
  | @more cursor page k rest hpage hnext _ ih =>
    obtain ⟨pages', hwalk, hmap⟩ := ih
    rw [hfetch, Results.map_eq_ok] at hpage
    obtain ⟨view, hview, rfl⟩ := hpage
    exact ⟨view.items :: pages', .more hview hnext hwalk, by simp [hmap]⟩

/-- The rows in full pages, the last one as long as it is. No rows make one empty page. -/
def chunks (size : ℕ) (rows : List ρ) : List (List ρ) :=
  if _ : 0 < size ∧ size < rows.length then rows.take size :: chunks size (rows.drop size)
  else [rows]
termination_by rows.length
decreasing_by simp only [List.length_drop]; omega

section Chunks
variable {size : ℕ} {rows : List ρ}

theorem chunks_of_le (h : rows.length ≤ size) : chunks size rows = [rows] := by
  rw [chunks, dif_neg (by omega)]

theorem chunks_of_lt (hsize : 0 < size) (h : size < rows.length) :
    chunks size rows = rows.take size :: chunks size (rows.drop size) := by
  rw [chunks, dif_pos ⟨hsize, h⟩]

@[simp] theorem flatten_chunks (size : ℕ) (rows : List ρ) : (chunks size rows).flatten = rows := by
  induction rows using chunks.induct size with
  | case1 rows h ih => rw [chunks_of_lt h.1 h.2, List.flatten_cons, ih, List.take_append_drop]
  | case2 rows h => rw [chunks, dif_neg h]; simp

/-- No page is longer than the page size, and none is empty unless there are no rows. -/
theorem length_of_mem_chunks (hsize : 0 < size) {page : List ρ} (hpage : page ∈ chunks size rows) :
    page.length ≤ size ∧ (rows ≠ [] → page ≠ []) := by
  induction rows using chunks.induct size with
  | case1 rows h ih =>
    rw [chunks_of_lt h.1 h.2, List.mem_cons] at hpage
    rcases hpage with rfl | hpage
    · refine ⟨List.length_take_le _ _, fun hne htake => ?_⟩
      rw [List.take_eq_nil_iff] at htake
      rcases htake with rfl | hnil
      · exact absurd hsize (by decide)
      · exact hne hnil
    · obtain ⟨hlen, hne⟩ := ih hpage
      refine ⟨hlen, fun _ => hne fun hnil => ?_⟩
      have := congrArg List.length hnil
      simp only [List.length_drop, List.length_nil] at this
      omega
  | case2 rows h =>
    rw [chunks, dif_neg h, List.mem_singleton] at hpage
    subst hpage
    exact ⟨by omega, id⟩

variable {cursor : ρ → κ} {fetch : Option κ → Except ε (Page ρ κ)}

/-- Rows that fit on a page are that page. -/
theorem walk_short {c : Option κ} (h : rows.length ≤ size)
    (hfirst : fetch c = .ok (pageOf size cursor (rows.take (size + 1)))) : Walk fetch c [rows] := by
  have hitems : (pageOf size cursor rows).items = rows := List.take_of_length_le h
  have hnext : (pageOf size cursor rows).next = none := by
    simp only [pageOf, if_neg (show ¬ size < rows.length by omega)]
  rw [List.take_of_length_le (by omega)] at hfirst
  have hwalk := Walk.last hfirst hnext
  rwa [hitems] at hwalk

/-- A fetch that resumes behind the row its cursor names pages through all the rows. `c` is any
cursor that `rows` are behind. -/
theorem walk_chunks (hsize : 0 < size) {c : Option κ}
    (hfirst : fetch c = .ok (pageOf size cursor (rows.take (size + 1))))
    (hresume : ∀ pre r suf, rows = pre ++ r :: suf →
      fetch (some (cursor r)) = .ok (pageOf size cursor (suf.take (size + 1)))) :
    Walk fetch c (chunks size rows) := by
  induction rows using chunks.induct size generalizing c with
  | case1 rows h ih =>
    have hitems : (pageOf size cursor (rows.take (size + 1))).items = rows.take size := by
      simp [pageOf, List.take_take]
    obtain ⟨r, hr⟩ : ∃ r, (rows.take size).getLast? = some r := by
      cases hlast : (rows.take size).getLast? with
      | some r => exact ⟨r, rfl⟩
      | none =>
        have := congrArg List.length (List.getLast?_eq_none_iff.mp hlast)
        simp only [List.length_take, List.length_nil] at this
        omega
    have hnext : (pageOf size cursor (rows.take (size + 1))).next = some (cursor r) := by
      have hlong : size < (rows.take (size + 1)).length := by
        rw [List.length_take]
        omega
      simp only [pageOf, if_pos hlong, List.take_take, Nat.min_eq_left (Nat.le_succ size), hr,
        Option.map_some]
    -- the rows up to the page's last one, and those behind it
    obtain ⟨pre, hpre⟩ := List.getLast?_eq_some_iff.mp hr
    have hsplit : rows = pre ++ r :: rows.drop size := by
      conv_lhs => rw [← List.take_append_drop size rows, hpre]
      simp
    rw [chunks_of_lt h.1 h.2, ← hitems]
    refine .more hfirst hnext (ih (hresume pre r _ hsplit) fun pre' r' suf' hrest => ?_)
    refine hresume (pre ++ r :: pre') r' suf' ?_
    rw [hsplit, hrest]
    simp
  | case2 rows h =>
    have hle : rows.length ≤ size := by omega
    rw [chunks_of_le hle]
    exact walk_short hle hfirst

end Chunks

/-! Rows in the order of their ranks. -/
section Ordered
variable {μ : Type*} [LinearOrder μ] {rank : ρ → μ}

def orderBy (rank : ρ → μ) (rows : List ρ) : List ρ :=
  rows.insertionSort fun a b => rank a ≤ rank b

/-- Different rows have different ranks. -/
def Ranked (rank : ρ → μ) (rows : List ρ) : Prop := rows.Pairwise fun a b => rank a ≠ rank b

theorem orderBy_perm (rank : ρ → μ) (rows : List ρ) : (orderBy rank rows).Perm rows :=
  List.perm_insertionSort _ rows

@[simp] theorem mem_orderBy {rows : List ρ} {r : ρ} : r ∈ orderBy rank rows ↔ r ∈ rows :=
  (orderBy_perm rank rows).mem_iff

theorem pairwise_orderBy (rank : ρ → μ) (rows : List ρ) :
    (orderBy rank rows).Pairwise fun a b => rank a ≤ rank b := by
  have htotal : Std.Total fun a b : ρ => rank a ≤ rank b := ⟨fun a b => le_total _ _⟩
  have htrans : IsTrans ρ fun a b => rank a ≤ rank b := ⟨fun _ _ _ => le_trans⟩
  exact List.pairwise_insertionSort _ rows

theorem Ranked.strict {rows : List ρ} (h : Ranked rank rows) :
    (orderBy rank rows).Pairwise fun a b => rank a < rank b := by
  have hne : Ranked rank (orderBy rank rows) :=
    ((orderBy_perm rank rows).pairwise_iff (R := fun a b => rank a ≠ rank b) fun h => h.symm).mpr h
  exact (pairwise_orderBy rank rows).imp₂ (fun _ _ hle hne => lt_of_le_of_ne hle hne) hne

/-- Ordering what a condition leaves is leaving out of what is ordered. -/
theorem orderBy_filter {rows : List ρ} (h : Ranked rank rows) (p : ρ → Bool) :
    orderBy rank (rows.filter p) = (orderBy rank rows).filter p := by
  refine List.Perm.eq_of_pairwise (fun a b ha hb hab hba => ?_) (pairwise_orderBy rank _)
    ((pairwise_orderBy rank rows).filter p)
    ((orderBy_perm rank _).trans ((orderBy_perm rank rows).symm.filter p))
  by_contra hne
  have hab' := le_antisymm hab hba
  have ha' : a ∈ rows := (List.mem_filter.mp (mem_orderBy.mp ha)).1
  have hb' : b ∈ rows := mem_orderBy.mp (List.mem_filter.mp hb).1
  have hsymm : Std.Symm fun a b : ρ => rank a ≠ rank b := ⟨fun _ _ h => h.symm⟩
  exact h.forall ha' hb' hne hab'

/-- What ranks behind a row is what stands behind it. -/
theorem filter_behind {rows pre suf : List ρ} {r : ρ} (h : Ranked rank rows)
    (hsplit : orderBy rank rows = pre ++ r :: suf) :
    orderBy rank (rows.filter fun r' => rank r < rank r') = suf := by
  have hstrict := h.strict
  rw [hsplit, List.pairwise_append, List.pairwise_cons] at hstrict
  obtain ⟨-, ⟨hsuf, -⟩, hpre⟩ := hstrict
  rw [orderBy_filter h, hsplit, List.filter_append, List.filter_cons_of_neg (by simp)]
  have hnone : pre.filter (fun r' => decide (rank r < rank r')) = [] := by
    refine List.filter_eq_nil_iff.mpr fun a ha => ?_
    simpa using (hpre a ha r (by simp)).le
  have hall : suf.filter (fun r' => decide (rank r < rank r')) = suf :=
    List.filter_eq_self.mpr fun a ha => by simpa using hsuf a ha
  rw [hnone, hall, List.nil_append]

/-- Following the cursors of `fetch` from the start gives each of the rows once, each page's rows
and pages after one another in the order declared. No page is longer than the page size, and no
rows are the only empty page. -/
def Complete (size : ℕ) (fetch : Option κ → Except ε (Page ρ κ)) (rows : List ρ)
    (before : ρ → ρ → Prop) : Prop :=
  ∃ pages, Walk fetch none pages ∧ pages.flatten.Perm rows ∧ pages.flatten.Pairwise before ∧
    (∀ page ∈ pages, page.length ≤ size) ∧ ∀ page ∈ pages, page = [] → pages = [[]]

/-- A fetch that resumes with the rows that rank behind the cursor's pages through the rows in
their order. -/
theorem complete_ranked (rank : ρ → μ) {size : ℕ} {rows : List ρ} {cursor : ρ → κ}
    {fetch : Option κ → Except ε (Page ρ κ)} (hsize : 0 < size) (h : Ranked rank rows)
    (hfirst : fetch none = .ok (pageOf size cursor ((orderBy rank rows).take (size + 1))))
    (hresume : ∀ r ∈ rows, fetch (some (cursor r)) = .ok (pageOf size cursor
      ((orderBy rank (rows.filter fun r' => rank r < rank r')).take (size + 1)))) :
    Complete size fetch rows fun a b => rank a < rank b := by
  refine ⟨chunks size (orderBy rank rows), ?_, ?_, ?_, fun page hpage => ?_,
    fun page hpage hnil => ?_⟩
  · refine walk_chunks hsize hfirst fun pre r suf hsplit => ?_
    have hr : r ∈ orderBy rank rows := by simp [hsplit]
    rw [hresume r (mem_orderBy.mp hr), filter_behind h hsplit]
  · rw [flatten_chunks]
    exact orderBy_perm rank rows
  · rw [flatten_chunks]
    exact h.strict
  · exact (length_of_mem_chunks hsize hpage).1
  · have hrows : orderBy rank rows = [] := by
      by_contra hne
      exact (length_of_mem_chunks hsize hpage).2 hne hnil
    rw [hrows]
    exact chunks_of_le (Nat.zero_le _)

end Ordered

/-! Comparing rows of two columns that may be NULL. -/
section Keyset
variable {α β : Type*} [LinearOrder α] [LinearOrder β]

/-- `(a, b) < (a', b')`, from left to right up to a pair that is not equal or not known. -/
def rowLt : Option α × Option β → Option α × Option β → Option Bool
  | (some a, b), (some a', b') =>
    if a = a' then b.bind fun b => b'.map fun b' => decide (b < b')
    else some (decide (a < a'))
  | _, _ => none

@[simp] theorem rowLt_some (a a' : α) (b b' : β) :
    rowLt (some a, some b) (some a', some b') = some (decide (toLex (a, b) < toLex (a', b'))) := by
  by_cases h : a = a'
  · simp [rowLt, h, Prod.Lex.toLex_lt_toLex]
  · simp [rowLt, h, Prod.Lex.toLex_lt_toLex]

@[simp] theorem rowLt_null (b : Option β) (row : Option α × Option β) :
    rowLt (none, b) row = none := rfl

end Keyset

end Paging
