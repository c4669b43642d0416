import Mathlib.Data.List.Find
import Nyuka.Foundation.UnicodePatterns

/-! What `pattern_to_chrono` makes of the date patterns of a source. -/
namespace Nyuka
namespace Runtime
open UnicodePatterns

/-- Unicode date field symbols mapped to chrono specifiers, the longest of a letter first. -/
def symbols : List (String × String) :=
  [("yyyy", "%Y"), ("yyy", "%Y"), ("yy", "%y"), ("y", "%Y"),
    ("MMMM", "%B"), ("MMM", "%b"), ("MM", "%m"), ("M", "%-m"),
    ("dd", "%d"), ("d", "%-d"),
    ("HH", "%H"), ("H", "%-H"), ("hh", "%I"), ("h", "%-I"),
    ("mm", "%M"), ("m", "%-M"), ("ss", "%S"), ("s", "%-S"),
    ("EEEE", "%A"), ("EEE", "%a"), ("EE", "%a"), ("E", "%a"),
    ("a", "%p"), ("ZZZZ", "%z"), ("Z", "%z")]

def pushLiteral (s : List Char) : List Char :=
  s.flatMap fun c => if c = '%' then ['%', '%'] else [c]

/-- One turn of the loop: what is put out, and the rest of the pattern. -/
def turn (rest : List Char) : Option (List Char × List Char) :=
  match rest with
  | [] => none
  | c :: after =>
    if c = apostrophe then
      if after.head? = some apostrophe then some ([apostrophe], after.tail)
      else if apostrophe ∈ after then
        some (pushLiteral (after.takeWhile (· ≠ apostrophe)),
          (after.dropWhile (· ≠ apostrophe)).tail)
      else none
    else
      match symbols.find? fun s => s.1.toList.isPrefixOf rest with
      | some s => some (s.2.toList, rest.drop s.1.toList.length)
      | none => if isLetter c then none else some (pushLiteral [c], after)

/-- The loop, of at most so many turns. -/
def translateFrom : ℕ → List Char → Option (List Char)
  | 0, rest => if rest = [] then some [] else none
  | n + 1, rest =>
    if rest = [] then some []
    else do
      let (out, rest) ← turn rest
      let outs ← translateFrom n rest
      some (out ++ outs)

/-- Every turn takes at least one character. -/
def patternToChrono (pattern : String) : Option String :=
  (translateFrom pattern.toList.length pattern.toList).map String.ofList

/-- The specifier of a field. -/
def specifier (letter : Char) (count : ℕ) : Option (List Char) :=
  (symbols.find? fun s => s.1.toList = List.replicate count letter).map fun s => s.2.toList

/-- The translation of a pattern item by item. -/
def render : List Item → Option (List Char)
  | [] => some []
  | .field letter count :: its => do
    let out ← specifier letter count
    let outs ← render its
    some (out ++ outs)
  | .literal c :: its => (render its).map fun outs => pushLiteral [c] ++ outs

/-- A translation is the one item by item, and a field that has no specifier is refused. -/
structure Faithful (pattern : String) : Prop where
  translated : ∀ out, patternToChrono pattern = some out →
    (items false false pattern.toList).bind render = some out.toList
  refused : ∀ its, items false false pattern.toList = some its →
    (∃ letter count, .field letter count ∈ its ∧ specifier letter count = none) →
      patternToChrono pattern = none

/-- The letters that some field has. -/
def HasSymbol (letter : Char) : Prop := ∃ s ∈ symbols, s.1.toList.head? = some letter

/-- Patterns whose fields are all in the table, where their letters are, and whose quoted texts have
an apostrophe at their ends only. -/
def Plain (pattern : String) : Prop :=
  ∀ its, items false false pattern.toList = some its →
    (∀ letter count, .field letter count ∈ its → HasSymbol letter) →
      (∀ letter count, .field letter count ∈ its → specifier letter count ≠ none) ∧
        goesOn false false false pattern.toList = false

section Turns
variable {rest rest' out : List Char}

theorem symbols_runs : ∀ s ∈ symbols,
    0 < s.1.toList.length ∧ s.1.toList = List.replicate s.1.toList.length (s.1.toList.headD ' ') ∧
      isLetter (s.1.toList.headD ' ') = true := by
  decide

theorem turn_lt (h : turn rest = some (out, rest')) : rest'.length < rest.length := by
  cases rest with
  | nil => cases h
  | cons c after =>
    simp only [turn] at h
    split at h
    · split at h
      · cases h
        simp only [List.length_tail, List.length_cons]
        omega
      · split at h
        · cases h
          have hdrop :=
            (List.dropWhile_suffix (fun d => decide (d ≠ apostrophe)) (l := after)).length_le
          simp only [List.length_tail, List.length_cons]
          omega
        · cases h
    · split at h
      · next s hfind =>
        cases h
        have hpos := (symbols_runs s (List.mem_of_find?_eq_some hfind)).1
        simp only [List.length_drop, List.length_cons]
        omega
      · split at h
        · cases h
        · cases h
          exact Nat.lt_succ_self _

theorem translateFrom_of_le {n : ℕ} (h : rest.length ≤ n) :
    translateFrom n rest = translateFrom rest.length rest := by
  induction n using Nat.strong_induction_on generalizing rest with
  | _ n ih =>
    cases n with
    | zero => rw [Nat.le_zero.mp h]
    | succ n =>
      cases hlength : rest.length with
      | zero =>
        obtain rfl := List.length_eq_zero_iff.mp hlength
        rfl
      | succ m =>
        have hne : rest ≠ [] := by
          rintro rfl
          cases hlength
        rw [translateFrom, translateFrom, if_neg hne, if_neg hne]
        cases hturn : turn rest with
        | none => rfl
        | some r =>
          have hlt := turn_lt hturn
          have hn := @ih n n.lt_succ_self r.2 (by omega)
          have hm := @ih m (by omega) r.2 (by omega)
          simp only [Option.bind_eq_bind, Option.bind_some, hn, hm]

/-- The translation of what is left. -/
def translate (rest : List Char) : Option (List Char) := translateFrom rest.length rest

theorem translate_eq (hne : rest ≠ []) : translate rest = (turn rest).bind fun r =>
    (translate r.2).map fun outs => r.1 ++ outs := by
  obtain ⟨c, after, rfl⟩ := List.exists_cons_of_ne_nil hne
  rw [translate, List.length_cons, translateFrom, if_neg hne]
  cases hturn : turn (c :: after) with
  | none => rfl
  | some r =>
    have hlt := turn_lt hturn
    have hle : r.2.length ≤ after.length := Nat.le_of_lt_succ hlt
    simp only [Option.bind_eq_bind, Option.bind_some, translateFrom_of_le hle]
    rw [translate]
    cases translateFrom r.2.length r.2 with
    | none => rfl
    | some outs => rfl

end Turns

section Pieces
variable {s t : List Char} {c : Char}

@[simp] theorem translate_escaped (s : List Char) : translate (apostrophe :: apostrophe :: s) =
    (translate s).map fun outs => apostrophe :: outs := by
  rw [translate_eq (by simp)]
  simp [turn]

private theorem span_apostrophe (ht : apostrophe ∉ t) (s : List Char) :
    (t ++ apostrophe :: s).takeWhile (· ≠ apostrophe) = t ∧
      (t ++ apostrophe :: s).dropWhile (· ≠ apostrophe) = apostrophe :: s := by
  have hall : ∀ d ∈ t, decide (d ≠ apostrophe) = true :=
    fun d hd => decide_eq_true fun heq => ht (heq ▸ hd)
  rw [List.takeWhile_append_of_pos hall, List.dropWhile_append_of_pos hall]
  simp

theorem translate_quoted (hne : t ≠ []) (ht : apostrophe ∉ t) (s : List Char) :
    translate (apostrophe :: (t ++ apostrophe :: s)) =
      (translate s).map fun outs => pushLiteral t ++ outs := by
  obtain ⟨htake, hdrop⟩ := span_apostrophe ht s
  have hhead : (t ++ apostrophe :: s).head? ≠ some apostrophe := by
    obtain ⟨d, t, rfl⟩ := List.exists_cons_of_ne_nil hne
    rintro heq
    exact ht (Option.some.inj heq ▸ List.mem_cons_self)
  have hturn : turn (apostrophe :: (t ++ apostrophe :: s)) = some (pushLiteral t, s) := by
    simp only [turn, if_true, if_neg hhead, htake, hdrop, List.tail_cons]
    rw [if_pos (by simp)]
  rw [translate_eq (by simp), hturn, Option.bind_some]

theorem translate_opened (ht : apostrophe ∉ t) : translate (apostrophe :: t) = none := by
  have hhead : t.head? ≠ some apostrophe := fun heq => ht (List.mem_of_mem_head? heq)
  rw [translate_eq (by simp)]
  simp [turn, hhead, ht]

/-- Every symbol is a run of one letter, and the letter alone is one, too. -/
theorem symbol_run {sym : String × String} (h : sym ∈ symbols) :
    ∃ d k, sym.1.toList = List.replicate (k + 1) d ∧ isLetter d = true := by
  obtain ⟨hpos, hrun, hletter⟩ := symbols_runs sym h
  obtain ⟨k, hk⟩ := Nat.exists_eq_succ_of_ne_zero (Nat.pos_iff_ne_zero.mp hpos)
  rw [hk] at hrun
  exact ⟨_, k, hrun, hletter⟩

theorem symbols_single : ∀ s ∈ symbols, ∃ t ∈ symbols, t.1.toList = [s.1.toList.headD ' '] := by
  decide

/-- The longest symbol comes first. -/
theorem symbols_longest : ∀ s ∈ symbols,
    symbols.find? (fun t => t.1.toList.isPrefixOf s.1.toList) = some s := by
  decide

theorem initial_run {k n : ℕ} {d : Char} (hs : s.head? ≠ some c)
    (h : List.replicate (k + 1) d <+: List.replicate n c ++ s) (hn : 0 < n) :
    d = c ∧ k + 1 ≤ n := by
  obtain ⟨n, rfl⟩ := Nat.exists_eq_succ_of_ne_zero (Nat.pos_iff_ne_zero.mp hn)
  have hd : d = c := by
    rw [List.replicate_succ, List.replicate_succ, List.cons_append, List.cons_prefix_cons] at h
    exact h.1
  subst hd
  refine ⟨rfl, ?_⟩
  by_contra hlt
  obtain ⟨j, hj⟩ : ∃ j, k + 1 = n + 1 + (j + 1) := ⟨k - n - 1, by omega⟩
  rw [hj, List.replicate_add, List.prefix_append_right_inj] at h
  obtain ⟨rest, rfl⟩ := h
  exact hs rfl

theorem turn_of_find {sym : String × String} {after : List Char} (hc : c ≠ apostrophe)
    (h : symbols.find? (fun s => s.1.toList.isPrefixOf (c :: after)) = some sym) :
    turn (c :: after) = some (sym.2.toList, (c :: after).drop sym.1.toList.length) := by
  simp only [turn, if_neg hc, h]

theorem turn_of_find_none {after : List Char} (hc : c ≠ apostrophe)
    (h : symbols.find? (fun s => s.1.toList.isPrefixOf (c :: after)) = none) :
    turn (c :: after) = if isLetter c then none else some (pushLiteral [c], after) := by
  simp only [turn, if_neg hc, h]

/-- Only symbols of the letter a text begins with are found. -/
theorem known_of_find {sym : String × String} {after : List Char}
    (h : symbols.find? (fun s => s.1.toList.isPrefixOf (c :: after)) = some sym) :
    isLetter c = true ∧ HasSymbol c := by
  have hmem := List.mem_of_find?_eq_some h
  have hinitial : sym.1.toList <+: c :: after := by simpa using List.find?_some h
  obtain ⟨d, k, hrun, hletter⟩ := symbol_run hmem
  rw [hrun, List.replicate_succ, List.cons_prefix_cons] at hinitial
  obtain rfl := hinitial.1
  exact ⟨hletter, sym, hmem, by rw [hrun, List.replicate_succ, List.head?_cons]⟩

theorem translate_other (hletter : isLetter c = false) (hc : c ≠ apostrophe) (s : List Char) :
    translate (c :: s) = (translate s).map fun outs => pushLiteral [c] ++ outs := by
  have hnone : symbols.find? (fun t => t.1.toList.isPrefixOf (c :: s)) = none := by
    rw [Option.eq_none_iff_forall_ne_some]
    intro sym hsym
    rw [(known_of_find hsym).1] at hletter
    cases hletter
  rw [translate_eq (by simp), turn_of_find_none hc hnone, hletter]
  rfl

theorem known_letter (h : HasSymbol c) : isLetter c = true := by
  obtain ⟨sym, hmem, hhead⟩ := h
  obtain ⟨d, k, hrun, hletter⟩ := symbol_run hmem
  rw [hrun, List.replicate_succ, List.head?_cons] at hhead
  rwa [← Option.some.inj hhead]

theorem known_of_specifier {n : ℕ} (hn : 0 < n) (h : specifier c n ≠ none) : HasSymbol c := by
  obtain ⟨out, hout⟩ := Option.ne_none_iff_exists'.mp h
  obtain ⟨sym, hfind, -⟩ := Option.map_eq_some_iff.mp hout
  have hrun : sym.1.toList = List.replicate n c := by simpa using List.find?_some hfind
  obtain ⟨n, rfl⟩ := Nat.exists_eq_succ_of_ne_zero (Nat.pos_iff_ne_zero.mp hn)
  exact ⟨sym, List.mem_of_find?_eq_some hfind, by rw [hrun, List.replicate_succ, List.head?_cons]⟩

/-- A run that has a specifier is translated as a whole. -/
theorem translate_run {n : ℕ} {out : List Char} (hn : 0 < n)
    (hs : s.head? ≠ some c) (hspec : specifier c n = some out) :
    translate (List.replicate n c ++ s) = (translate s).map fun outs => out ++ outs := by
  have hknown := known_of_specifier hn (by rw [hspec]; simp)
  obtain ⟨sym, hfind, rfl⟩ := Option.map_eq_some_iff.mp hspec
  have hmem := List.mem_of_find?_eq_some hfind
  have hrun : sym.1.toList = List.replicate n c := by simpa using List.find?_some hfind
  have hsame : ∀ t ∈ symbols, t.1.toList.isPrefixOf (List.replicate n c ++ s) =
      t.1.toList.isPrefixOf sym.1.toList := by
    intro t ht
    obtain ⟨d, k, hd, -⟩ := symbol_run ht
    rw [Bool.eq_iff_iff, List.isPrefixOf_iff_prefix, List.isPrefixOf_iff_prefix, hd, hrun]
    constructor
    · intro h
      obtain ⟨rfl, hle⟩ := initial_run hs h hn
      exact ⟨List.replicate (n - (k + 1)) d, by rw [← List.replicate_add]; congr 1; omega⟩
    · exact fun h => h.trans (List.prefix_append _ _)
  have hlongest : symbols.find? (fun t => t.1.toList.isPrefixOf (List.replicate n c ++ s)) =
      some sym := by
    rw [← symbols_longest sym hmem]
    exact List.find?_congr hsame
  have hturn : turn (List.replicate n c ++ s) = some (sym.2.toList, s) := by
    obtain ⟨m, rfl⟩ := Nat.exists_eq_succ_of_ne_zero (Nat.pos_iff_ne_zero.mp hn)
    rw [List.replicate_succ, List.cons_append] at hlongest ⊢
    rw [turn_of_find (notApostrophe_of_letter (known_letter hknown)) hlongest, hrun,
      List.length_replicate, ← List.cons_append, ← List.replicate_succ, List.drop_left' (by simp)]
  rw [translate_eq (by simp; omega), hturn, Option.bind_some]

/-- A run of a known letter is translated somehow. -/
theorem translate_known {n : ℕ} (hc : HasSymbol c) (hs : s.head? ≠ some c) :
    (translate (List.replicate n c ++ s)).isSome = (translate s).isSome := by
  induction n using Nat.strong_induction_on with
  | _ n ih =>
    cases n with
    | zero => rfl
    | succ n =>
      obtain ⟨sym, hmem, hhead⟩ := hc
      obtain ⟨t, ht, hsingle⟩ := symbols_single sym hmem
      have hsome : (symbols.find? fun t => t.1.toList.isPrefixOf
          (c :: (List.replicate n c ++ s))).isSome := by
        refine List.find?_isSome.mpr ⟨t, ht, List.isPrefixOf_iff_prefix.mpr ?_⟩
        rw [hsingle, List.headD_eq_head?_getD, hhead]
        exact ⟨_, rfl⟩
      obtain ⟨found, hfound⟩ := Option.isSome_iff_exists.mp hsome
      obtain ⟨d, k, hrun, hletter⟩ := symbol_run (List.mem_of_find?_eq_some hfound)
      have hinitial : found.1.toList <+: List.replicate (n + 1) c ++ s := by
        simpa [List.replicate_succ] using List.find?_some hfound
      rw [hrun] at hinitial
      obtain ⟨rfl, hle⟩ := initial_run hs hinitial n.succ_pos
      have hrest : (d :: (List.replicate n d ++ s)).drop found.1.toList.length =
          List.replicate (n - k) d ++ s := by
        rw [hrun, List.length_replicate, List.drop_succ_cons,
          List.drop_append_of_le_length (by simp; omega), List.drop_replicate]
      rw [List.replicate_succ, List.cons_append, translate_eq (by simp),
        turn_of_find (notApostrophe_of_letter hletter) hfound, Option.bind_some,
        Option.isSome_map, hrest]
      exact ih (n - k) (by omega)

theorem translate_unknown {n : ℕ} (hletter : isLetter c = true) (hc : ¬ HasSymbol c) (hn : 0 < n)
    (s : List Char) : translate (List.replicate n c ++ s) = none := by
  obtain ⟨n, rfl⟩ := Nat.exists_eq_succ_of_ne_zero (Nat.pos_iff_ne_zero.mp hn)
  rw [List.replicate_succ, List.cons_append]
  have hnone : symbols.find? (fun t => t.1.toList.isPrefixOf (c :: (List.replicate n c ++ s))) =
      none := by
    rw [Option.eq_none_iff_forall_ne_some]
    exact fun sym hsym => hc (known_of_find hsym).2
  rw [translate_eq (by simp), turn_of_find_none (notApostrophe_of_letter hletter) hnone,
    if_pos hletter, Option.bind_none]

end Pieces

section Agreement

/-- How a translation and the items of what is left of a pattern go together, from outside of quotes
or from behind a quoted text on. -/
structure Agrees (closed : Bool) (rest : List Char) : Prop where
  accepted : (translate rest).isSome = true ↔ ∃ its, items closed closed rest = some its ∧
    ∀ letter count, .field letter count ∈ its → HasSymbol letter
  output : ∀ out its, translate rest = some out → items closed closed rest = some its →
    (∀ letter count, .field letter count ∈ its → specifier letter count ≠ none) →
      ∃ full, render its = some full ∧ out.length ≤ full.length ∧
        (goesOn closed closed false rest = false → full = out) ∧
        (goesOn closed closed false rest = true → out.length < full.length)

variable {s t : List Char} {c : Char} {closed : Bool}

@[simp] theorem render_literals (t : List Char) (its : List Item) :
    render (t.map .literal ++ its) = (render its).map fun outs => pushLiteral t ++ outs := by
  induction t with
  | nil => simp [pushLiteral]
  | cons c t ih =>
    rw [List.map_cons, List.cons_append, render, ih, Option.map_map]
    congr 1
    funext outs
    simp [pushLiteral]

theorem Agrees.nil : Agrees closed [] where
  accepted := by
    have hitems : items closed closed [] = some [] := by simp [items]
    rw [hitems]
    exact ⟨fun _ => ⟨[], rfl, fun _ _ h => absurd h List.not_mem_nil⟩, fun _ => rfl⟩
  output out its hout hits _ := by
    cases hout
    have hnil : its = [] := by simpa [items] using hits.symm
    exact ⟨[], by rw [hnil, render], Nat.le_refl _, fun _ => rfl, fun h => by cases h⟩

/-- What comes in front may lack some of what its items stand for, but not have other things. -/
theorem Agrees.extend {closed' : Bool} {rest front' back' : List Char} (h : Agrees closed' s)
    (lost : Bool) (front : List Item)
    (htranslate : translate rest = (translate s).map fun outs => front' ++ outs)
    (hitems : items closed closed rest = (items closed' closed' s).map fun its => front ++ its)
    (hfields : ∀ letter count, .field letter count ∈ front →
      HasSymbol letter ∧ specifier letter count ≠ none)
    (hrender : ∀ its, render (front ++ its) = (render its).map fun outs => back' ++ outs)
    (hgoesOn : goesOn closed closed false rest = (lost || goesOn closed' closed' false s))
    (hequal : lost = false → back' = front')
    (hless : lost = true → front'.length < back'.length) : Agrees closed rest where
  accepted := by
    rw [htranslate, hitems, Option.isSome_map, h.accepted]
    constructor
    · rintro ⟨its, heq, hknown⟩
      refine ⟨front ++ its, by rw [heq, Option.map_some], fun letter count hmem => ?_⟩
      exact (List.mem_append.mp hmem).elim (fun h => (hfields letter count h).1)
        (hknown letter count)
    · rintro ⟨its, heq, hknown⟩
      obtain ⟨its', heq', rfl⟩ := Option.map_eq_some_iff.mp heq
      exact ⟨its', heq', fun letter count hmem =>
        hknown letter count (List.mem_append_right front hmem)⟩
  output out its hout hits hspec := by
    rw [htranslate, Option.map_eq_some_iff] at hout
    rw [hitems, Option.map_eq_some_iff] at hits
    obtain ⟨outs, houts, rfl⟩ := hout
    obtain ⟨its', hits', rfl⟩ := hits
    obtain ⟨full, hfull, hle, hsame, hlost⟩ :=
      h.output outs its' houts hits' fun letter count hmem =>
        hspec letter count (List.mem_append_right front hmem)
    have hfront : front'.length ≤ back'.length := by
      cases lost with
      | false => rw [hequal rfl]
      | true => exact (hless rfl).le
    refine ⟨back' ++ full, by rw [hrender, hfull, Option.map_some], ?_, fun hno => ?_,
      fun hyes => ?_⟩
    · simp only [List.length_append]
      omega
    · rw [hgoesOn, Bool.or_eq_false_iff] at hno
      rw [hequal hno.1, hsame hno.2]
    · rw [hgoesOn, Bool.or_eq_true] at hyes
      simp only [List.length_append]
      rcases hyes with hyes | hyes
      · have := hless hyes
        omega
      · have := hlost hyes
        omega

theorem not_field_literals {t : List Char} {letter : Char} {count : ℕ}
    (h : .field letter count ∈ t.map Item.literal) : False := by
  obtain ⟨c, -, hc⟩ := List.mem_map.mp h
  cases hc

theorem Agrees.escaped (h : Agrees closed s) : Agrees closed (apostrophe :: apostrophe :: s) :=
  h.extend false [.literal apostrophe] (translate_escaped s) (items_escaped closed s)
    (fun _ _ hmem => (not_field_literals (t := [apostrophe]) hmem).elim)
    (render_literals [apostrophe]) (goesOn_escaped closed s) (fun _ => rfl) (fun h => by cases h)

theorem Agrees.quoted (hne : t ≠ []) (ht : apostrophe ∉ t) (h : Agrees true s) :
    Agrees closed (apostrophe :: (t ++ apostrophe :: s)) := by
  have hitems := items_quoted closed hne ht s
  -- Behind another quoted text the opening apostrophe stands for one in the text.
  cases closed with
  | false =>
    refine h.extend false (t.map .literal) (translate_quoted hne ht s) hitems
      (fun _ _ hmem => (not_field_literals hmem).elim) (render_literals t)
      (goesOn_quoted false hne ht s) (fun _ => rfl) (fun h => by cases h)
  | true =>
    refine h.extend true (.literal apostrophe :: t.map .literal) (translate_quoted hne ht s) hitems
      (fun _ _ hmem => (not_field_literals (t := apostrophe :: t) hmem).elim)
      (render_literals (apostrophe :: t)) (goesOn_quoted true hne ht s) (fun h => by cases h)
      fun _ => ?_
    simp [pushLiteral, apostrophe]

theorem Agrees.opened (ht : apostrophe ∉ t) : Agrees closed (apostrophe :: t) where
  accepted := by
    rw [translate_opened ht, items_opened closed ht]
    simp
  output out its hout := by
    rw [translate_opened ht] at hout
    cases hout

private theorem items_run_closed {n : ℕ} (closed : Bool) (hletter : isLetter c = true) (hn : 0 < n)
    (hs : s.head? ≠ some c) : items closed closed (List.replicate n c ++ s) =
      (items false false s).map fun its => .field c n :: its := by
  rw [← items_run hletter hn hs]
  obtain ⟨n, rfl⟩ := Nat.exists_eq_succ_of_ne_zero (Nat.pos_iff_ne_zero.mp hn)
  rw [List.replicate_succ, List.cons_append]
  exact items_closed closed (notApostrophe_of_letter hletter) _

theorem Agrees.run {n : ℕ} (hletter : isLetter c = true) (hn : 0 < n) (hs : s.head? ≠ some c)
    (h : Agrees false s) : Agrees closed (List.replicate n c ++ s) := by
  have hitems := items_run_closed closed hletter hn hs
  cases hspec : specifier c n with
  | some out =>
    have hknown := known_of_specifier hn (by rw [hspec]; simp)
    refine h.extend false [.field c n] (translate_run hn hs hspec) hitems
      (fun letter count hmem => ?_) (fun its => ?_) (goesOn_run closed hletter hn s) (fun _ => rfl)
      (fun h => by cases h)
    · obtain ⟨rfl, rfl⟩ := Item.field.inj (List.mem_singleton.mp hmem)
      exact ⟨hknown, by rw [hspec]; simp⟩
    · rw [List.singleton_append, render, hspec]
      cases render its with
      | none => rfl
      | some outs => rfl
  | none =>
    refine ⟨?_, fun out its hout hits hall => ?_⟩
    · rw [hitems]
      by_cases hknown : HasSymbol c
      · rw [translate_known hknown hs, h.accepted]
        constructor
        · rintro ⟨its, heq, hall⟩
          refine ⟨.field c n :: its, by rw [heq, Option.map_some], fun letter count hmem => ?_⟩
          rcases List.mem_cons.mp hmem with heq | hmem
          · rwa [(Item.field.inj heq).1]
          · exact hall letter count hmem
        · rintro ⟨its, heq, hall⟩
          obtain ⟨its', heq', rfl⟩ := Option.map_eq_some_iff.mp heq
          exact ⟨its', heq', fun letter count hmem =>
            hall letter count (List.mem_cons_of_mem _ hmem)⟩
      · rw [translate_unknown hletter hknown hn]
        refine ⟨fun h => absurd h (by decide), fun ⟨its, heq, hall⟩ => ?_⟩
        obtain ⟨its', -, rfl⟩ := Option.map_eq_some_iff.mp heq
        exact absurd (hall c n List.mem_cons_self) hknown
    · rw [hitems, Option.map_eq_some_iff] at hits
      obtain ⟨its', -, rfl⟩ := hits
      exact absurd hspec (hall c n List.mem_cons_self)

theorem Agrees.other (hletter : isLetter c = false) (hc : c ≠ apostrophe) (h : Agrees false s) :
    Agrees closed (c :: s) := by
  have hitems := (items_closed closed hc s).trans (items_other hletter hc s)
  exact h.extend false [.literal c] (translate_other hletter hc s) hitems
    (fun _ _ hmem => (not_field_literals (t := [c]) hmem).elim) (render_literals [c])
    (goesOn_closed closed hc s) (fun _ => rfl) (fun h => by cases h)

theorem agrees {rest : List Char} (hrest : Pieces rest) (closed : Bool) : Agrees closed rest := by
  induction hrest generalizing closed with
  | nil => exact .nil
  | escaped _ ih => exact (ih closed).escaped
  | quoted hne ht _ ih => exact (ih true).quoted hne ht
  | opened ht => exact .opened ht
  | run hletter hn hs _ ih => exact (ih false).run hletter hn hs
  | other hletter hc _ ih => exact (ih false).other hletter hc

/-- A translation is faithful if and only if its pattern is plain. -/
theorem patternToChrono_faithful_iff (pattern : String) : Faithful pattern ↔ Plain pattern := by
  have hagrees := agrees (pieces pattern.toList) false
  have htranslate : patternToChrono pattern = (translate pattern.toList).map String.ofList := rfl
  constructor
  · intro h its hits hknown
    obtain ⟨out, hout⟩ := Option.isSome_iff_exists.mp (hagrees.accepted.mpr ⟨its, hits, hknown⟩)
    have hsome : patternToChrono pattern = some (String.ofList out) := by
      rw [htranslate, hout, Option.map_some]
    have hspec : ∀ letter count, .field letter count ∈ its → specifier letter count ≠ none := by
      intro letter count hmem hnone
      rw [h.refused its hits ⟨letter, count, hmem, hnone⟩] at hsome
      cases hsome
    refine ⟨hspec, ?_⟩
    obtain ⟨full, hfull, -, -, hlost⟩ := hagrees.output out its hout hits hspec
    by_contra hgoesOn
    have hsame := h.translated _ hsome
    rw [hits, Option.bind_some, hfull, String.toList_ofList] at hsame
    have hlt := hlost (Bool.eq_true_of_not_eq_false hgoesOn)
    rw [Option.some.inj hsame] at hlt
    exact absurd hlt (Nat.lt_irrefl _)
  · intro h
    have hsome {out : String} (hpattern : patternToChrono pattern = some out) :
        ∃ its, items false false pattern.toList = some its ∧
          (∀ letter count, .field letter count ∈ its → specifier letter count ≠ none) ∧
          render its = some out.toList := by
      rw [htranslate, Option.map_eq_some_iff] at hpattern
      obtain ⟨outs, houts, rfl⟩ := hpattern
      obtain ⟨its, hits, hknown⟩ := hagrees.accepted.mp (by rw [houts]; rfl)
      obtain ⟨hspec, hgoesOn⟩ := h its hits hknown
      obtain ⟨full, hfull, -, hsame, -⟩ := hagrees.output outs its houts hits hspec
      exact ⟨its, hits, hspec, by rw [hfull, hsame hgoesOn, String.toList_ofList]⟩
    refine ⟨fun out hpattern => ?_, fun its hits ⟨letter, count, hmem, hnone⟩ => ?_⟩
    · obtain ⟨its, hits, -, hrender⟩ := hsome hpattern
      rw [hits, Option.bind_some, hrender]
    · rw [Option.eq_none_iff_forall_ne_some]
      intro out hpattern
      obtain ⟨its', hits', hspec, -⟩ := hsome hpattern
      obtain rfl := Option.some.inj (hits.symm.trans hits')
      exact hspec letter count hmem hnone

/-- Five letters of the month, its first letter, are translated as two months. -/
theorem narrowMonth_split : ¬ ∀ pattern, Faithful pattern := by
  intro h
  have hits : items false false "MMMMM".toList = some [.field 'M' 5] := by decide
  have hnone : specifier 'M' 5 = none := by decide
  have hrefused := (h "MMMMM").refused _ hits ⟨'M', 5, List.mem_singleton.mpr rfl, hnone⟩
  have hsome : patternToChrono "MMMMM" = some "%B%-m" := by decide
  rw [hsome] at hrefused
  cases hrefused

end Agreement

end Runtime
end Nyuka
