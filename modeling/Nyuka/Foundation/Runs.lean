import Mathlib.Logic.Relation
import Mathlib.Tactic.TypeStar

/-! Runs of a partial step function. A state together with a list of actions is a run; the
rules below carry an invariant, or a condition on every step, along all of it. -/
namespace Runs

variable {σ α : Type*} {step : σ → α → Option σ}

/-- Execute the actions in order. A disabled action ends the run without a state. -/
def exec (step : σ → α → Option σ) : σ → List α → Option σ
  | s, [] => some s
  | s, a :: as => (step s a).bind fun t => exec step t as

/-- Some list of actions leads from `s` to `t`. -/
def Reachable (step : σ → α → Option σ) (s t : σ) : Prop := ∃ as, exec step s as = some t

/-- `Q` holds in every state the run visits, its first and last ones included. -/
def Always (step : σ → α → Option σ) (Q : σ → Prop) : σ → List α → Prop
  | s, [] => Q s
  | s, a :: as => Q s ∧ ∀ t, step s a = some t → Always step Q t as

/-- `P` holds of every step the run takes, judged in the state before the step. -/
def Each (step : σ → α → Option σ) (P : σ → α → Prop) : σ → List α → Prop
  | _, [] => True
  | s, a :: as => ∀ t, step s a = some t → P s a ∧ Each step P t as

@[simp] theorem exec_nil (s : σ) : exec step s [] = some s := rfl

@[simp] theorem exec_cons (s : σ) (a : α) (as : List α) :
    exec step s (a :: as) = (step s a).bind fun t => exec step t as := rfl

theorem exec_append (s : σ) (as bs : List α) :
    exec step s (as ++ bs) = (exec step s as).bind fun t => exec step t bs := by
  induction as generalizing s with
  | nil => rfl
  | cons a as ih =>
    simp only [List.cons_append, exec_cons]
    cases step s a with
    | none => rfl
    | some t => exact ih t

@[simp] theorem Reachable.refl (s : σ) : Reachable step s s := ⟨[], rfl⟩

theorem Reachable.tail {s t u : σ} {a : α} (h : Reachable step s t) (ha : step t a = some u) :
    Reachable step s u := by
  obtain ⟨as, has⟩ := h
  refine ⟨as ++ [a], ?_⟩
  rw [exec_append, has]
  simp [ha]

/-- What holds at the start and survives every step holds in every reachable state. -/
theorem Reachable.invariant {I : σ → Prop} {s t : σ} (h : Reachable step s t) (hs : I s)
    (hstep : ∀ s a t, I s → step s a = some t → I t) : I t := by
  obtain ⟨as, has⟩ := h
  induction as generalizing s with
  | nil => exact Option.some.inj has ▸ hs
  | cons a as ih =>
    obtain ⟨u, hu, hut⟩ := Option.bind_eq_some_iff.mp has
    exact ih (hstep s a u hs hu) hut

theorem Always.head {Q : σ → Prop} {s : σ} {as : List α} (h : Always step Q s as) : Q s := by
  cases as with
  | nil => exact h
  | cons a as => exact h.1

/-- `Always` speaks of exactly the states that the prefixes of the run reach. -/
theorem always_iff_prefixes {Q : σ → Prop} (s : σ) (as : List α) :
    Always step Q s as ↔ ∀ pre suf t, as = pre ++ suf → exec step s pre = some t → Q t := by
  constructor
  · intro h pre suf t
    induction pre generalizing s as with
    | nil => rintro rfl ht; exact Option.some.inj ht ▸ h.head
    | cons a pre ih =>
      rintro rfl ht
      obtain ⟨u, hu, hut⟩ := Option.bind_eq_some_iff.mp ht
      exact ih u (pre ++ suf) (h.2 u hu) rfl hut
  · intro h
    induction as generalizing s with
    | nil => exact h [] [] s rfl rfl
    | cons a as ih =>
      refine ⟨h [] (a :: as) s rfl rfl, fun t ht => ih t fun pre suf u he hu => ?_⟩
      refine h (a :: pre) suf u (by rw [he]; rfl) ?_
      simpa [ht] using hu

theorem Always.drop {Q : σ → Prop} {s t : σ} {pre suf : List α}
    (h : Always step Q s (pre ++ suf)) (hpre : exec step s pre = some t) :
    Always step Q t suf := by
  induction pre generalizing s with
  | nil => exact Option.some.inj hpre ▸ h
  | cons a pre ih =>
    obtain ⟨u, hu, hut⟩ := Option.bind_eq_some_iff.mp hpre
    exact ih (h.2 u hu) hut

theorem Always.imp {Q R : σ → Prop} (hQR : ∀ s, Q s → R s) {s : σ} {as : List α}
    (h : Always step Q s as) : Always step R s as := by
  induction as generalizing s with
  | nil => exact hQR s h
  | cons a as ih => exact ⟨hQR s h.1, fun t ht => ih (h.2 t ht)⟩

/-- A condition on the steps under which the invariant survives makes it hold throughout. -/
theorem Always.of_each {I : σ → Prop} {P : σ → α → Prop}
    (hstep : ∀ s a t, I s → P s a → step s a = some t → I t) {s : σ} {as : List α}
    (hs : I s) (hP : Each step P s as) : Always step I s as := by
  induction as generalizing s with
  | nil => exact hs
  | cons a as ih =>
    exact ⟨hs, fun t ht => ih (hstep s a t hs (hP t ht).1 ht) (hP t ht).2⟩

theorem Always.of_steps {I : σ → Prop} (hstep : ∀ s a t, I s → step s a = some t → I t)
    {s : σ} (as : List α) (hs : I s) : Always step I s as := by
  induction as generalizing s with
  | nil => exact hs
  | cons a as ih => exact ⟨hs, fun t ht => ih (hstep s a t hs ht)⟩

/-- Where the invariant holds throughout, a condition on steps may use it. -/
theorem Each.of_always {I : σ → Prop} {P R : σ → α → Prop}
    (himp : ∀ s a t, I s → P s a → step s a = some t → R s a) {s : σ} {as : List α}
    (hI : Always step I s as) (hP : Each step P s as) : Each step R s as := by
  induction as generalizing s with
  | nil => trivial
  | cons a as ih =>
    intro t ht
    exact ⟨himp s a t hI.1 (hP t ht).1 ht, ih (hI.2 t ht) (hP t ht).2⟩

/-- A run ends somewhere, and the test holds there. -/
theorem exists_exec {s : σ} {as : List α} {test : σ → Bool}
    (h : (exec step s as).any test = true) : ∃ t, exec step s as = some t ∧ test t = true :=
  (Option.any_eq_true _ _).mp h

theorem not_always_of_exec {Q : σ → Prop} {s t : σ} {as : List α} (h : exec step s as = some t)
    (hQ : ¬ Q t) : ¬ Always step Q s as := fun hall =>
  hQ ((always_iff_prefixes s as).mp hall as [] t (by simp) h)

theorem not_each_of_exec {P : σ → α → Prop} {s t u : σ} {pre suf : List α} {a : α}
    (h : exec step s pre = some t) (ha : step t a = some u) (hP : ¬ P t a) :
    ¬ Each step P s (pre ++ a :: suf) := by
  intro hall
  induction pre generalizing s with
  | nil =>
    cases h
    exact hP (hall u ha).1
  | cons b pre ih =>
    obtain ⟨v, hv, hvt⟩ := Option.bind_eq_some_iff.mp h
    exact ih hvt (hall v hv).2

/-- The steps that a run takes, each with the state it is taken in. -/
def trace (step : σ → α → Option σ) : σ → List α → List (σ × α)
  | _, [] => []
  | s, a :: as => (step s a).elim [] fun t => (s, a) :: trace step t as

theorem toList_eq_filterMap {β γ : Type*} (f : β → Option γ) (x : β) :
    (f x).toList = [x].filterMap f := by
  cases h : f x with
  | none => rw [List.filterMap_cons_none h, List.filterMap_nil, Option.toList_none]
  | some y => rw [List.filterMap_cons_some h, List.filterMap_nil, Option.toList_some]

/-- What the first of several finds counts if no other finds anything. -/
theorem getLast?_filterMap_cons {β γ : Type*} (f : β → Option γ) (x : β) (xs : List β)
    (old : Option γ) : ((x :: xs).filterMap f).getLast?.or old =
      (xs.filterMap f).getLast?.or ((f x).or old) := by
  rw [← List.singleton_append, List.filterMap_append, List.getLast?_append, ← toList_eq_filterMap,
    Option.or_assoc]
  cases f x <;> rfl

theorem Always.last {Q : σ → Prop} {s t : σ} {as : List α} (h : Always step Q s as)
    (hexec : exec step s as = some t) : Q t :=
  (always_iff_prefixes s as).mp h as [] t (List.append_nil as).symm hexec

theorem each_true (s : σ) (as : List α) : Each step (fun _ _ => True) s as := by
  induction as generalizing s with
  | nil => trivial
  | cons a as ih => exact fun t _ => ⟨trivial, ih t⟩

section Trace
variable {β : Type*} {I : σ → Prop} {P : σ → α → Prop} {s t : σ} {as : List α}

/-- What some steps change, a run changes by those in order. -/
theorem exec_foldl {γ : Type*} {view : σ → β} {item : σ × α → Option γ} {f : β → γ → β}
    (hstep : ∀ s a t, I s → step s a = some t →
      I t ∧ view t = (item (s, a)).toList.foldl f (view s))
    (hs : I s) (h : exec step s as = some t) :
    view t = ((trace step s as).filterMap item).foldl f (view s) := by
  induction as generalizing s with
  | nil =>
    cases h
    rfl
  | cons a as ih =>
    obtain ⟨u, hu, hut⟩ := Option.bind_eq_some_iff.mp h
    obtain ⟨hI, hview⟩ := hstep s a u hs hu
    rw [ih hI hut, hview, toList_eq_filterMap, ← List.foldl_append, ← List.filterMap_append, trace,
      hu]
    rfl

/-- What steps only add to, a run collects. -/
theorem exec_collect {view : σ → List β} {item : σ × α → Option β}
    (hstep : ∀ s a t, I s → step s a = some t → I t ∧ view t = view s ++ (item (s, a)).toList)
    (hs : I s) (h : exec step s as = some t) :
    view t = view s ++ (trace step s as).filterMap item := by
  induction as generalizing s with
  | nil =>
    cases h
    exact (List.append_nil _).symm
  | cons a as ih =>
    obtain ⟨u, hu, hut⟩ := Option.bind_eq_some_iff.mp h
    obtain ⟨hI, hview⟩ := hstep s a u hs hu
    rw [ih hI hut, hview, toList_eq_filterMap, List.append_assoc, ← List.filterMap_append, trace,
      hu]
    rfl

/-- Of what steps replace, a run leaves the last. -/
theorem exec_latest {view : σ → Option β} {item : σ × α → Option β}
    (hstep : ∀ s a t, I s → P s a → step s a = some t →
      I t ∧ view t = (item (s, a)).or (view s))
    (hs : I s) (hP : Each step P s as) (h : exec step s as = some t) :
    view t = ((trace step s as).filterMap item).getLast?.or (view s) := by
  induction as generalizing s with
  | nil =>
    cases h
    exact Option.none_or.symm
  | cons a as ih =>
    obtain ⟨u, hu, hut⟩ := Option.bind_eq_some_iff.mp h
    obtain ⟨ha, hrest⟩ := hP u hu
    obtain ⟨hI, hview⟩ := hstep s a u hs ha hu
    rw [ih hI hrest hut, hview, trace, hu, Option.elim_some, getLast?_filterMap_cons]

end Trace

/-- Tests every step of a run that must not get stuck. -/
def check (step : σ → α → Option σ) (test : σ → α → Bool) : σ → List α → Bool
  | _, [] => true
  | s, a :: as => match step s a with
    | none => false
    | some t => test s a && check step test t as

theorem Each.of_check {P : σ → α → Prop} {test : σ → α → Bool}
    (htest : ∀ s a, test s a = true → P s a) {s : σ} {as : List α}
    (h : check step test s as = true) : Each step P s as := by
  induction as generalizing s with
  | nil => trivial
  | cons a as ih =>
    intro t ht
    simp only [check, ht, Bool.and_eq_true] at h
    exact ⟨htest s a h.1, ih h.2⟩

/-- If one step keeps `Q` exactly when it meets `P`, a run keeps `Q` exactly when all its
steps meet `P`. The invariant `I` is what holds on every run whatever its steps meet. -/
theorem always_iff_each {I Q : σ → Prop} {P : σ → α → Prop}
    (hI : ∀ s a t, I s → step s a = some t → I t)
    (hQ : ∀ s a t, I s → Q s → step s a = some t → (Q t ↔ P s a))
    {s : σ} (as : List α) (hIs : I s) (hQs : Q s) :
    Always step Q s as ↔ Each step P s as := by
  induction as generalizing s with
  | nil => exact ⟨fun _ => trivial, fun _ => hQs⟩
  | cons a as ih =>
    constructor
    · intro h t ht
      have hQt : Q t := (h.2 t ht).head
      exact ⟨(hQ s a t hIs hQs ht).mp hQt, (ih (hI s a t hIs ht) hQt).mp (h.2 t ht)⟩
    · intro h
      refine ⟨hQs, fun t ht => ?_⟩
      have hQt : Q t := (hQ s a t hIs hQs ht).mpr (h t ht).1
      exact (ih (hI s a t hIs ht) hQt).mpr (h t ht).2

/-- Where a step of one system is seen as a step of another, so is a run. -/
theorem exec_refines {τ : Type*} {seen : τ → α → Option τ} {view : σ → τ} {I Q : σ → Prop}
    (hstep : ∀ s a, I s → Q s → seen (view s) a = (step s a).map view)
    (hI : ∀ s a t, I s → step s a = some t → I t) {s : σ} {as : List α} (hs : I s)
    (hQ : Always step Q s as) : exec seen (view s) as = (exec step s as).map view := by
  induction as generalizing s with
  | nil => rfl
  | cons a as ih =>
    rw [exec, exec, hstep s a hs hQ.head]
    cases h : step s a with
    | none => rfl
    | some t => exact ih (hI s a t hs h) (hQ.2 t h)

end Runs
