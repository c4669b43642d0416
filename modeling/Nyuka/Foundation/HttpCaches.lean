import Mathlib.Data.Set.Basic
import Mathlib.Logic.Function.Basic
import Nyuka.Foundation.Runs

/-! A cache in front of an origin whose content is replaced from time to time. An answer marked as
fixed is used again without asking. Any other is used again after the origin confirmed its tag. -/
namespace HttpCaches
open Runs

variable {ν κ τ β : Type*}

structure Answer (τ β : Type*) where
  tag : τ
  fixed : Bool
  body : β

/-- What the origin replies to a request, which carries the tag of a stored answer. -/
inductive Reply (τ β : Type*) where
  | answer (a : Answer τ β)
  | notModified

/-- The version that the origin has, what is stored of its answers, and what was last shown. -/
structure Cache (ν κ τ β : Type*) where
  version : ν
  stored : κ → Option (Answer τ β)
  shown : Option (κ × β)

inductive Act (ν κ : Type*) where
  | publish (version : ν)
  | forget (key : κ)
  | request (key : κ)
  | reuse (key : κ)

def Cache.init (version : ν) : Cache ν κ τ β := ⟨version, fun _ => none, none⟩

/-- Answers carry the content and its tag, and a tag is confirmed only if it is the content's. -/
structure Validates (origin : ν → κ → Option τ → Option (Reply τ β))
    (content : ν → κ → Option (τ × β)) : Prop where
  answer : ∀ {v k tag a}, origin v k tag = some (.answer a) → content v k = some (a.tag, a.body)
  confirm : ∀ {v k v' k' tag body}, content v' k' = some (tag, body) →
    origin v k (some tag) = some .notModified → ∃ body', content v k = some (tag, body')

variable {origin : ν → κ → Option τ → Option (Reply τ β)} {content : ν → κ → Option (τ × β)}
  {versions : Set ν} {s t : Cache ν κ τ β} {act : Act ν κ} {acts : List (Act ν κ)} {k : κ}
  {body : β}

/-- Of these versions the origin has answered this. -/
def Given (origin : ν → κ → Option τ → Option (Reply τ β)) (versions : Set ν) (k : κ)
    (a : Answer τ β) : Prop := ∃ v ∈ versions, ∃ tag, origin v k tag = some (.answer a)

/-- What is shown is the content, or was answered once as fixed. -/
def Current (origin : ν → κ → Option τ → Option (Reply τ β)) (content : ν → κ → Option (τ × β))
    (versions : Set ν) (v : ν) (k : κ) (body : β) : Prop :=
  (content v k).map Prod.snd = some body ∨
    ∃ a, Given origin versions k a ∧ a.fixed = true ∧ a.body = body

structure Cache.Sound (origin : ν → κ → Option τ → Option (Reply τ β))
    (content : ν → κ → Option (τ × β)) (versions : Set ν) (s : Cache ν κ τ β) : Prop where
  version : s.version ∈ versions
  stored : ∀ k a, s.stored k = some a → Given origin versions k a
  shown : ∀ k body, s.shown = some (k, body) → Current origin content versions s.version k body

theorem Cache.sound_init {v : ν} (hv : v ∈ versions) :
    (Cache.init v : Cache ν κ τ β).Sound origin content versions :=
  ⟨hv, fun _ _ h => (by cases h), fun _ _ h => (by cases h)⟩

section Step
variable [DecidableEq κ]

def Cache.step (origin : ν → κ → Option τ → Option (Reply τ β)) (s : Cache ν κ τ β) :
    Act ν κ → Option (Cache ν κ τ β)
  | .publish version => some { s with version, shown := none }
  | .forget key => some { s with stored := Function.update s.stored key none, shown := none }
  | .request key =>
    match origin s.version key ((s.stored key).map Answer.tag) with
    | some (.answer a) =>
      some { s with stored := Function.update s.stored key (some a), shown := some (key, a.body) }
    | some .notModified => (s.stored key).map fun a => { s with shown := some (key, a.body) }
    | none => some { s with shown := none }
  | .reuse key => (s.stored key).bind fun a =>
    if a.fixed then some { s with shown := some (key, a.body) } else none

theorem Cache.sound_step (hvalid : Validates origin content)
    (htags : ∀ v ∈ versions, ∀ v' ∈ versions, ∀ k k' tag b b', content v k = some (tag, b) →
      content v' k' = some (tag, b') → b = b')
    (hs : s.Sound origin content versions) (hact : ∀ v, act = .publish v → v ∈ versions)
    (h : s.step origin act = some t) : t.Sound origin content versions := by
  cases act with
  | publish v =>
    cases h
    exact ⟨hact v rfl, hs.stored, fun _ _ hshown => by cases hshown⟩
  | forget key =>
    cases h
    refine ⟨hs.version, fun k a hk => ?_, fun _ _ hshown => by cases hshown⟩
    change Function.update s.stored key none k = some a at hk
    by_cases hkey : k = key
    · rw [hkey, Function.update_self] at hk
      cases hk
    · rw [Function.update_of_ne hkey] at hk
      exact hs.stored k a hk
  | request key =>
    rw [Cache.step] at h
    split at h
    · next a hreply =>
      cases h
      refine ⟨hs.version, fun k a' hk => ?_, fun k body hshown => ?_⟩
      · change Function.update s.stored key (some a) k = some a' at hk
        by_cases hkey : k = key
        · rw [hkey, Function.update_self] at hk
          cases hk
          exact hkey ▸ ⟨s.version, hs.version, _, hreply⟩
        · rw [Function.update_of_ne hkey] at hk
          exact hs.stored k a' hk
      · cases hshown
        left
        rw [hvalid.answer hreply]
        rfl
    · next hreply =>
      obtain ⟨a, ha, rfl⟩ := Option.map_eq_some_iff.mp h
      refine ⟨hs.version, hs.stored, fun k body hshown => ?_⟩
      cases hshown
      obtain ⟨v, hv, tag, hanswer⟩ := hs.stored key a ha
      have hcontent := hvalid.answer hanswer
      rw [ha, Option.map_some] at hreply
      obtain ⟨body, hbody⟩ := hvalid.confirm hcontent hreply
      left
      rw [hbody, htags v hv s.version hs.version key key a.tag a.body body hcontent hbody]
      rfl
    · cases h
      exact ⟨hs.version, hs.stored, fun _ _ hshown => by cases hshown⟩
  | reuse key =>
    obtain ⟨a, ha, h⟩ := Option.bind_eq_some_iff.mp h
    split at h
    · next hfixed =>
      cases h
      refine ⟨hs.version, hs.stored, fun k body hshown => ?_⟩
      cases hshown
      exact .inr ⟨a, hs.stored key a ha, hfixed, rfl⟩
    · cases h

/-- In every run, what is shown is what the origin has at that time, or what it once marked as
fixed. -/
theorem Cache.shown_current (hvalid : Validates origin content)
    (htags : ∀ v ∈ versions, ∀ v' ∈ versions, ∀ k k' tag b b', content v k = some (tag, b) →
      content v' k' = some (tag, b') → b = b')
    (hs : s.Sound origin content versions) (hacts : ∀ v, .publish v ∈ acts → v ∈ versions)
    (h : exec (Cache.step origin) s acts = some t) : t.Sound origin content versions := by
  induction acts generalizing s with
  | nil => exact Option.some.inj h ▸ hs
  | cons act acts ih =>
    obtain ⟨u, hu, hrest⟩ := Option.bind_eq_some_iff.mp h
    exact ih (sound_step hvalid htags hs (fun v hv => hacts v (hv ▸ List.mem_cons_self)) hu)
      (fun v hv => hacts v (List.mem_cons_of_mem _ hv)) hrest

end Step

end HttpCaches
