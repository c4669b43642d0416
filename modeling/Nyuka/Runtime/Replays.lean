import Nyuka.Runtime.Transfers

/-! What the host holds is what the guest's calls made of it: a request is what was set of it in the
run, the defaults are what was written, and so on. -/
namespace Nyuka
namespace Runtime
variable {σ Doc : Type} {env : Imports σ Doc} {s t : HostState σ Doc} {c : HostCall}
  {steps : List GuestStep} {id : ℤ}

/-- A step of a run, with the state it is taken in. -/
abbrev Done (σ Doc : Type) := HostState σ Doc × GuestStep

/-! What a step sets of the request at a handle. -/

def urlSet (id : ℤ) : Done σ Doc → Option String
  | (s, .call (.setUrl rid p l)) => if rid.toInt = id then s.readStr p l else none
  | _ => none

/-- The value is read after the name. -/
def headerSet (id : ℤ) : Done σ Doc → Option (String × String)
  | (s, .call (.setHeader rid kp kl vp vl)) =>
    if rid.toInt = id then
      (s.readStr kp kl).bind fun key => (s.readStr vp vl).map fun value => (key, value)
    else none
  | _ => none

def bodySet (id : ℤ) : Done σ Doc → Option Bytes
  | (s, .call (.setBody rid p l)) =>
    if rid.toInt = id then (s.readStr p l).map fun body => Text.utf8 body.toList else none
  | _ => none

/-- A request after a step. -/
def Request.after (r : Request) (id : ℤ) (done : Done σ Doc) : Request :=
  ⟨r.method, (urlSet id done).or r.url, r.headers ++ (headerSet id done).toList,
    (bodySet id done).or r.body⟩

def settingOf (env : Imports σ Doc) : Done σ Doc → Option SettingCall
  | (s, .call (.defaultsSet p l value)) => (s.readStr p l).bind fun key =>
    if value = 0 then some (.remove key)
    else ((readEncoded env.checks s.memory value).toOption.join).map (.set key)
  | _ => none

def limitOf : Done σ Doc → Option (Option RateLimit)
  | (_, .call (.setRateLimit permits period unit)) =>
    some (RateLimit.fromWire permits.toInt period.toInt unit.toInt)
  | _ => none

def partialOf (env : Imports σ Doc) : Done σ Doc → Option Bytes
  | (s, .call (.sendPartialResult ptr)) => (readEncoded env.checks s.memory ptr).toOption.join
  | _ => none

def lineOf : Done σ Doc → Option String
  | (s, .call (.print p l)) => s.readStr p l
  | _ => none

section Requests
variable {result : CallResult σ Doc} {r : HeldRequest} {rid : Int32}

def blank : HostState MemoryDefaults Unit := .new (some [97, 98]) ⟨fun _ => none⟩

end Requests

section Notes
variable {result : CallResult σ Doc}

/-- Any other call leaves what the host has noted. -/
theorem Outcome.not_noted (h : Outcome env s c result) (hc : c.notes = false) :
    result.1.defaults = s.defaults ∧ result.1.declaredRateLimit = s.declaredRateLimit ∧
      result.1.partialResults = s.partialResults ∧ result.1.logs = s.logs := by
  cases h with
  | noted defaults limit partials logs answer hanswered hnotes => cases hc.symm.trans hnotes
  | sent ptr len actions result hnamed hsends =>
    obtain ⟨left, -, rfl⟩ := Option.map_eq_some_iff.mp hsends
    exact ⟨rfl, rfl, rfl, rfl⟩
  | _ => exact ⟨rfl, rfl, rfl, rfl⟩

/-- How what the host has noted goes on through a step. -/
structure Noted (env : Imports σ Doc) (s : HostState σ Doc) (a : GuestStep) (t : HostState σ Doc) :
    Prop where
  defaults : t.defaults = (settingOf env (s, a)).toList.foldl env.defaults.call s.defaults
  limit : t.declaredRateLimit = (limitOf (s, a)).getD s.declaredRateLimit
  partials : t.partialResults = s.partialResults ++ (partialOf env (s, a)).toList
  logs : t.logs = s.logs ++ (lineOf (s, a)).toList

theorem Noted.of_none {a : GuestStep} (hsetting : settingOf env (s, a) = none)
    (hlimit : limitOf (s, a) = none) (hhalf : partialOf env (s, a) = none)
    (hline : lineOf (s, a) = none) (h : t.defaults = s.defaults ∧
      t.declaredRateLimit = s.declaredRateLimit ∧ t.partialResults = s.partialResults ∧
      t.logs = s.logs) : Noted env s a t where
  defaults := by rw [hsetting]; exact h.1
  limit := by rw [hlimit]; exact h.2.1
  partials := by rw [hhalf, Option.toList_none, List.append_nil]; exact h.2.2.1
  logs := by rw [hline, Option.toList_none, List.append_nil]; exact h.2.2.2

theorem call_noted (hs : s.Sound) (h : s.call env c = some result) :
    Noted env s (.call c) result.1 := by
  cases c with
  | print p l =>
    cases h
    unfold HostState.print
    split
    · next line hline =>
      exact ⟨rfl, rfl, (List.append_nil _).symm, by rw [lineOf, hline]; rfl⟩
    · next hline => exact .of_none rfl rfl rfl hline ⟨rfl, rfl, rfl, rfl⟩
  | sendPartialResult ptr =>
    obtain ⟨found, hread, hrest⟩ := Results.bind_eq_ok.mp (toOption_eq_some.mp h)
    have hhalf : partialOf env (s, .call (.sendPartialResult ptr)) = found := by
      rw [partialOf, hread]
      rfl
    cases found with
    | none =>
      cases hrest
      exact .of_none rfl rfl hhalf rfl ⟨rfl, rfl, rfl, rfl⟩
    | some bytes =>
      cases hrest
      exact ⟨rfl, rfl, by rw [hhalf]; rfl, (List.append_nil _).symm⟩
  | defaultsSet p l value =>
    have hset := toOption_eq_some.mp h
    unfold HostState.defaultsSet at hset
    split at hset
    · next hkey =>
      cases hset
      exact .of_none (by rw [settingOf, hkey]; rfl) rfl rfl rfl ⟨rfl, rfl, rfl, rfl⟩
    · next key hkey =>
      split at hset
      · next hzero =>
        cases hset
        refine ⟨?_, rfl, (List.append_nil _).symm, (List.append_nil _).symm⟩
        rw [settingOf, hkey, Option.bind_some, if_pos hzero]
        rfl
      · next hzero =>
        obtain ⟨found, hread, hrest⟩ := Results.bind_eq_ok.mp hset
        have hsetting :
            settingOf env (s, .call (.defaultsSet p l value)) = found.map (.set key) := by
          rw [settingOf, hkey, Option.bind_some, if_neg hzero, hread]
          rfl
        cases found with
        | none =>
          cases hrest
          exact .of_none hsetting rfl rfl rfl ⟨rfl, rfl, rfl, rfl⟩
        | some bytes =>
          cases hrest
          exact ⟨by rw [hsetting]; rfl, rfl, (List.append_nil _).symm, (List.append_nil _).symm⟩
  | setRateLimit permits period unit =>
    cases h
    exact ⟨rfl, rfl, (List.append_nil _).symm, (List.append_nil _).symm⟩
  | _ => exact .of_none rfl rfl rfl rfl ((call_outcome hs h).not_noted rfl)

theorem step_noted {a : GuestStep} (hs : s.Sound) (h : s.step env a = some t) :
    Noted env s a t := by
  cases a with
  | call c =>
    obtain ⟨answer, hcall⟩ := HostState.of_step_call h
    exact call_noted hs hcall
  | store | grow =>
    obtain ⟨m, -, rfl⟩ := Option.map_eq_some_iff.mp h
    exact .of_none rfl rfl rfl rfl ⟨rfl, rfl, rfl, rfl⟩

/-- Through a run the host notes what the calls leave with it, each thing in the order of the calls:
the settings written, the last rate limit declared, the partial results and the printed lines. -/
theorem run_noted (hs : s.Sound) (h : Runs.exec (HostState.step env) s steps = some t) :
    t.defaults = env.defaults.after s.defaults
        ((Runs.trace (HostState.step env) s steps).filterMap (settingOf env)) ∧
      t.declaredRateLimit = (((Runs.trace (HostState.step env) s steps).filterMap
        limitOf).getLast?).getD s.declaredRateLimit ∧
      t.partialResults = s.partialResults ++
        (Runs.trace (HostState.step env) s steps).filterMap (partialOf env) ∧
      t.logs = s.logs ++ (Runs.trace (HostState.step env) s steps).filterMap lineOf := by
  have hsound (u : HostState σ Doc) (a : GuestStep) (v : HostState σ Doc) (hu : u.Sound)
      (huv : u.step env a = some v) : v.Sound := (step_sound_follows hu huv).1
  have hlimit := Runs.exec_latest (fun u a v hu _ huv => ⟨hsound u a v hu huv, show
    some v.declaredRateLimit = (limitOf (u, a)).or (some u.declaredRateLimit) by
      rw [(step_noted hu huv).limit]
      cases limitOf (u, a) <;> rfl⟩) hs (Runs.each_true s steps) h
  refine ⟨?_, ?_, ?_, ?_⟩
  · exact Runs.exec_foldl (fun u a v hu huv => ⟨hsound u a v hu huv, (step_noted hu huv).defaults⟩)
      hs h
  · rw [← Option.some_inj, hlimit]
    cases ((Runs.trace (HostState.step env) s steps).filterMap limitOf).getLast? <;> rfl
  · exact Runs.exec_collect (fun u a v hu huv =>
      ⟨hsound u a v hu huv, (step_noted hu huv).partials⟩) hs h
  · exact Runs.exec_collect (fun u a v hu huv =>
      ⟨hsound u a v hu huv, (step_noted hu huv).logs⟩) hs h

/-- A setting is written and written again, two rates are declared, and a block is sent. -/
def noting : List GuestStep :=
  [.store 2 [9, 0, 0, 0, 9, 0, 0, 0, 7], .call (.defaultsSet 0 1 2), .call (.setRateLimit 1 1 0),
    .call (.print 1 1), .store 10 [8], .call (.defaultsSet 0 1 2), .call (.sendPartialResult 2),
    .call (.setRateLimit 2 1 0), .call (.print 0 2)]

def scratch : HostState MemoryDefaults Unit :=
  .new (some (97 :: 98 :: List.replicate 14 0)) ⟨fun _ => none⟩

theorem noting_noted :
    ∃ t, Runs.exec (HostState.step linkImports) scratch noting = some t ∧
      t.defaults.inner "a" = some [8] ∧ t.declaredRateLimit = RateLimit.fromWire 2 1 0 ∧
      t.partialResults = [[8]] ∧ t.logs = ["b", "ab"] := by
  have hruns : (Runs.exec (HostState.step linkImports) scratch noting).isSome = true := by decide
  obtain ⟨t, h⟩ := Option.isSome_iff_exists.mp hruns
  have hsound : scratch.Sound := HostState.sound_new _ _
  obtain ⟨hdefaults, hlimit, hpartials, hlogs⟩ := run_noted hsound h
  refine ⟨t, h, ?_, hlimit.trans (by decide), hpartials.trans (by decide), hlogs.trans (by decide)⟩
  have hsettings : (Runs.trace (HostState.step linkImports) scratch noting).filterMap
      (settingOf linkImports) = [.set "a" [7], .set "a" [8]] := by decide
  rw [hdefaults, hsettings]
  rfl

end Notes

end Runtime
end Nyuka
