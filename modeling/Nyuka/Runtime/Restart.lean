import Nyuka.Foundation.Runs
import Nyuka.Runtime.Install

/-! Which sources a restart makes usable again, over runs of installs, uninstalls and
restarts. -/
namespace Nyuka.Runtime
open Tables Table Persistence Runs

/-- The module that a startup load makes of a row. -/
def Loads (host : Compiler) (faults : SourceId → Option DomainError) (packages : PackageTable)
    (row : InstalledSource) (m : LoadedSource) : Prop :=
  loadSource host (faults row.id) packages row.id = .ok (some m)

section Load
variable {host : Compiler} {faults : SourceId → Option DomainError} {packages : PackageTable}

theorem loads_iff {row : InstalledSource} {m : LoadedSource} :
    Loads host faults packages row m ↔ faults row.id = none ∧ ∃ saved, packages.get row.id =
      some saved ∧ saved.bytes.length ≤ maxPackageBytes ∧ ∃ prepared,
      prepare host saved.bytes = .ok prepared ∧ m = prepared.loaded row.id := by
  unfold Loads loadSource
  cases hfault : faults row.id with
  | some e => simp
  | none =>
    cases hget : packages.get row.id with
    | none => simp
    | some saved =>
      by_cases hlen : maxPackageBytes < saved.bytes.length
      · simp [hlen]
      · cases hprep : prepare host saved.bytes with
        | error e => simp [hlen, hprep, Except.map]
        | ok prepared =>
          have hle : saved.bytes.length ≤ maxPackageBytes := Nat.le_of_not_lt hlen
          simp [hlen, hle, hprep, Except.map, eq_comm]

theorem Loads.id_eq {row : InstalledSource} {m : LoadedSource}
    (h : Loads host faults packages row m) : m.id = row.id := by
  obtain ⟨-, _, -, -, prepared, -, rfl⟩ := loads_iff.mp h
  rfl

/-- A startup load leaves the modules that the rows load, and those of other sources. -/
theorem mem_loadAll {rows : List InstalledSource} (hrows : rows.Pairwise fun a b => a.id ≠ b.id)
    {done : ModuleTable × LoadReport} {m : LoadedSource} :
    m ∈ (loadAll host faults packages rows done).1.rows ↔
      (∃ row ∈ rows, Loads host faults packages row m) ∨
      m ∈ done.1.rows ∧ ∀ row ∈ rows, ∀ loaded, Loads host faults packages row loaded →
        row.id ≠ m.id := by
  induction rows generalizing done with
  | nil => simp [loadAll]
  | cons source rows ih =>
    obtain ⟨hfirst, hrest⟩ := List.pairwise_cons.mp hrows
    obtain ⟨modules, report⟩ := done
    -- a source that does not load leaves the modules as they are
    have skip : (∀ loaded, ¬ Loads host faults packages source loaded) → ∀ report,
        (m ∈ (loadAll host faults packages rows (modules, report)).1.rows ↔
          (∃ row ∈ source :: rows, Loads host faults packages row m) ∨
          m ∈ modules.rows ∧ ∀ row ∈ source :: rows, ∀ loaded,
            Loads host faults packages row loaded → row.id ≠ m.id) := by
      intro hnot report
      rw [ih hrest]
      simp [hnot]
    unfold loadAll
    split
    · next hload => exact skip (fun loaded h => by simp [Loads, hload] at h) _
    · next hload => exact skip (fun loaded h => by simp [Loads, hload] at h) _
    · next loaded hload =>
      have hloads : Loads host faults packages source loaded := hload
      have hunique : ∀ other, Loads host faults packages source other → other = loaded :=
        fun other h => by simpa [Loads, hload, eq_comm] using h
      rw [ih hrest, mem_upsert]
      constructor
      · rintro (⟨row, hrow, h⟩ | ⟨rfl | ⟨hm, hne⟩, hnone⟩)
        · exact .inl ⟨row, .tail _ hrow, h⟩
        · exact .inl ⟨source, .head _, hloads⟩
        · refine .inr ⟨hm, fun row hrow other hother => ?_⟩
          rcases List.mem_cons.mp hrow with rfl | hrow
          · rw [← hloads.id_eq]; exact hne.symm
          · exact hnone row hrow other hother
      · rintro (⟨row, hrow, h⟩ | ⟨hm, hnone⟩)
        · rcases List.mem_cons.mp hrow with rfl | hrow
          · obtain rfl := hunique m h
            refine .inr ⟨.inl rfl, fun row hrow _ _ => ?_⟩
            rw [h.id_eq]
            exact (hfirst row hrow).symm
          · exact .inl ⟨row, hrow, h⟩
        · refine .inr ⟨.inr ⟨hm, ?_⟩, fun row hrow => hnone row (.tail _ hrow)⟩
          rw [hloads.id_eq]
          exact (hnone source (.head _) loaded hloads).symm

theorem pairwise_ids (sources : SourceTable) :
    sources.rows.Pairwise fun a b => a.id ≠ b.id := by
  refine (sources.unique true).imp fun {a b} hab hid => ?_
  exact hab a.id rfl (congrArg some hid.symm)

end Load

/-- After a restart that lists the sources, the modules are those of the rows that load. -/
theorem mem_restart {host : Compiler} {faults : LoadFaults} {s : Registry} {m : LoadedSource} :
    m ∈ (restart host faults s).modules.rows ↔ faults.list = none ∧
      ∃ row ∈ s.db.sources.rows, Loads host faults.source s.packages row m := by
  unfold restart loadInstalled
  cases hlist : faults.list with
  | some e => simp
  | none => simp [mem_loadAll (pairwise_ids s.db.sources)]

theorem restart_stores (host : Compiler) (faults : LoadFaults) (s : Registry) :
    (restart host faults s).db = s.db ∧ (restart host faults s).packages = s.packages := by
  unfold restart loadInstalled
  cases faults.list with
  | some e => exact ⟨rfl, rfl⟩
  | none => exact ⟨rfl, rfl⟩

/-! Runs. -/

inductive Event where
  | install (faults : Faults) (drawn : SourceId) (repo : SourceRepoId) (bytes : Bytes)
  | uninstall (faults : Faults) (source : SourceId)
  | restart (faults : LoadFaults)

/-- What is installed has been downloaded, so its length is bounded. -/
def step (host : Compiler) (s : Registry) : Event → Option Registry
  | .install faults drawn repo bytes =>
    if bytes.length ≤ maxPackageBytes then some (installBytes host faults drawn repo bytes s).1
    else none
  | .uninstall faults source => some (uninstall faults source s).1
  | .restart faults => some (restart host faults s)

def Usable (s : Registry) (source : SourceId) : Prop := ∃ m ∈ s.modules.rows, m.id = source

def HasRow (s : Registry) (source : SourceId) : Prop := ∃ row ∈ s.db.sources.rows, row.id = source

def Saved (s : Registry) (source : SourceId) : Prop := ∃ p ∈ s.packages.rows, p.source = source

/-- What holds of every run: a package has a row and loads, and a module has a package. -/
structure Backed (host : Compiler) (s : Registry) : Prop where
  loads : ∀ p ∈ s.packages.rows, p.bytes.length ≤ maxPackageBytes ∧
    ∃ prepared, prepare host p.bytes = .ok prepared
  row : ∀ p ∈ s.packages.rows, HasRow s p.source
  saved : ∀ m ∈ s.modules.rows, Saved s m.id

/-- A module is that of the package saved for it, and every saved package has its module. -/
structure Matched (host : Compiler) (s : Registry) : Prop where
  version : ∀ m ∈ s.modules.rows, ∀ p ∈ s.packages.rows, p.source = m.id →
    ∃ prepared, prepare host p.bytes = .ok prepared ∧ m = prepared.loaded m.id
  usable : ∀ p ∈ s.packages.rows, Usable s p.source

section Steps
variable {host : Compiler} {s s' : Registry}

theorem hasRow_of_upsert {candidate : InstalledSource} {drawn stored : SourceId}
    {sources : SourceTable}
    (hup : upsertSource s.db.sources candidate drawn = .ok (sources, stored))
    (hsources : s'.db.sources = sources) {id : SourceId} (h : HasRow s id ∨ id = stored) :
    HasRow s' id := by
  obtain ⟨hstored, hothers⟩ := mem_upsertSource hup
  rw [HasRow, hsources]
  by_cases hid : id = stored
  · exact hid ▸ hstored
  · obtain ⟨row, hrow, rfl⟩ := h.resolve_right hid
    exact ⟨row, (hothers row hid).mpr hrow, rfl⟩

theorem backed_of_saved {prepared : PreparedSource} {candidate : InstalledSource}
    {drawn stored : SourceId} {sources : SourceTable} {bytes : Bytes}
    (hlen : bytes.length ≤ maxPackageBytes) (hprep : prepare host bytes = .ok prepared)
    (hup : upsertSource s.db.sources candidate drawn = .ok (sources, stored))
    (hsources : s'.db.sources = sources)
    (hpackages : s'.packages = s.packages.upsert ⟨stored, bytes⟩)
    (hmodules : ∀ m ∈ s'.modules.rows, m ∈ s.modules.rows ∨ m.id = stored)
    (h : Backed host s) : Backed host s' where
  loads p hp := by
    rw [hpackages, mem_upsert] at hp
    rcases hp with rfl | ⟨hp, -⟩
    · exact ⟨hlen, prepared, hprep⟩
    · exact h.loads p hp
  row p hp := by
    rw [hpackages, mem_upsert] at hp
    rcases hp with rfl | ⟨hp, -⟩
    · exact hasRow_of_upsert hup hsources (.inr rfl)
    · exact hasRow_of_upsert hup hsources (.inl (h.row p hp))
  saved m hm := by
    rw [Saved, hpackages]
    by_cases hid : m.id = stored
    · exact ⟨⟨stored, bytes⟩, mem_upsert.mpr (.inl rfl), hid.symm⟩
    · obtain ⟨p, hp, hsource⟩ := h.saved m ((hmodules m hm).resolve_right hid)
      exact ⟨p, mem_upsert.mpr (.inr ⟨hp, by rw [hsource]; exact hid⟩), hsource⟩

theorem installBytes_backed {faults : Faults} {drawn : SourceId} {repo : SourceRepoId}
    {bytes : Bytes} (hlen : bytes.length ≤ maxPackageBytes) (h : Backed host s) :
    Backed host (installBytes host faults drawn repo bytes s).1 := by
  cases hinstall : installBytes host faults drawn repo bytes s with
  | mk s' r =>
    obtain ⟨ended, hleft⟩ := installBytes_cases hinstall
    cases ended with
    | prepare => obtain ⟨rfl, -⟩ := hleft; exact h
    | upsert => obtain ⟨rfl, -⟩ := hleft; exact h
    | save =>
      obtain ⟨-, -, prepared, sources, stored, hup, rfl⟩ := hleft
      exact ⟨h.loads, fun p hp => hasRow_of_upsert hup.2.2 rfl (.inl (h.row p hp)), h.saved⟩
    | later =>
      obtain ⟨-, -, prepared, sources, stored, kv, hup, -, rfl⟩ := hleft
      exact backed_of_saved hlen hup.1 hup.2.2 rfl rfl (fun m hm => .inl hm) h
    | done =>
      obtain ⟨-, prepared, sources, stored, kv, -, hup, -, rfl⟩ := hleft
      refine backed_of_saved hlen hup.1 hup.2.2 rfl rfl (fun m hm => ?_) h
      rcases mem_upsert.mp hm with rfl | ⟨hm, -⟩
      · exact .inr rfl
      · exact .inl hm

theorem uninstall_backed {faults : Faults} {source : SourceId} (h : Backed host s) :
    Backed host (uninstall faults source s).1 := by
  have keepsModules : ∀ m ∈ (s.modules.deleteWhere fun m => m.id == source).rows,
      m ∈ s.modules.rows ∧ m.id ≠ source := fun m hm => by simpa using hm
  have keepsPackages : ∀ p ∈ (s.packages.deleteWhere fun p => p.source == source).rows,
      p ∈ s.packages.rows ∧ p.source ≠ source := fun p hp => by simpa using hp
  -- a module that stays has its package among those that stay
  have hsaved : ∀ m ∈ (s.modules.deleteWhere fun m => m.id == source).rows,
      ∃ p ∈ (s.packages.deleteWhere fun p => p.source == source).rows, p.source = m.id := by
    intro m hm
    obtain ⟨hm, hne⟩ := keepsModules m hm
    obtain ⟨p, hp, hid⟩ := h.saved m hm
    exact ⟨p, by simpa [hid, hne] using hp, hid⟩
  unfold uninstall
  split
  · exact h
  · split
    · exact ⟨h.loads, h.row, fun m hm => h.saved m (keepsModules m hm).1⟩
    · split
      · exact ⟨fun p hp => h.loads p (keepsPackages p hp).1,
          fun p hp => h.row p (keepsPackages p hp).1, hsaved⟩
      · refine ⟨fun p hp => h.loads p (keepsPackages p hp).1, fun p hp => ?_, hsaved⟩
        obtain ⟨hp, hne⟩ := keepsPackages p hp
        obtain ⟨row, hrow, hid⟩ := h.row p hp
        exact ⟨row, mem_deleteWhere.mpr ⟨hrow, by simpa [hid] using hne⟩, hid⟩

theorem restart_backed {faults : LoadFaults} (h : Backed host s) :
    Backed host (restart host faults s) := by
  obtain ⟨hdb, hpackages⟩ := restart_stores host faults s
  refine ⟨?_, ?_, fun m hm => ?_⟩
  · rw [hpackages]; exact h.loads
  · rw [hpackages]
    intro p hp
    rw [HasRow, hdb]
    exact h.row p hp
  · obtain ⟨-, row, hrow, hloads⟩ := mem_restart.mp hm
    obtain ⟨-, saved, hget, -⟩ := loads_iff.mp hloads
    obtain ⟨hmem, hid⟩ := get_eq_some_iff.mp hget
    rw [Saved, hpackages]
    exact ⟨saved, hmem, hid.trans hloads.id_eq.symm⟩

/-- One step keeps what every run has. -/
theorem step_backed {event : Event} (h : Backed host s) (hstep : step host s event = some s') :
    Backed host s' := by
  cases event with
  | install faults drawn repo bytes =>
    simp only [step, Option.ite_none_right_eq_some, Option.some.injEq] at hstep
    obtain ⟨hlen, rfl⟩ := hstep
    exact installBytes_backed hlen h
  | uninstall faults source =>
    obtain rfl := Option.some.inj hstep
    exact uninstall_backed h
  | restart faults =>
    obtain rfl := Option.some.inj hstep
    exact restart_backed h

/-- The step meets no failure between two stores that must agree: an install does not fail once
its package is saved, an uninstall that drops the module removes the package, and a startup lists
and reads what is installed. -/
def Clean (host : Compiler) (s : Registry) : Event → Prop
  | .install faults drawn repo bytes =>
    ∀ e, (installBytes host faults drawn repo bytes s).2 = .error e →
      EndsEarly host faults drawn repo bytes s ∨ faults .save ≠ none
  | .uninstall faults _ => faults .unregister = none → faults .removePackage = none
  | .restart faults => faults.list = none ∧ ∀ source, faults.source source = none

theorem installBytes_matched {faults : Faults} {drawn : SourceId} {repo : SourceRepoId}
    {bytes : Bytes} (hclean : Clean host s (.install faults drawn repo bytes))
    (h : Matched host s) : Matched host (installBytes host faults drawn repo bytes s).1 := by
  simp only [Clean] at hclean
  cases hinstall : installBytes host faults drawn repo bytes s with
  | mk s' r =>
    rw [hinstall] at hclean
    obtain ⟨ended, hleft⟩ := installBytes_cases hinstall
    cases ended with
    | prepare => obtain ⟨rfl, -⟩ := hleft; exact h
    | upsert => obtain ⟨rfl, -⟩ := hleft; exact h
    | save =>
      obtain ⟨-, -, prepared, sources, stored, hup, rfl⟩ := hleft
      exact ⟨h.version, h.usable⟩
    | later =>
      obtain ⟨⟨e, rfl⟩, hsave, prepared, sources, stored, kv, hup, -⟩ := hleft
      rcases hclean e rfl with hearly | hfault
      · exact absurd hup (hearly prepared sources stored)
      · exact absurd hsave hfault
    | done =>
      obtain ⟨-, prepared, sources, stored, kv, -, hup, -, rfl⟩ := hleft
      constructor
      · intro m hm p hp hid
        rcases mem_upsert.mp hm with rfl | ⟨hm, hmne⟩ <;>
          rcases mem_upsert.mp hp with rfl | ⟨hp, hpne⟩
        · exact ⟨prepared, hup.1, rfl⟩
        · exact absurd hid hpne
        · exact absurd hid.symm hmne
        · exact h.version m hm p hp hid
      · intro p hp
        rcases mem_upsert.mp hp with rfl | ⟨hp, hpne⟩
        · exact ⟨prepared.loaded stored, mem_upsert.mpr (.inl rfl), rfl⟩
        · obtain ⟨m, hm, hid⟩ := h.usable p hp
          exact ⟨m, mem_upsert.mpr (.inr ⟨hm, by rw [hid]; exact hpne⟩), hid⟩

theorem uninstall_matched {faults : Faults} {source : SourceId}
    (hclean : Clean host s (.uninstall faults source)) (h : Matched host s) :
    Matched host (uninstall faults source s).1 := by
  have hmatched : ∀ db, Matched host ⟨db, s.packages.deleteWhere fun p => p.source == source,
      s.modules.deleteWhere fun m => m.id == source⟩ := by
    refine fun db => ⟨fun m hm p hp hid => ?_, fun p hp => ?_⟩
    · exact h.version m (mem_deleteWhere.mp hm).1 p (mem_deleteWhere.mp hp).1 hid
    · obtain ⟨hp, hne⟩ := mem_deleteWhere.mp hp
      obtain ⟨m, hm, hid⟩ := h.usable p hp
      exact ⟨m, mem_deleteWhere.mpr ⟨hm, by rw [hid]; exact hne⟩, hid⟩
  unfold uninstall
  split
  · exact h
  · next hunregister =>
    split
    · next hremove => simp [hclean hunregister] at hremove
    · split
      · exact hmatched _
      · exact hmatched _

theorem restart_matched {faults : LoadFaults} (hclean : Clean host s (.restart faults))
    (hb : Backed host s) : Matched host (restart host faults s) := by
  obtain ⟨hlist, hsource⟩ := hclean
  obtain ⟨-, hpackages⟩ := restart_stores host faults s
  constructor
  · intro m hm p hp hid
    obtain ⟨-, row, -, hloads⟩ := mem_restart.mp hm
    obtain ⟨-, saved, hget, -, prepared, hprep, rfl⟩ := loads_iff.mp hloads
    obtain ⟨hmem, hsaved⟩ := get_eq_some_iff.mp hget
    rw [hpackages] at hp
    obtain rfl : saved = p := key_inj hmem hp (hsaved.trans hid.symm)
    exact ⟨prepared, hprep, rfl⟩
  · intro p hp
    rw [hpackages] at hp
    obtain ⟨hlen, prepared, hprep⟩ := hb.loads p hp
    obtain ⟨row, hrow, hid⟩ := hb.row p hp
    refine ⟨prepared.loaded row.id, mem_restart.mpr ⟨hlist, row, hrow, ?_⟩, hid⟩
    exact loads_iff.mpr ⟨hsource row.id, p, get_eq_some_iff.mpr ⟨hp, hid.symm⟩, hlen, prepared,
      hprep, rfl⟩

/-- One clean step keeps modules and packages matched. -/
theorem step_matched {event : Event} (hb : Backed host s) (h : Matched host s)
    (hclean : Clean host s event) (hstep : step host s event = some s') : Matched host s' := by
  cases event with
  | install faults drawn repo bytes =>
    simp only [step, Option.ite_none_right_eq_some, Option.some.injEq] at hstep
    obtain ⟨-, rfl⟩ := hstep
    exact installBytes_matched hclean h
  | uninstall faults source =>
    obtain rfl := Option.some.inj hstep
    exact uninstall_matched hclean h
  | restart faults =>
    obtain rfl := Option.some.inj hstep
    exact restart_matched hclean hb

end Steps

/-- A startup at which nothing fails. -/
def noFaults : LoadFaults := ⟨none, fun _ => none⟩

/-- A usable source has a row and a saved package, and is usable after a restart. -/
def Survives (host : Compiler) (s : Registry) : Prop :=
  ∀ id, Usable s id → HasRow s id ∧ Saved s id ∧ Usable (restart host noFaults s) id

/-- A usable source has a row and a saved package of the registered version, and the sources
usable after a restart are the same. -/
def Preserved (host : Compiler) (s : Registry) : Prop :=
  (∀ m ∈ s.modules.rows, HasRow s m.id ∧ ∃ p ∈ s.packages.rows, p.source = m.id ∧
    ∃ prepared, prepare host p.bytes = .ok prepared ∧ m = prepared.loaded m.id) ∧
  ∀ id, Usable (restart host noFaults s) id ↔ Usable s id

/-- Nothing of the source is left. -/
def Gone (s : Registry) (source : SourceId) : Prop :=
  ¬ HasRow s source ∧ ¬ Saved s source ∧ ¬ Usable s source

section Results
variable {host : Compiler} {s s' : Registry}

theorem usable_restart (hb : Backed host s) {p : SavedPackage} (hp : p ∈ s.packages.rows) :
    Usable (restart host noFaults s) p.source :=
  (restart_matched ⟨rfl, fun _ => rfl⟩ hb).usable p
    (by rwa [(restart_stores host noFaults s).2])

theorem survives_of_backed (hb : Backed host s) : Survives host s := by
  rintro id ⟨m, hm, rfl⟩
  obtain ⟨p, hp, hid⟩ := hb.saved m hm
  exact hid ▸ ⟨hb.row p hp, ⟨p, hp, rfl⟩, usable_restart hb hp⟩

theorem preserved_of_matched (hb : Backed host s) (h : Matched host s) : Preserved host s := by
  constructor
  · intro m hm
    obtain ⟨p, hp, hid⟩ := hb.saved m hm
    exact ⟨hid ▸ hb.row p hp, p, hp, hid, h.version m hm p hp hid⟩
  · intro id
    constructor
    · rintro ⟨m, hm, rfl⟩
      obtain ⟨-, row, -, hloads⟩ := mem_restart.mp hm
      obtain ⟨-, saved, hget, -⟩ := loads_iff.mp hloads
      obtain ⟨hmem, hid⟩ := get_eq_some_iff.mp hget
      rw [hloads.id_eq, ← hid]
      exact h.usable saved hmem
    · exact fun husable => (survives_of_backed hb id husable).2.2

theorem gone_of_uninstall {faults : Faults} {source : SourceId}
    (h : uninstall faults source s = (s', .ok ())) : Gone s' source := by
  unfold uninstall at h
  split at h
  · simp at h
  · split at h
    · simp at h
    · split at h
      · simp at h
      · obtain ⟨rfl, -⟩ := Prod.mk.inj h
        refine ⟨?_, ?_, ?_⟩
        · rintro ⟨row, hrow, hid⟩
          simpa [hid] using (mem_deleteWhere.mp hrow).2
        · rintro ⟨p, hp, hid⟩
          simpa [hid] using (mem_deleteWhere.mp hp).2
        · rintro ⟨m, hm, hid⟩
          simpa [hid] using (mem_deleteWhere.mp hm).2

theorem backed_noSources : Backed host noSources :=
  ⟨fun _ h => absurd h List.not_mem_nil, fun _ h => absurd h List.not_mem_nil,
    fun _ h => absurd h List.not_mem_nil⟩

theorem matched_noSources : Matched host noSources :=
  ⟨fun _ h => absurd h List.not_mem_nil, fun _ h => absurd h List.not_mem_nil⟩

end Results

/-- In every run a usable source survives a restart and an uninstalled one is gone; in every run
of clean steps a restart preserves exactly the usable sources, in their registered versions. -/
theorem restart_preserves (host : Compiler) (events : List Event) :
    Always (step host) (Survives host) noSources events ∧
    (Each (step host) (Clean host) noSources events →
      Always (step host) (Preserved host) noSources events) ∧
    Always (step host) (fun s => ∀ faults source s',
      uninstall faults source s = (s', .ok ()) → Gone s' source) noSources events := by
  have hbacked : Always (step host) (Backed host) noSources events :=
    Always.of_steps (fun _ _ _ h hstep => step_backed h hstep) events backed_noSources
  refine ⟨hbacked.imp fun _ => survives_of_backed, fun hclean => ?_, ?_⟩
  · have hboth : Always (step host) (fun s => Backed host s ∧ Matched host s) noSources events :=
      Always.of_each (P := Clean host) (fun _ _ _ h hclean hstep =>
        ⟨step_backed h.1 hstep, step_matched h.1 h.2 hclean hstep⟩)
        ⟨backed_noSources, matched_noSources⟩ hclean
    exact hboth.imp fun _ h => preserved_of_matched h.1 h.2
  · exact hbacked.imp fun _ _ _ _ _ h => gone_of_uninstall h

/-- A host whose packages declare a switch. -/
def switchHost : Compiler := { exampleHost with
  toReaders := { exampleHost.toReaders with
    json _ := some (.array [.object [("type", .string "switch"), ("key", .string "hidden"),
      ("default", .bool true)]]) } }

/-- An install that cannot write the default, once its package is saved, so that a restart makes
usable what was not. -/
def lateRun : List Event := [.install (failsAt (.writeSetting 0)) ⟨2⟩ ⟨1⟩ []]

theorem lateRun_not_preserved : ¬ ∀ (host : Compiler) (events : List Event),
    Always (step host) (Preserved host) noSources events := by
  intro h
  have hafter := ((h switchHost lateRun).2 _ rfl).head
  obtain ⟨m, hm, -⟩ := (hafter.2 ⟨2⟩).mp ⟨_, List.mem_singleton.mpr rfl, rfl⟩
  exact absurd hm List.not_mem_nil

theorem cleanRun_preserved : Always (step exampleHost) (Preserved exampleHost) noSources
    [.install (fun _ => none) ⟨2⟩ ⟨1⟩ [], .restart noFaults] := by
  refine (restart_preserves _ _).2.1 fun t ht => ⟨fun e he => ?_, fun u hu => ⟨?_, trivial⟩⟩
  · cases he
  · exact ⟨rfl, fun _ => rfl⟩

end Nyuka.Runtime
