import FileRouting.Proofs.Building
import FileRouting.Session
import Mathlib

/-! # Life cycle of a router

A session mixes calls of a router with edits of the file tree that it reads and with changes of the
working directory.  After any run, the tables that its actions have installed, in order, are all
that the router depends on: the last of them is the current table, and whether there is one at all
is the flag of the router.

`step_cases` says what one action can do to the router and to the tables that were handed out:
install one table, or nothing.  `Tracks` is the invariant that follows step by step (`Tracks.step`)
and over whole runs (`Tracks.run`), and `LifeCycle` what it means for the answers. -/

namespace FileRouting

namespace Router

variable {r : Router} {host : Host} {t : Disk.Tree}

theorem load_eq_ok {base : Disk.Path} {table : Table} {next : Router}
    (h : r.load host t base = .ok (table, next)) :
    Table.ofDirectory host t r.options base = .ok table ∧ next = r.install table := by
  unfold load at h
  split at h
  · next built hbuilt =>
    cases h
    exact ⟨hbuilt, rfl⟩
  · cases h

theorem reload_eq_ok {table : Table} {next : Router} (h : r.reload host t = .ok (table, next)) :
    ∃ base, r.load host t base = .ok (table, next) := by
  unfold reload at h
  split at h
  · cases h
  split at h
  · cases h
  · next base _ => exact ⟨base, h⟩

end Router

/-- Whether an action puts a table into the router if it succeeds. -/
def Action.installs : Action → Bool
  | .load _ | .reload | .install _ | .installBuilt _ _ | .installSnapshot _ => true
  | _ => false

/-- The table that an action has installed, by the answer to it. -/
def Answer.installed? (action : Action) : Answer → Option Table
  | .table t => if action.installs then some t else none
  | _ => none

namespace Session

/-- The tables that actions have installed, by the answers to them. -/
def installedTables (actions : List Action) (answers : List Answer) : List Table :=
  (actions.zip answers).filterMap fun x => x.2.installed? x.1

theorem installRoutes_eq_ok {r next : Router} {engine : Engine} {declarations : List Declaration}
    {table : Table} (h : installRoutes r engine declarations = .ok (table, next)) :
    table.Built ∧ next = r.install table := by
  unfold installRoutes at h
  split at h
  · cases h
  split at h
  · cases h
  · next built hbuilt =>
    cases h
    exact ⟨.ofRoutes hbuilt, rfl⟩

/-! ## One action -/

/-- The session in which a table has been installed. -/
def afterInstall (s : Session) (table : Table) : Session :=
  { s with router := s.router.install table, snapshots := s.snapshots ++ [table] }

/-- What the answer and the session after an action can be: a table was installed, or the router and
the tables that were handed out are as before. -/
inductive Outcome (s : Session) (action : Action) : Answer × Session → Prop where
  | installed {table : Table} (hinstalls : action.installs)
      (htable : table.Built ∨ table ∈ s.snapshots) :
      Outcome s action (.table table, s.afterInstall table)
  | kept {answer : Answer} {next : Session} (hrouter : next.router = s.router)
      (hsnapshots : next.snapshots = s.snapshots)
      (hfailed : ∀ e, answer = .failed e → next = s)
      (htable : ∀ table, answer = .table table →
        action.installs = false ∧ s.router.table = .ok table) :
      Outcome s action (answer, next)

theorem outcome_installed {s : Session} {action : Action} (hinstalls : action.installs)
    {result : Except RouterError (Table × Router)}
    (h : ∀ table next, result = .ok (table, next) →
      (table.Built ∨ table ∈ s.snapshots) ∧ next = s.router.install table) :
    Outcome s action (s.installed result) := by
  cases result with
  | error e => exact .kept rfl rfl (fun _ _ => rfl) (fun table heq => by cases heq)
  | ok pair =>
      obtain ⟨table, next⟩ := pair
      obtain ⟨htable, rfl⟩ := h table next rfl
      exact .installed hinstalls htable

theorem outcome_answered {α : Type} {s : Session} {action : Action} {answer : α → Answer}
    {result : Except RouterError α}
    (h : ∀ a table, result = .ok a → answer a = .table table →
      action.installs = false ∧ s.router.table = .ok table) :
    Outcome s action (answered answer result, s) := by
  refine .kept rfl rfl (fun _ _ => rfl) ?_
  intro table heq
  cases result with
  | error e => cases heq
  | ok a => exact h a table rfl heq

theorem outcome_found {α : Type} {s : Session} {action : Action} {answer : α → Answer}
    {result : Except DiscoveryError α} (h : ∀ a table, answer a ≠ .table table) :
    Outcome s action (found answer result, s) := by
  refine .kept rfl rfl (fun _ _ => rfl) ?_
  intro table heq
  cases result with
  | error e => cases heq
  | ok a => exact absurd heq (h a table)

theorem outcome_foundLayouts {α : Type} {s : Session} {action : Action} {answer : α → Answer}
    {search : (Text → Bool) → Except DiscoveryError α} (h : ∀ a table, answer a ≠ .table table) :
    Outcome s action (s.foundLayouts answer search, s) := by
  unfold foundLayouts
  split
  · exact outcome_found h
  · exact .kept rfl rfl (fun _ _ => rfl) (fun table heq => by cases heq)

theorem step_cases (s : Session) (action : Action) : Outcome s action (s.step action) := by
  cases action with
  | addFile path | addDirectory path | addLink path target | remove path | enter current =>
      exact .kept rfl rfl (fun e heq => by cases heq) (fun table heq => by cases heq)
  | load base =>
      apply outcome_installed rfl
      intro table next h
      obtain ⟨hbuilt, rfl⟩ := Router.load_eq_ok h
      exact ⟨.inl (.ofDirectory hbuilt), rfl⟩
  | reload =>
      apply outcome_installed rfl
      intro table next h
      obtain ⟨base, hload⟩ := Router.reload_eq_ok h
      obtain ⟨hbuilt, rfl⟩ := Router.load_eq_ok hload
      exact ⟨.inl (.ofDirectory hbuilt), rfl⟩
  | install declarations =>
      apply outcome_installed rfl
      intro table next h
      obtain ⟨hbuilt, rfl⟩ := installRoutes_eq_ok h
      exact ⟨.inl hbuilt, rfl⟩
  | installBuilt table built => exact .installed rfl (.inl built)
  | installSnapshot index =>
      rw [step]
      split
      · next table htable => exact .installed rfl (.inr (List.mem_of_getElem? htable))
      · exact .kept rfl rfl (fun _ _ => rfl) (fun table heq => by cases heq)
  | find request => exact outcome_answered fun _ _ _ heq => by cases heq
  | resolve path => exact .kept rfl rfl (fun _ _ => rfl) (fun table heq => by cases heq)
  | resolveSnapshot index path =>
      rw [step]
      split <;> exact .kept rfl rfl (fun _ _ => rfl) (fun table heq => by cases heq)
  | table =>
      apply outcome_answered
      intro current table hcurrent heq
      cases heq
      exact ⟨rfl, hcurrent⟩
  | get canonical => exact outcome_answered fun _ _ _ heq => by cases heq
  | options => exact .kept rfl rfl (fun _ _ => rfl) (fun table heq => by cases heq)
  | scan base => exact outcome_found fun _ _ heq => by cases heq
  | nearestLayout source stop => exact outcome_foundLayouts fun _ _ heq => by cases heq
  | allLayouts source stop onePerLevel => exact outcome_foundLayouts fun _ _ heq => by cases heq

theorem step_of_failed {s : Session} {action : Action} {e : RouterError}
    (h : (s.step action).1 = .failed e) : (s.step action).2 = s := by
  have houtcome := s.step_cases action
  generalize s.step action = result at h houtcome
  cases houtcome with
  | installed _ _ => cases h
  | kept _ _ hfailed _ => exact hfailed e h

/-! ## Runs -/

/-- What a session keeps of the tables that were installed in it, the last one last. -/
structure Tracks (s : Session) (tables : List Table) : Prop where
  current : s.router.slot.current = tables.getLast?.getD .empty
  loaded : s.router.loaded = !tables.isEmpty
  snapshots : s.snapshots = tables
  absolute : ∀ table ∈ tables, ∀ base, table.base = some base →
    ∀ current, base.absolute? current = some base

theorem tracks_of_make {o : Options} {router : Router} (h : Router.make o = .ok router)
    (host : Host) (tree : Disk.Tree) : Tracks ⟨host, tree, router, []⟩ [] := by
  unfold Router.make at h
  split at h
  · cases h
    exact ⟨rfl, rfl, rfl, fun table htable => absurd htable List.not_mem_nil⟩
  · cases h

variable {s : Session} {tables : List Table}

theorem Tracks.afterInstall (h : s.Tracks tables) {table : Table}
    (htable : table.Built ∨ table ∈ s.snapshots) :
    (s.afterInstall table).Tracks (tables ++ [table]) where
  current := by
    rw [List.getLast?_concat]
    rfl
  loaded := by
    rw [List.isEmpty_eq_false_iff.2 (by simp)]
    rfl
  snapshots := congrArg (· ++ [table]) h.snapshots
  absolute := by
    intro other hother base hbase current
    rcases List.mem_append.1 hother with hother | hother
    · exact h.absolute other hother base hbase current
    · obtain rfl := List.mem_singleton.1 hother
      rcases htable with hbuilt | hsnapshot
      · exact hbuilt.absolute?_base hbase current
      · exact h.absolute other (h.snapshots ▸ hsnapshot) base hbase current

theorem Tracks.router_table (h : s.Tracks tables) :
    s.router.table = match tables.getLast? with
      | some table => .ok table
      | none => .error .notLoaded := by
  rw [Router.table, h.loaded, h.current]
  cases hlast : tables.getLast? with
  | none =>
      obtain rfl := List.getLast?_eq_none_iff.1 hlast
      rfl
  | some table =>
      have hne : tables ≠ [] := List.ne_nil_of_mem (List.mem_of_getLast? hlast)
      rw [List.isEmpty_eq_false_iff.2 hne]
      rfl

/-- One action appends the table that it installs, if it installs one; and a table in the answer is
among the tables then. -/
theorem Tracks.step (h : s.Tracks tables) (action : Action) :
    (s.step action).2.Tracks (tables ++ ((s.step action).1.installed? action).toList) ∧
      ∀ table, (s.step action).1 = .table table →
        table ∈ tables ++ ((s.step action).1.installed? action).toList := by
  have houtcome := s.step_cases action
  generalize s.step action = result at houtcome ⊢
  cases houtcome with
  | installed hinstalls htable =>
      rw [Answer.installed?, if_pos hinstalls, Option.toList_some]
      refine ⟨h.afterInstall htable, ?_⟩
      intro table heq
      cases heq
      exact List.mem_append_right _ (List.mem_singleton_self _)
  | @kept answer next hrouter hsnapshots _ htable =>
      have hnone : (answer.installed? action).toList = [] := by
        cases answer with
        | table t => rw [Answer.installed?, (htable t rfl).1]; rfl
        | _ => rfl
      rw [hnone, List.append_nil]
      refine ⟨⟨?_, ?_, ?_, h.absolute⟩, ?_⟩
      · rw [hrouter, h.current]
      · rw [hrouter, h.loaded]
      · rw [hsnapshots, h.snapshots]
      · intro table heq
        -- an answer that shows a table without installing it shows the current one
        have hcurrent := (htable table heq).2
        rw [h.router_table] at hcurrent
        split at hcurrent
        · next last hlast =>
          cases hcurrent
          exact List.mem_of_getLast? hlast
        · cases hcurrent

theorem run_cons (s : Session) (action : Action) (actions : List Action) :
    s.run (action :: actions) = ((s.step action).1 :: ((s.step action).2.run actions).1,
      ((s.step action).2.run actions).2) := rfl

theorem installedTables_cons (action : Action) (actions : List Action) (answer : Answer)
    (answers : List Answer) :
    installedTables (action :: actions) (answer :: answers) =
      (answer.installed? action).toList ++ installedTables actions answers := by
  rw [installedTables, List.zip_cons_cons, List.filterMap_cons]
  cases answer.installed? action <;> rfl

theorem Tracks.run (h : s.Tracks tables) (actions : List Action) :
    (s.run actions).2.Tracks (tables ++ installedTables actions (s.run actions).1) ∧
      ∀ table, .table table ∈ (s.run actions).1 →
        table ∈ tables ++ installedTables actions (s.run actions).1 := by
  induction actions generalizing s tables with
  | nil =>
      refine ⟨by simpa [installedTables, Session.run] using h, ?_⟩
      intro table htable
      cases htable
  | cons action actions ih =>
      obtain ⟨hstep, hanswer⟩ := h.step action
      obtain ⟨hrun, hanswers⟩ := ih hstep
      rw [run_cons, installedTables_cons, ← List.append_assoc]
      refine ⟨hrun, ?_⟩
      intro table htable
      rcases List.mem_cons.1 htable with heq | htable
      · exact List.mem_append_left _ (hanswer table heq.symm)
      · exact hanswers table htable

/-! ## What the answers say -/

/-- What a session answers, and what becomes of it, when the given tables have been installed in it,
the last one last. -/
structure LifeCycle (s : Session) (tables : List Table) : Prop where
  -- the last table that was installed is the current one, and the flag says that there is one
  current : s.router.slot.current = tables.getLast?.getD .empty
  loaded : s.router.loaded = true ↔ tables ≠ []
  table_answer : (s.step .table).1 = match tables.getLast? with
    | some table => .table table
    | none => .failed .notLoaded
  find_notLoaded : ∀ request, (s.step (.find request)).1 = .failed .notLoaded ↔ tables = []
  resolve_answer : ∀ path, (s.step (.resolve path)).1 = .result (match tables.getLast? with
    | some table => table.resolve path
    | none => none)
  get_answer : ∀ canonical, (s.step (.get canonical)).1 = match tables.getLast? with
    | some table => .route (table.get? canonical)
    | none => .failed .notLoaded
  -- once a table is installed, there is one for good
  loaded_later : tables ≠ [] → ∀ later, ((s.run later).2.step .table).1 ≠ .failed .notLoaded ∧
    ∀ request, ((s.run later).2.step (.find request)).1 ≠ .failed .notLoaded
  -- an action that fails changes nothing at all
  failed_keeps : ∀ action e, (s.step action).1 = .failed e → (s.step action).2 = s
  reload_notLoaded : (s.step .reload).1 = .failed .notLoaded ↔ tables = []
  reload_noBase : (s.step .reload).1 = .failed .noBase ↔
    ∃ table, tables.getLast? = some table ∧ table.base = none
  reload_eq_load : ∀ table base, tables.getLast? = some table → table.base = some base →
    s.step .reload = s.step (.load base) ∧
      ∀ fresh, (s.step .reload).1 = .table fresh → fresh.base = some base
  -- tables that were handed out stay what they are
  snapshot_later : ∀ i table, s.snapshots[i]? = some table → ∀ later path,
    ((s.run later).2.step (.resolveSnapshot i path)).1 = .result (table.resolve path)

theorem Tracks.find_notLoaded (h : s.Tracks tables) (request : Text) :
    (s.step (.find request)).1 = .failed .notLoaded ↔ tables = [] := by
  rw [← List.getLast?_eq_none_iff, Session.step, Router.find, h.router_table]
  cases tables.getLast? with
  | none => simp [answered]
  | some table =>
      cases s.router.options.normalization.normalize request <;> simp [answered]

theorem Tracks.table_answer (h : s.Tracks tables) :
    (s.step .table).1 = match tables.getLast? with
      | some table => .table table
      | none => .failed .notLoaded := by
  rw [Session.step, h.router_table]
  cases tables.getLast? <;> rfl

theorem Tracks.resolve_answer (h : s.Tracks tables) (path : Text) :
    (s.step (.resolve path)).1 = .result (match tables.getLast? with
      | some table => table.resolve path
      | none => none) := by
  rw [Session.step, Router.resolve, h.current]
  cases tables.getLast? <;> rfl

theorem Tracks.get_answer (h : s.Tracks tables) (canonical : Text) :
    (s.step (.get canonical)).1 = match tables.getLast? with
      | some table => .route (table.get? canonical)
      | none => .failed .notLoaded := by
  rw [Session.step, Router.get?, h.router_table]
  cases tables.getLast? <;> rfl

theorem Tracks.loaded_later (h : s.Tracks tables) (hne : tables ≠ []) (later : List Action) :
    ((s.run later).2.step .table).1 ≠ .failed .notLoaded ∧
      ∀ request, ((s.run later).2.step (.find request)).1 ≠ .failed .notLoaded := by
  obtain ⟨hlater, _⟩ := h.run later
  have hlaterNe : tables ++ installedTables later (s.run later).1 ≠ [] := by simp [hne]
  constructor
  · rw [hlater.table_answer]
    cases hlast : (tables ++ installedTables later (s.run later).1).getLast? with
    | none => exact absurd (List.getLast?_eq_none_iff.1 hlast) hlaterNe
    | some table => simp
  · exact fun request heq => hlaterNe ((hlater.find_notLoaded request).1 heq)

theorem Tracks.snapshot_later (h : s.Tracks tables) {i : Nat} {table : Table}
    (htable : s.snapshots[i]? = some table) (later : List Action) (path : Text) :
    ((s.run later).2.step (.resolveSnapshot i path)).1 = .result (table.resolve path) := by
  have hkept : (s.run later).2.snapshots[i]? = some table := by
    rw [(h.run later).1.snapshots, ← h.snapshots]
    obtain ⟨hlt, _⟩ := List.getElem?_eq_some_iff.1 htable
    rwa [List.getElem?_append_left hlt]
  rw [Session.step, hkept]

theorem Tracks.step_reload (h : s.Tracks tables) :
    s.step .reload = match tables.getLast? with
      | none => (.failed .notLoaded, s)
      | some table =>
        match table.base with
        | none => (.failed .noBase, s)
        | some base => s.step (.load base) := by
  rw [Session.step, Router.reload, h.router_table]
  cases tables.getLast? with
  | none => rfl
  | some table =>
      simp only
      cases table.base with
      | none => rfl
      | some base => rfl

/-- A load gives a table with the absolute path as its base, or an error of building. -/
theorem step_load_cases (s : Session) (base : Disk.Path) :
    (∃ e, (s.step (.load base)).1 = .failed (.table e)) ∨
      ∃ table, (s.step (.load base)).1 = .table table ∧
        table.base = base.absolute? s.host.current := by
  rw [Session.step, Router.load]
  cases hbuilt : Table.ofDirectory s.host s.tree s.router.options base with
  | error e => exact .inl ⟨e, rfl⟩
  | ok table => exact .inr ⟨table, rfl, Table.base_of_ofDirectory hbuilt⟩

theorem Tracks.reload_notLoaded (h : s.Tracks tables) :
    (s.step .reload).1 = .failed .notLoaded ↔ tables = [] := by
  rw [h.step_reload, ← List.getLast?_eq_none_iff]
  cases tables.getLast? with
  | none => simp
  | some table =>
      cases hbase : table.base with
      | none => simp [hbase]
      | some base =>
          rcases s.step_load_cases base with ⟨e, he⟩ | ⟨fresh, hfresh, _⟩
          · simp [hbase, he]
          · simp [hbase, hfresh]

theorem Tracks.reload_noBase (h : s.Tracks tables) :
    (s.step .reload).1 = .failed .noBase ↔
      ∃ table, tables.getLast? = some table ∧ table.base = none := by
  rw [h.step_reload]
  cases tables.getLast? with
  | none => simp
  | some table =>
      cases hbase : table.base with
      | none => simp [hbase]
      | some base =>
          rcases s.step_load_cases base with ⟨e, he⟩ | ⟨fresh, hfresh, _⟩
          · simp [hbase, he]
          · simp [hbase, hfresh]

/-- Building anew from the base of the current table keeps the base, because it is absolute. -/
theorem Tracks.reload_eq_load (h : s.Tracks tables) {table : Table} {base : Disk.Path}
    (hlast : tables.getLast? = some table) (hbase : table.base = some base) :
    s.step .reload = s.step (.load base) ∧
      ∀ fresh, (s.step .reload).1 = .table fresh → fresh.base = some base := by
  have hload : s.step .reload = s.step (.load base) := by
    rw [h.step_reload, hlast]
    simp only [hbase]
  refine ⟨hload, ?_⟩
  intro fresh hfresh
  rw [hload] at hfresh
  have habsolute := h.absolute table (List.mem_of_getLast? hlast) base hbase s.host.current
  rcases s.step_load_cases base with ⟨e, he⟩ | ⟨built, hbuilt, hroot⟩
  · rw [he] at hfresh
    cases hfresh
  · rw [hbuilt] at hfresh
    cases hfresh
    rw [hroot, habsolute]

theorem Tracks.lifeCycle (h : s.Tracks tables) : s.LifeCycle tables where
  current := h.current
  loaded := by simp [h.loaded]
  table_answer := h.table_answer
  find_notLoaded := h.find_notLoaded
  resolve_answer := h.resolve_answer
  get_answer := h.get_answer
  loaded_later := h.loaded_later
  failed_keeps := fun _ _ => step_of_failed
  reload_notLoaded := h.reload_notLoaded
  reload_noBase := h.reload_noBase
  reload_eq_load := fun _ _ => h.reload_eq_load
  snapshot_later := fun _ _ => h.snapshot_later

/-- The life cycle of a router, over all runs that begin with a new one, whatever becomes of the
file tree and of the working directory: after the last of the given actions, and so after each of
them, it is that of the tables that were installed; and every table in an answer can be asked for
ever after. -/
theorem lifeCycle_run (o : Options) (router : Router) (hrouter : Router.make o = .ok router)
    (host : Host) (tree : Disk.Tree) (actions : List Action) (answers : List Answer) (s : Session)
    (hrun : run ⟨host, tree, router, []⟩ actions = (answers, s)) :
    s.LifeCycle (installedTables actions answers) ∧
      ∀ table, .table table ∈ answers → ∃ i : Nat, s.snapshots[i]? = some table := by
  obtain ⟨htracks, hanswers⟩ := (tracks_of_make hrouter host tree).run actions
  rw [hrun, List.nil_append] at htracks hanswers
  refine ⟨htracks.lifeCycle, ?_⟩
  intro table htable
  have hmem : table ∈ s.snapshots := by
    rw [htracks.snapshots]
    exact hanswers table htable
  exact List.getElem?_of_mem hmem

/-- A router with the options that hold by default. -/
def plainRouter : Router := { options := {}, valid := by decide }

def homeRoute : Route where
  source := .ofText "/app/index.js".toList
  canonical := ['/']
  segments := [.literal []]
  layout := none
  segments_eq := by decide

def homeTable : Table := ⟨[homeRoute], some (.ofText "/app/".toList)⟩

/-- A session whose tree declares the route of `homeTable`. -/
def homeSession : Session :=
  ⟨.plain, Disk.Tree.empty.addFile (.ofText "/app/index.js".toList), plainRouter, []⟩

/-- The directory of the route of `homeTable`, as a working directory. -/
def homeDirectory : Disk.WorkingDirectory := ⟨[Utf8.encode "app".toList], by decide⟩

/-- A load from the working directory, and a reload from another one when the directory has become
one that cannot be built from. -/
def homeActions : List Action :=
  [.enter homeDirectory, .load (.ofText "./".toList), .enter .root,
    .addFile (.ofText "/app/[/index.js".toList), .reload]

/-- After the reload has failed, the session is still the one of the table that was loaded. -/
theorem lifeCycle_run_failedReload :
    (homeSession.run homeActions).2.LifeCycle [homeTable] ∧
      ∃ i : Nat, (homeSession.run homeActions).2.snapshots[i]? = some homeTable := by
  have htables : installedTables homeActions (homeSession.run homeActions).1 = [homeTable] := by cbv
  have hloaded : (homeSession.run homeActions).1[1]? = some (.table homeTable) := by cbv
  obtain ⟨hcycle, hanswers⟩ :=
    lifeCycle_run {} plainRouter rfl .plain homeSession.tree homeActions _ _ rfl
  refine ⟨?_, hanswers homeTable (List.mem_of_getElem? hloaded)⟩
  rw [← htables]
  exact hcycle

end Session

end FileRouting
