import FileRouting.Proofs.LayoutEntries
import FileRouting.Proofs.Parents

/-! # The two upward scans

A scan of a path inside a bound goes the same way whether it looks for all accepted entries or for
the nearest one: through the directories below the bound, and then to the bound itself
(`Upward.Way`).  The accepted entries of each directory on this way are a level
(`Upward.IsLevel`).  From the levels both results follow, those of the bound counting for the
nearest entry only, when no other level has any (`Upward.all_and_nearest_of_inside`).

Nothing is assumed about what is accepted, and paths may be relative. -/

namespace FileRouting

namespace Upward

open Disk (Path Tree Location)

variable {t : Tree} {accepts : Text → Bool} {source stop : Path}

/-! ## The way -/

/-- How a scan with the given bound goes through directories: `way` are the directories below the
bound that come first, and behind them the bound is met in the form that it has there, or the
directories end. -/
inductive Way (stop : Path) : List Path → List Path → Option Path → Prop where
  | ended : Way stop [] [] none
  | reached {directory : Path} (above : List Path) (hsame : directory.Same stop) :
      Way stop (directory :: above) [] (some directory)
  | passed {directory : Path} {above way : List Path} {bound : Option Path}
      (hinside : directory.StartsWith stop) (hbelow : ¬ directory.Same stop)
      (hway : Way stop above way bound) : Way stop (directory :: above) (directory :: way) bound

theorem Way.mem {directories way : List Path} {bound : Option Path} {directory : Path}
    (h : Way stop directories way bound) (hdirectory : directory ∈ way) :
    directory ∈ directories ∧ directory.StartsWith stop ∧ ¬ directory.Same stop := by
  induction h with
  | ended => cases hdirectory
  | reached above hsame => cases hdirectory
  | passed hinside hbelow _ ih =>
      rcases List.mem_cons.1 hdirectory with rfl | hdirectory
      · exact ⟨List.mem_cons_self .., hinside, hbelow⟩
      · obtain ⟨hmem, hplace⟩ := ih hdirectory
        exact ⟨List.mem_cons_of_mem _ hmem, hplace⟩

/-- From inside a bound, the way up is one to the bound.  It is missed only if it is the empty
path. -/
theorem exists_way {parent : Path} (hparent : source.parent? = some parent)
    (hinside : parent.StartsWith stop) :
    ∃ way bound, Way stop source.ancestors way bound ∧ (bound = none → stop.components = []) := by
  rw [Path.ancestors_of_parent? hparent]
  clear hparent
  fun_induction Path.ancestors parent with
  | case1 p hnone =>
      by_cases hsame : p.Same stop
      · exact ⟨[], some p, .reached [] hsame, fun hnone => absurd hnone (Option.some_ne_none p)⟩
      · have hempty := Path.components_eq_nil_of_startsWith hnone hinside hsame
        exact ⟨[p], none, .passed hinside hsame .ended, fun _ => hempty⟩
  | case2 p q hq _ ih =>
      by_cases hsame : p.Same stop
      · exact ⟨[], some p, .reached _ hsame, fun hnone => absurd hnone (Option.some_ne_none p)⟩
      · obtain ⟨way, bound, hway, hmissed⟩ := ih (Path.startsWith_parent? hq hinside hsame)
        exact ⟨p :: way, bound, .passed hinside hsame hway, hmissed⟩

/-! ## Scans -/

theorem exists_acceptedEntries (accepts : Text → Bool) {directory : Path}
    (h : ∃ names, t.list directory = .ok names) :
    ∃ entries, acceptedEntries t accepts directory = .ok entries := by
  obtain ⟨names, hnames⟩ := h
  rw [acceptedEntries, hnames]
  exact ⟨_, rfl⟩

theorem isBoundary_eq_true {directory : Path} (hsame : directory.Same stop) :
    isBoundary stop directory = true := by
  simp [isBoundary, hsame]

variable {directories way : List Path} {bound : Option Path} {levels : List (List Path)}

theorem allIn_of_way (h : Way stop directories way bound)
    (hlevels : List.Forall₂ (acceptedEntries t accepts · = .ok ·) way levels) (onePerLevel : Bool) :
    allIn t accepts stop onePerLevel directories =
      .ok (levels.flatMap fun entries => if onePerLevel then entries.take 1 else entries) := by
  induction h generalizing levels with
  | ended =>
      cases hlevels
      rfl
  | reached above hsame =>
      cases hlevels
      rw [allIn, if_pos (isBoundary_eq_true hsame)]
      rfl
  | passed hinside hbelow _ ih =>
      cases hlevels with
      | cons hentries hothers =>
          rw [allIn, isBoundary_eq_false_iff.2 ⟨hinside, hbelow⟩, if_neg Bool.false_ne_true,
            hentries, ih hothers]
          rfl

/-- What a look into the bound gives, if the way comes to it. -/
def atBound (t : Tree) (accepts : Text → Bool) :
    Option Path → Except DiscoveryError (Option Path)
  | none => .ok none
  | some directory => (acceptedEntries t accepts directory).map List.head?

theorem nearestIn_of_way (h : Way stop directories way bound)
    (hlevels : List.Forall₂ (acceptedEntries t accepts · = .ok ·) way levels) :
    nearestIn t accepts stop directories =
      match (levels.filterMap List.head?).head? with
      | some p => .ok (some p)
      | none => atBound t accepts bound := by
  induction h generalizing levels with
  | ended =>
      cases hlevels
      rfl
  | @reached directory above hsame =>
      cases hlevels
      simp only [nearestIn, isBoundary_eq_true hsame, if_true, List.filterMap_nil, List.head?_nil,
        atBound]
      rcases acceptedEntries t accepts directory with e | (_ | ⟨entry, others⟩) <;> rfl
  | passed hinside hbelow _ ih =>
      cases hlevels with
      | @cons _ entries _ _ hentries hothers =>
          have hbound := isBoundary_eq_false_iff.2 ⟨hinside, hbelow⟩
          rw [nearestIn, hentries, List.filterMap_cons]
          cases entries with
          | nil => simpa [hbound] using ih hothers
          | cons entry others => rfl

/-- Inside a bound, both scans give what the levels on the way give: all of them one after the
other, the first entry of each, and the first of these.  The nearest entry is looked for in the
bound when the levels are empty. -/
theorem all_and_nearest_of_inside (t : Tree) (accepts : Text → Bool) (source stop parent : Path)
    (hparent : source.parent? = some parent) (hinside : parent.StartsWith stop)
    (hreads : ∀ directory ∈ source.ancestors, directory.StartsWith stop → ¬ directory.Same stop →
      ∃ names, t.list directory = .ok names) :
    ∃ way bound levels, Way stop source.ancestors way bound ∧
      (bound = none → stop.components = []) ∧
      List.Forall₂ (IsLevel t accepts) way levels ∧
      all t accepts source stop false = .ok levels.flatten ∧
      all t accepts source stop true = .ok (levels.filterMap List.head?) ∧
      (levels.filterMap List.head? ≠ [] →
        nearest t accepts source stop = .ok (levels.filterMap List.head?).head?) ∧
      (levels.filterMap List.head? = [] →
        (bound = none → nearest t accepts source stop = .ok none) ∧
        ∀ directory ∈ bound, (∃ names, t.list directory = .ok names) →
          ∃ entries, IsLevel t accepts directory entries ∧
            nearest t accepts source stop = .ok entries.head?) := by
  obtain ⟨way, bound, hway, hmissed⟩ := exists_way hparent hinside
  have hread : ∀ directory ∈ way, ∃ entries, acceptedEntries t accepts directory = .ok entries := by
    intro directory hdirectory
    obtain ⟨hmem, hstarts, hbelow⟩ := hway.mem hdirectory
    exact exists_acceptedEntries accepts (hreads directory hmem hstarts hbelow)
  obtain ⟨levels, hlevels⟩ := exists_mapM_eq_ok_iff.2 hread
  rw [mapM_eq_ok_iff] at hlevels
  have hnearest := nearestIn_of_way hway hlevels
  refine ⟨way, bound, levels, hway, hmissed, hlevels.imp fun _ _ => isLevel_of_acceptedEntries,
    ?_, ?_, ?_, ?_⟩
  · rw [all, allIn_of_way hway hlevels]
    exact congrArg Except.ok List.flatMap_id
  · rw [all, allIn_of_way hway hlevels, List.filterMap_eq_flatMap_toList]
    simp [List.take_one]
  · intro hne
    obtain ⟨p, others, hfirsts⟩ := List.exists_cons_of_ne_nil hne
    rw [nearest, hnearest, hfirsts]
    rfl
  · intro hnil
    rw [nearest, hnearest, hnil]
    refine ⟨?_, ?_⟩
    · rintro rfl
      rfl
    · rintro directory hdirectory hnames
      obtain ⟨entries, hentries⟩ := exists_acceptedEntries accepts hnames
      obtain rfl := Option.mem_def.1 hdirectory
      refine ⟨entries, isLevel_of_acceptedEntries hentries, ?_⟩
      rw [List.head?_nil, atBound, hentries]
      rfl

/-- A tree with layouts on several levels, two of them in one directory. -/
def nestedTree : Tree :=
  ["/app/layout.tsx", "/app/a/layout.tsx", "/app/a/layout.js", "/app/a/b/layout.ts",
    "/app/a/b/c/index.tsx"].foldl (fun t path => t.addFile (.ofText path.toList)) .empty

def nestedFile : Path := .ofText "/app/a/b/c/index.tsx".toList

def nestedBound : Path := .ofText "/app".toList

theorem all_and_nearest_of_inside_nested :
    nestedFile.parent? = some (.ofText "/app/a/b/c".toList) ∧
    Path.StartsWith (.ofText "/app/a/b/c".toList) nestedBound ∧
    (∀ directory ∈ nestedFile.ancestors, directory.StartsWith nestedBound →
      ¬ directory.Same nestedBound → ∃ names, nestedTree.list directory = .ok names) ∧
    ∃ levels : List (List Path),
      all nestedTree (Options.isLayoutPath {}) nestedFile nestedBound false = .ok levels.flatten ∧
      levels.flatten = ["/app/a/b/layout.ts", "/app/a/layout.js", "/app/a/layout.tsx"].map
        (.ofText ·.toList) ∧
      all nestedTree (Options.isLayoutPath {}) nestedFile nestedBound true =
        .ok (levels.filterMap List.head?) ∧
      levels.filterMap List.head? =
        ["/app/a/b/layout.ts", "/app/a/layout.js"].map (.ofText ·.toList) ∧
      nearest nestedTree (Options.isLayoutPath {}) nestedFile nestedBound =
        .ok (levels.filterMap List.head?).head? := by
  have hparent : nestedFile.parent? = some (.ofText "/app/a/b/c".toList) := by decide +kernel
  have hinside : Path.StartsWith (.ofText "/app/a/b/c".toList) nestedBound := by decide +kernel
  have hancestors : nestedFile.ancestors =
      ["/app/a/b/c", "/app/a/b", "/app/a", "/app", "/"].map (.ofText ·.toList) := by cbv
  have hlists : ∀ path ∈ ["/app/a/b/c", "/app/a/b", "/app/a", "/app", "/"],
      (nestedTree.list (.ofText path.toList)).isOk := by decide +kernel
  have hreads : ∀ directory ∈ nestedFile.ancestors, directory.StartsWith nestedBound →
      ¬ directory.Same nestedBound → ∃ names, nestedTree.list directory = .ok names := by
    rw [hancestors]
    intro directory hdirectory _ _
    obtain ⟨path, hpath, rfl⟩ := List.mem_map.1 hdirectory
    have hlist := hlists path hpath
    cases hnames : nestedTree.list (.ofText path.toList) with
    | ok names => exact ⟨names, rfl⟩
    | error e =>
        rw [hnames] at hlist
        cases hlist
  have hall : all nestedTree (Options.isLayoutPath {}) nestedFile nestedBound false =
      .ok (["/app/a/b/layout.ts", "/app/a/layout.js", "/app/a/layout.tsx"].map
        (.ofText ·.toList)) := by cbv
  have hone : all nestedTree (Options.isLayoutPath {}) nestedFile nestedBound true =
      .ok (["/app/a/b/layout.ts", "/app/a/layout.js"].map (.ofText ·.toList)) := by cbv
  obtain ⟨_, _, levels, _, _, _, hflat, hfirsts, hfound, _⟩ :=
    all_and_nearest_of_inside nestedTree (Options.isLayoutPath {}) _ _ _ hparent hinside hreads
  have hflatten := Except.ok.inj (hflat.symm.trans hall)
  have hheads := Except.ok.inj (hfirsts.symm.trans hone)
  exact ⟨hparent, hinside, hreads, levels, hflat, hflatten, hfirsts, hheads,
    hfound (by simp [hheads])⟩

end Upward

end FileRouting
