import FileRouting.Proofs.Descent
import FileRouting.Proofs.Lists

/-! # Following paths into directories

Where a path leads is decided by its parts: the dots and slashes that it has besides are steps on
the spot (`findDirectory_of_parts`).  A path that leads to a directory can therefore be followed
further, to an entry of that (`follow_child`) and name by name into the directories below, whatever
symbolic links it leads through itself (`Walkable.findDirectory_descend`). -/

namespace FileRouting.Disk

theorem Path.filter_steps (p : Path) : p.steps.filter (· ≠ here) = p.parts := by
  have hend : (if p.endsWithSlash then [here] else []).filter (· ≠ here) = [] := by
    split <;> rfl
  rw [steps, List.filter_append, hend, List.append_nil, List.filter_filter, parts]
  apply List.filter_congr
  intro piece _
  simp [isIdle, Bool.and_comm]

/-- The path of an entry is followed by the steps of its directory, up to dots, and its name. -/
theorem Path.exists_steps_child {p : Path} {n : Bytes} (h : p.isAbsolute) (hn : IsName n) :
    ∃ names, (p.child n).steps = names ++ [n] ∧
      p.steps.filter (· ≠ here) = names.filter (· ≠ here) := by
  obtain ⟨body, idle, hpieces, hidle, hbytes, hchild⟩ := pieces_child h hn.2.2.1
  have hbehind : (p.child n).bytes = (slashed body ++ [slash]) ++ n := by
    rw [hbytes]
    simp
  have hend := endsWithSlash_of_name hbehind hn.1 hn.2.2.1
  refine ⟨body.filter (· ≠ []), ?_, ?_⟩
  · rw [steps, hchild, hend, List.filter_cons_of_neg (by simp), List.filter_append,
      List.filter_cons_of_pos (by simpa using hn.1)]
    simp
  · rw [p.filter_steps, parts_of_pieces hpieces, List.filter_append, filter_of_idle hidle,
      List.append_nil, List.filter_filter]
    apply List.filter_congr
    intro piece _
    simp [isIdle, Bool.and_comm]

namespace Tree

variable {t : Tree} {top location next : Location} {e : Entry}

/-! ## Entries -/

theorem mem_entries_iff :
    (location, e) ∈ t.entries ↔ location ≠ [] ∧ t.entry? location = some e := by
  constructor
  · intro h
    obtain ⟨name, parent, rfl, _⟩ := t.wellFormed.named _ h
    exact ⟨by simp, lookup_eq_some_of_mem t.wellFormed.nodup h⟩
  · rintro ⟨hne, h⟩
    obtain ⟨name, parent, rfl⟩ := List.exists_cons_of_ne_nil hne
    obtain ⟨before, behind, hentries, _⟩ := List.lookup_eq_some_iff.1 h
    simp [hentries]

theorem of_entry?_cons {name : Bytes} (h : t.entry? (name :: location) = some e) :
    IsName name ∧ t.entry? location = some .directory := by
  have hmem : (name :: location, e) ∈ t.entries := mem_entries_iff.2 ⟨by simp, h⟩
  obtain ⟨name', parent, heq, hname⟩ := t.wellFormed.named _ hmem
  cases heq
  exact ⟨hname, t.wellFormed.parented _ hmem⟩

theorem isName_of_entry?_eq_some {names : List Bytes} (h : t.entry? (names ++ top) = some e) :
    ∀ name ∈ names, IsName name := by
  induction names generalizing e with
  | nil => simp
  | cons name names ih =>
      obtain ⟨hname, hdirectory⟩ := of_entry?_cons h
      exact List.forall_mem_cons.2 ⟨hname, ih hdirectory⟩

/-! ## Steps on the spot -/

variable {onLink : Location → Path → List Bytes → Except LookupError Target}

/-- A path that leads to an entry does so step by step. -/
theorem followNames_cons_eq_found_iff {name : Bytes} {names : List Bytes} :
    t.followNames true onLink location (name :: names) = .ok (.found next) ↔
      t.isDirectoryAt location ∧
        if name = here then t.followNames true onLink location names = .ok (.found next)
        else if name = above then t.followNames true onLink location.tail names = .ok (.found next)
        else ∃ e, t.entry? (name :: location) = some e ∧ match e with
          | .link target => onLink location target names = .ok (.found next)
          | _ => t.followNames true onLink (name :: location) names = .ok (.found next) := by
  rw [followNames]
  by_cases hdirectory : t.isDirectoryAt location
  case neg => simp [hdirectory]
  simp only [hdirectory, Bool.not_true, Bool.false_eq_true, if_false, true_and]
  by_cases hhere : name = here
  · rw [if_pos hhere, if_pos hhere]
  by_cases habove : name = above
  · rw [if_neg hhere, if_neg hhere, if_pos habove, if_pos habove]
  rw [if_neg hhere, if_neg hhere, if_neg habove, if_neg habove]
  cases t.entry? (name :: location) with
  | none =>
      simp only [reduceCtorEq, false_and, exists_false, iff_false]
      split_ifs <;> simp
  | some e => cases e <;> simp

theorem followNames_idle (h : t.isDirectoryAt location) {idle : List Bytes}
    (hidle : ∀ name ∈ idle, name = here) (names : List Bytes) :
    t.followNames true onLink location (idle ++ names) =
      t.followNames true onLink location names := by
  induction idle with
  | nil => rfl
  | cons name idle ih =>
      rw [List.forall_mem_cons] at hidle
      rw [List.cons_append, followNames, hidle.1, h]
      exact ih hidle.2

theorem followNames_congr (hnext : t.isDirectoryAt next)
    (hlink : ∀ location target names others, names.filter (· ≠ here) = others.filter (· ≠ here) →
      onLink location target names = .ok (.found next) →
        onLink location target others = .ok (.found next))
    {names others : List Bytes} (hsame : names.filter (· ≠ here) = others.filter (· ≠ here))
    (h : t.followNames true onLink location names = .ok (.found next)) :
    t.followNames true onLink location others = .ok (.found next) := by
  induction names generalizing location others with
  | nil =>
      cases h
      have hidle : ∀ name ∈ others, name = here := by
        simpa using List.filter_eq_nil_iff.1 hsame.symm
      rw [← List.append_nil others, followNames_idle hnext hidle]
      rfl
  | cons name names ih =>
      obtain ⟨hdirectory, hstep⟩ := followNames_cons_eq_found_iff.1 h
      by_cases hhere : name = here
      · rw [if_pos hhere] at hstep
        exact ih (by simpa [hhere] using hsame) hstep
      -- the name stands in both lists, behind dots in the other one
      rw [List.filter_cons_of_pos (by simpa using hhere), eq_comm, List.filter_eq_cons_iff] at hsame
      obtain ⟨idle, behind, rfl, hidle, _, hbehind⟩ := hsame
      rw [followNames_idle hdirectory (by simpa using hidle), followNames_cons_eq_found_iff]
      refine ⟨hdirectory, ?_⟩
      rw [if_neg hhere] at hstep ⊢
      split_ifs at hstep ⊢ with habove
      · exact ih hbehind.symm hstep
      obtain ⟨e, hentry, hstep⟩ := hstep
      refine ⟨e, hentry, ?_⟩
      cases e with
      | link target => exact hlink _ _ _ _ hbehind.symm hstep
      | file | directory => exact ih hbehind.symm hstep

theorem follow_congr (hnext : t.isDirectoryAt next) {limit : Nat} {names others : List Bytes}
    (hsame : names.filter (· ≠ here) = others.filter (· ≠ here))
    (h : t.follow true limit location names = .ok (.found next)) :
    t.follow true limit location others = .ok (.found next) := by
  induction limit generalizing location names others with
  | zero => exact followNames_congr hnext (fun _ _ _ _ _ hlink => by cases hlink) hsame h
  | succ limit ih =>
      -- behind a link, the names of its target stand in front of both lists
      refine followNames_congr hnext ?_ hsame h
      intro _ target _ _ hbehind hlink
      exact ih (by rw [List.filter_append, List.filter_append, hbehind]) hlink

/-! ## One step further -/

/-- Behind the names that lead to a directory, a further name leads to the entry that it is the name
of, unless that is a symbolic link to be followed. -/
theorem followNames_concat {last : Bool}
    {onLink' : Location → Path → List Bytes → Except LookupError Target} {name : Bytes}
    (hentry : t.entry? (name :: next) = some e) (hlast : last = true → ∀ target, e ≠ .link target)
    (hlink : ∀ location target names, onLink location target names = .ok (.found next) →
      onLink' location target (names ++ [name]) = .ok (.found (name :: next)))
    {names : List Bytes} (h : t.followNames true onLink location names = .ok (.found next)) :
    t.followNames last onLink' location (names ++ [name]) = .ok (.found (name :: next)) := by
  obtain ⟨hname, hnext⟩ := of_entry?_cons hentry
  -- on the names that lead to the directory; the new name only shows where they end
  induction names generalizing location with
  | nil =>
      cases h
      rw [List.nil_append, followNames, isDirectoryAt, hnext, if_neg hname.2.2.2.2.1,
        if_neg hname.2.2.2.2.2, hentry]
      cases e with
      | link target =>
          have hkept : last = false := by
            rw [← Bool.not_eq_true]
            exact fun hfollow => hlast hfollow target rfl
          rw [hkept]
          rfl
      | file | directory => rfl
  | cons other names ih =>
      obtain ⟨hdirectory, hstep⟩ := followNames_cons_eq_found_iff.1 h
      rw [List.cons_append, followNames, hdirectory]
      simp only [Bool.not_true, Bool.false_eq_true, if_false]
      by_cases hhere : other = here
      · rw [if_pos hhere] at hstep ⊢
        exact ih hstep
      rw [if_neg hhere] at hstep ⊢
      by_cases habove : other = above
      · rw [if_pos habove] at hstep ⊢
        exact ih hstep
      rw [if_neg habove] at hstep ⊢
      obtain ⟨found, hfound, hstep⟩ := hstep
      rw [hfound]
      cases found with
      | link target =>
          -- the link is not the last entry on the way, so it is followed
          have hmore : decide (names ++ [name] = []) = false := by simp
          simp only [hmore, Bool.false_and, Bool.false_eq_true, if_false]
          exact hlink _ _ _ hstep
      | file | directory => exact ih hstep

theorem follow_concat {last : Bool} {name : Bytes} (hentry : t.entry? (name :: next) = some e)
    (hlast : last = true → ∀ target, e ≠ .link target) {limit : Nat} {names : List Bytes}
    (h : t.follow true limit location names = .ok (.found next)) :
    t.follow last limit location (names ++ [name]) = .ok (.found (name :: next)) := by
  induction limit generalizing location names with
  | zero => exact followNames_concat hentry hlast (fun _ _ _ hlink => by cases hlink) h
  | succ limit ih =>
      refine followNames_concat hentry hlast ?_ h
      intro _ target behind hlink
      rw [← List.append_assoc]
      exact ih hlink

/-! ## Directories -/

theorem findDirectory_eq_ok_iff {p : Path} :
    t.findDirectory p = .ok location ↔ p.fault? = none ∧
      t.follow true linkLimit [] p.steps = .ok (.found location) ∧ t.isDirectoryAt location := by
  rw [findDirectory, find, locate]
  cases p.fault? with
  | some e => simp
  | none =>
      simp only [true_and]
      cases t.follow true linkLimit [] p.steps with
      | error e => simp
      | ok target =>
          cases target with
          | free parent name => simp
          | found next =>
              simp only [Except.ok.injEq, Target.found.injEq]
              constructor
              · intro h
                split at h
                · next hnext =>
                  cases h
                  exact ⟨rfl, hnext⟩
                · cases h
              · rintro ⟨rfl, hnext⟩
                rw [if_pos hnext]

theorem findDirectory_of_parts {p q : Path} (hparts : p.parts = q.parts) (hq : q.fault? = none)
    (h : t.findDirectory p = .ok location) : t.findDirectory q = .ok location := by
  rw [findDirectory_eq_ok_iff] at h ⊢
  refine ⟨hq, follow_congr h.2.2 ?_ h.2.1, h.2.2⟩
  rw [p.filter_steps, q.filter_steps, hparts]

/-- The path of an entry leads to it, if its directory is found by the path of that. -/
theorem follow_child {p : Path} {name : Bytes} {last : Bool} (hp : p.isAbsolute)
    (hentry : t.entry? (name :: location) = some e)
    (hlast : last = true → ∀ target, e ≠ .link target)
    (h : t.findDirectory p = .ok location) :
    t.follow last linkLimit [] (p.child name).steps = .ok (.found (name :: location)) := by
  obtain ⟨_, hfollow, hdirectory⟩ := findDirectory_eq_ok_iff.1 h
  obtain ⟨names, hsteps, hsame⟩ := Path.exists_steps_child hp (of_entry?_cons hentry).1
  rw [hsteps]
  exact follow_concat hentry hlast (follow_congr hdirectory hsame hfollow)

theorem findDirectory_child {p : Path} {name : Bytes} (hp : p.isAbsolute)
    (hentry : t.entry? (name :: location) = some .directory) (hfault : (p.child name).fault? = none)
    (h : t.findDirectory p = .ok location) :
    t.findDirectory (p.child name) = .ok (name :: location) :=
  findDirectory_eq_ok_iff.2 ⟨hfault, follow_child hp hentry (fun _ _ heq => by cases heq) h,
    by simp [isDirectoryAt, hentry]⟩

/-- Whether an absolute path leads to a directory, so that all directories below can be looked up by
their paths. -/
structure Walkable (t : Tree) (root : Path) (top : Location) : Prop where
  absolute : root.isAbsolute
  leads : t.findDirectory root = .ok top
  clear : ∀ names, t.entry? (names ++ top) = some .directory → (root.descend names).fault? = none

/-- Below a walkable directory, its path leads to each directory by the names of that. -/
theorem Walkable.findDirectory_descend {root : Path} (h : t.Walkable root top) {names : List Bytes}
    (hnames : t.entry? (names ++ top) = some .directory) :
    t.findDirectory (root.descend names) = .ok (names ++ top) := by
  induction names with
  | nil => exact h.leads
  | cons name names ih =>
      exact findDirectory_child (Path.isAbsolute_descend h.absolute names) hnames (h.clear _ hnames)
        (ih (of_entry?_cons hnames).2)

/-- The path that is met on the way up leads to the same directory. -/
theorem findDirectory_trimmed {root : Path} (hroot : root.isAbsolute)
    (h : t.findDirectory root = .ok location) : t.findDirectory root.trimmed = .ok location := by
  have hfault := (findDirectory_eq_ok_iff.1 h).1
  exact findDirectory_of_parts (Path.parts_trimmed hroot).symm (Path.fault?_trimmed hroot hfault) h

end Tree

end FileRouting.Disk
