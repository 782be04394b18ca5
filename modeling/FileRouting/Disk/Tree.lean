import FileRouting.Disk.Path

/-!
# File trees

A file tree is a finite list of entries: files, directories and symbolic links, each at its
location. A location lists names from the entry up to the root directory, so that the location of
the parent is the tail. Every tree is well formed: names are proper names, each location occurs
once, and what an entry lies in is a directory.

* `Tree.entry?` looks up a location, where the root directory is always there;
* `Tree.insert` adds an entry and `Tree.remove` takes out an entry with all below it; both keep
  trees well formed.
-/

namespace FileRouting

namespace Disk

/-- The location of an entry: its name, the name of the directory it lies in, and so on up to the
root directory, which has the empty location. -/
abbrev Location := List Bytes

inductive Entry where
  | file
  | directory
  | link (target : Path)
  deriving DecidableEq, Repr

def IsName (n : Bytes) : Prop :=
  n ≠ [] ∧ n.length ≤ nameLimit ∧ slash ∉ n ∧ 0 ∉ n ∧ n ≠ here ∧ n ≠ above

instance (n : Bytes) : Decidable (IsName n) :=
  inferInstanceAs (Decidable (_ ∧ _))

/-- What is at a location, for the entries of a tree. -/
def entryAt? (entries : List (Location × Entry)) : Location → Option Entry
  | [] => some .directory
  | location => entries.lookup location

/-- What holds of the entries of a tree. -/
structure WellFormed (entries : List (Location × Entry)) : Prop where
  named : ∀ x ∈ entries, ∃ name parent, x.1 = name :: parent ∧ IsName name
  nodup : (entries.map Prod.fst).Nodup
  parented : ∀ x ∈ entries, entryAt? entries x.1.tail = some .directory

structure Tree where
  entries : List (Location × Entry)
  wellFormed : WellFormed entries

namespace Tree

def entry? (t : Tree) (location : Location) : Option Entry := entryAt? t.entries location

def isDirectoryAt (t : Tree) (location : Location) : Bool := t.entry? location = some .directory

def empty : Tree := ⟨[], ⟨by simp, by simp, by simp⟩⟩

@[simp] theorem entry?_root (t : Tree) : t.entry? [] = some .directory := rfl

def children (t : Tree) (directory : Location) : List Bytes :=
  t.entries.filterMap fun x =>
    match x.1 with
    | [] => none
    | name :: parent => if parent = directory then some name else none

/-! ## Adding an entry -/

theorem entryAt?_cons_of_some {entries : List (Location × Entry)} {location other : Location}
    {e found : Entry} (hfree : entryAt? entries location = none)
    (h : entryAt? entries other = some found) :
    entryAt? ((location, e) :: entries) other = some found := by
  cases other with
  | nil => exact h
  | cons name parent =>
      have hne : (name :: parent) ≠ location := by
        rintro rfl
        rw [hfree] at h
        simp at h
      simp only [entryAt?, List.lookup_cons] at h ⊢
      rw [beq_false_of_ne hne]
      exact h

theorem not_mem_of_entryAt?_eq_none {entries : List (Location × Entry)} {location : Location}
    (h : entryAt? entries location = none) : location ∉ entries.map Prod.fst := by
  intro hmem
  obtain ⟨x, hx, rfl⟩ := List.mem_map.1 hmem
  cases hlocation : x.1 with
  | nil => simp [hlocation, entryAt?] at h
  | cons name parent =>
      rw [hlocation] at h
      have hnone := List.lookup_eq_none_iff.1 h x hx
      simp [hlocation] at hnone

theorem wellFormed_insert {entries : List (Location × Entry)} (h : WellFormed entries)
    {parent : Location} {name : Bytes} (hname : IsName name)
    (hparent : entryAt? entries parent = some .directory)
    (hfree : entryAt? entries (name :: parent) = none) (e : Entry) :
    WellFormed ((name :: parent, e) :: entries) where
  named := by
    intro x hx
    rcases List.mem_cons.1 hx with rfl | hx
    · exact ⟨name, parent, rfl, hname⟩
    · exact h.named x hx
  nodup := by
    rw [List.map_cons, List.nodup_cons]
    exact ⟨not_mem_of_entryAt?_eq_none hfree, h.nodup⟩
  parented := by
    intro x hx
    rcases List.mem_cons.1 hx with rfl | hx
    · exact entryAt?_cons_of_some hfree hparent
    · exact entryAt?_cons_of_some hfree (h.parented x hx)

/-- The tree with a new entry in a directory; nothing changes when there is no such directory, when
the name is taken, or when it is no proper name. -/
def insert (t : Tree) (parent : Location) (name : Bytes) (e : Entry) : Tree :=
  if h : IsName name ∧ entryAt? t.entries parent = some .directory ∧
      entryAt? t.entries (name :: parent) = none then
    ⟨(name :: parent, e) :: t.entries, wellFormed_insert t.wellFormed h.1 h.2.1 h.2.2 e⟩
  else t

/-! ## Removing an entry -/

theorem entryAt?_filter {entries : List (Location × Entry)} {f : Location → Bool}
    {location : Location} (h : f location = true) :
    entryAt? (entries.filter fun x => f x.1) location = entryAt? entries location := by
  cases location with
  | nil => rfl
  | cons name parent =>
      simp only [entryAt?]
      induction entries with
      | nil => rfl
      | cons x entries ih =>
          obtain ⟨at', e⟩ := x
          rw [List.filter_cons, List.lookup_cons]
          by_cases hx : f at'
          · rw [if_pos hx, List.lookup_cons, ih]
          · have hne : (name :: parent) ≠ at' := by
              rintro rfl
              exact hx h
            rw [if_neg hx, beq_false_of_ne hne]
            exact ih

/-- Whether a location is outside the subtree of another one. -/
def isOutside (top location : Location) : Bool := ¬ top <:+ location

theorem isOutside_tail {top location : Location} (h : isOutside top location = true) :
    isOutside top location.tail = true := by
  simp only [isOutside, decide_not, Bool.not_eq_true', decide_eq_false_iff_not] at h ⊢
  exact fun hsuffix => h (hsuffix.trans (List.tail_suffix location))

theorem wellFormed_remove {entries : List (Location × Entry)} (h : WellFormed entries)
    (top : Location) : WellFormed (entries.filter fun x => isOutside top x.1) where
  named := fun x hx => h.named x (List.mem_filter.1 hx).1
  nodup := h.nodup.sublist (List.filter_sublist.map Prod.fst)
  parented := by
    intro x hx
    obtain ⟨hmem, houtside⟩ := List.mem_filter.1 hx
    rw [entryAt?_filter (isOutside_tail houtside)]
    exact h.parented x hmem

/-- The tree without what is at a location or below it. -/
def remove (t : Tree) (top : Location) : Tree :=
  ⟨t.entries.filter fun x => isOutside top x.1, wellFormed_remove t.wellFormed top⟩

end Tree

end Disk

end FileRouting
