import FileRouting.Proofs.LogicalPaths
import Mathlib.Data.List.InsertIdx
import Mathlib.Data.List.TakeWhile

/-! # What counts of a directory

The pieces of a directory in front of the first one that is neither empty nor a dot are its start,
which is dropped.  Behind it, the logical path shows all components but the groups
(`LogicalPath.shown`), and it is in one-to-one correspondence with what it shows
(`ofDirectory_canonicalForm`).

A group shows nowhere, but it ends the start.  Put among the pieces of the start, it uncovers the
dots behind it (`shown_insertPart`), and it leaves the logical path alone if there are none. -/

namespace FileRouting

/-! ## One more element -/

theorem filter_insertIdx_of_neg {α : Type} {f : α → Bool} {a : α} (h : ¬ f a) (list : List α)
    (i : Nat) : (list.insertIdx i a).filter f = list.filter f := by
  induction list generalizing i with
  | nil => cases i <;> simp [h]
  | cons b list ih =>
      cases i with
      | zero => simp [h]
      | succ i => rw [List.insertIdx_succ_cons, List.filter_cons, List.filter_cons, ih]

/-- An element that is neither dropped nor kept ends what is dropped. -/
theorem filter_dropWhile_insertIdx {α : Type} {idle keep : α → Bool} {a : α} (hidle : ¬ idle a)
    (hkeep : ¬ keep a) (list : List α) (i : Nat) :
    ((list.insertIdx i a).dropWhile idle).filter keep =
      ((list.takeWhile idle).drop i).filter keep ++ (list.dropWhile idle).filter keep := by
  induction list generalizing i with
  | nil => cases i <;> simp [hidle, hkeep]
  | cons b list ih =>
      cases i with
      | zero =>
          rw [List.insertIdx_zero, List.dropWhile_cons_of_neg hidle, List.filter_cons_of_neg hkeep,
            List.drop_zero, ← List.filter_append, List.takeWhile_append_dropWhile]
      | succ i =>
          rw [List.insertIdx_succ_cons]
          by_cases hb : idle b
          · rw [List.dropWhile_cons_of_pos hb, List.takeWhile_cons_of_pos hb, List.drop_succ_cons,
              List.dropWhile_cons_of_pos hb, ih]
          · rw [List.dropWhile_cons_of_neg hb, List.takeWhile_cons_of_neg hb,
              List.dropWhile_cons_of_neg hb, List.filter_cons, List.filter_cons,
              filter_insertIdx_of_neg hkeep, List.drop_nil, List.filter_nil, List.nil_append]

/-! ## Written parts -/

namespace Text

theorem eq_append_slashed_of_pieces {t first : Text} {others : List Text}
    (h : t.pieces = first :: others) : t = first ++ slashed others := by
  have hslashed := slashed_pieces t
  rw [h, slashed_cons, List.cons_append, List.cons.injEq] at hslashed
  exact hslashed.2.symm

/-- What stands behind a slash of a text that is written from parts is written from some of them. -/
theorem pieces_subset_of_slashed_eq {parts : List Text} (hparts : ∀ part ∈ parts, '/' ∉ part)
    {before behind : Text} (h : slashed parts = before ++ '/' :: behind) :
    behind.pieces ⊆ parts := by
  have hpieces := congrArg pieces h
  rw [pieces_slashed_of_notMem hparts, pieces_append_slash] at hpieces
  obtain ⟨first, others, hbefore⟩ := List.exists_cons_of_ne_nil (pieces_ne_nil before)
  rw [hbefore, List.cons_append, List.cons.injEq] at hpieces
  rw [hpieces.2]
  exact List.subset_append_right others behind.pieces

end Text

/-- What a logical path makes of a route, whatever file declares it. -/
theorem Route.map_ofLogicalPath_eq (engine : Engine) (source other : Disk.Path) (path : Text) :
    (ofLogicalPath engine source path).map (fun r => (r.canonical, r.segments, r.specificity)) =
      (ofLogicalPath engine other path).map fun r => (r.canonical, r.segments, r.specificity) := by
  unfold ofLogicalPath
  split
  · next segments hsegments =>
    cases Pattern.compile engine segments path with
    | error e => rfl
    | ok made => rfl
  · rfl

namespace LogicalPath

/-! ## Components that are shown -/

/-- Whether a piece of a directory is dropped at its start. -/
def isIdle (part : Text) : Bool := part = [] || part = ['.']

/-- The pieces that a directory starts with, up to its first component other than a dot. -/
def start (directory : Text) : List Text := directory.pieces.takeWhile isIdle

/-- The pieces of a directory behind its start. -/
def behindStart (directory : Text) : List Text := directory.pieces.dropWhile isIdle

/-- Whether a piece behind the start is part of the logical path. -/
def isShown (part : Text) : Bool := part ≠ [] && !isGroup part

/-- The components that the logical path of a directory shows. -/
def shown (directory : Text) : List Text := (behindStart directory).filter isShown

theorem isIdle_iff {part : Text} : isIdle part ↔ part = [] ∨ part = ['.'] := by
  simp [isIdle]

theorem components_dropStart (directory : Text) :
    (dropStart directory).components = (behindStart directory).filter (· ≠ []) := by
  fun_induction dropStart directory with
  | case1 t ih =>
      have hpieces : Text.pieces ('.' :: '/' :: t) = ['.'] :: Text.pieces t :=
        Text.pieces_append_slash ['.'] t
      rw [ih, behindStart, behindStart, hpieces, List.dropWhile_cons_of_pos (by decide)]
  | case2 t ih =>
      rw [ih, behindStart, behindStart, Text.pieces_slash, List.dropWhile_cons_of_pos (by decide)]
  | case3 => decide
  | case4 t hdot hslash hend =>
      by_cases hnil : t = []
      · subst hnil
        decide
      -- the first piece is neither empty nor a dot, since a slash or the end would follow it
      obtain ⟨first, others, hpieces⟩ := List.exists_cons_of_ne_nil (Text.pieces_ne_nil t)
      have htext := Text.eq_append_slashed_of_pieces hpieces
      have hfirst : ¬ isIdle first := by
        rw [isIdle_iff]
        cases others with
        | nil =>
            rintro (rfl | rfl)
            · exact hnil htext
            · exact hend htext
        | cons next others =>
            rw [Text.slashed_cons] at htext
            rintro (rfl | rfl)
            · exact hslash _ htext
            · exact hdot _ htext
      rw [Text.components, behindStart, hpieces, List.dropWhile_cons_of_neg hfirst]

theorem visible_eq_shown (directory : Text) : visible directory = shown directory := by
  rw [visible, components_dropStart, List.filter_filter, shown]
  exact List.filter_congr fun part _ => Bool.and_comm ..

theorem mem_shown {directory part : Text} (h : part ∈ shown directory) :
    isShown part ∧ part ∈ directory.pieces := by
  obtain ⟨hbehind, hshown⟩ := List.mem_filter.1 h
  exact ⟨hshown, (List.dropWhile_suffix isIdle).subset hbehind⟩

theorem ne_nil_of_isShown {part : Text} (h : isShown part) : part ≠ [] := by
  rintro rfl
  cases h

theorem slash_notMem_of_mem_shown {directory part : Text} (h : part ∈ shown directory) :
    '/' ∉ part :=
  Text.notMem_of_mem_pieces (mem_shown h).2

/-! ## The canonical form -/

theorem ofDirectory_eq_iff {a b : Text} : ofDirectory a = ofDirectory b ↔ shown a = shown b := by
  rw [ofDirectory_eq_iff_visible, visible_eq_shown, visible_eq_shown]

/-- A logical path is a slash alone, or written from components that show. -/
theorem ofDirectory_cases (directory : Text) :
    shown directory = [] ∧ ofDirectory directory = ['/'] ∨
      shown directory ≠ [] ∧ ofDirectory directory = Text.slashed (shown directory) := by
  rw [ofDirectory, visible_eq_shown]
  split
  · next hnil => exact .inl ⟨hnil, rfl⟩
  · next hne => exact .inr ⟨hne, rfl⟩

/-- Read as a directory, a logical path may have dots at its start. -/
theorem shown_ofDirectory (directory : Text) :
    shown (ofDirectory directory) = (shown directory).dropWhile isIdle := by
  rcases ofDirectory_cases directory with ⟨hnil, hpath⟩ | ⟨_, hpath⟩
  · rw [hnil, hpath]
    decide
  · have hpieces : (ofDirectory directory).pieces = [] :: shown directory := by
      rw [hpath, Text.pieces_slashed_of_notMem fun _ => slash_notMem_of_mem_shown]
    rw [shown, behindStart, hpieces, List.dropWhile_cons_of_pos (by decide), List.filter_eq_self]
    exact fun part hpart => (mem_shown ((List.dropWhile_suffix isIdle).subset hpart)).1

theorem ofDirectory_idem_iff (directory : Text) :
    ofDirectory (ofDirectory directory) = ofDirectory directory ↔
      (shown directory).head? ≠ some ['.'] := by
  rw [ofDirectory_eq_iff, shown_ofDirectory]
  cases hshown : shown directory with
  | nil => simp
  | cons part parts =>
      have hne : part ≠ [] := ne_nil_of_isShown (mem_shown (hshown ▸ List.mem_cons_self ..)).1
      by_cases hdot : part = ['.']
      · -- the dot is dropped, so that less is left
        subst hdot
        have hdrop : (['.'] :: parts).dropWhile isIdle <:+ parts := by
          rw [List.dropWhile_cons_of_pos (by decide)]
          exact List.dropWhile_suffix isIdle
        have hshorter : (['.'] :: parts).dropWhile isIdle ≠ ['.'] :: parts := by
          intro heq
          have hlength := hdrop.length_le
          rw [heq, List.length_cons] at hlength
          omega
        simp [hshorter]
      · simp [isIdle, hne, hdot]

/-- No slash of a logical path is followed by another one or by nothing, but for the root. -/
theorem ofDirectory_eq_of_nil_mem_pieces {directory before behind : Text}
    (h : ofDirectory directory = before ++ '/' :: behind) (hnil : [] ∈ behind.pieces) :
    ofDirectory directory = ['/'] := by
  rcases ofDirectory_cases directory with ⟨_, hpath⟩ | ⟨_, hpath⟩
  · exact hpath
  · rw [hpath] at h
    have hmem := Text.pieces_subset_of_slashed_eq (fun _ => slash_notMem_of_mem_shown) h hnil
    exact absurd rfl (ne_nil_of_isShown (mem_shown hmem).1)

theorem exists_ofDirectory_eq_cons (directory : Text) :
    ∃ behind, ofDirectory directory = '/' :: behind := by
  rcases ofDirectory_cases directory with ⟨_, hpath⟩ | ⟨hne, hpath⟩
  · exact ⟨[], hpath⟩
  · obtain ⟨part, parts, hshown⟩ := List.exists_cons_of_ne_nil hne
    exact ⟨part ++ Text.slashed parts, by rw [hpath, hshown, Text.slashed_cons]; rfl⟩

theorem not_infix_ofDirectory (directory : Text) : ¬ ['/', '/'] <:+: ofDirectory directory := by
  rintro ⟨before, behind, h⟩
  rw [List.append_assoc] at h
  have hroot := ofDirectory_eq_of_nil_mem_pieces h.symm (by simp)
  have hlength := congrArg List.length (h.trans hroot)
  simp only [List.length_append, List.length_cons, List.length_nil] at hlength
  omega

theorem ofDirectory_eq_of_getLast? {directory : Text}
    (h : (ofDirectory directory).getLast? = some '/') : ofDirectory directory = ['/'] := by
  obtain ⟨before, hpath⟩ := List.getLast?_eq_some_iff.1 h
  exact ofDirectory_eq_of_nil_mem_pieces hpath (by simp [Text.pieces])

/-- A logical path is a normal form of what its directory shows.  It is left alone as a directory
exactly if it does not begin with a dot, in particular if the directory has no dots but at its
start. -/
theorem ofDirectory_canonicalForm (directory : Text) :
    (ofDirectory directory).components = shown directory ∧
    (∀ other, ofDirectory directory = ofDirectory other ↔ shown directory = shown other) ∧
    (ofDirectory (ofDirectory directory) = ofDirectory directory ↔
      (shown directory).head? ≠ some ['.']) ∧
    (['.'] ∉ behindStart directory →
      ofDirectory (ofDirectory directory) = ofDirectory directory) ∧
    (ofDirectory directory).head? = some '/' ∧
    ¬ ['/', '/'] <:+: ofDirectory directory ∧
    ((ofDirectory directory).getLast? = some '/' → ofDirectory directory = ['/']) := by
  refine ⟨?_, fun other => ofDirectory_eq_iff, ofDirectory_idem_iff directory, ?_, ?_,
    not_infix_ofDirectory directory, ofDirectory_eq_of_getLast?⟩
  · rw [components_ofDirectory, visible_eq_shown]
  · intro hdot
    rw [ofDirectory_idem_iff]
    intro hhead
    exact hdot (List.mem_of_mem_filter (List.mem_of_head? hhead))
  · obtain ⟨behind, hpath⟩ := exists_ofDirectory_eq_cons directory
    rw [hpath, List.head?_cons]

/-- Dots and slashes at the start and a slash at the end do not count, nor do groups. -/
theorem ofDirectory_canonicalForm_cart :
    ['.'] ∉ behindStart "././/shop//(auth)/(x)/.cart/".toList ∧
    (ofDirectory "././/shop//(auth)/(x)/.cart/".toList).components =
      ["shop".toList, ".cart".toList] ∧
    ofDirectory (ofDirectory "././/shop//(auth)/(x)/.cart/".toList) =
      ofDirectory "././/shop//(auth)/(x)/.cart/".toList ∧
    ofDirectory "././/shop//(auth)/(x)/.cart/".toList = ofDirectory "shop/.cart".toList := by
  have hdot : ['.'] ∉ behindStart "././/shop//(auth)/(x)/.cart/".toList := by decide +kernel
  obtain ⟨hcomponents, hsame, _, hidem, _⟩ :=
    ofDirectory_canonicalForm "././/shop//(auth)/(x)/.cart/".toList
  refine ⟨hdot, hcomponents.trans (by decide +kernel), hidem hdot, ?_⟩
  exact (hsame _).2 (by decide +kernel)

/-! ## Groups -/

/-- A directory with one more component, in front of the piece at a position or at the end. -/
def insertPart (directory : Text) (position : Nat) (part : Text) : Text :=
  List.intercalate ['/'] (directory.pieces.insertIdx position part)

theorem pieces_insertPart {part : Text} (h : '/' ∉ part) (directory : Text) (position : Nat) :
    (insertPart directory position part).pieces = directory.pieces.insertIdx position part := by
  have hne : directory.pieces.insertIdx position part ≠ [] := by
    intro hnil
    have hsubset := List.subset_insertIdx directory.pieces position part
    rw [hnil, List.subset_nil] at hsubset
    exact Text.pieces_ne_nil directory hsubset
  rw [insertPart, Text.pieces, List.splitOn_intercalate '/' _ hne]
  intro piece hpiece
  rcases List.eq_or_mem_of_mem_insertIdx hpiece with rfl | hpiece
  · exact h
  · exact Text.notMem_of_mem_pieces hpiece

/-- Whether a text can stand between the parentheses of a group. -/
def IsGroupName (name : Text) : Prop := ∀ c ∈ name, c ≠ '(' ∧ c ≠ ')' ∧ c ≠ '/'

instance (name : Text) : Decidable (IsGroupName name) := List.decidableBAll _ name

def group (name : Text) : Text := '(' :: (name ++ [')'])

theorem isGroup_group {name : Text} (h : IsGroupName name) : isGroup (group name) := by
  have hplain : ∀ c ∈ name, c ≠ '(' ∧ c ≠ ')' := fun c hc => ⟨(h c hc).1, (h c hc).2.1⟩
  simpa [isGroup, group] using hplain

theorem slash_notMem_group {name : Text} (h : IsGroupName name) : '/' ∉ group name := by
  have hslash : '/' ∉ name := fun hmem => (h '/' hmem).2.2 rfl
  simp [group, hslash]

theorem not_isIdle_group (name : Text) : ¬ isIdle (group name) := by
  simp [isIdle, group]

/-- A group uncovers the part of the start that stands behind it, of which only dots show. -/
theorem shown_insertPart {name : Text} (h : IsGroupName name) (directory : Text)
    (position : Nat) :
    shown (insertPart directory position (group name)) =
      ((start directory).drop position).filter isShown ++ shown directory := by
  have hkeep : ¬ isShown (group name) := by simp [isShown, isGroup_group h]
  rw [shown, behindStart, pieces_insertPart (slash_notMem_group h),
    filter_dropWhile_insertIdx (not_isIdle_group name) hkeep]
  rfl

theorem filter_isShown_start_eq_nil_iff {directory : Text} {position : Nat} :
    ((start directory).drop position).filter isShown = [] ↔
      ['.'] ∉ (start directory).drop position := by
  rw [List.filter_eq_nil_iff]
  constructor
  · exact fun hnone hdot => hnone ['.'] hdot (by decide)
  · intro hdot part hpart
    have hidle : isIdle part := List.mem_takeWhile_imp (List.mem_of_mem_drop hpart)
    rcases isIdle_iff.1 hidle with rfl | rfl
    · decide
    · exact absurd hpart hdot

/-- A group in a directory changes its logical path exactly if a dot of the start of the directory
stands behind the group, and changes nothing of the route otherwise. -/
theorem ofDirectory_insertPart_group (name : Text) (hname : IsGroupName name) (directory : Text)
    (position : Nat) :
    (ofDirectory (insertPart directory position (group name)) = ofDirectory directory ↔
      ['.'] ∉ (start directory).drop position) ∧
    (['.'] ∉ (start directory).drop position → ∀ (engine : Engine) (source other : Disk.Path),
      (Route.ofDirectory engine other (insertPart directory position (group name))).map
          (fun r => (r.canonical, r.segments, r.specificity)) =
        (Route.ofDirectory engine source directory).map
          fun r => (r.canonical, r.segments, r.specificity)) := by
  have hpath : ofDirectory (insertPart directory position (group name)) = ofDirectory directory ↔
      ['.'] ∉ (start directory).drop position := by
    rw [ofDirectory_eq_iff, shown_insertPart hname, List.append_left_eq_self,
      filter_isShown_start_eq_nil_iff]
  refine ⟨hpath, ?_⟩
  intro hdot engine source other
  rw [Route.ofDirectory, Route.ofDirectory, hpath.2 hdot]
  exact Route.map_ofLogicalPath_eq engine other source _

/-- A group behind the dots of the start, in front of a slash of the start. -/
theorem ofDirectory_insertPart_group_behindDot :
    IsGroupName "a.b [x]".toList ∧ ['.'] ∉ (start ".//shop/cart".toList).drop 1 ∧
    insertPart ".//shop/cart".toList 1 (group "a.b [x]".toList) =
      "./(a.b [x])//shop/cart".toList ∧
    ofDirectory "./(a.b [x])//shop/cart".toList = ofDirectory ".//shop/cart".toList ∧
    (Route.ofDirectory .unlimited (.ofText "/app/(a.b [x])/shop/cart/index.ts".toList)
        "./(a.b [x])//shop/cart".toList).map (fun r => (r.canonical, r.segments, r.specificity)) =
      (Route.ofDirectory .unlimited (.ofText "/app/shop/cart/index.ts".toList)
        ".//shop/cart".toList).map fun r => (r.canonical, r.segments, r.specificity) := by
  have hname : IsGroupName "a.b [x]".toList := by decide +kernel
  have hdot : ['.'] ∉ (start ".//shop/cart".toList).drop 1 := by decide +kernel
  have hdirectory : insertPart ".//shop/cart".toList 1 (group "a.b [x]".toList) =
      "./(a.b [x])//shop/cart".toList := by decide +kernel
  obtain ⟨hpath, hroute⟩ := ofDirectory_insertPart_group _ hname ".//shop/cart".toList 1
  rw [hdirectory] at hpath hroute
  exact ⟨hname, hdot, hdirectory, hpath.2 hdot, hroute hdot _ _ _⟩

/-- A group in front of a dot that a directory starts with. -/
theorem ofDirectory_insertPart_group_beforeDot :
    IsGroupName "g".toList ∧
    insertPart "./a".toList 0 (group "g".toList) = "(g)/./a".toList ∧
    ofDirectory "(g)/./a".toList = "/./a".toList ∧ ofDirectory "./a".toList = "/a".toList ∧
    ofDirectory (insertPart "./a".toList 0 (group "g".toList)) ≠ ofDirectory "./a".toList := by
  exact ⟨by decide +kernel, by decide +kernel, by decide +kernel, by decide +kernel,
    by decide +kernel⟩

end LogicalPath

end FileRouting
