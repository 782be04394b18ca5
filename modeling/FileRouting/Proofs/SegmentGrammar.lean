import FileRouting.Proofs.WellFormed

/-! # The grammar of segments

`Segment.Declares` says by a grammar which texts in brackets declare a parameter, and which one.
Reading follows it stage by stage: each reader has a lemma that says exactly which texts it accepts
and what it makes of them (`readValues?_eq_some_iff`, `readParameter?_eq_some_iff`,
`readName?_eq_some_iff`), and `read?_eq_some_iff` puts them together.

`Segment.write` is the shortest way to declare a segment.  A segment that has been read is read back
from it, and two texts declare the same segment only if they are `Alike`. -/

namespace FileRouting

namespace Text

/-- The end of a text that has been cut, with the character that it was cut at. -/
def ending (c : Char) : Option Text → Text
  | none => []
  | some t => c :: t

theorem ending_injective (c : Char) : Function.Injective (ending c) := by
  intro a b h
  cases a <;> cases b <;> simp_all [ending]

theorem notMem_fst_cut (c : Char) (t : Text) : c ∉ (cut c t).1 := by
  induction t with
  | nil => exact List.not_mem_nil
  | cons d t ih =>
      rw [cut]
      split
      · exact List.not_mem_nil
      · next hd => simp [Ne.symm hd, ih]

@[simp] theorem append_ending_cut (c : Char) (t : Text) :
    (cut c t).1 ++ ending c (cut c t).2 = t := by
  induction t with
  | nil => rfl
  | cons d t ih =>
      rw [cut]
      split
      · next hd => simp [ending, hd]
      · rw [List.cons_append, ih]

theorem cut_append_ending {c : Char} {before : Text} (h : c ∉ before) (behind : Option Text) :
    cut c (before ++ ending c behind) = (before, behind) := by
  cases behind with
  | none =>
      rw [ending, List.append_nil]
      exact cut_eq_none h
  | some behind => exact cut_append h behind

theorem cut_append_of_notMem {c : Char} {front : Text} (h : c ∉ front) (t : Text) :
    cut c (front ++ t) = (front ++ (cut c t).1, (cut c t).2) := by
  have hbefore : c ∉ front ++ (cut c t).1 := by simp [h, notMem_fst_cut]
  have hcut := cut_append_ending hbefore (cut c t).2
  rwa [List.append_assoc, append_ending_cut] at hcut

end Text

namespace Segment

/-! ## The grammar -/

def IsName (t : Text) : Prop := t ≠ [] ∧ ∀ c ∈ t, c.isAlphanum ∨ c = '_' ∨ c = '$'

/-- What may stand before a name without a meaning of its own. -/
def IsMarker (t : Text) : Prop := t = [] ∨ t = dots

/-- Whether a text may be offered by a choice. -/
def IsOffer (t : Text) : Prop := t ≠ [] ∧ ∀ c ∈ t, c ∉ ['/', ':', '[', ']', '\\', '|']

/-- The values of a choice, each with a bar before it. -/
def barred (values : List Text) : Text := values.flatMap ('|' :: ·)

def inBrackets (t : Text) : Text := '[' :: t ++ [']']

/-- What may stand behind a name, and the parameter that it makes of the name. -/
inductive Modifies (name : Text) : Text → Segment → Prop
  | nothing : Modifies name [] (.wildcard name)
  | star : Modifies name [':', '*'] (.wildcard name)
  | stars : Modifies name [':', '*', '*'] (.rest name)
  | number : Modifies name (':' :: "number".toList) (.number name)
  | choice {values : List Text} (hne : values ≠ []) (h : ∀ value ∈ values, IsOffer value) :
      Modifies name (':' :: barred values) (.choice name values)

/-- Whether a text declares the given parameter: a name in brackets, with dots before it or not and
with one of the modifiers behind it. -/
def Declares (raw : Text) (s : Segment) : Prop :=
  ∃ marker name modifier, IsMarker marker ∧ IsName name ∧ Modifies name modifier s ∧
    raw = inBrackets (marker ++ name ++ modifier)

/-- Whether a text starts and ends like the declaration of a parameter. -/
def IsBracketed (t : Text) : Prop := t.head? = some '[' ∧ t.getLast? = some ']'

/-- The text that declares a segment, without anything that could be left out. -/
def write : Segment → Text
  | literal text => text
  | choice name values => inBrackets (name ++ ':' :: barred values)
  | number name => inBrackets (name ++ ':' :: "number".toList)
  | wildcard name => inBrackets name
  | rest name => inBrackets (name ++ [':', '*', '*'])

/-- The two ways to say that a parameter takes any one component. -/
def IsStar (t : Text) : Prop := t = [] ∨ t = [':', '*']

/-- Two texts that are the same up to the dots before a name and the star of a wildcard. -/
inductive Alike : Text → Text → Prop
  | same (raw : Text) : Alike raw raw
  | respelled {name marker marker' modifier modifier' : Text} (hname : IsName name)
      (hmarker : IsMarker marker) (hmarker' : IsMarker marker')
      (hmodifier : modifier = modifier' ∨ IsStar modifier ∧ IsStar modifier') :
      Alike (inBrackets (marker ++ name ++ modifier)) (inBrackets (marker' ++ name ++ modifier'))

/-! ## Brackets -/

theorem inBrackets_ne (t : Text) : inBrackets t ≠ ['['] := by
  simp [inBrackets]

theorem bracketed?_eq_some_iff {raw body : Text} :
    bracketed? raw = some body ↔ raw = inBrackets body := by
  constructor
  · exact eq_of_bracketed?
  · rintro rfl
    simp [inBrackets, bracketed?]

theorem isBracketed_iff {raw : Text} : IsBracketed raw ↔ ∃ body, raw = inBrackets body := by
  constructor
  · rintro ⟨hhead, hlast⟩
    obtain ⟨t, rfl⟩ := List.head?_eq_some_iff.1 hhead
    cases t with
    | nil => simp at hlast
    | cons c t =>
        rw [List.getLast?_cons_cons] at hlast
        exact ⟨_, eq_of_bracketed? (by rw [bracketed?, if_pos hlast])⟩
  · rintro ⟨body, rfl⟩
    exact ⟨rfl, List.getLast?_concat⟩

theorem bracketed?_eq_none_iff {raw : Text} : bracketed? raw = none ↔ ¬ IsBracketed raw := by
  rw [isBracketed_iff, Option.eq_none_iff_forall_ne_some]
  simp only [ne_eq, bracketed?_eq_some_iff, not_exists]

/-! ## Reading by stages -/

theorem isName_iff {t : Text} : (t ≠ [] ∧ t.all isNameChar) ↔ IsName t := by
  simp [IsName, isNameChar, or_assoc]

theorem dropFront?_dots_of_isName {name : Text} (h : IsName name) (t : Text) :
    dropFront? dots (name ++ t) = none := by
  obtain ⟨hne, hname⟩ := h
  cases name with
  | nil => exact absurd rfl hne
  | cons c name =>
      -- no name starts with a dot
      have hdot : '.' ≠ c := by
        rintro rfl
        have hchar := hname '.' (List.mem_cons_self ..)
        revert hchar
        decide
      simp [dots, dropFront?, hdot]

theorem readName?_eq_some_iff {t name : Text} :
    readName? t = some name ↔ IsName name ∧ ∃ marker, IsMarker marker ∧ t = marker ++ name := by
  rw [readName?]
  simp only [isName_iff, Option.ite_none_right_eq_some, Option.some.injEq]
  constructor
  · rintro ⟨hname, rfl⟩
    refine ⟨hname, ?_⟩
    cases hdrop : dropFront? dots t with
    | none => exact ⟨[], .inl rfl, rfl⟩
    | some behind => exact ⟨dots, .inr rfl, dropFront?_eq_some_iff.1 hdrop⟩
  · rintro ⟨hname, marker, rfl | rfl, rfl⟩
    · have hdrop := dropFront?_dots_of_isName hname []
      rw [List.append_nil] at hdrop
      simp [hdrop, hname]
    · simp [hname]

theorem isOffer_iff {t : Text} : IsOffer t ↔ isValue t ∧ '|' ∉ t := by
  have hchar : ∀ c : Char, c ∉ ['/', ':', '[', ']', '\\', '|'] ↔
      (!(['/', ':', '[', ']', '\\'].contains c)) = true ∧ ¬ c = '|' := by
    intro c
    simp [and_assoc]
  simp only [IsOffer, isValue, hchar, imp_and, forall_and, List.forall_mem_ne', Bool.and_eq_true,
    decide_eq_true_eq, List.all_eq_true, and_assoc]

theorem barred_eq_intercalate {values : List Text} (hne : values ≠ []) :
    barred values = '|' :: List.intercalate ['|'] values :=
  flatMap_cons_eq_intercalate hne

theorem readValues?_eq_some_iff {t : Text} {values : List Text} :
    readValues? t = some values ↔
      values ≠ [] ∧ (∀ value ∈ values, IsOffer value) ∧ barred values = '|' :: t := by
  rw [readValues?, Option.ite_none_right_eq_some, Option.some.injEq, List.all_eq_true]
  simp only [isOffer_iff]
  constructor
  · rintro ⟨hall, rfl⟩
    have hne := List.splitOn_ne_nil '|' t
    refine ⟨hne, fun value hvalue => ⟨hall value hvalue, notMem_of_mem_splitOn hvalue⟩, ?_⟩
    rw [barred_eq_intercalate hne, List.intercalate_splitOn]
  · rintro ⟨hne, hoffers, ht⟩
    rw [barred_eq_intercalate hne, List.cons.injEq] at ht
    rw [← ht.2, List.splitOn_intercalate '|' (fun value hvalue => (hoffers value hvalue).2) hne]
    exact ⟨fun value hvalue => (hoffers value hvalue).1, rfl⟩

theorem readParameter?_eq_some_iff {name : Text} {behind : Option Text} {s : Segment} :
    readParameter? name behind = some s ↔ Modifies name (Text.ending ':' behind) s := by
  constructor
  · intro h
    unfold readParameter? at h
    split at h
    · cases h
      exact .nothing
    · next t =>
      obtain ⟨values, hread, rfl⟩ := Option.map_eq_some_iff.1 h
      obtain ⟨hne, hoffers, ht⟩ := readValues?_eq_some_iff.1 hread
      rw [Text.ending, ← ht]
      exact .choice hne hoffers
    · split at h
      · next hstar =>
        cases h
        exact hstar ▸ .star
      split at h
      · next hstars =>
        cases h
        exact hstars ▸ .stars
      split at h
      · next hnumber =>
        cases h
        exact hnumber ▸ .number
      · cases h
  · intro h
    -- the modifier of each case says what stands behind the colon, if there is one
    generalize hending : Text.ending ':' behind = modifier at h
    cases h with
    | nothing =>
        obtain rfl : behind = none := Text.ending_injective ':' hending
        rfl
    | star =>
        obtain rfl : behind = some ['*'] := Text.ending_injective ':' hending
        rfl
    | stars =>
        obtain rfl : behind = some ['*', '*'] := Text.ending_injective ':' hending
        rfl
    | number =>
        obtain rfl : behind = some "number".toList := Text.ending_injective ':' hending
        rfl
    | @choice values hne hoffers =>
        obtain ⟨value, values, rfl⟩ := List.exists_cons_of_ne_nil hne
        obtain rfl : behind = some (barred (value :: values)) := Text.ending_injective ':' hending
        have hread : readValues? (value ++ barred values) = some (value :: values) :=
          readValues?_eq_some_iff.2 ⟨hne, hoffers, by simp [barred]⟩
        have hbarred : barred (value :: values) = '|' :: (value ++ barred values) := by
          simp [barred]
        rw [hbarred, readParameter?, hread]
        rfl

theorem Modifies.exists_ending {name modifier : Text} {s : Segment} (h : Modifies name modifier s) :
    ∃ behind, modifier = Text.ending ':' behind := by
  cases h with
  | nothing => exact ⟨none, rfl⟩
  | star | stars | number | choice => exact ⟨some _, rfl⟩

/-- Two modifiers that make the same parameter are the same, or say in two ways that any component
will do. -/
theorem Modifies.unique {name name' modifier modifier' : Text} {s : Segment}
    (h : Modifies name modifier s) (h' : Modifies name' modifier' s) :
    name = name' ∧ (modifier = modifier' ∨ IsStar modifier ∧ IsStar modifier') := by
  cases h with
  | nothing =>
      cases h' with
      | nothing => exact ⟨rfl, .inl rfl⟩
      | star => exact ⟨rfl, .inr ⟨.inl rfl, .inr rfl⟩⟩
  | star =>
      cases h' with
      | nothing => exact ⟨rfl, .inr ⟨.inr rfl, .inl rfl⟩⟩
      | star => exact ⟨rfl, .inl rfl⟩
  | stars | number | choice =>
      cases h'
      exact ⟨rfl, .inl rfl⟩

/-! ## Reading as a whole -/

theorem colon_notMem_of_isName {name : Text} (h : IsName name) : ':' ∉ name := by
  intro hmem
  have hchar := h.2 ':' hmem
  revert hchar
  decide

theorem colon_notMem_of_isMarker {marker : Text} (h : IsMarker marker) : ':' ∉ marker := by
  rcases h with rfl | rfl <;> decide

theorem read?_inBrackets (body : Text) : read? (inBrackets body) =
    (readName? (body.cut ':').1).bind fun name => readParameter? name (body.cut ':').2 := by
  rw [read?, if_neg (inBrackets_ne body), bracketed?_eq_some_iff.2 rfl]

theorem read?_of_declares {raw : Text} {s : Segment} (h : Declares raw s) : read? raw = some s := by
  obtain ⟨marker, name, modifier, hmarker, hname, hmodifier, rfl⟩ := h
  obtain ⟨behind, rfl⟩ := hmodifier.exists_ending
  -- the text is cut at the first colon, which belongs to the modifier
  have hcolon : ':' ∉ marker ++ name := by
    simp [colon_notMem_of_isMarker hmarker, colon_notMem_of_isName hname]
  rw [read?_inBrackets, Text.cut_append_ending hcolon,
    readName?_eq_some_iff.2 ⟨hname, marker, hmarker, rfl⟩]
  exact readParameter?_eq_some_iff.2 hmodifier

theorem declares_of_read?_inBrackets {body : Text} {s : Segment}
    (h : read? (inBrackets body) = some s) : Declares (inBrackets body) s := by
  rw [read?_inBrackets, Option.bind_eq_some_iff] at h
  obtain ⟨name, hread, hparameter⟩ := h
  obtain ⟨hname, marker, hmarker, hbefore⟩ := readName?_eq_some_iff.1 hread
  refine ⟨marker, name, _, hmarker, hname, readParameter?_eq_some_iff.1 hparameter, ?_⟩
  rw [← hbefore, Text.append_ending_cut]

/-- A text that does not look like a declaration is literal, except for a lone bracket, and one that
does declares what the grammar says. -/
theorem read?_eq_some_iff {raw : Text} {s : Segment} :
    read? raw = some s ↔ raw ≠ ['['] ∧ ¬ IsBracketed raw ∧ s = literal raw ∨ Declares raw s := by
  constructor
  · intro h
    by_cases hbracketed : IsBracketed raw
    · obtain ⟨body, rfl⟩ := isBracketed_iff.1 hbracketed
      exact .inr (declares_of_read?_inBrackets h)
    · rw [read?, bracketed?_eq_none_iff.2 hbracketed, Option.ite_none_left_eq_some] at h
      exact .inl ⟨h.1, hbracketed, (Option.some.inj h.2).symm⟩
  · rintro (⟨hlone, hbracketed, rfl⟩ | h)
    · rw [read?, bracketed?_eq_none_iff.2 hbracketed, if_neg hlone]
    · exact read?_of_declares h

theorem read?_eq_some_iff_declares {raw : Text} {s : Segment} (h : raw = ['['] ∨ IsBracketed raw) :
    read? raw = some s ↔ Declares raw s := by
  rw [read?_eq_some_iff, or_iff_right]
  rintro ⟨hlone, hbracketed, _⟩
  exact h.elim hlone hbracketed

theorem read?_eq_none_iff {raw : Text} :
    read? raw = none ↔ (raw = ['['] ∨ IsBracketed raw) ∧ ¬ ∃ s, Declares raw s := by
  constructor
  · intro hnone
    by_cases h : raw = ['['] ∨ IsBracketed raw
    · refine ⟨h, ?_⟩
      rintro ⟨s, hdeclares⟩
      rw [read?_of_declares hdeclares] at hnone
      cases hnone
    · rw [not_or] at h
      rw [read?_eq_some_iff.2 (.inl ⟨h.1, h.2, rfl⟩)] at hnone
      cases hnone
  · rintro ⟨h, hnone⟩
    rw [Option.eq_none_iff_forall_ne_some]
    intro s hread
    exact hnone ⟨s, (read?_eq_some_iff_declares h).1 hread⟩

/-! ## Writing -/

theorem declares_write {raw : Text} {s : Segment} (h : Declares raw s) : Declares s.write s := by
  obtain ⟨_, name, modifier, _, hname, hmodifier, rfl⟩ := h
  have hwrite : ∃ modifier', Modifies name modifier' s ∧ s.write = inBrackets (name ++ modifier') := by
    cases hmodifier with
    | nothing | star => exact ⟨[], .nothing, by rw [write, List.append_nil]⟩
    | stars => exact ⟨_, .stars, rfl⟩
    | number => exact ⟨_, .number, rfl⟩
    | choice hne hoffers => exact ⟨_, .choice hne hoffers, rfl⟩
  obtain ⟨modifier', hmodifier', heq⟩ := hwrite
  exact ⟨[], name, modifier', .inl rfl, hname, hmodifier', heq⟩

theorem read?_write {raw : Text} {s : Segment} (h : read? raw = some s) :
    read? s.write = some s := by
  rcases read?_eq_some_iff.1 h with ⟨_, _, rfl⟩ | hdeclares
  · exact h
  · exact read?_of_declares (declares_write hdeclares)

/-! ## Texts that are read alike -/

theorem readName?_marked {marker name : Text} (hmarker : IsMarker marker) (hname : IsName name)
    (t : Text) : readName? (marker ++ (name ++ t)) = readName? (name ++ t) := by
  rcases hmarker with rfl | rfl
  · rfl
  · rw [readName?, readName?, dropFront?_append, dropFront?_dots_of_isName hname]
    rfl

/-- The dots before a name are not looked at, whatever stands behind it. -/
theorem read?_marked {marker name : Text} (hmarker : IsMarker marker) (hname : IsName name)
    (modifier : Text) :
    read? (inBrackets (marker ++ name ++ modifier)) = read? (inBrackets (name ++ modifier)) := by
  rw [read?_inBrackets, read?_inBrackets, List.append_assoc,
    Text.cut_append_of_notMem (colon_notMem_of_isMarker hmarker),
    Text.cut_append_of_notMem (colon_notMem_of_isName hname), readName?_marked hmarker hname]

theorem read?_of_isStar {name modifier : Text} (hname : IsName name) (h : IsStar modifier) :
    read? (inBrackets (name ++ modifier)) = some (wildcard name) := by
  have hmodifies : Modifies name modifier (wildcard name) := by
    rcases h with rfl | rfl
    · exact .nothing
    · exact .star
  exact read?_of_declares ⟨[], name, modifier, .inl rfl, hname, hmodifies, rfl⟩

theorem Alike.read?_eq {a b : Text} (h : Alike a b) : read? a = read? b := by
  cases h with
  | same => rfl
  | respelled hname hmarker hmarker' hmodifier =>
      rw [read?_marked hmarker hname, read?_marked hmarker' hname]
      rcases hmodifier with rfl | ⟨hstar, hstar'⟩
      · rfl
      · rw [read?_of_isStar hname hstar, read?_of_isStar hname hstar']

theorem alike_of_read? {a b : Text} {s : Segment} (ha : read? a = some s) (hb : read? b = some s) :
    Alike a b := by
  rcases read?_eq_some_iff.1 ha with ⟨_, _, rfl⟩ | ⟨_, _, _, hmarker, hname, hmodifier, rfl⟩
  · rw [Segment.literal.inj (literal_of_read? hb rfl)]
    exact .same b
  · rcases read?_eq_some_iff.1 hb with ⟨_, _, rfl⟩ | ⟨_, _, _, hmarker', _, hmodifier', rfl⟩
    · cases hmodifier
    · obtain ⟨rfl, hsame⟩ := hmodifier.unique hmodifier'
      exact .respelled hname hmarker hmarker' hsame

/-- Reading accepts the texts of the grammar and reports all others as they are.  What it makes of a
text is written so that it reads back, and only texts that are alike are read as the same segment.
-/
theorem read_grammar (route raw : Text) :
    (raw ≠ ['['] → ¬ IsBracketed raw → read route raw = .ok (.literal raw)) ∧
    (raw = ['['] ∨ IsBracketed raw → ∀ s, read route raw = .ok s ↔ Declares raw s) ∧
    (∀ e, read route raw = .error e ↔ (raw = ['['] ∨ IsBracketed raw) ∧ (¬ ∃ s, Declares raw s) ∧
      e = .invalidParameter raw route) ∧
    (∀ s, read route raw = .ok s → ∀ route', read route' s.write = .ok s) ∧
    ∀ s, read route raw = .ok s → ∀ route' raw', read route' raw' = .ok s ↔ Alike raw raw' := by
  simp only [read_eq_ok_iff]
  refine ⟨fun hlone hbracketed => read?_eq_some_iff.2 (.inl ⟨hlone, hbracketed, rfl⟩),
    fun h s => read?_eq_some_iff_declares h, ?_, fun s h _ => read?_write h, ?_⟩
  · intro e
    rw [read_eq_error_iff, read?_eq_none_iff, and_assoc]
  · intro s h _ raw'
    exact ⟨alike_of_read? h, fun halike => halike.read?_eq ▸ h⟩

/-- A choice with dots that mean nothing, which it is written without, both ways to declare a
wildcard, and a text that is literal because of its last character. -/
theorem read_grammar_kinds :
    read [] "[...kind:|dog|a.b]".toList =
      .ok (.choice "kind".toList ["dog".toList, "a.b".toList]) ∧
    read [] "[kind:|dog|a.b]".toList = .ok (.choice "kind".toList ["dog".toList, "a.b".toList]) ∧
    read [] "[id]".toList = .ok (.wildcard "id".toList) ∧
    read [] "[...id:*]".toList = .ok (.wildcard "id".toList) ∧
    read [] "[id]x".toList = .ok (.literal "[id]x".toList) := by
  have hkind : IsName "kind".toList := isName_iff.1 (by decide)
  have hid : IsName "id".toList := isName_iff.1 (by decide)
  have hoffers : ∀ value ∈ ["dog".toList, "a.b".toList], IsOffer value := by
    rw [List.forall_mem_cons, List.forall_mem_singleton]
    exact ⟨isOffer_iff.2 (by decide), isOffer_iff.2 (by decide)⟩
  have hlooks : IsBracketed "[...kind:|dog|a.b]".toList := by
    unfold IsBracketed
    decide
  have hliteral : ¬ IsBracketed "[id]x".toList := by
    unfold IsBracketed
    decide
  obtain ⟨_, hdeclares, _, hwrite, _⟩ := read_grammar [] "[...kind:|dog|a.b]".toList
  have hchoice := (hdeclares (.inr hlooks) (.choice "kind".toList ["dog".toList, "a.b".toList])).2
    ⟨dots, "kind".toList, _, .inr rfl, hkind, .choice (List.cons_ne_nil _ _) hoffers, rfl⟩
  have hplain : read [] "[id]".toList = .ok (.wildcard "id".toList) := rfl
  obtain ⟨_, _, _, _, halike⟩ := read_grammar [] "[id]".toList
  have hstar := (halike _ hplain [] "[...id:*]".toList).2
    (@Alike.respelled "id".toList [] dots [] [':', '*'] hid (.inl rfl) (.inr rfl)
      (.inr ⟨.inl rfl, .inr rfl⟩))
  exact ⟨hchoice, hwrite _ hchoice [], hplain, hstar,
    (read_grammar [] "[id]x".toList).1 (by decide) hliteral⟩

end Segment

end FileRouting
