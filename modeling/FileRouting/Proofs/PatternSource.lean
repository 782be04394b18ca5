import FileRouting.Proofs.Decomposition

/-! # Written patterns

The written form of a route's pattern is read back from left to right.  What has been escaped ends
at the first character that stands there unescaped and could not (`eq_of_escape_append`), a
parameter opens with characters that no other kind of segment opens with
(`Segment.kind_eq_of_opening`), and fragments are told apart together with all that follows them
(`Segment.shape_eq_of_fragment_append`).  The pattern of a route therefore tells its segments apart
from all others, the names of the parameters by themselves and everything else by its written form,
and routes whose patterns are written alike take the same texts from a path
(`Route.captures?_eq_of_source_eq`). -/

namespace FileRouting

/-! ## Escaped text -/

theorem escape_cons (c : Char) (t : Text) :
    escape (c :: t) = (if c ∈ metacharacters then ['\\', c] else [c]) ++ escape t := by
  simp [escape]

theorem backslash_mem_metacharacters : '\\' ∈ metacharacters := by decide

/-- Whether a text starts with a character that escaped text without slashes cannot start with. -/
def EndsEscaped (t : Text) : Prop :=
  ∃ c behind, t = c :: behind ∧ (c = '/' ∨ c ∈ metacharacters ∧ c ≠ '\\')

theorem escape_cons_append_injective {c d : Char} {a b u v : Text}
    (h : escape (c :: a) ++ u = escape (d :: b) ++ v) :
    c = d ∧ escape a ++ u = escape b ++ v := by
  rw [escape_cons, escape_cons] at h
  by_cases hc : c ∈ metacharacters
  · by_cases hd : d ∈ metacharacters
    · simpa [hc, hd] using h
    · -- the backslash before `c` would be `d`, but a backslash is never left unescaped
      rw [if_pos hc, if_neg hd] at h
      obtain ⟨rfl, _⟩ := List.cons.inj h
      exact absurd backslash_mem_metacharacters hd
  · by_cases hd : d ∈ metacharacters
    · rw [if_neg hc, if_pos hd] at h
      obtain ⟨rfl, _⟩ := List.cons.inj h
      exact absurd backslash_mem_metacharacters hc
    · simpa [hc, hd] using h

theorem EndsEscaped.ne_escape_cons {u : Text} (hu : EndsEscaped u) {c : Char} (hc : c ≠ '/')
    (a v : Text) : u ≠ escape (c :: a) ++ v := by
  obtain ⟨d, behind, rfl, hd⟩ := hu
  rw [escape_cons]
  intro h
  split at h
  · obtain ⟨rfl, _⟩ := List.cons.inj h
    simp at hd
  · next hplain =>
    obtain ⟨rfl, _⟩ := List.cons.inj h
    exact hd.elim hc fun hmeta => hplain hmeta.1

/-- Where escaped text ends can be seen from what follows, and so the text can be read back. -/
theorem eq_of_escape_append {a b u v : Text} (ha : '/' ∉ a) (hb : '/' ∉ b) (hu : EndsEscaped u)
    (hv : EndsEscaped v) (h : escape a ++ u = escape b ++ v) : a = b ∧ u = v := by
  induction a generalizing b with
  | nil =>
      cases b with
      | nil => exact ⟨rfl, h⟩
      | cons d b =>
          rw [List.mem_cons, not_or] at hb
          exact absurd h (hu.ne_escape_cons (Ne.symm hb.1) b v)
  | cons c a ih =>
      rw [List.mem_cons, not_or] at ha
      cases b with
      | nil => exact absurd h.symm (hv.ne_escape_cons (Ne.symm ha.1) a u)
      | cons d b =>
          rw [List.mem_cons, not_or] at hb
          obtain ⟨rfl, hrest⟩ := escape_cons_append_injective h
          obtain ⟨rfl, huv⟩ := ih ha.2 hb.2 hrest
          exact ⟨rfl, huv⟩

/-! ## Lists of written parts -/

def OpensWith (chars : List Char) (t : Text) : Prop := ∃ c ∈ chars, ∃ behind, t = c :: behind

theorem opensWith_flatMap {α : Type} (f : α → Text) (sep stop : Char) (as : List α) (u : Text) :
    OpensWith [sep, stop] (as.flatMap (sep :: f ·) ++ stop :: u) := by
  cases as with
  | nil => exact ⟨stop, by simp, u, rfl⟩
  | cons a as => exact ⟨sep, by simp, _, rfl⟩

/-- Parts that are written behind a separator each, and then a stop, can be read back if each part
can be when a separator or the stop follows it. -/
theorem map_eq_of_flatMap_append {α β : Type} {f : α → Text} {g : α → β} {sep stop : Char}
    (hne : sep ≠ stop) {as bs : List α} {u v : Text}
    (hpart : ∀ a ∈ as, ∀ b ∈ bs, ∀ u v : Text, OpensWith [sep, stop] u → OpensWith [sep, stop] v →
      f a ++ u = f b ++ v → g a = g b ∧ u = v)
    (h : as.flatMap (sep :: f ·) ++ stop :: u = bs.flatMap (sep :: f ·) ++ stop :: v) :
    as.map g = bs.map g ∧ u = v := by
  induction as generalizing bs with
  | nil =>
      cases bs with
      | nil => exact ⟨rfl, (List.cons.inj h).2⟩
      | cons b bs => exact absurd (List.cons.inj h).1.symm hne
  | cons a as ih =>
      cases bs with
      | nil => exact absurd (List.cons.inj h).1 hne
      | cons b bs =>
          rw [List.flatMap_cons, List.flatMap_cons, List.cons_append, List.cons_append,
            List.cons_append, List.cons_append, List.cons.injEq, List.append_assoc,
            List.append_assoc] at h
          obtain ⟨hfirst, hlater⟩ := hpart a (List.mem_cons_self ..) b (List.mem_cons_self ..) _ _
            (opensWith_flatMap f sep stop as u) (opensWith_flatMap f sep stop bs v) h.2
          obtain ⟨hothers, huv⟩ := ih (fun a ha b hb => hpart a (List.mem_cons_of_mem _ ha) b
            (List.mem_cons_of_mem _ hb)) hlater
          exact ⟨by rw [List.map_cons, List.map_cons, hfirst, hothers], huv⟩

theorem Expr.source_oneOf {values : List Text} (hne : values ≠ []) :
    '|' :: (oneOf values).source = values.flatMap ('|' :: escape ·) := by
  obtain ⟨value, values, rfl⟩ := List.exists_cons_of_ne_nil hne
  induction values generalizing value with
  | nil => simp [oneOf, source]
  | cons next values ih =>
      rw [List.flatMap_cons, ← ih next (List.cons_ne_nil next values)]
      simp [oneOf, source]

theorem eq_of_source_oneOf_append {as bs : List Text} (hane : as ≠ []) (hbne : bs ≠ [])
    (ha : ∀ a ∈ as, '/' ∉ a) (hb : ∀ b ∈ bs, '/' ∉ b) {u v : Text}
    (h : (Expr.oneOf as).source ++ ')' :: u = (Expr.oneOf bs).source ++ ')' :: v) :
    as = bs ∧ u = v := by
  have hbars := congrArg ('|' :: ·) h
  simp only [← List.cons_append, Expr.source_oneOf hane, Expr.source_oneOf hbne] at hbars
  have hends : ∀ t : Text, OpensWith ['|', ')'] t → EndsEscaped t := by
    rintro _ ⟨c, hc, t, rfl⟩
    rcases List.mem_pair.1 hc with rfl | rfl
    · exact ⟨'|', t, rfl, .inr (by decide)⟩
    · exact ⟨')', t, rfl, .inr (by decide)⟩
  have hread := map_eq_of_flatMap_append (g := id) (by decide) (fun a hmem b hmem' s t hs ht =>
    eq_of_escape_append (ha a hmem) (hb b hmem') (hends s hs) (hends t ht)) hbars
  simpa using hread

/-! ## Fragments -/

namespace Segment

/-- A segment without the name of its parameter. -/
def shape (s : Segment) : Kind × Option Text × Option (List Text) :=
  (s.kind, s.literalText?, s.values?)

theorem eq_of_shape_eq {s t : Segment} (h : s.shape = t.shape) (hname : s.name? = t.name?) :
    s = t := by
  cases s <;> cases t <;> simp_all [shape, kind, literalText?, values?, name?]

theorem item_eq_of_shape_eq {s t : Segment} (h : s.shape = t.shape) : s.item = t.item := by
  cases s <;> cases t <;> simp_all [shape, kind, literalText?, values?, item, expr]

/-- The names of parameters make no difference to what a pattern reads. -/
theorem map_item_eq_of_map_shape_eq {as bs : List Segment} (h : as.map shape = bs.map shape) :
    as.map item = bs.map item := by
  rw [← List.forall₂_eq_eq_eq, List.forall₂_map_left_iff, List.forall₂_map_right_iff] at h ⊢
  exact h.imp fun _ _ => item_eq_of_shape_eq

/-- What the fragments of parameters of one kind start with, up to where the kinds part. -/
def opening : Kind → Text
  | .literal => []
  | .choice => ['(', '(']
  | .number => ['(', '[', '0']
  | .wildcard => ['(', '[', '^']
  | .rest => ['(', '.']

theorem exists_fragment_eq (s : Segment) : ∃ t, s.fragment = opening s.kind ++ t := by
  cases s with
  | literal text => exact ⟨_, rfl⟩
  | choice _ _ | number _ | wildcard _ | rest _ => exact ⟨_, rfl⟩

theorem kind_eq_of_opening {k l : Kind} (hk : k ≠ .literal) (hl : l ≠ .literal) {u v : Text}
    (h : opening k ++ u = opening l ++ v) : k = l := by
  cases k <;> cases l <;> simp_all [opening]

theorem fragment_choice_append (name : Text) (values : List Text) (u : Text) :
    (choice name values).fragment ++ u =
      '(' :: ("(?:".toList ++ ((Expr.oneOf values).source ++ ')' :: ')' :: u)) := by
  simp [fragment, item, Item.source, expr, Expr.source]

theorem endsEscaped_of_opensWith {u : Text} (h : OpensWith ['/', '$'] u) : EndsEscaped u := by
  obtain ⟨c, hc, behind, rfl⟩ := h
  rcases List.mem_pair.1 hc with rfl | rfl
  · exact ⟨'/', behind, rfl, .inl rfl⟩
  · exact ⟨'$', behind, rfl, .inr (by decide)⟩

/-- A literal is no parameter: the parenthesis that a parameter opens with would end the escaped
text at once, and the text itself ends at a slash or with the pattern. -/
theorem escape_append_ne_fragment {text : Text} (htext : '/' ∉ text) {s : Segment}
    (hs : s.kind ≠ .literal) {u : Text} (hu : OpensWith ['/', '$'] u) (v : Text) :
    escape text ++ u ≠ s.fragment ++ v := by
  have hopening : ∃ t, s.fragment ++ v = '(' :: t := by
    obtain ⟨t, ht⟩ := exists_fragment_eq s
    rw [ht]
    cases s with
    | literal text => exact absurd rfl hs
    | choice _ _ | number _ | wildcard _ | rest _ => exact ⟨_, rfl⟩
  obtain ⟨t, ht⟩ := hopening
  rw [ht]
  intro h
  have hends : EndsEscaped ('(' :: t) := ⟨'(', t, rfl, .inr (by decide)⟩
  obtain ⟨_, rfl⟩ :=
    eq_of_escape_append (b := []) htext List.not_mem_nil (endsEscaped_of_opensWith hu) hends h
  obtain ⟨c, hc, _, hparen⟩ := hu
  rw [← (List.cons.inj hparen).1] at hc
  revert hc
  decide

theorem kind_eq_of_fragment_append {s t : Segment} (hs : s.WellFormed) (ht : t.WellFormed)
    {u v : Text} (hu : OpensWith ['/', '$'] u) (hv : OpensWith ['/', '$'] v)
    (h : s.fragment ++ u = t.fragment ++ v) : s.kind = t.kind := by
  by_cases hsl : s.kind = .literal
  · by_cases htl : t.kind = .literal
    · rw [hsl, htl]
    · cases s with
      | literal text => exact absurd h (escape_append_ne_fragment hs htl hu _)
      | choice _ _ | number _ | wildcard _ | rest _ => cases hsl
  · by_cases htl : t.kind = .literal
    · cases t with
      | literal text => exact absurd h.symm (escape_append_ne_fragment ht hsl hv _)
      | choice _ _ | number _ | wildcard _ | rest _ => cases htl
    · obtain ⟨x, hx⟩ := exists_fragment_eq s
      obtain ⟨y, hy⟩ := exists_fragment_eq t
      rw [hx, hy, List.append_assoc, List.append_assoc] at h
      exact kind_eq_of_opening hsl htl h

/-- A fragment with a slash or the end of the pattern behind it determines its segment up to the
name, and what follows. -/
theorem shape_eq_of_fragment_append {s t : Segment} (hs : s.WellFormed) (ht : t.WellFormed)
    {u v : Text} (hu : OpensWith ['/', '$'] u) (hv : OpensWith ['/', '$'] v)
    (h : s.fragment ++ u = t.fragment ++ v) : s.shape = t.shape ∧ u = v := by
  have hkind := kind_eq_of_fragment_append hs ht hu hv h
  cases s with
  | literal text =>
      cases t with
      | literal text' =>
          obtain ⟨rfl, huv⟩ := eq_of_escape_append hs ht (endsEscaped_of_opensWith hu)
            (endsEscaped_of_opensWith hv) h
          exact ⟨rfl, huv⟩
      | choice _ _ | number _ | wildcard _ | rest _ => cases hkind
  | choice name values =>
      cases t with
      | choice name' values' =>
          rw [fragment_choice_append, fragment_choice_append, List.cons.injEq,
            List.append_cancel_left_eq] at h
          have hslash : ∀ offered : List Text, (∀ value ∈ offered, isValue value) →
              ∀ value ∈ offered, '/' ∉ value := fun _ hvalues value hvalue =>
            slash_notMem_of_isValue (hvalues value hvalue)
          obtain ⟨rfl, huv⟩ := eq_of_source_oneOf_append hs.1 ht.1 (hslash _ hs.2)
            (hslash _ ht.2) h.2
          exact ⟨rfl, (List.cons.inj huv).2⟩
      | literal _ | number _ | wildcard _ | rest _ => cases hkind
  | number name | wildcard name | rest name =>
      -- the fragments of these kinds are fixed
      cases t <;> cases hkind
      exact ⟨rfl, List.append_cancel_left h⟩

/-! ## Names -/

theorem isSome_name?_eq_of_shape_eq {s t : Segment} (h : s.shape = t.shape) :
    s.name?.isSome = t.name?.isSome := by
  rw [isSome_name?, isSome_name?, (Prod.mk.inj h).1]

/-- Segments are told apart by their shapes and the names among them. -/
theorem eq_of_map_shape_eq {as bs : List Segment} (h : as.map shape = bs.map shape)
    (hnames : names as = names bs) : as = bs := by
  induction as generalizing bs with
  | nil =>
      rw [List.map_nil, eq_comm, List.map_eq_nil_iff] at h
      exact h.symm
  | cons a as ih =>
      cases bs with
      | nil => cases h
      | cons b bs =>
          rw [List.map_cons, List.map_cons, List.cons.injEq] at h
          have hsome := isSome_name?_eq_of_shape_eq h.1
          rw [names, names, List.filterMap_cons, List.filterMap_cons] at hnames
          have hname : a.name? = b.name? ∧ names as = names bs := by
            cases ha : a.name? with
            | none =>
                cases hb : b.name? with
                | none =>
                    rw [ha, hb] at hnames
                    exact ⟨rfl, hnames⟩
                | some name => simp [ha, hb] at hsome
            | some name =>
                cases hb : b.name? with
                | none => simp [ha, hb] at hsome
                | some name' =>
                    rw [ha, hb] at hnames
                    obtain ⟨rfl, hlater⟩ := List.cons.inj hnames
                    exact ⟨rfl, hlater⟩
          rw [eq_of_shape_eq h.1 hname.1, ih h.2 hname.2]

end Segment

/-! ## Patterns of routes -/

theorem Pattern.source_ofSegments {segments : List Segment} (h : segments ≠ []) :
    (ofSegments segments).source =
      '^' :: Text.slashed (segments.map Segment.fragment) ++ ['$'] := by
  have hslash : (Item.plain (.text ['/'])).source = ['/'] := by decide
  rw [source, ofSegments, itemsOf_eq_slashedItems h, slashedItems, Text.slashed]
  simp [List.flatMap_assoc, hslash, List.flatMap_map, Segment.fragment]

namespace Route

theorem source_pattern (r : Route) :
    r.pattern.source = '^' :: Text.slashed (r.segments.map Segment.fragment) ++ ['$'] :=
  Pattern.source_ofSegments r.segments_ne_nil

theorem source_eq_iff {a b : Route} : a.pattern.source = b.pattern.source ↔
    a.segments.map Segment.shape = b.segments.map Segment.shape := by
  rw [source_pattern, source_pattern]
  constructor
  · intro h
    rw [Text.slashed, Text.slashed, List.flatMap_map, List.flatMap_map] at h
    have hread := map_eq_of_flatMap_append (g := Segment.shape) (by decide)
      (fun s hs t ht _ _ => Segment.shape_eq_of_fragment_append (a.wellFormed s hs)
        (b.wellFormed t ht)) (List.cons.inj h).2
    exact hread.1
  · intro h
    have hfragment : Segment.fragment = Item.source ∘ Segment.item := rfl
    rw [hfragment, ← List.map_map, Segment.map_item_eq_of_map_shape_eq h, List.map_map]

/-- The written form of a route's pattern fixes the readings that are tried, which that of other
patterns need not do. -/
theorem items_eq_of_source_eq {a b : Route} (h : a.pattern.source = b.pattern.source) :
    a.pattern.items = b.pattern.items := by
  have hitems (r : Route) : r.pattern.items =
      (r.segments.map Segment.item).flatMap fun item => [.plain (.text ['/']), item] := by
    rw [pattern, Pattern.ofSegments, Pattern.itemsOf_eq_slashedItems r.segments_ne_nil,
      Pattern.slashedItems, List.flatMap_map]
  rw [hitems, hitems, Segment.map_item_eq_of_map_shape_eq (source_eq_iff.1 h)]

/-- Routes whose patterns are written alike match the same paths and take the same texts from them.
-/
theorem captures?_eq_of_source_eq {a b : Route} (h : a.pattern.source = b.pattern.source) :
    a.captures? = b.captures? := by
  funext path
  rw [captures?, captures?, Pattern.captures?_eq, Pattern.captures?_eq, items_eq_of_source_eq h]

/-- Two routes have the same pattern, as it is written and with the names of its captures, exactly
if they have the same segments.  The written form alone tells the segments apart up to the names of
parameters. -/
theorem sameSource_iff (a b : Route) :
    (a.pattern.SameSource b.pattern ↔ a.segments = b.segments) ∧
    (a.pattern.source = b.pattern.source ↔
      a.segments.map Segment.shape = b.segments.map Segment.shape) := by
  refine ⟨⟨?_, ?_⟩, source_eq_iff⟩
  · rintro ⟨hsource, hnames⟩
    exact Segment.eq_of_map_shape_eq (source_eq_iff.1 hsource) hnames
  · intro h
    rw [pattern, pattern, h]
    exact ⟨rfl, rfl⟩

end Route

end FileRouting
