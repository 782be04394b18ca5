import FileRouting.Proofs.NormalForm
import FileRouting.Proofs.PercentDecoding

/-! # What becomes of a request

`Normalization.Outcome` says for every request what normalizing it comes to: which part of it is
looked at, which bytes this part stands for, which of the failures is the first one that applies,
and else which path the text is written as.  `Normalization.normalize_eq_iff` says that this is what
normalization does.

The stages are specified without the functions that carry them out: the target by where it is cut,
the bytes by `Percent.Decodes`, and the path by the components of the text
(`Normalization.absolute_eq_written`). -/

namespace FileRouting

namespace Text

theorem getLast?_pieces_eq_nil_iff {t : Text} (hne : t ≠ []) :
    (pieces t).getLast? = some [] ↔ t.getLast? = some '/' := by
  constructor
  · intro h
    obtain ⟨front, hfront⟩ := List.getLast?_eq_some_iff.1 h
    -- with an empty piece at the end, the slash before it is the last character
    have hslashed := slashed_pieces t
    rw [hfront, slashed_append, slashed_cons, slashed_nil] at hslashed
    have hlast := congrArg List.getLast? hslashed
    rw [List.getLast?_append] at hlast
    obtain ⟨c, t, rfl⟩ := List.exists_cons_of_ne_nil hne
    simpa using hlast.symm
  · intro h
    obtain ⟨front, rfl⟩ := List.getLast?_eq_some_iff.1 h
    rw [pieces_append_slash, List.getLast?_append]
    rfl

end Text

namespace Normalization

/-! ## Squeezed slashes -/

theorem squeeze_append_of_notMem {part : Text} (h : '/' ∉ part) (behind : Text) :
    squeeze (part ++ behind) = part ++ squeeze behind := by
  induction part with
  | nil => rfl
  | cons c part ih =>
      rw [List.mem_cons, not_or] at h
      have hkept : ¬ (c = '/' ∧ (part ++ behind).head? = some '/') := fun hand => h.1 hand.1.symm
      rw [List.cons_append, squeeze, if_neg hkept, ih h.2]
      rfl

theorem squeeze_slash_slash (t : Text) : squeeze ('/' :: '/' :: t) = squeeze ('/' :: t) :=
  if_pos ⟨rfl, rfl⟩

theorem squeeze_slash_of_head?_ne {t : Text} (h : t.head? ≠ some '/') :
    squeeze ('/' :: t) = '/' :: squeeze t :=
  if_neg fun hand => h hand.2

theorem squeeze_rooted (t : Text) : squeeze (rooted t) = squeeze ('/' :: t) := by
  unfold rooted
  split
  · rw [squeeze_slash_slash]
  · rfl

/-- Of pieces with a slash before each, the empty ones go, unless one is the last. -/
theorem squeeze_slashed {parts : List Text} (h : ∀ part ∈ parts, '/' ∉ part) :
    squeeze (Text.slashed parts) = Text.slashed (parts.filter (· ≠ [])) ++
      if parts.getLast? = some [] then ['/'] else [] := by
  induction parts with
  | nil => rfl
  | cons part parts ih =>
      rw [List.forall_mem_cons] at h
      have hlater := ih h.2
      by_cases hempty : part = []
      · subst hempty
        cases parts with
        | nil => rfl
        | cons next parts =>
            rw [Text.slashed_cons] at hlater ⊢
            rw [Text.slashed_cons, List.singleton_append, List.cons_append, squeeze_slash_slash]
            rw [List.cons_append] at hlater
            rw [hlater, List.getLast?_cons_cons]
            simp
      · have hhead : (part ++ Text.slashed parts).head? ≠ some '/' := by
          obtain ⟨c, part, rfl⟩ := List.exists_cons_of_ne_nil hempty
          intro heq
          rw [List.cons_append, List.head?_cons, Option.some.injEq] at heq
          exact h.1 (heq ▸ List.mem_cons_self ..)
        have hlast : (part :: parts).getLast? = some [] ↔ parts.getLast? = some [] := by
          cases parts with
          | nil => simp [hempty]
          | cons next parts => rw [List.getLast?_cons_cons]
        rw [Text.slashed_cons, List.cons_append, squeeze_slash_of_head?_ne hhead,
          squeeze_append_of_notMem h.1, hlater, List.filter_cons_of_pos (by simpa using hempty),
          Text.slashed_cons]
        simp only [hlast, List.cons_append, List.append_assoc]

/-! ## The path -/

/-- The path that a text is written as: with repeated slashes allowed, the text with a slash in
front, and otherwise its components with single slashes, the last slash if there is one after a
component. -/
def written (n : Normalization) (decoded : Text) : Text :=
  if n.allowDuplicateSlash then
    if decoded.head? = some '/' then decoded else '/' :: decoded
  else
    '/' :: List.intercalate ['/'] decoded.components ++
      if decoded.getLast? = some '/' ∧ decoded.components ≠ [] then ['/'] else []

theorem rooted_eq (t : Text) : rooted t = if t.head? = some '/' then t else '/' :: t := by
  by_cases h : t.head? = some '/'
  · rw [if_pos h, rooted_eq_self h]
  · rw [if_neg h]
    unfold rooted
    split
    · exact absurd rfl h
    · rfl

theorem absolute_eq_written (n : Normalization) (decoded : Text) :
    n.absolute decoded = n.written decoded := by
  unfold absolute written
  split
  · exact rooted_eq decoded
  · rw [squeeze_rooted, ← Text.slashed_pieces,
      squeeze_slashed fun part hpart => Text.notMem_of_mem_pieces hpart, ← Text.components]
    by_cases hnone : decoded.components = []
    · -- there are slashes only, and one is left
      have hlast : (Text.pieces decoded).getLast? = some [] := by
        rw [List.getLast?_eq_some_getLast (Text.pieces_ne_nil decoded)]
        have hall := List.filter_eq_nil_iff.1 hnone _ (List.getLast_mem (Text.pieces_ne_nil decoded))
        simpa using hall
      rw [hnone, if_pos hlast, if_neg fun hand => hand.2 rfl]
      rfl
    · have hne : decoded ≠ [] := by
        rintro rfl
        exact hnone rfl
      rw [Text.slashed_eq_intercalate hnone]
      simp only [Text.getLast?_pieces_eq_nil_iff hne, ne_eq, hnone, not_false_eq_true, and_true]

/-! ## The target and its bytes -/

/-- The part of a request that counts: up to the first question mark or number sign, if the query is
cut off.  It starts where the request starts, so that an index into one is an index into the other.
-/
def IsTarget (n : Normalization) (request target : Text) : Prop :=
  ∃ behind, request = target ++ behind ∧
    if n.stripQuery then
      '?' ∉ target ∧ '#' ∉ target ∧
        (behind = [] ∨ behind.head? = some '?' ∨ behind.head? = some '#')
    else behind = []

/-- The bytes that a request stands for. -/
def StandsFor (n : Normalization) (request : Text) (decoded : Bytes) : Prop :=
  ∃ target, n.IsTarget request target ∧
    if n.decodePercent then Percent.Decodes (Utf8.encode target) decoded
    else decoded = Utf8.encode target

theorem beforeQuery_append {target behind : Text} (hquery : '?' ∉ target) (hfragment : '#' ∉ target)
    (hbehind : behind = [] ∨ behind.head? = some '?' ∨ behind.head? = some '#') :
    beforeQuery (target ++ behind) = target := by
  have hkept : ∀ c ∈ target, (c ≠ '?' && c ≠ '#') = true := by
    intro c hc
    have hne : c ≠ '?' := fun heq => hquery (heq ▸ hc)
    have hne' : c ≠ '#' := fun heq => hfragment (heq ▸ hc)
    simp [hne, hne']
  rw [beforeQuery, List.takeWhile_append_of_pos hkept]
  cases behind with
  | nil => exact List.append_nil target
  | cons c behind =>
      have hstop : ¬ (c ≠ '?' && c ≠ '#') = true := by
        simp only [List.head?_cons, Option.some.injEq, reduceCtorEq, false_or] at hbehind
        rcases hbehind with rfl | rfl <;> decide
      rw [List.takeWhile_cons, if_neg hstop, List.append_nil]

theorem exists_eq_beforeQuery_append (request : Text) : ∃ behind,
    request = beforeQuery request ++ behind ∧
    (behind = [] ∨ behind.head? = some '?' ∨ behind.head? = some '#') := by
  refine ⟨_, List.takeWhile_append_dropWhile.symm, ?_⟩
  have hstop := List.head?_dropWhile_not (fun c : Char => c ≠ '?' && c ≠ '#') request
  cases hbehind : request.dropWhile fun c => c ≠ '?' && c ≠ '#' with
  | nil => exact .inl rfl
  | cons c later =>
      right
      rw [hbehind] at hstop
      by_cases hc : c = '?'
      · exact .inl (by rw [hc]; rfl)
      · exact .inr (by simpa [hc] using hstop)

theorem notMem_beforeQuery (request : Text) :
    '?' ∉ beforeQuery request ∧ '#' ∉ beforeQuery request := by
  constructor
  · intro hmem
    simpa using List.mem_takeWhile_imp hmem
  · intro hmem
    simpa using List.mem_takeWhile_imp hmem

theorem isTarget_iff {n : Normalization} {request target : Text} :
    n.IsTarget request target ↔ n.target request = target := by
  unfold IsTarget Normalization.target
  by_cases hstrip : n.stripQuery = true
  · simp only [if_pos hstrip]
    constructor
    · rintro ⟨behind, rfl, hquery, hfragment, hbehind⟩
      exact beforeQuery_append hquery hfragment hbehind
    · rintro rfl
      obtain ⟨behind, hrequest, hbehind⟩ := exists_eq_beforeQuery_append request
      obtain ⟨hquery, hfragment⟩ := notMem_beforeQuery request
      exact ⟨behind, hrequest, hquery, hfragment, hbehind⟩
  · simp only [if_neg hstrip]
    constructor
    · rintro ⟨behind, rfl, rfl⟩
      exact List.append_nil target
    · rintro rfl
      exact ⟨[], (List.append_nil request).symm, rfl⟩

theorem bytes_eq_ok_iff {n : Normalization} {request : Text} {decoded : Bytes} :
    n.bytes (n.target request) = .ok decoded ↔ n.StandsFor request decoded := by
  unfold bytes StandsFor
  simp only [isTarget_iff, exists_eq_left']
  split
  · exact Percent.decode_eq_ok_iff
  · rw [Except.ok.injEq, eq_comm]

theorem bytes_eq_error_iff {n : Normalization} {request : Text} {index : Nat} :
    n.bytes (n.target request) = .error index ↔ n.decodePercent = true ∧
      ∃ target, n.IsTarget request target ∧ Percent.BrokenAt (Utf8.encode target) index := by
  unfold bytes
  simp only [isTarget_iff, exists_eq_left']
  split
  · next hon =>
    rw [Percent.decode_eq_error_iff]
    exact ⟨fun h => ⟨hon, h⟩, And.right⟩
  · next hoff => simp [hoff]

/-! ## The outcome -/

/-- Whether a byte may stand in a path: it is no control byte and no blank. -/
def Allowed (b : UInt8) : Prop := 0x20 < b ∧ b ≠ 0x7F

theorem isForbidden_eq_false_iff {b : UInt8} : isForbidden b = false ↔ Allowed b := by
  simp [isForbidden, Allowed]

/-- The request is not empty, and these are its bytes, all of which are allowed. -/
structure Passes (n : Normalization) (request : Text) (decoded : Bytes) : Prop where
  nonempty : request ≠ []
  stands : n.StandsFor request decoded
  allowed : ∀ b ∈ decoded, Allowed b

/-- What becomes of a request: the first failure that applies to it, or its path. -/
inductive Outcome (n : Normalization) (request : Text) : Except RequestError Text → Prop where
  | empty (h : request = []) : Outcome n request (.error .empty)
  | badEscape {target : Text} {index : Nat} (hne : request ≠ []) (hon : n.decodePercent = true)
      (htarget : n.IsTarget request target)
      (h : Percent.BrokenAt (Utf8.encode target) index) :
      Outcome n request (.error (.badEscape request index))
  | forbiddenByte {before behind : Bytes} {b : UInt8} (hne : request ≠ [])
      (hstands : n.StandsFor request (before ++ b :: behind)) (hbefore : ∀ c ∈ before, Allowed c)
      (hb : ¬ Allowed b) : Outcome n request (.error (.forbiddenByte request b))
  | notUtf8 {decoded : Bytes} (hpasses : n.Passes request decoded)
      (h : ∀ text, Utf8.encode text ≠ decoded) : Outcome n request (.error (.notUtf8 request))
  | parentTraversal {text : Text} (hpasses : n.Passes request (Utf8.encode text))
      (h : ['.', '.'] ∈ (n.written text).pieces) :
      Outcome n request (.error (.parentTraversal request (n.written text)))
  | path {text : Text} (hpasses : n.Passes request (Utf8.encode text))
      (h : ['.', '.'] ∉ (n.written text).pieces) : Outcome n request (.ok (n.written text))

theorem find?_isForbidden_eq_none_iff {decoded : Bytes} :
    decoded.find? isForbidden = none ↔ ∀ b ∈ decoded, Allowed b := by
  simp only [List.find?_eq_none, Bool.not_eq_true, isForbidden_eq_false_iff]

theorem traverses_eq_true_iff {path : Text} : traverses path = true ↔ ['.', '.'] ∈ path.pieces := by
  rw [traverses, List.contains_iff_mem]

variable {n : Normalization} {request : Text}

theorem outcome_normalize : n.Outcome request (n.normalize request) := by
  -- stage by stage: a failure is the first one because the stages before it have passed
  unfold normalize
  split
  · next hempty => exact .empty hempty
  next hne =>
  split
  · next index hindex =>
    obtain ⟨hon, target, htarget, hbroken⟩ := bytes_eq_error_iff.1 hindex
    exact .badEscape hne hon htarget hbroken
  next decoded hdecoded =>
  have hstands := bytes_eq_ok_iff.1 hdecoded
  split
  · next b hb =>
    obtain ⟨hforbidden, before, behind, rfl, hbefore⟩ := List.find?_eq_some_iff_append.1 hb
    refine .forbiddenByte hne hstands ?_ ?_
    · intro c hc
      exact isForbidden_eq_false_iff.1 (by simpa using hbefore c hc)
    · rw [← isForbidden_eq_false_iff, hforbidden]
      exact Bool.false_ne_true.symm
  next hnone =>
  have hpasses : n.Passes request decoded :=
    ⟨hne, hstands, find?_isForbidden_eq_none_iff.1 hnone⟩
  split
  · next hfault =>
    refine .notUtf8 hpasses ?_
    intro text htext
    rw [Utf8.decode?_eq_some_iff.2 htext] at hfault
    cases hfault
  next text htext =>
  obtain rfl := Utf8.decode?_eq_some_iff.1 htext
  rw [absolute_eq_written]
  split
  · next htraverses => exact .parentTraversal hpasses (traverses_eq_true_iff.1 htraverses)
  · next hinside => exact .path hpasses fun hdots => hinside (traverses_eq_true_iff.2 hdots)

theorem Outcome.normalize_eq {outcome : Except RequestError Text} (h : n.Outcome request outcome) :
    n.normalize request = outcome := by
  cases h with
  | empty h => rw [normalize, if_pos h]
  | badEscape hne hon htarget h =>
      rw [normalize, if_neg hne, bytes_eq_error_iff.2 ⟨hon, _, htarget, h⟩]
  | @forbiddenByte before behind b hne hstands hbefore hb =>
      have hfind : (before ++ b :: behind).find? isForbidden = some b := by
        refine List.find?_eq_some_iff_append.2 ⟨?_, before, behind, rfl, ?_⟩
        · rwa [← isForbidden_eq_false_iff, Bool.not_eq_false] at hb
        · intro c hc
          rw [isForbidden_eq_false_iff.2 (hbefore c hc)]
          rfl
      rw [normalize, if_neg hne, bytes_eq_ok_iff.2 hstands]
      simp only [hfind]
  | @notUtf8 decoded hpasses h =>
      have hfault : Utf8.decode? decoded = none := by
        rw [Option.eq_none_iff_forall_ne_some]
        exact fun text htext => h text (Utf8.decode?_eq_some_iff.1 htext)
      rw [normalize, if_neg hpasses.nonempty, bytes_eq_ok_iff.2 hpasses.stands]
      simp only [find?_isForbidden_eq_none_iff.2 hpasses.allowed, hfault]
  | parentTraversal hpasses h =>
      rw [normalize, if_neg hpasses.nonempty, bytes_eq_ok_iff.2 hpasses.stands]
      simp only [find?_isForbidden_eq_none_iff.2 hpasses.allowed, Utf8.decode?_encode,
        absolute_eq_written, if_pos (traverses_eq_true_iff.2 h)]
  | path hpasses h =>
      have hinside : ¬ traverses (n.written _) = true := fun hdots =>
        h (traverses_eq_true_iff.1 hdots)
      rw [normalize, if_neg hpasses.nonempty, bytes_eq_ok_iff.2 hpasses.stands]
      simp only [find?_isForbidden_eq_none_iff.2 hpasses.allowed, Utf8.decode?_encode,
        absolute_eq_written, if_neg hinside]

/-- Normalization has the outcome that is specified, for every request and all options. -/
theorem normalize_eq_iff (n : Normalization) (request : Text) (outcome : Except RequestError Text) :
    n.normalize request = outcome ↔ n.Outcome request outcome :=
  ⟨fun h => h ▸ outcome_normalize, Outcome.normalize_eq⟩

end Normalization

end FileRouting
