import Citemark.Proofs.Layers
import Citemark.Proofs.Validity
import Mathlib.Data.List.Infix

/-!
# The first offence of a map

The check of a placeholder map walks over the pairs of its tokens and stops at the first pair with
an offence: a token within another one, or a token within a value. A map holds its tokens in the
order of their UTF-8 bytes, so which pair is the first one can be said without the walk, and the
answer hangs on the values of the map alone.

Results:
* `Text.precedes_iff_bytes_lt`: the order of the tokens is that of their bytes.
* `findSome?_eq_some_iff_of_sorted`: a walk stops at the least entry where it can stop.
* `validate_eq_error_iff`: the walk over pairs stops at the least offending pair.
* `get?_build`: a map after any edits gives the last value of each token.
* `validate_reports_first_offence`: all that the check promises.
-/

namespace Citemark

/-! ## The order of bytes -/

namespace Text

/-- The bytes of the UTF-8 form. -/
def bytes (t : Text) : List UInt8 := t.utf8.data.toList

theorem bytes_eq_flatMap (t : Text) : t.bytes = t.flatMap String.utf8EncodeChar := by
  have h : t.utf8 = t.utf8Encode := String.toByteArray_ofList
  rw [bytes, h, List.utf8Encode, List.data_toByteArray]

theorem bytes_cons (c : Char) (t : Text) : bytes (c :: t) = String.utf8EncodeChar c ++ t.bytes := by
  rw [bytes_eq_flatMap, bytes_eq_flatMap, List.flatMap_cons]

/-- Numbers compare as their quotients do, and where these are the same as their rests. -/
theorem div_lt_or_mod_lt {x y : Nat} (h : x < y) :
    x / 64 < y / 64 ∨ x / 64 = y / 64 ∧ x % 64 < y % 64 := by
  omega

theorem ofNat_cons_lt_iff {x y : Nat} (hx : x < 256) (hy : y < 256) {s t : List UInt8} :
    UInt8.ofNat x :: s < UInt8.ofNat y :: t ↔ x < y ∨ x = y ∧ s < t := by
  rw [List.cons_lt_cons_iff, UInt8.ofNat_lt_iff_lt hx hy, ← UInt8.toNat_inj,
    UInt8.toNat_ofNat_of_lt' hx, UInt8.toNat_ofNat_of_lt' hy]

/-- The character with the lower code point has the lower bytes, whatever follows them. -/
theorem utf8EncodeChar_append_lt {a b : Char} (h : a.toNat < b.toNat) (s t : List UInt8) :
    String.utf8EncodeChar a ++ s < String.utf8EncodeChar b ++ t := by
  have hbound : b.toNat < 1114112 := by
    have hvalid := b.valid
    simp only [UInt32.isValidChar, Nat.isValidChar] at hvalid
    show b.val.toNat < _
    omega
  have ha : a.val.toNat = a.toNat := rfl
  have hb : b.val.toNat = b.toNat := rfl
  have htwo (n : Nat) : n / 4096 = n / 64 / 64 := by omega
  have hthree (n : Nat) : n / 262144 = n / 64 / 64 / 64 := by omega
  simp only [String.utf8EncodeChar, ha, hb, htwo, hthree]
  generalize a.toNat = x at h ⊢
  generalize b.toNat = y at h hbound ⊢
  -- each byte behind the first one holds the rest of a division by 64
  have hlast := div_lt_or_mod_lt h
  have hthird := @div_lt_or_mod_lt (x / 64) (y / 64)
  have hsecond := @div_lt_or_mod_lt (x / 64 / 64) (y / 64 / 64)
  split_ifs <;> simp (disch := omega) only [List.cons_append, ofNat_cons_lt_iff] <;> omega

theorem bytes_lt_of_precedes {s t : Text} (h : precedes s t = true) : s.bytes < t.bytes := by
  induction s generalizing t with
  | nil =>
    cases t with
    | nil => simp [precedes] at h
    | cons b t =>
      rw [bytes_cons]
      cases hb : String.utf8EncodeChar b with
      | nil => exact absurd hb (by simp)
      | cons x xs => exact List.nil_lt_cons _ _
  | cons a s ih =>
    cases t with
    | nil => simp [precedes] at h
    | cons b t =>
      rw [bytes_cons, bytes_cons]
      rcases precedes_cons.1 h with hab | ⟨rfl, hst⟩
      · exact utf8EncodeChar_append_lt hab _ _
      · exact List.append_left_lt (ih hst)

/-- The order by code points is the order of the bytes. -/
theorem precedes_iff_bytes_lt {s t : Text} : precedes s t = true ↔ s.bytes < t.bytes := by
  refine ⟨bytes_lt_of_precedes, fun h => Decidable.byContradiction fun hnot => ?_⟩
  by_cases heq : s = t
  · exact List.lt_irrefl _ (heq ▸ h)
  · exact List.lt_asymm h (bytes_lt_of_precedes (precedes_of_not heq hnot))

end Text

namespace PlaceholderMap

variable {m : PlaceholderMap}

/-! ## Offences of pairs -/

/-- A token with this value must not stand in a map with the other token, which may be itself. -/
def Clashes (token value other : Text) : Prop :=
  (other ≠ token ∧ token <:+: other) ∨ other <:+: value

/-- The two tokens of a map clash. -/
def Offends (m : PlaceholderMap) (token other : Text) : Prop :=
  other ∈ m.tokens ∧ ∃ value, m.get? token = some value ∧ Clashes token value other

/-- No pair in front of these tokens offends, by the bytes of the first token and then of the
    second. -/
structure IsFirstOffence (m : PlaceholderMap) (token other : Text) : Prop where
  offends : m.Offends token other
  least : ∀ x y, m.Offends x y →
    ¬ (x.bytes < token.bytes ∨ x = token ∧ y.bytes < other.bytes)

/-- What is said about two tokens that clash: where one occurs in the other, this goes first. -/
def offenceOf (token other : Text) : RenderError :=
  if other ≠ token ∧ token <:+: other then .overlappingPlaceholders token other
  else .recursivePlaceholder token other

theorem offence?_eq_some_iff {token value other : Text} {e : RenderError} :
    offence? token value other = some e ↔
      Clashes token value other ∧ e = offenceOf token other := by
  unfold offence? Clashes offenceOf
  simp only [Text.occursIn_iff]
  by_cases hwithin : other ≠ token ∧ token <:+: other
  · simp [hwithin, eq_comm]
  · by_cases hvalue : other <:+: value
    · rw [if_neg hwithin, if_pos hvalue, if_neg hwithin]
      simp [hvalue, eq_comm]
    · simp [hwithin, hvalue]

theorem offence?_eq_none_iff_not_clashes {token value other : Text} :
    offence? token value other = none ↔ ¬ Clashes token value other := by
  rw [Option.eq_none_iff_forall_ne_some]
  simp only [ne_eq, offence?_eq_some_iff, not_and]
  exact ⟨fun h hclash => h _ hclash rfl, fun h _ hclash => absurd hclash h⟩

theorem offends_of_mem {a b : Text × Text} (ha : a ∈ m.entries) (hb : b ∈ m.entries)
    (h : Clashes a.1 a.2 b.1) : m.Offends a.1 b.1 :=
  ⟨mem_tokens.2 ⟨b.2, hb⟩, a.2, mem_entries_iff.1 ha, h⟩

/-! ## Walks over sorted entries -/

/-- A walk stops at the least entry where it can stop. -/
theorem findSome?_eq_some_iff_of_sorted {entries : List (Text × Text)}
    (h : Entries.Sorted entries) {f : Text × Text → Option RenderError} {e : RenderError} :
    entries.findSome? f = some e ↔ ∃ a ∈ entries, f a = some e ∧
      ∀ b ∈ entries, b.1.bytes < a.1.bytes → f b = none := by
  rw [List.findSome?_eq_some_iff]
  constructor
  · rintro ⟨before, a, after, rfl, ha, hnone⟩
    refine ⟨a, by simp, ha, fun b hb hlt => ?_⟩
    obtain ⟨_, hafter, _⟩ := List.pairwise_append.1 h
    rcases List.mem_append.1 hb with hb | hb
    · exact hnone b hb
    · rcases List.mem_cons.1 hb with rfl | hb
      · exact absurd hlt (List.lt_irrefl _)
      · have hgt := Text.precedes_iff_bytes_lt.1 ((List.pairwise_cons.1 hafter).1 b hb)
        exact absurd hlt (List.lt_asymm hgt)
  · rintro ⟨a, ha, hsome, hnone⟩
    obtain ⟨before, after, rfl⟩ := List.append_of_mem ha
    refine ⟨before, a, after, rfl, hsome, fun b hb => ?_⟩
    have hlt := (List.pairwise_append.1 h).2.2 b hb a List.mem_cons_self
    exact hnone b (List.mem_append_left _ hb) (Text.precedes_iff_bytes_lt.1 hlt)

theorem validate_eq_error_iff_findSome? {e : RenderError} :
    m.validate = .error e ↔ m.entries.findSome? m.entryOffence? = some e := by
  unfold validate
  cases m.entries.findSome? m.entryOffence? with
  | none => simp [pure, Except.pure]
  | some offence => simp [throw, throwThe, MonadExceptOf.throw]

/-- The empty token comes first, so nothing else is reported where there is one. -/
theorem validate_of_nil_mem (h : [] ∈ m.tokens) : m.validate = .error .emptyPlaceholder := by
  obtain ⟨value, hentry⟩ := mem_tokens.1 h
  rw [validate_eq_error_iff_findSome?, findSome?_eq_some_iff_of_sorted m.sorted]
  exact ⟨([], value), hentry, rfl, fun b _ hlt => absurd hlt (List.not_lt_nil _)⟩

/-- The walk over all pairs stops at the first pair that offends. -/
theorem validate_eq_error_iff (h : [] ∉ m.tokens) {e : RenderError} : m.validate = .error e ↔
    ∃ token other, m.IsFirstOffence token other ∧ e = offenceOf token other := by
  have hinner : ∀ a ∈ m.entries,
      m.entryOffence? a = m.entries.findSome? fun b => offence? a.1 a.2 b.1 := fun a ha =>
    if_neg fun hnil => h (List.isEmpty_iff.1 hnil ▸ mem_tokens.2 ⟨a.2, ha⟩)
  rw [validate_eq_error_iff_findSome?, findSome?_eq_some_iff_of_sorted m.sorted]
  constructor
  · rintro ⟨a, ha, hsome, houter⟩
    rw [hinner a ha, findSome?_eq_some_iff_of_sorted m.sorted] at hsome
    obtain ⟨b, hb, hfound, hbefore⟩ := hsome
    obtain ⟨hclash, rfl⟩ := offence?_eq_some_iff.1 hfound
    refine ⟨a.1, b.1, ⟨offends_of_mem ha hb hclash, ?_⟩, rfl⟩
    rintro x y ⟨hy, value, hx, hxy⟩ hlt
    obtain ⟨_, hy⟩ := mem_tokens.1 hy
    rcases hlt with hlt | ⟨rfl, hlt⟩
    · have hentry := mem_entries_iff.2 hx
      have hnone := houter _ hentry hlt
      rw [hinner _ hentry, List.findSome?_eq_none_iff] at hnone
      exact offence?_eq_none_iff_not_clashes.1 (hnone _ hy) hxy
    · rw [mem_entries_iff.1 ha, Option.some.injEq] at hx
      exact offence?_eq_none_iff_not_clashes.1 (hbefore _ hy hlt) (hx ▸ hxy)
  · rintro ⟨token, other, ⟨⟨hother, value, htoken, hclash⟩, hleast⟩, rfl⟩
    obtain ⟨_, hother⟩ := mem_tokens.1 hother
    have hentry := mem_entries_iff.2 htoken
    refine ⟨(token, value), hentry, ?_, fun c hc hlt => ?_⟩
    · rw [hinner _ hentry, findSome?_eq_some_iff_of_sorted m.sorted]
      refine ⟨_, hother, offence?_eq_some_iff.2 ⟨hclash, rfl⟩, fun c hc hlt => ?_⟩
      rw [offence?_eq_none_iff_not_clashes]
      exact fun hclash => hleast _ _ (offends_of_mem hentry hc hclash) (Or.inr ⟨rfl, hlt⟩)
    · rw [hinner c hc, List.findSome?_eq_none_iff]
      intro d hd
      rw [offence?_eq_none_iff_not_clashes]
      exact fun hclash => hleast _ _ (offends_of_mem hc hd hclash) (Or.inl hlt)

/-! ## Histories -/

/-- What can be done to a map. -/
inductive Edit where
  | insert (token value : Text)
  | extend (pairs : List (Text × Text))

namespace Edit

/-- The pairs that an edit puts into a map. -/
def pairs : Edit → List (Text × Text)
  | insert token value => [(token, value)]
  | extend pairs => pairs

/-- The map after an edit. -/
def apply (m : PlaceholderMap) : Edit → PlaceholderMap
  | insert token value => m.insert token value
  | extend pairs => m.extend pairs

theorem apply_eq_extend (m : PlaceholderMap) (edit : Edit) :
    edit.apply m = m.extend edit.pairs := by
  cases edit <;> rfl

end Edit

/-- The map that is made of some pairs and then edited. -/
def build (pairs : List (Text × Text)) (edits : List Edit) : PlaceholderMap :=
  edits.foldl Edit.apply (ofList pairs)

theorem build_eq_ofList (pairs : List (Text × Text)) (edits : List Edit) :
    build pairs edits = ofList (pairs ++ edits.flatMap Edit.pairs) := by
  rw [build, ofList, ofList, extend, extend, List.foldl_append, List.foldl_flatMap]
  congr 1
  funext m edit
  exact edit.apply_eq_extend m

/-- Whatever the edits were, a token has the value that it was given last. -/
theorem get?_build (pairs : List (Text × Text)) (edits : List Edit) (token : Text) :
    (build pairs edits).get? token = lastValue? (pairs ++ edits.flatMap Edit.pairs) token := by
  rw [build_eq_ofList, get?_ofList]

/-- **The check reports the first offence.** It passes exactly the valid maps. An empty token is
    reported whatever else is wrong, and otherwise the first pair that offends, by the bytes of its
    token and then of the other. Maps that were made in different ways and give the same values get
    the same answer. -/
theorem validate_reports_first_offence (m : PlaceholderMap) :
    (m.validate = .ok () ↔ m.IsValid) ∧
    (∀ e, m.validate = .error e ↔
      [] ∈ m.tokens ∧ e = .emptyPlaceholder ∨
      [] ∉ m.tokens ∧ ∃ token other, m.IsFirstOffence token other ∧ e = offenceOf token other) ∧
    (∀ pairs edits, (∀ token, lastValue? (pairs ++ edits.flatMap Edit.pairs) token = m.get? token) →
      (build pairs edits).validate = m.validate) := by
  refine ⟨validate_eq_ok_iff, fun e => ?_, fun pairs edits h => ?_⟩
  · by_cases hnil : [] ∈ m.tokens
    · simp [hnil, validate_of_nil_mem hnil, eq_comm]
    · simp [hnil, validate_eq_error_iff hnil]
  · have hsame : build pairs edits = m := ext_get? fun token => (get?_build _ _ _).trans (h token)
    rw [hsame]

/-- Tokens of which one occurs in another, and values of which one holds a token. -/
def clashingMap : PlaceholderMap :=
  .ofList [("b".toList, "1".toList), ("é".toList, "2".toList), ("ab".toList, "é".toList)]

/-- Edits that end with the same values, by way of another one. -/
def clashingEdits : List Edit :=
  [.insert "é".toList "2".toList, .extend [("ab".toList, "é".toList), ("b".toList, "1".toList)]]

theorem validate_clashingEdits :
    (∀ token, lastValue? ([("b".toList, "0".toList)] ++ clashingEdits.flatMap Edit.pairs) token =
      clashingMap.get? token) ∧
    (build [("b".toList, "0".toList)] clashingEdits).validate =
      .error (.recursivePlaceholder "ab".toList "é".toList) ∧
    clashingMap.IsFirstOffence "ab".toList "é".toList := by
  have hbuilt : build [("b".toList, "0".toList)] clashingEdits = clashingMap := by decide
  have herror : clashingMap.validate =
      .error (.recursivePlaceholder "ab".toList "é".toList) := by decide
  have hlast : ∀ token, lastValue? ([("b".toList, "0".toList)] ++
      clashingEdits.flatMap Edit.pairs) token = clashingMap.get? token := by
    intro token
    rw [← get?_build, hbuilt]
  obtain ⟨_, hreported, hhistory⟩ := validate_reports_first_offence clashingMap
  refine ⟨hlast, (hhistory _ _ hlast).trans herror, ?_⟩
  rcases (hreported _).1 herror with ⟨_, hempty⟩ | ⟨_, token, other, hfirst, hoffence⟩
  · exact absurd hempty (by simp)
  · unfold offenceOf at hoffence
    split at hoffence
    · exact absurd hoffence (by simp)
    · obtain ⟨rfl, rfl⟩ := RenderError.recursivePlaceholder.inj hoffence
      exact hfirst

end PlaceholderMap

end Citemark
