import Dossier.Proofs.ChronologicalDates
import Dossier.Proofs.NumberTexts
import Dossier.Proofs.ReferencePlaces

/-! Numbers that are written as texts and read again. The text of a double is read as the double,
that of a whole number as the number if it fits a signed word. -/
namespace Dossier

/-! ### The characters of numbers -/

theorem isBlank_of_isDigit {c : Char} (digit : c.isDigit = true) : Text.isBlank c = false := by
  obtain ⟨small, same⟩ := digitChar_of_isDigit digit
  have shown : ∀ n < 10, Text.isBlank n.digitChar = false := by decide +kernel
  rw [← same]
  exact shown _ small

namespace Spelling

theorem mem_characters {s : Spelling} {c : Char} (member : c ∈ s.characters) :
    c.isDigit = true ∨ c ∈ ['.', 'e', '+', '-'] := by
  rcases List.mem_append.mp member with integer | later
  · exact .inl (s.integerDigits.digits c integer)
  rcases List.mem_append.mp later with among | among
  · cases fraction : s.fraction with
    | none => simp [fractionCharacters, fraction] at among
    | some digits =>
      simp only [fractionCharacters, fraction, Option.elim_some, List.mem_cons] at among
      rcases among with rfl | digit
      · exact .inr (by decide)
      · exact .inl ((s.fractionDigits digits fraction).digits c digit)
  · cases power : s.power with
    | none => simp [powerCharacters, power] at among
    | some written =>
      obtain ⟨signed, digits⟩ := s.powerDigits written power
      simp only [powerCharacters, power, Option.elim_some, List.mem_cons] at among
      rcases among with rfl | rfl | digit
      · exact .inr (by decide)
      · rcases signed with plus | minus
        · exact .inr (by simp [plus])
        · exact .inr (by simp [minus])
      · exact .inl (digits.digits c digit)

/-- A point or a power is no digit. -/
theorem not_all_digits {s : Spelling} (marked : s.fraction.isSome = true ∨ s.power.isSome = true) :
    s.characters.all Char.isDigit = false := by
  obtain ⟨c, member, mark⟩ : ∃ c ∈ s.characters, c.isDigit = false := by
    rcases marked with point | written
    · obtain ⟨digits, fraction⟩ := Option.isSome_iff_exists.mp point
      exact ⟨'.', by simp [characters, fractionCharacters, fraction], rfl⟩
    · obtain ⟨digits, power⟩ := Option.isSome_iff_exists.mp written
      exact ⟨'e', by simp [characters, powerCharacters, power], rfl⟩
  exact List.all_eq_false.mpr ⟨c, member, by simp [mark]⟩

/-- A sign stands in front of a spelling if there is one. -/
theorem signOf_characters (s : Spelling) (negative : Bool) :
    Number.signOf ((if negative then ['-'] else []) ++ s.characters) = (negative, s.characters) := by
  cases negative with
  | true => rfl
  | false =>
    cases integer : s.integer with
    | nil => exact absurd integer s.integerDigits.nonempty
    | cons c others =>
      have digit : c.isDigit = true := s.integerDigits.digits c (by simp [integer])
      have unsigned : c ≠ '+' ∧ c ≠ '-' := by
        constructor <;> rintro rfl <;> cases digit
      have first : s.characters = c :: (others ++ (s.fractionCharacters ++ s.powerCharacters)) := by
        simp [characters, integer]
      rw [first]
      simp [Number.signOf, unsigned]

theorem parseDouble?_characters (s : Spelling) (negative : Bool) :
    Number.parseDouble? ((if negative then ['-'] else []) ++ s.characters) = (s.numeral negative).nearest? := by
  have ends : Ends [] := by simp [Ends]
  have scanned := s.scan negative ends
  rw [List.append_nil] at scanned
  rw [Number.parseDouble?, s.signOf_characters negative]
  simp only [scanned, Option.bind_eq_bind, Option.bind_some]
  simp [numeral, s.integerDigits.nonempty, guard]

end Spelling

/-- The text of a number stands without blanks around it. -/
theorem Number.trim_text (n : Number) : Text.trim n.text = n.text := by
  refine Text.trim_eq_self fun c member => ?_
  obtain ⟨negative, s, text⟩ := isSpelled_text n
  have marks : ∀ c ∈ ['.', 'e', '+', '-'], Text.isBlank c = false := by
    simp [Text.isBlank, Text.blankRanges]
  rw [text] at member
  rcases List.mem_append.mp member with sign | own
  · cases negative with
    | true => exact marks c (by simp_all)
    | false => cases sign
  · exact (Spelling.mem_characters own).elim isBlank_of_isDigit (marks c)

theorem Number.isEmpty_text (n : Number) : n.text.isEmpty = false := by
  obtain ⟨c, others, text, _⟩ := text_head n
  rw [String.isEmpty_eq_false_iff]
  rintro empty
  rw [empty] at text
  cases text

/-! ### Reading numbers -/

namespace Number

theorem eq_zero_of_isZero {d : Double} (zero : d.isZero = true) : Double.zero d.negative = d := by
  obtain ⟨negative, mantissa, shift, canonical⟩ := d
  obtain rfl : mantissa = 0 := by simpa [Double.isZero] using zero
  obtain rfl : shift = 0 := canonical.2.2.resolve_left (by decide)
  rfl

/-- The text of a double shows that it is one, and the double is nearest to what it denotes. -/
theorem exists_spelling_double (d : Double) : ∃ s : Spelling,
    d.characters = (if d.negative then ['-'] else []) ++ s.characters ∧
      (s.fraction.isSome = true ∨ s.power.isSome = true) ∧ (s.numeral d.negative).nearest? = some d := by
  by_cases zero : d.isZero = true
  · refine ⟨.zero, characters_of_isZero zero, .inl rfl, ?_⟩
    rw [← congrArg some (eq_zero_of_isZero zero)]
    rfl
  · have nonzero : d.mantissa ≠ 0 := by simpa [Double.isZero] using zero
    obtain ⟨s, characters, marked, covers⟩ := exists_writes_double nonzero
    have digits : ∀ c ∈ s.integer ++ s.fraction.getD [], c.isDigit = true := by
      intro c member
      rcases List.mem_append.mp member with whole | part
      · exact s.integerDigits.digits c whole
      · cases fraction : s.fraction with
        | none => simp [fraction] at part
        | some given => exact (s.fractionDigits given fraction).digits c (by simpa [fraction] using part)
    exact ⟨s, characters, marked, Numeral.nearest?_of_covers (n := s.numeral d.negative) digits nonzero covers⟩

/-- A double is read from its text, either zero with its sign. -/
theorem parse?_double (d : Double) : parse? d.text = some (.double d) := by
  obtain ⟨s, text, marked, nearest⟩ := exists_spelling_double d
  have noWord : parseSigned? d.characters = none := by
    rw [parseSigned?, text, s.signOf_characters]
    simp [Spelling.not_all_digits marked]
  rw [parse?, Double.text, String.toList_ofList, noWord, text, s.parseDouble?_characters, nearest]
  rfl

theorem parseSigned?_whole (word : Whole) : parseSigned? (Number.whole word).text.toList =
    if word.isSigned then some word else none := by
  obtain ⟨n, negative, text, value, -⟩ := exists_text_whole word
  have digits : (Nat.toDigits 10 n).all Char.isDigit = true := List.all_eq_true.mpr (isDigits_toDigits n).digits
  have nonempty : (Nat.toDigits 10 n).isEmpty = false := by simp
  have found : Whole.ofInt? word.value = some word := dif_pos word.inRange
  rw [parseSigned?, text, Spelling.signOf_characters, Spelling.characters_ofNat]
  simp only [digits, nonempty, decimalValue_toDigits, ← value, found, Whole.isSigned, Bool.not_true, Bool.or_self,
    Bool.false_eq_true, if_false, decide_eq_true_iff]

/-- A whole number is read from its text exactly if it fits a signed word. -/
theorem parse?_whole_iff (word : Whole) :
    parse? (Number.whole word).text = some (.whole word) ↔ word.isSigned = true := by
  rw [parse?, parseSigned?_whole]
  cases signed : word.isSigned with
  | true => simp
  | false => simp

theorem parse?_text_iff (n : Number) :
    parse? n.text = some n ↔ ∀ word, n = .whole word → word.isSigned = true := by
  cases n with
  | whole word =>
    rw [parse?_whole_iff]
    exact ⟨fun signed _ same => by cases same; exact signed, fun each => each word rfl⟩
  | double d => exact iff_of_true (parse?_double d) (by simp)

end Number

/-! ### Casting -/

/-- A text is cast to the number that it is read as. -/
theorem castValue_text_eq_ok_iff {n m : Number} {model path : String} :
    castValue model path .number (.text n.text) = .ok (.number m) ↔ Number.parse? n.text = some m := by
  have shown : ¬ n.text.isEmpty = true := by simp [n.isEmpty_text]
  simp only [castValue, Cast.number, n.trim_text, if_neg shown]
  cases Number.parse? n.text <;> simp [refuse]

/-- A number is not changed by being written as a text: the text is cast to it, as a value and as the
operand of a filter, and it comes back from a field of text. -/
structure Number.SurvivesText (n : Number) : Prop where
  payload : ∀ model path, castValue model path .number (.text n.text) = .ok (.number n)
  compared : ∀ {model : Model} {field : String} (comparison : Comparison), field ≠ idKey →
    model.fieldType? field = some .number → model.guardPassword field .filter = .ok () →
      model.castQuery [(field, .compare comparison (.text n.text))] =
        .ok [(field, .compare comparison (.number n))]
  listed : ∀ {model : Model} {field : String} (before after : List Number), field ≠ idKey →
    model.fieldType? field = some .number → model.guardPassword field .filter = .ok () →
      model.castQuery [(field, .among (before.map .number ++ .text n.text :: after.map .number))] =
        .ok [(field, .among (before.map .number ++ .number n :: after.map .number))]
  returns : ∀ model path other target, (castValue model path .text (.number n)).bind
    (castValue other target .number) = .ok (.number n)

/-- Every double survives being written as a text, and of the whole numbers those that fit a signed
word. -/
theorem Number.survivesText_iff (n : Number) :
    n.SurvivesText ↔ ∀ word, n = .whole word → word.isSigned = true := by
  rw [← parse?_text_iff]
  constructor
  · intro survives
    exact castValue_text_eq_ok_iff.mp (survives.payload "" "")
  · intro reads
    have cast (model path : String) : castValue model path .number (.text n.text) = .ok (.number n) :=
      castValue_text_eq_ok_iff.mpr reads
    exact {
      payload := cast
      compared := fun {model field} comparison noId typed passes =>
        castQuery_compare (cast model.name field) (by simp) (by simp) comparison noId typed passes
      listed := by
        intro model field before after noId typed passes
        have kept (numbers : List Number) : List.Forall₂ (fun asked result =>
            castValue model.name field .number asked = .ok result) (numbers.map .number) (numbers.map .number) := by
          rw [List.forall₂_map_left_iff, List.forall₂_map_right_iff, List.forall₂_same]
          exact fun _ _ => rfl
        refine castQuery_of_mapM (bind_eq_ok.mpr ⟨_, ?_, rfl⟩) (by simp) (by simp) noId typed passes
        exact mapM_eq_ok.mpr (List.rel_append (kept before) (.cons (cast model.name field) (kept after)))
      returns := fun model path other target => cast other target }

/-- The least double, the greatest one, minus zero and the ends of the signed words. -/
theorem Number.edges_survivesText :
    (Number.double ⟨false, 1, 0, by decide⟩).text = "5e-324" ∧
    (Number.double ⟨false, 1, 0, by decide⟩).SurvivesText ∧
    (Number.double ⟨false, 0x1fffffffffffff, 2045, by decide⟩).text = "1.7976931348623157e+308" ∧
    (Number.double ⟨false, 0x1fffffffffffff, 2045, by decide⟩).SurvivesText ∧
    (Number.double ⟨true, 0, 0, by decide⟩).SurvivesText ∧
    (Number.whole ⟨-0x8000000000000000, by decide⟩).SurvivesText ∧
    (Number.whole ⟨0x7fffffffffffffff, by decide⟩).SurvivesText := by
  refine ⟨by decide +kernel, (survivesText_iff _).mpr ?_, by decide +kernel, (survivesText_iff _).mpr ?_,
    (survivesText_iff _).mpr ?_, (survivesText_iff _).mpr ?_, (survivesText_iff _).mpr ?_⟩
  · rintro _ ⟨⟩
  · rintro _ ⟨⟩
  · rintro _ ⟨⟩
  · rintro _ ⟨⟩
    decide
  · rintro _ ⟨⟩
    decide

/-- The greatest unsigned word is stored as a double, which is greater by one. -/
theorem Number.greatest_not_survivesText :
    castValue "note" "size" .number (.text "18446744073709551615") =
      .ok (.number (.double ⟨false, 0x10000000000000, 1086, by decide⟩)) ∧
    ¬ ∀ n : Number, n.SurvivesText := by
  have text : (Number.whole ⟨18446744073709551615, by decide⟩).text = "18446744073709551615" := by decide +kernel
  have stored : castValue "note" "size" .number (.text "18446744073709551615") =
      .ok (.number (.double ⟨false, 0x10000000000000, 1086, by decide⟩)) := by
    rw [← text, castValue_text_eq_ok_iff]
    decide +kernel
  refine ⟨stored, fun all => ?_⟩
  have kept := (all (.whole ⟨18446744073709551615, by decide⟩)).payload "note" "size"
  rw [text, stored] at kept
  cases kept

end Dossier
