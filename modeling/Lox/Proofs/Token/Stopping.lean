import Lox.Proofs.Token.Munch

/-! Where segments stop: a blank behind a text ends its last segment, except for an open string and,
if it is no newline, for a comment. -/
namespace Lox

section
variable {p : Char → Bool} {d : Char} (text behind : List Char)

theorem takeWhile_append_stop (hd : p d = false) :
    (text ++ d :: behind).takeWhile p = text.takeWhile p := by
  induction text with
  | nil => simp [hd]
  | cons c text ih => simp [List.takeWhile_cons, ih]

theorem dropWhile_append_stop (hd : p d = false) :
    (text ++ d :: behind).dropWhile p = text.dropWhile p ++ d :: behind := by
  induction text with
  | nil => simp [hd]
  | cons c text ih =>
    rw [List.cons_append, List.dropWhile_cons, List.dropWhile_cons]
    split
    · exact ih
    · rfl

end

namespace Segment

theorem isGap_iff {d : Char} : isGap d ↔ d = ' ' ∨ d = '\t' ∨ d = '\r' ∨ d = '\n' := by
  simp [isGap, or_assoc]

/-- A blank is in none of the longer lexemes but comments and strings. -/
theorem isGap_stops {d : Char} (h : isGap d) : d.isDigit = false ∧ isWordPart d = false ∧
    d ≠ '.' ∧ d ≠ '=' ∧ d ≠ '/' := by
  rcases isGap_iff.1 h with rfl | rfl | rfl | rfl <;> decide

variable {d : Char} (c : Char) (rest behind : List Char)

/-- Neither a digit nor a point goes on a number. -/
theorem numberTail_append_stop (hdigit : d.isDigit = false) (hpoint : d ≠ '.') :
    numberTail (rest ++ d :: behind) = numberTail rest := by
  unfold numberTail
  rw [takeWhile_append_stop _ _ hdigit, dropWhile_append_stop _ _ hdigit]
  generalize rest.takeWhile Char.isDigit = whole
  rcases rest.dropWhile Char.isDigit with _ | ⟨point, _ | ⟨e, more⟩⟩
  · simp [hpoint]
  · by_cases hp : point = '.'
    · subst hp
      simp [hdigit]
    · simp [hp]
  · by_cases hp : point = '.'
    · subst hp
      simp [takeWhile_append_stop _ _ hdigit]
    · simp [hp]

theorem slash_append_gap (hd : isGap d) (h : isNewline d ∨ (slash rest).content ≠ .gap) :
    slash (rest ++ d :: behind) = slash rest := by
  rcases rest with _ | ⟨e, more⟩
  · simp [slash, (isGap_stops hd).2.2.2.2]
  · by_cases he : e = '/'
    · subst he
      have hn : (!isNewline d) = false := by simpa [slash] using h
      simp [slash, takeWhile_append_stop (p := fun c => !isNewline c) _ _ hn]
    · simp [slash, he]

theorem string_append (h : (string rest).content ≠ .fault .openString) :
    string (rest ++ behind) = string rest := by
  unfold string at h ⊢
  cases hdrop : rest.dropWhile (fun c => !isQuote c) with
  | nil => simp [hdrop] at h
  | cons quote more =>
    have hq : (!isQuote quote) = false := by
      have hq := List.head?_dropWhile_not (fun c => !isQuote c) rest
      rw [hdrop] at hq
      simpa using hq
    have hrest := takeWhile_append_dropWhile_eq hdrop
    have hb : ∀ c ∈ rest.takeWhile (fun c => !isQuote c), (!isQuote c) = true :=
      fun c hc => mem_takeWhile_imp hc
    generalize rest.takeWhile (fun c => !isQuote c) = body at hrest hb
    subst hrest
    simp [List.takeWhile_append_of_pos hb, List.dropWhile_append_of_pos hb, hq]

theorem first_append_gap (hd : isGap d) (hopen : (first c rest).content ≠ .fault .openString)
    (h : isNewline d ∨ (first c rest).content ≠ .gap) :
    first c (rest ++ d :: behind) = first c rest := by
  obtain ⟨hnumber, hword, hpoint, hequal, -⟩ := isGap_stops hd
  unfold first at hopen h ⊢
  cases hs : single? c with
  | some kind => rfl
  | none =>
    cases hp : paired? c with
    | some kinds =>
      rcases rest with _ | ⟨e, more⟩
      · simp [hequal]
      · rfl
    | none =>
      simp only [hs, hp] at hopen h ⊢
      -- Of the longer classes, in the order of `first`, only strings and comments have blanks.
      by_cases hg : isGap c
      · simp only [hg, if_true]
      by_cases hslash : c = '/'
      · subst hslash
        exact slash_append_gap rest behind hd h
      by_cases hq : isQuote c
      · simp only [hg, hslash, hq, if_true, if_false, Bool.false_eq_true] at hopen ⊢
        exact string_append _ _ hopen
      by_cases hdigit : c.isDigit
      · simp only [hg, hslash, hq, hdigit, if_true, if_false, Bool.false_eq_true, number,
          numberTail_append_stop _ _ hnumber hpoint]
      simp only [hg, hslash, hq, hdigit, word, takeWhile_append_stop _ _ hword, if_false,
        Bool.false_eq_true]

end Segment
end Lox
