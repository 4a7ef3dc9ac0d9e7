import Lox.Token.Scan
import Mathlib.Data.List.TakeWhile

/-! Lexemes: what a stretch of source text can be by itself, whatever stands around it. -/
namespace Lox

open Segment (isGap isQuote isNewline isWordStart isWordPart)

/-- The operators and how they are written. -/
def operators : List (List Char × Kind) :=
  [(['('], .leftParen), ([')'], .rightParen), (['\x7b'], .leftBrace), (['\x7d'], .rightBrace),
   ([','], .comma), (['.'], .dot), (['-'], .minus), (['+'], .plus), ([';'], .semicolon),
   (['*'], .star), (['/'], .slash), (['!'], .bang), (['!', '='], .bangEqual), (['='], .equal),
   (['=', '='], .equalEqual), (['<'], .less), (['<', '='], .lessEqual), (['>'], .greater),
   (['>', '='], .greaterEqual)]

/-- No other lexeme starts with the character. -/
structure IsStray (c : Char) : Prop where
  operator : ∀ entry ∈ operators, entry.1.head? ≠ some c
  gap : isGap c = false
  quote : isQuote c = false
  digit : c.isDigit = false
  word : isWordStart c = false

/-- A stretch of text and what it is. -/
inductive Lexeme : List Char → Content → Prop
  | blank {c : Char} : isGap c → Lexeme [c] .gap
  | comment {body : List Char} : (∀ c ∈ body, isNewline c = false) →
    Lexeme ('/' :: '/' :: body) .gap
  | operator {entry : List Char × Kind} : entry ∈ operators → Lexeme entry.1 (.token entry.2 .nil)
  | whole {c : Char} {digits : List Char} : c.isDigit → (∀ d ∈ digits, d.isDigit) →
    Lexeme (c :: digits) (.token .number (.number (Segment.numberValue (c :: digits) [])))
  | fraction {c d : Char} {digits more : List Char} : c.isDigit → (∀ d ∈ digits, d.isDigit) →
    d.isDigit → (∀ d ∈ more, d.isDigit) →
    Lexeme (c :: digits ++ '.' :: d :: more)
      (.token .number (.number (Segment.numberValue (c :: digits) (d :: more))))
  | string {body : List Char} : (∀ c ∈ body, isQuote c = false) →
    Lexeme ('\x22' :: body ++ ['\x22']) (.token .string (.string (String.ofList body)))
  | openString {body : List Char} : (∀ c ∈ body, isQuote c = false) →
    Lexeme ('\x22' :: body) (.fault .openString)
  | keyword {entry : String × Kind} : entry ∈ Kind.keywords →
    Lexeme entry.1.toList (.token entry.2 (Segment.wordLiteral entry.2))
  | name {c : Char} {rest : List Char} : isWordStart c → (∀ d ∈ rest, isWordPart d) →
    String.ofList (c :: rest) ∉ Kind.keywords.map Prod.fst →
    Lexeme (c :: rest) (.token .identifier .nil)
  | stray {c : Char} : IsStray c → Lexeme [c] (.fault (.strayCharacter c))

namespace Segment

/-! Characters of different classes differ. -/

theorem class_of_operator : ∀ entry ∈ operators, ∀ c ∈ entry.1.head?,
    isGap c = false ∧ isQuote c = false ∧ c.isDigit = false ∧ isWordStart c = false := by
  simp [operators, isGap, isQuote, isWordStart]

theorem eq_of_single? {c : Char} {kind : Kind} (h : single? c = some kind) :
    ([c], kind) ∈ operators := by
  unfold single? at h
  split at h <;> cases h <;> decide

theorem eq_of_paired? {c : Char} {alone withEqual : Kind} (h : paired? c = some (alone, withEqual)) :
    ([c], alone) ∈ operators ∧ ([c, '='], withEqual) ∈ operators := by
  unfold paired? at h
  split at h <;> cases h <;> decide

theorem single?_eq_none {c : Char} (h : ∀ entry ∈ operators, entry.1.head? ≠ some c) :
    single? c = none := by
  cases hc : single? c with
  | none => rfl
  | some kind => exact absurd rfl (h _ (eq_of_single? hc))

theorem paired?_eq_none {c : Char} (h : ∀ entry ∈ operators, entry.1.head? ≠ some c) :
    paired? c = none := by
  cases hc : paired? c with
  | none => rfl
  | some kinds => exact absurd rfl (h _ (eq_of_paired? hc).1)


variable {c : Char} {rest : List Char}

theorem not_operator (h : isGap c ∨ isQuote c ∨ c.isDigit ∨ isWordStart c) :
    ∀ entry ∈ operators, entry.1.head? ≠ some c := by
  intro entry he hc
  obtain ⟨hg, hq, hd, hw⟩ := class_of_operator entry he c hc
  rcases h with h | h | h | h
  · rw [hg] at h
    cases h
  · rw [hq] at h
    cases h
  · rw [hd] at h
    cases h
  · rw [hw] at h
    cases h

theorem ne_of_class {p : Char → Bool} {d : Char} (hc : p c) (hd : p d = false) : c ≠ d := by
  rintro rfl
  rw [hc] at hd
  cases hd

theorem not_gap_of_class {p : Char → Bool} (hc : p c) (hp : p ' ' = false ∧ p '\t' = false ∧
    p '\r' = false ∧ p '\n' = false) : isGap c = false := by
  simp [isGap, ne_of_class hc hp.1, ne_of_class hc hp.2.1, ne_of_class hc hp.2.2.1,
    ne_of_class hc hp.2.2.2]

theorem not_digit_of_wordStart (h : isWordStart c) : c.isDigit = false := by
  rw [Bool.eq_false_iff]
  intro hd
  rw [isWordStart, Bool.or_eq_true] at h
  rcases h with h | h
  · have hletter : (decide (65 ≤ c.val ∧ c.val ≤ 90) || (97 ≤ c.val && c.val ≤ 122)) = true := h
    simp only [Char.isDigit, Bool.or_eq_true, Bool.and_eq_true, decide_eq_true_eq,
      UInt32.le_iff_toNat_le] at hletter hd
    simp at hletter hd
    omega
  · rw [decide_eq_true_eq] at h
    subst h
    revert hd
    decide

/-! What the characters of each class start. -/

theorem first_of_gap (h : isGap c) : first c rest = ⟨[c], .gap⟩ := by
  simp [first, single?_eq_none (not_operator (.inl h)), paired?_eq_none (not_operator (.inl h)), h]

theorem first_of_quote : first '\x22' rest = string rest := rfl

theorem first_of_slash : first '/' rest = slash rest := rfl

theorem first_of_digit (h : c.isDigit) : first c rest = number c rest := by
  have hn := not_operator (.inr (.inr (.inl h)))
  have hg : isGap c = false := not_gap_of_class h (by decide)
  have hq : isQuote c = false := by simpa [isQuote] using ne_of_class h (by decide)
  simp [first, single?_eq_none hn, paired?_eq_none hn, hg, hq, h, ne_of_class h]

theorem first_of_wordStart (h : isWordStart c) : first c rest = word c rest := by
  have hn := not_operator (.inr (.inr (.inr h)))
  have hg : isGap c = false := not_gap_of_class h (by decide)
  have hq : isQuote c = false := by simpa [isQuote] using ne_of_class h (by decide)
  simp [first, single?_eq_none hn, paired?_eq_none hn, hg, hq, h, not_digit_of_wordStart h,
    ne_of_class h (d := '/') (by decide)]

theorem first_of_stray (h : IsStray c) : first c rest = ⟨[c], .fault (.strayCharacter c)⟩ := by
  have hs : c ≠ '/' := by
    rintro rfl
    exact h.operator (['/'], .slash) (by decide) rfl
  simp [first, single?_eq_none h.operator, paired?_eq_none h.operator, h.gap, h.quote, h.digit,
    h.word, hs]

/-! A segment is a lexeme in front of its text. -/

theorem takeWhile_append_dropWhile_eq {p : Char → Bool} {tail : List Char}
    (h : rest.dropWhile p = tail) : rest = rest.takeWhile p ++ tail := by
  rw [← h, List.takeWhile_append_dropWhile]

theorem numberTail_cases (rest : List Char) :
    numberTail rest = (rest.takeWhile Char.isDigit, []) ∨
      ∃ d more, d.isDigit ∧ rest = rest.takeWhile Char.isDigit ++ '.' :: d :: more ∧
        numberTail rest = (rest.takeWhile Char.isDigit, d :: more.takeWhile Char.isDigit) := by
  unfold numberTail
  simp only
  split
  next d more h =>
    split
    next hd => exact .inr ⟨d, more, hd, takeWhile_append_dropWhile_eq h, rfl⟩
    next => exact .inl rfl
  next => exact .inl rfl

theorem mem_takeWhile_imp {p : Char → Bool} {d : Char} (h : d ∈ rest.takeWhile p) : p d :=
  List.all_eq_true.1 List.all_takeWhile d h

theorem number_lexeme (h : c.isDigit) : Lexeme (number c rest).text (number c rest).content := by
  have hw : ∀ d ∈ rest.takeWhile Char.isDigit, d.isDigit := fun d hd => mem_takeWhile_imp hd
  obtain hn | ⟨d, more, hd, -, hn⟩ := numberTail_cases rest
  · simpa [number, hn] using Lexeme.whole h hw
  · simpa [number, hn] using Lexeme.fraction h hw hd fun d hd => mem_takeWhile_imp hd

theorem string_lexeme (rest : List Char) : Lexeme (string rest).text (string rest).content := by
  have hb : ∀ d ∈ rest.takeWhile (fun d => !isQuote d), isQuote d = false := fun d hd => by
    simpa using mem_takeWhile_imp hd
  unfold string
  simp only
  split
  next => exact .openString hb
  next quote _ h =>
    have hq : quote = '\x22' := by
      have hq := List.head?_dropWhile_not (fun d => !isQuote d) rest
      rw [h] at hq
      simpa [isQuote] using hq
    subst hq
    exact .string hb

theorem word_lexeme (h : isWordStart c) : Lexeme (word c rest).text (word c rest).content := by
  have hp : ∀ d ∈ rest.takeWhile isWordPart, isWordPart d := fun d hd => mem_takeWhile_imp hd
  simp only [word, Kind.ofWord]
  cases hl : Kind.keywords.lookup (String.ofList (c :: rest.takeWhile isWordPart)) with
  | some kind =>
    obtain ⟨before, behind, he, -⟩ := List.lookup_eq_some_iff.1 hl
    have hm : (String.ofList (c :: rest.takeWhile isWordPart), kind) ∈ Kind.keywords := by
      simp [he]
    simpa using Lexeme.keyword hm
  | none =>
    refine .name h hp fun hm => ?_
    obtain ⟨entry, he, hw⟩ := List.mem_map.1 hm
    have hne := List.lookup_eq_none_iff.1 hl entry he
    simp [hw] at hne

theorem slash_lexeme (rest : List Char) : Lexeme (slash rest).text (slash rest).content := by
  unfold slash
  split
  · exact .comment fun d hd => by simpa using mem_takeWhile_imp hd
  · have hslash : (['/'], Kind.slash) ∈ operators := by decide
    exact .operator hslash

theorem operator_head : ∀ entry ∈ operators, ∀ c ∈ entry.1.head?,
    (single? c).isSome ∨ (paired? c).isSome ∨ c = '/' := by
  simp [operators, single?, paired?]

theorem first_lexeme (c : Char) (rest : List Char) :
    Lexeme (first c rest).text (first c rest).content := by
  unfold first
  split
  next kind hk => exact .operator (eq_of_single? hk)
  next hs =>
    split
    next alone withEqual hk =>
      split
      · exact .operator (eq_of_paired? hk).2
      · exact .operator (eq_of_paired? hk).1
    next hp =>
      split
      next hg => exact .blank hg
      next hg =>
      split
      next => exact slash_lexeme rest
      next hslash =>
      split
      next hq => exact string_lexeme rest
      next hq =>
      split
      next hd => exact number_lexeme hd
      next hd =>
      split
      next hw => exact word_lexeme hw
      next hw =>
        refine .stray ⟨fun entry he hc => ?_, by simpa using hg, by simpa using hq,
          by simpa using hd, by simpa using hw⟩
        have h := operator_head entry he c hc
        simp [hs, hp, hslash] at h

theorem number_prefix (c : Char) (rest : List Char) : (number c rest).text <+: c :: rest := by
  obtain hn | ⟨d, more, -, hr, hn⟩ := numberTail_cases rest
  · simpa [number, hn] using List.takeWhile_prefix _
  · refine ⟨more.dropWhile Char.isDigit, ?_⟩
    calc (number c rest).text ++ more.dropWhile Char.isDigit
      _ = c :: (rest.takeWhile Char.isDigit ++ '.' :: d :: more) := by simp [number, hn]
      _ = c :: rest := by rw [← hr]

theorem string_prefix (rest : List Char) : (string rest).text <+: '\x22' :: rest := by
  unfold string
  simp only
  split
  next => simpa using List.takeWhile_prefix _
  next quote more h =>
    refine ⟨more, ?_⟩
    calc '\x22' :: rest.takeWhile (fun d => !isQuote d) ++ [quote] ++ more
      _ = '\x22' :: (rest.takeWhile (fun d => !isQuote d) ++ quote :: more) := by simp
      _ = '\x22' :: rest := by rw [← takeWhile_append_dropWhile_eq h]

theorem first_prefix (c : Char) (rest : List Char) : (first c rest).text <+: c :: rest := by
  have hone : [c] <+: c :: rest := by simp
  unfold first
  split
  next => exact hone
  next =>
    split
    next =>
      split
      next he =>
        obtain ⟨more, rfl⟩ : ∃ more, rest = '=' :: more := by
          cases rest with
          | nil => cases he
          | cons d more => exact ⟨more, by simpa using he⟩
        exact ⟨more, rfl⟩
      next => exact hone
    next =>
      split
      next => exact hone
      split
      next hs =>
        subst hs
        unfold slash
        split
        · simpa using List.takeWhile_prefix _
        · exact hone
      split
      next hq =>
        obtain rfl : c = '\x22' := by simpa [isQuote] using hq
        exact string_prefix rest
      split
      next => exact number_prefix c rest
      split
      next => simpa [word] using List.takeWhile_prefix _
      next => exact hone

/-! Every lexeme begins a segment that is no shorter, and is one where nothing follows it. -/

/-- The segment at the beginning of `text ++ more` goes at least as far as `text`, which by itself
is the content. -/
def Begins (text : List Char) (content : Content) : Prop :=
  ∀ c t, text = c :: t →
    (∀ more, text <+: (first c (t ++ more)).text) ∧ (first c t).content = content

theorem operator_cases : ∀ entry ∈ operators, ∀ c ∈ entry.1.head?,
    (entry.1.tail = [] ∧ (single? c = some entry.2 ∨ c = '/' ∧ entry.2 = .slash ∨
      single? c = none ∧ (paired? c).map Prod.fst = some entry.2)) ∨
    (entry.1.tail = ['='] ∧ single? c = none ∧ (paired? c).map Prod.snd = some entry.2) := by
  simp [operators, single?, paired?]

theorem begins_operator {entry : List Char × Kind} (h : entry ∈ operators) :
    Begins entry.1 (.token entry.2 .nil) := by
  intro c t ht
  have hcases := operator_cases entry h c (by simp [ht])
  rw [ht, List.tail_cons] at hcases
  rw [ht]
  rcases hcases with ⟨rfl, hs | ⟨rfl, hk⟩ | ⟨hs, hp⟩⟩ | ⟨rfl, hs, hp⟩
  · simp only [first, hs]
    exact ⟨fun _ => List.prefix_rfl, rfl⟩
  · refine ⟨fun more => ?_, by rw [hk]; rfl⟩
    simp only [first_of_slash, slash]
    split
    · exact ⟨_, rfl⟩
    · exact List.prefix_rfl
  · obtain ⟨kinds, hp, hk⟩ := Option.map_eq_some_iff.1 hp
    simp only [first, hs, hp]
    refine ⟨fun more => ?_, by rw [← hk]; rfl⟩
    split
    · exact ⟨['='], rfl⟩
    · exact List.prefix_rfl
  · obtain ⟨kinds, hp, hk⟩ := Option.map_eq_some_iff.1 hp
    simp only [first, hs, hp]
    exact ⟨fun _ => List.prefix_rfl, by rw [← hk]; rfl⟩

theorem begins_whole {digits : List Char} (hc : c.isDigit) (hd : ∀ d ∈ digits, d.isDigit) :
    Begins (c :: digits) (.token .number (.number (numberValue (c :: digits) []))) := by
  rintro _ _ ⟨⟩
  simp only [first_of_digit hc]
  constructor
  · intro more
    obtain hn | ⟨_, _, -, -, hn⟩ := numberTail_cases (digits ++ more) <;>
      simp [number, hn, List.takeWhile_append_of_pos hd]
  · have htail : numberTail digits = (digits, []) := by
      have htake : digits.takeWhile Char.isDigit = digits := List.takeWhile_eq_self_iff.2 hd
      have hdrop : digits.dropWhile Char.isDigit = [] := List.dropWhile_eq_nil_iff.2 hd
      simp [numberTail, htake, hdrop]
    simp [number, htail]

theorem begins_fraction {d : Char} {digits more : List Char} (hc : c.isDigit)
    (hd : ∀ d ∈ digits, d.isDigit) (hf : d.isDigit) (hm : ∀ d ∈ more, d.isDigit) :
    Begins (c :: digits ++ '.' :: d :: more)
      (.token .number (.number (numberValue (c :: digits) (d :: more)))) := by
  rintro _ _ ⟨⟩
  have htail (behind : List Char) : numberTail (digits ++ '.' :: d :: (more ++ behind)) =
      (digits, d :: (more ++ behind.takeWhile Char.isDigit)) := by
    simp [numberTail, List.takeWhile_append_of_pos hd, List.dropWhile_append_of_pos hd,
      List.takeWhile_append_of_pos hm, hf, show Char.isDigit '.' = false from rfl]
  simp only [first_of_digit hc]
  constructor
  · intro behind
    simp [number, htail]
  · have hbare := htail []
    simp only [List.append_nil, List.takeWhile_nil] at hbare
    simp [number, hbare]

theorem begins_string {body : List Char} (hb : ∀ c ∈ body, isQuote c = false) :
    Begins ('\x22' :: body ++ ['\x22']) (.token .string (.string (String.ofList body))) := by
  rintro _ _ ⟨⟩
  have hb : ∀ c ∈ body, (!isQuote c) = true := fun c hc => by simp [hb c hc]
  have hstring (more : List Char) : string (body ++ '\x22' :: more) =
      ⟨'\x22' :: body ++ ['\x22'], .token .string (.string (String.ofList body))⟩ := by
    simp [string, List.takeWhile_append_of_pos hb, List.dropWhile_append_of_pos hb,
      show isQuote '\x22' = true from rfl]
  simp only [first_of_quote]
  constructor
  · intro more
    simp [hstring]
  · simp [hstring]

theorem begins_openString {body : List Char} (hb : ∀ c ∈ body, isQuote c = false) :
    Begins ('\x22' :: body) (.fault .openString) := by
  rintro _ _ ⟨⟩
  have hb : ∀ c ∈ body, (!isQuote c) = true := fun c hc => by simp [hb c hc]
  simp only [first_of_quote, string]
  constructor
  · intro more
    split <;> simp [List.takeWhile_append_of_pos hb]
  · rw [List.dropWhile_eq_nil_iff.2 hb]

/-- Words, reserved or not. -/
theorem begins_word (rest : List Char) (hc : isWordStart c) (hr : ∀ d ∈ rest, isWordPart d) :
    Begins (c :: rest) (.token (Kind.ofWord (String.ofList (c :: rest)))
      (wordLiteral (Kind.ofWord (String.ofList (c :: rest))))) := by
  rintro _ _ ⟨⟩
  simp only [first_of_wordStart hc, word]
  constructor
  · intro more
    simp [List.takeWhile_append_of_pos hr]
  · rw [List.takeWhile_eq_self_iff.2 hr]

theorem keyword_word : ∀ entry ∈ Kind.keywords, Kind.ofWord entry.1 = entry.2 ∧
    entry.1.toList.head?.any isWordStart ∧ entry.1.toList.tail.all isWordPart := by
  decide

theorem begins_keyword {entry : String × Kind} (h : entry ∈ Kind.keywords) :
    Begins entry.1.toList (.token entry.2 (wordLiteral entry.2)) := by
  obtain ⟨hk, hs, hp⟩ := keyword_word entry h
  intro c t ht
  rw [ht] at hs hp
  have hword := begins_word t (by simpa using hs) (List.all_eq_true.1 hp) c t rfl
  rw [← ht, String.ofList_toList, hk] at hword
  exact hword

theorem begins_name {rest : List Char} (hc : isWordStart c) (hr : ∀ d ∈ rest, isWordPart d)
    (hn : String.ofList (c :: rest) ∉ Kind.keywords.map Prod.fst) :
    Begins (c :: rest) (.token .identifier .nil) := by
  have hk : Kind.ofWord (String.ofList (c :: rest)) = .identifier := by
    unfold Kind.ofWord
    rw [List.lookup_eq_none_iff.2 fun entry he => ?_]
    · rfl
    · rw [bne_iff_ne]
      exact fun heq => hn (List.mem_map.2 ⟨entry, he, heq.symm⟩)
  have hword := begins_word rest hc hr
  rwa [hk] at hword

end Segment

open Segment

theorem Lexeme.begins {text : List Char} {content : Content} (h : Lexeme text content) :
    Begins text content := by
  cases h with
  | blank h =>
    rintro _ _ ⟨⟩
    exact ⟨fun more => by simp [first_of_gap h], by rw [first_of_gap h]⟩
  | @comment body h =>
    rintro _ _ ⟨⟩
    have h : ∀ c ∈ body, (!isNewline c) = true := fun c hc => by simp [h c hc]
    exact ⟨fun more => by simp [first_of_slash, slash, List.takeWhile_append_of_pos h], rfl⟩
  | operator h => exact begins_operator h
  | whole hc hd => exact begins_whole hc hd
  | fraction hc hd hf hm => exact begins_fraction hc hd hf hm
  | string h => exact begins_string h
  | openString h => exact begins_openString h
  | keyword h => exact begins_keyword h
  | name hc hr hn => exact begins_name hc hr hn
  | stray h =>
    rintro _ _ ⟨⟩
    exact ⟨fun more => by simp [first_of_stray h], by rw [first_of_stray h]⟩

theorem Lexeme.ne_nil {text : List Char} {content : Content} (h : Lexeme text content) :
    text ≠ [] := by
  cases h with
  | operator h =>
    have hall : ∀ entry ∈ operators, entry.1 ≠ [] := by decide
    exact hall _ h
  | keyword h =>
    have hall : ∀ entry ∈ Kind.keywords, entry.1.toList ≠ [] := by decide
    exact hall _ h
  | _ => simp

theorem Lexeme.ne_eof {text : List Char} {kind : Kind} {literal : Literal}
    (h : Lexeme text (.token kind literal)) : kind ≠ .eof := by
  cases h with
  | operator h =>
    have hall : ∀ entry ∈ operators, entry.2 ≠ .eof := by decide
    exact hall _ h
  | keyword h =>
    have hall : ∀ entry ∈ Kind.keywords, entry.2 ≠ .eof := by decide
    exact hall _ h
  | _ => simp

/-- Nothing longer than the first segment is a lexeme. -/
theorem Lexeme.length_le_first {text rest : List Char} {c : Char} {content : Content}
    (h : Lexeme text content) (hp : text <+: c :: rest) :
    text.length ≤ (first c rest).text.length := by
  obtain ⟨d, t, rfl⟩ := List.exists_cons_of_ne_nil h.ne_nil
  obtain ⟨more, hmore⟩ := hp
  obtain ⟨rfl, rfl⟩ : d = c ∧ t ++ more = rest := by simpa using hmore
  exact ((h.begins d t rfl).1 more).length_le

end Lox
