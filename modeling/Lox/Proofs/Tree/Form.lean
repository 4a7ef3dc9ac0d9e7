import Lox.Tree.Text
import Mathlib.Data.List.TakeWhile

/-! Forms as trees: a form is a word, or its parts in parentheses. Words have no blanks, line ends
and parentheses in them, so that the text of a form tells where each part of it ends. -/
namespace Lox

/-- The characters around words. -/
def isMark (c : Char) : Bool := c = ' ' || c = '\n' || c = '(' || c = ')'

/-- A word that can be told from what stands around it. -/
structure IsWord (text : String) : Prop where
  ne_nil : text.toList ≠ []
  notMark : ∀ c ∈ text.toList, isMark c = false

theorem isWord_iff {text : String} : IsWord text ↔
    (!text.toList.isEmpty && text.toList.all fun c => !isMark c) = true := by
  simp only [Bool.and_eq_true, Bool.not_eq_true', List.isEmpty_eq_false_iff, List.all_eq_true]
  exact ⟨fun h => ⟨h.1, h.2⟩, fun h => ⟨h.1, h.2⟩⟩

instance (text : String) : Decidable (IsWord text) := decidable_of_iff _ isWord_iff.symm

inductive Form where
  | word (text : String)
  | list (parts : List Form)

mutual
def Form.text : Form → String
  | .word text => text
  | .list parts => form (formTexts parts)

def formTexts : List Form → List String
  | [] => []
  | f :: rest => f.text :: formTexts rest
end

mutual
def Form.Proper : Form → Prop
  | .word text => IsWord text
  | .list parts => formsProper parts

def formsProper : List Form → Prop
  | [] => True
  | f :: rest => f.Proper ∧ formsProper rest
end

/-! The characters of a text. -/

/-- The forms with a separator in front of each. -/
def spaced (separator : Char) : List Form → List Char
  | [] => []
  | f :: rest => separator :: (f.text.toList ++ spaced separator rest)

/-- The forms with a separator between each two. -/
def joined (separator : Char) : List Form → List Char
  | [] => []
  | f :: rest => f.text.toList ++ spaced separator rest

theorem toList_intercalate_formTexts (separator : Char) (fs : List Form) :
    ((String.singleton separator).intercalate (formTexts fs)).toList = joined separator fs := by
  rw [String.toList_intercalate, String.toList_singleton]
  cases fs with
  | nil => rfl
  | cons f rest =>
    induction rest generalizing f with
    | nil => simp [formTexts, joined, spaced]
    | cons g rest ih =>
      simp only [formTexts, List.map_cons, List.intercalate_cons_cons, joined, spaced] at ih ⊢
      rw [ih, List.append_assoc, List.singleton_append]

theorem Form.toList_text_list (parts : List Form) :
    (Form.list parts).text.toList = '(' :: (joined ' ' parts ++ [')']) := by
  have hblank : " " = String.singleton ' ' := rfl
  simp only [Form.text, form, String.toList_append, hblank, toList_intercalate_formTexts]
  rfl

/-- No text of a form starts like the end of a list. -/
theorem Form.Proper.exists_head {f : Form} (hf : f.Proper) :
    ∃ c rest, f.text.toList = c :: rest ∧ c ≠ ')' := by
  cases f with
  | word text =>
    obtain ⟨c, rest, htext⟩ := List.exists_cons_of_ne_nil (IsWord.ne_nil hf)
    refine ⟨c, rest, htext, ?_⟩
    rintro rfl
    exact absurd (hf.notMark ')' (htext ▸ List.mem_cons_self)) (by decide)
  | list parts => exact ⟨'(', _, Form.toList_text_list parts, by decide⟩

theorem Form.Proper.joined_ne {f : Form} (hf : f.Proper) (separator : Char) (rest : List Form)
    (behind behind' : List Char) :
    ')' :: behind ≠ joined separator (f :: rest) ++ ')' :: behind' := by
  intro h
  obtain ⟨c, text, htext, hne⟩ := hf.exists_head
  rw [joined, htext] at h
  exact hne (List.cons.inj h).1.symm

/-! Reading a form in front of other text. -/

/-- Nothing in front of the text goes on into it. -/
def Stops (behind : List Char) : Prop := ∀ c ∈ behind.head?, isMark c = true

theorem IsWord.takeWhile {text : String} (h : IsWord text) {behind : List Char}
    (hstop : Stops behind) :
    (text.toList ++ behind).takeWhile (fun c => !isMark c) = text.toList := by
  rw [List.takeWhile_append_of_pos fun c hc => by simp [h.notMark c hc]]
  cases behind with
  | nil => simp
  | cons c behind => simp [hstop c rfl]

theorem spaced_stops {separator : Char} (hmark : isMark separator = true) (fs : List Form)
    (behind : List Char) : Stops (spaced separator fs ++ ')' :: behind) := by
  cases fs with
  | nil =>
    rintro _ ⟨⟩
    decide
  | cons f rest =>
    rintro _ ⟨⟩
    exact hmark

/-- A word and a list start differently. -/
theorem word_ne_list {text : String} (h : IsWord text) (parts : List Form)
    (behind behind' : List Char) :
    text.toList ++ behind ≠ (Form.list parts).text.toList ++ behind' := by
  intro heq
  obtain ⟨c, rest, hc⟩ := List.exists_cons_of_ne_nil h.ne_nil
  rw [Form.toList_text_list, hc] at heq
  obtain ⟨rfl, -⟩ := List.cons.inj heq
  exact absurd (h.notMark '(' (hc ▸ List.mem_cons_self)) (by decide)

-- Both forms are read from the left. A word ends at the first mark, and a list at the parenthesis
-- that closes it, where the texts behind the two forms are left to be compared.
mutual
/-- The text of a form is the text of no other form, whatever is behind it. -/
theorem Form.text_append_inj : {f g : Form} → f.Proper → g.Proper → {behind behind' : List Char} →
    Stops behind → Stops behind' → f.text.toList ++ behind = g.text.toList ++ behind' →
      f = g ∧ behind = behind'
  | .word v, .word w, hv, hw, behind, behind', hstop, hstop', h => by
    have hsame : v = w := String.toList_inj.1 <|
      (hv.takeWhile hstop).symm.trans <|
        (congrArg (List.takeWhile fun c => !isMark c) h).trans (hw.takeWhile hstop')
    subst hsame
    exact ⟨rfl, List.append_cancel_left h⟩
  | .word _, .list _, hv, _, _, _, _, _, h => absurd h (word_ne_list hv _ _ _)
  | .list _, .word _, _, hw, _, _, _, _, h => absurd h.symm (word_ne_list hw _ _ _)
  | .list parts, .list parts', hf, hg, behind, behind', _, _, h => by
    simp only [Form.toList_text_list, List.cons_append, List.append_assoc,
      List.cons.injEq, true_and, List.nil_append] at h
    obtain ⟨rfl, hbehind⟩ := joined_inj (by decide) (by decide) hf hg h
    exact ⟨rfl, hbehind⟩

/-- Forms in a list are told apart by their texts with separators, up to the end of the list. -/
theorem joined_inj : {separator : Char} → isMark separator = true → separator ≠ ')' →
    {fs gs : List Form} → formsProper fs → formsProper gs → {behind behind' : List Char} →
      joined separator fs ++ ')' :: behind = joined separator gs ++ ')' :: behind' →
        fs = gs ∧ behind = behind'
  | _, _, _, [], [], _, _, _, _, h => ⟨rfl, (List.cons.inj h).2⟩
  | _, _, _, [], _ :: _, _, ⟨hg, _⟩, _, _, h => absurd h (hg.joined_ne _ _ _ _)
  | _, _, _, _ :: _, [], ⟨hf, _⟩, _, _, _, h => absurd h.symm (hf.joined_ne _ _ _ _)
  | separator, hmark, hclose, f :: rest, g :: rest', ⟨hf, hrest⟩, ⟨hg, hrest'⟩, _, _, h => by
    simp only [joined, List.append_assoc] at h
    obtain ⟨rfl, htail⟩ := Form.text_append_inj hf hg (spaced_stops hmark rest _)
      (spaced_stops hmark rest' _) h
    obtain ⟨rfl, hbehind⟩ := spaced_inj hmark hclose hrest hrest' htail
    exact ⟨rfl, hbehind⟩

theorem spaced_inj : {separator : Char} → isMark separator = true → separator ≠ ')' →
    {fs gs : List Form} → formsProper fs → formsProper gs → {behind behind' : List Char} →
      spaced separator fs ++ ')' :: behind = spaced separator gs ++ ')' :: behind' →
        fs = gs ∧ behind = behind'
  | _, _, _, [], [], _, _, _, _, h => ⟨rfl, (List.cons.inj h).2⟩
  | _, _, hclose, [], _ :: _, _, _, _, _, h => absurd (List.cons.inj h).1.symm hclose
  | _, _, hclose, _ :: _, [], _, _, _, _, h => absurd (List.cons.inj h).1 hclose
  | separator, hmark, hclose, f :: rest, g :: rest', ⟨hf, hrest⟩, ⟨hg, hrest'⟩, _, _, h => by
    simp only [spaced, List.cons_append, List.append_assoc, List.cons.injEq, true_and] at h
    obtain ⟨rfl, htail⟩ := Form.text_append_inj hf hg (spaced_stops hmark rest _)
      (spaced_stops hmark rest' _) h
    obtain ⟨rfl, hbehind⟩ := spaced_inj hmark hclose hrest hrest' htail
    exact ⟨rfl, hbehind⟩
end

/-- Forms on lines of their own are told apart by the text of all of them. -/
theorem lines_inj {fs gs : List Form} (hf : formsProper fs) (hg : formsProper gs)
    (h : "\n".intercalate (formTexts fs) = "\n".intercalate (formTexts gs)) : fs = gs := by
  have hline : "\n" = String.singleton '\n' := rfl
  have hjoined : joined '\n' fs = joined '\n' gs := by
    rw [← toList_intercalate_formTexts, ← toList_intercalate_formTexts, ← hline, h]
  exact (joined_inj (by decide) (by decide) hf hg (congrArg (· ++ [')']) hjoined)).1

end Lox
