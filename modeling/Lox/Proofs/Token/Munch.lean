import Lox.Proofs.Token.Lexeme
import Mathlib.Data.List.Forall2

/-! Scanning cuts a source into the longest lexemes, and its items are those that are no gaps. -/
namespace Lox

/-- A text and its segments: each is a lexeme, and nothing longer at its place is one. -/
inductive Munched : List Char → List Segment → Prop
  | nil : Munched [] []
  | cons {s : Segment} {rest : List Char} {segments : List Segment} :
    Lexeme s.text s.content →
    (∀ text content, Lexeme text content → text <+: s.text ++ rest →
      text.length ≤ s.text.length) →
    Munched rest segments → Munched (s.text ++ rest) (s :: segments)

namespace Munched

variable {source : List Char} {segments : List Segment}

theorem flatMap_text (h : Munched source segments) : segments.flatMap Segment.text = source := by
  induction h with
  | nil => rfl
  | cons _ _ _ ih => rw [List.flatMap_cons, ih]

theorem all (source : List Char) : Munched source (Segment.all source) := by
  fun_induction Segment.all source with
  | case1 => exact .nil
  | case2 c rest s ih =>
    have hlexeme : Lexeme s.text s.content := Segment.first_lexeme c rest
    obtain ⟨more, hmore⟩ : s.text <+: c :: rest := Segment.first_prefix c rest
    have hrest : rest.drop (s.text.length - 1) = more := by
      have hpos : 0 < s.text.length := List.length_pos_of_ne_nil hlexeme.ne_nil
      calc rest.drop (s.text.length - 1)
        _ = (c :: rest).drop (s.text.length - 1 + 1) := rfl
        _ = (s.text ++ more).drop s.text.length := by rw [Nat.sub_add_cancel hpos, hmore]
        _ = more := List.drop_left
    rw [hrest] at ih ⊢
    rw [← hmore]
    refine .cons hlexeme (fun text content h hp => ?_) ih
    exact h.length_le_first (hmore ▸ hp)

theorem lexeme (h : Munched source segments) {s : Segment} (hs : s ∈ segments) :
    Lexeme s.text s.content := by
  induction h with
  | nil => cases hs
  | cons hlexeme _ _ ih =>
    rcases List.mem_cons.1 hs with rfl | hs
    · exact hlexeme
    · exact ih hs

/-- What stands behind some of the segments is cut by itself. -/
theorem behind {before after : List Segment} (h : Munched source (before ++ after)) :
    ∃ rest, Munched rest after := by
  induction before generalizing source with
  | nil => exact ⟨source, h⟩
  | cons s before ih =>
    cases h with
    | cons _ _ h => exact ih h

end Munched

/-- A token or a fault is shown as an item of some line; a gap is not shown. -/
inductive Segment.Shows : Segment → Item → Prop
  | token {text : List Char} {kind : Kind} {literal : Literal} {line : Nat} :
    Shows ⟨text, .token kind literal⟩ (.token ⟨kind, String.ofList text, literal, line⟩)
  | fault {text : List Char} {f : LexicalFault} {line : Nat} :
    Shows ⟨text, .fault f⟩ (.fault ⟨line, .lexical f⟩)

def Segment.isShown (s : Segment) : Bool :=
  match s.content with
  | .gap => false
  | _ => true

theorem Item.ofSegments_shows (segments : List Segment) (line : Nat) :
    ∃ items last, Item.ofSegments line segments = items ++ [.token ⟨.eof, "", .nil, last⟩] ∧
      List.Forall₂ Segment.Shows (segments.filter Segment.isShown) items := by
  induction segments generalizing line with
  | nil => exact ⟨[], line, rfl, .nil⟩
  | cons s rest ih =>
    rcases s with ⟨text, content⟩
    let here := line + Segment.newlines ⟨text, content⟩
    obtain ⟨items, last, hitems, hshows⟩ := ih here
    cases content with
    | gap => exact ⟨items, last, hitems, hshows⟩
    | token kind literal =>
      refine ⟨.token ⟨kind, String.ofList text, literal, here⟩ :: items, last, ?_, .cons .token hshows⟩
      exact congrArg (List.cons _) hitems
    | fault f =>
      refine ⟨.fault ⟨here, .lexical f⟩ :: items, last, ?_, .cons .fault hshows⟩
      exact congrArg (List.cons _) hitems

theorem Item.scan_shows (source : String) :
    ∃ items last, Item.scan source = items ++ [.token ⟨.eof, "", .nil, last⟩] ∧
      List.Forall₂ Segment.Shows ((Segment.all source.toList).filter Segment.isShown) items :=
  Item.ofSegments_shows _ 1

theorem Segment.exists_shown {segments : List Segment} {items : List Item} {item : Item}
    (h : List.Forall₂ Segment.Shows segments items) (hi : item ∈ items) :
    ∃ s ∈ segments, s.Shows item := by
  induction h with
  | nil => cases hi
  | cons hs _ ih =>
    rcases List.mem_cons.1 hi with rfl | hi
    · exact ⟨_, List.mem_cons_self, hs⟩
    · obtain ⟨s, hm, hs⟩ := ih hi
      exact ⟨s, List.mem_cons_of_mem _ hm, hs⟩

/-- A scanned token is a lexeme, or the mark of the end. -/
theorem Token.scan_lexeme {source : String} {t : Token} (ht : t ∈ Token.scan source) :
    Lexeme t.lexeme.toList (.token t.kind t.literal) ∨
      t.lexeme = "" ∧ t.kind = .eof ∧ t.literal = .nil := by
  obtain ⟨item, hi, he⟩ := List.mem_filterMap.1 ht
  obtain ⟨items, last, hitems, hshows⟩ := Item.scan_shows source
  cases item with
  | fault d => cases he
  | token t' =>
    cases he
    rw [hitems] at hi
    rcases List.mem_append.1 hi with hi | hi
    · obtain ⟨s, hs, hshow⟩ := Segment.exists_shown hshows hi
      have hlexeme := (Munched.all source.toList).lexeme (List.mem_filter.1 hs).1
      cases hshow
      exact .inl (by simpa using hlexeme)
    · cases List.mem_singleton.1 hi
      exact .inr ⟨rfl, rfl, rfl⟩

end Lox
