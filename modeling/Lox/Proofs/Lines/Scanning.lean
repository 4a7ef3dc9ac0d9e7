import Lox.Proofs.Lines.Relined
import Lox.Proofs.Token.Stopping

/-! Sources one behind the other: a newline behind a source without an open string ends its last
segment, so what is behind the newline is scanned as if it stood alone, on other lines. -/
namespace Lox

namespace Segment

/-- The text in front of a newline and the text behind it are cut as if each stood alone. -/
theorem all_newline (text behind : List Char)
    (h : ∀ s ∈ all text, s.content ≠ .fault .openString) :
    all (text ++ '\n' :: behind) = all text ++ ⟨['\n'], .gap⟩ :: all behind := by
  fun_induction Segment.all text with
  | case1 =>
    rw [List.nil_append, Segment.all]
    rfl
  | case2 c rest s ih =>
    obtain ⟨hs, hrest⟩ := List.forall_mem_cons.1 h
    have hlength : s.text.length - 1 ≤ rest.length := by
      have hs : s.text <+: c :: rest := first_prefix c rest
      have hle := hs.length_le
      rw [List.length_cons] at hle
      omega
    rw [List.cons_append, Segment.all, first_append_gap c rest behind rfl hs (.inl rfl),
      List.drop_append_of_le_length hlength]
    exact congrArg (s :: ·) (ih hrest)

end Segment

def Item.relined (φ : Nat → Nat) : Item → Item
  | token t => token (t.relined φ)
  | fault d => fault (d.relined φ)

/-- The newlines in a text. -/
def newlines (text : List Char) : Nat := text.count '\n'

namespace Item

@[simp] theorem fault?_token (t : Token) : (token t).fault? = none := rfl

@[simp] theorem token?_relined (φ : Nat → Nat) (item : Item) :
    (item.relined φ).token? = item.token?.map (.relined φ) := by
  cases item <;> rfl

@[simp] theorem fault?_relined (φ : Nat → Nat) (item : Item) :
    (item.relined φ).fault? = item.fault?.map (.relined φ) := by
  cases item <;> rfl

theorem ofSegments_shift (k line : Nat) (segments : List Segment) :
    ofSegments (line + k) segments = (ofSegments line segments).map (relined (· + k)) := by
  induction segments generalizing line with
  | nil => rfl
  | cons s rest ih =>
    have hhere : line + k + s.newlines = line + s.newlines + k := Nat.add_right_comm _ _ _
    simp only [ofSegments, hhere, ih]
    cases s.content <;> rfl

theorem ofSegments_append (line : Nat) (before : List Segment) :
    ∃ items last, ofSegments line before = items ++ [token ⟨.eof, "", .nil, last⟩] ∧
      last = line + newlines (before.flatMap Segment.text) ∧
        ∀ after, ofSegments line (before ++ after) = items ++ ofSegments last after := by
  induction before generalizing line with
  | nil => exact ⟨[], line, rfl, rfl, fun _ => rfl⟩
  | cons s rest ih =>
    obtain ⟨items, last, hitems, hlast, happend⟩ := ih (line + s.newlines)
    have hlast : last = line + newlines ((s :: rest).flatMap Segment.text) := by
      rw [hlast, List.flatMap_cons, newlines, newlines, List.count_append, Segment.newlines,
        Nat.add_assoc]
    rcases s with ⟨text, content⟩
    cases content with
    | gap => exact ⟨items, last, hitems, hlast, happend⟩
    | token kind literal =>
      exact ⟨_ :: items, last, congrArg (List.cons _) hitems, hlast,
        fun after => congrArg (List.cons _) (happend after)⟩
    | fault f =>
      exact ⟨_ :: items, last, congrArg (List.cons _) hitems, hlast,
        fun after => congrArg (List.cons _) (happend after)⟩

theorem ofSegments_faultless {line : Nat} {segments : List Segment}
    (h : (ofSegments line segments).filterMap fault? = []) :
    ∀ s ∈ segments, ∀ f, s.content ≠ .fault f := by
  induction segments generalizing line with
  | nil => simp
  | cons s rest ih =>
    rw [ofSegments] at h
    cases hc : s.content with
    | gap =>
      rw [hc] at h
      exact List.forall_mem_cons.2 ⟨by simp [hc], ih h⟩
    | token kind literal =>
      rw [hc] at h
      exact List.forall_mem_cons.2 ⟨by simp [hc], ih h⟩
    | fault f =>
      rw [hc] at h
      cases h

theorem map_token_tokens {items : List Item} (h : items.filterMap fault? = []) :
    (items.filterMap token?).map token = items := by
  induction items with
  | nil => rfl
  | cons item items ih =>
    cases item with
    | token t => exact congrArg (token t :: ·) (ih h)
    | fault d => cases h

/-- A source has one mark of the end, which is its last item. -/
theorem scan_ends (source : String) :
    ∃ items last, scan source = items ++ [token ⟨.eof, "", .nil, last⟩] ∧
      ∀ t, token t ∈ items → t.kind ≠ .eof := by
  obtain ⟨items, last, hitems, hshows⟩ := scan_shows source
  refine ⟨items, last, hitems, fun t ht => ?_⟩
  obtain ⟨s, hs, hshow⟩ := Segment.exists_shown hshows ht
  have hlexeme := (Munched.all source.toList).lexeme (List.mem_filter.1 hs).1
  cases hshow
  exact hlexeme.ne_eof

/-- A source without faults, a newline and another source: in the place of the mark of the end come
the items of the other source, on the lines behind. -/
theorem scan_append {before : String} (h : Diagnostic.scan before = []) (behind : String) :
    ∃ tokens e, Token.scan before = tokens ++ [e] ∧ e.kind = .eof ∧
      (∀ t ∈ tokens, t.kind ≠ .eof) ∧
        scan (before ++ "\n" ++ behind) = tokens.map token ++
          (scan behind).map (relined (· + (newlines before.toList + 1))) := by
  obtain ⟨items, last, hitems, hlast, happend⟩ := ofSegments_append 1 (Segment.all before.toList)
  obtain ⟨items', last', hitems', hkinds⟩ := scan_ends before
  obtain rfl : items' = items := (List.append_inj' (hitems'.symm.trans hitems) rfl).1
  have hfaults : items'.filterMap fault? = [] := by
    simpa [Diagnostic.scan, hitems', fault?] using h
  refine ⟨items'.filterMap token?, ⟨.eof, "", .nil, last⟩, ?_, rfl, fun t ht => ?_, ?_⟩
  · rw [Token.scan, scan, hitems, List.filterMap_append]
    rfl
  · obtain ⟨item, hi, he⟩ := List.mem_filterMap.1 ht
    cases item with
    | fault d => cases he
    | token t' =>
      cases he
      exact hkinds t hi
  · have hopen : ∀ s ∈ Segment.all before.toList, s.content ≠ .fault .openString :=
      fun s hs => ofSegments_faultless h s hs _
    have hlast : last + Segment.newlines ⟨['\n'], .gap⟩ =
        1 + (newlines before.toList + 1) := by
      rw [hlast, (Munched.all before.toList).flatMap_text, Nat.add_assoc]
      rfl
    have hsource : (before ++ "\n" ++ behind).toList = before.toList ++ '\n' :: behind.toList := by
      simp
    rw [map_token_tokens hfaults, scan, hsource, Segment.all_newline _ _ hopen, happend, ofSegments,
      hlast, ofSegments_shift]
    rfl

end Item

/-- The tokens of a source are some that are no mark of the end, and the mark of the end. -/
theorem Token.scan_ends (source : String) :
    ∃ tokens e, Token.scan source = tokens ++ [e] ∧ e.kind = .eof ∧ ∀ t ∈ tokens, t.kind ≠ .eof := by
  obtain ⟨items, last, hitems, hkinds⟩ := Item.scan_ends source
  refine ⟨items.filterMap Item.token?, ⟨.eof, "", .nil, last⟩, ?_, rfl, fun t ht => ?_⟩
  · rw [Token.scan, hitems, List.filterMap_append]
    rfl
  · obtain ⟨item, hi, he⟩ := List.mem_filterMap.1 ht
    cases item with
    | fault d => cases he
    | token t' =>
      cases he
      exact hkinds t hi

/-- A source without faults, a newline and another source. -/
theorem Token.scan_append {before : String} (h : Diagnostic.scan before = []) (behind : String) :
    ∃ tokens e, Token.scan before = tokens ++ [e] ∧ e.kind = .eof ∧
      (∀ t ∈ tokens, t.kind ≠ .eof) ∧
        Token.scan (before ++ "\n" ++ behind) = tokens ++
          (Token.scan behind).map (Token.relined (· + (newlines before.toList + 1))) ∧
        Diagnostic.scan (before ++ "\n" ++ behind) =
          (Diagnostic.scan behind).map (Diagnostic.relined (· + (newlines before.toList + 1))) := by
  obtain ⟨tokens, e, hscan, he, htokens, hjoined⟩ := Item.scan_append h behind
  refine ⟨tokens, e, hscan, he, htokens, ?_, ?_⟩
  · have hfront : Item.token? ∘ Item.token = some := rfl
    rw [Token.scan, hjoined, List.filterMap_append, List.filterMap_map, hfront, List.filterMap_some]
    simp [Token.scan, List.map_filterMap, List.filterMap_map]
  · simp [Diagnostic.scan, hjoined, List.map_filterMap, List.filterMap_map]

end Lox
