import Lox.Proofs.Lines.Scanning

/-! Tokens written down again: their lexemes, with blanks between each two, are scanned into the
same tokens, however the lexemes stood in the source that they come from. -/
namespace Lox

open Segment (isGap)

/-- What stands between two lexemes. -/
structure Spacing where
  blanks : List Char
  nonempty : blanks ≠ []
  blank : ∀ c ∈ blanks, isGap c

/-- The lexemes of tokens in order, with blanks between each two. -/
def respaced (spacing : Nat → Spacing) : List Token → List Char
  | [] => []
  | [t] => t.lexeme.toList
  | t :: t' :: rest =>
    t.lexeme.toList ++ (spacing 0).blanks ++ respaced (fun n => spacing (n + 1)) (t' :: rest)

/-- What a token is, wherever it stands. -/
def Token.unlined (t : Token) : Kind × String × Literal := (t.kind, t.lexeme, t.literal)

/-- The segment that is shown as the token. -/
def Token.segment (t : Token) : Segment := ⟨t.lexeme.toList, .token t.kind t.literal⟩

section
variable {c d : Char} {text rest : List Char} {content : Content}

/-- A lexeme by itself is one segment. -/
theorem Lexeme.first_eq (h : Lexeme (c :: rest) content) :
    Segment.first c rest = ⟨c :: rest, content⟩ := by
  obtain ⟨hlong, hcontent⟩ := h.begins c rest rfl
  have hle : (c :: rest).length ≤ (Segment.first c rest).text.length := by
    simpa using (hlong []).length_le
  have htext : (Segment.first c rest).text = c :: rest :=
    (Segment.first_prefix c rest).eq_of_length_le hle
  rw [← htext, ← hcontent]

theorem Lexeme.all_append (h : Lexeme text content) (behind : List Char)
    (hfirst : ∀ c rest, text = c :: rest → Segment.first c (rest ++ behind) = ⟨text, content⟩) :
    Segment.all (text ++ behind) = ⟨text, content⟩ :: Segment.all behind := by
  obtain ⟨c, rest, rfl⟩ := List.exists_cons_of_ne_nil h.ne_nil
  rw [List.cons_append, Segment.all, hfirst c rest rfl]
  simp

theorem Lexeme.all_eq (h : Lexeme text content) : Segment.all text = [⟨text, content⟩] := by
  have hall := h.all_append [] fun c rest ht => by
    subst ht
    simpa using h.first_eq
  simpa [Segment.all] using hall

/-- A blank ends the lexeme of a token, whatever is behind it. -/
theorem Lexeme.all_append_gap {kind : Kind} {literal : Literal}
    (h : Lexeme text (.token kind literal)) (hd : isGap d) (behind : List Char) :
    Segment.all (text ++ d :: behind) =
      ⟨text, .token kind literal⟩ :: Segment.all (d :: behind) := by
  refine h.all_append _ fun c rest ht => ?_
  subst ht
  have hcontent := congrArg Segment.content h.first_eq
  rw [Segment.first_append_gap c rest behind hd (by simp [hcontent]) (.inr (by simp [hcontent]))]
  exact h.first_eq

theorem Segment.all_blanks_append {blanks behind : List Char} (h : ∀ c ∈ blanks, isGap c) :
    Segment.all (blanks ++ behind) =
      blanks.map (fun c => ⟨[c], .gap⟩) ++ Segment.all behind := by
  induction blanks with
  | nil => rfl
  | cons c blanks ih =>
    obtain ⟨hc, hblanks⟩ := List.forall_mem_cons.1 h
    have hall := (Lexeme.blank hc).all_append (blanks ++ behind) fun _ _ ht => by
      cases ht
      exact Segment.first_of_gap hc
    rw [ih hblanks] at hall
    exact hall

end

/-- Of the segments of a text with new blanks, the lexemes are those that are shown. -/
theorem Segment.all_respaced {tokens : List Token} (spacing : Nat → Spacing)
    (h : ∀ t ∈ tokens, Lexeme t.lexeme.toList (.token t.kind t.literal)) :
    (Segment.all (respaced spacing tokens)).filter Segment.isShown = tokens.map Token.segment := by
  fun_induction respaced spacing tokens with
  | case1 => simp [Segment.all]
  | case2 spacing t =>
    rw [(h t List.mem_cons_self).all_eq]
    rfl
  | case3 spacing t t' rest ih =>
    obtain ⟨ht, hrest⟩ := List.forall_mem_cons.1 h
    obtain ⟨d, blanks, hd⟩ := List.exists_cons_of_ne_nil (spacing 0).nonempty
    have hblank : ∀ c ∈ d :: blanks, isGap c := hd ▸ (spacing 0).blank
    have hfront := ht.all_append_gap (hblank d List.mem_cons_self)
      (blanks ++ respaced (fun n => spacing (n + 1)) (t' :: rest))
    rw [← List.cons_append, Segment.all_blanks_append hblank] at hfront
    have hunshown : ((d :: blanks).map fun c => (⟨[c], .gap⟩ : Segment)).filter Segment.isShown =
        [] := by
      simp [Segment.isShown]
    rw [List.append_assoc, hd, hfront, List.filter_cons_of_pos rfl, List.filter_append, hunshown,
      ih hrest]
    rfl

theorem Segment.shows_tokens {tokens : List Token} {items : List Item}
    (h : List.Forall₂ Segment.Shows (tokens.map Token.segment) items) :
    items.filterMap Item.fault? = [] ∧
      (items.filterMap Item.token?).map Token.unlined = tokens.map Token.unlined := by
  induction tokens generalizing items with
  | nil =>
    cases h
    exact ⟨rfl, rfl⟩
  | cons t rest ih =>
    rcases h with _ | ⟨hshow, hrest⟩
    obtain ⟨hfaults, htokens⟩ := ih hrest
    cases hshow
    exact ⟨hfaults, by simp [Item.token?, Token.unlined, htokens]⟩

/-- The lexemes of the tokens of any source, faulty or not, joined by blanks: scanning finds no
fault and the same tokens, with the mark of the end behind them. -/
theorem Token.scan_respaced (source : String) (spacing : Nat → Spacing) :
    let tokens := (Token.scan source).filter (·.kind != .eof)
    let text := String.ofList (respaced spacing tokens)
    Diagnostic.scan text = [] ∧
      (Token.scan text).map Token.unlined = tokens.map Token.unlined ++ [(.eof, "", .nil)] := by
  intro tokens text
  have hlexemes : ∀ t ∈ tokens, Lexeme t.lexeme.toList (.token t.kind t.literal) := by
    intro t ht
    obtain ⟨hmem, hkind⟩ := List.mem_filter.1 ht
    rcases Token.scan_lexeme hmem with h | ⟨-, hk, -⟩
    · exact h
    · simp [hk] at hkind
  obtain ⟨items, last, hitems, hshows⟩ := Item.scan_shows text
  have hall : (Segment.all text.toList).filter Segment.isShown = tokens.map Token.segment := by
    rw [String.toList_ofList]
    exact Segment.all_respaced spacing hlexemes
  rw [hall] at hshows
  obtain ⟨hfaults, hsame⟩ := Segment.shows_tokens hshows
  constructor
  · simpa [Diagnostic.scan, hitems, Item.fault?] using hfaults
  · rw [Token.scan, hitems, List.filterMap_append, List.map_append, hsame]
    rfl

end Lox
