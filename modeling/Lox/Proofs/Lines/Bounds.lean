import Lox.Proofs.Lines.Compiling

/-! Code whose lines are all good, and the lines of what is found wrong with a source before it
runs: every such fault is reported at a line of the source. -/
namespace Lox

/-- Lines are counted from 1, and every newline begins one. -/
def HasLine (source : String) (line : Nat) : Prop :=
  1 ≤ line ∧ line ≤ 1 + newlines source.toList

/-! Scanning. -/

def Item.line : Item → Nat
  | token t => t.line
  | fault d => d.line

theorem Item.ofSegments_line {segments : List Segment} {line : Nat} {item : Item}
    (h : item ∈ ofSegments line segments) :
    line ≤ item.line ∧ item.line ≤ line + newlines (segments.flatMap Segment.text) := by
  induction segments generalizing line with
  | nil =>
    obtain rfl : item = token ⟨.eof, "", .nil, line⟩ := by simpa [ofSegments] using h
    exact ⟨Nat.le_refl _, Nat.le_add_right _ _⟩
  | cons s rest ih =>
    have hnewlines : newlines ((s :: rest).flatMap Segment.text) =
        s.newlines + newlines (rest.flatMap Segment.text) := by
      rw [List.flatMap_cons, newlines, List.count_append]
      rfl
    -- An item stands on the line where its segment ends, or behind it.
    have hhere : line + s.newlines ≤ item.line ∧
        item.line ≤ line + s.newlines + newlines (rest.flatMap Segment.text) := by
      rw [ofSegments] at h
      split at h
      next => exact ih h
      next =>
        rcases List.mem_cons.1 h with rfl | h
        · exact ⟨Nat.le_refl _, Nat.le_add_right _ _⟩
        · exact ih h
      next =>
        rcases List.mem_cons.1 h with rfl | h
        · exact ⟨Nat.le_refl _, Nat.le_add_right _ _⟩
        · exact ih h
    omega

theorem Item.scan_line {source : String} {item : Item} (h : item ∈ scan source) :
    HasLine source item.line := by
  have hline := ofSegments_line h
  rwa [(Munched.all source.toList).flatMap_text] at hline

theorem Token.scan_line {source : String} {t : Token} (h : t ∈ Token.scan source) :
    HasLine source t.line := by
  obtain ⟨item, hi, he⟩ := List.mem_filterMap.1 h
  cases item with
  | fault d => cases he
  | token t' =>
    cases he
    exact Item.scan_line hi

theorem Diagnostic.scan_line {source : String} {d : Diagnostic} (h : d ∈ Diagnostic.scan source) :
    HasLine source d.line := by
  obtain ⟨item, hi, he⟩ := List.mem_filterMap.1 h
  cases item with
  | token t => cases he
  | fault d' =>
    cases he
    exact Item.scan_line hi

/-! Reading. -/

theorem Grammar.parse_scan_line {source : String} {d : Diagnostic}
    (h : d ∈ (Grammar.parse (Token.scan source)).diagnostics) : HasLine source d.line := by
  obtain ⟨tokens, e, hscan, he, -⟩ := Token.scan_ends source
  have hends : ∃ t ∈ Token.scan source, t.kind = .eof := ⟨e, by simp [hscan], he⟩
  exact (parse_honest (HasLine source) (fun t ht => Token.scan_line ht) (.inr hends) d h).1

/-- No line of the code is changed where the good lines are not: all its lines are good. -/
def On {α : Type} (good : Nat → Prop) (relined : (Nat → Nat) → α → α) (code : α) : Prop :=
  ∀ φ : Nat → Nat, (∀ line, good line → φ line = line) → relined φ code = code

namespace On

variable {α β : Type} {good better : Nat → Prop} {relined : (Nat → Nat) → α → α}
  {relined' : (Nat → Nat) → β → β}

theorem mono {code : α} (h : On better relined code) (hg : ∀ line, better line → good line) :
    On good relined code :=
  fun φ hφ => h φ fun line hline => hφ line (hg line hline)

/-- A part of the code has none but lines of the code. -/
theorem part {code : α} {part : β} (h : On good relined code)
    (hp : ∀ φ, relined φ code = code → relined' φ part = part) : On good relined' part :=
  fun φ hφ => hp φ (h φ hφ)

theorem line {code : α} {line : Nat} (h : On good relined code)
    (hp : ∀ φ : Nat → Nat, relined φ code = code → φ line = line) : good line := by
  by_contra hbad
  -- Moving the one line keeps the good lines where they are, but not the code.
  let φ (l : Nat) : Nat := if l = line then line + 1 else l
  have hφ : ∀ l, good l → φ l = l := fun l hl =>
    if_neg (by rintro rfl; exact hbad hl)
  have hmoved : φ line = line := hp φ (h φ hφ)
  simp [φ] at hmoved

end On

/-- A program is on the lines of its tokens. -/
theorem Grammar.parse_on {source : String}
    (hq : (Grammar.parse (Token.scan source)).diagnostics = []) :
    On (fun line => ∃ t ∈ Token.scan source, t.line = line) statementsRelined
      (Grammar.parse (Token.scan source)).statements := by
  intro φ hφ
  obtain ⟨tokens, e, hscan, he, htokens⟩ := Token.scan_ends source
  have hhead := Token.scan_head hq
  have hlines : ∀ t ∈ tokens ++ [e], t.relined φ = t := fun t ht =>
    congrArg (Token.mk t.kind t.lexeme t.literal) (hφ t.line ⟨t, hscan ▸ ht, rfl⟩)
  have hsame : (tokens ++ [e]).map (Token.relined φ) = tokens ++ [e] :=
    (List.map_congr_left hlines).trans (List.map_id _)
  rw [hscan] at hq hhead ⊢
  have helse : ∀ t ∈ tokens.head?, t.kind ≠ .kwElse := fun t ht =>
    hhead t (by rw [List.head?_append_of_ne_nil _ (by rintro rfl; cases ht)]; exact ht)
  have hempty : parse ([] ++ [e]) = ⟨[], []⟩ := by
    have h := program_eq_parse ([] ++ [e])
    rw [enoughFuel, program, if_pos (by simp [Cursor.atEnd, he])] at h
    exact (Option.some.inj h).symm
  have happend := parse_append he he (by simp) htokens helse (congrArg Parsed.diagnostics hempty) hq φ
  rw [hsame, hempty] at happend
  exact (congrArg Parsed.statements happend).symm

/-! Resolving. -/

section
variable {good : Nat → Prop} {statements : List Stmt}

theorem locateProgram_on (h : On good statementsRelined statements) :
    On good statementsRelined (locateProgram statements).1 := fun φ hφ => by
  have hlocated := locateProgram_relined φ statements
  rw [h φ hφ] at hlocated
  exact (congrArg Prod.fst hlocated).symm

theorem locateProgram_line (h : On good statementsRelined statements) {d : Diagnostic}
    (hd : d ∈ (locateProgram statements).2) : good d.line := by
  refine h.line fun φ hφ => ?_
  have hlocated := locateProgram_relined φ statements
  rw [hφ] at hlocated
  have hreports : (locateProgram statements).2.map (Diagnostic.relined φ) =
      (locateProgram statements).2.map id := by
    rw [List.map_id]
    exact (congrArg Prod.snd hlocated).symm
  exact congrArg Diagnostic.line (List.map_inj_left.1 hreports d hd)

end

theorem locateProgram_scan_line {source : String}
    (hq : (Grammar.parse (Token.scan source)).diagnostics = []) {d : Diagnostic}
    (hd : d ∈ (locateProgram (Grammar.parse (Token.scan source)).statements).2) :
    HasLine source d.line := by
  obtain ⟨t, ht, hline⟩ := locateProgram_line (Grammar.parse_on hq) hd
  exact hline ▸ Token.scan_line ht

end Lox
