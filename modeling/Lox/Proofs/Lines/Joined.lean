import Mathlib
import Lox.Proofs.Fuel
import Lox.Proofs.Lines.Compiling
import Lox.Proofs.Lines.Running

/-! A source that is run behind another one does the same as a part of one source. -/
namespace Lox

/-! Lines with a mark on them: of the code that is run, or of code from earlier. -/
namespace Mark

def own (line : Nat) : Nat := 2 * line + 1

def earlier (line : Nat) : Nat := 2 * line

def line (mark : Nat) : Nat := mark / 2

/-- The line, if `k` lines are put in front of the code that is run. -/
def lineBehind (k mark : Nat) : Nat := if mark % 2 = 1 then mark / 2 + k else mark / 2

theorem line_own : line ∘ own = id := by
  funext l
  simp only [line, own, Function.comp, id]
  omega

theorem line_earlier : line ∘ earlier = id := by
  funext l
  simp only [line, earlier, Function.comp, id]
  omega

theorem lineBehind_own (k : Nat) : lineBehind k ∘ own = (· + k) := by
  funext l
  have hodd : own l % 2 = 1 := by
    rw [own]
    omega
  have hhalf : own l / 2 = l := by
    rw [own]
    omega
  simp only [lineBehind, Function.comp, hodd, hhalf, if_true]

theorem lineBehind_earlier (k : Nat) : lineBehind k ∘ earlier = id := by
  funext l
  have heven : earlier l % 2 ≠ 1 := by
    rw [earlier]
    omega
  have hhalf : earlier l / 2 = l := by
    rw [earlier]
    omega
  simp only [lineBehind, Function.comp, heven, hhalf, if_false, id]

end Mark

namespace Machine

variable {fuel : Nat} {p : List Stmt} {m m' : Machine}

theorem executeProgram_append (fuel : Nat) (p q : List Stmt) :
    executeProgram fuel (p ++ q) = executeProgram fuel p >>= fun _ => executeProgram fuel q := by
  induction p with
  | nil => rfl
  | cons s rest ih =>
    rw [List.cons_append, executeProgram, executeProgram, Action.bind_assoc, ih]
    refine congrArg (execute fuel s >>= ·) (funext fun signal => ?_)
    cases signal with
    | normal => rfl
    | exit | returned => rfl

/-- What is run behind a program that succeeds is run on the machine that this leaves. -/
theorem interpret_append (h : m.interpret fuel p = some (none, m')) (q : List Stmt) :
    m.interpret fuel (p ++ q) = m'.interpret fuel q := by
  have hp : executeProgram fuel p m = .done () m' := by
    obtain ⟨he, -⟩ | ⟨d, last, -, hfailed, -⟩ := interpret_eq_some.1 h
    · exact he
    · cases hfailed
  unfold Machine.interpret
  rw [executeProgram_append, Action.bind_apply, hp]

/-- Runs a program with all lines marked: its own ones, and those of the functions that are there
from earlier. -/
def interpretMarked (fuel : Nat) (program : List Stmt) (m : Machine) :
    Option (Option Diagnostic × Machine) :=
  (m.relined Mark.earlier).interpret fuel (statementsRelined Mark.own program)

/-- The end of a marked run as it is with the given lines for the marks. -/
def unmarked (φ : Nat → Nat) (r : Option Diagnostic × Machine) : Option Failure × Machine :=
  (r.1.map fun d => ⟨.runtime, [d.relined φ]⟩, r.2.relined φ)

@[simp] theorem unmarked_toWorld (φ : Nat → Nat) (r : Option Diagnostic × Machine) :
    (unmarked φ r).2.toWorld = r.2.toWorld := rfl

/-- A run is the marked run without its marks, whatever lines the own marks stand for, as long as
the marks of earlier code stand for the lines it has. -/
theorem interpretMarked_unmarked {φ ψ : Nat → Nat} (h0 : φ 0 = 0) (hearlier : φ ∘ Mark.earlier = id)
    (hown : φ ∘ Mark.own = ψ) (fuel : Nat) (program : List Stmt) (m : Machine) :
    (m.interpret fuel (statementsRelined ψ program)).map
        (fun r => (r.1.map fun d => (⟨.runtime, [d]⟩ : Failure), r.2)) =
      (m.interpretMarked fuel program).map (unmarked φ) := by
  have h := interpret_relined h0 fuel (statementsRelined Mark.own program) (m.relined Mark.earlier)
  rw [Machine.relined_relined, hearlier, Machine.relined_id, statementsRelined_relined, hown] at h
  rw [h, interpretMarked, Option.map_map]
  refine congrArg (Option.map · _) (funext fun r => ?_)
  rcases r with ⟨_ | d, last⟩ <;> rfl

/-- The second of two sources that compile, run behind the first, does what it does as the last part
of one source: the same is printed, and it ends in the same way. The two ends are those of one run
with marked lines; in the longer source, what is of the second one is as many lines behind as the
first one takes, and what is from earlier is where it was. -/
theorem run_joined {first second : String} {p q : List Stmt} (hp : compile first = .ok p)
    (hq : compile second = .ok q) :
    (∃ program, compile (first ++ "\n" ++ second) = .ok program) ∧
      ∀ (fuel fuel' : Nat) (m m' : Machine), m.run fuel first = some (none, m') → fuel ≤ fuel' →
        (m'.run fuel' second).map (·.2.toWorld) =
            (m.run fuel' (first ++ "\n" ++ second)).map (·.2.toWorld) ∧
          m'.run fuel' second = (m'.interpretMarked fuel' q).map (unmarked Mark.line) ∧
          m.run fuel' (first ++ "\n" ++ second) = (m'.interpretMarked fuel' q).map
            (unmarked (Mark.lineBehind (newlines first.toList + 1))) := by
  have hjoined := compile_append hp hq
  refine ⟨⟨_, hjoined⟩, fun fuel fuel' m m' h hle => ?_⟩
  -- Both sources run at one amount of fuel, as the longer source does.
  have hfirst : m.interpret fuel' p = some (none, m') := by
    have h := run_of_le hle h
    rw [run, hp] at h
    obtain ⟨⟨d?, last⟩, hlast, he⟩ := Option.map_eq_some_iff.1 h
    cases d? with
    | none =>
      cases he
      exact hlast
    | some d => cases he
  have hsession : m'.run fuel' second = (m'.interpretMarked fuel' q).map (unmarked Mark.line) := by
    rw [run, hq, ← interpretMarked_unmarked rfl Mark.line_earlier Mark.line_own, statementsRelined_id]
  have hwhole : m.run fuel' (first ++ "\n" ++ second) = (m'.interpretMarked fuel' q).map
      (unmarked (Mark.lineBehind (newlines first.toList + 1))) := by
    rw [run, hjoined, ← interpretMarked_unmarked rfl (Mark.lineBehind_earlier _)
      (Mark.lineBehind_own _)]
    exact congrArg (Option.map _) (interpret_append hfirst _)
  refine ⟨?_, hsession, hwhole⟩
  simp only [hsession, hwhole, Option.map_map, Function.comp_def, unmarked_toWorld]

/-- What is reported at the end of a run. -/
def reported (r : Option (Option Failure × Machine)) : Option (List Diagnostic) :=
  r.bind fun r => r.1.map Failure.diagnostics

/-- A function of three lines, which fails on its second line for what is no number. -/
def negationSource : String := "fun f(x) \x7b\n return -x;\n\x7d"

/-- A call of it from another source fails on that line, wherever the call is. -/
theorem run_joined_negation :
    ∃ m', (start none .unlimited fun _ => 0).run 16 negationSource = some (none, m') ∧
      (m'.run 16 "f(nil);").map (·.2.toWorld) =
        ((start none .unlimited fun _ => 0).run 16 (negationSource ++ "\n" ++ "f(nil);")).map
          (·.2.toWorld) ∧
      reported (m'.run 16 "f(nil);") = some [⟨2, .runtime .operandNotNumber⟩] ∧
      reported ((start none .unlimited fun _ => 0).run 16 (negationSource ++ "\n" ++ "f(nil);")) =
        some [⟨2, .runtime .operandNotNumber⟩] := by
  have hp : (compile negationSource).isOk := by cbv
  have hq : (compile "f(nil);").isOk := by cbv
  obtain ⟨p, hp⟩ := compile_of_isOk hp
  obtain ⟨q, hq⟩ := compile_of_isOk hq
  have hfirst : ((start none .unlimited fun _ => 0).run 16 negationSource).map
      (fun r => (r.1.isNone, reported (r.2.run 16 "f(nil);"))) =
        some (true, some [⟨2, .runtime .operandNotNumber⟩]) := by cbv
  obtain ⟨⟨f?, m'⟩, h, he⟩ := Option.map_eq_some_iff.1 hfirst
  simp only [Prod.mk.injEq] at he
  obtain ⟨hnone, hsession⟩ := he
  obtain rfl : f? = none := Option.isNone_iff_eq_none.1 hnone
  obtain ⟨hworld, -⟩ := (run_joined hp hq).2 _ _ _ _ h (Nat.le_refl 16)
  exact ⟨m', h, hworld, hsession, by cbv⟩

/-- A fault of the other source itself is on a later line if it stands behind the function. -/
example :
    reported ((start none .unlimited fun _ => 0).run 16 "\n-nil;") =
        some [⟨2, .runtime .operandNotNumber⟩] ∧
      reported ((start none .unlimited fun _ => 0).run 16 (negationSource ++ "\n" ++ "\n-nil;")) =
        some [⟨5, .runtime .operandNotNumber⟩] := by
  constructor
  · cbv
  · cbv

end Machine
end Lox
