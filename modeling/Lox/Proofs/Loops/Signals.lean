import Lox.Proofs.Loops.Runs

/-! Signals: the breaks, continues and returns of its own that can end a statement early. Loops take
the breaks and continues of their bodies. -/
namespace Lox
open Lox.Action

/-! What a statement has of its own. -/

mutual
/-- Whether a break (or continue) is in a statement but not inside a loop, function or class of
it. -/
def Stmt.HasExit (e : LoopExit) : Stmt → Prop
  | .block statements _ => statementsHaveExit e statements
  | .ifThen _ thenBranch _ => thenBranch.HasExit e
  | .ifElse _ thenBranch elseBranch _ => thenBranch.HasExit e ∨ elseBranch.HasExit e
  | .loopExit exit _ => exit = e
  | .expression _ _ | .print _ _ | .var _ | .function _ | .classDecl _ _ _ | .whileLoop _ _ _
  | .forLoop _ _ _ _ _ | .returns _ _ => False

def statementsHaveExit (e : LoopExit) : List Stmt → Prop
  | [] => False
  | s :: rest => s.HasExit e ∨ statementsHaveExit e rest
end

mutual
/-- Whether a return is in a statement but not inside a function or class of it. -/
def Stmt.HasReturn : Stmt → Prop
  | .block statements _ => statementsHaveReturn statements
  | .ifThen _ thenBranch _ => thenBranch.HasReturn
  | .ifElse _ thenBranch elseBranch _ => thenBranch.HasReturn ∨ elseBranch.HasReturn
  | .whileLoop _ body _ => body.HasReturn
  | .forLoop _ _ _ body _ => body.HasReturn
  | .returns _ _ => True
  | .expression _ _ | .print _ _ | .var _ | .function _ | .classDecl _ _ _ | .loopExit _ _ => False

def statementsHaveReturn : List Stmt → Prop
  | [] => False
  | s :: rest => s.HasReturn ∨ statementsHaveReturn rest
end

mutual
/-- The execution comes to a break (or continue) that the statement has of its own: through the
blocks around it, and the branches of `if` that are taken. -/
def Stmt.ComesTo (e : LoopExit) : Stmt → Machine → Machine → Prop
  | .block statements _, m, m' =>
    ∃ m₁, statementsComeTo e statements m.entered m₁ ∧ m' = { m₁ with current := m.current }
  | .ifThen condition thenBranch _, m, m' =>
    ∃ v m₁, Completes (evaluate · condition) m v m₁ ∧ v.isTruthy ∧ thenBranch.ComesTo e m₁ m'
  | .ifElse condition thenBranch elseBranch _, m, m' =>
    ∃ v m₁, Completes (evaluate · condition) m v m₁ ∧
      if v.isTruthy then thenBranch.ComesTo e m₁ m' else elseBranch.ComesTo e m₁ m'
  | .loopExit exit _, m, m' => exit = e ∧ m' = m
  | .expression _ _, _, _ | .print _ _, _, _ | .var _, _, _ | .function _, _, _
  | .classDecl _ _ _, _, _ | .whileLoop _ _ _, _, _ | .forLoop _ _ _ _ _, _, _
  | .returns _ _, _, _ => False

def statementsComeTo (e : LoopExit) : List Stmt → Machine → Machine → Prop
  | [], _, _ => False
  | s :: rest, m, m' =>
    s.ComesTo e m m' ∨ ∃ m₁, Completes (execute · s) m .normal m₁ ∧ statementsComeTo e rest m₁ m'
end

mutual
theorem Stmt.hasExit_of_comesTo {e : LoopExit} {m m' : Machine} : (s : Stmt) →
    s.ComesTo e m m' → s.HasExit e
  | .block statements _, ⟨_, h, _⟩ => statementsHaveExit_of_comeTo statements h
  | .ifThen _ thenBranch _, ⟨_, _, _, _, h⟩ => thenBranch.hasExit_of_comesTo h
  | .ifElse _ thenBranch elseBranch _, ⟨v, _, _, h⟩ => by
    by_cases hv : v.isTruthy
    · rw [if_pos hv] at h
      exact .inl (thenBranch.hasExit_of_comesTo h)
    · rw [if_neg hv] at h
      exact .inr (elseBranch.hasExit_of_comesTo h)
  | .loopExit _ _, ⟨h, _⟩ => h

theorem statementsHaveExit_of_comeTo {e : LoopExit} {m m' : Machine} : (statements : List Stmt) →
    statementsComeTo e statements m m' → statementsHaveExit e statements
  | s :: _, .inl h => .inl (s.hasExit_of_comesTo h)
  | _ :: rest, .inr ⟨_, _, h⟩ => .inr (statementsHaveExit_of_comeTo rest h)
end

/-! Statements that run no others. -/

def Stmt.Simple : Stmt → Prop
  | .expression _ _ | .print _ _ | .var _ | .function _ | .classDecl _ _ _ => True
  | _ => False

theorem Stmt.normal_of_simple {s : Stmt} {m m' : Machine} {signal : Signal}
    (h : Completes (execute · s) m signal m') (hs : s.Simple) : signal = .normal := by
  obtain ⟨fuel, h⟩ := (settles_execute s).completes_succ.2 h
  cases s with
  | expression e line =>
    obtain ⟨-, m₁, -, h⟩ := bind_eq_done.1 h
    cases h
    rfl
  | print e line =>
    obtain ⟨v, m₁, -, h⟩ := bind_eq_done.1 h
    obtain ⟨text, m₂, -, h⟩ := bind_eq_done.1 h
    obtain ⟨-, m₃, -, h⟩ := bind_eq_done.1 h
    cases h
    rfl
  | var decl =>
    obtain ⟨-, m₁, -, h⟩ := bind_eq_done.1 h
    cases h
    rfl
  | function decl =>
    obtain ⟨frame, m₁, -, h⟩ := bind_eq_done.1 h
    obtain ⟨id, m₂, -, h⟩ := bind_eq_done.1 h
    obtain ⟨-, m₃, -, h⟩ := bind_eq_done.1 h
    cases h
    rfl
  | classDecl name methods line =>
    obtain ⟨-, m₁, -, h⟩ := bind_eq_done.1 h
    obtain ⟨frame, m₂, -, h⟩ := bind_eq_done.1 h
    obtain ⟨table, m₃, -, h⟩ := bind_eq_done.1 h
    obtain ⟨id, m₄, -, h⟩ := bind_eq_done.1 h
    obtain ⟨-, m₅, -, h⟩ := bind_eq_done.1 h
    cases h
    rfl
  | _ => exact hs.elim

theorem completes_returns {value : Option Expr} {line : Nat} {m m' : Machine} {signal : Signal}
    (h : Completes (execute · (.returns value line)) m signal m') : ∃ v, signal = .returned v := by
  obtain ⟨fuel, h⟩ := (settles_execute _).completes_succ.2 h
  cases value with
  | none =>
    cases h
    exact ⟨.nil, rfl⟩
  | some e =>
    obtain ⟨v, m₁, -, h⟩ := bind_eq_done.1 h
    cases h
    exact ⟨v, rfl⟩

/-! Breaks and continues come from where the execution came to one. -/

mutual
theorem Stmt.completes_exit {e : LoopExit} : (s : Stmt) → {m m' : Machine} →
    (Completes (execute · s) m (.exit e) m' ↔ s.ComesTo e m m')
  | .block statements line, m, m' => by
    rw [completes_block]
    simp only [Stmt.ComesTo, statementsComplete_exit statements]
  | .ifThen condition thenBranch line, m, m' => by
    rw [completes_ifThen]
    refine exists₂_congr fun v m₁ => and_congr_right fun _ => ?_
    by_cases hv : v.isTruthy
    · simp [hv, thenBranch.completes_exit]
    · simp [hv]
  | .ifElse condition thenBranch elseBranch line, m, m' => by
    rw [completes_ifElse]
    refine exists₂_congr fun v m₁ => and_congr_right fun _ => ?_
    by_cases hv : v.isTruthy
    · simp only [hv, if_true, thenBranch.completes_exit]
    · simp only [hv, Bool.false_eq_true, if_false, elseBranch.completes_exit]
  | .loopExit exit line, m, m' => by
    rw [← (settles_execute _).completes_succ]
    refine completes_pure.trans (and_congr_left fun _ => ?_)
    rw [Signal.exit.injEq, eq_comm]
  | .whileLoop _ _ _, m, m' => ⟨LoopParts.completes_ne_exit rfl, False.elim⟩
  | .forLoop _ _ _ _ _, m, m' => ⟨LoopParts.completes_ne_exit rfl, False.elim⟩
  | .returns _ _, m, m' =>
    ⟨fun h => (completes_returns h).elim fun _ he => Signal.noConfusion he, False.elim⟩
  | .expression _ _, m, m' | .print _ _, m, m' | .var _, m, m' | .function _, m, m'
  | .classDecl _ _ _, m, m' =>
    ⟨fun h => Signal.noConfusion (Stmt.normal_of_simple h trivial), False.elim⟩

theorem statementsComplete_exit {e : LoopExit} : (statements : List Stmt) → {m m' : Machine} →
    (Completes (executeAll · statements) m (.exit e) m' ↔ statementsComeTo e statements m m')
  | [], m, m' => by
    rw [completes_executeAll_nil]
    exact ⟨fun h => Signal.noConfusion h.1, False.elim⟩
  | s :: rest, m, m' => by
    rw [completes_executeAll_cons]
    simp only [statementsComeTo, s.completes_exit, statementsComplete_exit rest, ne_eq,
      reduceCtorEq, not_false_eq_true, true_and]
end

/-! Loops and the signals of their bodies. -/

namespace LoopParts

variable {l : LoopParts}

/-- A break or continue that ends a round is the body's own, not that of a loop inside it. -/
theorem Rounds.hasExit {m m' : Machine} {signals : List Signal} {signal : Signal} {e : LoopExit}
    (h : l.Rounds m signals signal m') (he : .exit e ∈ signals) : l.body.HasExit e := by
  have hown {m₁ m₂ : Machine} (hbody : Completes (execute · l.body) m₁ (.exit e) m₂) :
      l.body.HasExit e := l.body.hasExit_of_comesTo (l.body.completes_exit.1 hbody)
  induction h with
  | stopped _ => cases he
  | broken _ hbody =>
    cases List.mem_singleton.1 he
    exact hown hbody
  | returned _ _ => cases List.mem_singleton.1 he
  | next _ _ hbody _ _ ih =>
    rcases List.mem_cons.1 he with rfl | he
    · exact hown hbody
    · exact ih he

theorem Rounds.exists_returned {m m' : Machine} {signals : List Signal} {signal : Signal}
    {v : Value} (h : l.Rounds m signals signal m') (hv : signal = .returned v) :
    ∃ m₁ m₂, Completes (execute · l.body) m₁ (.returned v) m₂ := by
  induction h with
  | stopped _ => cases hv
  | broken _ _ => cases hv
  | returned _ hbody =>
    cases hv
    exact ⟨_, _, hbody⟩
  | next _ _ _ _ _ ih => exact ih hv

end LoopParts

mutual
theorem Stmt.hasReturn_of_completes {v : Value} : (s : Stmt) → {m m' : Machine} →
    Completes (execute · s) m (.returned v) m' → s.HasReturn
  | .block statements line, m, m', h => by
    obtain ⟨m₁, h, -⟩ := completes_block.1 h
    exact statementsHaveReturn_of_complete statements h
  | .ifThen condition thenBranch line, m, m', h => by
    obtain ⟨c, m₁, -, h⟩ := completes_ifThen.1 h
    by_cases hc : c.isTruthy
    · rw [if_pos hc] at h
      exact thenBranch.hasReturn_of_completes h
    · rw [if_neg hc] at h
      exact Signal.noConfusion h.1
  | .ifElse condition thenBranch elseBranch line, m, m', h => by
    obtain ⟨c, m₁, -, h⟩ := completes_ifElse.1 h
    by_cases hc : c.isTruthy
    · rw [if_pos hc] at h
      exact .inl (thenBranch.hasReturn_of_completes h)
    · rw [if_neg hc] at h
      exact .inr (elseBranch.hasReturn_of_completes h)
  | .whileLoop condition body line, m, m', h => by
    obtain ⟨signals, m₁, m₂, -, hrounds, -⟩ := (LoopParts.completes_iff_runs rfl).1 h
    obtain ⟨m₃, m₄, h⟩ := hrounds.exists_returned rfl
    exact body.hasReturn_of_completes h
  | .forLoop init condition increment body line, m, m', h => by
    obtain ⟨signals, m₁, m₂, -, hrounds, -⟩ := (LoopParts.completes_iff_runs rfl).1 h
    obtain ⟨m₃, m₄, h⟩ := hrounds.exists_returned rfl
    exact body.hasReturn_of_completes h
  | .returns _ _, _, _, _ => trivial
  | .loopExit exit line, m, m', h => by
    rw [← (settles_execute _).completes_succ] at h
    exact Signal.noConfusion (completes_pure.1 h).1
  | .expression _ _, _, _, h | .print _ _, _, _, h | .var _, _, _, h | .function _, _, _, h
  | .classDecl _ _ _, _, _, h => Signal.noConfusion (Stmt.normal_of_simple h trivial)

theorem statementsHaveReturn_of_complete {v : Value} : (statements : List Stmt) →
    {m m' : Machine} → Completes (executeAll · statements) m (.returned v) m' →
    statementsHaveReturn statements
  | [], m, m', h => Signal.noConfusion (completes_executeAll_nil.1 h).1
  | s :: rest, m, m', h => by
    obtain ⟨-, h⟩ | ⟨m₁, -, h⟩ := completes_executeAll_cons.1 h
    · exact .inl (s.hasReturn_of_completes h)
    · exact .inr (statementsHaveReturn_of_complete rest h)
end

/-- A break or continue that a statement ends with is the one of its own that the execution came to,
and a return is one of its own. A loop ends normally or with a return of its body, and its run is
made of rounds: only a break of its body that is in no loop inside it ends it, only such a continue
goes on with its next round early. -/
theorem execute_signals (s : Stmt) (m m' : Machine) :
    (∀ fuel e, execute fuel s m = .done (.exit e) m' → s.HasExit e) ∧
    (∀ fuel v, execute fuel s m = .done (.returned v) m' → s.HasReturn) ∧
    (∀ e, (∃ fuel, execute fuel s m = .done (.exit e) m') ↔ s.ComesTo e m m') ∧
    ∀ l, s.loop? = some l →
      (∀ fuel e, execute fuel s m ≠ .done (.exit e) m') ∧
      ∀ signal, (∃ fuel, execute fuel s m = .done signal m') ↔
        ∃ signals, l.Runs m signals signal m' ∧ ∀ e, .exit e ∈ signals → l.body.HasExit e := by
  refine ⟨fun fuel e h => ?_, fun fuel v h => ?_, fun e => s.completes_exit,
    fun l hl => ⟨fun fuel e h => ?_, fun signal => ?_⟩⟩
  · exact s.hasExit_of_comesTo (s.completes_exit.1 ⟨fuel, h⟩)
  · exact s.hasReturn_of_completes ⟨fuel, h⟩
  · exact LoopParts.completes_ne_exit hl ⟨fuel, h⟩
  · refine (LoopParts.completes_iff_runs hl).trans (exists_congr fun signals => ?_)
    constructor
    · rintro ⟨m₁, m₂, hbegin, hrounds, he⟩
      exact ⟨⟨m₁, m₂, hbegin, hrounds, he⟩, fun e => hrounds.hasExit⟩
    · exact fun h => h.1

def breakIf (condition : Expr) : Stmt := .block [.ifThen condition (.loopExit .toEnd 3) 3] 3

/-- A loop that breaks in its second round, around one that breaks in its first. -/
def brokenNest : Stmt :=
  .forLoop (.declare ⟨"over", some (.literal (.bool false) 1), 1⟩) none
    (some (.assign ⟨"over", .hops 0⟩ (.literal (.bool true) 1) 1))
    (.block [.whileLoop (.literal (.bool true) 2) (.loopExit .toEnd 2) 2,
      breakIf (.read ⟨"over", .hops 2⟩ 3)] 2) 1

def returnIf (condition : Expr) : Stmt := .ifThen condition (.returns none 1) 1

theorem execute_signals_nested :
    let m := Machine.start none .unlimited fun _ => 0
    (∃ l m' signals, brokenNest.loop? = some l ∧ l.Runs m signals .normal m' ∧
      ∀ e, .exit e ∈ signals → l.body.HasExit e) ∧
    (∃ m', execute 8 (breakIf (.literal (.bool true) 3)) m = .done (.exit .toEnd) m' ∧
      (breakIf (.literal (.bool true) 3)).HasExit .toEnd) ∧
    execute 3 (returnIf (.literal (.bool true) 1)) m = .done (.returned .nil) m ∧
      (returnIf (.literal (.bool true) 1)).HasReturn := by
  intro m
  obtain ⟨m₁, hnest⟩ := Answer.result?_eq_some.1
    (show (execute 24 brokenNest m).result? = some .normal by cbv)
  obtain ⟨m₂, hbreak⟩ := Answer.result?_eq_some.1
    (show (execute 8 (breakIf (.literal (.bool true) 3)) m).result? = some (.exit .toEnd) by cbv)
  have hreturn : execute 3 (returnIf (.literal (.bool true) 1)) m = .done (.returned .nil) m := rfl
  refine ⟨?_, ⟨m₂, hbreak, (execute_signals _ m m₂).1 8 .toEnd hbreak⟩, hreturn,
    (execute_signals _ m m).2.1 3 .nil hreturn⟩
  obtain ⟨signals, hruns, hown⟩ :=
    (((execute_signals brokenNest m m₁).2.2.2 _ rfl).2 .normal).1 ⟨24, hnest⟩
  exact ⟨_, m₁, signals, rfl, hruns, hown⟩

end Lox
