import Lox.Proofs.Reach.Calls
import Lox.Proofs.Swap.Lockstep

/-! Evaluation does not depend on the numbers of functions and classes, nor does a program. -/
namespace Lox

open Region (whole AllowsAll allowsAll_nil allowsAll_cons allowsAll_singleton allowsAll_append)
open Lox.Action (Renumbered)

/-- The evaluations at one amount of fuel do the same with other numbers. -/
structure EvaluationsRenumbered (r : Renumbering) (fuel : Nat) : Prop where
  evaluate (e : Expr) {h : Heap} {current : FrameId} : whole.Allows h (.frame current) →
    Renumbered r h current (evaluate fuel e) (evaluate fuel e) r.value Value.places
  evaluateAll (es : List Expr) {h : Heap} {current : FrameId} : whole.Allows h (.frame current) →
    Renumbered r h current (evaluateAll fuel es) (evaluateAll fuel es) (List.map r.value)
      (·.flatMap Value.places)
  call (c : Callable) (vs : List Value) (line : Nat) {h : Heap} {current : FrameId} :
    whole.AllowsAll h c.places → whole.AllowsAll h (vs.flatMap Value.places) →
      Renumbered r h current (call fuel c vs line)
        (call fuel (r.callable c) (vs.map r.value) line) r.value Value.places
  callFunction (fn : Function) (vs : List Value) (line : Nat) {h : Heap} {current : FrameId} :
    whole.Allows h (.frame fn.closure) → whole.AllowsAll h (vs.flatMap Value.places) →
      Renumbered r h current (callFunction fuel fn vs line)
        (callFunction fuel fn (vs.map r.value) line) r.value Value.places
  execute (s : Stmt) {h : Heap} {current : FrameId} : whole.Allows h (.frame current) →
    Renumbered r h current (execute fuel s) (execute fuel s) r.signal Signal.places
  declareVar (decl : VarDecl) {h : Heap} {current : FrameId} : whole.Allows h (.frame current) →
    Renumbered r h current (declareVar fuel decl) (declareVar fuel decl) id fun _ => []
  executeAll (statements : List Stmt) {h : Heap} {current : FrameId} :
    whole.Allows h (.frame current) →
      Renumbered r h current (executeAll fuel statements) (executeAll fuel statements) r.signal
        Signal.places
  holds (condition : Option Expr) {h : Heap} {current : FrameId} :
    whole.Allows h (.frame current) →
      Renumbered r h current (holds fuel condition) (holds fuel condition) id fun _ => []
  loop (condition increment : Option Expr) (body : Stmt) {h : Heap} {current : FrameId} :
    whole.Allows h (.frame current) →
      Renumbered r h current (loop fuel condition increment body)
        (loop fuel condition increment body) r.signal Signal.places
  step (increment : Option Expr) {h : Heap} {current : FrameId} :
    whole.Allows h (.frame current) →
      Renumbered r h current (step fuel increment) (step fuel increment) id fun _ => []

namespace EvaluationsRenumbered

variable {r : Renumbering} {fuel : Nat} {h : Heap} {current : FrameId}

theorem zero : EvaluationsRenumbered r 0 where
  evaluate _ _ _ _ := .fuelSpent
  evaluateAll _ _ _ _ := .fuelSpent
  call _ _ _ _ _ _ _ := .fuelSpent
  callFunction _ _ _ _ _ _ _ := .fuelSpent
  execute _ _ _ _ := .fuelSpent
  declareVar _ _ _ _ := .fuelSpent
  executeAll _ _ _ _ := .fuelSpent
  holds _ _ _ _ := .fuelSpent
  loop _ _ _ _ _ _ := .fuelSpent
  step _ _ _ _ := .fuelSpent

theorem evaluate_succ (ih : EvaluationsRenumbered r fuel) (e : Expr)
    (hc : whole.Allows h (.frame current)) :
    Renumbered r h current (Lox.evaluate (fuel + 1) e) (Lox.evaluate (fuel + 1) e) r.value
      Value.places := by
  cases e with
  | literal value line =>
    cases value <;> exact .pure rfl allowsAll_nil
  | group inner line => exact ih.evaluate inner hc
  | unary op right line =>
    refine .bind (ih.evaluate right hc) fun v h' hg hv => ?_
    rw [r.unary_value]
    exact .lift (op.apply_isOperation v)
  | binary left op right line =>
    refine .bind (ih.evaluate left hc) fun v h' hg hv => ?_
    rw [r.settled?_value]
    cases hs : op.settled? v with
    | some settled =>
      cases BinaryOp.settled?_eq hs
      exact .pure rfl hv
    | none => exact .bind (ih.evaluate right (hc.mono hg)) fun w h'' hg' hw => .finish op v hw
  | read o line => exact .read o hc
  | this o line => exact .read o hc
  | assign target value line =>
    exact .bind (ih.evaluate value hc) fun v h' hg hv =>
      .bind (.write target (hc.mono hg) hv) fun _ h'' hg' _ => .pure rfl (hv.mono hg')
  | get object name line =>
    refine .bind (ih.evaluate object hc) fun v h' hg hv => ?_
    cases v with
    | object id => exact .property (allowsAll_singleton.1 hv)
    | _ => exact .fail line _
  | set object name value line =>
    refine .bind (ih.evaluate object hc) fun v h' hg hv => ?_
    cases v with
    | object id =>
      have hid : whole.Allows h' (.object id) := allowsAll_singleton.1 hv
      exact .bind (ih.evaluate value (hc.mono hg)) fun w h'' hg' hw =>
        .bind (.setField (hid.mono hg') hw) fun _ h''' hg'' _ => .pure rfl (hw.mono hg'')
    | _ => exact .fail line _
  | call callee arguments line =>
    refine .bind (ih.evaluate callee hc) fun v h' hg hv => ?_
    rw [r.value_callable?]
    cases hcall : v.callable? with
    | none => exact .fail line _
    | some c =>
      have hcallee : whole.AllowsAll h' c.places := (Value.callable?_places hcall).symm ▸ hv
      refine .bind (.inspect (fun h _ => c.arity h) (fun h _ => (r.callable c).arity h)
        fun _ _ _ _ hr => hr.arity c) fun arity h'' hg' _ => ?_
      simp only [id]
      split
      · exact .fail line _
      · exact .bind (ih.evaluateAll arguments (hc.mono (hg.trans hg'))) fun vs h''' hg'' hvs =>
          ih.call c vs line (hcallee.mono (hg'.trans hg'')) hvs

theorem evaluateAll_succ (ih : EvaluationsRenumbered r fuel) (es : List Expr)
    (hc : whole.Allows h (.frame current)) :
    Renumbered r h current (Lox.evaluateAll (fuel + 1) es) (Lox.evaluateAll (fuel + 1) es)
      (List.map r.value) (·.flatMap Value.places) := by
  cases es with
  | nil => exact .pure rfl allowsAll_nil
  | cons e rest =>
    exact .bind (ih.evaluate e hc) fun v h' hg hv =>
      .bind (ih.evaluateAll rest (hc.mono hg)) fun vs h'' hg' hvs =>
        .pure rfl (allowsAll_append.2 ⟨hv.mono hg', hvs⟩)

theorem callFunction_succ (ih : EvaluationsRenumbered r fuel) (fn : Function) (vs : List Value)
    (line : Nat) (hf : whole.Allows h (.frame fn.closure))
    (hvs : whole.AllowsAll h (vs.flatMap Value.places)) :
    Renumbered r h current (Lox.callFunction (fuel + 1) fn vs line)
      (Lox.callFunction (fuel + 1) fn (vs.map r.value) line) r.value Value.places := by
  refine .bind (.addFrame hf) fun frame h' hg hmade => ?_
  have hframe : whole.Allows h' (.frame frame) := allowsAll_singleton.1 hmade
  have hentries : ∀ entry ∈ fn.decl.params.zip vs, whole.AllowsAll h' entry.2.places := by
    rintro ⟨name, v⟩ hentry p hp
    have hv : v ∈ vs := (List.of_mem_zip hentry).2
    exact hvs.mono hg p (List.mem_flatMap.2 ⟨v, hv, hp⟩)
  have hzip : fn.decl.params.zip (vs.map r.value) =
      (fn.decl.params.zip vs).map fun entry => (entry.1, r.value entry.2) := List.zip_map_right
  rw [hzip]
  refine .bind (.defineAll hframe hentries) fun _ h'' hg' _ => ?_
  refine .bind (.inFrame (ih.executeAll fn.decl.body (hframe.mono hg'))) fun s h''' hg'' hs => ?_
  cases s with
  | normal => exact .pure rfl allowsAll_nil
  | returned v => exact .pure rfl hs
  | exit e =>
    exact .bind (.inspect (fun h _ => (Signal.exit e).description h)
      (fun h _ => (Signal.exit e).description h) fun _ _ _ _ _ => by cases e <;> rfl)
      fun text h _ _ => .fail line _

theorem call_succ (ih : EvaluationsRenumbered r fuel) (c : Callable) (vs : List Value) (line : Nat)
    (hcallee : whole.AllowsAll h c.places) (hvs : whole.AllowsAll h (vs.flatMap Value.places)) :
    Renumbered r h current (Lox.call (fuel + 1) c vs line)
      (Lox.call (fuel + 1) (r.callable c) (vs.map r.value) line) r.value Value.places := by
  cases c with
  | native n =>
    cases n
    exact .asCall .tick
  | function id =>
    exact .asCall (.bind (.lookFunction (allowsAll_singleton.1 hcallee)) fun fn h' hg hf =>
      ih.callFunction fn vs line (allowsAll_singleton.1 hf) (hvs.mono hg))
  | classObject id =>
    have hid : whole.Allows h (.classObject id) := allowsAll_singleton.1 hcallee
    refine .asCall (.bind (.addInstance hid) fun receiver h' hg hreceiver => ?_)
    have hinit : Renumbered r h' current (Action.inspect (·.heap.initializer? id))
        (Action.inspect (·.heap.initializer? (r.classId id))) (Option.map r.functionId)
        fun method? => method?.toList.map .function := by
      refine .look (fun h _ => h.initializer? id) (fun h _ => h.initializer? (r.classId id))
        fun h₁ h₂ hg' hh hr => ⟨hr.initializer? id, fun p hp => ?_⟩
      obtain ⟨method, hmethod, rfl⟩ := List.mem_map.1 hp
      exact hh.initializer? ((hid.mono hg).mono hg') (Option.mem_toList.1 hmethod)
    refine .bind hinit fun method? h'' hg' hmethod => ?_
    cases method? with
    | none => exact .pure rfl (hreceiver.mono hg')
    | some method =>
      refine .bind (.bindMethod (allowsAll_singleton.1 hmethod)
        ((allowsAll_singleton.1 hreceiver).mono hg')) fun bound h₃ hg₃ hbound => ?_
      refine .bind (.lookFunction (allowsAll_singleton.1 hbound)) fun fn h₄ hg₄ hf => ?_
      have hgrows : h'.GrowsTo h₄ := (hg'.trans hg₃).trans hg₄
      exact .bind (ih.callFunction fn vs line (allowsAll_singleton.1 hf)
        (hvs.mono (hg.trans hgrows))) fun _ h₅ hg₅ _ =>
          .pure rfl (hreceiver.mono (hgrows.trans hg₅))

theorem execute_function {decl : FunDecl Stmt} (hc : whole.Allows h (.frame current)) :
    Renumbered r h current (Lox.execute (fuel + 1) (.function decl))
      (Lox.execute (fuel + 1) (.function decl)) r.signal Signal.places :=
  .bind (.lookCurrent hc) fun _ _ hg hframe =>
    .bind (.addFunction (allowsAll_singleton.1 hframe)) fun _ _ hg' hid =>
      .bind (.define (hc.mono (hg.trans hg')) hid) fun _ _ _ _ => .pure rfl allowsAll_nil

theorem execute_classDecl {name : String} {methods : List (FunDecl Stmt)} {line : Nat}
    (hc : whole.Allows h (.frame current)) :
    Renumbered r h current (Lox.execute (fuel + 1) (.classDecl name methods line))
      (Lox.execute (fuel + 1) (.classDecl name methods line)) r.signal Signal.places := by
  refine .bind (.define hc allowsAll_nil) fun _ h₁ hg₁ _ => ?_
  refine .bind (.lookCurrent (hc.mono hg₁)) fun frame h₂ hg₂ hframe => ?_
  refine .bind (.addMethods methods (allowsAll_singleton.1 hframe)) fun table h₃ hg₃ htable => ?_
  refine .bind (.addClass (c := ⟨name, table⟩) htable) fun id h₄ hg₄ hid => ?_
  have hgrows : h.GrowsTo h₄ := ((hg₁.trans hg₂).trans hg₃).trans hg₄
  exact .bind (.assignHere (hc.mono hgrows) hid) fun _ _ _ _ => .pure rfl allowsAll_nil

theorem execute_forLoop (ih : EvaluationsRenumbered r fuel) (init : ForInit)
    (condition increment : Option Expr) (body : Stmt) (line : Nat)
    (hc : whole.Allows h (.frame current)) :
    Renumbered r h current (Lox.execute (fuel + 1) (.forLoop init condition increment body line))
      (Lox.execute (fuel + 1) (.forLoop init condition increment body line)) r.signal
      Signal.places := by
  cases init with
  | nothing => exact ih.loop condition increment body hc
  | evaluate e =>
    exact .bind (ih.evaluate e hc) fun _ h' hg _ => ih.loop condition increment body (hc.mono hg)
  | declare decl =>
    exact .inNewFrame hc fun h' frame hg hframe =>
      .bind (ih.declareVar decl hframe) fun _ h'' hg' _ =>
        ih.loop condition increment body (hframe.mono hg')

theorem execute_succ (ih : EvaluationsRenumbered r fuel) (s : Stmt)
    (hc : whole.Allows h (.frame current)) :
    Renumbered r h current (Lox.execute (fuel + 1) s) (Lox.execute (fuel + 1) s) r.signal
      Signal.places := by
  cases s with
  | expression e line =>
    exact .bind (ih.evaluate e hc) fun _ _ _ _ => .pure rfl allowsAll_nil
  | print e line =>
    exact .bind (ih.evaluate e hc) fun v h' hg hv =>
      .bind (.inspect (fun h _ => v.text h) (fun h _ => (r.value v).text h)
        fun _ _ hg' _ hr => hr.text (hv.mono hg')) fun text h'' hg' _ =>
          .bind (.print text) fun _ _ _ _ => .pure rfl allowsAll_nil
  | var decl => exact .bind (ih.declareVar decl hc) fun _ _ _ _ => .pure rfl allowsAll_nil
  | function decl => exact execute_function hc
  | classDecl name methods line => exact execute_classDecl hc
  | block statements line =>
    exact .inNewFrame hc fun h' frame hg hframe => ih.executeAll statements hframe
  | ifThen condition thenBranch line =>
    refine .bind (ih.evaluate condition hc) fun v h' hg _ => ?_
    rw [r.value_isTruthy]
    cases v.isTruthy with
    | true => exact ih.execute thenBranch (hc.mono hg)
    | false => exact .pure rfl allowsAll_nil
  | ifElse condition thenBranch elseBranch line =>
    refine .bind (ih.evaluate condition hc) fun v h' hg _ => ?_
    rw [r.value_isTruthy]
    cases v.isTruthy with
    | true => exact ih.execute thenBranch (hc.mono hg)
    | false => exact ih.execute elseBranch (hc.mono hg)
  | whileLoop condition body line => exact ih.loop (some condition) none body hc
  | forLoop init condition increment body line =>
    exact ih.execute_forLoop init condition increment body line hc
  | loopExit exit line => exact .pure rfl allowsAll_nil
  | returns value line =>
    cases value with
    | none => exact .pure rfl allowsAll_nil
    | some e => exact .bind (ih.evaluate e hc) fun v _ _ hv => .pure rfl hv

theorem declareVar_succ (ih : EvaluationsRenumbered r fuel) (decl : VarDecl)
    (hc : whole.Allows h (.frame current)) :
    Renumbered r h current (Lox.declareVar (fuel + 1) decl) (Lox.declareVar (fuel + 1) decl) id
      fun _ => [] := by
  rcases decl with ⟨name, init, line⟩
  cases init with
  | none => exact .define hc allowsAll_nil
  | some e => exact .bind (ih.evaluate e hc) fun v h' hg hv => .define (hc.mono hg) hv

theorem executeAll_succ (ih : EvaluationsRenumbered r fuel) (statements : List Stmt)
    (hc : whole.Allows h (.frame current)) :
    Renumbered r h current (Lox.executeAll (fuel + 1) statements)
      (Lox.executeAll (fuel + 1) statements) r.signal Signal.places := by
  cases statements with
  | nil => exact .pure rfl allowsAll_nil
  | cons s rest =>
    refine .bind (ih.execute s hc) fun signal h' hg hs => ?_
    cases signal with
    | normal => exact ih.executeAll rest (hc.mono hg)
    | exit e => exact .pure rfl hs
    | returned v => exact .pure rfl hs

theorem holds_succ (ih : EvaluationsRenumbered r fuel) (condition : Option Expr)
    (hc : whole.Allows h (.frame current)) :
    Renumbered r h current (Lox.holds (fuel + 1) condition) (Lox.holds (fuel + 1) condition) id
      fun _ => [] := by
  cases condition with
  | none => exact .pure rfl allowsAll_nil
  | some e =>
    exact .bind (ih.evaluate e hc) fun v _ _ _ => .pure (r.value_isTruthy v) allowsAll_nil

theorem loop_succ (ih : EvaluationsRenumbered r fuel) (condition increment : Option Expr)
    (body : Stmt) (hc : whole.Allows h (.frame current)) :
    Renumbered r h current (Lox.loop (fuel + 1) condition increment body)
      (Lox.loop (fuel + 1) condition increment body) r.signal Signal.places := by
  refine .bind (ih.holds condition hc) fun b h' hg _ => ?_
  cases b with
  | false => exact .pure rfl allowsAll_nil
  | true =>
    refine .bind (ih.execute body (hc.mono hg)) fun signal h'' hg' hs => ?_
    have hc' : whole.Allows h'' (.frame current) := hc.mono (hg.trans hg')
    have hround : Renumbered r h'' current
        (Lox.step fuel increment >>= fun _ => Lox.loop fuel condition increment body)
        (Lox.step fuel increment >>= fun _ => Lox.loop fuel condition increment body) r.signal
        Signal.places :=
      .bind (ih.step increment hc') fun _ h''' hg'' _ =>
        ih.loop condition increment body (hc'.mono hg'')
    cases signal with
    | normal => exact hround
    | returned v => exact .pure rfl hs
    | exit e =>
      cases e with
      | toEnd => exact .pure rfl allowsAll_nil
      | toNext => exact hround

theorem step_succ (ih : EvaluationsRenumbered r fuel) (increment : Option Expr)
    (hc : whole.Allows h (.frame current)) :
    Renumbered r h current (Lox.step (fuel + 1) increment) (Lox.step (fuel + 1) increment) id
      fun _ => [] := by
  cases increment with
  | none => exact .pure rfl allowsAll_nil
  | some e => exact .bind (ih.evaluate e hc) fun _ _ _ _ => .pure rfl allowsAll_nil

end EvaluationsRenumbered

theorem evaluationsRenumbered (r : Renumbering) (fuel : Nat) : EvaluationsRenumbered r fuel := by
  induction fuel with
  | zero => exact .zero
  | succ fuel ih =>
    exact {
      evaluate := fun e _ _ => ih.evaluate_succ e
      evaluateAll := fun es _ _ => ih.evaluateAll_succ es
      call := fun c vs line _ _ => ih.call_succ c vs line
      callFunction := fun fn vs line _ _ => ih.callFunction_succ fn vs line
      execute := fun s _ _ => ih.execute_succ s
      declareVar := fun decl _ _ => ih.declareVar_succ decl
      executeAll := fun statements _ _ => ih.executeAll_succ statements
      holds := fun condition _ _ => ih.holds_succ condition
      loop := fun condition increment body _ _ => ih.loop_succ condition increment body
      step := fun increment _ _ => ih.step_succ increment }

/-! Programs. -/

namespace Machine

variable {r : Renumbering} {h : Heap} {current : FrameId}

theorem executeProgram_renumbered (fuel : Nat) (program : List Stmt)
    (hc : whole.Allows h (.frame current)) :
    Action.Renumbered r h current (executeProgram fuel program) (executeProgram fuel program) id
      fun _ => [] := by
  induction program generalizing h with
  | nil => exact .pure rfl allowsAll_nil
  | cons s rest ih =>
    refine .bind ((evaluationsRenumbered r fuel).execute s hc) fun signal h' hg hs => ?_
    cases signal with
    | normal => exact ih (hc.mono hg)
    | exit e =>
      exact .bind (.inspect (fun h _ => (Signal.exit e).description h)
        (fun h _ => (Signal.exit e).description h) fun _ _ _ _ _ => by cases e <;> rfl)
        fun text _ _ _ => .fail _ _
    | returned v =>
      refine .bind (.inspect (fun h _ => (Signal.returned v).description h)
        (fun h _ => (Signal.returned (r.value v)).description h) fun _ _ hg' _ hr => ?_)
        fun text _ _ _ => .fail _ _
      simp only [Signal.description, hr.description (hs.mono hg')]

end Machine
end Lox
