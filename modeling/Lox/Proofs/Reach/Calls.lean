import Mathlib
import Lox.Proofs.Reach.Confined

/-! Evaluation from a frame of a region, and every call of something in a region, is confined to the
region. -/
namespace Lox

open Trace Region

def Callable.places : Callable → List Place
  | .native _ => []
  | .function id => [.function id]
  | .classObject id => [.classObject id]

theorem Value.callable?_places {v : Value} {c : Callable} (h : v.callable? = some c) :
    c.places = v.places := by
  cases v <;> cases h <;> rfl

/-- The evaluations at one amount of fuel are confined. A call takes its frames from what it calls,
so that it does not matter where it is made. -/
structure EvaluationsConfined (r : Region) (fuel : Nat) : Prop where
  evaluate (e : Expr) {h : Heap} {current : FrameId} : r.Allows h (.frame current) →
    Trace.Confined r h current (instrument.evaluate fuel e) Value.places
  evaluateAll (es : List Expr) {h : Heap} {current : FrameId} : r.Allows h (.frame current) →
    Trace.Confined r h current (instrument.evaluateAll fuel es) (·.flatMap Value.places)
  call (c : Callable) (vs : List Value) (line : Nat) {h : Heap} {current : FrameId} :
    r.AllowsAll h c.places → r.AllowsAll h (vs.flatMap Value.places) →
      Trace.Confined r h current (instrument.call fuel c vs line) Value.places
  callFunction (f : Function) (vs : List Value) (line : Nat) {h : Heap} {current : FrameId} :
    r.Allows h (.frame f.closure) → r.AllowsAll h (vs.flatMap Value.places) →
      Trace.Confined r h current (instrument.callFunction fuel f vs line) Value.places
  execute (s : Stmt) {h : Heap} {current : FrameId} : r.Allows h (.frame current) →
    Trace.Confined r h current (instrument.execute fuel s) Signal.places
  declareVar (decl : VarDecl) {h : Heap} {current : FrameId} : r.Allows h (.frame current) →
    Trace.Confined r h current (instrument.declareVar fuel decl) fun _ => []
  executeAll (statements : List Stmt) {h : Heap} {current : FrameId} :
    r.Allows h (.frame current) →
      Trace.Confined r h current (instrument.executeAll fuel statements) Signal.places
  holds (condition : Option Expr) {h : Heap} {current : FrameId} : r.Allows h (.frame current) →
    Trace.Confined r h current (instrument.holds fuel condition) fun _ => []
  loop (condition increment : Option Expr) (body : Stmt) {h : Heap} {current : FrameId} :
    r.Allows h (.frame current) →
      Trace.Confined r h current (instrument.loop fuel condition increment body) Signal.places
  turn (increment : Option Expr) {h : Heap} {current : FrameId} : r.Allows h (.frame current) →
    Trace.Confined r h current (instrument.turn fuel increment) fun _ => []

namespace EvaluationsConfined

variable {r : Region} {fuel : Nat} {h : Heap} {current : FrameId} {α : Type}

theorem failRuntime {line : Nat} {f : RuntimeFault} {places : α → List Place} :
    Trace.Confined r h current (instrument.failRuntime line f) places :=
  .step _ .fail

theorem look {f : Heap → FrameId → α} {places : α → List Place}
    (hf : ∀ h', h.GrowsTo h' → r.Held h' → r.AllowsAll h' (places (f h' current))) :
    Trace.Confined r h current (instrument.look f) places :=
  .step _ (.look (f := f) hf)

/-- What is no place can be looked up freely. -/
theorem inspect {f : Heap → FrameId → α} :
    Trace.Confined r h current (instrument.look f) fun _ => [] :=
  look fun _ _ _ => allowsAll_nil

theorem zero : EvaluationsConfined r 0 where
  evaluate _ _ _ _ := .fuelSpent
  evaluateAll _ _ _ _ := .fuelSpent
  call _ _ _ _ _ _ _ := .fuelSpent
  callFunction _ _ _ _ _ _ _ := .fuelSpent
  execute _ _ _ _ := .fuelSpent
  declareVar _ _ _ _ := .fuelSpent
  executeAll _ _ _ _ := .fuelSpent
  holds _ _ _ _ := .fuelSpent
  loop _ _ _ _ _ _ := .fuelSpent
  turn _ _ _ _ := .fuelSpent

theorem evaluate_succ (ih : EvaluationsConfined r fuel) (e : Expr)
    (hc : r.Allows h (.frame current)) :
    Trace.Confined r h current (instrument.evaluate (fuel + 1) e) Value.places := by
  cases e with
  | literal value line =>
    refine .pure ?_
    cases value <;> exact allowsAll_nil
  | group inner line => exact ih.evaluate inner hc
  | unary op right line =>
    exact .bind (ih.evaluate right hc) fun v h' hg hv => .step _ (.lift (op.apply_isOperation v))
  | binary left op right line =>
    refine .bind (ih.evaluate left hc) fun v h' hg hv => ?_
    cases hs : op.settled? v with
    | some settled =>
      cases BinaryOp.settled?_eq hs
      exact .pure hv
    | none =>
      exact .bind (ih.evaluate right (hc.mono hg)) fun w h'' hg' hw => .step _ (.finish hw)
  | read o line => exact .step _ (.read o hc)
  | this o line => exact .step _ (.read o hc)
  | assign target value line =>
    exact .bind (ih.evaluate value hc) fun v h' hg hv =>
      .bind (.step _ (.write target (hc.mono hg) hv)) fun _ h'' hg' _ => .pure (hv.mono hg')
  | get object name line =>
    refine .bind (ih.evaluate object hc) fun v h' hg hv => ?_
    cases v with
    | object id => exact .step _ (.property (allowsAll_singleton.1 hv))
    | _ => exact failRuntime
  | set object name value line =>
    refine .bind (ih.evaluate object hc) fun v h' hg hv => ?_
    cases v with
    | object id =>
      have hid : r.Allows h' (.object id) := allowsAll_singleton.1 hv
      exact .bind (ih.evaluate value (hc.mono hg)) fun w h'' hg' hw =>
        .bind (.step _ (.setField (hid.mono hg') hw)) fun _ h''' hg'' _ => .pure (hw.mono hg'')
    | _ => exact failRuntime
  | call callee arguments line =>
    refine .bind (ih.evaluate callee hc) fun v h' hg hv => ?_
    cases hcall : v.callable? with
    | none => exact failRuntime
    | some c =>
      have hcallee : r.AllowsAll h' c.places := (Value.callable?_places hcall).symm ▸ hv
      refine .bind inspect fun arity h'' hg' _ => ?_
      by_cases hn : arguments.length ≠ arity
      · simp only [if_pos hn]
        exact failRuntime
      · simp only [if_neg hn]
        exact .bind (ih.evaluateAll arguments (hc.mono (hg.trans hg'))) fun vs h''' hg'' hvs =>
          ih.call c vs line (hcallee.mono (hg'.trans hg'')) hvs

theorem evaluateAll_succ (ih : EvaluationsConfined r fuel) (es : List Expr)
    (hc : r.Allows h (.frame current)) :
    Trace.Confined r h current (instrument.evaluateAll (fuel + 1) es)
      (·.flatMap Value.places) := by
  cases es with
  | nil => exact .pure allowsAll_nil
  | cons e rest =>
    exact .bind (ih.evaluate e hc) fun v h' hg hv =>
      .bind (ih.evaluateAll rest (hc.mono hg)) fun vs h'' hg' hvs =>
        .pure (allowsAll_append.2 ⟨hv.mono hg', hvs⟩)

theorem callFunction_succ (ih : EvaluationsConfined r fuel) (f : Function) (vs : List Value)
    (line : Nat) (hf : r.Allows h (.frame f.closure))
    (hvs : r.AllowsAll h (vs.flatMap Value.places)) :
    Trace.Confined r h current (instrument.callFunction (fuel + 1) f vs line) Value.places := by
  have hframe : Trace.Confined r h current
      (instrument.step _ (.addFrame f.closure)) fun frame => [.frame frame] := by
    refine .step _ (.allocate fun h' hg hh => ?_)
    obtain ⟨hl, hmade⟩ := hh.addFrame (hf.mono hg)
    exact ⟨hl, allowsAll_singleton.2 hmade⟩
  refine .bind hframe fun frame h' hg hmade => ?_
  have hframe' : r.Allows h' (.frame frame) := allowsAll_singleton.1 hmade
  have hentries : ∀ entry ∈ f.decl.params.zip vs, r.AllowsAll h' entry.2.places := by
    rintro ⟨name, v⟩ hentry p hp
    have hv : v ∈ vs := (List.of_mem_zip hentry).2
    exact hvs.mono hg p (List.mem_flatMap.2 ⟨v, hv, hp⟩)
  refine .bind (.step _ (.defineAll hframe' hentries)) fun _ h'' hg' _ => ?_
  refine .bind (.inFrame (ih.executeAll f.decl.body (hframe'.mono hg'))) fun s h''' hg'' hs => ?_
  cases s with
  | normal => exact .pure allowsAll_nil
  | returned v => exact .pure hs
  | exit e => exact .bind inspect fun text h _ _ => .step _ .fail

theorem lookFunction {id : FunctionId} (hid : r.Allows h (.function id)) :
    Trace.Confined r h current (instrument.look fun h _ => h.function id)
      fun f => [.frame f.closure] :=
  look fun _ hg hh => hh.closed (hid.mono hg)

theorem call_succ (ih : EvaluationsConfined r fuel) (c : Callable) (vs : List Value) (line : Nat)
    (hcallee : r.AllowsAll h c.places) (hvs : r.AllowsAll h (vs.flatMap Value.places)) :
    Trace.Confined r h current (instrument.call (fuel + 1) c vs line) Value.places := by
  cases c with
  | native n =>
    cases n
    exact .asCall (.step _ .tick)
  | function id =>
    refine .asCall (.bind (lookFunction (allowsAll_singleton.1 hcallee)) fun f h' hg hf => ?_)
    exact ih.callFunction f vs line (allowsAll_singleton.1 hf) (hvs.mono hg)
  | classObject id =>
    have hid : r.Allows h (.classObject id) := allowsAll_singleton.1 hcallee
    have hinstance : Trace.Confined r h current
        (instrument.step _ (.addInstance id)) fun receiver => [.object receiver] := by
      refine .step _ (.allocate fun h' hg hh => ?_)
      obtain ⟨hl, hmade⟩ := hh.addInstance (hid.mono hg)
      exact ⟨hl, allowsAll_singleton.2 hmade⟩
    refine .asCall (.bind hinstance fun receiver h' hg hreceiver => ?_)
    have hinit : Trace.Confined r h' current (instrument.look fun h _ => h.initializer? id)
        fun method? => method?.toList.map .function := by
      refine look fun h'' hg' hh p hp => ?_
      obtain ⟨method, hmethod, rfl⟩ := List.mem_map.1 hp
      exact hh.initializer? ((hid.mono hg).mono hg') (Option.mem_toList.1 hmethod)
    refine .bind hinit fun method? h'' hg' hmethod => ?_
    cases method? with
    | none => exact .pure (hreceiver.mono hg')
    | some method =>
      have hbind : Trace.Confined r h'' current
          (instrument.step _ (.bindMethod method receiver)) fun bound => [.function bound] := by
        refine .step _ (.allocate fun h₃ hg₃ hh => ?_)
        obtain ⟨hl, hmade⟩ := hh.bindMethod ((allowsAll_singleton.1 hmethod).mono hg₃)
          ((allowsAll_singleton.1 hreceiver).mono (hg'.trans hg₃))
        exact ⟨hl, allowsAll_singleton.2 hmade⟩
      refine .bind hbind fun bound h₃ hg₃ hbound => ?_
      refine .bind (lookFunction (allowsAll_singleton.1 hbound)) fun f h₄ hg₄ hf => ?_
      have hgrows : h'.GrowsTo h₄ := (hg'.trans hg₃).trans hg₄
      refine .bind (ih.callFunction f vs line (allowsAll_singleton.1 hf)
        (hvs.mono (hg.trans hgrows))) fun _ h₅ hg₅ _ => ?_
      exact .pure (hreceiver.mono (hgrows.trans hg₅))

theorem lookCurrent (hc : r.Allows h (.frame current)) :
    Trace.Confined r h current (instrument.look fun _ current => current)
      fun frame => [.frame frame] :=
  look fun _ hg _ => allowsAll_singleton.2 (hc.mono hg)

theorem inNewFrame {x : Trace α} {places : α → List Place} (hc : r.Allows h (.frame current))
    (hx : ∀ h' frame, h.GrowsTo h' → r.Allows h' (.frame frame) →
      Trace.Confined r h' frame x places) :
    Trace.Confined r h current (instrument.inNewFrame x) places := by
  refine .bind (lookCurrent hc) fun outer h' hg houter => ?_
  have hframe : Trace.Confined r h' current (instrument.step _ (.addFrame outer))
      fun frame => [.frame frame] := by
    refine .step _ (.allocate fun h'' hg' hh => ?_)
    obtain ⟨hl, hmade⟩ := hh.addFrame ((allowsAll_singleton.1 houter).mono hg')
    exact ⟨hl, allowsAll_singleton.2 hmade⟩
  exact .bind hframe fun frame h'' hg' hmade =>
    .inFrame (hx h'' frame (hg.trans hg') (allowsAll_singleton.1 hmade))

theorem define {name : String} {v : Value} {line : Nat} (hc : r.Allows h (.frame current))
    (hv : r.AllowsAll h v.places) :
    Trace.Confined r h current (instrument.define name v line) fun _ => [] :=
  .step _ (.define hc hv)

theorem execute_function {decl : FunDecl Stmt} (hc : r.Allows h (.frame current)) :
    Trace.Confined r h current (instrument.execute (fuel + 1) (.function decl)) Signal.places := by
  refine .bind (lookCurrent hc) fun frame h' hg hframe => ?_
  have hmake : Trace.Confined r h' current (instrument.step _ (.addFunction ⟨decl, frame⟩))
      fun id => [.function id] := by
    refine .step _ (.allocate fun h'' hg' hh => ?_)
    obtain ⟨hl, hmade⟩ := hh.addFunction (f := ⟨decl, frame⟩)
      ((allowsAll_singleton.1 hframe).mono hg')
    exact ⟨hl, allowsAll_singleton.2 hmade⟩
  exact .bind hmake fun id h'' hg' hid =>
    .bind (define (hc.mono (hg.trans hg')) hid) fun _ _ _ _ => .pure allowsAll_nil

theorem execute_classDecl {name : String} {methods : List (FunDecl Stmt)} {line : Nat}
    (hc : r.Allows h (.frame current)) :
    Trace.Confined r h current (instrument.execute (fuel + 1) (.classDecl name methods line))
      Signal.places := by
  refine .bind (define hc allowsAll_nil) fun _ h₁ hg₁ _ => ?_
  refine .bind (lookCurrent (hc.mono hg₁)) fun frame h₂ hg₂ hframe => ?_
  have hmethods : Trace.Confined r h₂ current
      (instrument.step _ (.addMethods frame methods [])) methodPlaces := by
    refine .step _ (.allocate fun h' hg hh => ?_)
    exact hh.addMethods ((allowsAll_singleton.1 hframe).mono hg) allowsAll_nil
  refine .bind hmethods fun table h₃ hg₃ htable => ?_
  have hclass : Trace.Confined r h₃ current (instrument.step _ (.addClass ⟨name, table⟩))
      fun id => [.classObject id] := by
    refine .step _ (.allocate fun h' hg hh => ?_)
    obtain ⟨hl, hmade⟩ := hh.addClass (c := ⟨name, table⟩) (htable.mono hg)
    exact ⟨hl, allowsAll_singleton.2 hmade⟩
  refine .bind hclass fun id h₄ hg₄ hid => ?_
  have hgrows : h.GrowsTo h₄ := ((hg₁.trans hg₂).trans hg₃).trans hg₄
  exact .bind (.step _ (.assignHere (hc.mono hgrows) hid)) fun _ _ _ _ => .pure allowsAll_nil

theorem execute_forLoop (ih : EvaluationsConfined r fuel) (init : ForInit)
    (condition increment : Option Expr) (body : Stmt) (line : Nat)
    (hc : r.Allows h (.frame current)) :
    Trace.Confined r h current
      (instrument.execute (fuel + 1) (.forLoop init condition increment body line))
      Signal.places := by
  cases init with
  | nothing => exact ih.loop condition increment body hc
  | evaluate e =>
    exact .bind (ih.evaluate e hc) fun _ h' hg _ => ih.loop condition increment body (hc.mono hg)
  | declare decl =>
    exact inNewFrame hc fun h' frame hg hframe =>
      .bind (ih.declareVar decl hframe) fun _ h'' hg' _ =>
        ih.loop condition increment body (hframe.mono hg')

theorem execute_succ (ih : EvaluationsConfined r fuel) (s : Stmt)
    (hc : r.Allows h (.frame current)) :
    Trace.Confined r h current (instrument.execute (fuel + 1) s) Signal.places := by
  cases s with
  | expression e line =>
    exact .bind (ih.evaluate e hc) fun _ _ _ _ => .pure allowsAll_nil
  | print e line =>
    exact .bind (ih.evaluate e hc) fun v h' hg _ => .bind inspect fun text h'' hg' _ =>
      .bind (.step _ (.print text)) fun _ _ _ _ => .pure allowsAll_nil
  | var decl => exact .bind (ih.declareVar decl hc) fun _ _ _ _ => .pure allowsAll_nil
  | function decl => exact execute_function hc
  | classDecl name methods line => exact execute_classDecl hc
  | block statements line =>
    exact inNewFrame hc fun h' frame hg hframe => ih.executeAll statements hframe
  | ifThen condition thenBranch line =>
    refine .bind (ih.evaluate condition hc) fun v h' hg _ => ?_
    cases v.isTruthy with
    | true => exact ih.execute thenBranch (hc.mono hg)
    | false => exact .pure allowsAll_nil
  | ifElse condition thenBranch elseBranch line =>
    refine .bind (ih.evaluate condition hc) fun v h' hg _ => ?_
    cases v.isTruthy with
    | true => exact ih.execute thenBranch (hc.mono hg)
    | false => exact ih.execute elseBranch (hc.mono hg)
  | whileLoop condition body line => exact ih.loop (some condition) none body hc
  | forLoop init condition increment body line =>
    exact ih.execute_forLoop init condition increment body line hc
  | loopExit exit line => exact .pure allowsAll_nil
  | returns value line =>
    cases value with
    | none => exact .pure allowsAll_nil
    | some e => exact .bind (ih.evaluate e hc) fun v _ _ hv => .pure hv

theorem declareVar_succ (ih : EvaluationsConfined r fuel) (decl : VarDecl)
    (hc : r.Allows h (.frame current)) :
    Trace.Confined r h current (instrument.declareVar (fuel + 1) decl) fun _ => [] := by
  rcases decl with ⟨name, init, line⟩
  cases init with
  | none => exact define hc allowsAll_nil
  | some e => exact .bind (ih.evaluate e hc) fun v h' hg hv => define (hc.mono hg) hv

theorem executeAll_succ (ih : EvaluationsConfined r fuel) (statements : List Stmt)
    (hc : r.Allows h (.frame current)) :
    Trace.Confined r h current (instrument.executeAll (fuel + 1) statements) Signal.places := by
  cases statements with
  | nil => exact .pure allowsAll_nil
  | cons s rest =>
    refine .bind (ih.execute s hc) fun signal h' hg hs => ?_
    cases signal with
    | normal => exact ih.executeAll rest (hc.mono hg)
    | exit e => exact .pure hs
    | returned v => exact .pure hs

theorem holds_succ (ih : EvaluationsConfined r fuel) (condition : Option Expr)
    (hc : r.Allows h (.frame current)) :
    Trace.Confined r h current (instrument.holds (fuel + 1) condition) fun _ => [] := by
  cases condition with
  | none => exact .pure allowsAll_nil
  | some e => exact .bind (ih.evaluate e hc) fun _ _ _ _ => .pure allowsAll_nil

theorem loop_succ (ih : EvaluationsConfined r fuel) (condition increment : Option Expr)
    (body : Stmt) (hc : r.Allows h (.frame current)) :
    Trace.Confined r h current (instrument.loop (fuel + 1) condition increment body)
      Signal.places := by
  refine .bind (ih.holds condition hc) fun b h' hg _ => ?_
  cases b with
  | false => exact .pure allowsAll_nil
  | true =>
    refine .bind (ih.execute body (hc.mono hg)) fun signal h'' hg' hs => ?_
    have hc' : r.Allows h'' (.frame current) := hc.mono (hg.trans hg')
    have hround : Trace.Confined r h'' current (do
        let _ ← instrument.turn fuel increment
        instrument.loop fuel condition increment body) Signal.places :=
      .bind (ih.turn increment hc') fun _ h''' hg'' _ =>
        ih.loop condition increment body (hc'.mono hg'')
    cases signal with
    | normal => exact hround
    | returned v => exact .pure hs
    | exit e =>
      cases e with
      | toEnd => exact .pure allowsAll_nil
      | toNext => exact hround

theorem turn_succ (ih : EvaluationsConfined r fuel) (increment : Option Expr)
    (hc : r.Allows h (.frame current)) :
    Trace.Confined r h current (instrument.turn (fuel + 1) increment) fun _ => [] := by
  cases increment with
  | none => exact .pure allowsAll_nil
  | some e => exact .bind (ih.evaluate e hc) fun _ _ _ _ => .pure allowsAll_nil

end EvaluationsConfined

theorem evaluationsConfined (r : Region) (fuel : Nat) : EvaluationsConfined r fuel := by
  induction fuel with
  | zero => exact .zero
  | succ fuel ih =>
    exact {
      evaluate := fun e _ _ => ih.evaluate_succ e
      evaluateAll := fun es _ _ => ih.evaluateAll_succ es
      call := fun c vs line _ _ => ih.call_succ c vs line
      callFunction := fun f vs line _ _ => ih.callFunction_succ f vs line
      execute := fun s _ _ => ih.execute_succ s
      declareVar := fun decl _ _ => ih.declareVar_succ decl
      executeAll := fun statements _ _ => ih.executeAll_succ statements
      holds := fun condition _ _ => ih.holds_succ condition
      loop := fun condition increment body _ _ => ih.loop_succ condition increment body
      turn := fun increment _ _ => ih.turn_succ increment }

theorem EvaluationsConfined.executeProgram (r : Region) (fuel : Nat) (program : List Stmt)
    {h : Heap} {current : FrameId} (hc : r.Allows h (.frame current)) :
    Trace.Confined r h current (instrument.executeProgram fuel program) fun _ => [] := by
  induction program generalizing h with
  | nil => exact .pure allowsAll_nil
  | cons s rest ih =>
    refine .bind ((evaluationsConfined r fuel).execute s hc) fun signal h' hg hs => ?_
    cases signal with
    | normal => exact ih (hc.mono hg)
    | exit e => exact .bind inspect fun text _ _ _ => .step _ .fail
    | returned v => exact .bind inspect fun text _ _ _ => .step _ .fail

theorem Action.Confined.executeProgram (r : Region) (fuel : Nat) (program : List Stmt)
    {h : Heap} {current : FrameId} (hc : r.Allows h (.frame current)) :
    (Machine.executeProgram fuel program).Confined r h current fun _ => [] := by
  intro m hm hg hh
  rw [← instrument_matches.composes.executeProgram fuel program m]
  exact (EvaluationsConfined.executeProgram r fuel program hc m hm hg hh).2

/-- What can be reached from some places, as a region. -/
def Heap.reach (h : Heap) (roots : List Place) : Region := ⟨h, h.Reaches roots⟩

theorem Heap.reach_allows {h : Heap} {roots : List Place} {p : Place} :
    (h.reach roots).Allows h p ↔ h.Reaches roots p := by
  constructor
  · rintro (hp | ⟨hle, hlt⟩)
    · exact hp
    · exact absurd hlt (Nat.not_lt_of_le hle)
  · exact .inl

theorem Heap.reach_held (h : Heap) (roots : List Place) : (h.reach roots).Held h where
  grown := .refl h
  closed hp _ hq := .inl (.link (reach_allows.1 hp) hq)
  nested _ _ hmade _ hf := absurd (Frames.get?_eq_some_lt hf) (Nat.not_lt_of_le hmade)
  frames _ _ := rfl
  objects _ _ := rfl

/-- All the time during a call and after it, whether it succeeds or fails, the frames and instances
that were there before it and that could not be reached from the globals, the callee or the
arguments are what they were. -/
theorem call_confined (fuel : Nat) (c : Callable) (vs : List Value) (line : Nat) (m : Machine) :
    let reached := m.heap.Reaches (.frame m.globals :: c.places ++ vs.flatMap Value.places)
    let watched := instrument.call fuel c vs line m
    watched.2 = call fuel c vs line m ∧
      ∀ h, h ∈ watched.1 ∨ (∃ last ∈ (call fuel c vs line m).state?, last.heap = h) →
        (∀ f < m.heap.frames.size, ¬ reached (.frame f) →
          h.frames.get? f = m.heap.frames.get? f) ∧
        ∀ id < m.heap.instances.size, ¬ reached (.object id) →
          h.instances[id]? = m.heap.instances[id]? := by
  intro reached watched
  have hsame : watched.2 = call fuel c vs line m :=
    (instrument_matches.evaluations fuel).call c vs line m
  let r := m.heap.reach (.frame m.globals :: c.places ++ vs.flatMap Value.places)
  have hroots : r.AllowsAll m.heap (.frame m.globals :: c.places ++ vs.flatMap Value.places) :=
    fun p hp => .inl (.root hp)
  obtain ⟨hcallee, hvs⟩ := allowsAll_append.1 hroots
  have hconfined : Trace.Confined r m.heap m.current (instrument.call fuel c vs line)
      Value.places :=
    (evaluationsConfined r fuel).call c vs line (allowsAll_cons.1 hcallee).2 hvs
  obtain ⟨hseen, hlast⟩ := hconfined m rfl (.refl _) (m.heap.reach_held _)
  refine ⟨hsame, fun h hh => ?_⟩
  have hheld : r.Held h := by
    rcases hh with hh | ⟨last, hmem, rfl⟩
    · exact hseen h hh
    · exact hlast.held last (hsame ▸ hmem)
  exact ⟨fun f hf hout => hheld.frames hf hout, fun id hid hout => hheld.objects hid hout⟩

/-- A function that sets a global, and a block that has a local variable. -/
def blockMachine : Machine :=
  let m := Machine.start none .unlimited fun _ => 0
  let setter : FunDecl Stmt :=
    ⟨"f", ["a"], [.expression (.assign ⟨"f", .global⟩ (.read ⟨"a", .hops 0⟩ 1) 1) 1], 1, 0⟩
  let h := (m.heap.addFunction ⟨setter, m.globals⟩).2.bind m.globals "f" (.function 0)
  let local? := h.addFrame m.globals
  { m with heap := local?.2.bind local?.1 "x" .nil, current := local?.1 }

theorem call_confined_block :
    ∃ last ∈ (call 8 (.function 0) [.bool true] 1 blockMachine).state?,
      (last.heap.frames.find? blockMachine.globals "f").any (Value.equal (.bool true)) ∧
        last.heap.frames.get? blockMachine.current =
          blockMachine.heap.frames.get? blockMachine.current := by
  have hrun : ((call 8 (.function 0) [.bool true] 1 blockMachine).state?.map fun last =>
      (last.heap.frames.find? blockMachine.globals "f").any (Value.equal (.bool true))) =
        some true := by cbv
  have hreached : ∀ p, blockMachine.heap.Reaches [.frame 0, .function 0] p →
      p ∈ [Place.frame 0, .function 0] := by
    intro p hp
    have hclosed : ∀ p ∈ [Place.frame 0, .function 0], ∀ q ∈ blockMachine.heap.links p,
        q ∈ [Place.frame 0, .function 0] := by decide
    induction hp with
    | root hp => exact hp
    | link _ hq ih => exact hclosed _ ih _ hq
  obtain ⟨last, hlast, hset⟩ := Option.map_eq_some_iff.1 hrun
  have hconfined := (call_confined 8 (.function 0) [.bool true] 1 blockMachine).2 last.heap
    (.inr ⟨last, hlast, rfl⟩)
  refine ⟨last, hlast, hset, hconfined.1 _ (by decide) fun hreach => ?_⟩
  exact absurd (hreached _ hreach) (by decide)

end Lox
