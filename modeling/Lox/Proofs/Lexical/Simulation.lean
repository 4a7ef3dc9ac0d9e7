import Lox.Proofs.Lexical.Actions
import Lox.Proofs.Lexical.Evaluation

/-! The two evaluations do the same to twins, at every amount of fuel. -/
namespace Lox.Lexical

open Grammar (Context)

namespace Pair

/-- Signals that a statement in `ctx` may end with. -/
def Allows (p : Pair) (ctx : Context) : Signal → Prop
  | .normal => True
  | .exit _ => ctx.inLoop
  | .returned v => ctx.inFunction ∧ p.Safe v

/-- A callable thing that takes so many arguments. -/
def Accepts (p : Pair) : Callable → Nat → Prop
  | .native _, _ => True
  | .function id, n => p.Closes [] id ∧ p.Takes id n
  | .classObject id, n => ∃ c, p.store.classes[id]? = some c ∧
      ∀ method, c.methods.find? "init" = some method → p.Takes method n

variable {p p' : Pair} {changing f : FrameId} {env env' : Env} {vis : Visible} {ctx : Context}

theorem Allows.later {signal : Signal} (h : p.Allows ctx signal) (hl : p.Later changing p') :
    p'.Allows ctx signal := by
  cases signal with
  | returned v => exact ⟨h.1, h.2.later hl⟩
  | _ => exact h

theorem Allows.atFrame {signal : Signal} {g : FrameId} (h : p.Allows ctx signal) :
    (p.atFrame g).Allows ctx signal := by
  cases signal with
  | returned v => exact ⟨h.1, h.2.atFrame⟩
  | _ => exact h

theorem Accepts.later {c : Callable} {n : Nat} (h : p.Accepts c n) (hl : p.Later changing p') :
    p'.Accepts c n := by
  cases c with
  | native => trivial
  | function id => exact ⟨h.1.later hl, h.2.later hl⟩
  | classObject id =>
    rcases h with ⟨c, hc, hm⟩
    exact ⟨c, hl.classes hc, fun method hi => (hm method hi).later hl⟩

/-- What is called has as many parameters as its arity says. -/
theorem Twin.accepts (h : p.Twin) {v : Value} (hv : p.Safe v) {c : Callable}
    (hc : v.callable? = some c) : p.Accepts c (c.arity p.machine.heap) := by
  cases v with
  | native =>
    cases hc
    trivial
  | function id =>
    cases hc
    have hcloses : p.Closes [] id := hv
    rcases hv with ⟨f, _, hf, -⟩
    exact ⟨hcloses, f, hf, by simp [Callable.arity, Heap.function, hf]⟩
  | classObject id =>
    cases hc
    rcases hv with ⟨c, hc⟩
    refine ⟨c, hc, fun method hm => ?_⟩
    obtain ⟨f, _, hf, -⟩ := h.methods hc hm
    refine ⟨f, hf, ?_⟩
    have hobject : p.machine.heap.classObject id = c := by
      simp [Heap.classObject, ← h.classes, hc]
    simp [Callable.arity, Heap.classArity, Heap.initializer?, hobject, hm, Heap.function, hf]
  | _ => cases hc

theorem Inside.of_sees (hi : p.Inside env f vis) (hs : p.Sees env' f vis) : p.Inside env' f vis :=
  ⟨hs, hi.lacks⟩

end Pair

open Pair

/-- What the evaluations at one amount of fuel do to twins. -/
structure Simulated (fuel : Nat) : Prop where
  evaluate {p : Pair} {changing : FrameId} {env : Env} {vis : Visible} {e : Expr} : p.Twin →
    p.Sees env p.machine.current vis → e.Placed vis →
      p.Agrees changing (Lox.evaluate fuel e) (Lexical.evaluate fuel env e) Same
  evaluateAll {p : Pair} {changing : FrameId} {env : Env} {vis : Visible} {es : List Expr} :
    p.Twin → p.Sees env p.machine.current vis → argumentsPlaced vis es →
      p.Agrees changing (Lox.evaluateAll fuel es) (Lexical.evaluateAll fuel env es)
        fun vs vs' p' => vs' = vs ∧ vs.length = es.length ∧ ∀ v ∈ vs, p'.Safe v
  call {p : Pair} {changing : FrameId} {c : Callable} {vs : List Value} {line : Nat} : p.Twin →
    p.Accepts c vs.length → (∀ v ∈ vs, p.Safe v) →
      p.Agrees changing (Lox.call fuel c vs line) (Lexical.call fuel c vs line) Same
  callFunction {p : Pair} {changing : FrameId} {f : Function} {c : Closure} {vs : List Value}
    {line : Nat} {ctx : Context} {vis : Visible} : p.Twin → c.decl = f.decl →
      p.Sees c.env f.closure vis → functionPlaced ctx vis f.decl → f.arity = vs.length →
        (∀ v ∈ vs, p.Safe v) →
          p.Agrees changing (Lox.callFunction fuel f vs line) (Lexical.callFunction fuel c vs) Same
  execute {p : Pair} {f : FrameId} {env : Env} {ctx : Context} {vis : Visible} {s : Stmt} :
    p.Twin → p.machine.current = f → p.Inside env f vis → s.Placed ctx vis →
      p.Agrees f (Lox.execute fuel s) (Lexical.execute fuel env s) fun signal r p' =>
        r.1 = signal ∧ p'.Allows ctx signal ∧ p'.Inside r.2 f (s.extend vis)
  declareVar {p : Pair} {f : FrameId} {env : Env} {vis : Visible} {decl : VarDecl} :
    p.Twin → p.machine.current = f → p.Inside env f vis → decl.Placed vis →
      p.Agrees f (Lox.declareVar fuel decl) (Lexical.declareVar fuel env decl)
        fun _ env' p' => p'.Inside env' f (vis.declare decl.name)
  executeAll {p : Pair} {f : FrameId} {env : Env} {ctx : Context} {vis : Visible}
    {statements : List Stmt} : p.Twin → p.machine.current = f → p.Inside env f vis →
      statementsPlaced ctx vis statements →
        p.Agrees f (Lox.executeAll fuel statements) (Lexical.executeAll fuel env statements)
          fun signal signal' p' => signal' = signal ∧ p'.Allows ctx signal
  holds {p : Pair} {changing : FrameId} {env : Env} {vis : Visible} {e? : Option Expr} : p.Twin →
    p.Sees env p.machine.current vis → optionalPlaced vis e? →
      p.Agrees changing (Lox.holds fuel e?) (Lexical.holds fuel env e?) fun b b' _ => b' = b
  loop {p : Pair} {f : FrameId} {env : Env} {ctx : Context} {vis : Visible}
    {condition increment : Option Expr} {body : Stmt} : p.Twin → p.machine.current = f →
      p.Inside env f vis → optionalPlaced vis condition → optionalPlaced vis increment →
        body.isDeclaration = false → body.Placed ctx.enterLoop vis →
          p.Agrees f (Lox.loop fuel condition increment body)
            (Lexical.loop fuel env condition increment body)
            fun signal signal' p' =>
              signal' = signal ∧ p'.Allows ctx signal ∧ p'.Inside env f vis
  step {p : Pair} {changing : FrameId} {env : Env} {vis : Visible} {e? : Option Expr} : p.Twin →
    p.Sees env p.machine.current vis → optionalPlaced vis e? →
      p.Agrees changing (Lox.step fuel e?) (Lexical.step fuel env e?) fun _ _ _ => True

namespace Simulated

variable {fuel : Nat} {p : Pair} {changing f : FrameId} {env : Env} {vis : Visible} {ctx : Context}

theorem zero : Simulated 0 where
  evaluate _ _ _ := .fuelSpent
  evaluateAll _ _ _ := .fuelSpent
  call _ _ _ := .fuelSpent
  callFunction _ _ _ _ _ _ := .fuelSpent
  execute _ _ _ _ := .fuelSpent
  declareVar _ _ _ _ := .fuelSpent
  executeAll _ _ _ _ := .fuelSpent
  holds _ _ _ := .fuelSpent
  loop _ _ _ _ _ _ _ := .fuelSpent
  step _ _ _ := .fuelSpent

/-- The number of arguments is compared before the arguments are evaluated. -/
theorem evaluate_call (ih : Simulated fuel) {callee : Expr} {arguments : List Expr} {line : Nat}
    (h : p.Twin) (hs : p.Sees env p.machine.current vis)
    (hp : (Expr.call callee arguments line).Placed vis) :
    p.Agrees changing (Lox.evaluate (fuel + 1) (.call callee arguments line))
      (Lexical.evaluate (fuel + 1) env (.call callee arguments line)) Same := by
  refine (ih.evaluate h hs hp.1).bind ?_
  rintro _ v q hq hl ⟨rfl, hv⟩
  cases hc : v.callable? with
  | none => exact .failRuntime hq trivial
  | some c =>
    refine .inspect ?_
    rw [hq.objects, Callable.arity_withoutFrames]
    split
    next => exact .failRuntime hq trivial
    next hlen =>
      have haccepts := hq.accepts hv hc
      refine (ih.evaluateAll hq (hs.onward hl) hp.2).bind ?_
      rintro _ vs q' hq' hl' ⟨rfl, hlength, hvs⟩
      refine ih.call hq' ?_ hvs
      rw [hlength, Classical.not_not.1 hlen]
      exact haccepts.later hl'

theorem evaluate_succ (ih : Simulated fuel) {e : Expr} (h : p.Twin)
    (hs : p.Sees env p.machine.current vis) (hp : e.Placed vis) :
    p.Agrees changing (Lox.evaluate (fuel + 1) e) (Lexical.evaluate (fuel + 1) env e) Same := by
  cases e with
  | literal value line => exact .pure h ⟨rfl, by cases value <;> trivial⟩
  | group inner line => exact ih.evaluate h hs hp
  | unary op right line =>
    have hp : right.Placed vis := hp
    refine (ih.evaluate h hs hp).bind ?_
    rintro _ v q hq hl ⟨rfl, -⟩
    exact agrees_lift hq (op.apply_isOperation _) line
  | binary left op right line =>
    refine (ih.evaluate h hs hp.1).bind ?_
    rintro _ v q hq hl ⟨rfl, hv⟩
    cases hsettled : op.settled? v with
    | some settled =>
      simp only
      rw [BinaryOp.settled?_eq hsettled]
      exact .pure hq ⟨rfl, hv⟩
    | none =>
      refine (ih.evaluate hq (hs.onward hl) hp.2).bind ?_
      rintro _ w q' hq' _ ⟨rfl, hw⟩
      exact agrees_finish hq' op _ hw line
  | read o line => exact agrees_read h hs hp line
  | this o line => exact agrees_read h hs hp line
  | assign target value line =>
    refine (ih.evaluate h hs hp.2).bind ?_
    rintro _ v q hq hl ⟨rfl, hv⟩
    apply (agrees_write hq (hs.onward hl) hp.1 hv line).bind
    intro _ _ q' hq' hl' _
    exact .pure hq' ⟨rfl, hv.later hl'⟩
  | get object name line =>
    have hp : object.Placed vis := hp
    refine (ih.evaluate h hs hp).bind ?_
    rintro _ v q hq hl ⟨rfl, hv⟩
    cases v with
    | object id => exact agrees_property hq id name line
    | _ => exact .failRuntime hq trivial
  | set object name value line =>
    refine (ih.evaluate h hs hp.1).bind ?_
    rintro _ v q hq hl ⟨rfl, hv⟩
    cases v with
    | object id =>
      refine (ih.evaluate hq (hs.onward hl) hp.2).bind ?_
      rintro _ w q' hq' _ ⟨rfl, hw⟩
      apply (agrees_setField hq' id name hw).bind
      intro _ _ q'' hq'' hl'' _
      exact .pure hq'' ⟨rfl, hw.later hl''⟩
    | _ => exact .failRuntime hq trivial
  | call callee arguments line => exact ih.evaluate_call h hs hp

theorem evaluateAll_succ (ih : Simulated fuel) {es : List Expr} (h : p.Twin)
    (hs : p.Sees env p.machine.current vis) (hp : argumentsPlaced vis es) :
    p.Agrees changing (Lox.evaluateAll (fuel + 1) es) (Lexical.evaluateAll (fuel + 1) env es)
      fun vs vs' p' => vs' = vs ∧ vs.length = es.length ∧ ∀ v ∈ vs, p'.Safe v := by
  cases es with
  | nil => exact .pure h ⟨rfl, rfl, by simp⟩
  | cons e rest =>
    refine (ih.evaluate h hs hp.1).bind ?_
    rintro _ v q hq hl ⟨rfl, hv⟩
    refine (ih.evaluateAll hq (hs.onward hl) hp.2).bind ?_
    rintro _ vs q' hq' hl' ⟨rfl, hlen, hvs⟩
    exact .pure hq' ⟨rfl, congrArg (· + 1) hlen, List.forall_mem_cons.2 ⟨hv.later hl', hvs⟩⟩

/-- The function behind an id is called. -/
theorem callId (ih : Simulated fuel) {id : FunctionId} {vs : List Value} (h : p.Twin)
    (hcloses : p.Closes [] id) (htakes : p.Takes id vs.length) (hvs : ∀ v ∈ vs, p.Safe v)
    (line : Nat) :
    p.Agrees changing (do
      let f ← Action.inspect (·.heap.function id)
      Lox.callFunction fuel f vs line) (do
      let c ← Action.inspect (·.function id)
      Lexical.callFunction fuel c vs) Same := by
  rcases hcloses with ⟨f, c, hf, hc, hd, ctx, vis, hs, hp⟩
  rcases htakes with ⟨f', hf', hn⟩
  cases hf.symm.trans hf'
  have hfun : p.machine.heap.function id = f := by simp [Heap.function, hf]
  have hclos : p.store.function id = c := by simp [Store.function, hc]
  refine .inspect ?_
  rw [hfun, hclos]
  exact ih.callFunction h hd hs hp hn hvs

theorem call_succ (ih : Simulated fuel) {c : Callable} {vs : List Value} {line : Nat}
    (h : p.Twin) (hc : p.Accepts c vs.length) (hvs : ∀ v ∈ vs, p.Safe v) :
    p.Agrees changing (Lox.call (fuel + 1) c vs line) (Lexical.call (fuel + 1) c vs line)
      Same := by
  have hworld (v w : Value) (q : Pair) (u : World) (h : Same v w q) : Same v w (q.setWorld u) :=
    ⟨h.1, h.2.later (show q.Later 0 (q.setWorld u) from q.later_setWorld u)⟩
  cases c with
  | native n =>
    cases n
    exact .asCall h line (fun q hq _ => agrees_tick hq) hworld
  | function id =>
    refine .asCall h line (fun q hq hl => ?_) hworld
    obtain ⟨hcloses, htakes⟩ := hc.later hl
    exact ih.callId hq hcloses htakes (fun v hv => (hvs v hv).later hl) line
  | classObject id =>
    refine .asCall h line (fun q hq hl => ?_) hworld
    obtain ⟨c, hc, htakes⟩ := hc.later hl
    apply (agrees_addInstance hq id).bind
    intro i i' q' hq' hl' he
    subst he
    refine .inspect ?_
    have hobject : q'.machine.heap.initializer? id = c.methods.find? "init" := by
      simp [Heap.initializer?, Heap.classObject, ← hq'.classes, hl'.classes hc]
    have hsame : q'.store.objects.initializer? id = q'.machine.heap.initializer? id := by
      rw [hq'.objects]
      rfl
    rw [hsame, hobject]
    cases hinit : c.methods.find? "init" with
    | none => exact .pure hq' ⟨rfl, trivial⟩
    | some method =>
      refine (agrees_bindMethod hq' (hq'.methods (hl'.classes hc) hinit) i').bind ?_
      rintro _ bound r hr hlr ⟨rfl, hcloses, hbound⟩
      have hargs : ∀ v ∈ vs, r.Safe v := fun v hv => (((hvs v hv).later hl).later hl').later hlr
      have htakes : r.Takes bound vs.length := hbound _ ((htakes method hinit).later hl')
      have hcall : r.Agrees changing _ _ Same := ih.callId hr hcloses htakes hargs line
      exact hcall.bind fun _ _ t ht _ _ => .pure ht ⟨rfl, trivial⟩

theorem callFunction_succ (ih : Simulated fuel) {f : Function} {c : Closure} {vs : List Value}
    {line : Nat} (h : p.Twin) (hd : c.decl = f.decl) (hs : p.Sees c.env f.closure vis)
    (hp : functionPlaced ctx vis f.decl) (hn : f.arity = vs.length) (hvs : ∀ v ∈ vs, p.Safe v) :
    p.Agrees changing (Lox.callFunction (fuel + 1) f vs line)
      (Lexical.callFunction (fuel + 1) c vs) Same := by
  rcases f with ⟨⟨name, params, body, declLine, site⟩, closure⟩
  rcases c with ⟨_, outer⟩
  subst hd
  have hl : p.Later changing (p.addFrame closure) := p.later_addFrame closure
  have hstart : (p.addFrame closure).Inside outer.enter p.frames.size ([] :: vis) := hs.addFrame h
  refine agrees_addFrame closure ((agrees_defineAll (h.addFrame closure) hstart hn hp.1 (by simp)
    fun v hv => (hvs v hv).later hl).bind ?_)
  intro _ env q hq _ hin
  rw [List.append_nil] at hin
  have hbody := ih.executeAll hq.atFrame rfl hin.atFrame hp.2
  refine (hbody.inFrame fun _ _ _ _ hr => ⟨hr.1, hr.2.atFrame⟩).bind ?_
  rintro _ signal r hr _ ⟨rfl, hallows⟩
  cases signal with
  | normal => exact .pure hr ⟨rfl, trivial⟩
  | returned v => exact .pure hr ⟨rfl, hallows.2⟩
  | exit e => cases hallows

/-- What no statement does leaves the visible names as they are. -/
theorem agrees_keeps {α β : Type} {x : Action Machine α} {y : Action Store β}
    {post : α → β → Pair → Prop} (hi : p.Inside env f vis)
    (h : p.Agrees p.machine.globals x y post) :
    p.Agrees f x y fun a b p' => post a b p' ∧ p'.Inside env f vis :=
  h.weaken (fun _ hl => hl.weaken) fun _ _ _ hl hq => ⟨hq, hi.later hl⟩

/-- The names behind a statement that declares none are those in front of it. -/
theorem agrees_with_names {x : Action Machine Signal} {y : Action Store Signal}
    (h : p.Agrees f x y fun signal signal' p' =>
      signal' = signal ∧ p'.Allows ctx signal ∧ p'.Inside env f vis) :
    p.Agrees f x (do
      let signal ← y
      pure (signal, env)) fun signal r p' =>
        r.1 = signal ∧ p'.Allows ctx signal ∧ p'.Inside r.2 f vis := by
  unfold Agrees at h ⊢
  rw [Action.bind_apply]
  generalize x p.machine = r at h
  generalize y p.store = r' at h
  cases h with
  | done ht hl h => exact .done ht hl h
  | failed ht hd => exact .failed ht hd
  | outOfFuel => exact .outOfFuel

/-- A statement that runs in a scope of its own leaves the names in front of it. -/
theorem agrees_inScope (h : p.Twin) (hf : p.machine.current = f) (hi : p.Inside env f vis)
    {x : Action Machine Signal} {y : Action Store Signal}
    (hx : ∀ q : Pair, q.Twin → q.Inside env.enter q.machine.current ([] :: vis) →
      q.Agrees q.machine.current x y fun signal signal' p' =>
        signal' = signal ∧ p'.Allows ctx signal) :
    p.Agrees f (Machine.inNewFrame x) (do
      let signal ← y
      pure (signal, env)) fun signal r p' =>
        r.1 = signal ∧ p'.Allows ctx signal ∧ p'.Inside r.2 f vis := by
  have hframe : p.Agrees p.machine.globals (Machine.inNewFrame x) y fun signal signal' p' =>
      signal' = signal ∧ p'.Allows ctx signal :=
    agrees_inNewFrame h (hf ▸ hi.sees) hx fun _ _ _ _ hr => ⟨hr.1, hr.2.atFrame⟩
  exact agrees_with_names ((agrees_keeps hi hframe).imp fun _ _ _ _ hr => ⟨hr.1.1, hr.1.2, hr.2⟩)

/-- The name of a class is declared before its methods are made, so that they see it. -/
theorem execute_classDecl {name : String} {methods : List (FunDecl Stmt)} {line : Nat}
    (h : p.Twin) (hf : p.machine.current = f) (hi : p.Inside env f vis)
    (hp : (Stmt.classDecl name methods line).Placed ctx vis) :
    p.Agrees f (Lox.execute (fuel + 1) (.classDecl name methods line))
      (Lexical.execute (fuel + 1) env (.classDecl name methods line)) fun signal r p' =>
        r.1 = signal ∧ p'.Allows ctx signal ∧ p'.Inside r.2 f (vis.declare name) := by
  subst hf
  apply (agrees_define h hi hp.1 (v := .nil) trivial line).bind
  intro _ env' q hq hl hin
  rw [← hl.current] at hin ⊢
  refine .inspect_left ?_
  refine (agrees_keeps hin (agrees_addMethods hq hin.sees hp.2 areMethods_nil)).bind ?_
  rintro _ table q₁ hq₁ hl₁ ⟨⟨rfl, hm⟩, hin₁⟩
  refine (agrees_keeps hin₁ (agrees_addClass hq₁ hm)).bind ?_
  rintro _ id q₂ hq₂ hl₂ ⟨⟨rfl, hsafe⟩, hin₂⟩
  have hcurrent : q₂.machine.current = q.machine.current := hl₂.current.trans hl₁.current
  refine (agrees_keeps hin₂ (agrees_assignHere hq₂ (hcurrent ▸ hin₂.sees) hsafe)).bind ?_
  rintro _ _ q₃ hq₃ _ ⟨-, hin₃⟩
  exact .pure hq₃ ⟨rfl, trivial, hin₃⟩

/-- A branch or the body of a loop, which declares nothing. -/
theorem execute_inner (ih : Simulated fuel) {s : Stmt} (h : p.Twin) (hf : p.machine.current = f)
    (hi : p.Inside env f vis) (hd : s.isDeclaration = false) (hp : s.Placed ctx vis) :
    p.Agrees f (Lox.execute fuel s) (Lexical.execute fuel env s) fun signal r p' =>
      r.1 = signal ∧ p'.Allows ctx signal ∧ p'.Inside r.2 f vis := by
  have hall := ih.execute h hf hi hp
  rwa [Stmt.extend_of_not_declaration hd] at hall

/-- A variable of the loop lives in a scope around all rounds. -/
theorem execute_forLoop (ih : Simulated fuel) {init : ForInit} {condition increment : Option Expr}
    {body : Stmt} {line : Nat} (h : p.Twin) (hf : p.machine.current = f) (hi : p.Inside env f vis)
    (hp : (Stmt.forLoop init condition increment body line).Placed ctx vis) :
    p.Agrees f (Lox.execute (fuel + 1) (.forLoop init condition increment body line))
      (Lexical.execute (fuel + 1) env (.forLoop init condition increment body line))
      fun signal r p' => r.1 = signal ∧ p'.Allows ctx signal ∧ p'.Inside r.2 f vis := by
  rcases hp with ⟨⟨hinit, hc, hn⟩, hd, hb⟩
  cases init with
  | nothing => exact agrees_with_names (ih.loop h hf hi hc hn hd hb)
  | evaluate e =>
    refine (agrees_keeps hi (ih.evaluate h (hf ▸ hi.sees) hinit)).bind ?_
    rintro _ _ q hq hl ⟨-, hin⟩
    exact agrees_with_names (ih.loop hq (hl.current.trans hf) hin hc hn hd hb)
  | declare decl =>
    have hscope := agrees_inScope h hf hi fun q hq hin =>
      (ih.declareVar hq rfl hin hinit).bind fun _ inner r hr hl hin =>
        (ih.loop hr hl.current hin hc hn hd hb).imp fun _ _ _ _ hr => ⟨hr.1, hr.2.1⟩
    rw [Action.bind_assoc] at hscope
    exact hscope

theorem execute_succ (ih : Simulated fuel) {s : Stmt} (h : p.Twin) (hf : p.machine.current = f)
    (hi : p.Inside env f vis) (hp : s.Placed ctx vis) :
    p.Agrees f (Lox.execute (fuel + 1) s) (Lexical.execute (fuel + 1) env s) fun signal r p' =>
      r.1 = signal ∧ p'.Allows ctx signal ∧ p'.Inside r.2 f (s.extend vis) := by
  have hs : p.Sees env p.machine.current vis := hf ▸ hi.sees
  cases s with
  | expression e line =>
    refine (agrees_keeps hi (ih.evaluate h hs hp)).bind ?_
    rintro _ _ q hq _ ⟨-, hin⟩
    exact .pure hq ⟨rfl, trivial, hin⟩
  | print e line =>
    refine (agrees_keeps hi (ih.evaluate h hs hp)).bind ?_
    rintro _ v q hq _ ⟨⟨rfl, -⟩, hin⟩
    refine .inspect ?_
    rw [hq.objects, Value.text_withoutFrames]
    refine (agrees_keeps hin (agrees_print hq _)).bind ?_
    rintro _ _ q' hq' _ ⟨-, hin⟩
    exact .pure hq' ⟨rfl, trivial, hin⟩
  | var decl =>
    apply (ih.declareVar h hf hi hp).bind
    intro _ env' q hq _ hin
    exact .pure hq ⟨rfl, trivial, hin⟩
  | function decl =>
    subst hf
    exact (agrees_declareFunction h hi hp.1 hp.2).bind fun _ env' q hq _ hin =>
      .pure hq ⟨rfl, trivial, hin⟩
  | classDecl name methods line => exact execute_classDecl h hf hi hp
  | block statements line =>
    exact agrees_inScope h hf hi fun q hq hin => ih.executeAll hq rfl hin hp
  | ifThen condition thenBranch line =>
    rcases hp with ⟨hc, hd, ht⟩
    refine (agrees_keeps hi (ih.evaluate h hs hc)).bind ?_
    rintro _ v q hq hl ⟨⟨rfl, -⟩, hin⟩
    cases v.isTruthy with
    | true => exact ih.execute_inner hq (hl.current.trans hf) hin hd ht
    | false => exact .pure hq ⟨rfl, trivial, hin⟩
  | ifElse condition thenBranch elseBranch line =>
    rcases hp with ⟨hc, ⟨hd, ht⟩, hd', he⟩
    refine (agrees_keeps hi (ih.evaluate h hs hc)).bind ?_
    rintro _ v q hq hl ⟨⟨rfl, -⟩, hin⟩
    cases v.isTruthy with
    | true => exact ih.execute_inner hq (hl.current.trans hf) hin hd ht
    | false => exact ih.execute_inner hq (hl.current.trans hf) hin hd' he
  | whileLoop condition body line =>
    exact agrees_with_names (ih.loop h hf hi hp.1 trivial hp.2.1 hp.2.2)
  | forLoop init condition increment body line => exact ih.execute_forLoop h hf hi hp
  | loopExit e line => exact .pure h ⟨rfl, hp, hi⟩
  | returns value line =>
    cases value with
    | none => exact .pure h ⟨rfl, ⟨hp.1, trivial⟩, hi⟩
    | some e =>
      refine (agrees_keeps hi (ih.evaluate h hs hp.2)).bind ?_
      rintro _ v q hq _ ⟨⟨rfl, hv⟩, hin⟩
      exact .pure hq ⟨rfl, ⟨hp.1, hv⟩, hin⟩

theorem declareVar_succ (ih : Simulated fuel) {decl : VarDecl} (h : p.Twin)
    (hf : p.machine.current = f) (hi : p.Inside env f vis) (hp : decl.Placed vis) :
    p.Agrees f (Lox.declareVar (fuel + 1) decl) (Lexical.declareVar (fuel + 1) env decl)
      fun _ env' p' => p'.Inside env' f (vis.declare decl.name) := by
  subst hf
  rcases decl with ⟨name, value, line⟩
  cases value with
  | none => exact agrees_define h hi hp.1 (v := .nil) trivial line
  | some e =>
    refine (agrees_keeps hi (ih.evaluate h hi.sees hp.2)).bind ?_
    rintro _ v q hq hl ⟨⟨rfl, hv⟩, hin⟩
    rw [← hl.current] at hin ⊢
    exact agrees_define hq hin hp.1 hv line

theorem executeAll_succ (ih : Simulated fuel) {statements : List Stmt} (h : p.Twin)
    (hf : p.machine.current = f) (hi : p.Inside env f vis) (hp : statementsPlaced ctx vis statements) :
    p.Agrees f (Lox.executeAll (fuel + 1) statements) (Lexical.executeAll (fuel + 1) env statements)
      fun signal signal' p' => signal' = signal ∧ p'.Allows ctx signal := by
  cases statements with
  | nil => exact .pure h ⟨rfl, trivial⟩
  | cons s rest =>
    apply (ih.execute h hf hi hp.1).bind
    intro signal r q hq hl hr
    rcases r with ⟨signal', env'⟩
    rcases hr with ⟨he, hallows, hin⟩
    cases (he : signal' = signal)
    cases signal' with
    | normal => exact ih.executeAll hq (hl.current.trans hf) hin hp.2
    | exit e => exact .pure hq ⟨rfl, hallows⟩
    | returned v => exact .pure hq ⟨rfl, hallows⟩

theorem holds_succ (ih : Simulated fuel) {e? : Option Expr} (h : p.Twin)
    (hs : p.Sees env p.machine.current vis) (hp : optionalPlaced vis e?) :
    p.Agrees changing (Lox.holds (fuel + 1) e?) (Lexical.holds (fuel + 1) env e?)
      fun b b' _ => b' = b := by
  cases e? with
  | none => exact .pure h rfl
  | some e =>
    refine (ih.evaluate h hs hp).bind ?_
    rintro _ v q hq _ ⟨rfl, -⟩
    exact .pure hq rfl

theorem loop_succ (ih : Simulated fuel) {condition increment : Option Expr} {body : Stmt}
    (h : p.Twin) (hf : p.machine.current = f) (hi : p.Inside env f vis)
    (hc : optionalPlaced vis condition) (hn : optionalPlaced vis increment)
    (hd : body.isDeclaration = false) (hb : body.Placed ctx.enterLoop vis) :
    p.Agrees f (Lox.loop (fuel + 1) condition increment body)
      (Lexical.loop (fuel + 1) env condition increment body) fun signal signal' p' =>
        signal' = signal ∧ p'.Allows ctx signal ∧ p'.Inside env f vis := by
  refine (agrees_keeps hi (ih.holds h (hf ▸ hi.sees) hc)).bind ?_
  rintro _ b q hq hl ⟨rfl, hin⟩
  cases b with
  | false => exact .pure hq ⟨rfl, trivial, hin⟩
  | true =>
    have hsees : q.Sees env f vis := hin.sees
    apply (ih.execute_inner hq (hl.current.trans hf) hin hd hb).bind
    intro signal r t ht hl' hr
    rcases r with ⟨signal', env'⟩
    rcases hr with ⟨he, hallows, hin'⟩
    cases (he : signal' = signal)
    -- The names that the body leaves behind are not those of the next round.
    have hround : t.Inside env f vis := hin'.of_sees (hsees.later hl')
    have hcurrent : t.machine.current = f := (hl'.current.trans hl.current).trans hf
    have hnext : t.Agrees f (do
          let _ ← Lox.step fuel increment
          Lox.loop fuel condition increment body)
        (do
          let _ ← Lexical.step fuel env increment
          Lexical.loop fuel env condition increment body) fun signal signal' p' =>
          signal' = signal ∧ p'.Allows ctx signal ∧ p'.Inside env f vis := by
      refine (agrees_keeps hround (ih.step ht (hcurrent ▸ hround.sees) hn)).bind ?_
      rintro _ _ u hu hl'' ⟨-, hin''⟩
      exact ih.loop hu (hl''.current.trans hcurrent) hin'' hc hn hd hb
    cases signal' with
    | normal => exact hnext
    | exit e =>
      cases e with
      | toEnd => exact .pure ht ⟨rfl, trivial, hround⟩
      | toNext => exact hnext
    | returned v => exact .pure ht ⟨rfl, hallows, hround⟩

theorem step_succ (ih : Simulated fuel) {e? : Option Expr} (h : p.Twin)
    (hs : p.Sees env p.machine.current vis) (hp : optionalPlaced vis e?) :
    p.Agrees changing (Lox.step (fuel + 1) e?) (Lexical.step (fuel + 1) env e?)
      fun _ _ _ => True := by
  cases e? with
  | none => exact .pure h trivial
  | some e => exact (ih.evaluate h hs hp).bind fun _ _ _ hq _ _ => .pure hq trivial

end Simulated

theorem simulated (fuel : Nat) : Simulated fuel := by
  induction fuel with
  | zero => exact .zero
  | succ fuel ih =>
    exact {
      evaluate := ih.evaluate_succ
      evaluateAll := ih.evaluateAll_succ
      call := ih.call_succ
      callFunction := ih.callFunction_succ
      execute := ih.execute_succ
      declareVar := ih.declareVar_succ
      executeAll := ih.executeAll_succ
      holds := ih.holds_succ
      loop := ih.loop_succ
      step := ih.step_succ }

end Lox.Lexical
