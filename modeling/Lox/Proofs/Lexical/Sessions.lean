import Mathlib
import Lox.Proofs.Compile
import Lox.Proofs.Lexical.Simulation

/-! Sessions on a machine: they are as lexical scoping has them, and no fault of the interpreter's
own comes up in them. -/
namespace Lox

open Grammar (Context)

/-- A failure that is to blame on the source or on what is around the program. -/
def Failure.IsExpected (f : Failure) : Prop :=
  ∀ d ∈ f.diagnostics, d.fault.isInternal = false ∧ (f.stage = .runtime → d.fault.IsDynamic)

theorem Fault.IsDynamic.not_internal {f : Fault} (h : f.IsDynamic) : f.isInternal = false := by
  cases f with
  | internal => cases h
  | _ => rfl

theorem Fault.IsStatic.not_internal {f : Fault} (h : f.IsStatic) : f.isInternal = false := by
  cases f with
  | internal => cases h
  | _ => rfl

namespace Lexical

namespace Pair

/-- Twins between two programs: the machine stands at top level. -/
structure Rests (p : Pair) : Prop where
  twin : p.Twin
  top : p.machine.current = p.machine.globals

/-- A result on both sides that leaves twins, or none on either. -/
inductive Ends {α : Type} (good : α → Prop) : Option (α × Machine) → Option (α × Store) → Prop where
  | outOfFuel : Ends good none none
  | done {p : Pair} {a : α} : p.Rests → good a →
    Ends good (some (a, p.machine)) (some (a, p.store))

variable {p : Pair}

theorem Twin.inside (h : p.Twin) : p.Inside .top p.machine.globals [] where
  sees := {
    lt := Frames.get?_eq_some_lt h.globals
    root := by simp only [Frames.rootOf, h.globals]
    top := fun _ => ⟨rfl, rfl⟩
    inner := fun hne => absurd rfl hne
    found := fun hd => by cases hd
    absent := fun _ => rfl }
  lacks hv := by cases hv

/-- Statements at top level end normally or fail. -/
theorem agrees_executeProgram (fuel : Nat) {program : List Stmt} (h : p.Rests)
    (hp : statementsPlaced .top [] program) :
    p.Agrees p.machine.globals (Machine.executeProgram fuel program)
      (executeProgram fuel program) fun _ _ p' => p'.machine.current = p'.machine.globals := by
  induction program generalizing p with
  | nil => exact .pure h.twin h.top
  | cons s rest ih =>
    refine ((simulated fuel).execute h.twin h.top h.twin.inside hp.1).bind
      fun signal r q hq hl hr => ?_
    have hrest : q.Rests := ⟨hq, (hl.current.trans h.top).trans hl.globals.symm⟩
    cases signal with
    | normal =>
      rw [← hl.globals]
      exact ih hrest (s.extend_nil ▸ hp.2)
    | exit e => cases hr.2.1
    | returned v => cases hr.2.1.1

theorem interpret_ends (fuel : Nat) {program : List Stmt} (h : p.Rests)
    (hp : statementsPlaced .top [] program) :
    Ends (fun d? => ∀ d ∈ d?, d.fault.IsDynamic) (Machine.interpret fuel program p.machine)
      (Store.interpret fuel program p.store) := by
  have hrun := agrees_executeProgram fuel h hp
  unfold Agrees at hrun
  unfold Machine.interpret Store.interpret
  generalize Machine.executeProgram fuel program p.machine = r at hrun
  generalize executeProgram fuel program p.store = r' at hrun
  cases hrun with
  | done ht _ htop => exact .done ⟨ht, htop⟩ (by simp)
  | @failed q d ht hd =>
    have hrests : ((q.setWorld q.machine.fail).atFrame q.machine.globals).Rests :=
      ⟨(ht.setWorld _).atFrame, rfl⟩
    simp only [ht.world]
    exact .done hrests fun d' hd' => Option.mem_some.1 hd' ▸ hd
  | outOfFuel => exact .outOfFuel

theorem Ends.map {α β : Type} {good : α → Prop} {good' : β → Prop} {r : Option (α × Machine)}
    {r' : Option (α × Store)} (h : Ends good r r') (f : α → World → β)
    (hf : ∀ a w, good a → good' (f a w)) :
    Ends good' (r.map fun x => (f x.1 x.2.toWorld, x.2))
      (r'.map fun x => (f x.1 x.2.toWorld, x.2)) := by
  cases h with
  | outOfFuel => exact .outOfFuel
  | @done p a h ha =>
    simp only [Option.map_some, h.twin.world]
    exact .done h (hf a _ ha)

theorem Ends.bind {α β : Type} {good : α → Prop} {good' : β → Prop} {r : Option (α × Machine)}
    {r' : Option (α × Store)} (h : Ends good r r') {f : α × Machine → Option (β × Machine)}
    {g : α × Store → Option (β × Store)}
    (hf : ∀ a (p : Pair), p.Rests → good a → Ends good' (f (a, p.machine)) (g (a, p.store))) :
    Ends good' (r >>= f) (r' >>= g) := by
  cases h with
  | outOfFuel => exact .outOfFuel
  | done h ha => exact hf _ _ h ha

theorem Ends.entries {α : Type} {good : α → Prop} {r : Option (α × Machine)}
    {r' : Option (α × Store)} (h : Ends good r r') : r.map Prod.fst = r'.map Prod.fst := by
  cases h <;> rfl

theorem Ends.good {α : Type} {good : α → Prop} {a : α} {m : Machine} {r : Option (α × Machine)}
    {r' : Option (α × Store)} (h : Ends good r r') (hr : r = some (a, m)) : good a := by
  cases h with
  | outOfFuel => cases hr
  | done _ ha =>
    cases hr
    exact ha

theorem run_ends (fuel : Nat) (source : String) (h : p.Rests) :
    Ends (fun f? => ∀ f ∈ f?, f.IsExpected) (Machine.run fuel source p.machine)
      (Store.run fuel source p.store) := by
  unfold Machine.run Store.run
  cases hc : compile source with
  | error f =>
    obtain ⟨hstage, hstatic⟩ := compile_static hc
    refine .done h ?_
    intro f' hf'
    cases Option.mem_some.1 hf'
    exact fun d hd => ⟨(hstatic d hd).not_internal, fun hr => absurd hr hstage⟩
  | ok program =>
    refine (interpret_ends fuel h (compile_placed hc)).map
      (fun d? _ => d?.map fun d => Failure.mk .runtime [d]) fun d? _ hd f hf => ?_
    obtain ⟨d, hmem, rfl⟩ := Option.map_eq_some_iff.1 hf
    intro d' hd'
    cases List.mem_singleton.1 hd'
    exact ⟨(hd d hmem).not_internal, fun _ => hd d hmem⟩

theorem enterSource_ends (fuel : Nat) (source : String) (h : p.Rests) :
    Ends (fun e => ∀ f ∈ e.failure, f.IsExpected) (Machine.enterSource fuel source p.machine)
      (Store.enterSource fuel source p.store) := by
  unfold Machine.enterSource Store.enterSource
  rw [h.twin.world]
  exact (run_ends fuel source h).map
    (fun f? w => Entry.mk (w.printedFrom p.machine.sink.written.size) f? w.hadError)
    fun _ _ hf => hf

theorem session_ends (fuel : Nat) (sources : List String) (h : p.Rests) :
    Ends (fun es => ∀ e ∈ es, ∀ f ∈ e.failure, f.IsExpected)
      (Machine.session fuel sources p.machine) (Store.session fuel sources p.store) := by
  induction sources generalizing p with
  | nil => exact .done h (by simp)
  | cons source rest ih =>
    apply (enterSource_ends fuel source h).bind
    intro e q hq he
    apply (ih hq).bind
    intro es q' hq' hes
    exact .done hq' (List.forall_mem_cons.2 ⟨he, hes⟩)

/-- The two sides at the beginning. -/
def start (limit : Option Nat) (sink : Sink) (clock : Nat → Float) : Pair :=
  ⟨Machine.start limit sink clock, Store.start limit sink clock, #[]⟩

theorem start_rests (limit : Option Nat) (sink : Sink) (clock : Nat → Float) :
    (start limit sink clock).Rests where
  twin := {
    world := rfl
    objects := by
      simp [start, Store.start, Machine.start, Store.objects, Heap.withoutFrames, Heap.empty]
    globals := rfl
    size := rfl
    cells := fun hc => by cases hc
    apart := fun hc _ => by cases hc
    safeCells := fun hc => by cases hc
    safeGlobals := fun {name v} hv => by
      obtain ⟨before, behind, hl, -⟩ := List.lookup_eq_some_iff.1 hv
      have hm : (name, v) ∈ (start limit sink clock).store.globals := by
        rw [hl]
        simp
      obtain ⟨n, -, he⟩ := List.mem_map.1 hm
      cases he
      trivial
    safeFields := fun hi _ => by cases hi
    methods := fun hc _ => by cases hc }
  top := rfl

end Pair

/-- Sessions are as lexical scoping has them: with the same sources, the same call limit, the same
place to print to and the same clock, both evaluations print the same, fail alike, and end at the
same amounts of fuel. -/
theorem session_entries (fuel : Nat) (sources : List String) (limit : Option Nat) (sink : Sink)
    (clock : Nat → Float) :
    (Machine.session fuel sources (Machine.start limit sink clock)).map Prod.fst =
      (Store.session fuel sources (Store.start limit sink clock)).map Prod.fst :=
  (Pair.session_ends fuel sources (Pair.start_rests limit sink clock)).entries

/-- No session shows an internal fault. What fails when a program runs is a fault of that run: no
local name is declared twice, and `this` is always there. -/
theorem session_failures {fuel : Nat} {sources : List String} {limit : Option Nat} {sink : Sink}
    {clock : Nat → Float} {entries : List Entry} {last : Machine}
    (h : Machine.session fuel sources (Machine.start limit sink clock) = some (entries, last)) :
    ∀ e ∈ entries, ∀ f ∈ e.failure, ∀ d ∈ f.diagnostics,
      d.fault.isInternal = false ∧ (f.stage = .runtime → d.fault.IsDynamic) :=
  (Pair.session_ends fuel sources (Pair.start_rests limit sink clock)).good h

/-- A run that fails leaves a closure behind, and a later source calls it. -/
def closureSources : List String :=
  ["fun make() \x7b var a = nil; fun get() \x7b return a; \x7d return get; \x7d " ++
    "var g = make(); nothing;", "print g();"]

theorem session_failures_closure :
    ∃ entries last, Machine.session 16 closureSources
        (Machine.start none .unlimited fun _ => 0) = some (entries, last) ∧
      entries.map (·.failure.isSome) = [true, false] ∧
        ∀ e ∈ entries, ∀ f ∈ e.failure, ∀ d ∈ f.diagnostics,
          d.fault.isInternal = false ∧ (f.stage = .runtime → d.fault.IsDynamic) := by
  have hrun : (Machine.session 16 closureSources (Machine.start none .unlimited fun _ => 0)).map
      (fun r => r.1.map (·.failure.isSome)) = some [true, false] := by cbv
  obtain ⟨⟨entries, last⟩, h, hfailures⟩ := Option.map_eq_some_iff.1 hrun
  exact ⟨entries, last, h, hfailures, session_failures h⟩

end Lexical
end Lox
