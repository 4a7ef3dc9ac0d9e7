import Lox.Proofs.Finishing.LoopFree

/-! Machines that only loop-free code was given to, and actions that answer on them. -/
namespace Lox

/-- A function without loops and with a body of so many nodes at most. One more is allowed, so that
an empty body fits every bound. -/
def Function.Fits (bound : Nat) (f : Function) : Prop :=
  statementsLoopFree f.decl.body ∧ sizeOf f.decl.body ≤ bound + 1

theorem Function.fits_of_decl {bound : Nat} {decl : FunDecl Stmt} (h : functionLoopFree decl)
    (hb : sizeOf decl ≤ bound + 1) (closure : FrameId) : Function.Fits bound ⟨decl, closure⟩ := by
  rcases decl with ⟨name, params, body, line, site⟩
  refine ⟨h, ?_⟩
  simp only [FunDecl.mk.sizeOf_spec] at hb
  simp only
  omega

/-- All functions of the heap fit. -/
def Heap.Fits (bound : Nat) (h : Heap) : Prop := ∀ f ∈ h.functions, f.Fits bound

namespace Heap.Fits

variable {bound : Nat} {h : Heap}

theorem addFunction (hh : h.Fits bound) {f : Function} (hf : f.Fits bound) :
    (h.addFunction f).2.Fits bound := by
  intro g hg
  rcases Array.mem_push.1 hg with hg | rfl
  · exact hh g hg
  · exact hf

theorem addMethods (hh : h.Fits bound) {frame : FrameId} {methods : List (FunDecl Stmt)}
    (hm : ∀ d ∈ methods, Function.Fits bound ⟨d, frame⟩) (table : Bindings FunctionId) :
    (h.addMethods frame methods table).2.Fits bound := by
  induction methods generalizing h table with
  | nil => exact hh
  | cons d rest ih =>
    exact ih (hh.addFunction (hm d List.mem_cons_self)) (fun d' hd => hm d' (.tail _ hd)) _

end Heap.Fits

/-- All functions fit, and so many more calls may nest. -/
structure Machine.Ready (bound limit left : Nat) (m : Machine) : Prop where
  limited : m.limit = some limit
  counted : m.calls + left = limit
  functions : m.heap.Fits bound

namespace Machine.Ready

variable {bound limit left : Nat} {m : Machine}

/-- Places that were never given out hold a function that fits as well. -/
theorem function (h : m.Ready bound limit left) (id : FunctionId) :
    (m.heap.function id).Fits bound := by
  unfold Heap.function
  cases hf : m.heap.functions[id]? with
  | none => exact ⟨trivial, by simp⟩
  | some f => exact h.functions f (Array.mem_of_getElem? hf)

theorem mono (h : m.Ready bound limit left) {bound' : Nat} (hb : bound ≤ bound') :
    m.Ready bound' limit left where
  limited := h.limited
  counted := h.counted
  functions f hf := ⟨(h.functions f hf).1, (h.functions f hf).2.trans (by omega)⟩

end Machine.Ready

/-! Actions. -/

variable {α β : Type}

/-- An answer that leaves a good machine. There is one if the fuel is enough. -/
inductive Answer.Leaves (good : Machine → Prop) (enough : Prop) : Answer Machine α → Prop where
  | done {a : α} {m : Machine} : good m → Leaves good enough (.done a m)
  | failed {d : Diagnostic} {m : Machine} : good m → Leaves good enough (.failed d m)
  | outOfFuel : ¬enough → Leaves good enough .outOfFuel

/-- The action keeps good machines good, and it answers on them if the fuel is enough. -/
def Action.Keeps (good : Machine → Prop) (enough : Prop) (x : Action Machine α) : Prop :=
  ∀ m, good m → (x m).Leaves good enough

namespace Action.Keeps

variable {good : Machine → Prop} {enough : Prop}

theorem pure (a : α) : (Pure.pure a : Action Machine α).Keeps good enough := fun _ h => .done h

theorem fuelSpent (h : ¬enough) : (Action.fuelSpent : Action Machine α).Keeps good enough :=
  fun _ _ => .outOfFuel h

theorem fail (line : Nat) (f : Fault) : (Action.fail line f : Action Machine α).Keeps good enough :=
  fun _ h => .failed h

theorem failRuntime (line : Nat) (f : RuntimeFault) :
    (Action.failRuntime line f : Action Machine α).Keeps good enough := .fail line _

theorem lift (line : Nat) (r : Except RuntimeFault α) :
    (Action.lift line r : Action Machine α).Keeps good enough := by
  cases r with
  | ok a => exact .pure a
  | error f => exact .failRuntime line f

theorem finish (op : BinaryOp) (v w : Value) (line : Nat) :
    (op.finish v w line : Action Machine Value).Keeps good enough := by
  cases op with
  | strict op => exact .lift line _
  | _ => exact .pure w

theorem bind {x : Action Machine α} {f : α → Action Machine β} (hx : x.Keeps good enough)
    (hf : ∀ a, (f a).Keeps good enough) : (x >>= f).Keeps good enough := by
  intro m hm
  have hx := hx m hm
  rw [bind_apply]
  generalize x m = r at hx
  cases hx with
  | done h => exact hf _ _ h
  | failed h => exact .failed h
  | outOfFuel h => exact .outOfFuel h

/-- What is seen of a good machine may be used in what follows. -/
theorem inspect {u : Machine → α} {f : α → Action Machine β} {seen : α → Prop}
    (hu : ∀ m, good m → seen (u m)) (hf : ∀ a, seen a → (f a).Keeps good enough) :
    (Action.inspect u >>= f).Keeps good enough :=
  fun m hm => hf (u m) (hu m hm) m hm

theorem look {u : Machine → α} {f : α → Action Machine β} (hf : ∀ a, (f a).Keeps good enough) :
    (Action.inspect u >>= f).Keeps good enough := fun m hm => hf (u m) m hm

/-- Less is asked for where the fuel is known to be more. -/
theorem of_enough {enough' : Prop} {x : Action Machine α} (h : x.Keeps good enough)
    (he : enough' → enough) : x.Keeps good enough' := by
  intro m hm
  have h := h m hm
  generalize x m = r at h
  cases h with
  | done h => exact .done h
  | failed h => exact .failed h
  | outOfFuel h => exact .outOfFuel fun h' => h (he h')

theorem ite {p : Prop} [Decidable p] {x y : Action Machine α} (hx : x.Keeps good enough)
    (hy : y.Keeps good enough) : (if p then x else y).Keeps good enough := by
  split
  · exact hx
  · exact hy

end Action.Keeps

/-! The actions of a machine. -/

namespace Machine

open Lox.Action (Keeps)

variable {bound limit left : Nat} {enough : Prop}

theorem allocate_keeps {f : Heap → α × Heap} (hf : ∀ h : Heap, h.Fits bound → (f h).2.Fits bound) :
    (allocate f).Keeps (Ready bound limit left) enough :=
  fun m h => .done ⟨h.limited, h.counted, hf m.heap h.functions⟩

theorem bindMethod_keeps (method : FunctionId) (receiver : InstanceId) :
    (allocate (·.bindMethod method receiver)).Keeps (Ready bound limit left) enough :=
  fun m h => .done ⟨h.limited, h.counted,
    Heap.Fits.addFunction (h := ((m.heap.addFrame _).2.bind _ _ _)) h.functions (h.function method)⟩

theorem setField_keeps (id : InstanceId) (name : String) (v : Value) :
    (setField id name v).Keeps (Ready bound limit left) enough :=
  fun _ h => .done ⟨h.limited, h.counted, h.functions⟩

theorem read_keeps (o : Occurrence) (line : Nat) :
    (read o line).Keeps (Ready bound limit left) enough := by
  intro m h
  unfold read
  split
  · exact .done h
  · exact .failed h

theorem write_keeps (o : Occurrence) (v : Value) (line : Nat) :
    (write o v line).Keeps (Ready bound limit left) enough := by
  intro m h
  unfold write
  split
  · exact .done ⟨h.limited, h.counted, h.functions⟩
  · exact .failed h

theorem property_keeps (id : InstanceId) (name : String) (line : Nat) :
    (property id name line).Keeps (Ready bound limit left) enough := by
  unfold property
  refine .look fun found => ?_
  cases found with
  | none => exact .failRuntime _ _
  | some found =>
    cases found with
    | field v => exact .pure v
    | method method => exact .bind (bindMethod_keeps method id) fun _ => .pure _

theorem define_keeps (name : String) (v : Value) (line : Nat) :
    (define name v line).Keeps (Ready bound limit left) enough := by
  intro m h
  unfold define
  split
  · exact .done ⟨h.limited, h.counted, h.functions⟩
  · exact .failed h

theorem assignHere_keeps (name : String) (v : Value) :
    (assignHere name v).Keeps (Ready bound limit left) enough := by
  intro m h
  unfold assignHere
  split
  · exact .done ⟨h.limited, h.counted, h.functions⟩
  · exact .done h

theorem defineAll_keeps (frame : FrameId) (entries : List (String × Value)) :
    (defineAll frame entries).Keeps (Ready bound limit left) enough := by
  induction entries with
  | nil => exact .pure ()
  | cons entry rest ih =>
    intro m h
    refine ih _ ?_
    split
    · exact ⟨h.limited, h.counted, h.functions⟩
    · exact h

theorem print_keeps (text : String) : (print text).Keeps (Ready bound limit left) enough := by
  intro m h
  simp only [print]
  split
  · exact .done ⟨h.limited, h.counted, h.functions⟩
  · exact .failed ⟨h.limited, h.counted, h.functions⟩

theorem tick_keeps : tick.Keeps (Ready bound limit left) enough :=
  fun _ h => .done ⟨h.limited, h.counted, h.functions⟩

theorem inFrame_keeps (frame : FrameId) {x : Action Machine α}
    (hx : x.Keeps (Ready bound limit left) enough) :
    (inFrame frame x).Keeps (Ready bound limit left) enough := by
  intro m h
  have hx := hx { m with current := frame } ⟨h.limited, h.counted, h.functions⟩
  unfold inFrame
  generalize x { m with current := frame } = r at hx
  cases hx with
  | done h => exact .done ⟨h.limited, h.counted, h.functions⟩
  | failed h => exact .failed ⟨h.limited, h.counted, h.functions⟩
  | outOfFuel h => exact .outOfFuel h

theorem inNewFrame_keeps {x : Action Machine α} (hx : x.Keeps (Ready bound limit left) enough) :
    (inNewFrame x).Keeps (Ready bound limit left) enough :=
  .look fun _ => .bind (allocate_keeps fun _ => id) fun frame => inFrame_keeps frame hx

/-- Inside a call there is room for one call less. Without room nothing runs. -/
theorem asCall_keeps (line : Nat) {x : Action Machine α}
    (hx : ∀ rest, left = rest + 1 → x.Keeps (Ready bound limit rest) enough) :
    (asCall line x).Keeps (Ready bound limit left) enough := by
  intro m h
  have hat : m.atLimit = decide (left = 0) := by
    have hcounted := h.counted
    simp only [World.atLimit, h.limited, decide_eq_decide]
    omega
  unfold asCall
  rw [hat]
  cases left with
  | zero => exact .failed h
  | succ rest =>
    have hcounted := h.counted
    have hx := hx rest rfl { m with toWorld := m.enterCall }
      ⟨h.limited, by simp only [World.enterCall]; omega, h.functions⟩
    simp only [Nat.add_eq_zero_iff, one_ne_zero, and_false, decide_false, Bool.false_eq_true,
      if_false]
    generalize x { m with toWorld := m.enterCall } = r at hx
    have hleave {m' : Machine} (h' : m'.Ready bound limit rest) :
        Ready bound limit (rest + 1) { m' with toWorld := m'.leaveCall } :=
      ⟨h'.limited, by have := h'.counted; simp only [World.leaveCall]; omega, h'.functions⟩
    cases hx with
    | done h' => exact .done (hleave h')
    | failed h' => exact .failed (hleave h')
    | outOfFuel h' => exact .outOfFuel h'

end Machine
end Lox
