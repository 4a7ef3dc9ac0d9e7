import Lox.Proofs.Lexical.Related
import Lox.Proofs.Loops.Alike

/-! Actions that come to the same on stores that differ in the code of functions: each finished
answer of the one is, from some amount of fuel on, an answer of the other. -/
namespace Lox.Lexical
open Lox.Action

variable {α β : Type}

/-- The same function with code that does the same. -/
structure Closure.Alike (c c' : Closure) : Prop where
  decl : FunctionAlike c.decl c'.decl
  env : c'.env = c.env

namespace Store

/-- The same store with code that does the same. -/
inductive Alike (s : Store) : Store → Prop
  | mk {functions : Array Closure} : functions.size = s.functions.size →
    (∀ id, (s.function id).Alike ((s.withFunctions functions).function id)) →
      s.Alike (s.withFunctions functions)

theorem Alike.refl (s : Store) : s.Alike s := .mk rfl fun _ => ⟨.refl _, rfl⟩

variable {s s' : Store}

theorem alike_iff_related : s.Alike s' ↔ s.Related Closure.Alike s' := by
  constructor
  · rintro ⟨hsize, hf⟩
    exact .mk hsize hf
  · rintro ⟨hsize, hf⟩
    exact .mk hsize hf

theorem Alike.setWorld (h : s.Alike s') (f : World → World) :
    Alike { s with toWorld := f s.toWorld } { s' with toWorld := f s'.toWorld } :=
  alike_iff_related.2 ((alike_iff_related.1 h).setWorld f)

theorem Alike.toWorld_eq (h : s.Alike s') : s'.toWorld = s.toWorld :=
  (alike_iff_related.1 h).toWorld_eq

end Store

inductive Answer.Alike : Answer Store α → Answer Store α → Prop
  | done {a : α} {s s' : Store} : s.Alike s' → Alike (.done a s) (.done a s')
  | failed {d : Diagnostic} {s s' : Store} : s.Alike s' → Alike (.failed d s) (.failed d s')

/-- On stores that are alike, each finished answer of `x` is that of `y` from some amount of fuel
on. -/
def Follows (x : Action Store α) (y : Nat → Action Store α) : Prop :=
  ∀ ⦃s s' : Store⦄, s.Alike s' → x s = .outOfFuel ∨
    ∃ r', Answer.Alike (x s) r' ∧ ∃ least, ∀ fuel, least ≤ fuel → y fuel s' = r'

/-- The action can have the result. -/
def Gives (x : Action Store α) (a : α) : Prop := ∃ s t, x s = .done a t

theorem Gives.of_pure {a b : α} (h : Gives (pure a) b) : b = a := by
  rcases h with ⟨s, t, h⟩
  cases h
  rfl

theorem Gives.of_bind {x : Action Store α} {f : α → Action Store β} {b : β}
    (h : Gives (x >>= f) b) : ∃ a, Gives x a ∧ Gives (f a) b := by
  rcases h with ⟨s, t, h⟩
  rw [bind_apply] at h
  cases hx : x s with
  | done a u =>
    rw [hx] at h
    exact ⟨a, ⟨s, u, hx⟩, u, t, h⟩
  | failed d u =>
    rw [hx] at h
    cases h
  | outOfFuel =>
    rw [hx] at h
    cases h

namespace Follows

variable {x : Action Store α} {y : Nat → Action Store α}

theorem of_spent (h : ∀ s, x s = .outOfFuel) : Follows x y := fun s _ _ => .inl (h s)

theorem fuelSpent : Follows (fuelSpent : Action Store α) y := .of_spent fun _ => rfl

/-- The answers of actions that need no fuel. -/
theorem of_alike {x y : Action Store α} (h : ∀ ⦃s s' : Store⦄, s.Alike s' →
    Answer.Alike (x s) (y s')) : Follows x fun _ => y :=
  fun _ _ hs => .inr ⟨_, h hs, 0, fun _ _ => rfl⟩

theorem pure (a : α) : Follows (Pure.pure a) fun _ => Pure.pure a :=
  of_alike fun _ _ hs => .done hs

theorem bind {f : α → Action Store β} {g : Nat → α → Action Store β} (hx : Follows x y)
    (hf : ∀ a, Gives x a → Follows (f a) fun fuel => g fuel a) :
    Follows (x >>= f) fun fuel => y fuel >>= g fuel := by
  intro s s' hs
  simp only [bind_apply]
  rcases hx hs with hout | ⟨r', hr, least, hy⟩
  · exact .inl (by rw [hout])
  · generalize hxs : x s = r at hr
    cases hr with
    | @done a t t' ht =>
      rcases hf a ⟨s, t, hxs⟩ ht with hout | ⟨r'', hr', least', hg⟩
      · exact .inl hout
      · refine .inr ⟨r'', hr', max least least', fun fuel hfuel => ?_⟩
        rw [hy fuel (by omega)]
        exact hg fuel (by omega)
    | failed ht =>
      refine .inr ⟨_, .failed ht, least, fun fuel hfuel => ?_⟩
      rw [hy fuel hfuel]

/-- The other side may spend `k` of its fuel first. -/
theorem of_add (k : Nat) (h : Follows x fun fuel => y (fuel + k)) : Follows x y := by
  intro s s' hs
  rcases h hs with hout | ⟨r', hr, least, hy⟩
  · exact .inl hout
  · refine .inr ⟨r', hr, least + k, fun fuel hfuel => ?_⟩
    obtain ⟨n, rfl⟩ : ∃ n, fuel = n + k := ⟨fuel - k, by omega⟩
    exact hy n (by omega)

theorem later (h : Follows x y) (k : Nat) : Follows x fun fuel => y (fuel + k) := by
  intro s s' hs
  rcases h hs with hout | ⟨r', hr, least, hy⟩
  · exact .inl hout
  · exact .inr ⟨r', hr, least, fun fuel hfuel => hy (fuel + k) (by omega)⟩

/-- A result of `x` is one of `y`. -/
theorem gives (h : Follows x y) {a : α} (ha : Gives x a) : ∃ fuel, Gives (y fuel) a := by
  rcases ha with ⟨s, t, ha⟩
  rcases h (.refl s) with hout | ⟨r', hr, least, hy⟩
  · rw [ha] at hout
    cases hout
  · rw [ha] at hr
    cases hr with
    | @done _ _ t' _ => exact ⟨least, s, t', hy least (Nat.le_refl _)⟩

theorem asCall {line : Nat} (h : Follows x y) :
    Follows (asCall line x) fun fuel => asCall line (y fuel) := by
  intro s s' hs
  have hl : s'.atLimit = s.atLimit := congrArg World.atLimit hs.toWorld_eq
  simp only [Lexical.asCall, hl]
  by_cases hlimit : s.atLimit
  · exact .inr ⟨_, by simpa [hlimit] using .failed hs, 0, fun fuel _ => by simp [hlimit]⟩
  · simp only [hlimit, Bool.false_eq_true, if_false]
    rcases h (hs.setWorld World.enterCall) with hout | ⟨r', hr, least, hy⟩
    · exact .inl (by rw [hout])
    · generalize x { s with toWorld := s.enterCall } = r at hr
      cases hr with
      | done ht =>
        refine .inr ⟨_, .done (ht.setWorld World.leaveCall), least, fun fuel hfuel => ?_⟩
        rw [hy fuel hfuel]
      | failed ht =>
        refine .inr ⟨_, .failed (ht.setWorld World.leaveCall), least, fun fuel hfuel => ?_⟩
        rw [hy fuel hfuel]

end Follows

/-! Actions that need no fuel. -/

theorem IgnoresFunctions.follows {x : Action Store α} (h : IgnoresFunctions x) :
    Follows x fun _ => x := by
  intro s s' hs
  have hr := h.related (Store.alike_iff_related.1 hs)
  generalize x s = r, hx : x s' = r' at hr
  cases hr with
  | done _ ht => exact .inr ⟨_, .done (Store.alike_iff_related.2 ht), 0, fun _ _ => hx⟩
  | failed ht => exact .inr ⟨_, .failed (Store.alike_iff_related.2 ht), 0, fun _ _ => hx⟩
  | outOfFuel => exact .inl rfl

theorem follows_declareAll (env : Env) (entries : List (String × Value)) :
    Follows (declareAll env entries) fun _ => declareAll env entries := by
  induction entries generalizing env with
  | nil => exact .pure env
  | cons entry rest ih =>
    exact (ignoresFunctions_declare env entry.1 entry.2).follows.bind fun env' _ => ih env'

/-! What is seen of functions. -/

namespace Store.Alike

variable {s s' : Store}

theorem function (h : s.Alike s') (id : FunctionId) : (s.function id).Alike (s'.function id) :=
  (alike_iff_related.1 h).function id

theorem text_eq (h : s.Alike s') (v : Value) : v.text s'.objects = v.text s.objects :=
  (alike_iff_related.1 h).text_eq (fun hc => hc.decl.name_eq) v

theorem arity_eq (h : s.Alike s') (c : Callable) : c.arity s'.objects = c.arity s.objects :=
  (alike_iff_related.1 h).arity_eq (fun hc => congrArg List.length hc.decl.params_eq) c

theorem addFunction (h : s.Alike s') {c c' : Closure} (hc : c.Alike c') :
    (s'.addFunction c').1 = (s.addFunction c).1 ∧
      (s.addFunction c).2.Alike (s'.addFunction c').2 :=
  ((alike_iff_related.1 h).addFunction hc).imp_right alike_iff_related.2

theorem addCell (h : s.Alike s') (v : Value) :
    (s'.addCell v).1 = (s.addCell v).1 ∧ (s.addCell v).2.Alike (s'.addCell v).2 :=
  ((alike_iff_related.1 h).addCell v).imp_right alike_iff_related.2

theorem bindMethod (h : s.Alike s') (method : FunctionId) (receiver : InstanceId) :
    (s'.bindMethod method receiver).1 = (s.bindMethod method receiver).1 ∧
      (s.bindMethod method receiver).2.Alike (s'.bindMethod method receiver).2 := by
  obtain ⟨hcell, hadded⟩ := h.addCell (.object receiver)
  have hmethod := h.function method
  exact hadded.addFunction ⟨hmethod.decl, by rw [hmethod.env, hcell]⟩

theorem addMethods (h : s.Alike s') {methods methods' : List (FunDecl Stmt)}
    (hm : MethodsAlike methods methods') (env : Env) (table : Bindings FunctionId) :
    (s'.addMethods env methods' table).1 = (s.addMethods env methods table).1 ∧
      (s.addMethods env methods table).2.Alike (s'.addMethods env methods' table).2 := by
  induction methods generalizing s s' methods' table with
  | nil =>
    cases hm
    exact ⟨rfl, h⟩
  | cons d rest ih =>
    cases hm with
    | @cons _ d' _ rest' hd hrest =>
      have hc : Closure.Alike ⟨d, env⟩ ⟨d', env⟩ := ⟨hd, rfl⟩
      obtain ⟨hid, hadded⟩ := h.addFunction hc
      simp only [Store.addMethods, hid, hd.name_eq]
      exact ih hadded hrest _

end Store.Alike

theorem follows_inspect {u : Store → α} (hu : ∀ ⦃s s' : Store⦄, s.Alike s' → u s' = u s) :
    Follows (inspect u) fun _ => inspect u := by
  apply Follows.of_alike
  intro s s' hs
  rw [inspect, inspect, hu hs]
  exact .done hs

theorem follows_allocate {f g : Store → α × Store}
    (h : ∀ ⦃s s' : Store⦄, s.Alike s' → (g s').1 = (f s).1 ∧ (f s).2.Alike (g s').2) :
    Follows (allocate f) fun _ => allocate g := by
  apply Follows.of_alike
  intro s s' hs
  obtain ⟨ha, hs'⟩ := h hs
  rw [allocate, allocate, ha]
  exact .done hs'

/-- A look at a function finds code that does the same. -/
theorem Follows.function {id : FunctionId} {f : Closure → Action Store α}
    {g : Nat → Closure → Action Store α}
    (h : ∀ c c', Closure.Alike c c' → Follows (f c) fun fuel => g fuel c') :
    Follows (inspect (·.function id) >>= f) fun fuel => inspect (·.function id) >>= g fuel :=
  fun _ _ hs => h _ _ (hs.function id) hs

theorem follows_declareFunction (env : Env) {d d' : FunDecl Stmt} (hd : FunctionAlike d d') :
    Follows (declareFunction env d) fun _ => declareFunction env d' := by
  intro s s' hs
  have hcells : s'.cells = s.cells := by
    cases hs
    rfl
  have hc : Closure.Alike ⟨d, env.extend d.name s.cells.size⟩
      ⟨d', env.extend d.name s'.cells.size⟩ := ⟨hd, by rw [hcells]⟩
  obtain ⟨hid, hadded⟩ := hs.addFunction hc
  simp only [declareFunction, hd.name_eq]
  rw [hid]
  exact (ignoresFunctions_declare env d.name _).follows hadded

theorem follows_property (id : InstanceId) (name : String) (line : Nat) :
    Follows (property id name line) fun _ => property id name line := by
  have hsame ⦃s s' : Store⦄ (hs : s.Alike s') :
      s'.objects.property? id name = s.objects.property? id name := by
    cases hs
    rfl
  refine (follows_inspect hsame).bind fun p? _ => ?_
  cases p? with
  | none => exact (ignoresFunctions_fail line _).follows
  | some p =>
    cases p with
    | field v => exact .pure v
    | method m =>
      have hbind := follows_allocate fun _ _ hs => hs.bindMethod m id
      exact hbind.bind fun bound _ => .pure (Value.function bound)

end Lox.Lexical
