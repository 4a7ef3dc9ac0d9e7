import Lox.Proofs.Lexical.Sessions
import Lox.Proofs.Loops.Simulation

/-! Programs with a `for` loop rewritten: the scopes accept both or neither, and both run alike. -/
namespace Lox

/-- The program ends on the machine, with this failure or none, and leaves this world around it. -/
def Machine.EndsWith (m : Machine) (program : List Stmt) (failure : Option Diagnostic)
    (world : World) : Prop :=
  ∃ fuel, (m.interpret fuel program).map (fun r => (r.1, r.2.toWorld)) = some (failure, world)

namespace Lexical

def Store.EndsWith (s : Store) (program : List Stmt) (failure : Option Diagnostic)
    (world : World) : Prop :=
  ∃ fuel, (s.interpret fuel program).map (fun r => (r.1, r.2.toWorld)) = some (failure, world)

variable {program program' : List Stmt} {failure : Option Diagnostic} {world : World}

theorem follows_executeProgram (fuel : Nat) (h : StatementsAlike .plain program program') :
    Follows (executeProgram fuel program) fun n => executeProgram n program' := by
  induction program generalizing program' with
  | nil =>
    cases h
    exact .pure ()
  | cons s rest ih =>
    cases h with
    | cons hs hrest =>
      exact ((evaluationsFollow fuel).execute_plain hs).bind fun _ _ => ih hrest

theorem Store.EndsWith.alike {s : Store} (h : s.EndsWith program failure world)
    (hp : StatementsAlike .plain program program') : s.EndsWith program' failure world := by
  rcases h with ⟨fuel, h⟩
  unfold interpret at h
  rcases follows_executeProgram fuel hp (.refl s) with hout | ⟨r', hr, least, hy⟩
  · rw [hout] at h
    cases h
  · have hleast : executeProgram least program' s = r' := hy least (Nat.le_refl _)
    refine ⟨least, ?_⟩
    unfold interpret
    rw [hleast]
    generalize executeProgram fuel program s = r at h hr
    cases hr with
    | done ht => simpa [ht.toWorld_eq] using h
    | failed ht => simpa [ht.toWorld_eq] using h

theorem Store.endsWith_iff {s : Store} (hp : StatementsAlike .plain program program') :
    s.EndsWith program failure world ↔ s.EndsWith program' failure world :=
  ⟨fun h => h.alike hp, fun h => h.alike hp.symm⟩

namespace Pair

theorem Ends.worlds {α : Type} {good : α → Prop} {r : Option (α × Machine)}
    {r' : Option (α × Store)} (h : Ends good r r') :
    r.map (fun x => (x.1, x.2.toWorld)) = r'.map fun x => (x.1, x.2.toWorld) := by
  cases h with
  | outOfFuel => rfl
  | done h _ => simp only [Option.map_some, h.twin.world]

theorem Ends.rests {α : Type} {good : α → Prop} {a : α} {m : Machine} {r : Option (α × Machine)}
    {r' : Option (α × Store)} (h : Ends good r r') (hr : r = some (a, m)) :
    ∃ p : Pair, p.Rests ∧ p.machine = m := by
  cases h with
  | outOfFuel => cases hr
  | done hp _ =>
    cases hr
    exact ⟨_, hp, rfl⟩

theorem Rests.endsWith_iff {p : Pair} (h : p.Rests) (hp : statementsPlaced .top [] program) :
    p.machine.EndsWith program failure world ↔ p.store.EndsWith program failure world := by
  apply exists_congr
  intro fuel
  rw [(interpret_ends fuel h hp).worlds]

end Pair
end Lexical

open Lexical

/-- Depths are of no account to lexical scoping. -/
theorem Lexical.Store.endsWith_located {s : Store} {program : List Stmt}
    {failure : Option Diagnostic} {world : World} :
    s.EndsWith (locateProgram program).1 failure world ↔ s.EndsWith program failure world :=
  (Store.endsWith_iff (statementsAlike_locate program .start)).symm

/-- A `for` loop of a parsed program whose body does not declare a name of the increment anew may
be replaced by a block with the first clause and a `while` loop, which has the increment behind the
body and in front of each `continue`. The scopes accept both programs or neither. On a machine that
any session has left behind, both end with the same failure or none, and with the same world, or
neither ends. -/
theorem Machine.interpret_desugared {source : String}
    (hparse : (Grammar.parse (Token.scan source)).diagnostics = []) {program' : List Stmt}
    (hdesugar : StatementsDesugar (Grammar.parse (Token.scan source)).statements program') :
    let program := (Grammar.parse (Token.scan source)).statements
    ((locateProgram program).2 = [] ↔ (locateProgram program').2 = []) ∧
      ((locateProgram program).2 = [] → ∀ (limit : Option Nat) (sink : Sink) (clock : Nat → Float)
        (fuel : Nat) (sources : List String) (entries : List Entry) (m : Machine),
        (Machine.start limit sink clock).session fuel sources = some (entries, m) →
          ∀ (failure : Option Diagnostic) (world : World),
            m.EndsWith (locateProgram program).1 failure world ↔
              m.EndsWith (locateProgram program').1 failure world) := by
  intro program
  obtain ⟨hg, used, hspell, hmem⟩ := parsed_spelled hparse
  have hw : statementsWritable program :=
    ⟨_, hspell, thisName_not_mem_symbols fun t ht => (Token.scan_sincere (hmem t ht)).2⟩
  have hg' := hdesugar.grammatical hg
  have haccept : (locateProgram program).2 = [] ↔ (locateProgram program').2 = [] := by
    rw [locateProgram_quiet_iff hg, locateProgram_quiet_iff hg', hdesugar.wellScoped hg]
  refine ⟨haccept, ?_⟩
  intro hq limit sink clock fuel sources entries m hm failure world
  have hsession := Pair.session_ends fuel sources (Pair.start_rests limit sink clock)
  have hplaced := locateProgram_placed hg hw hq
  have hplaced' := locateProgram_placed hg' (hdesugar.writable hw) (haccept.1 hq)
  obtain ⟨p, hrests, rfl⟩ : ∃ p : Pair, p.Rests ∧ p.machine = m := hsession.rests hm
  calc p.machine.EndsWith (locateProgram program).1 failure world
    _ ↔ p.store.EndsWith (locateProgram program).1 failure world := hrests.endsWith_iff hplaced
    _ ↔ p.store.EndsWith program failure world := Store.endsWith_located
    _ ↔ p.store.EndsWith program' failure world := Store.endsWith_iff (hdesugar.alike hg hw)
    _ ↔ p.store.EndsWith (locateProgram program').1 failure world := Store.endsWith_located.symm
    _ ↔ p.machine.EndsWith (locateProgram program').1 failure world :=
      (hrests.endsWith_iff hplaced').symm

/-! A loop that prints nothing in its second turn, before and after. -/
namespace Skipping

def source : String :=
  "for (var s = \"a\"; s != \"aaa\"; s = s + \"a\") \x7b if (s == \"aa\") continue; print s; \x7d"

def letters (text : String) : Expr := .literal (.string text) 1

def start : VarDecl := ⟨"s", some (letters "a"), 1⟩

def condition : Expr := .binary (.read ⟨"s", .global⟩ 1) (.strict .notEqual) (letters "aaa") 1

def increment : Expr :=
  .assign ⟨"s", .global⟩ (.binary (.read ⟨"s", .global⟩ 1) (.strict .add) (letters "a") 1) 1

def body (next : Stmt) : Stmt :=
  .block
    [.ifThen (.binary (.read ⟨"s", .global⟩ 1) (.strict .equal) (letters "aa") 1) next 1,
      .print (.read ⟨"s", .global⟩ 1) 1] 1

def before : Stmt :=
  .forLoop (.declare start) (some condition) (some increment) (body (.loopExit .toNext 1)) 1

def after : Stmt :=
  .block
    [.var start,
      .whileLoop condition
        (.block
          [body (.block [.expression increment 1, .loopExit .toNext 1] 1),
            .expression increment 1] 1) 1] 1

theorem before_desugars : before.Desugars after := by
  refine .loop ?_
  simp [body, Stmt.declaredNames, statementsDeclaredNames]

theorem source_parses : Grammar.parse (Token.scan source) = ⟨[before], []⟩ := by cbv

end Skipping

/-- With the `while` loop, too, the increment is reached from the `continue`. -/
theorem Machine.interpret_desugared_skipping :
    let m := Machine.start none .unlimited fun _ => 0
    StatementsDesugar (Grammar.parse (Token.scan Skipping.source)).statements [Skipping.after] ∧
      (locateProgram [Skipping.after]).2 = [] ∧
        ∃ world, m.EndsWith (locateProgram [Skipping.after]).1 none world ∧
          world.printedFrom 0 = "a\n".toUTF8 := by
  intro m
  have hparse : (Grammar.parse (Token.scan Skipping.source)).diagnostics = [] := by
    rw [Skipping.source_parses]
  have hdesugar :
      StatementsDesugar (Grammar.parse (Token.scan Skipping.source)).statements
        [Skipping.after] := by
    rw [Skipping.source_parses]
    exact .first Skipping.before_desugars
  obtain ⟨haccept, hruns⟩ := Machine.interpret_desugared hparse hdesugar
  simp only [Skipping.source_parses] at haccept hruns
  have hquiet : (locateProgram [Skipping.before]).2 = [] := by cbv
  have hrun : (m.interpret 16 (locateProgram [Skipping.before]).1).map
      (fun r => (r.1, r.2.toWorld.printedFrom 0)) = some (none, "a\n".toUTF8) := by cbv
  obtain ⟨⟨failure, last⟩, h, he⟩ := Option.map_eq_some_iff.1 hrun
  obtain ⟨hnone, hprinted⟩ := Prod.mk.inj he
  have hends : m.EndsWith (locateProgram [Skipping.before]).1 none last.toWorld := by
    refine ⟨16, ?_⟩
    rw [h]
    exact congrArg (fun f => some (f, last.toWorld)) hnone
  have hsession : Machine.session 0 [] m = some ([], m) := rfl
  have hends' := (hruns hquiet _ _ _ _ _ _ _ hsession none last.toWorld).1 hends
  exact ⟨hdesugar, haccept.1 hquiet, last.toWorld, hends', hprinted⟩

end Lox
