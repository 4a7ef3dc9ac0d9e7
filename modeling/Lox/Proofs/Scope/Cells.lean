import Mathlib.Data.List.Nodup
import Mathlib.Order.Interval.Set.LinearOrder
import Lox.Proofs.Renaming.Rename
import Lox.Proofs.Scope.Declared

/-! The walk of the scopes over a tree that stays as it is: the depths of its occurrences lie in
cells, numbered in the order of the tree, and the walk writes into them. Pieces of a tree have
ranges of cells apart from each other, so what is written in one leaves the others alone. -/
namespace Lox

/-- A depth that is written into a cell, and what the cell held before, if there is such a cell. -/
structure DepthWrite where
  cell : Nat
  held : Option Depth
  depth : Depth
  deriving DecidableEq

/-- The state of a walk that writes depths into cells, with all writes so far, oldest first. -/
structure Pass extends Scoping where
  cells : List Depth
  writes : List DepthWrite

namespace Pass

def setDepth (p : Pass) (cell : Nat) (depth : Depth) : Pass :=
  { p with
    cells := p.cells.set cell depth
    writes := p.writes ++ [⟨cell, p.cells[cell]?, depth⟩] }

/-- A name found in a scope gets its distance; for any other nothing is written. -/
def place (p : Pass) (name : String) (cell : Nat) : Pass :=
  match Scope.distance? name p.scopes with
  | some n => p.setDepth cell (.hops n)
  | none => p

/-- Changes the scopes and the reports. -/
def onScoping (p : Pass) (f : Scoping → Scoping) : Pass := { p with toScoping := f p.toScoping }

end Pass

/-- A walk that stops at its first fault. -/
abbrev Walk := Pass → Pass × Option Diagnostic

namespace Walk

def andThen (x y : Walk) : Walk := fun p =>
  match x p with
  | (q, some d) => (q, some d)
  | (q, none) => y q

def check (o : Occurrence) (line : Nat) : Walk := fun p => (p, o.fault? p.scopes line)

def place (o : Occurrence) (cell : Nat) : Walk := fun p => (p.place o.name cell, none)

end Walk

mutual
/-- The occurrences of the expression have the cells from `n` on. -/
def Expr.fill : Expr → Nat → Walk
  | .literal _ _, _ => fun p => (p, none)
  | .group inner _, n => inner.fill n
  | .unary _ right _, n => right.fill n
  | .binary left _ right _, n => (left.fill n).andThen (right.fill (n + left.depths.length))
  | .read o line, n => (Walk.check o line).andThen (.place o n)
  | .this o _, n => .place o n
  | .assign target value line, n =>
    (value.fill (n + 1)).andThen ((Walk.check target line).andThen (.place target n))
  | .get object _ _, n => object.fill n
  | .set object _ value _, n => (value.fill (n + object.depths.length)).andThen (object.fill n)
  | .call callee arguments _, n =>
    (callee.fill n).andThen (argumentsFill arguments (n + callee.depths.length))

def argumentsFill : List Expr → Nat → Walk
  | [], _ => fun p => (p, none)
  | e :: rest, n => (e.fill n).andThen (argumentsFill rest (n + e.depths.length))
end

namespace Pass

def fill (p : Pass) (e : Expr) (n : Nat) : Pass :=
  match e.fill n p with
  | (q, some d) => q.onScoping (·.report d)
  | (q, none) => q

def fill? (p : Pass) (e? : Option Expr) (n : Nat) : Pass :=
  match e? with
  | none => p
  | some e => p.fill e n

def fillVar (p : Pass) (decl : VarDecl) (n : Nat) : Pass :=
  if p.isTaken decl.name then p.onScoping (·.redeclared decl.name decl.line)
  else
    ((p.onScoping (·.record decl.name false)).fill? decl.initializer n).onScoping
      (·.record decl.name true)

def fillInit (p : Pass) (init : ForInit) (n : Nat) : Pass :=
  match init with
  | .nothing => p
  | .declare decl => p.fillVar decl n
  | .evaluate e => p.fill e n

end Pass

mutual
/-- The occurrences of the statement have the cells from `n` on. -/
def Stmt.fill : Stmt → Nat → Pass → Pass
  | .expression e _, n, p => p.fill e n
  | .print e _, n, p => p.fill e n
  | .var decl, n, p => p.fillVar decl n
  | .function decl, n, p =>
    if p.isTaken decl.name then p.onScoping (·.redeclared decl.name decl.line)
    else functionFill decl n (p.onScoping (·.record decl.name true))
  | .classDecl name methods line, n, p =>
    if p.isTaken name then p.onScoping (·.redeclared name line)
    else
      let inside := p.onScoping fun s => (s.record name true).enter [("this", true)]
      (methodsFill methods n inside).onScoping (·.leave)
  | .block statements _, n, p =>
    (statementsFill statements n (p.onScoping (·.enter []))).onScoping (·.leave)
  | .ifThen condition thenBranch _, n, p =>
    thenBranch.fill (n + condition.depths.length) (p.fill condition n)
  | .ifElse condition thenBranch elseBranch _, n, p =>
    let t := n + condition.depths.length
    elseBranch.fill (t + thenBranch.depths.length) (thenBranch.fill t (p.fill condition n))
  | .whileLoop condition body _, n, p =>
    body.fill (n + condition.depths.length) (p.fill condition n)
  | .forLoop init condition increment body _, n, p =>
    let c := n + init.depths.length
    let i := c + (optionalDepths condition).length
    let b := i + (optionalDepths increment).length
    let inside := if init.isDeclaration then p.onScoping (·.enter []) else p
    let q := body.fill b (((inside.fillInit init n).fill? condition c).fill? increment i)
    if init.isDeclaration then q.onScoping (·.leave) else q
  | .loopExit _ _, _, p => p
  | .returns value _, n, p => p.fill? value n

def statementsFill : List Stmt → Nat → Pass → Pass
  | [], _, p => p
  | first :: rest, n, p => statementsFill rest (n + first.depths.length) (first.fill n p)

def functionFill : FunDecl Stmt → Nat → Pass → Pass
  | ⟨_, params, body, line, _⟩, n, p =>
    let inside := p.onScoping fun s => (s.enter []).declareParams line params
    (statementsFill body n inside).onScoping (·.leave)

def methodsFill : List (FunDecl Stmt) → Nat → Pass → Pass
  | [], _, p => p
  | method :: rest, n, p =>
    methodsFill rest (n + (functionDepths method).length) (functionFill method n p)
end

/-- Fills the cells of a program, which hold the depths that the program comes with. -/
def fillProgram (program : List Stmt) : Pass :=
  statementsFill program 0 ⟨.start, statementsDepths program, []⟩

/-! What is written. -/

namespace DepthWrite

/-- The cells after some writes. -/
def replay (ws : List DepthWrite) (cells : List Depth) : List Depth :=
  ws.foldl (fun cells w => cells.set w.cell w.depth) cells

theorem replay_append (ws ws' : List DepthWrite) (cells : List Depth) :
    replay (ws ++ ws') cells = replay ws' (replay ws cells) := List.foldl_append

theorem replay_length (ws : List DepthWrite) (cells : List Depth) :
    (replay ws cells).length = cells.length := by
  induction ws generalizing cells with
  | nil => rfl
  | cons w ws ih => exact (ih _).trans List.length_set

theorem getElem?_replay {ws : List DepthWrite} {i : Nat} (h : ∀ w ∈ ws, w.cell ≠ i)
    (cells : List Depth) : (replay ws cells)[i]? = cells[i]? := by
  induction ws generalizing cells with
  | nil => rfl
  | cons w ws ih =>
    have hne := h w List.mem_cons_self
    have hrest := ih (fun w hw => h w (.tail _ hw)) (cells.set w.cell w.depth)
    exact hrest.trans (List.getElem?_set_ne hne)

end DepthWrite

open DepthWrite (replay)

namespace Pass

/-- Between two states only cells of a set are written, each at most once. -/
def Touches (S : Set Nat) (p q : Pass) : Prop :=
  ∃ ws : List DepthWrite, q.writes = p.writes ++ ws ∧ q.cells = replay ws p.cells ∧
    (ws.map DepthWrite.cell).Nodup ∧ ∀ w ∈ ws, w.cell ∈ S ∧ w.held = p.cells[w.cell]?

namespace Touches

variable {S T : Set Nat} {p q r : Pass}

theorem refl (S : Set Nat) (p : Pass) : Touches S p p := ⟨[], by simp [replay]⟩

theorem length_eq (h : Touches S p q) : q.cells.length = p.cells.length := by
  obtain ⟨ws, -, hcells, -⟩ := h
  rw [hcells, DepthWrite.replay_length]

/-- All other cells stay as they are. -/
theorem frame (h : Touches S p q) {i : Nat} (hi : i ∉ S) : q.cells[i]? = p.cells[i]? := by
  obtain ⟨ws, -, hcells, -, hin⟩ := h
  rw [hcells]
  refine DepthWrite.getElem?_replay (fun w hw hc => hi ?_) _
  exact hc ▸ (hin w hw).1

/-- Two ranges of cells that are apart are written one behind the other. -/
theorem trans (h : Touches S p q) (h' : Touches T q r) (hapart : ∀ i ∈ S, i ∉ T) :
    Touches (S ∪ T) p r := by
  have hframe {i : Nat} (hi : i ∈ T) : q.cells[i]? = p.cells[i]? :=
    h.frame fun hs => hapart i hs hi
  obtain ⟨ws, hwrites, hcells, hnodup, hin⟩ := h
  obtain ⟨ws', hwrites', hcells', hnodup', hin'⟩ := h'
  refine ⟨ws ++ ws', ?_, ?_, ?_, List.forall_mem_append.2 ⟨fun w hw => ?_, fun w hw => ?_⟩⟩
  · rw [hwrites', hwrites, List.append_assoc]
  · rw [hcells', hcells, DepthWrite.replay_append]
  · rw [List.map_append, List.nodup_append']
    refine ⟨hnodup, hnodup', fun c hc hc' => ?_⟩
    obtain ⟨w, hw, rfl⟩ := List.mem_map.1 hc
    obtain ⟨w', hw', hsame⟩ := List.mem_map.1 hc'
    exact hapart w.cell (hin w hw).1 (hsame ▸ (hin' w' hw').1)
  · exact ⟨.inl (hin w hw).1, (hin w hw).2⟩
  · obtain ⟨hcell, hheld⟩ := hin' w hw
    exact ⟨.inr hcell, hheld.trans (hframe hcell)⟩

end Touches

/-- The cells from `n` on hold these depths. -/
def Holds (p : Pass) (n : Nat) (depths : List Depth) : Prop :=
  ∀ i < depths.length, p.cells[n + i]? = depths[i]?

theorem holds_append {p : Pass} {n : Nat} {depths depths' : List Depth} :
    p.Holds n (depths ++ depths') ↔ p.Holds n depths ∧ p.Holds (n + depths.length) depths' := by
  constructor
  · intro h
    refine ⟨fun i hi => ?_, fun i hi => ?_⟩
    · have hcell := h i (by simp; omega)
      rwa [List.getElem?_append_left hi] at hcell
    · have hcell := h (depths.length + i) (by simpa using hi)
      rwa [List.getElem?_append_right (Nat.le_add_right _ _), Nat.add_sub_cancel_left,
        ← Nat.add_assoc] at hcell
  · rintro ⟨h, h'⟩ i hi
    rcases Nat.lt_or_ge i depths.length with hlt | hge
    · rw [List.getElem?_append_left hlt, h i hlt]
    · have hcell := h' (i - depths.length) (by simp at hi; omega)
      rwa [Nat.add_assoc, Nat.add_sub_cancel' hge, ← List.getElem?_append_right hge] at hcell

theorem Holds.frame {S : Set Nat} {p q : Pass} {n : Nat} {depths : List Depth}
    (h : p.Holds n depths) (ht : Touches S p q)
    (hapart : ∀ i ∈ Set.Ico n (n + depths.length), i ∉ S) : q.Holds n depths := by
  intro i hi
  have hin : n + i ∈ Set.Ico n (n + depths.length) := ⟨Nat.le_add_right _ _, by omega⟩
  rw [ht.frame (hapart _ hin), h i hi]

/-- Between two states the cells from `n` on come to hold other depths, each by at most one write.
No other cell is written. -/
structure Refills (n : Nat) (old new : List Depth) (p q : Pass) : Prop where
  touches : Touches (Set.Ico n (n + old.length)) p q
  length_eq : new.length = old.length
  holds : p.Holds n old → q.Holds n new

namespace Refills

variable {n : Nat} {old new old' new' : List Depth} {p q r : Pass}

theorem refl (n : Nat) (depths : List Depth) (p : Pass) : Refills n depths depths p p :=
  ⟨.refl _ p, rfl, id⟩

private theorem front_apart (n : Nat) (old old' : List Depth) :
    ∀ i ∈ Set.Ico n (n + old.length),
      i ∉ Set.Ico (n + old.length) (n + old.length + old'.length) :=
  fun _ h h' => Nat.not_lt.2 h'.1 h.2

private theorem behind_apart (n : Nat) (old old' : List Depth) :
    ∀ i ∈ Set.Ico (n + old.length) (n + old.length + old'.length),
      i ∉ Set.Ico n (n + old.length) :=
  fun i h h' => front_apart n old old' i h' h

private theorem ranges_union (n : Nat) (old old' : List Depth) :
    Set.Ico n (n + old.length) ∪ Set.Ico (n + old.length) (n + old.length + old'.length) =
      Set.Ico n (n + (old ++ old').length) := by
  rw [List.length_append, ← Nat.add_assoc]
  exact Set.Ico_union_Ico_eq_Ico (Nat.le_add_right _ _) (Nat.le_add_right _ _)

/-- First the cells in front, then those behind. -/
theorem append (h : Refills n old new p q) (h' : Refills (n + old.length) old' new' q r) :
    Refills n (old ++ old') (new ++ new') p r where
  touches := ranges_union n old old' ▸ h.touches.trans h'.touches (front_apart n old old')
  length_eq := by simp only [List.length_append, h.length_eq, h'.length_eq]
  holds hp := by
    obtain ⟨hfront, hbehind⟩ := holds_append.1 hp
    have hnew := (h.holds hfront).frame h'.touches (h.length_eq ▸ front_apart n old old')
    have hnew' := h'.holds (hbehind.frame h.touches (behind_apart n old old'))
    exact holds_append.2 ⟨hnew, h.length_eq ▸ hnew'⟩

/-- First the cells behind, then those in front. -/
theorem prepend (h : Refills (n + old.length) old' new' p q) (h' : Refills n old new q r) :
    Refills n (old ++ old') (new ++ new') p r where
  touches := by
    rw [← ranges_union n old old', Set.union_comm]
    exact h.touches.trans h'.touches (behind_apart n old old')
  length_eq := by simp only [List.length_append, h.length_eq, h'.length_eq]
  holds hp := by
    obtain ⟨hfront, hbehind⟩ := holds_append.1 hp
    have hnew := h'.holds (hfront.frame h.touches (front_apart n old old'))
    have hnew' := (h.holds hbehind).frame h'.touches (h.length_eq ▸ behind_apart n old old')
    exact holds_append.2 ⟨hnew, h'.length_eq ▸ hnew'⟩

end Refills

theorem touches_setDepth (p : Pass) (cell : Nat) (depth : Depth) :
    Touches {cell} p (p.setDepth cell depth) :=
  ⟨[⟨cell, p.cells[cell]?, depth⟩], rfl, rfl, List.nodup_singleton _, by simp⟩

/-- An occurrence has one cell. -/
theorem refills_place (p : Pass) (o : Occurrence) (cell : Nat) :
    Refills cell [o.depth] [(o.locate p.scopes).depth] p (p.place o.name cell) := by
  unfold place Occurrence.locate
  cases Scope.distance? o.name p.scopes with
  | none => exact .refl cell [o.depth] p
  | some n =>
    have hone : Set.Ico cell (cell + 1) = {cell} := by
      ext i
      simp only [Set.mem_Ico, Set.mem_singleton_iff]
      omega
    refine ⟨hone ▸ p.touches_setDepth cell _, rfl, fun hp i hi => ?_⟩
    obtain rfl : i = 0 := by simpa using hi
    obtain ⟨hlt, -⟩ := List.getElem?_eq_some_iff.1 (hp 0 Nat.one_pos)
    exact List.getElem?_set_self hlt

end Pass
end Lox
