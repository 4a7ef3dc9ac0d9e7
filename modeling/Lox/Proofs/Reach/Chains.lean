import Lox.Proofs.Reach.Sound

/-! The frames of a machine: all chains end at its globals. -/
namespace Lox

open Region (whole)

theorem Heap.Reaches.lt_count {h : Heap} (hh : whole.Held h) {roots : List Place}
    (hroots : whole.AllowsAll h roots) {p : Place} (hp : h.Reaches roots p) :
    p.index < h.count p := by
  refine Region.whole_allows.1 ?_
  induction hp with
  | root hmem => exact hroots _ hmem
  | link _ hq ih => exact hh.closed ih _ hq

namespace Machine

/-- A machine between two programs whose globals are the root that they remember. -/
structure Rests (m : Machine) : Prop extends m.Sound where
  rootOf : m.heap.frames.rootOf m.globals = m.globals

theorem start_rests (limit : Option Nat) (sink : Sink) (clock : Nat → Float) :
    (start limit sink clock).Rests where
  toSound := start_sound limit sink clock
  rootOf := rfl

namespace Rests

variable {m m' : Machine} {f : FrameId}

theorem interpret {fuel : Nat} {program : List Stmt} {d? : Option Diagnostic} (h : m.Rests)
    (hrun : m.interpret fuel program = some (d?, m')) :
    m'.Rests ∧ m'.globals = m.globals ∧ m.heap.frames.Extends m'.heap.frames := by
  have hlinks := (interpret_retains hrun).heap.frames.links
  have hglobals : m'.globals = m.globals := (h.idle.interpret hrun).2.1
  exact ⟨⟨h.toSound.interpret hrun, by rw [hglobals, hlinks.rootOf h.globals, h.rootOf]⟩,
    hglobals, hlinks⟩

theorem interprets {ds : List (Option Diagnostic)} (hruns : m.Interprets ds m') (h : m.Rests) :
    m'.Rests ∧ m'.globals = m.globals ∧ m.heap.frames.Extends m'.heap.frames := by
  induction hruns with
  | nothing m => exact ⟨h, rfl, .refl _⟩
  | program hrun _ ih =>
    obtain ⟨hmid, hglobals, hext⟩ := h.interpret hrun
    obtain ⟨hlast, hglobals', hext'⟩ := ih hmid
    exact ⟨hlast, hglobals'.trans hglobals, hext.trans hext'⟩

theorem session {fuel : Nat} {sources : List String} {entries : List Entry} (h : m.Rests)
    (hrun : m.session fuel sources = some (entries, m')) :
    m'.Rests ∧ m'.globals = m.globals ∧ m.heap.frames.Extends m'.heap.frames := by
  obtain ⟨ds, hruns⟩ := session_interprets hrun
  exact interprets hruns h

/-- The frames of the machine other than the first lie in earlier ones. -/
theorem nested (h : m.Rests) {frame : Frame} (hpos : 0 < f)
    (hf : m.heap.frames.get? f = some frame) : ∃ outer, m.heap.frames.Nested f frame outer := by
  obtain ⟨outer, -, hin | hnested⟩ := h.held.nested (Nat.zero_le f) hpos hf
  · exact hin.elim
  · exact ⟨outer, hnested⟩

theorem isRoot_of_pos (h : m.Rests) (hpos : 0 < f) (hf : f < m.heap.frames.size) :
    m.heap.frames.isRoot f = false := by
  obtain ⟨⟨values, enclosing, root⟩, hframe⟩ := Frames.get?_of_lt hf
  obtain ⟨outer, hnested⟩ := h.nested hpos hframe
  cases hnested.enclosing
  simp [Frames.isRoot, hframe]

theorem globals_eq_zero (h : m.Rests) : m.globals = 0 := by
  by_contra hne
  have hroot := h.isRoot_of_pos (Nat.pos_of_ne_zero hne) h.globals
  rw [h.root] at hroot
  cases hroot

theorem rooted (h : m.Rests) : m.heap.frames.Rooted := by
  intro f frame hf
  rcases Nat.eq_zero_or_pos f with rfl | hpos
  · refine .inl ⟨?_, h.globals_eq_zero ▸ h.rootOf⟩
    have hroot := h.root
    obtain ⟨values, enclosing, root⟩ := frame
    rw [h.globals_eq_zero] at hroot
    cases enclosing with
    | none => rfl
    | some outer =>
      simp [Frames.isRoot, hf] at hroot
  · exact .inr (h.nested hpos hf)

theorem exists_chain (h : m.Rests) (hf : f < m.heap.frames.size) :
    ∃ length, m.heap.frames.Chain f length m.globals := by
  obtain ⟨length, root, hchain⟩ := h.rooted.exists_chain hf
  have hroot : m.heap.frames.isRoot root = true := (hchain.isRoot_iff hchain.last).2 rfl
  have hlt : root < m.heap.frames.size :=
    Region.whole_allows.1 (h.held.ancestor? (Region.whole_allows.2 hf) hchain.last)
  obtain rfl : root = 0 := by
    by_contra hne
    rw [h.isRoot_of_pos (Nat.pos_of_ne_zero hne) hlt] at hroot
    cases hroot
  exact ⟨length, h.globals_eq_zero ▸ hchain⟩

theorem lt_of_reaches (h : m.Rests)
    (hf : m.heap.Reaches [.frame m.globals, .frame m.current] (.frame f)) :
    f < m.heap.frames.size := by
  refine Heap.Reaches.lt_count h.held ?_ hf
  exact Region.allowsAll_cons.2 ⟨Region.whole_allows.2 h.globals,
    Region.allowsAll_singleton.2 h.current_allowed⟩

end Rests
end Machine

/-- Whatever is done to frames, each has a chain of some length whose end is its only root and the
frame that it remembers as such, and nothing that is done later changes this. In the same way every
frame that can be reached after a session has a chain that ends at the globals, of which a machine
has only one frame, and later sessions change none of it. -/
theorem chains_rooted :
    (∀ ops fs, Frames.empty.runAll? ops = some fs →
      (∀ f < fs.size, ∃ length root, fs.Chain f length root) ∧
      ∀ ops' fs', fs.runAll? ops' = some fs' → fs.KeepsChains fs') ∧
    ∀ limit sink clock fuel sources entries m,
      (Machine.start limit sink clock).session fuel sources = some (entries, m) →
      (∀ f, m.heap.Reaches [.frame m.globals, .frame m.current] (.frame f) →
        f < m.heap.frames.size ∧ ∃ length, m.heap.frames.Chain f length m.globals) ∧
      m.globals = (Machine.start limit sink clock).globals ∧
      ∀ fuel' sources' entries' m', m.session fuel' sources' = some (entries', m') →
        m'.globals = m.globals ∧ m.heap.frames.KeepsChains m'.heap.frames := by
  refine ⟨fun ops fs h => ?_, fun limit sink clock fuel sources entries m h => ?_⟩
  · obtain ⟨hrooted, -⟩ := Frames.runAll?_rooted .empty h
    exact ⟨fun f hf => hrooted.exists_chain hf,
      fun ops' fs' h' => hrooted.keepsChains (Frames.runAll?_rooted hrooted h').2⟩
  · obtain ⟨hrests, hglobals, -⟩ := (Machine.start_rests limit sink clock).session h
    refine ⟨fun f hf => ?_, hglobals, fun fuel' sources' entries' m' h' => ?_⟩
    · have hlt := hrests.lt_of_reaches hf
      exact ⟨hlt, hrests.exists_chain hlt⟩
    · obtain ⟨-, hglobals', hext⟩ := hrests.session h'
      exact ⟨hglobals', hrests.rooted.keepsChains hext⟩

/-- Two roots with a frame in each, of which one binds a name. -/
def twoRoots : List Frames.Operation :=
  [.addRoot, .addChild 0, .addRoot, .addChild 2, .update .define 3 "x" .nil]

def closureSource : String :=
  "fun make() \x7b var a = nil; fun get() \x7b return a; \x7d return get; \x7d var g = make();"

/-- The frame of a call that is over is kept by a closure, one link from the globals. -/
theorem chains_rooted_closure :
    (∃ fs fs', Frames.empty.runAll? twoRoots = some fs ∧
      (∃ length root, fs.Chain 3 length root) ∧
      fs.runAll? [.addChild 3] = some fs' ∧ fs.KeepsChains fs') ∧
    ∃ entries m entries' m',
      (Machine.start none .unlimited fun _ => 0).session 16 [closureSource] = some (entries, m) ∧
      m.heap.Reaches [.frame m.globals, .frame m.current] (.frame 1) ∧
      (∃ length, m.heap.frames.Chain 1 length m.globals) ∧
      m.session 16 ["g();"] = some (entries', m') ∧
      m.heap.frames.KeepsChains m'.heap.frames := by
  obtain ⟨hoperations, hsessions⟩ := chains_rooted
  constructor
  · obtain ⟨hchains, hkeeps⟩ := hoperations twoRoots _ rfl
    exact ⟨_, _, rfl, hchains 3 (by decide), rfl, hkeeps [.addChild 3] _ rfl⟩
  have hruns : ((Machine.start none .unlimited fun _ => 0).session 16 [closureSource]).map
      (fun r => (r.2.globals, decide (.function 1 ∈ r.2.heap.links (.frame 0)),
        r.2.heap.links (.function 1), (r.2.session 16 ["g();"]).isSome)) =
        some (0, true, [.frame 1], true) := by cbv
  obtain ⟨⟨entries, m⟩, hsession, hshown⟩ := Option.map_eq_some_iff.1 hruns
  simp only [Prod.mk.injEq, decide_eq_true_eq] at hshown
  obtain ⟨hglobals, hbound, hclosure, hlater⟩ := hshown
  obtain ⟨⟨entries', m'⟩, hlater⟩ := Option.isSome_iff_exists.1 hlater
  have hreached : m.heap.Reaches [.frame m.globals, .frame m.current] (.frame 1) := by
    have hroot : m.heap.Reaches [.frame m.globals, .frame m.current] (.frame 0) :=
      .root (hglobals ▸ List.mem_cons_self)
    exact .link (.link hroot hbound) (hclosure ▸ List.mem_cons_self)
  obtain ⟨hchains, -, hkeeps⟩ := hsessions _ _ _ _ _ _ _ hsession
  exact ⟨entries, m, entries', m', hsession, hreached, (hchains 1 hreached).2, hlater,
    (hkeeps 16 _ entries' m' hlater).2⟩

end Lox
