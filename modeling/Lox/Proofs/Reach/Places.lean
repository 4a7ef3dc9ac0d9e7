import Lox.Heap
import Lox.Proofs.Frames.Chains

/-! What can be reached in a heap: the links from one of its places to others, and how they change
with the heap. -/
namespace Lox

/-- Something in the heap. -/
inductive Place where
  | frame (f : FrameId)
  | function (id : FunctionId)
  | classObject (id : ClassId)
  | object (id : InstanceId)
  deriving DecidableEq, Repr

/-- The number of a place among those of its kind. -/
def Place.index : Place → Nat
  | frame f => f
  | function id => id
  | classObject id => id
  | object id => id

/-- The place that a value refers to, if it does. -/
def Value.places : Value → List Place
  | .function id => [.function id]
  | .classObject id => [.classObject id]
  | .object id => [.object id]
  | _ => []

/-- A frame links to the frames around it and to the values that it binds. -/
def Frame.links (frame : Frame) : List Place :=
  frame.enclosing.toList.map .frame ++ frame.root.toList.map .frame ++
    frame.values.flatMap fun entry => entry.2.places

def Instance.links (i : Instance) : List Place :=
  .classObject i.classId :: i.fields.flatMap fun entry => entry.2.places

def methodPlaces (methods : Bindings FunctionId) : List Place :=
  methods.map fun entry => .function entry.2

def Heap.Property.places : Heap.Property → List Place
  | .field v => v.places
  | .method id => [.function id]

namespace Heap

/-- What a place leads to at once. -/
def links (h : Heap) : Place → List Place
  | .frame f => (h.frames.get? f).elim [] Frame.links
  | .function id => [.frame (h.function id).closure]
  | .classObject id => methodPlaces (h.classObject id).methods
  | .object id => (h.object id).links

/-- What can be reached from some places. -/
inductive Reaches (h : Heap) (roots : List Place) : Place → Prop
  | root {p : Place} : p ∈ roots → Reaches h roots p
  | link {p q : Place} : Reaches h roots p → q ∈ h.links p → Reaches h roots q

/-- How many places of its kind there are. -/
def count (h : Heap) : Place → Nat
  | .frame _ => h.frames.size
  | .function _ => h.functions.size
  | .classObject _ => h.classes.size
  | .object _ => h.instances.size

/-- Places are only ever added. -/
def GrowsTo (h h' : Heap) : Prop := ∀ p, h.count p ≤ h'.count p

namespace GrowsTo

variable {h h' h'' : Heap}

theorem refl (h : Heap) : h.GrowsTo h := fun _ => Nat.le_refl _

theorem trans (hg : h.GrowsTo h') (hg' : h'.GrowsTo h'') : h.GrowsTo h'' :=
  fun p => Nat.le_trans (hg p) (hg' p)

end GrowsTo

/-- A place holds in both heaps the same. -/
def SameAt (h h' : Heap) : Place → Prop
  | .frame f => h'.frames.get? f = h.frames.get? f
  | .function id => h'.functions[id]? = h.functions[id]?
  | .classObject id => h'.classes[id]? = h.classes[id]?
  | .object id => h'.instances[id]? = h.instances[id]?

namespace SameAt

variable {h h' : Heap} {p : Place}

theorem links (hs : h.SameAt h' p) : h'.links p = h.links p := by
  cases p with
  | frame f => exact congrArg (Option.elim · [] Frame.links) hs
  | function id => exact congrArg (fun f : Option Function => [Place.frame (f.getD _).closure]) hs
  | classObject id =>
    exact congrArg (fun c : Option ClassObject => methodPlaces (c.getD _).methods) hs
  | object id => exact congrArg (fun i : Option Instance => (i.getD _).links) hs

private theorem lt_size_iff {α : Type} {as bs : Array α} {n : Nat} (he : bs[n]? = as[n]?) :
    n < bs.size ↔ n < as.size := by
  rw [← Nat.not_le, ← Array.getElem?_eq_none_iff, he, Array.getElem?_eq_none_iff, Nat.not_le]

theorem lt_iff (hs : h.SameAt h' p) : p.index < h'.count p ↔ p.index < h.count p := by
  cases p with
  | frame f => exact lt_size_iff hs
  | function id => exact lt_size_iff hs
  | classObject id => exact lt_size_iff hs
  | object id => exact lt_size_iff hs

end SameAt

end Heap

theorem Bindings.mem_of_find? {α : Type} {b : Bindings α} {name : String} {a : α}
    (h : b.find? name = some a) : (name, a) ∈ b := by
  induction b with
  | nil => cases h
  | cons entry rest ih =>
    rcases entry with ⟨other, c⟩
    by_cases he : name = other
    · subst he
      simp only [find?, List.lookup_cons_self, Option.some.injEq] at h
      subst h
      exact List.mem_cons_self
    · have hne : (name == other) = false := by simpa using he
      simp only [find?, List.lookup_cons, hne] at h
      exact List.mem_cons_of_mem _ (ih h)

theorem Bindings.mem_insert {α : Type} {b : Bindings α} {name : String} {a : α}
    {entry : String × α} (h : entry ∈ b.insert name a) : entry = (name, a) ∨ entry ∈ b := by
  induction b with
  | nil => exact .inl (List.mem_singleton.1 h)
  | cons first rest ih =>
    rcases first with ⟨other, c⟩
    simp only [insert] at h
    split at h
    · rcases List.mem_cons.1 h with h | h
      · exact .inl h
      · exact .inr (List.mem_cons_of_mem _ h)
    · rcases List.mem_cons.1 h with h | h
      · exact .inr (h ▸ List.mem_cons_self)
      · rcases ih h with h | h
        · exact .inl h
        · exact .inr (List.mem_cons_of_mem _ h)

/-- What values lead to after one more binding. -/
theorem mem_places_insert {values : Bindings Value} {name : String} {v : Value} {p : Place}
    (h : p ∈ (values.insert name v).flatMap fun entry => entry.2.places) :
    p ∈ (values.flatMap fun entry => entry.2.places) ++ v.places := by
  obtain ⟨entry, hentry, hp⟩ := List.mem_flatMap.1 h
  rcases Bindings.mem_insert hentry with rfl | hentry
  · exact List.mem_append_right _ hp
  · exact List.mem_append_left _ (List.mem_flatMap.2 ⟨entry, hentry, hp⟩)

/-- Where what is reached lies: at what was within it from the start, or at what was made since. -/
structure Region where
  start : Heap
  within : Place → Prop

namespace Region

variable {r : Region} {h h' h'' : Heap} {p q made : Place} {ps : List Place}

/-- The place belongs to the region. -/
def Allows (r : Region) (h : Heap) (p : Place) : Prop :=
  r.within p ∨ (r.start.count p ≤ p.index ∧ p.index < h.count p)

def AllowsAll (r : Region) (h : Heap) (ps : List Place) : Prop := ∀ p ∈ ps, r.Allows h p

theorem Allows.mono (hp : r.Allows h p) (hg : h.GrowsTo h') : r.Allows h' p :=
  hp.imp_right fun hnew => ⟨hnew.1, Nat.lt_of_lt_of_le hnew.2 (hg p)⟩

theorem AllowsAll.mono (hp : r.AllowsAll h ps) (hg : h.GrowsTo h') : r.AllowsAll h' ps :=
  fun p hmem => (hp p hmem).mono hg

theorem allowsAll_nil : r.AllowsAll h [] := fun _ hp => absurd hp List.not_mem_nil

theorem allowsAll_singleton : r.AllowsAll h [p] ↔ r.Allows h p := by
  simp [AllowsAll]

theorem allowsAll_append {qs : List Place} :
    r.AllowsAll h (ps ++ qs) ↔ r.AllowsAll h ps ∧ r.AllowsAll h qs := by
  simp only [AllowsAll, List.forall_mem_append]

theorem allowsAll_cons : r.AllowsAll h (p :: ps) ↔ r.Allows h p ∧ r.AllowsAll h ps := by
  simp only [AllowsAll, List.forall_mem_cons]

/-- The frames made since the start, the first of all apart, lie inside frames of the region. -/
def Nested (r : Region) (fs : Frames) : Prop :=
  ∀ ⦃f frame⦄, r.start.frames.size ≤ f → 0 < f → fs.get? f = some frame →
    ∃ outer, frame.enclosing = some outer ∧
      (r.within (.frame outer) ∨ fs.Nested f frame outer)

/-- Nothing has left the region and nothing outside it has changed. -/
structure Held (r : Region) (h : Heap) : Prop where
  grown : r.start.GrowsTo h
  closed {p : Place} : r.Allows h p → r.AllowsAll h (h.links p)
  nested : r.Nested h.frames
  frames {f : FrameId} : f < r.start.frames.size → ¬ r.within (.frame f) →
    h.frames.get? f = r.start.frames.get? f
  objects {id : InstanceId} : id < r.start.instances.size → ¬ r.within (.object id) →
    h.instances[id]? = r.start.instances[id]?

namespace Nested

variable {fs : Frames}

theorem bind (hn : r.Nested fs) (f : FrameId) (name : String) (v : Value) :
    r.Nested (fs.bind f name v) := by
  intro g frame hmade hpos hg
  rw [Frames.get?_bind] at hg
  obtain ⟨old, hold, rfl⟩ := Option.map_eq_some_iff.1 hg
  obtain ⟨outer, he, hin⟩ := hn hmade hpos hold
  have hin' : r.within (.frame outer) ∨ (fs.bind f name v).Nested g old outer :=
    hin.imp_right fun hnest =>
      hnest.mono (.bind fs f name v) (Nat.le_of_lt (Frames.get?_eq_some_lt hold))
  split
  · exact ⟨outer, he, hin'.imp_right (·.rebind _)⟩
  · exact ⟨outer, he, hin'⟩

theorem addChild {outer : FrameId} (hn : r.Nested fs)
    (ho : r.within (.frame outer) ∨ outer < fs.size) : r.Nested (fs.addChild outer).2 := by
  intro g frame hmade hpos hg
  rw [Frames.get?_addChild] at hg
  split at hg
  next he =>
    cases hg
    exact ⟨outer, rfl, ho.imp_right fun hlt => he ▸ Frames.nested_addChild hlt⟩
  next =>
    obtain ⟨o, he, hin⟩ := hn hmade hpos hg
    exact ⟨o, he, hin.imp_right fun hnest =>
      hnest.mono (.addChild fs outer) (Nat.le_of_lt (Frames.get?_eq_some_lt hg))⟩

end Nested

namespace Held

/-- What is outside the region is not what a change inside it concerns. -/
theorem ne_of_not_within (hp : r.Allows h p) (hq : q.index < r.start.count q)
    (hout : ¬ r.within q) : q ≠ p := by
  rintro rfl
  rcases hp with hin | ⟨hnew, -⟩
  · exact hout hin
  · exact absurd hq (Nat.not_lt_of_le hnew)

/-- A change at a place of the region, or at a new one, that links only to the region. -/
theorem change (hh : r.Held h) (hg : h.GrowsTo h') (hsame : ∀ q, q ≠ p → h.SameAt h' q)
    (hp : r.Allows h' p) (hlinks : r.AllowsAll h' (h'.links p)) (hn : r.Nested h'.frames) :
    r.Held h' where
  nested := hn
  grown := hh.grown.trans hg
  closed {q} hq := by
    by_cases he : q = p
    · exact he ▸ hlinks
    · have hold : r.Allows h q := hq.imp_right fun hnew => ⟨hnew.1, (hsame q he).lt_iff.1 hnew.2⟩
      rw [(hsame q he).links]
      exact (hh.closed hold).mono hg
  frames {f} hf hout := by
    have hne : Place.frame f ≠ p := ne_of_not_within hp hf hout
    exact (hsame _ hne).trans (hh.frames hf hout)
  objects {id} hid hout := by
    have hne : Place.object id ≠ p := ne_of_not_within hp hid hout
    exact (hsame _ hne).trans (hh.objects hid hout)

end Held

/-- A later heap of a region, with what was made in between. -/
structure Leads (r : Region) (h h' : Heap) : Prop where
  grows : h.GrowsTo h'
  held : r.Held h'

namespace Leads

theorem refl (hh : r.Held h) : r.Leads h h := ⟨.refl h, hh⟩

theorem trans (hl : r.Leads h h') (hl' : r.Leads h' h'') : r.Leads h h'' :=
  ⟨hl.grows.trans hl'.grows, hl'.held⟩

end Leads

namespace Held

/-! The changes of a heap. -/

/-- A new place, which has the next number and links only to the region. -/
theorem make (hh : r.Held h) (hg : h.GrowsTo h') (hindex : made.index = h.count made)
    (hlt : h.count made < h'.count made) (hn : r.Nested h'.frames)
    (hsame : ∀ q, q ≠ made → h.SameAt h' q) (hlinks : r.AllowsAll h (h'.links made)) :
    r.Leads h h' ∧ r.Allows h' made := by
  have hmade : r.Allows h' made := .inr ⟨hindex ▸ hh.grown made, hindex ▸ hlt⟩
  exact ⟨⟨hg, hh.change hg hsame hmade (hlinks.mono hg) hn⟩, hmade⟩

theorem bind {f : FrameId} {v : Value} (hh : r.Held h) (hf : r.Allows h (.frame f))
    (hv : r.AllowsAll h v.places) (name : String) : r.Leads h (h.bind f name v) := by
  have hg : h.GrowsTo (h.bind f name v) := by
    intro q
    cases q with
    | frame g => simp [Heap.count, Heap.bind, Frames.size, Frames.bind]
    | _ => exact Nat.le_refl _
  refine ⟨hg, hh.change hg (p := .frame f) (fun q hq => ?_) (hf.mono hg) ?_ (hh.nested.bind ..)⟩
  · cases q with
    | frame g => exact Frames.get?_bind_ne fun he => hq (congrArg Place.frame he)
    | _ => rfl
  · have hlinks : ∀ q ∈ (h.bind f name v).links (.frame f), q ∈ h.links (.frame f) ++ v.places := by
      intro q hq
      simp only [Heap.links, Heap.bind] at hq ⊢
      cases hf : h.frames.get? f with
      | none =>
        rw [Frames.get?_bind, hf] at hq
        cases hq
      | some frame =>
        rw [Frames.get?_bind_self hf] at hq
        rcases List.mem_append.1 hq with hq | hq
        · exact List.mem_append_left _ (List.mem_append_left _ hq)
        · rcases List.mem_append.1 (mem_places_insert hq) with hq | hq
          · exact List.mem_append_left _ (List.mem_append_right _ hq)
          · exact List.mem_append_right _ hq
    intro q hq
    have hall := allowsAll_append.2 ⟨hh.closed hf, hv⟩
    exact (hall q (hlinks q hq)).mono hg

theorem setField {id : InstanceId} {v : Value} (hh : r.Held h) (hid : r.Allows h (.object id))
    (hv : r.AllowsAll h v.places) (name : String) : r.Leads h (h.setField id name v) := by
  have hg : h.GrowsTo (h.setField id name v) := by
    intro q
    cases q with
    | object g => simp [Heap.count, Heap.setField]
    | _ => exact Nat.le_refl _
  refine ⟨hg, hh.change hg (p := .object id) (fun q hq => ?_) (hid.mono hg) ?_ hh.nested⟩
  · cases q with
    | object g =>
      have hne : id ≠ g := fun he => hq (congrArg Place.object he.symm)
      simp only [Heap.SameAt, Heap.setField, Array.getElem?_modify, if_neg hne]
    | _ => rfl
  · have hlinks : ∀ q ∈ (h.setField id name v).links (.object id),
        q ∈ h.links (.object id) ++ v.places := by
      intro q hq
      simp only [Heap.links, Heap.object, Heap.setField, Array.getElem?_modify, if_true] at hq ⊢
      cases hi : h.instances[id]? with
      | none =>
        rw [hi] at hq
        exact List.mem_append_left _ hq
      | some i =>
        rw [hi] at hq
        rcases List.mem_cons.1 hq with rfl | hq
        · exact List.mem_cons_self
        · rcases List.mem_append.1 (mem_places_insert hq) with hq | hq
          · exact List.mem_append_left _ (List.mem_cons_of_mem _ hq)
          · exact List.mem_append_right _ hq
    intro q hq
    have hall := allowsAll_append.2 ⟨hh.closed hid, hv⟩
    exact (hall q (hlinks q hq)).mono hg

private theorem getElem?_push_of_ne {α : Type} {as : Array α} {a : α} {n : Nat}
    (h : n ≠ as.size) : (as.push a)[n]? = as[n]? := by
  rw [Array.getElem?_push, if_neg h]

theorem addFunction {f : Function} (hh : r.Held h) (hf : r.Allows h (.frame f.closure)) :
    r.Leads h (h.addFunction f).2 ∧
      r.Allows (h.addFunction f).2 (.function (h.addFunction f).1) := by
  have hg : h.GrowsTo (h.addFunction f).2 := by
    intro q
    cases q with
    | function id => simp [Heap.count, Heap.addFunction]
    | _ => exact Nat.le_refl _
  have hlinks : (h.addFunction f).2.links (.function h.functions.size) = [.frame f.closure] := by
    simp [Heap.links, Heap.function, Heap.addFunction]
  refine hh.make hg rfl (by simp [Heap.count, Heap.addFunction]) hh.nested (fun q hq => ?_) ?_
  · cases q with
    | function id => exact getElem?_push_of_ne fun he => hq (congrArg Place.function he)
    | _ => rfl
  · exact hlinks ▸ allowsAll_singleton.2 hf

theorem addClass {c : ClassObject} (hh : r.Held h) (hc : r.AllowsAll h (methodPlaces c.methods)) :
    r.Leads h (h.addClass c).2 ∧ r.Allows (h.addClass c).2 (.classObject (h.addClass c).1) := by
  have hg : h.GrowsTo (h.addClass c).2 := by
    intro q
    cases q with
    | classObject id => simp [Heap.count, Heap.addClass]
    | _ => exact Nat.le_refl _
  have hlinks : (h.addClass c).2.links (.classObject h.classes.size) = methodPlaces c.methods := by
    simp [Heap.links, Heap.classObject, Heap.addClass]
  refine hh.make hg rfl (by simp [Heap.count, Heap.addClass]) hh.nested (fun q hq => ?_) ?_
  · cases q with
    | classObject id => exact getElem?_push_of_ne fun he => hq (congrArg Place.classObject he)
    | _ => rfl
  · exact hlinks ▸ hc

theorem addInstance {id : ClassId} (hh : r.Held h) (hc : r.Allows h (.classObject id)) :
    r.Leads h (h.addInstance id).2 ∧
      r.Allows (h.addInstance id).2 (.object (h.addInstance id).1) := by
  have hg : h.GrowsTo (h.addInstance id).2 := by
    intro q
    cases q with
    | object i => simp [Heap.count, Heap.addInstance]
    | _ => exact Nat.le_refl _
  have hlinks : (h.addInstance id).2.links (.object h.instances.size) = [.classObject id] := by
    simp [Heap.links, Heap.object, Heap.addInstance, Instance.links]
  refine hh.make hg rfl (by simp [Heap.count, Heap.addInstance]) hh.nested (fun q hq => ?_) ?_
  · cases q with
    | object i => exact getElem?_push_of_ne fun he => hq (congrArg Place.object he)
    | _ => rfl
  · exact hlinks ▸ allowsAll_singleton.2 hc

/-- What is around a frame of the region belongs to it. -/
theorem rootOf {f : FrameId} (hh : r.Held h) (hf : r.Allows h (.frame f)) :
    r.Allows h (.frame (h.frames.rootOf f)) := by
  have hlinks := hh.closed hf
  unfold Frames.rootOf
  split
  next values enclosing root hframe =>
    refine hlinks _ ?_
    simp [Heap.links, hframe, Frame.links]
  next => exact hf

theorem ancestor? {f g : FrameId} {n : Nat} (hh : r.Held h) (hf : r.Allows h (.frame f))
    (ha : h.frames.ancestor? f n = some g) : r.Allows h (.frame g) := by
  induction n generalizing f with
  | zero =>
    cases ha
    exact hf
  | succ n ih =>
    rw [Frames.ancestor?] at ha
    split at ha
    next values outer root hframe =>
      refine ih (hh.closed hf _ ?_) ha
      simp [Heap.links, hframe, Frame.links]
    next => cases ha

theorem target? {f g : FrameId} {depth : Depth} (hh : r.Held h) (hf : r.Allows h (.frame f))
    (ha : h.frames.target? f depth = some g) : r.Allows h (.frame g) := by
  cases depth with
  | global =>
    cases ha
    exact hh.rootOf hf
  | hops n => exact hh.ancestor? hf ha

/-- What a frame of the region binds belongs to it. -/
theorem find? {f : FrameId} {name : String} {v : Value} (hh : r.Held h)
    (hf : r.Allows h (.frame f)) (hv : h.frames.find? f name = some v) :
    r.AllowsAll h v.places := by
  obtain ⟨frame, hframe, hv⟩ := Option.bind_eq_some_iff.1 hv
  intro p hp
  refine hh.closed hf p ?_
  have hmem := Bindings.mem_of_find? hv
  simp only [Heap.links, hframe, Option.elim_some, Frame.links, List.mem_append, List.mem_flatMap]
  exact .inr ⟨_, hmem, hp⟩

theorem read {f : FrameId} {depth : Depth} {name : String} {v : Value} (hh : r.Held h)
    (hf : r.Allows h (.frame f)) (hr : h.frames.read f depth name = .ok v) :
    r.AllowsAll h v.places := by
  unfold Frames.read at hr
  split at hr
  next => cases hr
  next g hg =>
    split at hr
    next v' hv =>
      cases hr
      exact hh.find? (hh.target? hf hg) hv
    next => cases hr

theorem holder {f g : FrameId} {depth : Depth} {name : String} (hh : r.Held h)
    (hf : r.Allows h (.frame f)) (hr : h.frames.holder f depth name = .ok g) :
    r.Allows h (.frame g) := by
  unfold Frames.holder at hr
  split at hr
  next => cases hr
  next g' hg =>
    split at hr
    next =>
      cases hr
      exact hh.target? hf hg
    next => cases hr

theorem addFrame {outer : FrameId} (hh : r.Held h) (ho : r.Allows h (.frame outer)) :
    r.Leads h (h.addFrame outer).2 ∧
      r.Allows (h.addFrame outer).2 (.frame (h.addFrame outer).1) := by
  have hg : h.GrowsTo (h.addFrame outer).2 := by
    intro q
    cases q with
    | frame f => simp [Heap.count, Heap.addFrame, Frames.size_addChild]
    | _ => exact Nat.le_refl _
  have hlinks : (h.addFrame outer).2.links (.frame h.frames.size) =
      [.frame outer, .frame (h.frames.rootOf outer)] := by
    simp [Heap.links, Heap.addFrame, Frames.get?_addChild, Frame.links]
  have hlt : h.frames.size < (h.addFrame outer).2.frames.size := by
    simp [Heap.addFrame, Frames.size_addChild]
  have hn : r.Nested (h.addFrame outer).2.frames :=
    hh.nested.addChild (ho.imp_right And.right)
  refine hh.make hg rfl hlt hn (fun q hq => ?_) ?_
  · cases q with
    | frame f =>
      have hne : f ≠ h.frames.size := fun he => hq (congrArg Place.frame he)
      simp only [Heap.SameAt, Heap.addFrame, Frames.get?_addChild, if_neg hne]
    | _ => rfl
  · exact hlinks ▸ allowsAll_cons.2 ⟨ho, allowsAll_singleton.2 (hh.rootOf ho)⟩

theorem addMethods {frame : FrameId} {methods : List (FunDecl Stmt)} {table : Bindings FunctionId}
    (hh : r.Held h) (hf : r.Allows h (.frame frame)) (ht : r.AllowsAll h (methodPlaces table)) :
    r.Leads h (h.addMethods frame methods table).2 ∧
      r.AllowsAll (h.addMethods frame methods table).2
        (methodPlaces (h.addMethods frame methods table).1) := by
  induction methods generalizing h table with
  | nil => exact ⟨.refl hh, ht⟩
  | cons decl rest ih =>
    obtain ⟨hl, hmade⟩ := hh.addFunction (f := ⟨decl, frame⟩) hf
    have htable : r.AllowsAll (h.addFunction ⟨decl, frame⟩).2
        (methodPlaces (table.insert decl.name (h.addFunction ⟨decl, frame⟩).1)) := by
      intro p hp
      obtain ⟨entry, hentry, rfl⟩ := List.mem_map.1 hp
      rcases Bindings.mem_insert hentry with rfl | hentry
      · exact hmade
      · exact (ht _ (List.mem_map.2 ⟨entry, hentry, rfl⟩)).mono hl.grows
    obtain ⟨hl', hall⟩ := ih hl.held (hf.mono hl.grows) htable
    exact ⟨hl.trans hl', hall⟩

theorem bindMethod {method : FunctionId} {receiver : InstanceId} (hh : r.Held h)
    (hm : r.Allows h (.function method)) (hr : r.Allows h (.object receiver)) :
    r.Leads h (h.bindMethod method receiver).2 ∧
      r.Allows (h.bindMethod method receiver).2 (.function (h.bindMethod method receiver).1) := by
  have hclosure : r.Allows h (.frame (h.function method).closure) :=
    allowsAll_singleton.1 (hh.closed hm)
  obtain ⟨hl, hframe⟩ := hh.addFrame hclosure
  have hthis : r.AllowsAll (h.addFrame (h.function method).closure).2
      (Value.object receiver).places := allowsAll_singleton.2 (hr.mono hl.grows)
  have hl' := hl.held.bind hframe hthis "this"
  obtain ⟨hl'', hmade⟩ := hl'.held.addFunction
    (f := ⟨(h.function method).decl, (h.addFrame (h.function method).closure).1⟩)
    (hframe.mono hl'.grows)
  exact ⟨(hl.trans hl').trans hl'', hmade⟩

theorem property? {id : InstanceId} {name : String} {found : Heap.Property} (hh : r.Held h)
    (hid : r.Allows h (.object id)) (hp : h.property? id name = some found) :
    r.AllowsAll h found.places := by
  obtain ⟨hclass, hfields⟩ := allowsAll_cons.1 (hh.closed hid)
  unfold Heap.property? at hp
  split at hp
  next v hv =>
    cases hp
    intro p hp
    exact hfields p (List.mem_flatMap.2 ⟨_, Bindings.mem_of_find? hv, hp⟩)
  next =>
    obtain ⟨method, hm, rfl⟩ := Option.map_eq_some_iff.1 hp
    have hmem := List.mem_map_of_mem (f := fun entry => Place.function entry.2)
      (Bindings.mem_of_find? hm)
    exact allowsAll_singleton.2 (hh.closed hclass _ hmem)

theorem initializer? {id : ClassId} {method : FunctionId} (hh : r.Held h)
    (hid : r.Allows h (.classObject id)) (hm : h.initializer? id = some method) :
    r.Allows h (.function method) := by
  have hmem := List.mem_map_of_mem (f := fun entry => Place.function entry.2)
    (Bindings.mem_of_find? hm)
  exact hh.closed hid _ hmem

end Held
end Region
end Lox
