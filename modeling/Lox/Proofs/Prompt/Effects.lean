import Mathlib
import Lox.Session
import Lox.Proofs.Steps.Restored

/-! What one source of a session leaves to the next ones: the text that it has printed, and the
effects that it completed. That it failed is noted, and the note is never looked at. -/
namespace Lox

variable {α β : Type}

namespace Machine

/-- Up to the later machine a text has been printed, and there is still no limit. -/
def PrintsText (m m' : Machine) : Prop :=
  ∃ text : String, m'.sink = ⟨m.sink.written ++ text.toUTF8, none⟩

namespace PrintsText

variable {m m' m'' : Machine}

theorem of_sink_eq (hm : m.sink.room = none) (h : m'.sink = m.sink) : m.PrintsText m' := by
  refine ⟨"", ?_⟩
  rw [h, show "".toUTF8 = .empty from rfl, ByteArray.append_empty, ← hm]

theorem room (h : m.PrintsText m') : m'.sink.room = none := by
  obtain ⟨text, h⟩ := h
  rw [h]

theorem trans (h : m.PrintsText m') (h' : m'.PrintsText m'') : m.PrintsText m'' := by
  obtain ⟨text, h⟩ := h
  obtain ⟨text', h'⟩ := h'
  refine ⟨text ++ text', ?_⟩
  rw [h', h, String.toUTF8_eq_toByteArray, String.toUTF8_eq_toByteArray,
    String.toUTF8_eq_toByteArray, String.toByteArray_append, ByteArray.append_assoc]

theorem printedFrom (h : m.PrintsText m') :
    ∃ text : String, m'.printedFrom m.sink.written.size = text.toUTF8 := by
  obtain ⟨text, h⟩ := h
  refine ⟨text, ?_⟩
  rw [World.printedFrom, h, ByteArray.size_append, ByteArray.extract_append_eq_right rfl rfl]

end PrintsText

/-- The machine with the effects that `last` has beyond it: in the heap, in the output and on the
clock. -/
def completing (m last : Machine) : Machine :=
  { m with heap := last.heap, sink := last.sink, ticks := last.ticks }

/-- The machine with the note that it has failed, or without it. -/
def noting (m : Machine) (failed : Bool) : Machine := { m with hadError := failed }

end Machine

/-- Wherever the action ends, it has printed text. -/
def Action.PrintsText (x : Action Machine α) : Prop :=
  ∀ m : Machine, m.sink.room = none → ∀ last ∈ (x m).state?, m.PrintsText last

theorem Machine.PrintsText.passage :
    Machine.Passage fun m m' => m.sink.room = none → m.PrintsText m' where
  trans h h' hm := (h hm).trans (h' (h hm).room)
  onHeap _ _ hm := .of_sink_eq hm rfl
  print _ text hm := ⟨text, by simp only [Sink.write, hm]⟩
  tick _ hm := .of_sink_eq hm rfl
  inFrame _ h hm := h hm
  asCall h hm := h hm

theorem Action.PrintsText.executeProgram (fuel : Nat) (program : List Stmt) :
    (Machine.executeProgram fuel program).PrintsText := fun m hm last hlast =>
  Machine.PrintsText.passage.inherited.executeProgram fuel program m last hlast hm

/-- Wherever the action ends, it has had effects and has changed nothing else. -/
def Action.HasEffects (x : Action Machine α) : Prop :=
  ∀ m : Machine, ∀ last ∈ (x m).state?, last = m.completing last

theorem Machine.completing_passage : Machine.Passage fun m last => last = m.completing last where
  trans h h' := by
    rw [h] at h'
    exact h'
  onHeap _ _ := rfl
  print _ _ := rfl
  tick _ := rfl
  inFrame _ h := by
    rw [h]
    rfl
  asCall h := by
    rw [h]
    rfl

theorem Action.HasEffects.inherited : Action.Inherited fun _ x => x.HasEffects :=
  Machine.completing_passage.inherited

/-- The action neither looks at the note of a failure nor changes it. -/
def Action.IgnoresNote (x : Action Machine α) : Prop :=
  ∀ (m : Machine) (failed : Bool), x (m.noting failed) = (x m).onState (·.noting failed)

namespace Action.IgnoresNote

theorem onHeap {x : Action Machine α} (h : x.OnHeap) : x.IgnoresNote := by
  intro m failed
  obtain ⟨r, h', hr⟩ := h m.heap m.current
  rw [hr m rfl rfl, hr (m.noting failed) rfl rfl]
  cases r <;> rfl

theorem print (text : String) : (Machine.print text).IgnoresNote := by
  intro m failed
  unfold Machine.print
  cases hr : (m.toWorld.print text).1 with
  | true =>
    have hr' : ((m.noting failed).toWorld.print text).1 = true := hr
    simp only [hr, hr', if_true]
    rfl
  | false =>
    have hr' : ((m.noting failed).toWorld.print text).1 = false := hr
    simp only [hr, hr', Bool.false_eq_true, if_false]
    rfl

theorem bind {x : Action Machine α} {f : α → Action Machine β} (hx : x.IgnoresNote)
    (hf : ∀ a, (f a).IgnoresNote) : (x >>= f).IgnoresNote := by
  intro m failed
  rw [bind_apply, bind_apply, hx]
  cases x m with
  | done a m' => exact hf a m' failed
  | failed d m' => rfl
  | outOfFuel => rfl

theorem inFrame (frame : FrameId) {x : Action Machine α} (hx : x.IgnoresNote) :
    (Machine.inFrame frame x).IgnoresNote := by
  intro m failed
  have hinner := hx { m with current := frame } failed
  rw [Machine.inFrame_apply, Machine.inFrame_apply]
  change Answer.onState _ (x (Machine.noting { m with current := frame } failed)) = _
  rw [hinner]
  cases x { m with current := frame } <;> rfl

theorem asCall (line : Nat) {x : Action Machine α} (hx : x.IgnoresNote) :
    (Machine.asCall line x).IgnoresNote := by
  intro m failed
  have hinner := hx { m with toWorld := m.enterCall } failed
  have hlimit : (m.noting failed).atLimit = m.atLimit := rfl
  rw [Machine.asCall_apply, Machine.asCall_apply, hlimit]
  split
  next => rfl
  next =>
    change Answer.onState _ (x (Machine.noting { m with toWorld := m.enterCall } failed)) = _
    rw [hinner]
    cases x { m with toWorld := m.enterCall } <;> rfl

theorem inherited : Action.Inherited fun _ x => x.IgnoresNote where
  fuelSpent _ _ := rfl
  onHeap _ _ := .onHeap
  print := .print
  tick _ _ := rfl
  bind := .bind
  inFrame := .inFrame
  asCall := .asCall

end Action.IgnoresNote

namespace Machine

variable {m m' last : Machine} {fuel : Nat}

/-! What is printed. -/

theorem run_printsText {source : String} {f? : Option Failure} (hm : m.sink.room = none)
    (h : m.run fuel source = some (f?, m')) : m.PrintsText m' := by
  obtain ⟨f, -, -, rfl⟩ | ⟨program, d?, -, hrun, -⟩ := run_eq_some.1 h
  · exact .of_sink_eq hm rfl
  · have htext := Action.PrintsText.executeProgram fuel program m hm
    obtain ⟨hr, -⟩ | ⟨d, last, hr, -, rfl⟩ := interpret_eq_some.1 hrun
    · exact htext m' (by rw [hr]; rfl)
    · exact htext last (by rw [hr]; rfl)

theorem session_printsText {sources : List String} {entries : List Entry}
    (hm : m.sink.room = none) (h : m.session fuel sources = some (entries, m')) :
    ∃ texts : List String, entries.map (·.printed) = texts.map String.toUTF8 := by
  induction sources generalizing m entries with
  | nil =>
    cases h
    exact ⟨[], rfl⟩
  | cons source sources ih =>
    obtain ⟨f?, mid, others, hrun, hothers, rfl⟩ := session_cons_eq_some.1 h
    have htext := run_printsText hm hrun
    obtain ⟨text, hprinted⟩ := htext.printedFrom
    obtain ⟨texts, htexts⟩ := ih htext.room hothers
    exact ⟨text :: texts, by rw [List.map_cons, List.map_cons, hprinted, htexts]⟩

end Machine

/-! What a failure leaves. -/

/-- What an entry shows outside: the note of a failure shows nowhere. -/
def Entry.shown (e : Entry) : ByteArray × Option Failure := (e.printed, e.failure)

namespace Machine

variable {m last : Machine} (fuel : Nat)

/-- What sources show that are run on a machine. -/
def shows (sources : List String) (m : Machine) : Option (List (ByteArray × Option Failure)) :=
  (m.session fuel sources).map fun r => r.1.map Entry.shown

theorem shows_cons (source : String) (sources : List String) (m : Machine) :
    m.shows fuel (source :: sources) = (m.run fuel source).bind fun r =>
      (r.2.shows fuel sources).map ((r.2.printedFrom m.sink.written.size, r.1) :: ·) := by
  rw [shows, session, enterSource]
  cases m.run fuel source with
  | none => rfl
  | some r =>
    obtain ⟨f?, mid⟩ := r
    simp only [Option.map_some, Option.bind_eq_bind, Option.bind_some, shows]
    cases mid.session fuel sources <;> rfl

theorem interpret_noting (program : List Stmt) (m : Machine) (failed : Bool) :
    ∃ failed', (m.noting failed).interpret fuel program =
      (m.interpret fuel program).map fun r => (r.1, r.2.noting failed') := by
  unfold interpret
  rw [Action.IgnoresNote.inherited.executeProgram fuel program m failed]
  cases executeProgram fuel program m with
  | done u last => exact ⟨failed, rfl⟩
  | failed d last => exact ⟨true, rfl⟩
  | outOfFuel => exact ⟨failed, rfl⟩

theorem run_noting (source : String) (m : Machine) (failed : Bool) :
    ∃ failed', (m.noting failed).run fuel source =
      (m.run fuel source).map fun r => (r.1, r.2.noting failed') := by
  unfold run
  cases compile source with
  | error f => exact ⟨failed, rfl⟩
  | ok program =>
    obtain ⟨failed', h⟩ := interpret_noting fuel program m failed
    refine ⟨failed', ?_⟩
    simp only [h, Option.map_map]
    rfl

theorem shows_noting (sources : List String) (m : Machine) (failed : Bool) :
    (m.noting failed).shows fuel sources = m.shows fuel sources := by
  induction sources generalizing m failed with
  | nil => rfl
  | cons source sources ih =>
    obtain ⟨failed', h⟩ := run_noting fuel source m failed
    rw [shows_cons, shows_cons, h]
    cases m.run fuel source with
    | none => rfl
    | some r =>
      simp only [Option.map_some, Option.bind_some, ih]
      rfl

/-- How a source fails: nothing of it runs, or it runs up to a failure on the machine `last`. -/
inductive FailsAt (m : Machine) (source : String) : Failure → Machine → Prop
  | rejected {f : Failure} : compile source = .error f → FailsAt m source f m
  | stopped {program : List Stmt} {d : Diagnostic} {last : Machine} :
    compile source = .ok program → executeProgram fuel program m = .failed d last →
      FailsAt m source ⟨.runtime, [d]⟩ last

variable {fuel}

/-- A source that fails leaves the effects it had up to there, and the note. -/
theorem FailsAt.of_run {source : String} {f : Failure} (hm : m.Idle)
    (h : m.run fuel source = some (some f, last)) :
    ∃ stop failed, FailsAt fuel m source f stop ∧ last = (m.completing stop).noting failed := by
  obtain ⟨f', hc, hf, rfl⟩ | ⟨program, d?, hc, hrun, hf⟩ := run_eq_some.1 h
  · cases hf
    exact ⟨last, last.hadError, .rejected hc, rfl⟩
  · obtain ⟨-, rfl⟩ | ⟨d, stop, hr, rfl, rfl⟩ := interpret_eq_some.1 hrun
    · cases hf
    · cases hf
      refine ⟨stop, true, .stopped hc hr, ?_⟩
      obtain ⟨heap, sink, ticks, rfl⟩ :
          ∃ heap sink ticks, stop = { m with heap := heap, sink := sink, ticks := ticks } :=
        ⟨_, _, _, Action.HasEffects.inherited.executeProgram fuel program m stop (by rw [hr]; rfl)⟩
      simp only [completing, noting, World.fail, hm.current, hm.calls]

end Machine
end Lox
